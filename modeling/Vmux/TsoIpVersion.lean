import Vmux.ChecksumOffload
import Vmux.SendTso

namespace Vmux.TsoIpVersion

open Bytes Checksums DescriptorQueue LanTx TxUnits TxTermination TxFrames TxBounds OnesComplement ChecksumOffload

/-- The kind of IP header that a data descriptor names. The source keeps its upper bit in `iipt`, and does not use it. -/
def cmdIipt (d1 : ℕ) : ℕ := d1 / 0x200 % 4

def iiptIpv6 : ℕ := 1

/-- The pseudo-header of TCP over an IPv6 header that starts at `ip`. -/
def pseudoHeader6 (h : List UInt8) (ip n : ℕ) : List UInt8 := slice h (ip + 8) 32 ++ beBytes 4 n ++ [0, 0, 0, 6]

/-- What `rte_ipv4_phdr_cksum` takes for one. -/
def pseudoHeader4 (h : List UInt8) (ip n : ℕ) : List UInt8 :=
  slice h (ip + 12) 8 ++ [0] ++ slice h (ip + 9) 1 ++ beBytes 2 n

/-- A frame of a unit: the IPv6 header is that of the unit up to its payload length, which is right,
and the TCP checksum is valid. -/
structure Ipv6Frame (unit : List UInt8) (ip iplen : ℕ) (f : List UInt8) : Prop where
  header : ∀ k, ip ≤ k → k < ip + iplen → k ≠ ip + 4 → k ≠ ip + 5 → f[k]? = unit[k]?
  payloadLength : ntohs f (ip + 4) = f.length - (ip + 40)
  tcp : Verifies (pseudoHeader6 f ip (f.length - (ip + iplen)) ++ f.drop (ip + iplen))

inductive OlFlag
  | ieee1588Tmst | tcpSeg | ipv4 | ipv6 | ipCksum
deriving DecidableEq, Repr

/-- What `send_tso` sets in `ol_flags`, for every unit. -/
def olFlags : List OlFlag := [.ieee1588Tmst, .tcpSeg, .ipv4, .ipCksum]

/-- What the port is asked to cut into segments. -/
structure Request where
  flags : List OlFlag
  data : List UInt8

def request (unit : List UInt8) (l2 l3 : ℕ) : Request := ⟨olFlags, SendTso.prepareHeader unit l2 l3⟩

/-- A request for a unit of TCP over IPv6. The port writes the payload lengths, and finishes the TCP checksums. -/
structure Ipv6Request (unit : List UInt8) (ip iplen : ℕ) (r : Request) : Prop where
  flags : .ipv6 ∈ r.flags ∧ .ipv4 ∉ r.flags ∧ .ipCksum ∉ r.flags
  header : ∀ k, ip ≤ k → k < ip + iplen → k ≠ ip + 4 → k ≠ ip + 5 → r.data[k]? = unit[k]?
  seed : get16 r.data (ip + iplen + tcpCksumOff) = rteRawCksum (pseudoHeader6 unit ip 0)

section

variable (a : List UInt8) (ip l n : ℕ)

/-- The header with an IPv4 total length, and zero for the checksum. -/
def lengthSet : List UInt8 :=
  overwrite (overwrite a (ip + totalLengthOff) (beBytes 2 (l + n))) (ip + hdrChecksumOff) (leBytes 2 0)

/-- The checksum of the first `l` bytes, taken for an IPv4 header in front of `n` bytes. -/
def ipv4Cksum : ℕ := complement16 (foldSum (rteRawCksum (slice (lengthSet a ip l n) ip l)))

def tcpZeroed : List UInt8 :=
  overwrite (overwrite (lengthSet a ip l n) (ip + hdrChecksumOff) (leBytes 2 (ipv4Cksum a ip l n)))
    (ip + l + tcpCksumOff) (leBytes 2 0)

def tcpCksum : ℕ :=
  complement16 (foldSum (rteRawCksum (slice (tcpZeroed a ip l n) (ip + l) n) + rteIpv4PhdrCksum (tcpZeroed a ip l n) ip))

/-- The words that are written for an IPv4 header of `l` bytes in front of `n` bytes of TCP. -/
def rewritten : List (ℕ × List UInt8) :=
  [(ip + totalLengthOff, beBytes 2 (l + n)), (ip + hdrChecksumOff, leBytes 2 (ipv4Cksum a ip l n)),
    (ip + l + tcpCksumOff, leBytes 2 (tcpCksum a ip l n))]

end

/-- The assembled frame `a` has an IPv6 header of `iplen` bytes that an IPv4 rewriting does not harm.
`IPLEN` is passed in a byte; where it does not fit, the TCP checksum is written into the header. -/
structure Coincides (unit a : List UInt8) (ip iplen n : ℕ) : Prop where
  words : ∀ w ∈ rewritten a ip (iplen % 0x100) n, w.1 < ip + iplen → slice unit w.1 2 = w.2
  kept : ∀ k, ip ≤ k → k < ip + iplen → k ≠ ip + 4 → k ≠ ip + 5 →
    (∀ w ∈ rewritten a ip (iplen % 0x100) n, k < w.1 ∨ w.1 + 2 ≤ k) → a[k]? = unit[k]?
  payloadLength : ntohs a (ip + 4) = iplen - 40 + n
  tcp : if iplen < 0x100 then
      leSum (pseudoHeader6 unit ip n) % 0xffff = leSum (pseudoHeader4 a ip (iplen + n - 20)) % 0xffff
    else Verifies (pseudoHeader6 unit ip n ++ a.drop (ip + iplen))

section

variable {unit a : List UInt8} {ip iplen l l4len pay n : ℕ}

theorem xsumTcpipTso_eq (a : List UInt8) (ip l l4len pay : ℕ) : xsumTcpipTso a ip l l4len pay =
    overwrite (tcpZeroed a ip l (l4len + pay)) (ip + l + tcpCksumOff) (leBytes 2 (tcpCksum a ip l (l4len + pay))) := by
  unfold xsumTcpipTso tcpCksum tcpZeroed ipv4Cksum lengthSet
  rw [Nat.add_assoc]

theorem lengthSet_length (h : ip + 12 ≤ a.length) : (lengthSet a ip l n).length = a.length := by
  have hfirst := @overwrite_two_length a (beBytes 2 (l + n)) (ip + totalLengthOff) (by unfold totalLengthOff; omega)
    (beBytes_length 2 _)
  rw [lengthSet, overwrite_two_length (by rw [hfirst]; exact h) (leBytes_length 2 _), hfirst]

theorem tcpZeroed_length (h : ip + 12 ≤ a.length) (h' : ip + l + 18 ≤ a.length) :
    (tcpZeroed a ip l n).length = a.length := by
  have hset := @lengthSet_length a ip l n h
  have hsum := @overwrite_two_length (lengthSet a ip l n) (leBytes 2 (ipv4Cksum a ip l n)) (ip + hdrChecksumOff)
    (by rw [hset]; exact h) (leBytes_length 2 _)
  rw [tcpZeroed, overwrite_two_length (by rw [hsum, hset]; exact h') (leBytes_length 2 _), hsum, hset]

theorem xsum_words (h : ip + l + 20 ≤ a.length) (h12 : ip + 12 ≤ a.length) :
    ∀ w ∈ rewritten a ip l (l4len + pay), slice (xsumTcpipTso a ip l l4len pay) w.1 2 = w.2 := by
  have hset := @lengthSet_length a ip l (l4len + pay) h12
  have hzero := @tcpZeroed_length a ip l (l4len + pay) h12 (by omega)
  have hsum := @overwrite_two_length (lengthSet a ip l (l4len + pay)) (leBytes 2 (ipv4Cksum a ip l (l4len + pay)))
    (ip + hdrChecksumOff) (by rw [hset]; exact h12) (leBytes_length 2 _)
  have hfirst := @overwrite_two_length a (beBytes 2 (l + (l4len + pay))) (ip + totalLengthOff)
    (by unfold totalLengthOff; omega) (beBytes_length 2 _)
  -- what is written last stands, and no word lies on another
  have hlast : ∀ off, off + 2 ≤ ip + l + 16 → slice (xsumTcpipTso a ip l l4len pay) off 2 =
      slice (overwrite (lengthSet a ip l (l4len + pay)) (ip + hdrChecksumOff)
        (leBytes 2 (ipv4Cksum a ip l (l4len + pay)))) off 2 := by
    intro off hoff
    rw [xsumTcpipTso_eq, slice_overwrite_two (by rw [hzero]; unfold tcpCksumOff; omega) (leBytes_length 2 _)
      (.inl (by unfold tcpCksumOff; omega)), tcpZeroed, slice_overwrite_two (by rw [hsum, hset]; unfold tcpCksumOff; omega)
      (leBytes_length 2 _) (.inl (by unfold tcpCksumOff; omega))]
  intro w hw
  simp only [rewritten, List.mem_cons, List.not_mem_nil, or_false] at hw
  rcases hw with rfl | rfl | rfl
  · have hput := @slice_overwrite a (ip + totalLengthOff) (beBytes 2 (l + (l4len + pay))) (by unfold totalLengthOff; omega)
    rw [beBytes_length] at hput
    rw [hlast _ (by unfold totalLengthOff; omega), slice_overwrite_two (by rw [hset]; exact h12) (leBytes_length 2 _)
      (.inl (by unfold totalLengthOff hdrChecksumOff; omega)), lengthSet,
      slice_overwrite_two (by rw [hfirst]; exact h12) (leBytes_length 2 _)
      (.inl (by unfold totalLengthOff hdrChecksumOff; omega)), hput]
  · have hput := @slice_overwrite (lengthSet a ip l (l4len + pay)) (ip + hdrChecksumOff)
      (leBytes 2 (ipv4Cksum a ip l (l4len + pay))) (by rw [hset]; unfold hdrChecksumOff; omega)
    rw [leBytes_length] at hput
    rw [hlast _ (by unfold hdrChecksumOff; omega), hput]
  · have hput := @slice_overwrite (tcpZeroed a ip l (l4len + pay)) (ip + l + tcpCksumOff)
      (leBytes 2 (tcpCksum a ip l (l4len + pay))) (by rw [hzero]; unfold tcpCksumOff; omega)
    rw [leBytes_length] at hput
    rw [xsumTcpipTso_eq, hput]

theorem getElem?_of_slice {b b' : List UInt8} {off m k : ℕ} (h : slice b off m = slice b' off m) (h1 : off ≤ k)
    (h2 : k < off + m) : b[k]? = b'[k]? := by
  have hk := congrArg (fun x => x[k - off]?) h
  simp only [slice, List.getElem?_take_of_lt (show k - off < m by omega), List.getElem?_drop] at hk
  rwa [Nat.add_sub_cancel' h1] at hk

theorem xsum_elsewhere (h : ip + l + 20 ≤ a.length) {k : ℕ}
    (hk : ∀ w ∈ rewritten a ip l n, k < w.1 ∨ w.1 + 2 ≤ k) : (xsumTcpipTso a ip l l4len pay)[k]? = a[k]? := by
  have hfields : tsoFields ip l = (rewritten a ip l n).map fun w => (w.1, 2) := rfl
  refine (xsumTcpipTso_same l4len pay h).get k fun r hr => ?_
  rw [hfields] at hr
  obtain ⟨w, hw, rfl⟩ := List.mem_map.mp hr
  exact hk w hw

theorem rewritten_placed (hl : l = iplen ∨ l + 0x100 = iplen) (hip : 40 ≤ iplen) {w : ℕ × List UInt8}
    (hw : w ∈ rewritten a ip l n) (hin : w.1 < ip + iplen) :
    ip ≤ w.1 ∧ w.1 + 2 ≤ ip + iplen ∧ (w.1 + 2 ≤ ip + 4 ∨ ip + 6 ≤ w.1) := by
  simp only [rewritten, totalLengthOff, hdrChecksumOff, tcpCksumOff, List.mem_cons, List.not_mem_nil, or_false] at hw
  rcases hw with rfl | rfl | rfl
  · dsimp only at hin ⊢
    omega
  · dsimp only at hin ⊢
    omega
  · dsimp only at hin ⊢
    omega

theorem header_iff (hl : l = iplen ∨ l + 0x100 = iplen) (hip : 40 ≤ iplen) (h : ip + l + 20 ≤ a.length) :
    (∀ k, ip ≤ k → k < ip + iplen → k ≠ ip + 4 → k ≠ ip + 5 → (xsumTcpipTso a ip l l4len pay)[k]? = unit[k]?) ↔
      (∀ w ∈ rewritten a ip l (l4len + pay), w.1 < ip + iplen → slice unit w.1 2 = w.2) ∧
      ∀ k, ip ≤ k → k < ip + iplen → k ≠ ip + 4 → k ≠ ip + 5 →
        (∀ w ∈ rewritten a ip l (l4len + pay), k < w.1 ∨ w.1 + 2 ≤ k) → a[k]? = unit[k]? := by
  have hwords := @xsum_words a ip l l4len pay h (by omega)
  constructor
  · intro hf
    refine ⟨fun w hw hin => ?_, fun k h1 h2 h4 h5 hk => ?_⟩
    · obtain ⟨hp1, hp2, hp3⟩ := rewritten_placed hl hip hw hin
      rw [← hwords w hw]
      exact (slice_congr fun k hk1 hk2 => hf k (by omega) (by omega) (by omega) (by omega)).symm
    · rw [← xsum_elsewhere h hk]
      exact hf k h1 h2 h4 h5
  · rintro ⟨hw, hkept⟩ k h1 h2 h4 h5
    by_cases hk : ∀ w ∈ rewritten a ip l (l4len + pay), k < w.1 ∨ w.1 + 2 ≤ k
    · rw [xsum_elsewhere h hk]
      exact hkept k h1 h2 h4 h5 hk
    · simp only [not_forall, not_or, not_lt, not_le] at hk
      obtain ⟨w, hmem, hlo, hhi⟩ := hk
      exact getElem?_of_slice ((hwords w hmem).trans (hw w hmem (by omega)).symm) hlo hhi

theorem pseudoHeader6_length {h : List UInt8} (hh : ip + 40 ≤ h.length) : (pseudoHeader6 h ip n).length = 40 := by
  have hslice := @slice_length h (ip + 8) 32 (by omega)
  simp [pseudoHeader6, hslice, beBytes_length]

theorem leSum_pseudoHeader6 {h : List UInt8} (hh : ip + 40 ≤ h.length) : leSum (pseudoHeader6 h ip n) ≠ 0 := by
  have hslice := @slice_length h (ip + 8) 32 (by omega)
  rw [pseudoHeader6, leSum_append _ (by simp [hslice, beBytes_length])]
  have hproto : leSum [0, 0, 0, 6] = 256 * 6 := by decide
  omega

theorem phdrCksum_eq (hip : 20 ≤ l) (h : ip + l + 20 ≤ a.length) (hsmall : l + (l4len + pay) < 0x10000)
    (hn : 20 ≤ l4len + pay) : rteIpv4PhdrCksum (tcpZeroed a ip l (l4len + pay)) ip =
      rteRawCksum (pseudoHeader4 a ip (l + (l4len + pay) - 20)) := by
  have hzero := @tcpZeroed_length a ip l (l4len + pay) (by omega) (by omega)
  have hsame := @xsumTcpipTso_same a ip l l4len pay h
  have hfront : ∀ off m, off + m ≤ ip + l + 16 →
      slice (tcpZeroed a ip l (l4len + pay)) off m = slice (xsumTcpipTso a ip l l4len pay) off m := by
    intro off m hm
    rw [xsumTcpipTso_eq, slice_overwrite_two (by rw [hzero]; unfold tcpCksumOff; omega) (leBytes_length 2 _)
      (.inl (by unfold tcpCksumOff; omega))]
  have haddrs : slice (tcpZeroed a ip l (l4len + pay)) (ip + 12) 8 = slice a (ip + 12) 8 := by
    rw [hfront _ _ (by omega)]
    apply hsame.slice
    simp [tsoFields, totalLengthOff, hdrChecksumOff, tcpCksumOff]
    omega
  have hproto : slice (tcpZeroed a ip l (l4len + pay)) (ip + 9) 1 = slice a (ip + 9) 1 := by
    rw [hfront _ _ (by omega)]
    apply hsame.slice
    simp [tsoFields, totalLengthOff, hdrChecksumOff, tcpCksumOff]
    omega
  have hlen : ntohs (tcpZeroed a ip l (l4len + pay)) (ip + totalLengthOff) = l + (l4len + pay) := by
    have hword := @xsum_words a ip l l4len pay h (by omega) (ip + totalLengthOff, beBytes 2 (l + (l4len + pay)))
      List.mem_cons_self
    dsimp only at hword
    rw [ntohs, hfront _ _ (by unfold totalLengthOff; omega), hword, beNat_beBytes]
    exact Nat.mod_eq_of_lt hsmall
  rw [rteIpv4PhdrCksum, pseudoHeader4, haddrs, hproto, hlen,
    show (l + (l4len + pay) + 0x10000 - 20) % 0x10000 = l + (l4len + pay) - 20 by omega]

theorem tcp_iff (hip : 20 ≤ l) (hl4 : 20 ≤ l4len) (h : ip + l + (l4len + pay) ≤ a.length)
    (hsmall : a.length < 0x10000) {pre : List UInt8} (hpre : pre.length % 2 = 0) (hne : leSum pre ≠ 0) :
    Verifies (pre ++ slice (xsumTcpipTso a ip l l4len pay) (ip + l) (l4len + pay)) ↔
      leSum pre % 0xffff = leSum (pseudoHeader4 a ip (l + (l4len + pay) - 20)) % 0xffff := by
  have hzero := @tcpZeroed_length a ip l (l4len + pay) (by omega) (by omega)
  have hph := @phdrCksum_eq a ip l l4len pay hip (by omega) (by omega) (by omega)
  have haddrs := @slice_length a (ip + 12) 8 (by omega)
  have hproto := @slice_length a (ip + 9) 1 (by omega)
  obtain ⟨hle, hmod, -⟩ := @rteRawCksum_cases (pseudoHeader4 a ip (l + (l4len + pay) - 20))
    (by simp [pseudoHeader4, haddrs, hproto, beBytes_length])
  rw [← hph] at hle hmod
  have hfield : get16 (slice (tcpZeroed a ip l (l4len + pay)) (ip + l) (l4len + pay)) tcpCksumOff = 0 := by
    rw [get16_slice (by unfold tcpCksumOff; omega), tcpZeroed]
    apply get16_zeroed
    have hset := @lengthSet_length a ip l (l4len + pay) (by omega)
    rw [overwrite_two_length (by rw [hset]; unfold hdrChecksumOff; omega) (leBytes_length 2 _), hset]
    unfold tcpCksumOff
    omega
  have hver := @verifies_stored_iff pre (ip + l) (tcpZeroed a ip l (l4len + pay)) tcpCksumOff (l4len + pay)
    (rteIpv4PhdrCksum (tcpZeroed a ip l (l4len + pay)) ip) hpre rfl (by unfold tcpCksumOff; omega)
    (by rw [hzero]; omega) (by omega) hle (fun hz => absurd hz hne)
  rw [hfield, Nat.add_zero, hmod] at hver
  rw [xsumTcpipTso_eq]
  exact hver

theorem xsum_behind (hl : l + 0x100 = iplen) (h : ip + l + 20 ≤ a.length) :
    (xsumTcpipTso a ip l l4len pay).drop (ip + iplen) = a.drop (ip + iplen) := by
  apply List.ext_getElem?
  intro k
  rw [List.getElem?_drop, List.getElem?_drop]
  apply @xsum_elsewhere a ip l l4len pay 0 h
  simp only [rewritten, totalLengthOff, hdrChecksumOff, tcpCksumOff, List.mem_cons, List.not_mem_nil, or_false]
  rintro w (rfl | rfl | rfl)
  · exact .inr (by dsimp only; omega)
  · exact .inr (by dsimp only; omega)
  · exact .inr (by dsimp only; omega)

theorem payloadLength_kept (h : ip + l + 20 ≤ a.length) :
    ntohs (xsumTcpipTso a ip l l4len pay) (ip + 4) = ntohs a (ip + 4) := by
  rw [ntohs, ntohs, (xsumTcpipTso_same l4len pay h).slice]
  simp [tsoFields, totalLengthOff, hdrChecksumOff, tcpCksumOff]
  omega

theorem tcp_short_iff (hip : 40 ≤ l) (hl4 : 20 ≤ l4len) (ha : a.length = ip + l + (l4len + pay))
    (hsmall : a.length < 0x10000) :
    Verifies (pseudoHeader6 (xsumTcpipTso a ip l l4len pay) ip (l4len + pay) ++
        (xsumTcpipTso a ip l l4len pay).drop (ip + l)) ↔
      leSum (pseudoHeader6 (xsumTcpipTso a ip l l4len pay) ip (l4len + pay)) % 0xffff =
        leSum (pseudoHeader4 a ip (l + (l4len + pay) - 20)) % 0xffff := by
  have hflen := (@xsumTcpipTso_same a ip l l4len pay (by omega)).length
  have hdrop : (xsumTcpipTso a ip l l4len pay).drop (ip + l) =
      slice (xsumTcpipTso a ip l l4len pay) (ip + l) (l4len + pay) := by
    rw [slice, List.take_of_length_le]
    rw [List.length_drop]
    omega
  have heven := @pseudoHeader6_length ip (l4len + pay) (xsumTcpipTso a ip l l4len pay) (by omega)
  have hne := @leSum_pseudoHeader6 ip (l4len + pay) (xsumTcpipTso a ip l l4len pay) (by omega)
  rw [hdrop]
  exact tcp_iff (by omega) hl4 (by omega) hsmall (by omega) hne

theorem pseudoHeader6_congr {f : List UInt8} (hip : 40 ≤ iplen)
    (hf : ∀ k, ip ≤ k → k < ip + iplen → k ≠ ip + 4 → k ≠ ip + 5 → f[k]? = unit[k]?) :
    pseudoHeader6 f ip n = pseudoHeader6 unit ip n := by
  have hslice : slice f (ip + 8) 32 = slice unit (ip + 8) 32 :=
    slice_congr fun k h1 h2 => hf k (by omega) (by omega) (by omega) (by omega)
  rw [pseudoHeader6, pseudoHeader6, hslice]

/-- The IPv4 rewriting yields a right IPv6 frame exactly if it does no harm. -/
theorem ipv6Frame_iff (hip : 40 ≤ iplen) (hip' : iplen < 0x200) (hl4 : 20 ≤ l4len)
    (ha : a.length = ip + iplen + (l4len + pay)) (hsmall : a.length < 0x10000) :
    Ipv6Frame unit ip iplen (xsumTcpipTso a ip (iplen % 0x100) l4len pay) ↔ Coincides unit a ip iplen (l4len + pay) := by
  generalize hl : iplen % 0x100 = l
  have hl' : l = iplen ∨ l + 0x100 = iplen := by omega
  have hfit : ip + l + 20 ≤ a.length := by omega
  have hheader := @header_iff unit a ip iplen l l4len pay hl' hip hfit
  have hpay := @payloadLength_kept a ip l l4len pay hfit
  have hflen := (@xsumTcpipTso_same a ip l l4len pay hfit).length
  have htcp : Verifies (pseudoHeader6 (xsumTcpipTso a ip l l4len pay) ip (l4len + pay) ++
      (xsumTcpipTso a ip l l4len pay).drop (ip + iplen)) ↔
      if iplen < 0x100 then leSum (pseudoHeader6 (xsumTcpipTso a ip l l4len pay) ip (l4len + pay)) % 0xffff =
        leSum (pseudoHeader4 a ip (iplen + (l4len + pay) - 20)) % 0xffff
      else Verifies (pseudoHeader6 (xsumTcpipTso a ip l l4len pay) ip (l4len + pay) ++ a.drop (ip + iplen)) := by
    by_cases hshort : iplen < 0x100
    · obtain rfl : l = iplen := by omega
      rw [if_pos hshort]
      exact tcp_short_iff hip hl4 ha hsmall
    · rw [if_neg hshort, xsum_behind (by omega) hfit]
  generalize xsumTcpipTso a ip l l4len pay = f at hheader hpay hflen htcp ⊢
  have hn : f.length - (ip + iplen) = l4len + pay := by omega
  have h40 : f.length - (ip + 40) = iplen - 40 + (l4len + pay) := by omega
  subst hl
  constructor
  · rintro ⟨hf, hp, ht⟩
    obtain ⟨hwords, hkept⟩ := hheader.mp hf
    rw [hn, htcp, pseudoHeader6_congr hip hf] at ht
    exact ⟨hwords, hkept, hpay.symm.trans (hp.trans h40), ht⟩
  · rintro ⟨hwords, hkept, hp, ht⟩
    have hf := hheader.mpr ⟨hwords, hkept⟩
    refine ⟨hf, hpay.trans (hp.trans h40.symm), ?_⟩
    rw [hn, htcp, pseudoHeader6_congr hip hf]
    exact ht

theorem overwrite_take {b bs : List UInt8} {off m : ℕ} (h : off + bs.length ≤ m) (hb : m ≤ b.length) :
    overwrite (b.take m) off bs = (overwrite b off bs).take m := by
  obtain ⟨k, rfl⟩ := Nat.exists_eq_add_of_le h
  have hlen := @length_take_append b off bs (by omega)
  rw [overwrite, overwrite, List.take_take, min_eq_left (by omega), List.drop_take, Nat.add_sub_cancel_left,
    ← hlen, List.take_length_add_append]

theorem xsum_take {b : List UInt8} {m : ℕ} (h : ip + l + (l4len + pay) ≤ m) (hip : ip + 20 ≤ m) (hl4 : 18 ≤ l4len)
    (hb : m ≤ b.length) : xsumTcpipTso (b.take m) ip l l4len pay = (xsumTcpipTso b ip l l4len pay).take m := by
  have le2 : ∀ v, (leBytes 2 v).length = 2 := leBytes_length 2
  have be2 : ∀ v, (beBytes 2 v).length = 2 := beBytes_length 2
  unfold xsumTcpipTso
  simp only [totalLengthOff, hdrChecksumOff, tcpCksumOff]
  rw [overwrite_take (by rw [be2]; omega) hb]
  have hb1 := @overwrite_two_length b (beBytes 2 (l + l4len + pay)) (ip + 2) (by omega) (be2 _)
  generalize overwrite b (ip + 2) (beBytes 2 (l + l4len + pay)) = b1 at hb1 ⊢
  rw [overwrite_take (by rw [le2]; omega) (by omega)]
  have hb2 := @overwrite_two_length b1 (leBytes 2 0) (ip + 10) (by omega) (le2 _)
  generalize overwrite b1 (ip + 10) (leBytes 2 0) = b2 at hb2 ⊢
  rw [slice_take (by omega), overwrite_take (by rw [le2]; omega) (by omega)]
  have hb3 := @overwrite_two_length b2 (leBytes 2 (complement16 (foldSum (rteRawCksum (slice b2 ip l))))) (ip + 10)
    (by omega) (le2 _)
  generalize overwrite b2 (ip + 10) (leBytes 2 (complement16 (foldSum (rteRawCksum (slice b2 ip l))))) = b3 at hb3 ⊢
  rw [overwrite_take (by rw [le2]; omega) (by omega)]
  have hb4 := @overwrite_two_length b3 (leBytes 2 0) (ip + l + 16) (by omega) (le2 _)
  generalize overwrite b3 (ip + l + 16) (leBytes 2 0) = b4 at hb4 ⊢
  have hph : rteIpv4PhdrCksum (b4.take m) ip = rteIpv4PhdrCksum b4 ip := by
    rw [rteIpv4PhdrCksum, rteIpv4PhdrCksum, ntohs, ntohs, slice_take (by omega), slice_take (by omega),
      slice_take (by unfold totalLengthOff; omega)]
  rw [slice_take (by omega), hph, overwrite_take (by rw [le2]; omega) (by omega)]

end

section

variable {s : Sender} {accept : ℕ → Bool} {sent : Sent} {x e : Segment} {inner rest : List Segment} {f : List UInt8}

theorem tso_call (htso : (lead x).tso = true) (hu : UnitAt s.ready x inner e rest)
    (h : triggerTxPacket accept s.tso s.ready = .ok (some sent)) :
    (HardwareTakes accept s.tso (inner ++ [e]) ∧ sent.popped ≠ 0 ∧ ∀ f, .ethSend f ∉ sent.calls) ∨
      (¬HardwareTakes accept s.tso (inner ++ [e]) ∧ ∃ c y,
        copyLoop (dataLimit (lead x) (EopScan.unit (lead x).dSkip inner e) s.tso) (s.ready.drop (lead x).dSkip)
          ⟨(lead x).dSkip, 0, s.tso⟩ = .ok c ∧ c.tso.tsoLen ≤ mtu ∧
        sendTso (lead x).mss (EopScan.unit (lead x).dSkip inner e) c = .ok y ∧ sent.popped = y.popped ∧ sent.tso = y.tso ∧
          ∀ f, .ethSend f ∈ sent.calls ↔ .ethSend f ∈ y.calls) := by
  have hhw : (s.tso.tsoLen = 0 ∧ s.tso.tsoOff = 0 ∧ (hardwareTso accept (EopScan.unit (lead x).dSkip inner e) (lead x).mss
      ((s.ready.take (EopScan.unit (lead x).dSkip inner e).dcnt).drop (lead x).dSkip) (lead x).dSkip).2 = true) ↔
      HardwareTakes accept s.tso (inner ++ [e]) := by
    rw [hardwareTso_accepts, unit_take hu.split, lead_tso htso]
    rfl
  have hsend := unit_sent hu h
  unfold sendUnit at hsend
  split at hsend
  · cases hsend
  · dsimp only at hsend
    split at hsend
    · rename_i htakes
      cases hsend
      exact .inl ⟨hhw.mp htakes.2, by simp [EopScan.unit], fun f => hardwareTso_noFrame _ _ _⟩
    · rename_i htakes
      obtain ⟨c, hc, hsend⟩ := bind_ok hsend
      split at hsend
      · cases hsend
      · rename_i hlen
        obtain ⟨y, hy, hsend⟩ := bind_ok hsend
        cases hsend
        refine .inr ⟨fun htake => htakes ⟨htso, hhw.mpr htake⟩, c, y, hc, by omega, hy, rfl, rfl, fun f => ?_⟩
        constructor
        · intro hf
          rcases List.mem_append.mp hf with hf | hf
          · split at hf
            · exact absurd hf (hardwareTso_noFrame _ _ _)
            · cases hf
          · exact hf
        · exact List.mem_append_right _

theorem ethSend_iff (hu : UnitAt s.ready x inner e rest) (htso : (lead x).tso = true)
    (h : triggerTxPacket accept s.tso s.ready = .ok (some sent)) :
    (∃ f, .ethSend f ∈ sent.calls) ↔ ¬HardwareTakes accept s.tso (inner ++ [e]) := by
  rcases tso_call htso hu h with ⟨hhw, -, hno⟩ | ⟨hsw, c, y, -, -, hy, -, -, hcalls⟩
  · apply iff_of_false
    · rintro ⟨f, hf⟩
      exact hno f hf
    · exact not_not.mpr hhw
  · apply iff_of_true _ hsw
    simp only [hcalls, sendTso_calls hy]
    exact ⟨_, List.mem_cons_self⟩

theorem ethSend_eq (hs : sender.Reachable s) (hu : UnitAt s.ready x inner e rest) (htso : (lead x).tso = true)
    (hip : 40 ≤ iplen e.d1) (hl4 : 20 ≤ l4len e.d1) (hhdr : hdrlen e ≤ bufSzSum (inner ++ [e]))
    (h : triggerTxPacket accept s.tso s.ready = .ok (some sent)) (hf : .ethSend f ∈ sent.calls) :
    f = xsumTcpipTso (assembled s.tso (lead x) inner e) (maclen e.d1) (iplen e.d1 % 0x100) (l4len e.d1)
        (payload s.tso (lead x) inner e) ∧
      (assembled s.tso (lead x) inner e).length = maclen e.d1 + iplen e.d1 + (l4len e.d1 + payload s.tso (lead x) inner e) ∧
      (assembled s.tso (lead x) inner e).length ≤ mtu := by
  obtain ⟨c, hc, hle, ⟨-, hframe⟩ | ⟨hno, -⟩⟩ := sendUnit_frame (unit_sent hu h) hf
  · obtain ⟨-, hlen, htake⟩ := copied_assembled hs hu htso hhdr hc hle
    have hb := copyLoop_length hc (pktbuf_length hs)
    have hpay : payload s.tso (lead x) inner e ≤ (lead x).mss := min_le_left _ _
    have hmtu := mtu_eq
    rw [← htake, List.length_take_of_le (by omega)]
    generalize payload s.tso (lead x) inner e = pay at hpay hlen
    unfold hdrlen at hlen
    have hmod := Nat.mod_le (iplen e.d1) 0x100
    have hcut := @xsum_take (maclen e.d1) (iplen e.d1 % 0x100) (l4len e.d1) pay c.tso.pktbuf c.tso.tsoLen (by omega) (by omega)
      (by omega) (by omega)
    have hlen' : c.tso.tsoLen = maclen e.d1 + iplen e.d1 + (l4len e.d1 + pay) := by omega
    have hsub : min (sub32 c.tso.tsoLen (maclen e.d1 + iplen e.d1 + l4len e.d1)) (lead x).mss = pay := by
      rw [sub32_of_le (by omega) (by omega)]
      omega
    change f = (xsumTcpipTso c.tso.pktbuf (maclen e.d1) (iplen e.d1 % 0x100) (l4len e.d1)
      (min (sub32 c.tso.tsoLen (maclen e.d1 + iplen e.d1 + l4len e.d1)) (lead x).mss)).take c.tso.tsoLen at hframe
    rw [hsub] at hframe
    exact ⟨hframe.trans hcut.symm, hlen', hle⟩
  · rw [htso] at hno
    cases hno

/-- What a call with these results has handed out is right for an IPv6 unit. -/
def Respects (accept : ℕ → Bool) (s : Sender) (sent : Sent) (inner : List Segment) (e : Segment) : Prop :=
  (∀ f, .ethSend f ∈ sent.calls → Ipv6Frame (fetched (inner ++ [e])) (maclen e.d1) (iplen e.d1) f) ∧
    (HardwareTakes accept s.tso (inner ++ [e]) → Ipv6Request (fetched (inner ++ [e])) (maclen e.d1) (iplen e.d1)
      (request (fetched (inner ++ [e])) (maclen e.d1) (iplen e.d1)))

theorem respects_iff (hs : sender.Reachable s) (hu : UnitAt s.ready x inner e rest) (htso : (lead x).tso = true)
    (hip : 40 ≤ iplen e.d1) (hl4 : 20 ≤ l4len e.d1) (hhdr : hdrlen e ≤ bufSzSum (inner ++ [e]))
    (h : triggerTxPacket accept s.tso s.ready = .ok (some sent)) :
    Respects accept s sent inner e ↔ ¬HardwareTakes accept s.tso (inner ++ [e]) ∧
      Coincides (fetched (inner ++ [e])) (assembled s.tso (lead x) inner e) (maclen e.d1) (iplen e.d1)
        (l4len e.d1 + payload s.tso (lead x) inner e) := by
  have hiff := ethSend_iff hu htso h
  by_cases hhw : HardwareTakes accept s.tso (inner ++ [e])
  · apply iff_of_false
    · rintro ⟨-, hreq⟩
      have hflag : OlFlag.ipv6 ∉ olFlags := by decide
      exact hflag (hreq hhw).flags.1
    · exact fun hno => hno.1 hhw
  · obtain ⟨f, hf⟩ := hiff.mpr hhw
    obtain ⟨heq, hlen, hmtu⟩ := ethSend_eq hs hu htso hip hl4 hhdr h hf
    have hmtu' := mtu_eq
    have hiplen := iplen_le e.d1
    rw [← ipv6Frame_iff hip (by omega) hl4 hlen (by omega), ← heq]
    constructor
    · exact fun hr => ⟨hhw, hr.1 f hf⟩
    · rintro ⟨-, hframe⟩
      refine ⟨fun g hg => ?_, fun htake => absurd htake hhw⟩
      rw [(ethSend_eq hs hu htso hip hl4 hhdr h hg).1, ← heq]
      exact hframe

theorem ntohs_lt (b : List UInt8) (off : ℕ) : ntohs b off < 0x10000 := beNat_slice_lt b off 2

theorem ntohl_split {b : List UInt8} {off : ℕ} (h : off + 4 ≤ b.length) :
    ntohl b off = 0x10000 * ntohs b off + ntohs b (off + 2) := by
  have hlow := @slice_length b (off + 2) 2 (by omega)
  rw [ntohl, ntohs, ntohs, beNat, beNat, beNat, slice_add b off 2 2, List.reverse_append, leNat_append, List.length_reverse,
    hlow, Nat.add_comm]
  norm_num

theorem payloadLength_grows {b : List UInt8} {ip l pay : ℕ} (hl : l = 0 ∨ 2 ≤ l) (h : ip + l + 20 ≤ b.length)
    (hpay : pay < 0x10000) (hsmall : ntohs b (ip + 4) + 2 < 0x10000) :
    ntohs b (ip + 4) < ntohs (tsoPostupdateHeader b ip l pay) (ip + 4) := by
  unfold tsoPostupdateHeader
  simp only [sentSeqOff, packetIdOff]
  have be4 : ∀ v, (beBytes 4 v).length = 4 := beBytes_length 4
  have hmid := @overwrite_length b (ip + l + 4) (beBytes 4 (ntohl b (ip + l + 4) + pay)) (by rw [be4]; omega)
  have hput := @slice_overwrite b (ip + l + 4) (beBytes 4 (ntohl b (ip + l + 4) + pay)) (by omega)
  rw [be4] at hput
  have hother : 2 ≤ l → slice (overwrite b (ip + l + 4) (beBytes 4 (ntohl b (ip + l + 4) + pay))) (ip + 4) 2 =
      slice b (ip + 4) 2 := fun h2 => slice_overwrite_ne (by rw [be4]; omega) (.inl (by omega))
  generalize overwrite b (ip + l + 4) (beBytes 4 (ntohl b (ip + l + 4) + pay)) = mid at hmid hput hother ⊢
  have hid := @slice_overwrite mid (ip + 4) (beBytes 2 (ntohs mid (ip + 4) + 1)) (by omega)
  rw [beBytes_length] at hid
  have hnew : ntohs (overwrite mid (ip + 4) (beBytes 2 (ntohs mid (ip + 4) + 1))) (ip + 4) =
      (ntohs mid (ip + 4) + 1) % 0x10000 := by
    rw [ntohs, hid, beNat_beBytes]
    norm_num
  rw [hnew]
  rcases hl with rfl | h2
  · -- the sequence number lies on the payload length
    have hseq : ntohl mid (ip + 4) = (ntohl b (ip + 4) + pay) % 0x100000000 := by
      rw [ntohl, hput, beNat_beBytes]
      norm_num
    rw [ntohl_split (by omega), ntohl_split (by omega)] at hseq
    have h1 := ntohs_lt b (ip + 4 + 2)
    have h2 := ntohs_lt mid (ip + 4 + 2)
    omega
  · have hsame : ntohs mid (ip + 4) = ntohs b (ip + 4) := congrArg beNat (hother h2)
    omega

theorem unfinished (hs : sender.Reachable s) (hu : UnitAt s.ready x inner e rest) (htso : (lead x).tso = true)
    (hhdr : hdrlen e ≤ bufSzSum (inner ++ [e])) (h : triggerTxPacket accept s.tso s.ready = .ok (some sent))
    (hpop : sent.popped = 0) :
    ∃ b : List UInt8, b.length = mtu ∧ hdrlen e + payload s.tso (lead x) inner e ≤ mtu ∧
      b.take (hdrlen e + payload s.tso (lead x) inner e) = assembled s.tso (lead x) inner e ∧
      segStart s.tso e + payload s.tso (lead x) inner e < bufSzSum (inner ++ [e]) ∧
      sent.tso = ⟨segStart s.tso e + payload s.tso (lead x) inner e, hdrlen e,
        tsoPostupdateHeader (xsumTcpipTso b (maclen e.d1) (iplen e.d1 % 0x100) (l4len e.d1)
          (payload s.tso (lead x) inner e)) (maclen e.d1) (iplen e.d1 % 0x100) (payload s.tso (lead x) inner e)⟩ := by
  rcases tso_call htso hu h with ⟨-, hp, -⟩ | ⟨-, c, y, hc, hle, hy, hp, hst, -⟩
  · exact absurd hpop hp
  · obtain ⟨hoff, hlen, htake⟩ := copied_assembled hs hu htso hhdr hc hle
    have hb := copyLoop_length hc (pktbuf_length hs)
    have hdcnt := (copyLoop_mono hc).1
    have hskip := lead_tso htso
    have hmtu := mtu_eq
    have hpay : payload s.tso (lead x) inner e ≤ (lead x).mss := min_le_left _ _
    have hsub : min (sub32 c.tso.tsoLen (hdrlen e)) (lead x).mss = payload s.tso (lead x) inner e := by
      rw [sub32_of_le (by omega) (by omega)]
      omega
    refine ⟨c.tso.pktbuf, hb, by omega, by rw [← hlen]; exact htake, ?_⟩
    unfold sendTso at hy
    dsimp only at hy
    split at hy
    · cases hy
    · split at hy
      · rename_i hmore
        cases hy
        rw [hoff] at hmore
        refine ⟨hmore, ?_⟩
        rw [hst, hoff, ← hsub]
        rfl
      · cases hy
        dsimp only at hp hdcnt
        omega

theorem ntohs_take {b : List UInt8} {off m : ℕ} (h : off + 2 ≤ m) : ntohs (b.take m) off = ntohs b off := by
  rw [ntohs, ntohs, slice_take h]

/-- A right segment leaves a payload length behind that is too large for the next one. -/
theorem kept_too_large (hs : sender.Reachable s) (hu : UnitAt s.ready x inner e rest) (htso : (lead x).tso = true)
    (hip : 40 ≤ iplen e.d1) (hl4 : 20 ≤ l4len e.d1) (hhdr : hdrlen e ≤ bufSzSum (inner ++ [e]))
    (h : triggerTxPacket accept s.tso s.ready = .ok (some sent)) (hr : Respects accept s sent inner e)
    (hpop : sent.popped = 0) :
    sent.tso.tsoOff ≠ 0 ∧ iplen e.d1 - 40 + (l4len e.d1 + (lead x).mss) < ntohs sent.tso.pktbuf (maclen e.d1 + 4) := by
  obtain ⟨b, hb, hfit, htake, hmore, hst⟩ := unfinished hs hu htso hhdr h hpop
  obtain ⟨hsw, -⟩ := (respects_iff hs hu htso hip hl4 hhdr h).mp hr
  obtain ⟨f, hf⟩ := (ethSend_iff hu htso h).mpr hsw
  obtain ⟨heq, hlen, -⟩ := ethSend_eq hs hu htso hip hl4 hhdr h hf
  have hnow := (hr.1 f hf).payloadLength
  have hfull : payload s.tso (lead x) inner e = (lead x).mss := by
    unfold payload at hmore ⊢
    omega
  have hiplen := iplen_le e.d1
  have hmod := Nat.mod_le (iplen e.d1) 0x100
  have hmtu := mtu_eq
  have hword : iplen e.d1 % 0x100 = 0 ∨ 2 ≤ iplen e.d1 % 0x100 := by
    unfold LanTx.iplen
    omega
  have hoff : segStart s.tso e ≠ 0 := by
    unfold segStart hdrlen
    split
    · omega
    · assumption
  rw [hfull] at htake hst heq hlen hfit
  unfold hdrlen at htake hfit
  rw [← htake, xsum_take (by omega) (by omega) (by omega) (by omega)] at heq
  have hx := (@xsumTcpipTso_same b (maclen e.d1) (iplen e.d1 % 0x100) (l4len e.d1) (lead x).mss (by omega)).length
  have hgrow := @payloadLength_grows (xsumTcpipTso b (maclen e.d1) (iplen e.d1 % 0x100) (l4len e.d1) (lead x).mss)
    (maclen e.d1) (iplen e.d1 % 0x100) (lead x).mss hword (by omega) (by omega)
  rw [hst]
  generalize xsumTcpipTso b (maclen e.d1) (iplen e.d1 % 0x100) (l4len e.d1) (lead x).mss = b' at heq hx hgrow ⊢
  have hflen : f.length = maclen e.d1 + iplen e.d1 + (l4len e.d1 + (lead x).mss) := by
    rw [heq, List.length_take_of_le (by omega)]
    omega
  have hwas : ntohs b' (maclen e.d1 + 4) = iplen e.d1 - 40 + (l4len e.d1 + (lead x).mss) := by
    rw [hflen, heq, ntohs_take (by omega)] at hnow
    omega
  have hnew := hgrow (by omega)
  refine ⟨by dsimp only; omega, ?_⟩
  rw [← hwas]
  exact hnew

theorem later_wrong (hs : sender.Reachable s) (hrun : s.running = true) (hu : UnitAt s.ready x inner e rest)
    (htso : (lead x).tso = true) (hip : 40 ≤ iplen e.d1) (hl4 : 20 ≤ l4len e.d1) (hhdr : hdrlen e ≤ bufSzSum (inner ++ [e]))
    (h : triggerTxPacket accept s.tso s.ready = .ok (some sent)) (hr : Respects accept s sent inner e)
    (hpop : sent.popped = 0) {accept' : ℕ → Bool} {sent' : Sent}
    (h' : triggerTxPacket accept' sent.tso s.ready = .ok (some sent')) :
    ¬Respects accept' ⟨sent.tso, s.ready, true⟩ sent' inner e := by
  obtain ⟨hoff, hlarge⟩ := kept_too_large hs hu htso hip hl4 hhdr h hr hpop
  have hreach : sender.Reachable ⟨sent.tso, s.ready, true⟩ :=
    .step hs (.packet accept sent hrun h (by rw [hpop, List.drop_zero]))
  have hhead := headers_length hreach hu hhdr
  have hin : maclen e.d1 + 4 + 2 ≤ hdrlen e := by
    unfold hdrlen
    omega
  have hkept : ntohs (assembled sent.tso (lead x) inner e) (maclen e.d1 + 4) = ntohs sent.tso.pktbuf (maclen e.d1 + 4) := by
    rw [assembled, ntohs, slice_append_left (by rw [hhead]; exact hin), headers, slice_take hin, if_neg hoff]
    rfl
  have hpay : payload sent.tso (lead x) inner e ≤ (lead x).mss := min_le_left _ _
  intro hr'
  obtain ⟨-, hcoin⟩ := (respects_iff hreach hu htso hip hl4 hhdr h').mp hr'
  have hnext := hkept.symm.trans hcoin.payloadLength
  dsimp only at hnext
  omega

end

/-- 14 bytes of Ethernet, 40 of IPv6, 20 of TCP, and a byte of payload. -/
def ipv6Desc : ℕ := 0x12D45071210

/-- The flow label, and the source and destination addresses, are what an IPv4 rewriting writes. -/
def luckyFrame : List UInt8 :=
  [0, 0, 0, 0, 0, 0, 0, 0, 0, 0, 0, 0, 0, 0, 96, 0, 0, 61, 0, 21, 6, 64, 253, 0, 6, 9, 153, 95, 0, 0, 0, 0, 0, 0, 0, 0, 0, 1,
    253, 0, 0, 0, 0, 0, 0, 0, 0, 0, 0, 0, 0, 0, 0, 2, 18, 52, 0, 80, 0, 0, 0, 0, 0, 0, 0, 0, 80, 16, 0, 0, 0, 0, 0, 0, 171]

def luckySent : List UInt8 :=
  [0, 0, 0, 0, 0, 0, 0, 0, 0, 0, 0, 0, 0, 0, 96, 0, 0, 61, 0, 21, 6, 64, 253, 0, 6, 9, 153, 95, 0, 0, 0, 0, 0, 0, 0, 0, 0, 1,
    253, 0, 0, 0, 0, 0, 0, 0, 0, 0, 0, 0, 0, 0, 0, 2, 18, 52, 0, 80, 0, 0, 0, 0, 0, 0, 0, 0, 80, 16, 0, 0, 88, 226, 0, 0, 171]

/-- A TSO call of an IPv6 unit does right exactly if the unit goes out in software and its header is not harmed by the IPv4
rewriting. After that the rest of the unit goes wrong, so that it can only be right as a whole if it is one segment. -/
theorem tso_ipv6_iff (s : Sender) (hs : sender.Reachable s) (accept : ℕ → Bool) (sent : Sent)
    (h : triggerTxPacket accept s.tso s.ready = .ok (some sent)) (x : Segment) (inner : List Segment) (e : Segment)
    (rest : List Segment) (hu : UnitAt s.ready x inner e rest) :
    (lead x).tso = true → cmdIipt e.d1 = iiptIpv6 → 40 ≤ iplen e.d1 → 20 ≤ l4len e.d1 →
    hdrlen e ≤ bufSzSum (inner ++ [e]) →
    (Respects accept s sent inner e ↔ ¬HardwareTakes accept s.tso (inner ++ [e]) ∧
      Coincides (fetched (inner ++ [e])) (assembled s.tso (lead x) inner e) (maclen e.d1) (iplen e.d1)
        (l4len e.d1 + payload s.tso (lead x) inner e)) ∧
    (s.running = true → Respects accept s sent inner e → sent.popped = 0 → ∀ accept' sent',
      triggerTxPacket accept' sent.tso s.ready = .ok (some sent') →
      ¬Respects accept' ⟨sent.tso, s.ready, true⟩ sent' inner e) := by
  intro htso _ hip hl4 hhdr
  constructor
  · exact respects_iff hs hu htso hip hl4 hhdr h
  · intro hrun hr hpop accept' sent' h'
    exact later_wrong hs hrun hu htso hip hl4 hhdr h hr hpop h'

theorem tso_ipv6_lucky : ∃ c sent, (txRing 0x1000 4).Reachable c ∧
    (view c).ready = [⟨0, 0xFA0000000000011, []⟩, ⟨0x2000, ipv6Desc, luckyFrame⟩] ∧
    triggerTxPacket (fun _ => false) (view c).tso (view c).ready = .ok (some sent) ∧
    Respects (fun _ => false) (view c) sent [] ⟨0x2000, ipv6Desc, luckyFrame⟩ := by
  obtain ⟨c, sent, hc, hoff, hready, hp, hf⟩ := @observe_found [(0, 0xFA0000000000011), (0x2000, ipv6Desc)]
    luckyFrame luckySent 9 [⟨0, 0xFA0000000000011, []⟩, ⟨0x2000, ipv6Desc, luckyFrame⟩] (by decide) (by decide +kernel)
  have hu := unitAt_pair (x := ⟨0, 0xFA0000000000011, []⟩) (e := ⟨0x2000, ipv6Desc, luckyFrame⟩) (by decide) (by decide)
  rw [← hready] at hu
  have hunit : TxUnits.fetched ([] ++ [⟨0x2000, ipv6Desc, luckyFrame⟩]) = luckyFrame := by decide
  have hpay : payload (view c).tso (lead ⟨0, 0xFA0000000000011, []⟩) [] ⟨0x2000, ipv6Desc, luckyFrame⟩ = 1 := by
    rw [payload, segStart, if_pos hoff]
    decide
  have hsegment : assembled (view c).tso (lead ⟨0, 0xFA0000000000011, []⟩) [] ⟨0x2000, ipv6Desc, luckyFrame⟩ = luckyFrame := by
    rw [assembled, headers, hpay, segStart, if_pos hoff, if_pos hoff]
    decide
  refine ⟨c, sent, hc, hready, hp, (tso_ipv6_iff (view c) (view_reachable hc).1 _ sent hp _ _ _ _ hu (by decide) (by decide)
    (by decide) (by decide) (by decide)).1.mpr ⟨?_, ?_⟩⟩
  · rintro ⟨-, -, haccept⟩
    cases haccept 0 (by decide)
  · rw [hunit, hsegment, hpay]
    exact ⟨by decide +kernel, fun _ _ _ _ _ _ => rfl, by decide, by decide⟩

/-- An IPv6 unit without a flow label, from `fd00::1` to `fd00::2`. -/
def plainFrame : List UInt8 :=
  [0, 0, 0, 0, 0, 0, 0, 0, 0, 0, 0, 0, 0, 0, 96, 0, 0, 0, 0, 21, 6, 64, 253, 0, 0, 0, 0, 0, 0, 0, 0, 0, 0, 0, 0, 0, 0, 1,
    253, 0, 0, 0, 0, 0, 0, 0, 0, 0, 0, 0, 0, 0, 0, 2, 18, 52, 0, 80, 0, 0, 0, 0, 0, 0, 0, 0, 80, 16, 0, 0, 0, 0, 0, 0, 171]

def plainSent : List UInt8 :=
  [0, 0, 0, 0, 0, 0, 0, 0, 0, 0, 0, 0, 0, 0, 96, 0, 0, 61, 0, 21, 6, 64, 253, 0, 159, 104, 0, 0, 0, 0, 0, 0, 0, 0, 0, 0, 0, 1,
    253, 0, 0, 0, 0, 0, 0, 0, 0, 0, 0, 0, 0, 0, 0, 2, 18, 52, 0, 80, 0, 0, 0, 0, 0, 0, 0, 0, 80, 16, 0, 0, 242, 65, 0, 0, 171]

theorem tso_ipv6_rewritten : ∃ c sent, (txRing 0x1000 4).Reachable c ∧
    (view c).ready = [⟨0, 0xFA0000000000011, []⟩, ⟨0x2000, ipv6Desc, plainFrame⟩] ∧ cmdIipt ipv6Desc = iiptIpv6 ∧
    triggerTxPacket (fun _ => false) (view c).tso (view c).ready = .ok (some sent) ∧ .ethSend plainSent ∈ sent.calls ∧
    ¬Respects (fun _ => false) (view c) sent [] ⟨0x2000, ipv6Desc, plainFrame⟩ := by
  obtain ⟨c, sent, hc, -, hready, hp, hf⟩ := @observe_found [(0, 0xFA0000000000011), (0x2000, ipv6Desc)]
    plainFrame plainSent 9 [⟨0, 0xFA0000000000011, []⟩, ⟨0x2000, ipv6Desc, plainFrame⟩] (by decide) (by decide +kernel)
  refine ⟨c, sent, hc, hready, by decide, hp, hf, fun hr => ?_⟩
  -- the checksum of an IPv4 header stands in the source address
  have haddr := (hr.1 plainSent hf).header 24 (by decide) (by decide) (by decide) (by decide)
  revert haddr
  decide

end Vmux.TsoIpVersion
