import Vmux.Bytes

namespace Vmux.Checksums

open Bytes

/-- `__rte_raw_cksum`: at most 9024 bytes are summed, so the 32-bit sum never wraps. -/
def rteRawSum : List UInt8 → ℕ
  | a :: b :: rest => a.toNat + 256 * b.toNat + rteRawSum rest
  | [a] => a.toNat
  | [] => 0

/-- The loops themselves, on `uint32_t`: four words at a time, then one, then the odd byte. -/
def rteRawCksumLoops : List UInt8 → ℕ → ℕ
  | a :: b :: c :: d :: e :: f :: g :: h :: rest, sum =>
    let sum := (sum + (a.toNat + 256 * b.toNat)) % 0x100000000
    let sum := (sum + (c.toNat + 256 * d.toNat)) % 0x100000000
    let sum := (sum + (e.toNat + 256 * f.toNat)) % 0x100000000
    let sum := (sum + (g.toNat + 256 * h.toNat)) % 0x100000000
    rteRawCksumLoops rest sum
  | a :: b :: rest, sum => rteRawCksumLoops rest ((sum + (a.toNat + 256 * b.toNat)) % 0x100000000)
  | [a], sum => (sum + a.toNat) % 0x100000000
  | [], sum => sum

theorem rteRawCksumLoops_eq (l : List UInt8) {sum : ℕ} (h : sum < 0x100000000) :
    rteRawCksumLoops l sum = (sum + rteRawSum l) % 0x100000000 := by
  fun_induction rteRawCksumLoops l sum with
  | case1 sum a b c d e f g h rest s1 s2 s3 s4 ih =>
    rw [ih (Nat.mod_lt _ (by norm_num))]
    simp only [rteRawSum, s1, s2, s3, s4]
    omega
  | case2 sum a b rest hshort ih =>
    rw [ih (Nat.mod_lt _ (by norm_num))]
    simp only [rteRawSum]
    omega
  | case3 sum a => rfl
  | case4 sum => simp [rteRawSum, Nat.mod_eq_of_lt h]

def foldSum (sum : ℕ) : ℕ := sum / 0x10000 % 0x10000 + sum % 0x10000

def rteRawCksum (l : List UInt8) : ℕ := foldSum (foldSum (rteRawSum l)) % 0x10000

def complement16 (cksum : ℕ) : ℕ := 0xffff - cksum % 0x10000

def ntohs (buf : List UInt8) (off : ℕ) : ℕ := beNat (slice buf off 2)

def ntohl (buf : List UInt8) (off : ℕ) : ℕ := beNat (slice buf off 4)

def totalLengthOff : ℕ := 2
def packetIdOff : ℕ := 4
def hdrChecksumOff : ℕ := 10
def sentSeqOff : ℕ := 4
def tcpCksumOff : ℕ := 16
def dgramCksumOff : ℕ := 6

def xsumAt (field : ℕ) (buf : List UInt8) (off l4Len : ℕ) : List UInt8 :=
  overwrite buf (off + field) (leBytes 2 (complement16 (foldSum (rteRawCksum (slice buf off l4Len)))))

def xsumUdp (buf : List UInt8) (off l4Len : ℕ) : List UInt8 := xsumAt dgramCksumOff buf off l4Len

def xsumTcp (buf : List UInt8) (off l4Len : ℕ) : List UInt8 := xsumAt tcpCksumOff buf off l4Len

def rteIpv4PhdrCksum (buf : List UInt8) (ip : ℕ) : ℕ :=
  rteRawCksum (slice buf (ip + 12) 8 ++ [0] ++ slice buf (ip + 9) 1 ++
    beBytes 2 ((ntohs buf (ip + totalLengthOff) + 0x10000 - 20) % 0x10000))

def xsumTcpipTso (buf : List UInt8) (ip iplen l4len paylen : ℕ) : List UInt8 :=
  let tcp := ip + iplen
  let buf := overwrite buf (ip + totalLengthOff) (beBytes 2 (iplen + l4len + paylen))
  let buf := overwrite buf (ip + hdrChecksumOff) (leBytes 2 0)
  let buf := overwrite buf (ip + hdrChecksumOff)
    (leBytes 2 (complement16 (foldSum (rteRawCksum (slice buf ip iplen)))))
  let buf := overwrite buf (tcp + tcpCksumOff) (leBytes 2 0)
  overwrite buf (tcp + tcpCksumOff) (leBytes 2 (complement16 (foldSum
    (rteRawCksum (slice buf tcp (l4len + paylen)) + rteIpv4PhdrCksum buf ip))))

def tsoPostupdateHeader (buf : List UInt8) (ip iplen paylen : ℕ) : List UInt8 :=
  let tcp := ip + iplen
  let buf := overwrite buf (tcp + sentSeqOff) (beBytes 4 (ntohl buf (tcp + sentSeqOff) + paylen))
  overwrite buf (ip + packetIdOff) (beBytes 2 (ntohs buf (ip + packetIdOff) + 1))

/-- `b` differs from `a` at most in these byte ranges. -/
structure SameOutside (ranges : List (ℕ × ℕ)) (a b : List UInt8) : Prop where
  length : b.length = a.length
  get : ∀ k, (∀ r ∈ ranges, k < r.1 ∨ r.1 + r.2 ≤ k) → b[k]? = a[k]?

theorem SameOutside.refl (ranges : List (ℕ × ℕ)) (a : List UInt8) : SameOutside ranges a a :=
  ⟨rfl, fun _ _ => rfl⟩

theorem SameOutside.write {ranges : List (ℕ × ℕ)} {a b bs : List UInt8} {off : ℕ} (h : SameOutside ranges a b)
    (hin : off + bs.length ≤ a.length) (hr : (off, bs.length) ∈ ranges) :
    SameOutside ranges a (overwrite b off bs) where
  length := by rw [overwrite_length (by rw [h.length]; exact hin), h.length]
  get k hk := by rw [getElem?_overwrite (by rw [h.length]; exact hin) (hk _ hr), h.get k hk]

theorem SameOutside.append {ranges : List (ℕ × ℕ)} {a b : List UInt8} (h : SameOutside ranges a b)
    (rest : List UInt8) : SameOutside ranges (a ++ rest) (b ++ rest) where
  length := by rw [List.length_append, List.length_append, h.length]
  get k hk := by
    by_cases hlt : k < a.length
    · rw [List.getElem?_append_left hlt, List.getElem?_append_left (by rw [h.length]; exact hlt), h.get k hk]
    · have hle : b.length ≤ k := by
        rw [h.length]
        omega
      rw [List.getElem?_append_right hle, List.getElem?_append_right (by omega), h.length]

theorem SameOutside.slice {ranges : List (ℕ × ℕ)} {a b : List UInt8} (h : SameOutside ranges a b) (off n : ℕ)
    (hr : ∀ r ∈ ranges, off + n ≤ r.1 ∨ r.1 + r.2 ≤ off) : slice b off n = slice a off n := by
  apply slice_congr
  intro k hlo hhi
  apply h.get
  intro r hmem
  have := hr r hmem
  omega

section

variable {buf : List UInt8} {ip iplen : ℕ} (l4len paylen : ℕ)

def tsoFields (ip iplen : ℕ) : List (ℕ × ℕ) :=
  [(ip + totalLengthOff, 2), (ip + hdrChecksumOff, 2), (ip + iplen + tcpCksumOff, 2)]

theorem xsumTcpipTso_same (h : ip + iplen + 20 ≤ buf.length) :
    SameOutside (tsoFields ip iplen) buf (xsumTcpipTso buf ip iplen l4len paylen) := by
  unfold xsumTcpipTso tsoFields totalLengthOff hdrChecksumOff tcpCksumOff
  dsimp only
  refine SameOutside.write (SameOutside.write (SameOutside.write (SameOutside.write
    (SameOutside.write (SameOutside.refl _ _) ?_ ?_) ?_ ?_) ?_ ?_) ?_ ?_) ?_ ?_
  all_goals simp only [leBytes_length, beBytes_length, List.mem_cons, true_or, or_true]
  all_goals omega

theorem xsumTcpipTso_totalLength (hip : 20 ≤ iplen) (h : ip + iplen + 20 ≤ buf.length) :
    ntohs (xsumTcpipTso buf ip iplen l4len paylen) (ip + totalLengthOff) = (iplen + l4len + paylen) % 0x10000 := by
  have hlen : (overwrite buf (ip + totalLengthOff) (beBytes 2 (iplen + l4len + paylen))).length = buf.length := by
    apply overwrite_length
    rw [beBytes_length]
    unfold totalLengthOff
    omega
  have hrest : SameOutside [(ip + hdrChecksumOff, 2), (ip + iplen + tcpCksumOff, 2)]
      (overwrite buf (ip + totalLengthOff) (beBytes 2 (iplen + l4len + paylen)))
      (xsumTcpipTso buf ip iplen l4len paylen) := by
    unfold xsumTcpipTso
    dsimp only
    refine SameOutside.write (SameOutside.write (SameOutside.write (SameOutside.write
      (SameOutside.refl _ _) ?_ ?_) ?_ ?_) ?_ ?_) ?_ ?_
    all_goals simp only [leBytes_length, hlen, List.mem_cons, true_or, or_true]
    all_goals simp only [hdrChecksumOff, tcpCksumOff]
    all_goals omega
  have hslice := hrest.slice (ip + totalLengthOff) 2 (by
    simp [hdrChecksumOff, tcpCksumOff, totalLengthOff]
    omega)
  have hbytes := @slice_overwrite buf (ip + totalLengthOff) (beBytes 2 (iplen + l4len + paylen)) (by
    unfold totalLengthOff
    omega)
  rw [beBytes_length] at hbytes
  rw [ntohs, hslice, hbytes, beNat_beBytes]
  norm_num

def postFields (ip iplen : ℕ) : List (ℕ × ℕ) := [(ip + packetIdOff, 2), (ip + iplen + sentSeqOff, 4)]

theorem tsoPostupdateHeader_same (h : ip + iplen + 20 ≤ buf.length) :
    SameOutside (postFields ip iplen) buf (tsoPostupdateHeader buf ip iplen paylen) := by
  unfold tsoPostupdateHeader postFields packetIdOff sentSeqOff
  dsimp only
  refine SameOutside.write (SameOutside.write (SameOutside.refl _ _) ?_ ?_) ?_ ?_
  all_goals simp only [beBytes_length, List.mem_cons, true_or, or_true]
  all_goals omega

theorem tsoPostupdateHeader_seq (hip : 20 ≤ iplen) (h : ip + iplen + 20 ≤ buf.length) :
    ntohl (tsoPostupdateHeader buf ip iplen paylen) (ip + iplen + sentSeqOff) =
      (ntohl buf (ip + iplen + sentSeqOff) + paylen) % 0x100000000 := by
  generalize hv : ntohl buf (ip + iplen + sentSeqOff) + paylen = v
  have hin : ip + iplen + sentSeqOff + 4 ≤ buf.length := by
    unfold sentSeqOff
    omega
  have hlen : (overwrite buf (ip + iplen + sentSeqOff) (beBytes 4 v)).length = buf.length := by
    apply overwrite_length
    rw [beBytes_length]
    exact hin
  have hrest : SameOutside [(ip + packetIdOff, 2)] (overwrite buf (ip + iplen + sentSeqOff) (beBytes 4 v))
      (tsoPostupdateHeader buf ip iplen paylen) := by
    unfold tsoPostupdateHeader
    dsimp only
    rw [hv]
    refine SameOutside.write (SameOutside.refl _ _) ?_ ?_
    · rw [beBytes_length, hlen]
      unfold packetIdOff
      omega
    · rw [beBytes_length, List.mem_singleton]
  have hslice := hrest.slice (ip + iplen + sentSeqOff) 4 (by
    simp [packetIdOff, sentSeqOff]
    omega)
  have hbytes := @slice_overwrite buf (ip + iplen + sentSeqOff) (beBytes 4 v) (by omega)
  rw [beBytes_length] at hbytes
  rw [ntohl, hslice, hbytes, beNat_beBytes]
  norm_num

theorem tsoPostupdateHeader_id (hip : 20 ≤ iplen) (h : ip + iplen + 20 ≤ buf.length) :
    ntohs (tsoPostupdateHeader buf ip iplen paylen) (ip + packetIdOff) =
      (ntohs buf (ip + packetIdOff) + 1) % 0x10000 := by
  unfold tsoPostupdateHeader
  dsimp only
  generalize hmid : overwrite buf (ip + iplen + sentSeqOff) _ = mid
  have hsame : SameOutside [(ip + iplen + sentSeqOff, 4)] buf mid := by
    rw [← hmid]
    refine SameOutside.write (SameOutside.refl _ _) ?_ ?_
    · rw [beBytes_length]
      unfold sentSeqOff
      omega
    · rw [beBytes_length, List.mem_singleton]
  have hslice := hsame.slice (ip + packetIdOff) 2 (by
    simp [packetIdOff, sentSeqOff]
    omega)
  have hbytes := @slice_overwrite mid (ip + packetIdOff) (beBytes 2 (ntohs mid (ip + packetIdOff) + 1)) (by
    rw [hsame.length]
    unfold packetIdOff
    omega)
  rw [beBytes_length] at hbytes
  rw [ntohs, hbytes, beNat_beBytes, ntohs, hslice, ← ntohs]
  norm_num

end

end Vmux.Checksums
