import Vmux.OnesComplement
import Vmux.TxBounds

namespace Vmux.ChecksumOffload

open Bytes Checksums DescriptorQueue LanTx TxUnits TxTermination TxByteExact TxFrames TxBounds OnesComplement

theorem rteRawSum_eq (l : List UInt8) : rteRawSum l = leSum l := by
  induction l using leSum.induct with
  | case1 a b rest ih => rw [rteRawSum, leSum, ih]
  | case2 a => rfl
  | case3 => rfl

theorem foldSum_cases {n : ℕ} (h : n < 0x100000000) :
    foldSum n ≤ 0x1fffe ∧ foldSum n % 0xffff = n % 0xffff ∧ (foldSum n = 0 ↔ n = 0) ∧
      (n ≤ 0x1fffe → foldSum n ≤ 0xffff) := by
  have hfold : foldSum n = n / 0x10000 + n % 0x10000 := by
    rw [foldSum, Nat.mod_eq_of_lt (a := n / 0x10000) (by omega)]
  have hn : n = 0xffff * (n / 0x10000) + foldSum n := by omega
  have hlow : n % 0x10000 < 0x10000 := Nat.mod_lt _ (by norm_num)
  have hhigh : n / 0x10000 < 0x10000 := by omega
  refine ⟨by omega, ?_, by omega, by omega⟩
  conv_rhs => rw [hn]
  rw [Nat.mul_add_mod]

theorem foldSum_twice {n : ℕ} (h : n < 0x100000000) :
    foldSum (foldSum n) ≤ 0xffff ∧ foldSum (foldSum n) % 0xffff = n % 0xffff ∧ (foldSum (foldSum n) = 0 ↔ n = 0) := by
  obtain ⟨h1, h2, h3, -⟩ := foldSum_cases h
  obtain ⟨-, h5, h6, h7⟩ := foldSum_cases (n := foldSum n) (by omega)
  exact ⟨h7 h1, h5.trans h2, h6.trans h3⟩

theorem rteRawCksum_cases {l : List UInt8} (h : l.length < 0x10000) :
    rteRawCksum l ≤ 0xffff ∧ rteRawCksum l % 0xffff = leSum l % 0xffff ∧ (rteRawCksum l = 0 ↔ leSum l = 0) := by
  have hle := leSum_le l
  obtain ⟨h1, h2, h3⟩ := foldSum_twice (n := leSum l) (by omega)
  rw [rteRawCksum, rteRawSum_eq, Nat.mod_eq_of_lt (by omega)]
  exact ⟨h1, h2, h3⟩

theorem leSum_leBytes {v : ℕ} (h : v < 0x10000) : leSum (leBytes 2 v) = v := by
  simp only [leBytes, leSum, UInt8.toNat_ofNat']
  omega

theorem leSum_beBytes {v : ℕ} (h : v < 0x10000) : leSum (beBytes 2 v) % 0xffff = 256 * v % 0xffff := by
  have hbytes : leSum (beBytes 2 v) = v / 256 + 256 * (v % 256) := by
    simp only [beBytes, leBytes, List.reverse_cons, List.reverse_nil, List.nil_append, List.cons_append, leSum,
      UInt8.toNat_ofNat']
    omega
  have hswap : 256 * v = 0xffff * (v / 256) + leSum (beBytes 2 v) := by omega
  conv_rhs => rw [hswap]
  rw [Nat.mul_add_mod]

section

variable {l pre seg : List UInt8} {off v : ℕ}

theorem leSum_slice_two (h : off + 2 ≤ l.length) : leSum (slice l off 2) = get16 l off := by
  obtain ⟨a, b, hab⟩ : ∃ a b, slice l off 2 = [a, b] := by
    have hlen := slice_length h
    match hs : slice l off 2, hlen with
    | [a, b], _ => exact ⟨a, b, rfl⟩
  rw [get16, hab]
  simp [leSum, leNat]

theorem leSum_split (hoff : off % 2 = 0) (h : off + 2 ≤ l.length) :
    leSum l = leSum (l.take off) + get16 l off + leSum (l.drop (off + 2)) := by
  have hsplit : l = l.take off ++ (slice l off 2 ++ l.drop (off + 2)) := by
    rw [slice, ← List.drop_drop, List.take_append_drop, List.take_append_drop]
  have htake : (l.take off).length % 2 = 0 := by
    rw [List.length_take_of_le (by omega)]
    exact hoff
  conv_lhs => rw [hsplit]
  rw [leSum_append _ htake, leSum_append _ (by rw [slice_length h]), leSum_slice_two h, Nat.add_assoc]

theorem leSum_overwrite (hoff : off % 2 = 0) (h : off + 2 ≤ l.length) (hv : v < 0x10000) :
    leSum (overwrite l off (leBytes 2 v)) + get16 l off = leSum l + v := by
  have htake : (l.take off).length % 2 = 0 := by
    rw [List.length_take_of_le (by omega)]
    exact hoff
  rw [leSum_split hoff h, overwrite, List.append_assoc, leSum_append _ htake,
    leSum_append _ (by rw [leBytes_length]), leSum_leBytes hv, leBytes_length]
  omega

theorem verifies_overwrite_iff (hpre : pre.length % 2 = 0) (hoff : off % 2 = 0) (h : off + 2 ≤ seg.length) {c : ℕ}
    (hc : c ≤ 0xffff) :
    Verifies (pre ++ overwrite seg off (leBytes 2 (complement16 c))) ↔
      (leSum pre + leSum seg - get16 seg off) % 0xffff = c % 0xffff ∧
        (c = 0xffff → leSum pre + leSum seg - get16 seg off ≠ 0) := by
  have hv : complement16 c = 0xffff - c := by
    unfold complement16
    omega
  have hsum := leSum_overwrite (l := seg) (v := 0xffff - c) hoff h (by omega)
  have hle : get16 seg off ≤ leSum seg := by
    rw [leSum_split hoff h]
    omega
  rw [verifies_iff, leSum_append _ hpre, hv]
  constructor
  · rintro ⟨hmod, hzero⟩
    exact ⟨by omega, by omega⟩
  · rintro ⟨hmod, hzero⟩
    exact ⟨by omega, by omega⟩

theorem verifies_stored_iff {b : List UInt8} {field n psum : ℕ} (hpre : pre.length % 2 = 0) (hfield : field % 2 = 0)
    (hn : field + 2 ≤ n) (hb : off + n ≤ b.length) (hsmall : n < 0x10000) (hpsum : psum ≤ 0xffff)
    (hzero : leSum pre = 0 → psum = 0 ∧ get16 (slice b off n) field = 0) :
    Verifies (pre ++ slice (overwrite b (off + field)
      (leBytes 2 (complement16 (foldSum (rteRawCksum (slice b off n) + psum))))) off n) ↔
      leSum pre % 0xffff = (psum + get16 (slice b off n) field) % 0xffff := by
  have hlen := slice_length hb
  obtain ⟨h1, h2, h3⟩ := rteRawCksum_cases (l := slice b off n) (by omega)
  obtain ⟨-, h5, h6, h7⟩ := foldSum_cases (n := rteRawCksum (slice b off n) + psum) (by omega)
  have hle : get16 (slice b off n) field ≤ leSum (slice b off n) := by
    rw [leSum_split hfield (by omega)]
    omega
  rw [slice_overwrite_within (by rw [leBytes_length]; exact hn) hb,
    verifies_overwrite_iff hpre hfield (by omega) (h7 (by omega))]
  generalize rteRawCksum (slice b off n) = C at h1 h2 h3 h5 h6
  generalize foldSum (C + psum) = c at h5 h6
  constructor
  · rintro ⟨hmod, -⟩
    omega
  · intro hmod
    exact ⟨by omega, by omega⟩

end

/-- The pseudo-header of an IPv4 packet whose header starts at `ip`. -/
def pseudoHeader (f : List UInt8) (ip : ℕ) (proto : UInt8) (l4Len : ℕ) : List UInt8 :=
  slice f (ip + 12) 8 ++ [0, proto] ++ beBytes 2 l4Len

theorem get16_slice {b : List UInt8} {off n field : ℕ} (h : field + 2 ≤ n) :
    get16 (slice b off n) field = get16 b (off + field) := by
  rw [get16, get16, slice, slice, slice, List.drop_take, List.drop_drop, List.take_take, min_eq_left (by omega)]

theorem get16_zeroed {b : List UInt8} {off : ℕ} (h : off ≤ b.length) : get16 (overwrite b off (leBytes 2 0)) off = 0 :=
  get16_put16 h

theorem leSum_pseudo {addrs : List UInt8} (h : addrs.length = 8) (proto : UInt8) (n : ℕ) :
    leSum (addrs ++ [0, proto] ++ beBytes 2 n) = leSum addrs + 256 * proto.toNat + leSum (beBytes 2 n) := by
  rw [List.append_assoc, leSum_append _ (by rw [h]), leSum_append _ (by simp), ← Nat.add_assoc]
  simp [leSum]

theorem slice_one {b : List UInt8} {off : ℕ} (h : off + 1 ≤ b.length) :
    ∃ x : UInt8, slice b off 1 = [x] ∧ get8 b off = x.toNat := by
  have hlen := slice_length h
  match hs : slice b off 1, hlen with
  | [x], _ => exact ⟨x, rfl, by simp [get8, hs, leNat]⟩

theorem pseudo_congr_iff {addrs p p' n n' x x' psum : ℕ} (hx : x % 0xffff = 256 * n % 0xffff)
    (hx' : x' % 0xffff = 256 * n' % 0xffff) (hpsum : psum % 0xffff = (addrs + 256 * p' + x') % 0xffff) :
    (addrs + 256 * p + x) % 0xffff = psum % 0xffff ↔ (p + n) % 0xffff = (p' + n') % 0xffff := by
  have hleft : addrs + 256 * p + x ≡ addrs + 256 * (p + n) [MOD 0xffff] := by
    rw [Nat.mul_add, ← Nat.add_assoc]
    exact Nat.ModEq.add_left _ hx
  have hright : psum ≡ addrs + 256 * (p' + n') [MOD 0xffff] := by
    rw [Nat.mul_add, ← Nat.add_assoc]
    exact Nat.ModEq.trans hpsum (Nat.ModEq.add_left _ hx')
  constructor
  · intro h
    have hsum : addrs + 256 * (p + n) ≡ addrs + 256 * (p' + n') [MOD 0xffff] :=
      hleft.symm.trans (Nat.ModEq.trans h hright)
    exact Nat.ModEq.cancel_left_of_coprime (by decide) (Nat.ModEq.add_left_cancel' _ hsum)
  · intro h
    exact hleft.trans (Nat.ModEq.trans (Nat.ModEq.add_left _ (Nat.ModEq.mul_left _ h)) hright.symm)

section

variable {buf : List UInt8} {ip iplen l4len pay : ℕ}

theorem overwrite_two_length {b bs : List UInt8} {off : ℕ} (h : off + 2 ≤ b.length) (hbs : bs.length = 2) :
    (overwrite b off bs).length = b.length := overwrite_length (by omega)

theorem slice_overwrite_two {b bs : List UInt8} {off k n : ℕ} (h : off + 2 ≤ b.length) (hbs : bs.length = 2)
    (hd : k + n ≤ off ∨ off + 2 ≤ k) : slice (overwrite b off bs) k n = slice b k n :=
  slice_overwrite_ne (by omega) (by omega)

theorem xsumTcpipTso_verifies (hip : 20 ≤ iplen) (hip' : iplen ≤ 60) (hl4 : 20 ≤ l4len) (hb : ip + iplen + (l4len + pay) ≤ buf.length)
    (hsmall : buf.length < 0x10000) :
    Verifies (slice (xsumTcpipTso buf ip iplen l4len pay) ip iplen) ∧
      (Verifies (pseudoHeader (xsumTcpipTso buf ip iplen l4len pay) ip 6 (l4len + pay) ++
        slice (xsumTcpipTso buf ip iplen l4len pay) (ip + iplen) (l4len + pay)) ↔
        get8 buf (ip + 9) + iplen = 26) := by
  have hlen := @xsumTcpipTso_totalLength buf ip iplen l4len pay hip (by omega)
  unfold xsumTcpipTso at hlen ⊢
  simp only [totalLengthOff, hdrChecksumOff, tcpCksumOff] at hlen ⊢
  have le2 : ∀ v, (leBytes 2 v).length = 2 := leBytes_length 2
  have be2 : ∀ v, (beBytes 2 v).length = 2 := beBytes_length 2
  -- the buffer with the new length, and a zero in the checksum field of the IP header
  generalize h1 : overwrite buf (ip + 2) (beBytes 2 (iplen + l4len + pay)) = b1 at hlen ⊢
  have hb1 : b1.length = buf.length := by
    rw [← h1]
    exact overwrite_two_length (by omega) (be2 _)
  generalize h2 : overwrite b1 (ip + 10) (leBytes 2 0) = b2 at hlen ⊢
  have hb2 : b2.length = buf.length := by
    rw [← h2, overwrite_two_length (by omega) (le2 _), hb1]
  have hz2 : get16 b2 (ip + 10) = 0 := by
    rw [← h2]
    exact get16_zeroed (by omega)
  generalize h3 : overwrite b2 (ip + 10) (leBytes 2 (complement16 (foldSum (rteRawCksum (slice b2 ip iplen))))) = b3
    at hlen ⊢
  have hb3 : b3.length = buf.length := by
    rw [← h3, overwrite_two_length (by omega) (le2 _), hb2]
  generalize h4 : overwrite b3 (ip + iplen + 16) (leBytes 2 0) = b4 at hlen ⊢
  have hb4 : b4.length = buf.length := by
    rw [← h4, overwrite_two_length (by omega) (le2 _), hb3]
  have hz4 : get16 b4 (ip + iplen + 16) = 0 := by
    rw [← h4]
    exact get16_zeroed (by omega)
  generalize h5 : overwrite b4 (ip + iplen + 16) (leBytes 2 (complement16 (foldSum
    (rteRawCksum (slice b4 (ip + iplen) (l4len + pay)) + rteIpv4PhdrCksum b4 ip)))) = b5 at hlen ⊢
  have h54 : ∀ k n, k + n ≤ ip + iplen + 16 → slice b5 k n = slice b4 k n := by
    intro k n hk
    rw [← h5]
    exact slice_overwrite_two (by omega) (le2 _) (.inl hk)
  constructor
  · have hip5 : slice b5 ip iplen = slice b3 ip iplen := by
      rw [h54 _ _ (by omega), ← h4]
      exact slice_overwrite_two (by omega) (le2 _) (.inl (by omega))
    have hver := @verifies_stored_iff [] ip b2 10 iplen 0 rfl rfl
      (by omega) (by omega) (by omega) (by omega) (fun _ => ⟨rfl, by rw [get16_slice (by omega), hz2]⟩)
    simp only [get16_slice (show 10 + 2 ≤ iplen by omega), hz2, Nat.add_zero, h3, List.nil_append] at hver
    rw [hip5, hver]
    rfl
  · have hn : ntohs b4 (ip + 2) = iplen + l4len + pay := by
      rw [← Nat.mod_eq_of_lt (show iplen + l4len + pay < 0x10000 by omega), ← hlen, ntohs, ntohs, h54 _ _ (by omega)]
    obtain ⟨proto, hproto, hget⟩ := @slice_one buf (ip + 9) (by omega)
    have hkept : slice b4 (ip + 9) 1 = [proto] := by
      rw [← h4, slice_overwrite_two (by omega) (le2 _) (.inl (by omega)), ← h3,
        slice_overwrite_two (by omega) (le2 _) (.inl (by omega)), ← h2,
        slice_overwrite_two (by omega) (le2 _) (.inl (by omega)), ← h1,
        slice_overwrite_two (by omega) (be2 _) (.inr (by omega)), hproto]
    have haddrs : (slice b4 (ip + 12) 8).length = 8 := slice_length (by omega)
    -- the code takes 20 bytes off the total length, whatever the length of the header
    have hphdr : rteIpv4PhdrCksum b4 ip = rteRawCksum (slice b4 (ip + 12) 8 ++ [0, proto] ++
        beBytes 2 (iplen + l4len + pay - 20)) := by
      rw [rteIpv4PhdrCksum, totalLengthOff, hn, hkept,
        show (iplen + l4len + pay + 0x10000 - 20) % 0x10000 = iplen + l4len + pay - 20 by omega]
      simp
    have hsum := leSum_pseudo haddrs proto (iplen + l4len + pay - 20)
    obtain ⟨hle, hmod, -⟩ := rteRawCksum_cases (l := slice b4 (ip + 12) 8 ++ [0, proto] ++
      beBytes 2 (iplen + l4len + pay - 20)) (by simp [haddrs, be2])
    have hcode := leSum_beBytes (v := iplen + l4len + pay - 20) (by omega)
    have htrue := leSum_beBytes (v := l4len + pay) (by omega)
    have hpre : leSum (pseudoHeader b5 ip 6 (l4len + pay)) =
        leSum (slice b4 (ip + 12) 8) + 256 * 6 + leSum (beBytes 2 (l4len + pay)) := by
      rw [pseudoHeader, h54 _ _ (by omega), leSum_pseudo haddrs]
      rfl
    have hver := @verifies_stored_iff (pseudoHeader b5 ip 6 (l4len + pay)) (ip + iplen) b4 16 (l4len + pay)
      (rteIpv4PhdrCksum b4 ip)
      (by simp [pseudoHeader, be2, h54 _ _ (show ip + 12 + 8 ≤ ip + iplen + 16 by omega), haddrs]) rfl
      (by omega) (by omega) (by omega) (by rw [hphdr]; exact hle) (by omega)
    rw [h5] at hver
    rw [hsum] at hmod
    rw [← hphdr] at hle hmod
    rw [hver, get16_slice (by omega), hz4, hget, hpre]
    have hbound := proto.toNat_lt
    have hcongr := pseudo_congr_iff (p := 6) htrue hcode hmod
    rw [Nat.add_zero]
    exact hcongr.trans (by omega)

end

section

variable {accept : ℕ → Bool} {t : TsoState} {segs : List Segment} {l : Lead} {r : EopScan} {sent : Sent} {f : List UInt8}

theorem hardwareTso_noFrame (mss : ℕ) (unit : List Segment) (i : ℕ) :
    Output.ethSend f ∉ (hardwareTso accept r mss unit i).1 := by
  induction unit generalizing i with
  | nil => simp [hardwareTso]
  | cons s rest ih =>
    rw [hardwareTso]
    split
    · simpa using ih (i + 1)
    · simp

theorem sendTso_calls {mss : ℕ} {c : Copy} (h : sendTso mss r c = .ok sent) :
    sent.calls = [.ethSend ((xsumTcpipTso c.tso.pktbuf r.maclen (r.iplen % 0x100) r.l4len
      (min (sub32 c.tso.tsoLen (r.maclen + r.iplen + r.l4len)) mss)).take c.tso.tsoLen)] := by
  unfold sendTso at h
  dsimp only at h
  split at h
  · cases h
  · split at h <;> cases h <;> rfl

theorem sendUnit_frame (h : sendUnit accept t segs l r = .ok sent) (hf : .ethSend f ∈ sent.calls) :
    ∃ c, copyLoop (dataLimit l r t) (segs.drop l.dSkip) ⟨l.dSkip, 0, t⟩ = .ok c ∧ c.tso.tsoLen ≤ mtu ∧
      ((l.tso = true ∧ f = (xsumTcpipTso c.tso.pktbuf r.maclen (r.iplen % 0x100) r.l4len
          (min (sub32 c.tso.tsoLen (r.maclen + r.iplen + r.l4len)) l.mss)).take c.tso.tsoLen) ∨
        (l.tso = false ∧ ∃ sent', sendPlain r c = .ok sent' ∧ .ethSend f ∈ sent'.calls)) := by
  unfold sendUnit at h
  split at h
  · cases h
  · dsimp only at h
    split at h
    · cases h
      exact absurd hf (hardwareTso_noFrame _ _ _)
    · obtain ⟨c, hc, h⟩ := bind_ok h
      refine ⟨c, hc, ?_⟩
      split at h
      · cases h
      · rename_i hlen
        refine ⟨by omega, ?_⟩
        split at h
        · rename_i htso
          obtain ⟨x, hx, h⟩ := bind_ok h
          cases h
          refine .inl ⟨htso, ?_⟩
          rcases List.mem_append.mp hf with hf | hf
          · split at hf
            · exact absurd hf (hardwareTso_noFrame _ _ _)
            · cases hf
          · rw [sendTso_calls hx, List.mem_singleton] at hf
            exact Output.ethSend.inj hf
        · rename_i htso
          exact .inr ⟨by simpa using htso, sent, h, hf⟩

theorem copyLoop_length {limit : ℕ} {c c' : Copy} (h : copyLoop limit segs c = .ok c') (hb : c.tso.pktbuf.length = mtu) :
    c'.tso.pktbuf.length = mtu := by
  induction segs generalizing c with
  | nil =>
    cases h
    exact hb
  | cons s rest ih =>
    rcases copyLoop_cons h with ⟨-, rfl⟩ | ⟨-, t, ht, h⟩
    · exact hb
    · refine ih h ?_
      unfold copySegment at ht
      dsimp only at ht
      split at ht
      · split at ht
        · cases ht
        · cases ht
          dsimp only
          rw [overwrite_length, hb]
          rw [slice_length (by omega), hb]
          omega
      · cases ht
        exact hb

theorem sendUnit_length (hm : r.maclen ≤ 254) (hi : r.iplen ≤ 508) (ht : t.pktbuf.length = mtu)
    (h : sendUnit accept t segs l r = .ok sent) : sent.tso.pktbuf.length = mtu := by
  have hmtu := mtu_eq
  rcases sendUnit_ok h with ⟨-, -, -, -, -, hst⟩ | ⟨-, c, hc, ⟨-, x, hx, -, hst⟩ | ⟨-, hp⟩⟩
  · rw [hst]
    exact ht
  · have hb := copyLoop_length hc ht
    have hfit : r.maclen + r.iplen % 0x100 + 20 ≤ c.tso.pktbuf.length := by
      rw [hb]
      omega
    rw [hst]
    unfold sendTso at hx
    dsimp only at hx
    split at hx
    · cases hx
    · have hsum := (xsumTcpipTso_same r.l4len
        (min (sub32 c.tso.tsoLen (r.maclen + r.iplen + r.l4len)) l.mss) hfit).length
      have hpost := fun n => (tsoPostupdateHeader_same n (hsum ▸ hfit)).length
      split at hx
      · cases hx
        exact (hpost _).trans (hsum.trans hb)
      · cases hx
        exact (hpost _).trans (hsum.trans hb)
  · have hb := copyLoop_length hc ht
    unfold sendPlain at hp
    dsimp only at hp
    split at hp
    · cases hp
    · cases hp
      dsimp only
      split
      · rw [xsumTcp, xsumAt, overwrite_two_length _ (leBytes_length 2 _)]
        · exact hb
        · unfold tcpCksumOff
          omega
      · split
        · rw [xsumUdp, xsumAt, overwrite_two_length _ (leBytes_length 2 _)]
          · exact hb
          · unfold dgramCksumOff
            omega
        · exact hb

end

theorem ntohs_cases {b : List UInt8} {off : ℕ} (h : off + 2 ≤ b.length) :
    get16 b off % 0xffff = 256 * ntohs b off % 0xffff ∧ (get16 b off = 0 ↔ ntohs b off = 0) := by
  obtain ⟨y, z, hyz⟩ : ∃ y z, slice b off 2 = [y, z] := by
    have hlen := slice_length h
    match hs : slice b off 2, hlen with
    | [y, z], _ => exact ⟨y, z, rfl⟩
  have hle : get16 b off = y.toNat + 256 * z.toNat := by simp [get16, hyz, leNat]
  have hbe : ntohs b off = z.toNat + 256 * y.toNat := by simp [ntohs, beNat, hyz, leNat]
  have hswap : 256 * ntohs b off = 0xffff * y.toNat + get16 b off := by omega
  refine ⟨?_, by omega⟩
  rw [hswap, Nat.mul_add_mod]

theorem xsumAt_verifies {b ph : List UInt8} {field off n : ℕ} (hph : ph.length % 2 = 0) (hfield : field % 2 = 0)
    (hn : field + 2 ≤ n) (hb : off + n ≤ b.length) (hsmall : n < 0x10000) (hsum : ntohs b (off + field) = sum ph) :
    Verifies (ph ++ slice (xsumAt field b off n) off n) ∧
      (ntohs (xsumAt field b off n) (off + field) ≠ 0 ↔ ¬Verifies (slice b off n)) := by
  obtain ⟨hs1, hs2, hs3⟩ := sum_cases ph
  obtain ⟨hf1, hf2⟩ := @ntohs_cases b (off + field) (by omega)
  have hver := @verifies_stored_iff ph off b field n 0 hph hfield hn hb hsmall (Nat.zero_le _) (by
    intro hz
    rw [get16_slice hn]
    exact ⟨rfl, by omega⟩)
  rw [get16_slice hn] at hver
  simp only [Nat.add_zero, Nat.zero_add] at hver
  have hlen := slice_length hb
  obtain ⟨h1, h2, h3⟩ := rteRawCksum_cases (l := slice b off n) (by omega)
  have hstored : get16 (xsumAt field b off n) (off + field) = 0xffff - rteRawCksum (slice b off n) := by
    have hfold : foldSum (rteRawCksum (slice b off n)) = rteRawCksum (slice b off n) := by
      unfold foldSum
      omega
    have hput := @get16_put16 b (off + field) (complement16 (rteRawCksum (slice b off n))) (by omega)
    rw [put16] at hput
    rw [xsumAt, hfold, hput, complement16]
    omega
  have hxlen : (xsumAt field b off n).length = b.length := overwrite_two_length (by omega) (leBytes_length 2 _)
  obtain ⟨-, hx⟩ := @ntohs_cases (xsumAt field b off n) (off + field) (by omega)
  constructor
  · exact hver.mpr (by omega)
  · rw [verifies_iff, ne_eq, ← hx, hstored]
    omega

theorem pktbuf_length {s : Sender} (h : sender.Reachable s) : s.tso.pktbuf.length = mtu := by
  induction h with
  | start h => exact h.2.1
  | step _ hs ih =>
    cases hs with
    | process x hr hc hx he =>
      rw [he]
      exact ih
    | packet accept sent hr hp he =>
      rw [he]
      obtain ⟨x, inner, e, rest, -, hsend⟩ := UnitAt.of_sent hp
      exact sendUnit_length (maclen_le e.d1) (iplen_le e.d1) ih hsend
    | waits accept hr hp he =>
      rw [he]
      exact ih
    | reset hr he =>
      rw [he]
      exact ih

section

variable {s : Sender} {accept : ℕ → Bool} {sent : Sent} {x e : Segment} {inner rest : List Segment} {f : List UInt8}

theorem unit_sent (hu : UnitAt s.ready x inner e rest) (h : triggerTxPacket accept s.tso s.ready = .ok (some sent)) :
    sendUnit accept s.tso s.ready (lead x) (EopScan.unit (lead x).dSkip inner e) = .ok sent := by
  obtain ⟨y, inner', e', rest', hu', hsend⟩ := UnitAt.of_sent h
  obtain ⟨rfl, rfl, rfl⟩ := hu.unique hu'
  exact hsend

theorem copyLoop_append {limit : ℕ} {unit : List Segment} (rest : List Segment) {r : Copy}
    (h : limit ≤ r.off + pktLenSum unit) : copyLoop limit (unit ++ rest) r = copyLoop limit unit r := by
  induction unit generalizing r with
  | nil =>
    simp only [pktLenSum, List.map_nil, List.sum_nil] at h
    rw [List.nil_append, copyLoop_done rest (by omega)]
    rfl
  | cons s unit ih =>
    have hsum : pktLenSum (s :: unit) = pktLen16 s.d1 + pktLenSum unit := by simp [pktLenSum]
    rw [List.cons_append, copyLoop, copyLoop]
    split
    · rfl
    · cases hseg : copySegment limit s r.off r.tso with
      | error f => rfl
      | ok t => exact ih (by dsimp only; omega)

def hdrlen (e : Segment) : ℕ := maclen e.d1 + iplen e.d1 + l4len e.d1

def segStart (t : TsoState) (e : Segment) : ℕ := if t.tsoOff = 0 then hdrlen e else t.tsoOff

def payload (t : TsoState) (l : Lead) (inner : List Segment) (e : Segment) : ℕ :=
  min l.mss (bufSzSum (inner ++ [e]) - segStart t e)

/-- The headers of the next segment: those of the unit, or those kept from the segment before. -/
def headers (t : TsoState) (inner : List Segment) (e : Segment) : List UInt8 :=
  (if t.tsoOff = 0 then fetched (inner ++ [e]) else t.pktbuf).take (hdrlen e)

theorem headers_length (hs : sender.Reachable s) (hu : UnitAt s.ready x inner e rest)
    (hhdr : hdrlen e ≤ bufSzSum (inner ++ [e])) : (headers s.tso inner e).length = hdrlen e := by
  have hst := Steady.reachable hs
  have hsum := bufSzSum_le (inner ++ [e])
  apply List.length_take_of_le
  rcases hst.unit_state hu with ⟨hoff, -⟩ | hm
  · rw [if_pos hoff, fetched_length (hst.located hu).full]
    omega
  · have hfits := hm.fits
    rw [if_neg hm.pos, pktbuf_length hs]
    unfold hdrlen
    omega

/-- The next segment as the copy loop leaves it in `pktbuf`. -/
def assembled (t : TsoState) (l : Lead) (inner : List Segment) (e : Segment) : List UInt8 :=
  headers t inner e ++ slice (fetched (inner ++ [e])) (segStart t e) (payload t l inner e)

theorem copied_assembled (hs : sender.Reachable s) (hu : UnitAt s.ready x inner e rest) (htso : (lead x).tso = true)
    (hhdr : hdrlen e ≤ bufSzSum (inner ++ [e])) {c : Copy}
    (hc : copyLoop (dataLimit (lead x) (EopScan.unit (lead x).dSkip inner e) s.tso) (s.ready.drop (lead x).dSkip)
      ⟨(lead x).dSkip, 0, s.tso⟩ = .ok c) (hle : c.tso.tsoLen ≤ mtu) :
    c.tso.tsoOff = segStart s.tso e + payload s.tso (lead x) inner e ∧
      c.tso.tsoLen = hdrlen e + payload s.tso (lead x) inner e ∧
      c.tso.pktbuf.take c.tso.tsoLen = assembled s.tso (lead x) inner e := by
  have hst := Steady.reachable hs
  have hloc := hst.located hu
  have hbuf := pktbuf_length hs
  have hsum := bufSzSum_le (inner ++ [e])
  have hlimit : dataLimit (lead x) (EopScan.unit (lead x).dSkip inner e) s.tso =
      segStart s.tso e + payload s.tso (lead x) inner e ∧ s.tso.tsoOff ≤ segStart s.tso e ∧
      s.tso.tsoLen + (segStart s.tso e - s.tso.tsoOff) = hdrlen e ∧ segStart s.tso e ≤ bufSzSum (inner ++ [e]) := by
    rw [@dataLimit_tso s.tso inner e (lead x) htso, payload, segStart]
    rcases hst.unit_state hu with ⟨hoff, hlen⟩ | hm
    · rw [if_pos hoff, if_pos hoff, hoff, hlen]
      unfold hdrlen at hhdr ⊢
      omega
    · have hbelow := hm.below
      have hlen := hm.len
      rw [if_neg hm.pos, if_neg hm.pos]
      unfold hdrlen
      omega
  obtain ⟨hlimit, hoff, hlen, hin⟩ := hlimit
  have hpay : payload s.tso (lead x) inner e ≤ bufSzSum (inner ++ [e]) - segStart s.tso e := min_le_right _ _
  generalize dataLimit (lead x) (EopScan.unit (lead x).dSkip inner e) s.tso = limit at hc hlimit
  rw [hloc.drop, copyLoop_append _ (by dsimp only; omega)] at hc
  obtain ⟨-, hreach⟩ := copyLoop_reaches hc (Nat.zero_le _) (by dsimp only; omega) (by dsimp only; omega)
  dsimp only at hreach
  obtain ⟨off', heq⟩ := copyLoop_eq limit hloc.full (lead x).dSkip 0 s.tso (Nat.zero_le _) (by omega) (by omega) (by omega)
    (by omega)
  rw [heq] at hc
  cases hc
  refine ⟨hlimit, by dsimp only; omega, ?_⟩
  have hbytes : (slice (fetched (inner ++ [e])) s.tso.tsoOff (limit - s.tso.tsoOff)).length = limit - s.tso.tsoOff :=
    slice_length (by rw [fetched_length hloc.full]; omega)
  have htake := @take_overwrite s.tso.pktbuf s.tso.tsoLen
    (slice (fetched (inner ++ [e])) s.tso.tsoOff (limit - s.tso.tsoOff)) (by omega)
  rw [hbytes] at htake
  dsimp only
  rw [Nat.sub_zero, htake, assembled, headers]
  rcases hst.unit_state hu with ⟨hzero, hnil⟩ | hm
  · -- the first segment takes its headers from the unit
    rw [segStart, if_pos hzero] at hlimit ⊢
    rw [if_pos hzero, hzero, hnil, hlimit, List.take_zero, List.nil_append, Nat.sub_zero, slice_add, Nat.zero_add]
    rfl
  · rw [segStart, if_neg hm.pos] at hlimit ⊢
    rw [if_neg hm.pos, hm.len, hlimit, Nat.add_sub_cancel_left]
    rfl

/-- The protocol that the IPv4 header names: in the unit itself, or in the header kept from the segment before. -/
def protocol (s : Sender) (inner : List Segment) (e : Segment) : ℕ :=
  get8 (if s.tso.tsoOff = 0 then fetched (inner ++ [e]) else s.tso.pktbuf) (maclen e.d1 + 9)

theorem protocol_copied (hs : sender.Reachable s) (hu : UnitAt s.ready x inner e rest) (htso : (lead x).tso = true)
    (hip : 20 ≤ iplen e.d1) (hhdr : hdrlen e ≤ bufSzSum (inner ++ [e])) {c : Copy}
    (hc : copyLoop (dataLimit (lead x) (EopScan.unit (lead x).dSkip inner e) s.tso) (s.ready.drop (lead x).dSkip)
      ⟨(lead x).dSkip, 0, s.tso⟩ = .ok c) (hle : c.tso.tsoLen ≤ mtu) :
    get8 c.tso.pktbuf (maclen e.d1 + 9) = protocol s inner e := by
  obtain ⟨-, hlen, htake⟩ := copied_assembled hs hu htso hhdr hc hle
  have hheaders := headers_length hs hu hhdr
  have hin : maclen e.d1 + 9 + 1 ≤ hdrlen e := by
    unfold hdrlen
    omega
  have hcopied : slice c.tso.pktbuf (maclen e.d1 + 9) 1 = slice (headers s.tso inner e) (maclen e.d1 + 9) 1 := by
    rw [← slice_take (show maclen e.d1 + 9 + 1 ≤ c.tso.tsoLen by omega), htake, assembled,
      slice_append_left (by rw [hheaders]; exact hin)]
  rw [protocol, get8, get8, hcopied, headers, slice_take hin]

theorem tso_verifies (hs : sender.Reachable s) (hu : UnitAt s.ready x inner e rest) (htso : (lead x).tso = true)
    (hip : 20 ≤ iplen e.d1) (hip' : iplen e.d1 ≤ 60) (hl4 : 20 ≤ l4len e.d1)
    (hhdr : maclen e.d1 + iplen e.d1 + l4len e.d1 ≤ bufSzSum (inner ++ [e]))
    (h : triggerTxPacket accept s.tso s.ready = .ok (some sent)) (hf : .ethSend f ∈ sent.calls) :
    (∃ pay ≤ (lead x).mss, f.length = maclen e.d1 + iplen e.d1 + l4len e.d1 + pay) ∧
      Verifies (slice f (maclen e.d1) (iplen e.d1)) ∧
      (Verifies (pseudoHeader f (maclen e.d1) 6 (f.length - (maclen e.d1 + iplen e.d1)) ++
        f.drop (maclen e.d1 + iplen e.d1)) ↔ protocol s inner e + iplen e.d1 = 26) := by
  obtain ⟨c, hc, hle, ⟨-, hframe⟩ | ⟨hno, -⟩⟩ := sendUnit_frame (unit_sent hu h) hf
  · obtain ⟨-, hlen, -⟩ := copied_assembled hs hu htso hhdr hc hle
    have hpay : payload s.tso (lead x) inner e ≤ (lead x).mss := min_le_left _ _
    generalize payload s.tso (lead x) inner e = pay at hpay hlen
    unfold hdrlen at hlen
    have hb := copyLoop_length hc (pktbuf_length hs)
    have hmtu := mtu_eq
    have hsub : min (sub32 c.tso.tsoLen (maclen e.d1 + iplen e.d1 + l4len e.d1)) (lead x).mss = pay := by
      rw [sub32_of_le (by omega) (by omega)]
      omega
    change f = (xsumTcpipTso c.tso.pktbuf (maclen e.d1) (iplen e.d1 % 0x100) (l4len e.d1)
      (min (sub32 c.tso.tsoLen (maclen e.d1 + iplen e.d1 + l4len e.d1)) (lead x).mss)).take c.tso.tsoLen at hframe
    rw [hsub, Nat.mod_eq_of_lt (by omega)] at hframe
    have hproto := protocol_copied hs hu htso hip hhdr hc hle
    have hx := (@xsumTcpipTso_same c.tso.pktbuf (maclen e.d1) (iplen e.d1) (l4len e.d1) pay (by omega)).length
    obtain ⟨h1, h2⟩ := @xsumTcpipTso_verifies c.tso.pktbuf (maclen e.d1) (iplen e.d1) (l4len e.d1) pay hip hip' hl4
      (by omega) (by omega)
    rw [hproto] at h2
    generalize xsumTcpipTso c.tso.pktbuf (maclen e.d1) (iplen e.d1) (l4len e.d1) pay = b at h1 h2 hx hframe
    have hflen : f.length = maclen e.d1 + iplen e.d1 + l4len e.d1 + pay := by
      rw [hframe, List.length_take_of_le (by omega), hlen]
    have hslice : ∀ off n, off + n ≤ c.tso.tsoLen → slice f off n = slice b off n := by
      intro off n hn
      rw [hframe]
      exact slice_take hn
    have hdrop : f.drop (maclen e.d1 + iplen e.d1) = slice b (maclen e.d1 + iplen e.d1) (l4len e.d1 + pay) := by
      rw [← hslice _ _ (by omega), slice, List.take_of_length_le (by rw [List.length_drop]; omega)]
    refine ⟨⟨pay, hpay, hflen⟩, ?_, ?_⟩
    · rw [hslice _ _ (by omega)]
      exact h1
    · rw [hdrop, pseudoHeader, hslice _ _ (by omega), hflen,
        show maclen e.d1 + iplen e.d1 + l4len e.d1 + pay - (maclen e.d1 + iplen e.d1) = l4len e.d1 + pay by omega]
      exact h2
  · rw [htso] at hno
    cases hno

def entry (inner : List Segment) (e : Segment) : List UInt8 :=
  (fetched (inner ++ [e])).take (bufSzSum (inner ++ [e]))

theorem plain_copied (hs : sender.Reachable s) (hu : UnitAt s.ready x inner e rest) (htso : (lead x).tso = false)
    {c : Copy} (hc : copyLoop (dataLimit (lead x) (EopScan.unit (lead x).dSkip inner e) s.tso)
      (s.ready.drop (lead x).dSkip) ⟨(lead x).dSkip, 0, s.tso⟩ = .ok c) (hle : c.tso.tsoLen ≤ mtu) :
    c.tso.tsoLen = bufSzSum (inner ++ [e]) ∧ (entry inner e).length = bufSzSum (inner ++ [e]) ∧
      c.tso.pktbuf.take (bufSzSum (inner ++ [e])) = entry inner e := by
  have hst := Steady.reachable hs
  have hloc := hst.located hu
  have hbuf := pktbuf_length hs
  obtain ⟨hoff, hlen⟩ : Fresh s.tso := by
    rcases hst.unit_state hu with hf | hm
    · exact hf
    · have := hm.tso
      rw [htso] at this
      cases this
  have hsum := bufSzSum_le (inner ++ [e])
  have hlimit : dataLimit (lead x) (EopScan.unit (lead x).dSkip inner e) s.tso = bufSzSum (inner ++ [e]) := by
    rw [dataLimit, htso]
    rfl
  rw [hlimit, hloc.drop, copyLoop_append _ (by dsimp only; omega)] at hc
  obtain ⟨-, htotal⟩ := copyLoop_reaches hc (Nat.zero_le _) (by dsimp only; omega) (by dsimp only; omega)
  dsimp only at htotal
  obtain ⟨off', heq⟩ := copyLoop_eq (bufSzSum (inner ++ [e])) hloc.full (lead x).dSkip 0 s.tso (Nat.zero_le _) (by omega)
    (by omega) (by omega) (by omega)
  rw [heq] at hc
  cases hc
  have hslice : slice (fetched (inner ++ [e])) (s.tso.tsoOff - 0) (bufSzSum (inner ++ [e]) - s.tso.tsoOff) = entry inner e := by
    rw [hoff]
    rfl
  have hentry : (entry inner e).length = bufSzSum (inner ++ [e]) := by
    rw [entry, List.length_take_of_le]
    rw [fetched_length hloc.full]
    exact hsum
  refine ⟨by omega, hentry, ?_⟩
  dsimp only
  rw [hslice, hlen]
  have htake := @take_overwrite s.tso.pktbuf 0 (entry inner e) (Nat.zero_le _)
  rw [hentry, Nat.zero_add] at htake
  exact htake

theorem plain_verifies (hs : sender.Reachable s) (hu : UnitAt s.ready x inner e rest) (htso : (lead x).tso = false)
    (h : triggerTxPacket accept s.tso s.ready = .ok (some sent)) (hf : .ethSend f ∈ sent.calls) {ph : List UInt8}
    (hph : ph.length % 2 = 0) :
    (cmdL4t e.d1 = l4tTcp → maclen e.d1 + iplen e.d1 + tcpCksumOff + 2 ≤ (entry inner e).length →
      ntohs (entry inner e) (maclen e.d1 + iplen e.d1 + tcpCksumOff) = sum ph →
      Verifies (ph ++ f.drop (maclen e.d1 + iplen e.d1))) ∧
    (cmdL4t e.d1 = l4tUdp → maclen e.d1 + iplen e.d1 + dgramCksumOff + 2 ≤ (entry inner e).length →
      ntohs (entry inner e) (maclen e.d1 + iplen e.d1 + dgramCksumOff) = sum ph →
      Verifies (ph ++ f.drop (maclen e.d1 + iplen e.d1)) ∧
        (ntohs f (maclen e.d1 + iplen e.d1 + dgramCksumOff) ≠ 0 ↔
          ¬Verifies ((entry inner e).drop (maclen e.d1 + iplen e.d1)))) := by
  obtain ⟨c, hc, hle, ⟨hno, -⟩ | ⟨-, sent', hsend, hf'⟩⟩ := sendUnit_frame (unit_sent hu h) hf
  · rw [htso] at hno
    cases hno
  obtain ⟨hlen, hentry, htake⟩ := plain_copied hs hu htso hc hle
  have hb := copyLoop_length hc (pktbuf_length hs)
  have hmtu := mtu_eq
  -- one argument for both protocols
  have hfield : ∀ field, field % 2 = 0 → maclen e.d1 + iplen e.d1 + field + 2 ≤ (entry inner e).length →
      ntohs (entry inner e) (maclen e.d1 + iplen e.d1 + field) = sum ph →
      f = (xsumAt field c.tso.pktbuf (maclen e.d1 + iplen e.d1) (c.tso.tsoLen - (maclen e.d1 + iplen e.d1))).take
        c.tso.tsoLen →
      Verifies (ph ++ f.drop (maclen e.d1 + iplen e.d1)) ∧
        (ntohs f (maclen e.d1 + iplen e.d1 + field) ≠ 0 ↔ ¬Verifies ((entry inner e).drop (maclen e.d1 + iplen e.d1))) := by
    intro field heven hin hsum hframe
    rw [← hlen] at htake hentry
    have hseg : slice c.tso.pktbuf (maclen e.d1 + iplen e.d1) (c.tso.tsoLen - (maclen e.d1 + iplen e.d1)) =
        (entry inner e).drop (maclen e.d1 + iplen e.d1) := by
      rw [← htake, List.drop_take]
      rfl
    have hold : ntohs c.tso.pktbuf (maclen e.d1 + iplen e.d1 + field) = sum ph := by
      rw [← hsum, ← htake, ntohs, ntohs, slice_take (by omega)]
    obtain ⟨h1, h2⟩ := @xsumAt_verifies c.tso.pktbuf _ _ (maclen e.d1 + iplen e.d1)
      (c.tso.tsoLen - (maclen e.d1 + iplen e.d1)) hph heven (by omega) (by omega) (by omega) hold
    rw [hseg] at h2
    generalize xsumAt field c.tso.pktbuf (maclen e.d1 + iplen e.d1) (c.tso.tsoLen - (maclen e.d1 + iplen e.d1)) = b
      at h1 h2 hframe
    have hdrop : f.drop (maclen e.d1 + iplen e.d1) =
        slice b (maclen e.d1 + iplen e.d1) (c.tso.tsoLen - (maclen e.d1 + iplen e.d1)) := by
      rw [hframe, List.drop_take]
      rfl
    have hntohs : ntohs f (maclen e.d1 + iplen e.d1 + field) = ntohs b (maclen e.d1 + iplen e.d1 + field) := by
      rw [hframe, ntohs, ntohs, slice_take (by omega)]
    rw [hdrop, hntohs]
    exact ⟨h1, h2⟩
  have hnot : l4tUdp ≠ l4tTcp := by decide
  unfold sendPlain at hsend
  dsimp only at hsend
  split at hsend
  · cases hsend
  · cases hsend
    have hframe := Output.ethSend.inj (List.mem_singleton.mp hf')
    change f = (if cmdL4t e.d1 = l4tTcp then xsumTcp c.tso.pktbuf (maclen e.d1 + iplen e.d1) _ else
      if cmdL4t e.d1 = l4tUdp then xsumUdp c.tso.pktbuf (maclen e.d1 + iplen e.d1) _ else c.tso.pktbuf).take _ at hframe
    refine ⟨fun htcp hin hsum => ?_, fun hudp hin hsum => ?_⟩
    · rw [if_pos htcp] at hframe
      exact (hfield _ rfl hin hsum hframe).1
    · rw [if_neg (by rw [hudp]; exact hnot), if_pos hudp] at hframe
      exact hfield _ rfl hin hsum hframe

end

/-- Descriptors from 0x1000 on, and a frame at 0x2000. -/
def frameEnv (descs : List (ℕ × ℕ)) (frame : List UInt8) : Env TxEnv where
  mem a := if a < 0x2000 then txMem descs a else frame.getD (a - 0x2000) 0
  mapped _ _ := true
  client := ⟨fun _ => false⟩

/-- What a call of `trigger_tx_packet` finds, and the last thing that it sends. -/
def found (c : Config TxClient Unit) : ℕ × List Segment × Option (Option (Option Output)) :=
  (c.client.tso.tsoOff, ready c,
    (triggerTxPacket (fun _ => false) c.client.tso (ready c)).toOption.map (Option.map fun sent => sent.calls.getLast?))

theorem observe_found {descs : List (ℕ × ℕ)} {frame f : List UInt8} {n : ℕ} {segs : List Segment}
    (hd : descs.length < 0x100000000)
    (h : (tailWrites LanTx.subclass (frameEnv descs frame) n [descs.length] freshTx).toOption.map found =
      some (0, segs, some (some (some (.ethSend f))))) :
    ∃ c sent, (txRing 0x1000 4).Reachable c ∧ (view c).tso.tsoOff = 0 ∧ (view c).ready = segs ∧
      triggerTxPacket (fun _ => false) (view c).tso (view c).ready = .ok (some sent) ∧ .ethSend f ∈ sent.calls := by
  obtain ⟨c, hc, hobs⟩ := Reachable.observe (M := txRing 0x1000 4) (fun _ _ h => h) (.start freshTx_start)
    (by simpa using hd) h
  simp only [found, Prod.mk.injEq] at hobs
  obtain ⟨hoff, hready, hcalls⟩ := hobs
  obtain ⟨r, hr, hmap⟩ := ok_of_map hcalls
  obtain ⟨sent, rfl, hsent⟩ := Option.map_eq_some_iff.mp hmap
  exact ⟨c, sent, hc, hoff, hready, hr, List.mem_of_getLast? hsent⟩

def tcpFrame : List UInt8 :=
  [0, 0, 0, 0, 0, 0, 0, 0, 0, 0, 0, 0, 0, 0, 69, 0, 0, 0, 0, 0, 0, 0, 64, 6, 0, 0, 10, 0, 0, 1, 10, 0, 0, 2, 18,
    52, 0, 80, 0, 0, 0, 0, 0, 0, 0, 0, 80, 16, 0, 0, 0, 0, 0, 0, 171]

/-- A software TSO segment has a valid IPv4 checksum, and a valid TCP checksum exactly if protocol and header length are
those of TCP without IP options; a plain frame gets a valid checksum, which in UDP is zero exactly if the segment
sums to `0xffff` already. -/
theorem checksum_offload (s : Sender) (hs : sender.Reachable s) (accept : ℕ → Bool) (sent : Sent)
    (h : triggerTxPacket accept s.tso s.ready = .ok (some sent)) (x : Segment) (inner : List Segment) (e : Segment)
    (rest : List Segment) (hu : UnitAt s.ready x inner e rest) (f : List UInt8) (hf : .ethSend f ∈ sent.calls) :
    ((lead x).tso = true → 20 ≤ iplen e.d1 → iplen e.d1 ≤ 60 → 20 ≤ l4len e.d1 →
      maclen e.d1 + iplen e.d1 + l4len e.d1 ≤ bufSzSum (inner ++ [e]) →
      (∃ pay ≤ (lead x).mss, f.length = maclen e.d1 + iplen e.d1 + l4len e.d1 + pay) ∧
        Verifies (slice f (maclen e.d1) (iplen e.d1)) ∧
        (Verifies (pseudoHeader f (maclen e.d1) 6 (f.length - (maclen e.d1 + iplen e.d1)) ++
          f.drop (maclen e.d1 + iplen e.d1)) ↔ protocol s inner e + iplen e.d1 = 26)) ∧
    ((lead x).tso = false → ∀ ph : List UInt8, ph.length % 2 = 0 →
      (cmdL4t e.d1 = l4tTcp → maclen e.d1 + iplen e.d1 + tcpCksumOff + 2 ≤ (entry inner e).length →
        ntohs (entry inner e) (maclen e.d1 + iplen e.d1 + tcpCksumOff) = sum ph →
        Verifies (ph ++ f.drop (maclen e.d1 + iplen e.d1))) ∧
      (cmdL4t e.d1 = l4tUdp → maclen e.d1 + iplen e.d1 + dgramCksumOff + 2 ≤ (entry inner e).length →
        ntohs (entry inner e) (maclen e.d1 + iplen e.d1 + dgramCksumOff) = sum ph →
        Verifies (ph ++ f.drop (maclen e.d1 + iplen e.d1)) ∧
          (ntohs f (maclen e.d1 + iplen e.d1 + dgramCksumOff) ≠ 0 ↔
            ¬Verifies ((entry inner e).drop (maclen e.d1 + iplen e.d1))))) :=
  ⟨fun htso hip hip' hl4 hhdr => tso_verifies hs hu htso hip hip' hl4 hhdr h hf,
    fun htso _ hph => plain_verifies hs hu htso h hf hph⟩

def tcpSent : List UInt8 :=
  [0, 0, 0, 0, 0, 0, 0, 0, 0, 0, 0, 0, 0, 0, 69, 0, 0, 41, 0, 0, 0, 0, 64, 6, 102, 205, 10, 0, 0, 1, 10, 0, 0, 2, 18,
    52, 0, 80, 0, 0, 0, 0, 0, 0, 0, 0, 80, 16, 0, 0, 222, 76, 0, 0, 171]

/-- A TSO segment with an odd payload byte. -/
theorem checksum_offload_tcp : ∃ c, (txRing 0x1000 4).Reachable c ∧
    (view c).ready = [⟨0, 0xFA0000000000011, []⟩, ⟨0x2000, 0xDD42870010, tcpFrame⟩] ∧
    Verifies (slice tcpSent 14 20) ∧ Verifies (pseudoHeader tcpSent 14 6 21 ++ tcpSent.drop 34) := by
  obtain ⟨c, sent, hc, hoff, hready, hp, hf⟩ := @observe_found [(0, 0xFA0000000000011), (0x2000, 0xDD42870010)]
    tcpFrame tcpSent 9 [⟨0, 0xFA0000000000011, []⟩, ⟨0x2000, 0xDD42870010, tcpFrame⟩] (by decide) (by decide +kernel)
  have hu := unitAt_pair (x := ⟨0, 0xFA0000000000011, []⟩) (e := ⟨0x2000, 0xDD42870010, tcpFrame⟩) (by decide) (by decide)
  rw [← hready] at hu
  obtain ⟨-, hip, htcp⟩ := (checksum_offload (view c) (view_reachable hc).1 _ sent hp _ _ _ _ hu tcpSent hf).1
    (by decide) (by decide) (by decide) (by decide) (by decide)
  have hproto : protocol (view c) [] ⟨0x2000, 0xDD42870010, tcpFrame⟩ = 6 := by
    rw [protocol, if_pos hoff]
    decide
  exact ⟨c, hc, hready, hip, htcp.mpr (by rw [hproto]; decide)⟩

/-- The same segment behind an IPv4 header with four bytes of options. -/
def optionFrame : List UInt8 :=
  [0, 0, 0, 0, 0, 0, 0, 0, 0, 0, 0, 0, 0, 0, 70, 0, 0, 0, 0, 0, 0, 0, 64, 6, 0, 0, 10, 0, 0, 1, 10, 0, 0, 2, 1, 1, 1, 1,
    18, 52, 0, 80, 0, 0, 0, 0, 0, 0, 0, 0, 80, 16, 0, 0, 0, 0, 0, 0, 171]

def optionSent : List UInt8 :=
  [0, 0, 0, 0, 0, 0, 0, 0, 0, 0, 0, 0, 0, 0, 70, 0, 0, 45, 0, 0, 0, 0, 64, 6, 99, 199, 10, 0, 0, 1, 10, 0, 0, 2, 1, 1, 1,
    1, 18, 52, 0, 80, 0, 0, 0, 0, 0, 0, 0, 0, 80, 16, 0, 0, 222, 72, 0, 0, 171]

/-- A UDP datagram of two bytes, with the sum of its pseudo-header in the checksum field. -/
def udpFrame : List UInt8 :=
  [0, 0, 0, 0, 0, 0, 0, 0, 0, 0, 0, 0, 0, 0, 69, 0, 0, 30, 0, 0, 0, 0, 64, 17, 0, 0, 10, 0, 0, 1, 10, 0, 0, 2, 16, 0, 32,
    0, 0, 10, 20, 30, 187, 215]

def udpSent : List UInt8 :=
  [0, 0, 0, 0, 0, 0, 0, 0, 0, 0, 0, 0, 0, 0, 69, 0, 0, 30, 0, 0, 0, 0, 64, 17, 0, 0, 10, 0, 0, 1, 10, 0, 0, 2, 16, 0, 32,
    0, 0, 10, 0, 0, 187, 215]

theorem checksum_offload_wrong :
    (∃ c sent, (txRing 0x1000 4).Reachable c ∧
      (view c).ready = [⟨0, 0xFA0000000000011, []⟩, ⟨0x2000, 0xED43070010, optionFrame⟩] ∧
      triggerTxPacket (fun _ => false) (view c).tso (view c).ready = .ok (some sent) ∧ .ethSend optionSent ∈ sent.calls ∧
      ¬Verifies (pseudoHeader optionSent 14 6 21 ++ optionSent.drop 38)) ∧
    ∃ c sent, (txRing 0x1000 4).Reachable c ∧ (view c).ready = [⟨0x2000, 0xB082873010, udpFrame⟩] ∧
      ntohs udpFrame 40 = sum (pseudoHeader udpFrame 14 17 10) ∧
      triggerTxPacket (fun _ => false) (view c).tso (view c).ready = .ok (some sent) ∧ .ethSend udpSent ∈ sent.calls ∧
      ntohs udpSent 40 = 0 := by
  constructor
  · obtain ⟨c, sent, hc, -, hready, hp, hf⟩ := @observe_found [(0, 0xFA0000000000011), (0x2000, 0xED43070010)]
      optionFrame optionSent 9 [⟨0, 0xFA0000000000011, []⟩, ⟨0x2000, 0xED43070010, optionFrame⟩] (by decide)
      (by decide +kernel)
    exact ⟨c, sent, hc, hready, hp, hf, by decide⟩
  · obtain ⟨c, sent, hc, -, hready, hp, hf⟩ := @observe_found [(0x2000, 0xB082873010)] udpFrame udpSent 6
      [⟨0x2000, 0xB082873010, udpFrame⟩] (by decide) (by decide +kernel)
    exact ⟨c, sent, hc, hready, by decide, hp, hf, by decide⟩

end Vmux.ChecksumOffload
