import Vmux.TxPlain

namespace Vmux.TxSegmentation

open Bytes Checksums DescriptorQueue LanTx TxUnits TxDelivery TxPlain

def l2tag1 (d1 : ℕ) : ℕ := d1 / 0x1000000000000 % 0x10000

section

variable (u : TxUnit)

def hdrlen : ℕ := maclen u.last.d1 + iplen u.last.d1 + l4len u.last.d1

def mss : ℕ := u.lead.mss

def totalLen : ℕ := bufSzSum u.data

def unitBytes : List UInt8 := fetched u.data

/-- How many payload bytes segment `i` of the unit carries. -/
def payLen (i : ℕ) : ℕ := min (mss u) (totalLen u - (hdrlen u + i * mss u))

def frameCount : ℕ := max 1 ((totalLen u - hdrlen u + mss u - 1) / mss u)

def ipOff : ℕ := maclen u.last.d1

def tcpOff : ℕ := maclen u.last.d1 + iplen u.last.d1

/-- An IPv4/TCP unit with TSO: the headers its last descriptor announces are there. -/
structure TcpUnit : Prop where
  tso : u.lead.tso = true
  tag : ∀ s ∈ u.data, l2tag1 s.d1 = 0
  ipv4 : 20 ≤ iplen u.last.d1 ∧ iplen u.last.d1 < 0x100
  tcp : 20 ≤ l4len u.last.d1
  header : hdrlen u ≤ totalLen u

/-- No segment of the unit is longer than `pktbuf`. -/
structure Fitting : Prop extends TcpUnit u where
  fits : min (hdrlen u + mss u) (totalLen u) ≤ mtu

/-- An IPv4/TCP unit with TSO. -/
structure TcpTso : Prop where
  tso : u.lead.tso = true
  mss_pos : 1 ≤ mss u
  size : ∀ s ∈ u.data, txBufSz s.d1 ≠ 0
  tag : ∀ s ∈ u.data, l2tag1 s.d1 = 0
  ipv4 : 20 ≤ iplen u.last.d1 ∧ iplen u.last.d1 < 0x100
  tcp : 20 ≤ l4len u.last.d1
  header : hdrlen u ≤ totalLen u
  fits : hdrlen u + mss u ≤ mtu

/-- The header fields that segmentation rewrites. -/
def headerFields : List (ℕ × ℕ) :=
  [(ipOff u + totalLengthOff, 2), (ipOff u + packetIdOff, 2), (ipOff u + hdrChecksumOff, 2),
    (tcpOff u + sentSeqOff, 4), (tcpOff u + tcpCksumOff, 2)]

def Kept (k : ℕ) : Prop := k < hdrlen u ∧ ∀ r ∈ headerFields u, k < r.1 ∨ r.1 + r.2 ≤ k

/-- Segment `i` of the unit as it goes out. -/
structure Frame (i : ℕ) (f : List UInt8) : Prop where
  length : f.length = hdrlen u + payLen u i
  payload : f.drop (hdrlen u) = slice (unitBytes u) (hdrlen u + i * mss u) (payLen u i)
  header : ∀ k, Kept u k → f[k]? = (unitBytes u)[k]?
  totalLength : ntohs f (ipOff u + totalLengthOff) = iplen u.last.d1 + l4len u.last.d1 + payLen u i
  seq : ntohl f (tcpOff u + sentSeqOff) = (ntohl (unitBytes u) (tcpOff u + sentSeqOff) + i * mss u) % 0x100000000
  id : ntohs f (ipOff u + packetIdOff) = (ntohs (unitBytes u) (ipOff u + packetIdOff) + i) % 0x10000

/-- What `pktbuf` holds of the header before segment `i` is sent. -/
structure Header (i : ℕ) (b : List UInt8) : Prop where
  length : b.length = mtu
  kept : ∀ k, Kept u k → b[k]? = (unitBytes u)[k]?
  seq : ntohl b (tcpOff u + sentSeqOff) = (ntohl (unitBytes u) (tcpOff u + sentSeqOff) + i * mss u) % 0x100000000
  id : ntohs b (ipOff u + packetIdOff) = (ntohs (unitBytes u) (ipOff u + packetIdOff) + i) % 0x10000

end

section

variable {u : TxUnit}

theorem TcpTso.fitting (hu : TcpTso u) : Fitting u where
  tso := hu.tso
  tag := hu.tag
  ipv4 := hu.ipv4
  tcp := hu.tcp
  header := hu.header
  fits := (min_le_left _ _).trans hu.fits

theorem TcpUnit.tagLow (hu : TcpUnit u) : ∀ s ∈ u.data, tagLow s.d1 = 0 := by
  intro s hs
  have := hu.tag s hs
  unfold l2tag1 at this
  unfold TxPlain.tagLow
  omega

theorem TcpUnit.pktLenSum (hu : TcpUnit u) : pktLenSum u.data = totalLen u := pktLenSum_eq hu.tagLow

theorem TcpUnit.unitBytes_length (hu : TcpUnit u) : (unitBytes u).length = totalLen u := by
  rw [unitBytes, fetched_length u.full_data, hu.pktLenSum]

theorem TcpUnit.dSkip (hu : TcpUnit u) : u.lead.dSkip = 1 := by
  have := hu.tso
  unfold TxUnit.lead at this ⊢
  cases hc : u.ctx with
  | some c => rfl
  | none =>
    rw [hc] at this
    cases this

theorem Fitting.layout (hu : Fitting u) : tcpOff u = ipOff u + iplen u.last.d1 ∧ tcpOff u + 20 ≤ hdrlen u ∧
    hdrlen u ≤ mtu := by
  have h1 := hu.tcp
  have h2 := hu.fits
  have h3 := hu.header
  unfold tcpOff ipOff hdrlen at *
  omega

theorem Fitting.fields_congr (hu : Fitting u) {b b' : List UInt8} (h : ∀ k < hdrlen u, b'[k]? = b[k]?) :
    ntohl b' (tcpOff u + sentSeqOff) = ntohl b (tcpOff u + sentSeqOff) ∧
      ntohs b' (ipOff u + packetIdOff) = ntohs b (ipOff u + packetIdOff) := by
  have hl := hu.layout
  have hip := hu.ipv4.1
  refine ⟨congrArg beNat (slice_congr fun k _ hk => h k ?_), congrArg beNat (slice_congr fun k _ hk => h k ?_)⟩
  · unfold sentSeqOff at hk
    omega
  · unfold packetIdOff at hk
    omega

theorem Header.congr (hu : Fitting u) {i : ℕ} {b b' : List UInt8} (h : Header u i b) (hlen : b'.length = mtu)
    (hsame : ∀ k < hdrlen u, b'[k]? = b[k]?) : Header u i b' := by
  obtain ⟨hseq, hid⟩ := hu.fields_congr hsame
  exact ⟨hlen, fun k hk => (hsame k hk.1).trans (h.kept k hk), hseq.trans h.seq, hid.trans h.id⟩

theorem Header.start (hu : Fitting u) {b : List UInt8} (hlen : b.length = mtu)
    (hsame : ∀ k < hdrlen u, b[k]? = (unitBytes u)[k]?) : Header u 0 b := by
  obtain ⟨hseq, hid⟩ := hu.fields_congr hsame
  have hseq' : ntohl (unitBytes u) (tcpOff u + sentSeqOff) < 0x100000000 := by
    have := beNat_slice_lt (unitBytes u) (tcpOff u + sentSeqOff) 4
    norm_num at this
    exact this
  have hid' : ntohs (unitBytes u) (ipOff u + packetIdOff) < 0x10000 := by
    have := beNat_slice_lt (unitBytes u) (ipOff u + packetIdOff) 2
    norm_num at this
    exact this
  refine ⟨hlen, fun k hk => hsame k hk.1, ?_, ?_⟩
  · rw [hseq, Nat.zero_mul, Nat.add_zero, Nat.mod_eq_of_lt hseq']
  · rw [hid, Nat.add_zero, Nat.mod_eq_of_lt hid']

theorem Fitting.xsum_same (hu : Fitting u) {b : List UInt8} (hb : b.length = mtu) (paylen : ℕ) :
    SameOutside (tsoFields (ipOff u) (iplen u.last.d1)) b
      (xsumTcpipTso b (ipOff u) (iplen u.last.d1) (l4len u.last.d1) paylen) := by
  obtain ⟨h1, h2, h3⟩ := hu.layout
  exact xsumTcpipTso_same _ _ (by omega)

theorem Kept.tsoFields {k : ℕ} (hk : Kept u k) :
    ∀ r ∈ tsoFields (ipOff u) (iplen u.last.d1), k < r.1 ∨ r.1 + r.2 ≤ k := by
  intro r hr
  apply hk.2
  simp only [Checksums.tsoFields, List.mem_cons, List.not_mem_nil, or_false] at hr
  rcases hr with rfl | rfl | rfl <;> simp [headerFields, tcpOff, ipOff]

theorem Kept.postFields {k : ℕ} (hk : Kept u k) :
    ∀ r ∈ postFields (ipOff u) (iplen u.last.d1), k < r.1 ∨ r.1 + r.2 ≤ k := by
  intro r hr
  apply hk.2
  simp only [Checksums.postFields, List.mem_cons, List.not_mem_nil, or_false] at hr
  rcases hr with rfl | rfl <;> simp [headerFields, tcpOff, ipOff]

theorem Header.xsum (hu : Fitting u) {i : ℕ} {b : List UInt8} (h : Header u i b) (paylen : ℕ) :
    Header u i (xsumTcpipTso b (ipOff u) (iplen u.last.d1) (l4len u.last.d1) paylen) := by
  obtain ⟨htcp, -, -⟩ := hu.layout
  have hip := hu.ipv4.1
  have hs := hu.xsum_same h.length paylen
  refine ⟨hs.length.trans h.length, fun k hk => (hs.get k hk.tsoFields).trans (h.kept k hk), ?_, ?_⟩
  · rw [← h.seq, ntohl, ntohl, hs.slice]
    simp [Checksums.tsoFields, totalLengthOff, hdrChecksumOff, tcpCksumOff, sentSeqOff]
    omega
  · rw [← h.id, ntohs, ntohs, hs.slice]
    simp [Checksums.tsoFields, totalLengthOff, hdrChecksumOff, tcpCksumOff, packetIdOff]
    omega

theorem Header.postupdate (hu : Fitting u) {i : ℕ} {b : List UInt8} (h : Header u i b) :
    Header u (i + 1) (tsoPostupdateHeader b (ipOff u) (iplen u.last.d1) (mss u)) := by
  obtain ⟨htcp, h2, h3⟩ := hu.layout
  have hfit : ipOff u + iplen u.last.d1 + 20 ≤ b.length := by
    rw [h.length]
    omega
  have hs := tsoPostupdateHeader_same (mss u) hfit
  refine ⟨hs.length.trans h.length, fun k hk => (hs.get k hk.postFields).trans (h.kept k hk), ?_, ?_⟩
  · rw [htcp, tsoPostupdateHeader_seq _ hu.ipv4.1 hfit, ← htcp, h.seq, Nat.add_mod, Nat.mod_mod, ← Nat.add_mod,
      Nat.add_assoc, Nat.succ_mul]
  · rw [tsoPostupdateHeader_id _ hu.ipv4.1 hfit, h.id, Nat.add_mod, Nat.mod_mod, ← Nat.add_mod, Nat.add_assoc]

theorem mtu_small : mtu < 0x10000 := by
  unfold mtu
  decide

theorem Fitting.payLen_le (hu : Fitting u) (i : ℕ) : hdrlen u + payLen u i ≤ mtu := by
  have := hu.fits
  have := hu.header
  unfold payLen
  omega

theorem Header.frame (hu : Fitting u) {i : ℕ} {b : List UInt8} (h : Header u i b)
    (hpay : slice b (hdrlen u) (payLen u i) = slice (unitBytes u) (hdrlen u + i * mss u) (payLen u i)) :
    Frame u i ((xsumTcpipTso b (ipOff u) (iplen u.last.d1) (l4len u.last.d1) (payLen u i)).take
      (hdrlen u + payLen u i)) := by
  obtain ⟨htcp, hl, -⟩ := hu.layout
  have hip := hu.ipv4.1
  have hle := hu.payLen_le i
  have hsmall := mtu_small
  have hs := hu.xsum_same h.length (payLen u i)
  have hx := h.xsum hu (payLen u i)
  refine ⟨?_, ?_, ?_, ?_, ?_, ?_⟩
  · rw [List.length_take, hx.length]
    omega
  · rw [← hpay, List.drop_take, Nat.add_sub_cancel_left]
    refine hs.slice _ _ ?_
    simp [Checksums.tsoFields, totalLengthOff, hdrChecksumOff, tcpCksumOff]
    omega
  · intro k hk
    rw [List.getElem?_take_of_lt (by have := hk.1; omega)]
    exact hx.kept k hk
  · have hfit : ipOff u + iplen u.last.d1 + 20 ≤ b.length := by
      rw [h.length]
      omega
    rw [ntohs, slice_take (by unfold totalLengthOff; omega), ← ntohs, xsumTcpipTso_totalLength _ _ hip hfit,
      Nat.mod_eq_of_lt]
    have : hdrlen u = maclen u.last.d1 + iplen u.last.d1 + l4len u.last.d1 := rfl
    omega
  · rw [ntohl, slice_take (by unfold sentSeqOff; omega), ← ntohl, hx.seq]
  · rw [ntohs, slice_take (by unfold packetIdOff; omega), ← ntohs, hx.id]

theorem sendTso_eq (hu : Fitting u) {i : ℕ} {b : List UInt8} (h : Header u i b) (dcnt off tsoOff : ℕ)
    (hpay : slice b (hdrlen u) (payLen u i) = slice (unitBytes u) (hdrlen u + i * mss u) (payLen u i)) :
    ∃ f b', Frame u i f ∧ (payLen u i = mss u → Header u (i + 1) b') ∧
      sendTso (mss u) u.scan ⟨dcnt, off, ⟨tsoOff, hdrlen u + payLen u i, b⟩⟩ =
        if tsoOff < totalLen u then .ok ⟨⟨tsoOff, hdrlen u, b'⟩, 0, [.ethSend f]⟩
        else .ok ⟨⟨0, 0, b'⟩, dcnt, [.ethSend f]⟩ := by
  have hle := hu.payLen_le i
  have hsmall := mtu_small
  have hmss : payLen u i ≤ mss u := min_le_left _ _
  have hip : u.scan.iplen % 0x100 = iplen u.last.d1 := Nat.mod_eq_of_lt hu.ipv4.2
  have hlen : u.scan.maclen + u.scan.iplen + u.scan.l4len = hdrlen u := rfl
  have hsub : sub32 (hdrlen u + payLen u i) (hdrlen u) = payLen u i := by
    unfold sub32
    omega
  refine ⟨_, tsoPostupdateHeader (xsumTcpipTso b (ipOff u) (iplen u.last.d1) (l4len u.last.d1) (payLen u i))
    (ipOff u) (iplen u.last.d1) (payLen u i), h.frame hu hpay, ?_, ?_⟩
  · intro hfull
    rw [hfull]
    exact (h.xsum hu _).postupdate hu
  · have hfit : ¬mtu < u.scan.maclen + u.scan.iplen % 0x100 + u.scan.l4len + payLen u i := by
      rw [hip]
      have : u.scan.maclen + iplen u.last.d1 + u.scan.l4len = hdrlen u := rfl
      omega
    unfold sendTso
    dsimp only
    rw [hlen, hsub, min_eq_left hmss, if_neg hfit, hip]
    rfl

/-- Where segment `i` ends in the unit. -/
def segEnd (u : TxUnit) (i : ℕ) : ℕ := hdrlen u + i * mss u + payLen u i

theorem segEnd_eq {i : ℕ} (hi : hdrlen u + i * mss u ≤ totalLen u) :
    segEnd u i = min (hdrlen u + i * mss u + mss u) (totalLen u) := by
  unfold segEnd payLen
  omega

/-- How many descriptors the copy loop has passed when all bytes of the unit are out. -/
def passed (u : TxUnit) : ℕ := u.lead.dSkip + copyCnt u.data (totalLen u)

theorem passed_all (hu : TcpUnit u) (hlast : txBufSz u.last.d1 ≠ 0) : passed u = u.segs.length := by
  have hinner : pktLenSum u.inner = bufSzSum u.inner :=
    pktLenSum_eq fun s hs => hu.tagLow s (by simp [TxUnit.data, hs])
  have hsum := bufSzSum_data u
  have : copyCnt u.data (totalLen u) = u.inner.length + 1 := by
    rw [TxUnit.data, copyCnt_last, hinner]
    unfold totalLen
    omega
  rw [passed, this, u.segs_length]
  simp [TxUnit.data]

def tries (accept : ℕ → Bool) (u : TxUnit) : List Output × Bool := hardwareTso accept u.scan (mss u) u.data 1

/-- One call of `trigger_tx_packet` on the software path: `t` is what the call before left. -/
theorem packet_segment (accept : ℕ → Bool) (hu : Fitting u) {t : TsoState} {i : ℕ}
    (hi : hdrlen u + i * mss u ≤ totalLen u) (hsw : ¬(t.tsoLen = 0 ∧ t.tsoOff = 0 ∧ (tries accept u).2 = true))
    (hlimit : dataLimit u.lead u.scan t = segEnd u i) (hoff : t.tsoOff ≤ segEnd u i)
    (hlen : t.tsoLen + (segEnd u i - t.tsoOff) = hdrlen u + payLen u i) (hbuf : t.pktbuf.length = mtu)
    (hhead : Header u i (overwrite t.pktbuf t.tsoLen (slice (unitBytes u) t.tsoOff (segEnd u i - t.tsoOff))))
    (hpay : slice (overwrite t.pktbuf t.tsoLen (slice (unitBytes u) t.tsoOff (segEnd u i - t.tsoOff))) (hdrlen u)
      (payLen u i) = slice (unitBytes u) (hdrlen u + i * mss u) (payLen u i)) :
    ∃ f b', Frame u i f ∧ (payLen u i = mss u → Header u (i + 1) b') ∧
      triggerTxPacket accept t u.segs = .ok (some
        (if segEnd u i < totalLen u then ⟨⟨segEnd u i, hdrlen u, b'⟩, 0,
            (if t.tsoLen = 0 ∧ t.tsoOff = 0 then (tries accept u).1 else []) ++ [.ethSend f]⟩
          else ⟨⟨0, 0, b'⟩, passed u,
            (if t.tsoLen = 0 ∧ t.tsoOff = 0 then (tries accept u).1 else []) ++ [.ethSend f]⟩)) := by
  have hend : segEnd u i ≤ totalLen u := by
    rw [segEnd_eq hi]
    exact min_le_right _ _
  have hle := hu.payLen_le i
  obtain ⟨off', hcopy⟩ := copyLoop_eq (segEnd u i) u.full_data u.lead.dSkip 0 t (Nat.zero_le _) hoff
    (by rw [hu.pktLenSum]; omega) (by omega) (by omega)
  rw [Nat.sub_zero, Nat.sub_zero, hlen, ← unitBytes] at hcopy
  obtain ⟨f, b', hf, hb', hsend⟩ := sendTso_eq hu hhead (u.lead.dSkip + copyCnt u.data (segEnd u i)) off'
    (segEnd u i) hpay
  refine ⟨f, b', hf, hb', ?_⟩
  have hhw : hardwareTso accept u.scan u.lead.mss ((u.segs.take u.scan.dcnt).drop u.lead.dSkip) u.lead.dSkip =
      tries accept u := by
    rw [u.take_segs, u.drop_segs, hu.dSkip]
    rfl
  rw [u.packet_eq, sendUnit, if_neg (by simp [hu.tso])]
  dsimp only
  rw [hhw, if_neg (by rintro ⟨-, h⟩; exact hsw h), hlimit, u.drop_segs, hcopy]
  change Except.map some (if _ then _ else _) = _
  rw [if_neg (by dsimp only; omega), if_pos hu.tso]
  change Except.map some (sendTso (mss u) _ _ >>= _) = _
  rw [hsend]
  by_cases hmore : segEnd u i < totalLen u
  · rw [if_pos hmore, if_pos hmore]
    rfl
  · rw [if_neg hmore, if_neg hmore, show segEnd u i = totalLen u by omega]
    rfl

theorem dataLimit_later (hu : Fitting u) {i : ℕ} {l : ℕ} {b : List UInt8} (hi : hdrlen u + i * mss u ≤ totalLen u) :
    dataLimit u.lead u.scan ⟨hdrlen u + i * mss u, l, b⟩ = segEnd u i := by
  obtain ⟨-, hl, -⟩ := hu.layout
  rw [dataLimit, if_pos hu.tso, if_neg (by dsimp only; omega), segEnd_eq hi]
  rfl

theorem dataLimit_first (hu : Fitting u) {l : ℕ} {b : List UInt8} :
    dataLimit u.lead u.scan ⟨0, l, b⟩ = segEnd u 0 := by
  have hh := hu.header
  rw [dataLimit, if_pos hu.tso, if_pos rfl, segEnd_eq (by omega), Nat.zero_mul, Nat.add_zero]
  rfl

theorem packet_later (accept : ℕ → Bool) (hu : Fitting u) {i : ℕ} {b : List UInt8}
    (hi : hdrlen u + i * mss u < totalLen u) (hb : Header u i b) :
    ∃ f b', Frame u i f ∧ (payLen u i = mss u → Header u (i + 1) b') ∧
      triggerTxPacket accept ⟨hdrlen u + i * mss u, hdrlen u, b⟩ u.segs = .ok (some
        (if segEnd u i < totalLen u then ⟨⟨segEnd u i, hdrlen u, b'⟩, 0, [.ethSend f]⟩
          else ⟨⟨0, 0, b'⟩, passed u, [.ethSend f]⟩)) := by
  obtain ⟨-, hl, -⟩ := hu.layout
  have hle := hu.payLen_le i
  have hpaylen : (slice (unitBytes u) (hdrlen u + i * mss u) (payLen u i)).length = payLen u i := by
    apply slice_length
    rw [hu.unitBytes_length]
    unfold payLen
    omega
  have hin : hdrlen u + (slice (unitBytes u) (hdrlen u + i * mss u) (payLen u i)).length ≤ b.length := by
    rw [hpaylen, hb.length]
    exact hle
  have hdiff : segEnd u i - (hdrlen u + i * mss u) = payLen u i := Nat.add_sub_cancel_left _ _
  have hhead : Header u i (overwrite b (hdrlen u) (slice (unitBytes u) (hdrlen u + i * mss u) (payLen u i))) :=
    hb.congr hu ((overwrite_length hin).trans hb.length) fun k hk => getElem?_overwrite hin (.inl hk)
  have hpay := @slice_overwrite b (hdrlen u) (slice (unitBytes u) (hdrlen u + i * mss u) (payLen u i)) (by omega)
  rw [hpaylen] at hpay
  obtain ⟨f, b', hf, hb', hcall⟩ := packet_segment accept (t := ⟨hdrlen u + i * mss u, hdrlen u, b⟩) hu hi.le
    (fun h => by have := h.1; dsimp only at this; omega) (dataLimit_later hu hi.le)
    (by unfold segEnd; dsimp only; omega) (by rw [hdiff]) hb.length (by rw [hdiff]; exact hhead)
    (by rw [hdiff]; exact hpay)
  dsimp only at hcall
  rw [if_neg (c := hdrlen u = 0 ∧ hdrlen u + i * mss u = 0) (by omega), List.nil_append] at hcall
  exact ⟨f, b', hf, hb', hcall⟩

theorem packet_first (accept : ℕ → Bool) (hu : Fitting u) {b : List UInt8} (hb : b.length = mtu)
    (hsw : (tries accept u).2 = false) :
    ∃ f b', Frame u 0 f ∧ (payLen u 0 = mss u → Header u 1 b') ∧
      triggerTxPacket accept ⟨0, 0, b⟩ u.segs = .ok (some
        (if segEnd u 0 < totalLen u then ⟨⟨segEnd u 0, hdrlen u, b'⟩, 0, (tries accept u).1 ++ [.ethSend f]⟩
          else ⟨⟨0, 0, b'⟩, passed u, (tries accept u).1 ++ [.ethSend f]⟩)) := by
  have hh := hu.header
  have hle := hu.payLen_le 0
  have hend : segEnd u 0 = hdrlen u + payLen u 0 := by rw [segEnd, Nat.zero_mul, Nat.add_zero]
  have hlen : (slice (unitBytes u) 0 (segEnd u 0)).length = segEnd u 0 := by
    apply slice_length
    rw [hu.unitBytes_length, Nat.zero_add, segEnd_eq (by omega)]
    exact min_le_right _ _
  have htake : (overwrite b 0 (slice (unitBytes u) 0 (segEnd u 0))).take (segEnd u 0) =
      (unitBytes u).take (segEnd u 0) := by
    have := @take_overwrite b 0 (slice (unitBytes u) 0 (segEnd u 0)) (Nat.zero_le _)
    rw [hlen, Nat.zero_add, List.take_zero, List.nil_append] at this
    exact this
  have hget : ∀ k < segEnd u 0, (overwrite b 0 (slice (unitBytes u) 0 (segEnd u 0)))[k]? = (unitBytes u)[k]? := by
    intro k hk
    rw [← List.getElem?_take_of_lt hk, htake, List.getElem?_take_of_lt hk]
  have hhead : Header u 0 (overwrite b 0 (slice (unitBytes u) 0 (segEnd u 0))) := by
    refine .start hu ?_ fun k hk => hget k (by omega)
    rw [overwrite_length (by rw [hlen, hb, Nat.zero_add, hend]; exact hle), hb]
  have hpay : slice (overwrite b 0 (slice (unitBytes u) 0 (segEnd u 0))) (hdrlen u) (payLen u 0) =
      slice (unitBytes u) (hdrlen u + 0 * mss u) (payLen u 0) := by
    rw [Nat.zero_mul, Nat.add_zero]
    exact slice_congr fun k _ hk => hget k (by omega)
  obtain ⟨f, b', hf, hb', hcall⟩ := packet_segment accept (t := ⟨0, 0, b⟩) hu (i := 0) (by omega)
    (by simp [hsw]) (dataLimit_first hu) (Nat.zero_le _) (by dsimp only; omega) hb hhead hpay
  simp only [and_self, if_true] at hcall
  exact ⟨f, b', hf, hb', hcall⟩

theorem payLen_full {i : ℕ} (h : segEnd u i < totalLen u) : payLen u i = mss u := by
  unfold segEnd payLen at h
  unfold payLen
  omega

theorem segEnd_full {i : ℕ} (h : segEnd u i < totalLen u) : segEnd u i = hdrlen u + (i + 1) * mss u := by
  rw [segEnd, payLen_full h, Nat.succ_mul, Nat.add_assoc]

theorem frames_cons {i : ℕ} {f : List UInt8} {frames : List (List UInt8)} (hf : Frame u i f)
    (h : ∀ j g, frames[j]? = some g → Frame u (i + 1 + j) g) :
    ∀ j g, (f :: frames)[j]? = some g → Frame u (i + j) g := by
  intro j g hg
  cases j with
  | zero =>
    cases hg
    exact hf
  | succ j =>
    rw [show i + (j + 1) = i + 1 + j by omega]
    exact h j g (by simpa using hg)

/-- The unit goes out in software: there is progress, and the copy loop passes its last descriptor. -/
structure Sendable (u : TxUnit) : Prop extends Fitting u where
  progress : 1 ≤ mss u ∨ totalLen u ≤ hdrlen u
  eop : txBufSz u.last.d1 ≠ 0

theorem TcpTso.sendable (hu : TcpTso u) : Sendable u where
  toFitting := hu.fitting
  progress := .inl hu.mss_pos
  eop := hu.size u.last (by simp [TxUnit.data])

theorem segments_later {accept : ℕ → Bool} (hu : Sendable u) (i : ℕ) (b : List UInt8)
    (hi : hdrlen u + i * mss u < totalLen u) (hb : Header u i b) :
    ∃ (frames : List (List UInt8)) (b' : List UInt8),
      TriggerTx accept ⟨⟨hdrlen u + i * mss u, hdrlen u, b⟩, u.segs⟩ (frames.map .ethSend) u.segs.length
        ⟨⟨0, 0, b'⟩, []⟩ ∧
      frames.length = (totalLen u - (hdrlen u + i * mss u) + mss u - 1) / mss u ∧
      ∀ j f, frames[j]? = some f → Frame u (i + j) f := by
  induction hn : totalLen u - (hdrlen u + i * mss u) using Nat.strong_induction_on generalizing i b with
  | _ n ih =>
    subst hn
    have hm : 1 ≤ mss u := hu.progress.resolve_right (by omega)
    have hsucc : hdrlen u + (i + 1) * mss u = hdrlen u + i * mss u + mss u := by rw [Nat.succ_mul, Nat.add_assoc]
    obtain ⟨f, b', hf, hb', hcall⟩ := packet_later accept hu.toFitting hi hb
    by_cases hmore : segEnd u i < totalLen u
    · have hat := segEnd_full hmore
      rw [if_pos hmore, hat] at hcall
      obtain ⟨frames, b'', hrun, hlen, hframes⟩ := ih (totalLen u - (hdrlen u + (i + 1) * mss u)) (by omega) (i + 1) b'
        (by omega) (hb' (payLen_full hmore)) rfl
      refine ⟨f :: frames, b'', ?_, ?_, frames_cons hf hframes⟩
      · have := TriggerTx.turn (s := ⟨⟨hdrlen u + i * mss u, hdrlen u, b⟩, u.segs⟩) hcall hrun
        simpa using this
      · rw [List.length_cons, hlen, ← Nat.add_div_right _ (by omega)]
        congr 1
        omega
    · rw [if_neg hmore, passed_all hu.toTcpUnit hu.eop] at hcall
      refine ⟨[f], b', ?_, ?_, frames_cons hf (by simp)⟩
      · have := TriggerTx.turn (s := ⟨⟨hdrlen u + i * mss u, hdrlen u, b⟩, u.segs⟩) hcall
          (.stop (by rw [List.drop_length]; rfl))
        simpa using this
      · have hlast : segEnd u i = totalLen u := by
          rw [segEnd_eq hi.le] at hmore ⊢
          omega
        rw [segEnd_eq hi.le] at hlast
        rw [List.length_singleton, Nat.div_eq_of_lt_le] <;> omega

theorem segments_all {accept : ℕ → Bool} (hu : Sendable u) (b : List UInt8) (hb : b.length = mtu)
    (hsw : (tries accept u).2 = false) :
    ∃ (frames : List (List UInt8)) (b' : List UInt8),
      TriggerTx accept ⟨⟨0, 0, b⟩, u.segs⟩ ((tries accept u).1 ++ frames.map .ethSend) u.segs.length ⟨⟨0, 0, b'⟩, []⟩ ∧
      frames.length = frameCount u ∧ ∀ j f, frames[j]? = some f → Frame u j f := by
  have hh := hu.header
  obtain ⟨f, b', hf, hb', hcall⟩ := packet_first accept hu.toFitting hb hsw
  by_cases hmore : segEnd u 0 < totalLen u
  · have hat := segEnd_full hmore
    rw [if_pos hmore, hat] at hcall
    obtain ⟨frames, b'', hrun, hlen, hframes⟩ := segments_later hu 1 b' (by omega) (hb' (payLen_full hmore))
    have hm : 1 ≤ mss u := hu.progress.resolve_right (by omega)
    refine ⟨f :: frames, b'', ?_, ?_, by simpa using frames_cons (i := 0) hf (by simpa using hframes)⟩
    · have := TriggerTx.turn (s := ⟨⟨0, 0, b⟩, u.segs⟩) hcall hrun
      simpa using this
    · have hcount : (totalLen u - hdrlen u + mss u - 1) / mss u =
          (totalLen u - (hdrlen u + 1 * mss u) + mss u - 1) / mss u + 1 := by
        rw [← Nat.add_div_right _ (by omega)]
        congr 1
        omega
      rw [List.length_cons, hlen, frameCount, hcount]
      omega
  · rw [if_neg hmore, passed_all hu.toTcpUnit hu.eop] at hcall
    refine ⟨[f], b', ?_, ?_, by simpa using frames_cons (i := 0) hf (by simp)⟩
    · have := TriggerTx.turn (s := ⟨⟨0, 0, b⟩, u.segs⟩) hcall (.stop (by rw [List.drop_length]; rfl))
      simpa using this
    · have hlast : totalLen u - hdrlen u ≤ mss u := by
        rw [segEnd_eq (by omega)] at hmore
        omega
      have hdiv : (totalLen u - hdrlen u + mss u - 1) / mss u ≤ 1 := by
        rcases Nat.eq_zero_or_pos (mss u) with hz | hpos
        · rw [hz, Nat.div_zero]
          exact Nat.zero_le 1
        · rw [Nat.div_le_iff_le_mul_add_pred hpos]
          omega
      rw [List.length_singleton, frameCount]
      omega

end

/-- The backend refuses one of the segments it is offered, so the unit is cut in software. -/
def Refused (accept : ℕ → Bool) (u : TxUnit) : Prop := ∃ i < u.data.length, accept (1 + i) = false

theorem tries_refused {accept : ℕ → Bool} {u : TxUnit} (h : Refused accept u) : (tries accept u).2 = false := by
  obtain ⟨i, hi, ha⟩ := h
  by_contra hne
  have := (hardwareTso_accepts _ _ _ _ _).mp (by simpa [tries] using hne) i hi
  rw [ha] at this
  cases this

def offered : Output → Bool
  | .ethSendTso .. => true
  | _ => false

theorem hardwareTso_offered (accept : ℕ → Bool) (r : EopScan) (m : ℕ) (unit : List Segment) (i : ℕ) :
    ∀ o ∈ (hardwareTso accept r m unit i).1, offered o = true := by
  induction unit generalizing i with
  | nil => simp [hardwareTso]
  | cons s rest ih =>
    intro o ho
    rw [hardwareTso] at ho
    split at ho
    · rcases List.mem_cons.mp ho with rfl | ho
      · rfl
      · exact ih _ o ho
    · rcases List.mem_singleton.mp ho with rfl
      rfl

theorem tso_segmentation_lossless {accept : ℕ → Bool} {u : TxUnit} {pktbuf : List UInt8} (hu : TcpTso u)
    (hbuf : pktbuf.length = mtu) (hsw : Refused accept u) :
    (∃ calls n s', Deliver accept ⟨⟨0, 0, pktbuf⟩, []⟩ u.segs calls n s') ∧
    ∀ calls n s', Deliver accept ⟨⟨0, 0, pktbuf⟩, []⟩ u.segs calls n s' →
      ∃ (refused : List Output) (frames : List (List UInt8)),
        calls = refused ++ frames.map .ethSend ∧ (∀ o ∈ refused, offered o = true) ∧
        frames.length = frameCount u ∧ (∀ i f, frames[i]? = some f → Frame u i f) ∧
        n = u.segs.length ∧ s'.ready = [] ∧ s'.tso.tsoLen = 0 ∧ s'.tso.tsoOff = 0 := by
  obtain ⟨frames, b', hrun, hlen, hframes⟩ := segments_all hu.sendable pktbuf hbuf (tries_refused hsw)
  simp only [u.deliver_segs]
  refine ⟨⟨_, _, _, hrun⟩, ?_⟩
  intro calls n s' h
  obtain ⟨rfl, rfl, rfl⟩ := h.unique hrun
  exact ⟨_, frames, rfl, hardwareTso_offered _ _ _ _ _, hlen, hframes, rfl, rfl, rfl, rfl⟩

/-- One descriptor of 64 bytes: 54 bytes of headers and ten of payload, to be cut with an MSS of 4. -/
def tenBytes : TxUnit where
  ctx := some ⟨0, 0x11 + 4 * 0x4000000000000, []⟩
  inner := []
  last := ⟨0, 0x10 + 7 * 0x10000 + 5 * 0x800000 + 5 * 0x40000000 + 64 * 0x400000000, List.replicate 64 0⟩
  ctx_dtype := by
    rintro _ ⟨⟩
    rfl
  inner_data := by simp
  last_data := by decide
  full := by
    intro s hs
    rw [List.nil_append, List.mem_singleton] at hs
    subst hs
    unfold Full
    decide

theorem tenBytes_tcpTso : TcpTso tenBytes where
  tso := by decide
  mss_pos := by decide
  size := by decide
  tag := by decide
  ipv4 := by decide
  tcp := by decide
  header := by decide
  fits := by
    unfold mtu
    decide

theorem tso_segmentation_lossless_tenBytes :
    ∃ (refused : List Output) (frames : List (List UInt8)) (n : ℕ) (s' : TxState),
      Deliver (fun _ => false) ⟨⟨0, 0, List.replicate mtu 0⟩, []⟩ tenBytes.segs
        (refused ++ frames.map .ethSend) n s' ∧ frames.length = 3 ∧ n = 2 := by
  have hsw : Refused (fun _ => false) tenBytes := ⟨0, by decide, rfl⟩
  have hbuf : (List.replicate mtu (0 : UInt8)).length = mtu := List.length_replicate
  obtain ⟨⟨calls, n, s', h⟩, hall⟩ := tso_segmentation_lossless tenBytes_tcpTso hbuf hsw
  obtain ⟨refused, frames, rfl, -, hlen, -, hn, -⟩ := hall calls n s' h
  exact ⟨refused, frames, n, s', h, hlen.trans (by decide), hn.trans (by decide)⟩

end Vmux.TxSegmentation
