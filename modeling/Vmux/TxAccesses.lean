import Vmux.TxTermination

namespace Vmux.TxBounds

open Checksums DescriptorQueue LanTx TxUnits TxTermination

/-- A byte range that `trigger_tx_packet` reads or writes, or a subtraction that it does on `uint32_t` values. -/
inductive Op
  | pktbuf (off len : ℕ)
  | fetched (s : Segment) (off len : ℕ)
  | sub (a b : ℕ)

def Op.Sound : Op → Prop
  | .pktbuf off len => off + len ≤ mtu
  | .fetched s off len => off + len ≤ min (pktLen16 s.d1) s.data.length
  | .sub a b => b ≤ a

/-- The `memcpy` of one turn of the copy loop. -/
def copyOps (limit : ℕ) (s : Segment) (off : ℕ) (t : TsoState) : List Op :=
  let stop := min (off + pktLen16 s.d1) limit
  if off ≤ t.tsoOff ∧ off + pktLen16 s.d1 > t.tsoOff then
    [.sub stop t.tsoOff, .fetched s (t.tsoOff - off) (sub32 stop t.tsoOff), .pktbuf t.tsoLen (sub32 stop t.tsoOff)]
  else []

def copyLoopOps (limit : ℕ) : List Segment → Copy → List Op
  | [], _ => []
  | s :: rest, r =>
    if limit ≤ r.off then []
    else copyOps limit s r.off r.tso ++
      match copySegment limit s r.off r.tso with
      | .ok tso => copyLoopOps limit rest { dcnt := r.dcnt + 1, off := r.off + pktLen16 s.d1, tso }
      | .error _ => []

def xsumOps (field off l4Len : ℕ) : List Op := [.pktbuf off l4Len, .pktbuf (off + field) 2]

/-- In the order of the source; the last three are what `rte_ipv4_phdr_cksum` reads. -/
def xsumTcpipTsoOps (ip iplen l4len paylen : ℕ) : List Op :=
  [.pktbuf (ip + totalLengthOff) 2, .pktbuf (ip + hdrChecksumOff) 2, .pktbuf ip iplen,
    .pktbuf (ip + iplen + tcpCksumOff) 2, .pktbuf (ip + iplen) (l4len + paylen),
    .pktbuf (ip + 12) 8, .pktbuf (ip + 9) 1, .pktbuf (ip + totalLengthOff) 2]

def tsoPostupdateHeaderOps (ip iplen : ℕ) : List Op :=
  [.pktbuf (ip + iplen + sentSeqOff) 4, .pktbuf (ip + packetIdOff) 2]

def sendPlainOps (r : EopScan) (t : TsoState) : List Op :=
  let l4Off := r.maclen + r.iplen
  (if r.l4t = l4tTcp then .sub t.tsoLen l4Off :: xsumOps tcpCksumOff l4Off (sub32 t.tsoLen l4Off)
    else if r.l4t = l4tUdp then .sub t.tsoLen l4Off :: xsumOps dgramCksumOff l4Off (sub32 t.tsoLen l4Off)
    else []) ++ [.pktbuf 0 t.tsoLen]

def sendTsoOps (mss : ℕ) (r : EopScan) (t : TsoState) : List Op :=
  let hdrlen := r.maclen + r.iplen + r.l4len
  let iplen := r.iplen % 0x100
  .sub t.tsoLen hdrlen :: xsumTcpipTsoOps r.maclen iplen r.l4len (min (sub32 t.tsoLen hdrlen) mss) ++
    .pktbuf 0 t.tsoLen :: tsoPostupdateHeaderOps r.maclen iplen

/-- Up to the first range outside its buffer, or to `abort()`. -/
def unitOps (accept : ℕ → Bool) (t : TsoState) (segs : List Segment) (l : Lead) (r : EopScan) : List Op :=
  if !l.tso ∧ mtu < r.totalLen then []
  else if l.tso ∧ t.tsoLen = 0 ∧ t.tsoOff = 0 ∧
      (hardwareTso accept r l.mss ((segs.take r.dcnt).drop l.dSkip) l.dSkip).2 then []
  else copyLoopOps (dataLimit l r t) (segs.drop l.dSkip) ⟨l.dSkip, 0, t⟩ ++
    match copyLoop (dataLimit l r t) (segs.drop l.dSkip) ⟨l.dSkip, 0, t⟩ with
    | .ok c =>
      if mtu < c.tso.tsoLen then [] else if l.tso then sendTsoOps l.mss r c.tso else sendPlainOps r c.tso
    | .error _ => []

def packetOps (accept : ℕ → Bool) (t : TsoState) (segs : List Segment) : List Op :=
  match segs with
  | [] => []
  | s :: _ =>
    match eopScan (segs.drop (lead s).dSkip) (.start (lead s).dSkip) with
    | .ok r => if r.eop then unitOps accept t segs (lead s) r else []
    | .error _ => []

theorem sub32_of_le {a b : ℕ} (h : b ≤ a) (ha : a < 0x100000000) : sub32 a b = a - b := by
  unfold sub32
  omega

section

variable {limit off : ℕ} {s : Segment} {t : TsoState} {segs : List Segment} {r r' : Copy}

/-- The model stops at a `memcpy` exactly when it leaves its buffers. -/
theorem copyOps_sound_iff (hl : limit < 0x100000000) :
    (∀ op ∈ copyOps limit s off t, op.Sound) ↔ ∃ t', copySegment limit s off t = .ok t' := by
  unfold copyOps copySegment
  dsimp only
  by_cases hc : off ≤ t.tsoOff ∧ off + pktLen16 s.d1 > t.tsoOff
  · rw [if_pos hc, if_pos hc]
    simp only [List.mem_cons, List.not_mem_nil, or_false, forall_eq_or_imp, forall_eq, Op.Sound]
    constructor
    · rintro ⟨hsub, hdata, hbuf⟩
      rw [sub32_of_le hsub (by omega)] at hdata hbuf
      exact ⟨_, if_neg (by omega)⟩
    · rintro ⟨t', h⟩
      split at h
      · cases h
      · rw [sub32_of_le (by omega) (by omega)]
        omega
  · simp [if_neg hc]

theorem copyLoopOps_sound_iff (hl : limit < 0x100000000) :
    (∀ op ∈ copyLoopOps limit segs r, op.Sound) ↔ ∃ r', copyLoop limit segs r = .ok r' := by
  induction segs generalizing r with
  | nil => simp [copyLoopOps, copyLoop]
  | cons s rest ih =>
    rw [copyLoopOps, copyLoop]
    by_cases hdone : limit ≤ r.off
    · simp [if_pos hdone]
    · rw [if_neg hdone, if_neg hdone, List.forall_mem_append, copyOps_sound_iff hl]
      cases hseg : copySegment limit s r.off r.tso with
      | ok t =>
        simp only [Except.ok.injEq, exists_eq', true_and]
        exact ih
      | error f =>
        refine iff_of_false ?_ ?_
        · rintro ⟨⟨t, h⟩, -⟩
          cases h
        · rintro ⟨r', h⟩
          cases h

theorem copyLoop_len_le (h : copyLoop limit segs r = .ok r') (hl : r.tso.tsoLen ≤ mtu) : r'.tso.tsoLen ≤ mtu := by
  induction segs generalizing r with
  | nil =>
    cases h
    exact hl
  | cons s rest ih =>
    rcases copyLoop_cons h with ⟨-, rfl⟩ | ⟨-, t, ht, h⟩
    · exact hl
    · refine ih h ?_
      unfold copySegment at ht
      dsimp only at ht
      split at ht
      · split at ht
        · cases ht
        · cases ht
          dsimp only
          omega
      · cases ht
        exact hl

theorem copyLoop_fits {unit : List Segment} (rest : List Segment) (hfull : ∀ s ∈ unit, Full s)
    (h1 : r.off ≤ r.tso.tsoOff) (h2 : r.tso.tsoOff ≤ limit) (h3 : limit ≤ r.off + pktLenSum unit)
    (h4 : r.tso.tsoLen + (limit - r.tso.tsoOff) ≤ mtu) : ∃ r', copyLoop limit (unit ++ rest) r = .ok r' := by
  induction unit generalizing r with
  | nil =>
    simp only [pktLenSum, List.map_nil, List.sum_nil] at h3
    exact ⟨r, copyLoop_done rest (by omega)⟩
  | cons s unit ih =>
    have hs : Full s := hfull s (by simp)
    have hunit : ∀ x ∈ unit, Full x := fun x hx => hfull x (List.mem_cons_of_mem s hx)
    have hsum : pktLenSum (s :: unit) = pktLen16 s.d1 + pktLenSum unit := by simp [pktLenSum]
    rw [List.cons_append, copyLoop]
    by_cases hdone : limit ≤ r.off
    · exact ⟨r, if_pos hdone⟩
    rw [if_neg hdone]
    by_cases hskip : r.off + pktLen16 s.d1 ≤ r.tso.tsoOff
    · rw [copySegment_skip (.inr hskip)]
      exact ih hunit hskip h2 (by dsimp only; omega) h4
    · rw [copySegment_copy hs h1 (by omega) h2 h4]
      by_cases hend : limit ≤ r.off + pktLen16 s.d1
      · exact ⟨_, copyLoop_done _ hend⟩
      · exact ih hunit (by dsimp only; omega) (by dsimp only; omega) (by dsimp only; omega) (by dsimp only; omega)

end

theorem mtu_eq : mtu = 9024 := by
  unfold mtu
  rfl

theorem maclen_le (d1 : ℕ) : maclen d1 ≤ 254 := by
  unfold maclen
  omega

theorem iplen_le (d1 : ℕ) : iplen d1 ≤ 508 := by
  unfold iplen
  omega

theorem l4len_le (d1 : ℕ) : l4len d1 ≤ 60 := by
  unfold l4len
  omega

section

variable {r : EopScan} {t : TsoState} {mss : ℕ}

theorem sendPlainOps_sound_iff (hm : r.maclen ≤ 254) (hi : r.iplen ≤ 508) (hlen : t.tsoLen ≤ mtu) :
    (∀ op ∈ sendPlainOps r t, op.Sound) ↔ (r.l4t ≠ l4tTcp ∧ r.l4t ≠ l4tUdp) ∨ r.maclen + r.iplen ≤ t.tsoLen := by
  have hmtu := mtu_eq
  have hsum : r.maclen + r.iplen ≤ t.tsoLen →
      r.maclen + r.iplen + sub32 t.tsoLen (r.maclen + r.iplen) = t.tsoLen := by
    intro hle
    rw [sub32_of_le hle (by omega)]
    omega
  have hx : ∀ field ≤ 16, (∀ op ∈ (Op.sub t.tsoLen (r.maclen + r.iplen) ::
      xsumOps field (r.maclen + r.iplen) (sub32 t.tsoLen (r.maclen + r.iplen))) ++ [.pktbuf 0 t.tsoLen], op.Sound) ↔
      r.maclen + r.iplen ≤ t.tsoLen := by
    intro field hf
    simp only [xsumOps, List.cons_append, List.nil_append, List.mem_cons, List.not_mem_nil, or_false, forall_eq_or_imp,
      forall_eq, Op.Sound]
    constructor
    · exact fun h => h.1
    · intro hle
      rw [hsum hle]
      omega
  unfold sendPlainOps
  dsimp only
  by_cases htcp : r.l4t = l4tTcp
  · rw [if_pos htcp, hx _ (by decide)]
    simp [htcp]
  · rw [if_neg htcp]
    by_cases hudp : r.l4t = l4tUdp
    · rw [if_pos hudp, hx _ (by decide)]
      simp [hudp]
    · rw [if_neg hudp]
      simp [htcp, hudp, Op.Sound, hlen]

theorem sendTsoOps_sound_iff (hm : r.maclen ≤ 254) (hl : r.l4len ≤ 60) (hlen : t.tsoLen ≤ mtu) :
    (∀ op ∈ sendTsoOps mss r t, op.Sound) ↔ r.maclen + r.iplen + r.l4len ≤ t.tsoLen := by
  have hmtu := mtu_eq
  have hip : r.iplen % 0x100 ≤ r.iplen := Nat.mod_le _ _
  have hsmall : r.iplen % 0x100 < 0x100 := Nat.mod_lt _ (by norm_num)
  simp only [sendTsoOps, xsumTcpipTsoOps, tsoPostupdateHeaderOps, List.cons_append, List.nil_append, List.mem_cons,
    List.not_mem_nil, or_false, forall_eq_or_imp, forall_eq, Op.Sound, totalLengthOff, hdrChecksumOff, tcpCksumOff,
    sentSeqOff, packetIdOff]
  constructor
  · exact fun h => h.1
  · intro hle
    rw [sub32_of_le hle (by omega)]
    omega

end

/-- These descriptors of a unit keep a call within its buffers. -/
def UnitFits (accept : ℕ → Bool) (t : TsoState) (l : Lead) (inner : List Segment) (e : Segment) : Prop :=
  let hdrlen := maclen e.d1 + iplen e.d1 + l4len e.d1
  let totalLen := bufSzSum (inner ++ [e])
  if l.tso then HardwareTakes accept t (inner ++ [e]) ∨ hdrlen ≤ totalLen ∧ min (hdrlen + l.mss) totalLen ≤ mtu
  else mtu < totalLen ∨ (cmdL4t e.d1 ≠ l4tTcp ∧ cmdL4t e.d1 ≠ l4tUdp) ∨ maclen e.d1 + iplen e.d1 ≤ totalLen

section

variable {accept : ℕ → Bool} {t : TsoState} {segs inner rest : List Segment} {s e : Segment}

/-- What a call knows about its unit: where it ends, and that its data was fetched. -/
structure Located (segs : List Segment) (l : Lead) (inner : List Segment) (e : Segment) (rest : List Segment) : Prop where
  split : segs.drop l.dSkip = inner ++ e :: rest
  full : ∀ s ∈ inner ++ [e], Full s
  small : bufSzSum (inner ++ [e]) < 0x100000000

variable {l : Lead}

theorem Located.drop (h : Located segs l inner e rest) : segs.drop l.dSkip = (inner ++ [e]) ++ rest := by
  rw [h.split, List.append_cons]

theorem Located.total_le (h : Located segs l inner e rest) :
    bufSzSum (inner ++ [e]) ≤ pktLenSum (segs.drop l.dSkip) := by
  rw [h.drop]
  refine (bufSzSum_le _).trans ?_
  simp [pktLenSum]

theorem dataLimit_le (l : Lead) (r : EopScan) (t : TsoState) : dataLimit l r t ≤ r.totalLen := by
  unfold dataLimit
  split
  · exact min_le_right _ _
  · exact le_rfl

theorem software_sound_iff (h : Located segs l inner e rest) {limit : ℕ} (hl : limit ≤ bufSzSum (inner ++ [e]))
    (hoff : t.tsoOff ≤ limit) (hlen : t.tsoLen ≤ mtu) {g : Copy → List Op} {P : Prop}
    (hP : t.tsoLen + (limit - t.tsoOff) ≤ mtu → ∀ c, c.tso.tsoLen = t.tsoLen + (limit - t.tsoOff) →
      ((∀ op ∈ g c, op.Sound) ↔ P)) :
    (∀ op ∈ copyLoopOps limit (segs.drop l.dSkip) ⟨l.dSkip, 0, t⟩ ++
      (match copyLoop limit (segs.drop l.dSkip) ⟨l.dSkip, 0, t⟩ with
        | .ok c => if mtu < c.tso.tsoLen then [] else g c
        | .error _ => []), op.Sound) ↔ t.tsoLen + (limit - t.tsoOff) ≤ mtu ∧ P := by
  have hsmall := h.small
  have htotal := h.total_le
  have hsum := bufSzSum_le (inner ++ [e])
  rw [List.forall_mem_append, copyLoopOps_sound_iff (by omega)]
  constructor
  · rintro ⟨⟨c, hc⟩, hops⟩
    obtain ⟨-, h2⟩ := copyLoop_reaches hc (Nat.zero_le _) hoff (by dsimp only; omega)
    have hle := copyLoop_len_le hc hlen
    rw [hc] at hops
    dsimp only at h2 hops
    rw [if_neg (by omega)] at hops
    exact ⟨by omega, (hP (by omega) c h2).mp hops⟩
  · rintro ⟨hfit, hp⟩
    obtain ⟨c, hc⟩ : ∃ c, copyLoop limit (segs.drop l.dSkip) ⟨l.dSkip, 0, t⟩ = .ok c := by
      rw [h.drop]
      exact copyLoop_fits rest h.full (Nat.zero_le _) hoff (by dsimp only; omega) hfit
    obtain ⟨-, h2⟩ := copyLoop_reaches hc (Nat.zero_le _) hoff (by dsimp only; omega)
    refine ⟨⟨c, hc⟩, ?_⟩
    rw [hc]
    dsimp only at h2 ⊢
    rw [if_neg (by omega)]
    exact (hP hfit c h2).mpr hp

/-- Between two segments of a unit, once the first one has been sent. -/
structure Midway (t : TsoState) (l : Lead) (inner : List Segment) (e : Segment) : Prop where
  tso : l.tso = true
  pos : t.tsoOff ≠ 0
  below : t.tsoOff < bufSzSum (inner ++ [e])
  len : t.tsoLen = maclen e.d1 + iplen e.d1 + l4len e.d1
  header : maclen e.d1 + iplen e.d1 + l4len e.d1 ≤ bufSzSum (inner ++ [e])
  fits : maclen e.d1 + iplen e.d1 + l4len e.d1 + l.mss ≤ mtu

def Fresh (t : TsoState) : Prop := t.tsoOff = 0 ∧ t.tsoLen = 0

theorem hardware_iff (h : Located segs (lead s) inner e rest) (htso : (lead s).tso = true) :
    (t.tsoLen = 0 ∧ t.tsoOff = 0 ∧ (hardwareTso accept (EopScan.unit (lead s).dSkip inner e) (lead s).mss
      ((segs.take (EopScan.unit (lead s).dSkip inner e).dcnt).drop (lead s).dSkip) (lead s).dSkip).2 = true) ↔
      HardwareTakes accept t (inner ++ [e]) := by
  rw [hardwareTso_accepts, unit_take h.split, lead_tso htso]
  rfl

theorem plain_sound_iff (h : Located segs l inner e rest) (htso : l.tso = false) (ht : Fresh t) :
    (∀ op ∈ unitOps accept t segs l (EopScan.unit l.dSkip inner e), op.Sound) ↔ UnitFits accept t l inner e := by
  obtain ⟨hoff, hlen⟩ := ht
  have hmtu := mtu_eq
  have hlimit : dataLimit l (EopScan.unit l.dSkip inner e) t = bufSzSum (inner ++ [e]) := by
    rw [dataLimit, htso]
    rfl
  have htotal : (EopScan.unit l.dSkip inner e).totalLen = bufSzSum (inner ++ [e]) := rfl
  unfold unitOps UnitFits
  simp only [htso, hlimit, htotal, Bool.not_false, Bool.false_eq_true, false_and, if_false, true_and]
  by_cases hbig : mtu < bufSzSum (inner ++ [e])
  · simp [hbig]
  · rw [if_neg hbig, software_sound_iff (g := fun c => sendPlainOps (EopScan.unit l.dSkip inner e) c.tso)
      (P := (cmdL4t e.d1 ≠ l4tTcp ∧ cmdL4t e.d1 ≠ l4tUdp) ∨ maclen e.d1 + iplen e.d1 ≤ bufSzSum (inner ++ [e]))
      h le_rfl (by omega) (by omega)]
    · simp only [hbig, false_or, and_iff_right_iff_imp]
      omega
    · intro hfit c hc
      rw [sendPlainOps_sound_iff (maclen_le e.d1) (iplen_le e.d1) (by omega), hc, hoff, hlen, Nat.sub_zero, Nat.zero_add]
      rfl

theorem dataLimit_tso (htso : l.tso = true) : dataLimit l (EopScan.unit l.dSkip inner e) t =
    min ((if t.tsoOff = 0 then maclen e.d1 + iplen e.d1 + l4len e.d1 else t.tsoOff) + l.mss)
      (bufSzSum (inner ++ [e])) := by
  rw [dataLimit, if_pos htso]
  split <;> rfl

theorem tso_sound_iff (h : Located segs (lead s) inner e rest) (htso : (lead s).tso = true)
    (ht : Fresh t ∨ Midway t (lead s) inner e) :
    (∀ op ∈ unitOps accept t segs (lead s) (EopScan.unit (lead s).dSkip inner e), op.Sound) ↔
      UnitFits accept t (lead s) inner e := by
  have hmtu := mtu_eq
  have hl4 := l4len_le e.d1
  have hlimit := @dataLimit_tso t inner e _ htso
  generalize hL : dataLimit (lead s) (EopScan.unit (lead s).dSkip inner e) t = limit at hlimit
  unfold unitOps UnitFits
  simp only [htso, hL, Bool.not_true, Bool.false_eq_true, false_and, if_false, true_and, if_true]
  by_cases hw : HardwareTakes accept t (inner ++ [e])
  · rw [if_pos ((hardware_iff h htso).mpr hw)]
    simp [hw]
  rw [if_neg fun hn => hw ((hardware_iff h htso).mp hn)]
  simp only [hw, false_or]
  have hle : limit ≤ bufSzSum (inner ++ [e]) := by omega
  rcases ht with ⟨hoff, hlen⟩ | ht
  · rw [if_pos hoff] at hlimit
    rw [software_sound_iff (g := fun c => sendTsoOps (lead s).mss (EopScan.unit (lead s).dSkip inner e) c.tso)
      (P := maclen e.d1 + iplen e.d1 + l4len e.d1 ≤ limit) h hle (by omega) (by omega)]
    · omega
    · intro hfit c hc
      rw [sendTsoOps_sound_iff (maclen_le e.d1) hl4 (by omega), hc, hoff, hlen, Nat.sub_zero, Nat.zero_add]
      rfl
  · have hbelow := ht.below
    have hlen := ht.len
    have hheader := ht.header
    have hfits := ht.fits
    rw [if_neg ht.pos] at hlimit
    rw [software_sound_iff (g := fun c => sendTsoOps (lead s).mss (EopScan.unit (lead s).dSkip inner e) c.tso)
      (P := maclen e.d1 + iplen e.d1 + l4len e.d1 ≤ t.tsoLen + (limit - t.tsoOff)) h hle (by omega) (by omega)]
    · omega
    · intro hfit c hc
      rw [sendTsoOps_sound_iff (maclen_le e.d1) hl4 (by omega), hc]
      rfl

theorem sent_fresh_or_midway (h : Located segs (lead s) inner e rest) (ht : Fresh t ∨ Midway t (lead s) inner e) {sent : Sent}
    (hs : sendUnit accept t segs (lead s) (EopScan.unit (lead s).dSkip inner e) = .ok sent) :
    Fresh sent.tso ∨ Midway sent.tso (lead s) inner e ∧ sent.popped = 0 := by
  rcases sendUnit_ok hs with ⟨-, hlen, hoff, -, -, hst⟩ | ⟨-, c, hc, ⟨htso, x, hx, hpop, hst⟩ | ⟨-, hp⟩⟩
  · rw [hst]
    exact .inl ⟨hoff, hlen⟩
  · rw [hst, hpop]
    rcases sendTso_ok hx with ⟨hlt, hp, ho, hl⟩ | ⟨-, -, ho, hl⟩
    · have hlimit := @dataLimit_tso t inner e _ htso
      have htotal := h.total_le
      generalize dataLimit (lead s) (EopScan.unit (lead s).dSkip inner e) t = limit at hc hlimit
      change c.tso.tsoOff < bufSzSum (inner ++ [e]) at hlt
      change _ = maclen e.d1 + iplen e.d1 + l4len e.d1 at hl
      rcases ht with ⟨hoff, hlen⟩ | ht
      · rw [if_pos hoff] at hlimit
        obtain ⟨h1, h2⟩ := copyLoop_reaches hc (Nat.zero_le _) (by dsimp only; omega) (by dsimp only; omega)
        have hle := copyLoop_len_le hc (by dsimp only; omega)
        dsimp only at h2
        by_cases hz : x.tso.tsoOff = 0
        · exact .inl ⟨hz, by omega⟩
        · exact .inr ⟨⟨htso, hz, by omega, hl, by omega, by omega⟩, hp⟩
      · have hbelow := ht.below
        have hpos := ht.pos
        rw [if_neg hpos] at hlimit
        obtain ⟨h1, -⟩ := copyLoop_reaches hc (Nat.zero_le _) (by dsimp only; omega) (by dsimp only; omega)
        exact .inr ⟨⟨htso, by omega, by omega, hl, ht.header, ht.fits⟩, hp⟩
    · exact .inl ⟨ho, hl⟩
  · exact .inl (sendPlain_ok hp).2

end

end Vmux.TxBounds
