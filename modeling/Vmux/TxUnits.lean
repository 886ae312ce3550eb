import Vmux.LanTx

namespace Vmux.TxUnits

open Bytes DescriptorQueue LanTx

def bufSzSum (segs : List Segment) : ℕ := (segs.map fun s => txBufSz s.d1).sum

def pktLenSum (segs : List Segment) : ℕ := (segs.map fun s => pktLen16 s.d1).sum

def fetched (segs : List Segment) : List UInt8 := segs.flatMap fun s => s.data.take (pktLen16 s.d1)

def Full (s : Segment) : Prop := pktLen16 s.d1 ≤ s.data.length

theorem txBufSz_le (d1 : ℕ) : txBufSz d1 ≤ pktLen16 d1 := by
  unfold txBufSz pktLen16
  omega

theorem bufSzSum_le (segs : List Segment) : bufSzSum segs ≤ pktLenSum segs := by
  induction segs with
  | nil => exact le_rfl
  | cons s rest ih =>
    have hs := txBufSz_le s.d1
    simp only [bufSzSum, pktLenSum, List.map_cons, List.sum_cons] at ih ⊢
    omega

theorem fetched_length {segs : List Segment} (h : ∀ s ∈ segs, Full s) : (fetched segs).length = pktLenSum segs := by
  induction segs with
  | nil => rfl
  | cons s rest ih =>
    have hs : Full s := h s (by simp)
    have hrest := ih fun x hx => h x (List.mem_cons_of_mem s hx)
    simp only [fetched, List.flatMap_cons, List.length_append, List.length_take, pktLenSum, List.map_cons,
      List.sum_cons] at hrest ⊢
    rw [hrest, min_eq_left hs]

/-- A data descriptor that does not end its packet. -/
def Inner (s : Segment) : Prop := dtype s.d1 = dtypeData ∧ cmdEop s.d1 = false

def Last (s : Segment) : Prop := dtype s.d1 = dtypeData ∧ cmdEop s.d1 = true

instance (s : Segment) : Decidable (Inner s) := inferInstanceAs (Decidable (_ ∧ _))

instance (s : Segment) : Decidable (Last s) := inferInstanceAs (Decidable (_ ∧ _))

def EopScan.unit (dcnt : ℕ) (segs : List Segment) (e : Segment) : EopScan where
  dcnt := dcnt + segs.length + 1
  eop := true
  l4t := cmdL4t e.d1
  maclen := maclen e.d1
  iplen := iplen e.d1
  l4len := l4len e.d1
  totalLen := bufSzSum (segs ++ [e])

theorem eopScan_eop {r : EopScan} (segs : List Segment) (h : r.eop = true) : eopScan segs r = .ok r := by
  cases segs with
  | nil => rfl
  | cons s rest => rw [eopScan, if_pos h]

theorem eopScan_cons {s : Segment} {rest : List Segment} {r : EopScan} (hr : r.eop = false)
    (hs : dtype s.d1 = dtypeData) : eopScan (s :: rest) r = eopScan rest (r.next s.d1) := by
  rw [eopScan, hr, if_neg (by decide), if_neg (by simpa using hs)]

theorem eopScan_inner {segs : List Segment} {r : EopScan} (hr : r.eop = false) (h : ∀ s ∈ segs, Inner s) :
    ∃ r', eopScan segs r = .ok r' ∧ r'.eop = false := by
  induction segs generalizing r with
  | nil => exact ⟨r, rfl, hr⟩
  | cons s rest ih =>
    obtain ⟨hd, he⟩ := h s (by simp)
    rw [eopScan_cons hr hd]
    exact ih he fun x hx => h x (List.mem_cons_of_mem s hx)

theorem eopScan_last {segs rest : List Segment} {e : Segment} {r : EopScan} (hr : r.eop = false)
    (h : ∀ s ∈ segs, Inner s) (he : Last e) :
    eopScan (segs ++ e :: rest) r =
      .ok { EopScan.unit r.dcnt segs e with totalLen := r.totalLen + bufSzSum (segs ++ [e]) } := by
  induction segs generalizing r with
  | nil =>
    rw [List.nil_append, eopScan_cons hr he.1, eopScan_eop rest he.2]
    simp [EopScan.next, EopScan.unit, he.2, bufSzSum]
  | cons s segs ih =>
    obtain ⟨hd, hn⟩ := h s (by simp)
    rw [List.cons_append, eopScan_cons hr hd, ih hn fun x hx => h x (List.mem_cons_of_mem s hx)]
    simp [EopScan.next, EopScan.unit, bufSzSum]
    omega

theorem eopScan_unit {segs rest : List Segment} {e : Segment} (dSkip : ℕ) (h : ∀ s ∈ segs, Inner s)
    (he : Last e) : eopScan (segs ++ e :: rest) (.start dSkip) = .ok (EopScan.unit dSkip segs e) := by
  rw [eopScan_last rfl h he]
  simp [EopScan.start, EopScan.unit]

theorem eopScan_split {segs : List Segment} {r r' : EopScan} (hr : r.eop = false)
    (h : eopScan segs r = .ok r') (hr' : r'.eop = true) :
    ∃ inner e rest, segs = inner ++ e :: rest ∧ (∀ s ∈ inner, Inner s) ∧ Last e := by
  induction segs generalizing r with
  | nil =>
    cases h
    rw [hr] at hr'
    cases hr'
  | cons s rest ih =>
    rw [eopScan, hr, if_neg (by decide)] at h
    split at h
    · cases h
    · rename_i hd
      have hd : dtype s.d1 = dtypeData := not_not.mp hd
      cases he : cmdEop s.d1 with
      | true => exact ⟨[], s, rest, rfl, by simp, hd, he⟩
      | false =>
        obtain ⟨inner, e, rest', rfl, hin, hlast⟩ := ih he h
        refine ⟨s :: inner, e, rest', rfl, ?_, hlast⟩
        intro x hx
        rcases List.mem_cons.mp hx with rfl | hx
        · exact ⟨hd, he⟩
        · exact hin x hx

theorem copySegment_skip {limit off : ℕ} {s : Segment} {t : TsoState}
    (h : t.tsoOff < off ∨ off + pktLen16 s.d1 ≤ t.tsoOff) : copySegment limit s off t = .ok t := by
  unfold copySegment
  rw [if_neg (by omega)]

theorem copySegment_mono {limit off : ℕ} {s : Segment} {t t' : TsoState}
    (h : copySegment limit s off t = .ok t') : t.tsoOff ≤ t'.tsoOff := by
  unfold copySegment at h
  dsimp only at h
  split at h
  · split at h
    · cases h
    · cases h
      dsimp only
      omega
  · cases h
    exact le_rfl

theorem copySegment_advances {limit off : ℕ} {s : Segment} {t t' : TsoState}
    (h : copySegment limit s off t = .ok t') (h1 : off ≤ t.tsoOff) (h2 : t.tsoOff < off + pktLen16 s.d1)
    (h3 : t.tsoOff < limit) : t.tsoOff < t'.tsoOff := by
  unfold copySegment at h
  dsimp only at h
  rw [if_pos ⟨h1, h2⟩] at h
  split at h
  · cases h
  · cases h
    exact lt_min h2 h3

theorem copySegment_stays {limit off : ℕ} {s : Segment} {t t' : TsoState}
    (h : copySegment limit s off t = .ok t') (h1 : limit ≤ t.tsoOff) : t'.tsoOff = t.tsoOff := by
  unfold copySegment at h
  dsimp only at h
  split at h
  · split at h
    · cases h
    · cases h
      dsimp only
      omega
  · cases h
    rfl

theorem copyLoop_cons {limit : ℕ} {s : Segment} {rest : List Segment} {r r' : Copy}
    (h : copyLoop limit (s :: rest) r = .ok r') :
    (limit ≤ r.off ∧ r' = r) ∨ (r.off < limit ∧ ∃ t, copySegment limit s r.off r.tso = .ok t ∧
      copyLoop limit rest ⟨r.dcnt + 1, r.off + pktLen16 s.d1, t⟩ = .ok r') := by
  rw [copyLoop] at h
  split at h
  · cases h
    exact .inl ⟨by assumption, rfl⟩
  · obtain ⟨t, ht, h⟩ := bind_ok h
    exact .inr ⟨by omega, t, ht, h⟩

theorem copyLoop_mono {limit : ℕ} {segs : List Segment} {r r' : Copy} (h : copyLoop limit segs r = .ok r') :
    r.dcnt ≤ r'.dcnt ∧ r.tso.tsoOff ≤ r'.tso.tsoOff := by
  induction segs generalizing r with
  | nil =>
    cases h
    exact ⟨le_rfl, le_rfl⟩
  | cons s rest ih =>
    rcases copyLoop_cons h with ⟨-, rfl⟩ | ⟨-, t, ht, h⟩
    · exact ⟨le_rfl, le_rfl⟩
    · have hm := copySegment_mono ht
      obtain ⟨h1, h2⟩ := ih h
      dsimp only at h1 h2
      exact ⟨by omega, by omega⟩

theorem copyLoop_dcnt {limit : ℕ} {s : Segment} {rest : List Segment} {r r' : Copy}
    (h : copyLoop limit (s :: rest) r = .ok r') (hr : r.off < limit) : r.dcnt < r'.dcnt := by
  rcases copyLoop_cons h with ⟨h', -⟩ | ⟨-, t, -, h⟩
  · omega
  · have := (copyLoop_mono h).1
    dsimp only at this
    omega

theorem copyLoop_stays {limit : ℕ} {segs : List Segment} {r r' : Copy} (h : copyLoop limit segs r = .ok r')
    (h1 : limit ≤ r.tso.tsoOff) : r'.tso.tsoOff = r.tso.tsoOff := by
  induction segs generalizing r with
  | nil =>
    cases h
    rfl
  | cons s rest ih =>
    rcases copyLoop_cons h with ⟨-, rfl⟩ | ⟨-, t, ht, h⟩
    · rfl
    · have hs := copySegment_stays ht h1
      rw [ih h (by dsimp only; omega)]
      exact hs

theorem copyLoop_advances {limit : ℕ} {segs : List Segment} {r r' : Copy} (h : copyLoop limit segs r = .ok r')
    (h1 : r.off ≤ r.tso.tsoOff) (h2 : r.tso.tsoOff < limit) (h3 : r.tso.tsoOff < r.off + pktLenSum segs) :
    r.tso.tsoOff < r'.tso.tsoOff := by
  induction segs generalizing r with
  | nil =>
    simp only [pktLenSum, List.map_nil, List.sum_nil] at h3
    omega
  | cons s rest ih =>
    rcases copyLoop_cons h with ⟨h', -⟩ | ⟨-, t, ht, h⟩
    · omega
    · by_cases hs : r.tso.tsoOff < r.off + pktLen16 s.d1
      · have hadv := copySegment_advances ht h1 hs h2
        have hm := (copyLoop_mono h).2
        dsimp only at hm
        omega
      · rw [copySegment_skip (.inr (by omega))] at ht
        cases ht
        simp only [pktLenSum, List.map_cons, List.sum_cons] at h3
        refine ih (r := ⟨r.dcnt + 1, r.off + pktLen16 s.d1, r.tso⟩) h ?_ h2 ?_
        · dsimp only
          omega
        · dsimp only [pktLenSum]
          omega

/-- How many descriptors the copy loop visits before `need` bytes have gone by. -/
def copyCnt : List Segment → ℕ → ℕ
  | [], _ => 0
  | s :: rest, need => if need = 0 then 0 else copyCnt rest (need - pktLen16 s.d1) + 1

theorem copyCnt_zero (segs : List Segment) : copyCnt segs 0 = 0 := by
  cases segs <;> rfl

theorem copyLoop_done {limit : ℕ} (segs : List Segment) {r : Copy} (h : limit ≤ r.off) :
    copyLoop limit segs r = .ok r := by
  cases segs with
  | nil => rfl
  | cons s rest => rw [copyLoop, if_pos h]

theorem slice_fetched_here {s : Segment} (rest : List Segment) {off n : ℕ} (hs : Full s)
    (h : off + n ≤ pktLen16 s.d1) : slice (fetched (s :: rest)) off n = slice s.data off n := by
  rw [fetched, List.flatMap_cons, slice_append_left (by rw [List.length_take_of_le hs]; exact h), slice_take h]

theorem slice_fetched_later {s : Segment} (rest : List Segment) (off n : ℕ) (hs : Full s) :
    slice (fetched (s :: rest)) (pktLen16 s.d1 + off) n = slice (fetched rest) off n := by
  have h := slice_append_right (s.data.take (pktLen16 s.d1)) (fetched rest) off n
  rw [List.length_take_of_le hs] at h
  exact h

theorem copySegment_copy {limit off : ℕ} {s : Segment} {t : TsoState} (hs : Full s) (h1 : off ≤ t.tsoOff)
    (h2 : t.tsoOff < off + pktLen16 s.d1) (h3 : t.tsoOff ≤ limit) (h4 : t.tsoLen + (limit - t.tsoOff) ≤ mtu) :
    copySegment limit s off t = .ok ⟨min (off + pktLen16 s.d1) limit,
      t.tsoLen + (min (off + pktLen16 s.d1) limit - t.tsoOff),
      overwrite t.pktbuf t.tsoLen
        (slice s.data (t.tsoOff - off) (min (off + pktLen16 s.d1) limit - t.tsoOff))⟩ := by
  unfold Full at hs
  unfold copySegment
  dsimp only
  rw [if_pos ⟨h1, h2⟩, if_neg (by omega)]

theorem copyLoop_eq (limit : ℕ) {segs : List Segment} (hfull : ∀ s ∈ segs, Full s) (dcnt off : ℕ) (t : TsoState)
    (h1 : off ≤ t.tsoOff) (h2 : t.tsoOff ≤ limit) (h3 : limit ≤ off + pktLenSum segs)
    (h4 : t.tsoLen + (limit - t.tsoOff) ≤ mtu) (h5 : t.tsoLen ≤ t.pktbuf.length) :
    ∃ off', copyLoop limit segs ⟨dcnt, off, t⟩ = .ok ⟨dcnt + copyCnt segs (limit - off), off',
      ⟨limit, t.tsoLen + (limit - t.tsoOff),
        overwrite t.pktbuf t.tsoLen (slice (fetched segs) (t.tsoOff - off) (limit - t.tsoOff))⟩⟩ := by
  induction segs generalizing dcnt off t with
  | nil =>
    obtain ⟨o, l, b⟩ := t
    simp only [pktLenSum, List.map_nil, List.sum_nil] at h1 h2 h3
    obtain rfl : o = limit := by omega
    exact ⟨off, by simp [copyLoop, copyCnt, slice, overwrite_nil]⟩
  | cons s rest ih =>
    have hs : Full s := hfull s (by simp)
    have hrest : ∀ x ∈ rest, Full x := fun x hx => hfull x (List.mem_cons_of_mem s hx)
    simp only [pktLenSum, List.map_cons, List.sum_cons] at h3
    by_cases hdone : limit ≤ off
    · obtain ⟨o, l, b⟩ := t
      dsimp only at h1 h2 ⊢
      obtain rfl : o = limit := by omega
      refine ⟨off, ?_⟩
      rw [copyLoop, if_pos hdone, copyCnt, if_pos (by omega)]
      simp [slice, overwrite_nil]
    · have hcnt : copyCnt (s :: rest) (limit - off) = copyCnt rest (limit - (off + pktLen16 s.d1)) + 1 := by
        rw [copyCnt, if_neg (by omega), Nat.sub_sub]
      rw [copyLoop, if_neg hdone, hcnt]
      by_cases hskip : off + pktLen16 s.d1 ≤ t.tsoOff
      · rw [copySegment_skip (.inr hskip)]
        obtain ⟨off', h⟩ := ih hrest (dcnt + 1) (off + pktLen16 s.d1) t hskip h2
          (by simp only [pktLenSum]; omega) h4 h5
        refine ⟨off', ?_⟩
        have hat : t.tsoOff - off = pktLen16 s.d1 + (t.tsoOff - (off + pktLen16 s.d1)) := by omega
        rw [hat, slice_fetched_later rest _ _ hs]
        simp only [bind, Except.bind]
        rw [h]
        congr 2
        omega
      · rw [copySegment_copy hs h1 (by omega) h2 h4]
        simp only [bind, Except.bind]
        by_cases hend : limit ≤ off + pktLen16 s.d1
        · refine ⟨off + pktLen16 s.d1, ?_⟩
          rw [min_eq_right hend, copyLoop_done rest hend, slice_fetched_here rest hs (by omega),
            Nat.sub_eq_zero_of_le hend, copyCnt_zero, Nat.zero_add]
        · have hstop : min (off + pktLen16 s.d1) limit = off + pktLen16 s.d1 := min_eq_left (by omega)
          have hn : (slice s.data (t.tsoOff - off) (off + pktLen16 s.d1 - t.tsoOff)).length =
              off + pktLen16 s.d1 - t.tsoOff := slice_length (by unfold Full at hs; omega)
          have hlen : t.tsoLen + (off + pktLen16 s.d1 - t.tsoOff) ≤ (overwrite t.pktbuf t.tsoLen
              (slice s.data (t.tsoOff - off) (off + pktLen16 s.d1 - t.tsoOff))).length := by
            have hle := @le_overwrite_length t.pktbuf t.tsoLen
              (slice s.data (t.tsoOff - off) (off + pktLen16 s.d1 - t.tsoOff)) h5
            rwa [hn] at hle
          rw [hstop]
          obtain ⟨off', h⟩ := ih hrest (dcnt + 1) (off + pktLen16 s.d1)
            ⟨off + pktLen16 s.d1, t.tsoLen + (off + pktLen16 s.d1 - t.tsoOff), overwrite t.pktbuf t.tsoLen
              (slice s.data (t.tsoOff - off) (off + pktLen16 s.d1 - t.tsoOff))⟩ le_rfl
            (by dsimp only; omega) (by simp only [pktLenSum]; omega) (by dsimp only; omega) hlen
          refine ⟨off', ?_⟩
          rw [h]
          dsimp only
          have hsplit : limit - t.tsoOff = off + pktLen16 s.d1 - t.tsoOff + (limit - (off + pktLen16 s.d1)) := by
            omega
          have hat : t.tsoOff - off + (off + pktLen16 s.d1 - t.tsoOff) = pktLen16 s.d1 + 0 := by omega
          rw [hsplit, slice_add, hat, slice_fetched_later rest _ _ hs, slice_fetched_here rest hs (by omega),
            ← overwrite_append (by omega), hn, Nat.sub_self]
          congr 2
          · omega
          · congr 1
            omega

theorem copyLoop_reaches {limit : ℕ} {segs : List Segment} {r r' : Copy} (h : copyLoop limit segs r = .ok r')
    (h1 : r.off ≤ r.tso.tsoOff) (h2 : r.tso.tsoOff ≤ limit) (h3 : limit ≤ r.off + pktLenSum segs) :
    r'.tso.tsoOff = limit ∧ r'.tso.tsoLen = r.tso.tsoLen + (limit - r.tso.tsoOff) := by
  induction segs generalizing r with
  | nil =>
    cases h
    simp only [pktLenSum, List.map_nil, List.sum_nil] at h3
    omega
  | cons s rest ih =>
    have hsum : pktLenSum (s :: rest) = pktLen16 s.d1 + pktLenSum rest := by simp [pktLenSum]
    rcases copyLoop_cons h with ⟨hle, rfl⟩ | ⟨hlt, t, ht, h⟩
    · omega
    · unfold copySegment at ht
      dsimp only at ht
      split at ht
      · split at ht
        · cases ht
        · cases ht
          by_cases hend : r.off + pktLen16 s.d1 ≤ limit
          · obtain ⟨hoff, hlen⟩ := ih h (by dsimp only; omega) (by dsimp only; omega) (by dsimp only; omega)
            rw [hoff, hlen]
            dsimp only
            omega
          · rw [copyLoop_done _ (by dsimp only; omega)] at h
            cases h
            dsimp only
            omega
      · cases ht
        exact ih (r := ⟨r.dcnt + 1, r.off + pktLen16 s.d1, r.tso⟩) h (by dsimp only; omega) h2 (by dsimp only; omega)

/-- The shape of the ready descriptors whenever a call sends something. -/
theorem triggerTxPacket_sent {accept : ℕ → Bool} {t : TsoState} {segs : List Segment} {sent : Sent}
    (h : triggerTxPacket accept t segs = .ok (some sent)) :
    ∃ s tail inner e rest, segs = s :: tail ∧ segs.drop (lead s).dSkip = inner ++ e :: rest ∧
      (∀ x ∈ inner, Inner x) ∧ Last e ∧
      sendUnit accept t segs (lead s) (EopScan.unit (lead s).dSkip inner e) = .ok sent := by
  cases segs with
  | nil => cases h
  | cons s tail =>
    obtain ⟨r, hr, h⟩ := bind_ok h
    split at h
    · cases h
    · rename_i heop
      obtain ⟨x, hx, h⟩ := bind_ok h
      cases h
      have heop : r.eop = true := by simpa using heop
      obtain ⟨inner, e, rest, hsegs, hin, he⟩ := eopScan_split rfl hr heop
      rw [hsegs, eopScan_unit _ hin he] at hr
      cases hr
      exact ⟨s, tail, inner, e, rest, rfl, hsegs, hin, he, hx⟩

theorem unit_take {segs inner rest : List Segment} {s e : Segment} (hd : segs.drop (lead s).dSkip = inner ++ e :: rest) :
    (segs.take (EopScan.unit (lead s).dSkip inner e).dcnt).drop (lead s).dSkip = inner ++ [e] := by
  rw [List.drop_take, hd]
  have hn : (EopScan.unit (lead s).dSkip inner e).dcnt - (lead s).dSkip = (inner ++ [e]).length := by
    simp [EopScan.unit]
    omega
  rw [hn, List.append_cons inner e rest, List.take_left]

theorem hardwareTso_accepts (accept : ℕ → Bool) (r : EopScan) (mss : ℕ) (unit : List Segment) (i : ℕ) :
    (hardwareTso accept r mss unit i).2 = true ↔ ∀ j < unit.length, accept (i + j) = true := by
  induction unit generalizing i with
  | nil => simp [hardwareTso]
  | cons s rest ih =>
    rw [hardwareTso]
    by_cases hi : accept i = true
    · rw [if_pos hi]
      dsimp only
      rw [ih (i + 1)]
      constructor
      · intro h j hj
        cases j with
        | zero => exact hi
        | succ j =>
          rw [show i + (j + 1) = i + 1 + j by omega]
          exact h j (by simpa using hj)
      · intro h j hj
        rw [show i + 1 + j = i + (j + 1) by omega]
        exact h (j + 1) (by simpa using hj)
    · rw [if_neg hi]
      simp only [Bool.false_eq_true, false_iff]
      intro h
      exact hi (h 0 (by simp))

theorem hardwareTso_calls (accept : ℕ → Bool) (r : EopScan) (mss i : ℕ) {unit : List Segment} (h : unit ≠ []) :
    (hardwareTso accept r mss unit i).1 ≠ [] := by
  cases unit with
  | nil => exact absurd rfl h
  | cons s rest =>
    rw [hardwareTso]
    split <;> simp

theorem sent_calls {accept : ℕ → Bool} {t : TsoState} {segs : List Segment} {sent : Sent}
    (h : triggerTxPacket accept t segs = .ok (some sent)) : sent.calls ≠ [] := by
  obtain ⟨s, tail, inner, e, rest, -, hd, -, -, h⟩ := triggerTxPacket_sent h
  unfold sendUnit at h
  split at h
  · cases h
  · dsimp only at h
    split at h
    · cases h
      rw [unit_take hd]
      exact hardwareTso_calls _ _ _ _ (by simp)
    · obtain ⟨c, -, h⟩ := bind_ok h
      split at h
      · cases h
      · split at h
        · obtain ⟨x, hx, h⟩ := bind_ok h
          cases h
          unfold sendTso at hx
          dsimp only at hx
          split at hx
          · cases hx
          · split at hx <;> cases hx <;> simp
        · unfold sendPlain at h
          dsimp only at h
          split at h <;> cases h
          simp

end Vmux.TxUnits
