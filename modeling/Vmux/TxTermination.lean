import Vmux.TxUnits

namespace Vmux.TxTermination

open DescriptorQueue LanTx TxUnits

/-- The data descriptors up to the first EOP bit. -/
def dataUnit : List Segment → List Segment
  | [] => []
  | s :: rest => if cmdEop s.d1 then [s] else s :: dataUnit rest

def unitOf (segs : List Segment) : List Segment :=
  match segs with
  | [] => []
  | s :: _ => dataUnit (segs.drop (lead s).dSkip)

def headerLen (unit : List Segment) : ℕ :=
  match unit.getLast? with
  | some e => maclen e.d1 + iplen e.d1 + l4len e.d1
  | none => 0

def remaining (t : TsoState) (segs : List Segment) : ℕ := bufSzSum (unitOf segs) - t.tsoOff

def Decreases (t : TsoState) (segs : List Segment) (t' : TsoState) (segs' : List Segment) : Prop :=
  segs'.length < segs.length ∨ segs'.length = segs.length ∧ remaining t' segs' < remaining t segs

def HardwareTakes (accept : ℕ → Bool) (t : TsoState) (unit : List Segment) : Prop :=
  t.tsoLen = 0 ∧ t.tsoOff = 0 ∧ ∀ i < unit.length, accept (1 + i) = true

/-- When a call on these descriptors has something to send. -/
def Moves (accept : ℕ → Bool) (t : TsoState) (segs : List Segment) : Prop :=
  match segs with
  | [] => True
  | s :: _ =>
    if (lead s).tso then
      HardwareTakes accept t (unitOf segs) ∨ bufSzSum (unitOf segs) ≤ t.tsoOff ∨
        0 < (if t.tsoOff = 0 then headerLen (unitOf segs) else 0) + (lead s).mss
    else (lead s).dSkip = 1 ∨ 0 < bufSzSum (unitOf segs)

theorem dataUnit_split {inner rest : List Segment} {e : Segment} (h : ∀ s ∈ inner, Inner s) (he : Last e) :
    dataUnit (inner ++ e :: rest) = inner ++ [e] := by
  induction inner with
  | nil => simp [dataUnit, he.2]
  | cons s inner ih =>
    have hs := (h s (by simp)).2
    rw [List.cons_append, dataUnit, hs, if_neg (by decide), ih fun x hx => h x (List.mem_cons_of_mem s hx)]
    rfl

theorem lead_dSkip (s : Segment) : (lead s).dSkip ≤ 1 := by
  unfold lead
  split <;> simp

theorem lead_tso {s : Segment} (h : (lead s).tso = true) : (lead s).dSkip = 1 := by
  unfold lead at h ⊢
  split at h
  · rw [if_pos (by assumption)]
  · cases h

theorem length_drop_lt {segs : List Segment} {n : ℕ} (hs : segs ≠ []) (hn : 0 < n) :
    (segs.drop n).length < segs.length := by
  have := List.length_pos_iff.mpr hs
  rw [List.length_drop]
  omega

theorem decreases_pop {t t' : TsoState} {segs : List Segment} {n : ℕ} (hs : segs ≠ []) (hn : 0 < n) :
    Decreases t segs t' (segs.drop n) := .inl (length_drop_lt hs hn)

theorem decreases_stay (t t' : TsoState) (segs : List Segment) :
    Decreases t segs t' (segs.drop 0) ↔ remaining t' segs < remaining t segs := by
  simp [Decreases]

theorem sendTso_ok {mss : ℕ} {r : EopScan} {c : Copy} {sent : Sent} (h : sendTso mss r c = .ok sent) :
    (c.tso.tsoOff < r.totalLen ∧ sent.popped = 0 ∧ sent.tso.tsoOff = c.tso.tsoOff ∧
        sent.tso.tsoLen = r.maclen + r.iplen + r.l4len) ∨
      (r.totalLen ≤ c.tso.tsoOff ∧ sent.popped = c.dcnt ∧ sent.tso.tsoOff = 0 ∧ sent.tso.tsoLen = 0) := by
  unfold sendTso at h
  dsimp only at h
  split at h
  · cases h
  · split at h
    · cases h
      exact .inl ⟨by assumption, rfl, rfl, rfl⟩
    · cases h
      exact .inr ⟨by omega, rfl, rfl, rfl⟩

theorem sendPlain_ok {r : EopScan} {c : Copy} {sent : Sent} (h : sendPlain r c = .ok sent) :
    sent.popped = c.dcnt ∧ sent.tso.tsoOff = 0 ∧ sent.tso.tsoLen = 0 := by
  unfold sendPlain at h
  dsimp only at h
  split at h
  · cases h
  · cases h
    exact ⟨rfl, rfl, rfl⟩

theorem sendUnit_ok {accept : ℕ → Bool} {t : TsoState} {segs : List Segment} {l : Lead} {r : EopScan} {sent : Sent}
    (h : sendUnit accept t segs l r = .ok sent) :
    (l.tso = true ∧ t.tsoLen = 0 ∧ t.tsoOff = 0 ∧
      (hardwareTso accept r l.mss ((segs.take r.dcnt).drop l.dSkip) l.dSkip).2 = true ∧ sent.popped = r.dcnt ∧
        sent.tso = t) ∨
    (¬(l.tso = true ∧ t.tsoLen = 0 ∧ t.tsoOff = 0 ∧
        (hardwareTso accept r l.mss ((segs.take r.dcnt).drop l.dSkip) l.dSkip).2 = true) ∧
      ∃ c, copyLoop (dataLimit l r t) (segs.drop l.dSkip) ⟨l.dSkip, 0, t⟩ = .ok c ∧
        ((l.tso = true ∧ ∃ s, sendTso l.mss r c = .ok s ∧ sent.popped = s.popped ∧ sent.tso = s.tso) ∨
          (l.tso = false ∧ sendPlain r c = .ok sent))) := by
  unfold sendUnit at h
  split at h
  · cases h
  · dsimp only at h
    split at h
    · rename_i hw
      cases h
      exact .inl ⟨hw.1, hw.2.1, hw.2.2.1, hw.2.2.2, rfl, rfl⟩
    · rename_i hw
      refine .inr ⟨hw, ?_⟩
      obtain ⟨c, hc, h⟩ := bind_ok h
      refine ⟨c, hc, ?_⟩
      split at h
      · cases h
      · split at h
        · rename_i htso
          obtain ⟨s, hs, h⟩ := bind_ok h
          cases h
          exact .inl ⟨htso, s, hs, rfl, rfl⟩
        · rename_i htso
          exact .inr ⟨by simpa using htso, h⟩

section

variable {accept : ℕ → Bool} {t : TsoState} {segs tail inner rest : List Segment} {s e : Segment} {sent : Sent}

theorem unitOf_split (hs : segs = s :: tail) (hd : segs.drop (lead s).dSkip = inner ++ e :: rest)
    (hin : ∀ x ∈ inner, Inner x) (he : Last e) : unitOf segs = inner ++ [e] := by
  subst hs
  rw [unitOf, hd, dataUnit_split hin he]

theorem tso_decreases (hs : segs = s :: tail) (hd : segs.drop (lead s).dSkip = inner ++ e :: rest)
    (hin : ∀ x ∈ inner, Inner x) (he : Last e) (htso : (lead s).tso = true)
    (h : sendUnit accept t segs (lead s) (EopScan.unit (lead s).dSkip inner e) = .ok sent) :
    Decreases t segs sent.tso (segs.drop sent.popped) ↔ Moves accept t segs := by
  have hunit := unitOf_split hs hd hin he
  have hne : segs ≠ [] := by simp [hs]
  have hskip := lead_tso htso
  have htotal : (EopScan.unit (lead s).dSkip inner e).totalLen = bufSzSum (unitOf segs) := by
    rw [hunit]
    rfl
  have hmoves : Moves accept t segs ↔ HardwareTakes accept t (unitOf segs) ∨ bufSzSum (unitOf segs) ≤ t.tsoOff ∨
      0 < (if t.tsoOff = 0 then headerLen (unitOf segs) else 0) + (lead s).mss := by
    subst hs
    simp only [Moves, htso, if_true]
  have hhw : ((hardwareTso accept (EopScan.unit (lead s).dSkip inner e) (lead s).mss
      ((segs.take (EopScan.unit (lead s).dSkip inner e).dcnt).drop (lead s).dSkip) (lead s).dSkip).2 = true) ↔
      ∀ i < (unitOf segs).length, accept (1 + i) = true := by
    rw [hardwareTso_accepts, unit_take hd, hunit, hskip]
  rw [hmoves]
  rcases sendUnit_ok h with ⟨-, hlen, hoff, hacc, hpop, -⟩ | ⟨hnot, c, hc, ⟨-, x, hx, hpop, hst⟩ | ⟨hf, -⟩⟩
  · have hpos : 0 < sent.popped := by
      rw [hpop]
      simp [EopScan.unit]
    exact iff_of_true (decreases_pop hne hpos) (.inl ⟨hlen, hoff, hhw.mp hacc⟩)
  · have hno : ¬HardwareTakes accept t (unitOf segs) := fun hw =>
      hnot ⟨htso, hw.1, hw.2.1, hhw.mpr hw.2.2⟩
    have hlimit : dataLimit (lead s) (EopScan.unit (lead s).dSkip inner e) t =
        min ((if t.tsoOff = 0 then headerLen (unitOf segs) else t.tsoOff) + (lead s).mss)
          (bufSzSum (unitOf segs)) := by
      rw [dataLimit, if_pos htso, htotal, hunit]
      split <;> simp [headerLen, EopScan.unit]
    have hsum : bufSzSum (unitOf segs) ≤ pktLenSum (segs.drop (lead s).dSkip) := by
      rw [hunit, hd, List.append_cons]
      refine (bufSzSum_le _).trans ?_
      simp [pktLenSum]
    have hmono := copyLoop_mono hc
    dsimp only at hmono
    by_cases hgo : bufSzSum (unitOf segs) ≤ t.tsoOff ∨
        0 < (if t.tsoOff = 0 then headerLen (unitOf segs) else 0) + (lead s).mss
    · refine iff_of_true ?_ (.inr hgo)
      rcases sendTso_ok hx with ⟨hlt, hp, ho, -⟩ | ⟨-, hp, -⟩
      · rw [hpop, hp, decreases_stay, remaining, remaining, hst, ho]
        rw [htotal] at hlt
        have hadv := copyLoop_advances hc (Nat.zero_le _)
        dsimp only at hadv
        rw [hlimit] at hadv
        have hbelow : t.tsoOff < bufSzSum (unitOf segs) := by omega
        have hpos := hgo.resolve_left (by omega)
        have := hadv (lt_min (by split at hpos <;> split <;> omega) hbelow) (by omega)
        omega
      · refine decreases_pop hne ?_
        rw [hpop, hp]
        omega
    · refine iff_of_false ?_ (fun hm => hgo (hm.resolve_left hno))
      have hbelow : t.tsoOff < bufSzSum (unitOf segs) := by omega
      have hstay := copyLoop_stays hc (by
        rw [hlimit]
        refine (min_le_left _ _).trans ?_
        dsimp only
        split at hgo <;> split <;> omega)
      dsimp only at hstay
      rcases sendTso_ok hx with ⟨-, hp, ho, -⟩ | ⟨hge, -⟩
      · rw [hpop, hp, decreases_stay, remaining, remaining, hst, ho, hstay]
        exact lt_irrefl _
      · rw [htotal] at hge
        omega
  · rw [htso] at hf
    cases hf

theorem plain_decreases (hs : segs = s :: tail) (hd : segs.drop (lead s).dSkip = inner ++ e :: rest)
    (hin : ∀ x ∈ inner, Inner x) (he : Last e) (htso : (lead s).tso = false)
    (h : sendUnit accept t segs (lead s) (EopScan.unit (lead s).dSkip inner e) = .ok sent) :
    Decreases t segs sent.tso (segs.drop sent.popped) ↔ Moves accept t segs := by
  have hunit := unitOf_split hs hd hin he
  have hne : segs ≠ [] := by simp [hs]
  have hmoves : Moves accept t segs ↔ (lead s).dSkip = 1 ∨ 0 < bufSzSum (unitOf segs) := by
    subst hs
    simp [Moves, htso]
  rw [hmoves]
  rcases sendUnit_ok h with ⟨hf, -⟩ | ⟨-, c, hc, ⟨hf, -⟩ | ⟨-, hp⟩⟩
  · rw [htso] at hf
    cases hf
  · rw [htso] at hf
    cases hf
  · obtain ⟨hpop, hoff, -⟩ := sendPlain_ok hp
    have hlimit : dataLimit (lead s) (EopScan.unit (lead s).dSkip inner e) t = bufSzSum (unitOf segs) := by
      rw [dataLimit, htso, hunit]
      rfl
    rw [hlimit] at hc
    have hmono := (copyLoop_mono hc).1
    dsimp only at hmono
    by_cases hgo : (lead s).dSkip = 1 ∨ 0 < bufSzSum (unitOf segs)
    · refine iff_of_true (decreases_pop hne ?_) hgo
      rw [hpop]
      rcases hgo with hskip | hpos
      · omega
      · obtain ⟨x, xs, hx⟩ : ∃ x xs, segs.drop (lead s).dSkip = x :: xs := by
          rw [hd]
          cases inner with
          | nil => exact ⟨e, rest, rfl⟩
          | cons y ys => exact ⟨y, ys ++ e :: rest, rfl⟩
        rw [hx] at hc
        have := copyLoop_dcnt hc hpos
        dsimp only at this
        omega
    · refine iff_of_false ?_ hgo
      have hskip : (lead s).dSkip = 0 := by
        have := lead_dSkip s
        omega
      have hzero : bufSzSum (unitOf segs) = 0 := by omega
      have hdcnt : c.dcnt = 0 := by
        rw [hzero, hd] at hc
        cases inner with
        | nil =>
          rcases copyLoop_cons hc with ⟨-, rfl⟩ | ⟨hlt, -⟩
          · exact hskip
          · cases hlt
        | cons y ys =>
          rcases copyLoop_cons hc with ⟨-, rfl⟩ | ⟨hlt, -⟩
          · exact hskip
          · cases hlt
      rw [hpop, hdcnt, decreases_stay, remaining, remaining, hoff, hzero]
      omega

theorem sent_decreases_iff (h : triggerTxPacket accept t segs = .ok (some sent)) :
    Decreases t segs sent.tso (segs.drop sent.popped) ↔ Moves accept t segs := by
  obtain ⟨s, tail, inner, e, rest, hs, hd, hin, he, h⟩ := triggerTxPacket_sent h
  cases htso : (lead s).tso with
  | true => exact tso_decreases hs hd hin he htso h
  | false => exact plain_decreases hs hd hin he htso h

/-- Before the first segment of a unit nothing stands in `pktbuf`. -/
def Consistent (t : TsoState) : Prop := t.tsoOff = 0 → t.tsoLen = 0

theorem sent_consistent (ht : Consistent t) (h : triggerTxPacket accept t segs = .ok (some sent)) :
    Consistent sent.tso := by
  obtain ⟨s, tail, inner, e, rest, hs, hd, hin, he, h⟩ := triggerTxPacket_sent h
  rcases sendUnit_ok h with ⟨-, -, -, -, -, hst⟩ | ⟨-, c, hc, ⟨htso, x, hx, -, hst⟩ | ⟨-, hp⟩⟩
  · rw [hst]
    exact ht
  · rw [hst]
    rcases sendTso_ok hx with ⟨hlt, -, ho, hl⟩ | ⟨-, -, -, hl⟩
    · intro hzero
      rw [ho] at hzero
      by_contra hne
      have hunit := bufSzSum_le (inner ++ [e])
      have hsum : bufSzSum (inner ++ [e]) ≤ pktLenSum (segs.drop (lead s).dSkip) := by
        rw [hd]
        refine hunit.trans ?_
        simp [pktLenSum]
      have hmono := (copyLoop_mono hc).2
      have hadv := copyLoop_advances hc (Nat.zero_le _)
      have hoff : t.tsoOff = 0 := Nat.le_zero.mp (hzero ▸ hmono)
      dsimp only at hadv
      rw [dataLimit, if_pos htso, if_pos hoff, hoff, hzero] at hadv
      have htotal : (EopScan.unit (lead s).dSkip inner e).totalLen = bufSzSum (inner ++ [e]) := rfl
      exact absurd (hadv (by omega) (by omega)) (lt_irrefl 0)
    · exact fun _ => hl
  · exact fun _ => (sendPlain_ok hp).2.2

theorem stall_persists (ht : Consistent t) (h : triggerTxPacket accept t segs = .ok (some sent))
    (hm : ¬Moves accept t segs) : segs.drop sent.popped = segs ∧ ¬Moves accept sent.tso segs := by
  have hdec : ¬Decreases t segs sent.tso (segs.drop sent.popped) := fun hd => hm ((sent_decreases_iff h).mp hd)
  have hcons := sent_consistent ht h
  obtain ⟨s, tail, inner, e, rest, hs, hd, hin, he, h⟩ := triggerTxPacket_sent h
  have hne : segs ≠ [] := by simp [hs]
  have hpop : sent.popped = 0 := by
    by_contra hp
    exact hdec (decreases_pop hne (by omega))
  refine ⟨by rw [hpop, List.drop_zero], ?_⟩
  have hsame : (lead s).tso = true → sent.tso.tsoOff = t.tsoOff := by
    intro htso
    rw [hpop, decreases_stay, remaining, remaining] at hdec
    rcases sendUnit_ok h with ⟨-, -, -, -, hp, -⟩ | ⟨-, c, hc, ⟨-, x, hx, hp, hst⟩ | ⟨hf, -⟩⟩
    · rw [hpop] at hp
      simp [EopScan.unit] at hp
    · have hmono := copyLoop_mono hc
      have hskip := lead_tso htso
      rcases sendTso_ok hx with ⟨hlt, -, ho, -⟩ | ⟨-, hp', -⟩
      · have htotal : (EopScan.unit (lead s).dSkip inner e).totalLen = bufSzSum (unitOf segs) := by
          rw [unitOf_split hs hd hin he]
          rfl
        rw [hst, ho] at hdec ⊢
        dsimp only at hmono
        omega
      · dsimp only at hmono
        omega
    · rw [htso] at hf
      cases hf
  subst hs
  unfold Moves at hm ⊢
  dsimp only at hm ⊢
  cases htso : (lead s).tso with
  | false =>
    rw [htso, if_neg Bool.false_ne_true] at hm
    rw [if_neg Bool.false_ne_true]
    exact hm
  | true =>
    rw [htso, if_pos rfl] at hm
    rw [if_pos rfl, hsame htso]
    refine fun hgo => hm (hgo.imp_left fun hw => ?_)
    have hoff : t.tsoOff = 0 := hsame htso ▸ hw.2.1
    exact ⟨ht hoff, hoff, hw.2.2⟩

end

/-- The state after `k` turns of the loop in `trigger_tx`, or `none` once it has ended. -/
def turns (accepts : ℕ → ℕ → Bool) : ℕ → TsoState → List Segment →
    Except Fault (Option (TsoState × List Segment))
  | 0, t, segs => .ok (some (t, segs))
  | k + 1, t, segs => do
    match ← triggerTxPacket (accepts 0) t segs with
    | none => .ok none
    | some sent => turns (fun i => accepts (i + 1)) k sent.tso (segs.drop sent.popped)

theorem turns_succ {accepts : ℕ → ℕ → Bool} {t : TsoState} {segs : List Segment} {sent : Sent}
    (h : triggerTxPacket (accepts 0) t segs = .ok (some sent)) (k : ℕ) :
    turns accepts (k + 1) t segs = turns (fun i => accepts (i + 1)) k sent.tso (segs.drop sent.popped) := by
  rw [turns, h]
  rfl

theorem turns_succ_const {accept : ℕ → Bool} {t : TsoState} {segs : List Segment} {sent : Sent}
    (h : triggerTxPacket accept t segs = .ok (some sent)) (k : ℕ) :
    turns (fun _ => accept) (k + 1) t segs = turns (fun _ => accept) k sent.tso (segs.drop sent.popped) :=
  @turns_succ (fun _ => accept) t segs sent h k

def measure (t : TsoState) (segs : List Segment) : ℕ ×ₗ ℕ := toLex (segs.length, remaining t segs)

theorem turns_end (accepts : ℕ → ℕ → Bool) (t : TsoState) (segs : List Segment)
    (h : ∀ k t' segs' sent, turns accepts k t segs = .ok (some (t', segs')) →
      triggerTxPacket (accepts k) t' segs' = .ok (some sent) → Moves (accepts k) t' segs') :
    ∃ k, turns accepts k t segs = .ok none ∨ ∃ f, turns accepts k t segs = .error f := by
  induction hm : measure t segs using WellFoundedLT.induction generalizing accepts t segs with
  | ind m ih =>
    subst hm
    cases hp : triggerTxPacket (accepts 0) t segs with
    | error f =>
      refine ⟨1, .inr ⟨f, ?_⟩⟩
      rw [turns, hp]
      rfl
    | ok r =>
      cases r with
      | none =>
        refine ⟨1, .inl ?_⟩
        rw [turns, hp]
        rfl
      | some sent =>
        have hdec := (sent_decreases_iff hp).mpr (h 0 t segs sent rfl hp)
        have hlt : measure sent.tso (segs.drop sent.popped) < measure t segs := by
          rw [measure, measure, Prod.Lex.toLex_lt_toLex]
          exact hdec
        obtain ⟨k, hk⟩ := ih _ hlt (fun i => accepts (i + 1)) sent.tso (segs.drop sent.popped)
          (fun k t' segs' sent' hk => h (k + 1) t' segs' sent' (by rw [turns_succ hp, hk])) rfl
        refine ⟨k + 1, ?_⟩
        rw [turns_succ hp]
        exact hk

theorem packet_complete {accept accept' : ℕ → Bool} {t t' : TsoState} {segs : List Segment} {sent : Sent}
    (h : triggerTxPacket accept t segs = .ok (some sent)) : triggerTxPacket accept' t' segs ≠ .ok none := by
  obtain ⟨s, tail, inner, e, rest, rfl, hd, hin, he, -⟩ := triggerTxPacket_sent h
  intro hnone
  obtain ⟨r, hr, hnone⟩ := bind_ok hnone
  rw [hd, eopScan_unit _ hin he] at hr
  cases hr
  obtain ⟨x, -, hnone⟩ := bind_ok hnone
  cases hnone

theorem turns_stalled {accept : ℕ → Bool} {t : TsoState} {segs : List Segment} (ht : Consistent t)
    (hm : ¬Moves accept t segs) (hc : ∀ t', triggerTxPacket accept t' segs ≠ .ok none) (k : ℕ) :
    turns (fun _ => accept) k t segs ≠ .ok none := by
  induction k generalizing t with
  | zero =>
    intro h
    cases h
  | succ k ih =>
    cases hp : triggerTxPacket accept t segs with
    | error f =>
      rw [turns, hp]
      intro h
      cases h
    | ok r =>
      cases r with
      | none => exact absurd hp (hc t)
      | some sent =>
        obtain ⟨hsegs, hm'⟩ := stall_persists ht hp hm
        rw [turns_succ_const hp, hsegs]
        exact ih (sent_consistent ht hp) hm'

theorem turns_not_end {accept : ℕ → Bool} {t t' : TsoState} {segs segs' : List Segment} {k : ℕ} (ht : Consistent t)
    (hk : turns (fun _ => accept) k t segs = .ok (some (t', segs')))
    {sent : Sent} (hc : triggerTxPacket accept t' segs' = .ok (some sent)) (hm : ¬Moves accept t' segs') (n : ℕ) :
    turns (fun _ => accept) n t segs ≠ .ok none := by
  induction k generalizing t segs n with
  | zero =>
    cases hk
    exact turns_stalled ht hm (fun _ => packet_complete hc) n
  | succ k ih =>
    cases hp : triggerTxPacket accept t segs with
    | error f =>
      rw [turns, hp] at hk
      cases hk
    | ok r =>
      cases r with
      | none =>
        rw [turns, hp] at hk
        cases hk
      | some sent =>
        cases n with
        | zero =>
          intro hn
          cases hn
        | succ n =>
          rw [turns_succ_const hp] at hk ⊢
          exact ih (sent_consistent ht hp) hk n

theorem trigger_tx_ends (t : TsoState) (segs : List Segment) :
    (∀ accept sent, triggerTxPacket accept t segs = .ok (some sent) →
      (Decreases t segs sent.tso (segs.drop sent.popped) ↔ Moves accept t segs)) ∧
    (∀ accepts,
      (∀ k t' segs' sent, turns accepts k t segs = .ok (some (t', segs')) →
        triggerTxPacket (accepts k) t' segs' = .ok (some sent) → Moves (accepts k) t' segs') →
      ∃ k, turns accepts k t segs = .ok none ∨ ∃ f, turns accepts k t segs = .error f) ∧
    (∀ accept, Consistent t → (∀ k f, turns (fun _ => accept) k t segs ≠ .error f) →
      ((∃ k, turns (fun _ => accept) k t segs = .ok none) ↔
        ∀ k t' segs' sent, turns (fun _ => accept) k t segs = .ok (some (t', segs')) →
          triggerTxPacket accept t' segs' = .ok (some sent) → Moves accept t' segs')) := by
  refine ⟨fun accept sent => sent_decreases_iff, fun accepts => turns_end accepts t segs, ?_⟩
  intro accept ht hok
  constructor
  · rintro ⟨n, hn⟩ k t' segs' sent hk hc
    by_contra hm
    exact turns_not_end ht hk hc hm n hn
  · intro h
    obtain ⟨k, hk | ⟨f, hf⟩⟩ := turns_end (fun _ => accept) t segs h
    · exact ⟨k, hk⟩
    · exact absurd hf (hok k f)

/-- A data descriptor with the EOP and RS bits and a buffer of size zero. -/
def emptyPacket : Segment := ⟨0, 0x30, []⟩

def idle : TsoState := ⟨0, 0, List.replicate mtu 0⟩

theorem turns_emptyPacket (accepts : ℕ → ℕ → Bool) (k : ℕ) :
    turns accepts k idle [emptyPacket] = .ok (some (idle, [emptyPacket])) := by
  induction k generalizing accepts with
  | zero => rfl
  | succ k ih =>
    have hp : triggerTxPacket (accepts 0) idle [emptyPacket] = .ok (some ⟨idle, 0, [.ethSend []]⟩) := rfl
    rw [turns_succ hp]
    exact ih _

theorem trigger_tx_hangs :
    ¬(∀ accepts t segs, (∀ k f, turns accepts k t segs ≠ .error f) → ∃ k, turns accepts k t segs = .ok none) ∧
    ¬(∀ accept t segs sent, triggerTxPacket accept t segs = .ok (some sent) →
      Decreases t segs sent.tso (segs.drop sent.popped)) := by
  constructor
  · intro h
    obtain ⟨k, hk⟩ := h (fun _ _ => true) idle [emptyPacket] fun k f hf => by
      rw [turns_emptyPacket] at hf
      cases hf
    rw [turns_emptyPacket] at hk
    cases hk
  · intro h
    have hp : triggerTxPacket (fun _ => true) idle [emptyPacket] = .ok (some ⟨idle, 0, [.ethSend []]⟩) := rfl
    have := h _ _ _ _ hp
    simp [Decreases] at this

end Vmux.TxTermination
