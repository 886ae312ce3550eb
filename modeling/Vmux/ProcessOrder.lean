import Vmux.RingSteps

namespace Vmux.ProcessOrder

open Bytes CircularWindow Transitions Ownership DescriptorQueue

/-- The calls of `process()`, each with the context and the ring index it is made on. -/
def processes (log : List Event) : List (Slot × ℕ) :=
  log.filterMap fun e => match e with
    | .process p idx => some (p, idx)
    | _ => none

theorem processes_append (a b : List Event) : processes (a ++ b) = processes a ++ processes b :=
  List.filterMap_append

theorem processes_eq_nil {log : List Event} (h : ∀ p idx, Event.process p idx ∉ log) : processes log = [] := by
  rw [processes, List.filterMap_eq_nil_iff]
  intro x hx
  cases x with
  | process p idx => exact absurd hx (h p idx)
  | _ => rfl

theorem processes_effect {σ κ : Type} (e : Effect σ κ) :
    processes (e.calls.map Event.call ++ e.write.toList.map fun w => .dataWrite w.1 w.2.1 w.2.2) = [] :=
  processes_eq_nil (by simp)

def key (t : Turn) : Slot × ℕ := (t.slot, t.idx)

def Called (s : DescState) : Prop := DescState.prepared.code < s.code

instance (s : DescState) : Decidable (Called s) := inferInstanceAs (Decidable (_ < _))

section

variable {ε ι σ κ : Type} {S : Subclass ε ι σ κ} {env : Env ε} {c c' : Config σ κ} {cmd : Cmd κ}
  {rest : List (Cmd κ)} {base len done : ℕ}

/-- `process()` has been called on a prefix of the descriptors fetched so far, in order. -/
def InOrder (c : Config σ κ) : Prop := processes c.log <+: (fetched c.q.descLen c.log).map key

/-- The contexts on which `process()` has been called are the first ones of the window. -/
structure Ordered (base len : ℕ) (c : Config σ κ) (done : ℕ) : Prop where
  ringed : Ringed base len c done
  waiting : ∀ i, c.q.firstUnprocessed ≤ i → i < c.q.activeCnt → ¬Called (c.q.stateAt (c.q.activeFirstPos + i))
  log : processes c.log = (turns base len c.q.descLen (done + c.q.firstUnprocessed)).map key

theorem firstUnprocessed_le (q : QueueBase) : q.firstUnprocessed ≤ q.activeCnt := scan_le _ _

theorem called_of_lt {q : QueueBase} {i : ℕ} (h : i < q.firstUnprocessed) :
    Called (q.stateAt (q.activeFirstPos + i)) := by
  have hp := scan_pass h
  simpa [Called] using hp

theorem firstUnprocessed_eq {q : QueueBase} {f : ℕ} (hf : f ≤ q.activeCnt)
    (hlt : ∀ i < f, Called (q.stateAt (q.activeFirstPos + i)))
    (hge : f < q.activeCnt → ¬Called (q.stateAt (q.activeFirstPos + f))) : q.firstUnprocessed = f := by
  apply scan_eq hf
  · intro i hi
    simpa [Called] using hlt i hi
  · intro hlt
    simpa [Called] using hge hlt

theorem Ordered.inOrder (h : Ordered base len c done) : InOrder c := by
  unfold InOrder
  rw [h.log, h.ringed.fetched_eq]
  have hle := firstUnprocessed_le c.q
  exact (turns_mono (by omega)).map key

theorem Ordered.congr (h : Ordered base len c done) (hr : c'.q.ring = c.q.ring)
    (hlog : fetched c.q.descLen c'.log = fetched c.q.descLen c.log) (hp : processes c'.log = processes c.log)
    (hcalled : ∀ i < c.q.activeCnt, Called (c'.q.stateAt (c.q.activeFirstPos + i)) ↔
      Called (c.q.stateAt (c.q.activeFirstPos + i))) :
    Ordered base len c' done ∧ c'.q.firstUnprocessed = c.q.firstUnprocessed := by
  obtain ⟨-, -, h3, -, -, h6, -, h8⟩ := Ring.mk.inj hr
  change c'.q.activeFirstPos = c.q.activeFirstPos at h6
  change c'.q.activeCnt = c.q.activeCnt at h8
  have hle := firstUnprocessed_le c.q
  have hf : c'.q.firstUnprocessed = c.q.firstUnprocessed := by
    apply firstUnprocessed_eq
    · rw [h8]
      exact hle
    · intro i hi
      rw [h6, hcalled i (by omega)]
      exact called_of_lt hi
    · intro hlt
      rw [h8] at hlt
      rw [h6, hcalled _ hlt]
      exact h.waiting _ le_rfl hlt
  refine ⟨⟨h.ringed.congr hr hlog, ?_, ?_⟩, hf⟩
  · intro i hi hlt
    rw [h8] at hlt
    rw [hf] at hi
    rw [h6, hcalled i hlt]
    exact h.waiting i hi hlt
  · rw [hp, hf, h.log, h3]

theorem Ordered.pop (h : Ordered base len c done) (rest : List (Cmd κ)) :
    Ordered base len { c with stack := rest } done := by
  refine (Ordered.congr h ?_ ?_ ?_ ?_).1
  · rfl
  · rfl
  · rfl
  · exact fun _ _ => Iff.rfl

theorem stateAt_fetched (hi : Inv S c) {i : ℕ} (h : i < c.q.activeCnt + c.q.fetchCnt) :
    c.q.beginFetch.stateAt (c.q.activeFirstPos + i) =
      if i < c.q.activeCnt then c.q.stateAt (c.q.activeFirstPos + i) else .fetching := by
  have hl : 0 < c.q.len := Nat.lt_of_le_of_lt (Nat.zero_le _) hi.window.idx_lt
  have hb := (fetchCnt_bounds c.q hl).2.1
  have hc := hi.window.cnt_le
  have ho : offset c.q.activeFirstPos (slot maxActiveDescs (c.q.activeFirstPos + i)) = i :=
    offset_slot _ _ (by omega)
  rw [stateAt_eq, states_beginFetch, stateAt_eq]
  by_cases hlt : i < c.q.activeCnt
  · have hw := offset_fetchPos_wrap c.q (slot maxActiveDescs (c.q.activeFirstPos + i)) (by omega) hc
    rw [ho] at hw
    rw [if_pos hlt, if_neg (by omega)]
  · have hw := offset_fetchPos c.q (slot maxActiveDescs (c.q.activeFirstPos + i)) (by omega)
    rw [ho] at hw
    rw [if_neg hlt, if_pos (by omega)]

theorem Ordered.fetch (h : Ordered base len c done) (hi : Inv S c) (hq : c'.q = c.q.beginFetch)
    (hlog : ringLog c'.log = ringLog c.log ++ [.fetch c.q.fetchPos c.q.nextIdx c.q.fetchCnt c.q.fetchAddr])
    (hp : processes c'.log = processes c.log) : Ordered base len c' done := by
  have hl : 0 < c.q.len := Nat.lt_of_le_of_lt (Nat.zero_le _) hi.window.idx_lt
  have hle := firstUnprocessed_le c.q
  have hcnt : c'.q.activeCnt = c.q.activeCnt + c.q.fetchCnt := by rw [hq]; rfl
  have hpos : c'.q.activeFirstPos = c.q.activeFirstPos := by rw [hq]; rfl
  have hst : ∀ i < c.q.activeCnt + c.q.fetchCnt, c'.q.stateAt (c.q.activeFirstPos + i) =
      if i < c.q.activeCnt then c.q.stateAt (c.q.activeFirstPos + i) else .fetching := by
    intro i hi'
    rw [hq]
    exact stateAt_fetched hi hi'
  have hwait : ∀ i, c.q.firstUnprocessed ≤ i → i < c.q.activeCnt + c.q.fetchCnt →
      ¬Called (c'.q.stateAt (c.q.activeFirstPos + i)) := by
    intro i hi' hlt
    rw [hst i hlt]
    split
    · exact h.waiting i hi' ‹_›
    · decide
  have hf : c'.q.firstUnprocessed = c.q.firstUnprocessed := by
    apply firstUnprocessed_eq
    · omega
    · intro i hi'
      rw [hpos, hst i (by omega), if_pos (by omega)]
      exact called_of_lt hi'
    · intro hlt
      rw [hpos]
      exact hwait _ le_rfl (by omega)
  refine ⟨h.ringed.fetch (h.ringed.len_eq ▸ hl) (by rw [hq]; rfl) hlog, ?_, ?_⟩
  · intro i hi' hlt
    rw [hpos]
    exact hwait i (by omega) (by omega)
  · rw [hp, hf, h.log, hq]
    rfl

theorem Ordered.writebackDone {pos n : ℕ} (h : Ordered base len c done) (hi : Inv S c)
    (hs : c.stack = .writebackDone pos n :: rest) (hq : c'.q = (c.q.markRange pos n .writtenBack).bump)
    (hlog : ringLog c'.log = ringLog c.log) (hp : processes c'.log = processes c.log) :
    Ordered base len c' (done + n) := by
  obtain ⟨hr, hcnt, -, hdl⟩ := h.ringed.writebackDone hi hs hq hlog
  obtain ⟨rfl, hn⟩ := hi.settled.front pos n rest hs
  have hc := hi.window.cnt_le
  have hb := bumpCnt_eq hi.window.cnt_le hn hi.settled.states
  have hpos : c'.q.activeFirstPos = (c.q.activeFirstPos + n) % maxActiveDescs := by
    rw [hq]
    simp only [QueueBase.bump, hb]
    rfl
  -- what is being written back has been processed
  have hle : n ≤ c.q.firstUnprocessed := by
    by_contra hlt
    have hw : c.q.stateAt (c.q.activeFirstPos + c.q.firstUnprocessed) = .writingBack := by
      rw [stateAt_eq]
      refine (hi.running hs).owned.state_eq (List.mem_append_left _ ((mem_rangeClaims_zero (by omega)).mpr ⟨?_, rfl⟩))
      rw [offset_slot _ _ (by omega)]
      omega
    have hwait := h.waiting _ le_rfl (by omega)
    rw [hw] at hwait
    exact hwait (by decide)
  have hst : ∀ i, n + i < c.q.activeCnt →
      c'.q.stateAt (c'.q.activeFirstPos + i) = c.q.stateAt (c.q.activeFirstPos + (n + i)) := by
    intro i hlt
    have hs : slot maxActiveDescs (c'.q.activeFirstPos + i) = slot maxActiveDescs (c.q.activeFirstPos + (n + i)) := by
      rw [hpos, slot_mod_add, Nat.add_assoc]
    rw [stateAt_eq, hs, hq, states_bump hb, offset_slot _ _ (by omega), if_neg (by omega), stateAt_eq]
  have hf' := firstUnprocessed_le c.q
  have hf : c'.q.firstUnprocessed = c.q.firstUnprocessed - n := by
    apply firstUnprocessed_eq
    · omega
    · intro i hi'
      rw [hst i (by omega)]
      exact called_of_lt (by omega)
    · intro hlt
      rw [hst _ (by omega)]
      exact h.waiting _ (by omega) (by omega)
  refine ⟨hr, ?_, ?_⟩
  · intro i hi' hlt
    rw [hst i (by omega)]
    exact h.waiting _ (by omega) (by omega)
  · rw [hp, hf, h.log, hdl, show done + n + (c.q.firstUnprocessed - n) = done + c.q.firstUnprocessed by omega]

theorem turns_succ (base len descLen n : ℕ) :
    turns base len descLen (n + 1) = turns base len descLen n ++ [turn base len descLen n] := by
  unfold turns
  rw [List.range_succ, List.map_append]
  rfl

section

variable {i j : ℕ} {e : Effect σ κ}

theorem applied_fetched (ha : Applied (enterProcess c i j) e c') :
    fetched c.q.descLen c'.log = fetched c.q.descLen c.log := by
  apply fetched_congr
  rw [ha.ringLog]
  simp [enterProcess, ringLog, Event.isRing]

theorem applied_processes (ha : Applied (enterProcess c i j) e c') (hw : Window c.q) (hr : Ringed base len c done)
    (hlt : i + j < c.q.activeCnt) : processes c'.log =
      processes c.log ++ [key (turn base len c.q.descLen (done + (i + j)))] := by
  have hx := (hw.active _ hlt).2
  rw [ha.log, processes_append, processes_effect, List.append_nil]
  unfold enterProcess
  rw [processes_append]
  congr 1
  change [(_, (c.q.ctx (c.q.activeFirstPos + (i + j))).index)] = _
  rw [hx, key, turn, hr.pos_eq, slot_mod_add, hr.first_eq, hr.len_eq, Nat.mod_add_mod]

theorem applied_called (ha : Applied (enterProcess c i j) e c') {k : ℕ} (hk : k < maxActiveDescs)
    (hij : i + j < maxActiveDescs) : Called (c'.q.stateAt (c.q.activeFirstPos + k)) ↔
      k = i + j ∨ Called (c.q.stateAt (c.q.activeFirstPos + k)) := by
  have hst : (enterProcess c i j).q.states (slot maxActiveDescs (c.q.activeFirstPos + k)) =
      if k = i + j then .processing else c.q.stateAt (c.q.activeFirstPos + k) := by
    unfold enterProcess
    rw [states_setState, Function.update_apply]
    by_cases h : k = i + j
    · rw [if_pos (by rw [h]), if_pos h]
    · rw [if_neg (fun hs => h (slot_injective hk hij hs)), if_neg h]
      rfl
  have ha := ha.states (slot maxActiveDescs (c.q.activeFirstPos + k))
  rw [hst] at ha
  rw [stateAt_eq]
  by_cases h : k = i + j
  · rw [if_pos h] at ha
    rcases ha with ⟨-, hs⟩ | ⟨-, -, hs⟩
    · rw [hs]
      exact iff_of_true (by decide) (.inl h)
    · rw [hs]
      exact iff_of_true (by decide) (.inl h)
  · rw [if_neg h] at ha
    rcases ha with ⟨-, hs⟩ | ⟨-, hb, hs⟩
    · rw [hs]
      exact ⟨.inr, fun h' => h'.resolve_left h⟩
    · rw [hs, hb]
      exact iff_of_true (by decide) (.inr (by decide))

theorem Ordered.process (h : Ordered base len c done) (hw : Window c.q) (ha : Applied (enterProcess c i j) e c')
    (hlt : i + j < c.q.activeCnt) (hij : i + j = c.q.firstUnprocessed) :
    Ordered base len c' done ∧ c'.q.firstUnprocessed = c.q.firstUnprocessed + 1 := by
  have hc := hw.cnt_le
  obtain ⟨-, -, h3, -, -, h6, -, h8⟩ := Ring.mk.inj ha.ring
  change c'.q.descLen = c.q.descLen at h3
  change c'.q.activeFirstPos = c.q.activeFirstPos at h6
  change c'.q.activeCnt = c.q.activeCnt at h8
  have hcalled : ∀ k < c.q.activeCnt, Called (c'.q.stateAt (c.q.activeFirstPos + k)) ↔
      k = i + j ∨ Called (c.q.stateAt (c.q.activeFirstPos + k)) := by
    intro k hk
    exact applied_called ha (by omega) (by omega)
  have hf : c'.q.firstUnprocessed = c.q.firstUnprocessed + 1 := by
    apply firstUnprocessed_eq
    · omega
    · intro k hk
      rw [h6, hcalled k (by omega)]
      by_cases hk' : k = i + j
      · exact .inl hk'
      · exact .inr (called_of_lt (by omega))
    · intro hk
      rw [h6, hcalled _ (by omega)]
      rintro (hk' | hk')
      · omega
      · exact h.waiting _ (by omega) (by omega) hk'
  refine ⟨⟨h.ringed.congr ha.ring (applied_fetched ha), ?_, ?_⟩, hf⟩
  · intro k hk hlt'
    rw [h6, hcalled k (by omega)]
    rintro (hk' | hk')
    · omega
    · exact h.waiting k (by omega) (by omega) hk'
  · rw [applied_processes ha hw h.ringed hlt, hij, hf, h3, ← Nat.add_assoc, turns_succ, List.map_append, h.log]
    rfl

theorem Ordered.overtaken (h : Ordered base len c done) (hw : Window c.q) (ha : Applied (enterProcess c i j) e c')
    (hlt : i + j < c.q.activeCnt) (hij : c.q.firstUnprocessed < i + j) : ¬InOrder c' := by
  have hc := hw.cnt_le
  obtain ⟨-, -, h3, -, -, -, -, -⟩ := Ring.mk.inj ha.ring
  change c'.q.descLen = c.q.descLen at h3
  unfold InOrder
  rw [applied_processes ha hw h.ringed hlt, h.log, h3, applied_fetched ha, h.ringed.fetched_eq,
    show done + c.q.activeCnt = done + c.q.firstUnprocessed + 1 + (c.q.activeCnt - c.q.firstUnprocessed - 1) by omega]
  intro hp
  have ht : turns base len c.q.descLen (done + c.q.firstUnprocessed + 1) <+: turns base len c.q.descLen
      (done + c.q.firstUnprocessed + 1 + (c.q.activeCnt - c.q.firstUnprocessed - 1)) := turns_mono (by omega)
  have heq := List.prefix_of_prefix_length_le hp (ht.map key) (by simp [turns])
  rw [turns_succ, List.map_append, List.prefix_append_right_inj] at heq
  have hk := List.cons_prefix_cons.mp heq
  have hs := congr_arg Prod.fst hk.1
  change slot maxActiveDescs (done + (i + j)) = slot maxActiveDescs (done + c.q.firstUnprocessed) at hs
  have := slot_injective (by omega) (by omega) hs
  omega

end

/-- Nothing is fetched or freed, and `process()` is not called. -/
def Unmoved (c c' : Config σ κ) : Prop :=
  c'.q.ring = c.q.ring ∧ fetched c.q.descLen c'.log = fetched c.q.descLen c.log ∧
    processes c'.log = processes c.log ∧ ∀ p, Called (c'.q.states p) ↔ Called (c.q.states p)

theorem Unmoved.refl (c : Config σ κ) : Unmoved c c := ⟨rfl, rfl, rfl, fun _ => Iff.rfl⟩

theorem Unmoved.quiet (h : Unmoved c c') (hn : ∀ i j, cmd ≠ .processLoop i j) :
    c'.q.ring = c.q.ring ∧ fetched c.q.descLen c'.log = fetched c.q.descLen c.log ∧
      processes c'.log = processes c.log ∧ (∀ p, Called (c'.q.states p) ↔ Called (c.q.states p)) ∧
      ∀ i j, cmd = .processLoop i j →
        ¬(i + j < c.q.activeCnt ∧ c.q.stateAt (c.q.activeFirstPos + (i + j)) = .prepared) := by
  obtain ⟨h1, h2, h3, h4⟩ := h
  exact ⟨h1, h2, h3, h4, fun i j hc => absurd hc (hn i j)⟩

theorem called_update {st : Slot → DescState} {p : Slot} {s : DescState} (h : Called s ↔ Called (st p)) (r : Slot) :
    Called (Function.update st p s r) ↔ Called (st r) := by
  by_cases hr : r = p
  · subst hr
    rw [Function.update_self]
    exact h
  · rw [Function.update_of_ne hr]

theorem unmoved_triggerWriteback (hi : Inv S c) (he : triggerWriteback S env { c with stack := rest } = .ok c') :
    Unmoved c c' := by
  rcases triggerWriteback_ok (c := { c with stack := rest }) hi.enabled he with ⟨-, rfl⟩ | ⟨-, rfl⟩
  · exact .refl c
  · refine ⟨rfl, ?_, ?_, fun p => ?_⟩
    · unfold fetched
      rw [ringLog_append, List.flatMap_append]
      unfold writebackEvent
      split <;> exact List.append_nil _
    · rw [processes_append]
      unfold writebackEvent
      split <;> exact List.append_nil _
    · rw [states_markRange]
      split
      · rename_i hp
        have hb := writebackCnt_bounds c.q hi.window.idx_lt hi.len_lt
        have hs := states_of_offset (writebackAvail_spec c.q).2 (p := p)
          (by change offset c.q.activeFirstPos p < _ at hp; exact hp.trans_le hb.1)
        rw [hs]
        exact iff_of_true (by decide) (by decide)
      · rfl

theorem unmoved_fetchDone {pos cnt i : ℕ} {buf : List UInt8} (hr : Running S (.fetchDone pos cnt i buf) { c with stack := rest })
    (he : fetchDone S { c with stack := rest } pos cnt i buf = .ok c') : Unmoved c c' := by
  have hfetching : i < cnt → c.q.states (slot maxActiveDescs (pos + i)) = .fetching := by
    intro hlt
    refine hr.owned.state_eq (List.mem_append_left _ ?_)
    rw [Cmd.claims, rangeClaims_succ hlt]
    exact List.mem_cons_self
  rcases fetchDone_ok he with ⟨-, rfl⟩ | ⟨hlt, p, d, q, rfl, -, rfl, ⟨-, rfl⟩ | ⟨addr, len, -, rfl⟩⟩
  · exact .refl c
  · refine ⟨rfl, rfl, rfl, fun p => ?_⟩
    rw [states_setState, Function.update_apply]
    split
    · rename_i hp
      rw [hp, hfetching hlt]
      decide
    · rename_i hp
      simp [QueueBase.states, QueueBase.modify, hp]
  · refine ⟨rfl, rfl, rfl, fun p => ?_⟩
    rw [states_modify _ _ _ (by intro x; unfold growData; split <;> rfl)]
    by_cases hp : p = slot maxActiveDescs (pos + i)
    · have hst := hfetching hlt
      rw [← hp] at hst ⊢
      rw [hst]
      simp [QueueBase.states, QueueBase.modify, Called, DescState.code]
    · simp [QueueBase.states, QueueBase.modify, hp]

theorem unmoved_dataFetch {p : Slot} {addr off total : ℕ} (hp : c.q.states p = .preparing)
    (he : dataFetch env { c with stack := rest } p addr off total = .ok c') : Unmoved c c' := by
  obtain ⟨n, q, -, rfl, hc⟩ := dataFetch_ok he
  have hread : ∀ q stack, Unmoved c { c with q, stack, log := c.log ++ [.dataRead p (addr + off) n] } ↔
      q.ring = c.q.ring ∧ ∀ r, Called (q.states r) ↔ Called (c.q.states r) := by
    intro q stack
    have hf : fetched c.q.descLen (c.log ++ [.dataRead p (addr + off) n]) = fetched c.q.descLen c.log :=
      fetched_congr (by simp [ringLog, Event.isRing])
    simp [Unmoved, hf, processes]
  rcases hc with ⟨-, rfl⟩ | ⟨-, rfl⟩
  · refine (hread _ _).mpr ⟨rfl, fun r => ?_⟩
    rw [states_modify]
    exact fun _ => rfl
  · refine (hread _ _).mpr ⟨rfl, fun r => ?_⟩
    rw [states_setState, states_modify]
    · exact called_update (by rw [hp]; decide) r
    · exact fun _ => rfl

theorem unmoved_dataWritten {p : Slot} (hp : c.q.states p = .processing)
    (he : dataWritten { c with stack := rest } p = .ok c') : Unmoved c c' := by
  rw [dataWritten_ok he]
  refine ⟨rfl, rfl, rfl, fun r => ?_⟩
  rw [states_setState]
  exact called_update (by rw [hp]; decide) r

theorem unmoved_resume {k : κ} (he : resume S env { c with stack := rest } k = .ok c') : Unmoved c c' := by
  obtain ⟨e, -, ha⟩ := resume_ok he
  have ha := applyEffect_applied ha
  refine ⟨ha.ring, fetched_congr ha.ringLog, ?_, fun p => ?_⟩
  · rw [ha.log, processes_append, processes_effect, List.append_nil]
  · rcases ha.states p with ⟨-, h⟩ | ⟨-, h1, h2⟩
    · rw [h]
    · rw [h1, h2]
      decide

/-- A command as the order of the calls of `process()` sees it. -/
theorem exec_order (hi : Inv S c) (hs : c.stack = cmd :: rest)
    (he : exec S env { c with stack := rest } cmd = .ok c') :
    (c'.q.ring = c.q.ring ∧ fetched c.q.descLen c'.log = fetched c.q.descLen c.log ∧
      processes c'.log = processes c.log ∧ (∀ p, Called (c'.q.states p) ↔ Called (c.q.states p)) ∧
      ∀ i j, cmd = .processLoop i j →
        ¬(i + j < c.q.activeCnt ∧ c.q.stateAt (c.q.activeFirstPos + (i + j)) = .prepared)) ∨
    (cmd = .triggerFetch ∧ c'.q = c.q.beginFetch ∧ processes c'.log = processes c.log ∧
      ringLog c'.log = ringLog c.log ++ [.fetch c.q.fetchPos c.q.nextIdx c.q.fetchCnt c.q.fetchAddr]) ∨
    (∃ pos n, cmd = .writebackDone pos n ∧ c'.q = (c.q.markRange pos n .writtenBack).bump ∧
      processes c'.log = processes c.log ∧ ringLog c'.log = ringLog c.log) ∨
    ∃ i j e, cmd = .processLoop i j ∧ i + j < c.q.activeCnt ∧
      c.q.stateAt (c.q.activeFirstPos + (i + j)) = .prepared ∧
      Applied (enterProcess { c with stack := rest } i j) e c' := by
  have hr := hi.running hs
  cases cmd with
  | triggerFetch =>
    rcases triggerFetch_ok (c := { c with stack := rest }) hi.enabled he with ⟨-, rfl⟩ | ⟨-, -, rfl⟩
    · exact .inl (Unmoved.quiet (.refl c) (by simp))
    · exact .inr (.inl ⟨rfl, rfl, by simp [processes], by simp [ringLog, Event.isRing]⟩)
  | triggerProcess =>
    cases he
    rw [triggerProcess_eq (c := { c with stack := rest }) hi.enabled]
    exact .inl (Unmoved.quiet (.refl c) (by simp))
  | triggerWriteback => exact .inl ((unmoved_triggerWriteback hi he).quiet (by simp))
  | processLoop i j =>
    rcases exec_subclass (c := { c with stack := rest }) hi.enabled he with
      hq | ⟨i', j', p, e, hc, -, hlt, hst, -, ha⟩ | ⟨k, e, hc, -⟩
    · obtain ⟨rfl, hn⟩ := hq.cmd.2 i j rfl
      refine .inl ⟨rfl, rfl, rfl, fun _ => Iff.rfl, ?_⟩
      rintro _ _ ⟨⟩
      exact hn
    · cases hc
      exact .inr (.inr (.inr ⟨i, j, e, rfl, hlt, hst, ha⟩))
    · cases hc
  | fetchDone pos cnt i buf => exact .inl ((unmoved_fetchDone hr he).quiet (by simp))
  | dataFetch p addr off total =>
    exact .inl ((unmoved_dataFetch (hr.owned.state_eq (by simp [Cmd.claims])) he).quiet (by simp))
  | dataWritten p => exact .inl ((unmoved_dataWritten (hr.owned.state_eq (by simp [Cmd.claims])) he).quiet (by simp))
  | writebackDone pos n =>
    obtain ⟨-, rfl⟩ := writebackDone_ok (c := { c with stack := rest }) hi.enabled he
    exact .inr (.inr (.inl ⟨pos, n, rfl, rfl, by simp [processes], by simp [ringLog, Event.isRing]⟩))
  | resume k => exact .inl ((unmoved_resume he).quiet (by simp))

/-- The first descriptor not yet processed, if there is one, is not ready for `process()`. -/
def Waits (q : QueueBase) : Prop :=
  ¬(q.firstUnprocessed < q.activeCnt ∧ q.stateAt (q.activeFirstPos + q.firstUnprocessed) = .prepared)

/-- A process loop that runs next is at the first unprocessed descriptor, or that one is not ready. -/
def Sync (q : QueueBase) : List (Cmd κ) → Prop
  | .resume _ :: rest => Sync q rest
  | .processLoop i j :: _ => i + j = q.firstUnprocessed ∨ Waits q
  | .triggerWriteback :: _ => Waits q
  | _ => True

/-- The calls that `trigger` makes follow each other on the stack. -/
def Shaped : List (Cmd κ) → Prop
  | [] => True
  | .triggerFetch :: rest => rest.head? = some .triggerProcess ∧ Shaped rest
  | .triggerProcess :: rest => rest.head? = some .triggerWriteback ∧ Shaped rest
  | .processLoop _ _ :: rest => rest.head? = some .triggerWriteback ∧ Shaped rest
  | _ :: rest => Shaped rest

theorem Shaped.tail (h : Shaped (cmd :: rest)) : Shaped rest := by
  cases cmd <;> first | exact h.2 | exact h

theorem Shaped.trigger (h : Shaped rest) : Shaped (trigger κ ++ rest) := ⟨rfl, rfl, h⟩

theorem Shaped.cmds (h : Shaped rest) (e : Effect σ κ) : Shaped (e.cmds ++ rest) := by
  unfold Effect.cmds
  cases e.write <;> cases e.next <;> exact h

theorem Sync.of_waits {q : QueueBase} (h : Waits q) (stack : List (Cmd κ)) : Sync q stack := by
  induction stack with
  | nil => trivial
  | cons x rest ih =>
    cases x with
    | resume k => exact ih
    | processLoop i j => exact .inr h
    | triggerWriteback => exact h
    | _ => trivial

theorem Sync.congr {q q' : QueueBase} {stack : List (Cmd κ)} (h : Sync q stack)
    (hf : q'.firstUnprocessed = q.firstUnprocessed) (hw : Waits q → Waits q') : Sync q' stack := by
  induction stack with
  | nil => trivial
  | cons x rest ih =>
    cases x with
    | resume k => exact ih h
    | processLoop i j => exact h.imp (fun h => h.trans hf.symm) hw
    | triggerWriteback => exact hw h
    | _ => trivial

theorem Sync.cmds {q : QueueBase} {stack : List (Cmd κ)} (h : Sync q stack) (e : Effect σ κ) :
    Sync q (e.cmds ++ stack) := by
  unfold Effect.cmds
  cases e.write <;> cases e.next <;> first | exact h | trivial

theorem Shaped.exec (h : Shaped (cmd :: rest)) (he : exec S env { c with stack := rest } cmd = .ok c')
    (hen : c.q.enabled = true) : Shaped c'.stack := by
  have ht := h.tail
  cases cmd with
  | triggerFetch =>
    rcases triggerFetch_ok (c := { c with stack := rest }) hen he with ⟨-, rfl⟩ | ⟨-, -, rfl⟩ <;> exact ht
  | triggerProcess =>
    cases he
    rw [triggerProcess_eq (c := { c with stack := rest }) hen]
    exact h
  | triggerWriteback =>
    rcases triggerWriteback_ok (c := { c with stack := rest }) hen he with ⟨-, rfl⟩ | ⟨-, rfl⟩ <;> exact ht
  | processLoop i j =>
    rcases processLoop_ok he with ⟨-, rfl⟩ | ⟨-, -, p, q, e, rfl, rfl, -, ha⟩
    · exact ht
    · rw [(applyEffect_applied ha).stack]
      exact (show Shaped (.processLoop i (j + 1) :: rest) from h).cmds e
  | fetchDone pos cnt i buf =>
    rcases fetchDone_ok he with ⟨-, rfl⟩ | ⟨-, p, d, q, -, -, -, ⟨-, rfl⟩ | ⟨addr, len, -, rfl⟩⟩
    · exact ht.trigger
    · exact ht
    · exact ht
  | dataFetch p addr off total =>
    obtain ⟨n, q, -, -, ⟨-, rfl⟩ | ⟨-, rfl⟩⟩ := dataFetch_ok he
    · exact ht
    · exact ht.trigger
  | dataWritten p =>
    rw [dataWritten_ok he]
    exact ht.trigger
  | writebackDone pos n =>
    rw [(writebackDone_ok (c := { c with stack := rest }) hen he).2]
    exact ht.trigger
  | resume k =>
    obtain ⟨e, -, ha⟩ := resume_ok he
    rw [(applyEffect_applied ha).stack]
    exact ht.cmds e

structure Order (base len : ℕ) (c : Config σ κ) (done : ℕ) : Prop where
  ordered : Ordered base len c done
  sync : Sync c.q c.stack
  shaped : Shaped c.stack

/-- Where the process loop is about to call `process()`, no earlier descriptor is still on its way. -/
def NoneOnItsWay (c : Config σ κ) : Prop :=
  ∀ i j rest, c.stack = .processLoop i j :: rest → i + j < c.q.activeCnt →
    c.q.stateAt (c.q.activeFirstPos + (i + j)) = .prepared →
    ∀ k < i + j, c.q.stateAt (c.q.activeFirstPos + k) ≠ .fetching ∧
      c.q.stateAt (c.q.activeFirstPos + k) ≠ .preparing

/-- The loop is never behind the first unprocessed descriptor, and ahead of it only past one on its way. -/
theorem Order.offset (h : Order base len c done) (hi : Inv S c) {i j : ℕ} (hs : c.stack = .processLoop i j :: rest)
    (hlt : i + j < c.q.activeCnt) (hp : c.q.stateAt (c.q.activeFirstPos + (i + j)) = .prepared) :
    i + j = c.q.firstUnprocessed ∨ (c.q.firstUnprocessed < i + j ∧ ¬NoneOnItsWay c) := by
  have hsync := h.sync
  rw [hs] at hsync
  rcases hsync with hij | hw
  · exact .inl hij
  have hle : c.q.firstUnprocessed ≤ i + j := by
    by_contra hn
    have hc := called_of_lt (q := c.q) (i := i + j) (by omega)
    rw [hp] at hc
    exact absurd hc (by decide)
  rcases Nat.eq_or_lt_of_le hle with heq | hlt'
  · exact .inl heq.symm
  refine .inr ⟨hlt', fun hn => ?_⟩
  have hf := hn i j rest hs hlt hp _ hlt'
  have hwait := h.ordered.waiting _ le_rfl (hlt'.trans hlt)
  have hne := (hi.window.active _ (hlt'.trans hlt)).1
  have hnp : c.q.stateAt (c.q.activeFirstPos + c.q.firstUnprocessed) ≠ .prepared := fun h => hw ⟨hlt'.trans hlt, h⟩
  revert hwait hne hnp hf
  cases c.q.stateAt (c.q.activeFirstPos + c.q.firstUnprocessed) <;> simp [Called, DescState.code]

theorem Waits.of_states {q q' : QueueBase} (hr : q'.ring = q.ring) (hf : q'.firstUnprocessed = q.firstUnprocessed)
    (hp : ∀ p, q'.states p = .prepared → q.states p = .prepared) (h : Waits q) : Waits q' := by
  obtain ⟨-, -, -, -, -, h6, -, h8⟩ := Ring.mk.inj hr
  change q'.activeFirstPos = q.activeFirstPos at h6
  change q'.activeCnt = q.activeCnt at h8
  rintro ⟨hlt, hst⟩
  rw [hf, h8] at hlt
  rw [hf, h6] at hst
  exact h ⟨hlt, hp _ hst⟩

theorem Order.sync_exec (h : Order base len c done) (hi : Inv S c) (hs : c.stack = cmd :: rest)
    (he : exec S env { c with stack := rest } cmd = .ok c')
    (hf : ∀ k, cmd = .resume k → c'.q.firstUnprocessed = c.q.firstUnprocessed)
    (hn : ∀ i j, cmd = .processLoop i j →
      ¬(i + j < c.q.activeCnt ∧ c.q.stateAt (c.q.activeFirstPos + (i + j)) = .prepared)) :
    Sync c'.q c'.stack := by
  have hsync := h.sync
  have hsh := h.shaped
  rw [hs] at hsync hsh
  cases cmd with
  | triggerFetch =>
    rcases triggerFetch_ok (c := { c with stack := rest }) hi.enabled he with ⟨-, rfl⟩ | ⟨-, -, rfl⟩
    · obtain ⟨rest', rfl⟩ := List.head?_eq_some_iff.mp hsh.1
      trivial
    · trivial
  | triggerProcess =>
    cases he
    rw [triggerProcess_eq (c := { c with stack := rest }) hi.enabled]
    exact .inl rfl
  | triggerWriteback =>
    rcases triggerWriteback_ok (c := { c with stack := rest }) hi.enabled he with ⟨-, rfl⟩ | ⟨-, rfl⟩
    · exact .of_waits hsync _
    · trivial
  | processLoop i j =>
    rcases processLoop_ok he with ⟨hnot, rfl⟩ | ⟨hlt, hp, -⟩
    · refine .of_waits ?_ _
      rcases hsync with hij | hw
      · rw [hij] at hnot
        exact hnot
      · exact hw
    · exact absurd ⟨hlt, hp⟩ (hn i j rfl)
  | fetchDone pos cnt i buf =>
    rcases fetchDone_ok he with ⟨-, rfl⟩ | ⟨-, p, d, q, -, -, -, ⟨-, rfl⟩ | ⟨addr, len, -, rfl⟩⟩ <;> trivial
  | dataFetch p addr off total =>
    obtain ⟨n, q, -, -, ⟨-, rfl⟩ | ⟨-, rfl⟩⟩ := dataFetch_ok he <;> trivial
  | dataWritten p =>
    rw [dataWritten_ok he]
    trivial
  | writebackDone pos n =>
    rw [(writebackDone_ok (c := { c with stack := rest }) hi.enabled he).2]
    trivial
  | resume k =>
    obtain ⟨e, -, ha⟩ := resume_ok he
    have ha := applyEffect_applied ha
    have hf := hf k rfl
    rw [ha.stack]
    refine Sync.cmds (Sync.congr (show Sync c.q rest from hsync) hf (Waits.of_states ha.ring hf fun p hp => ?_)) e
    rcases ha.states p with ⟨-, h⟩ | ⟨-, -, h⟩
    · exact h.symm.trans hp
    · rw [hp] at h
      cases h

theorem Order.exec (h : Order base len c done) (hi : Inv S c) (hg : NoneOnItsWay c) (hs : c.stack = cmd :: rest)
    (he : exec S env { c with stack := rest } cmd = .ok c') : ∃ done', Order base len c' done' := by
  have hsh : Shaped c'.stack := by
    have hsh := h.shaped
    rw [hs] at hsh
    exact hsh.exec he hi.enabled
  rcases exec_order hi hs he with ⟨hr, hfe, hp, hcalled, hn⟩ | ⟨rfl, hq, hp, hlog⟩ | ⟨pos, n, rfl, hq, hp, hlog⟩ |
    ⟨i, j, e, rfl, hlt, hst, ha⟩
  · obtain ⟨ho, hf⟩ := h.ordered.congr hr hfe hp fun i _ => hcalled _
    exact ⟨done, ho, h.sync_exec hi hs he (fun _ _ => hf) hn, hsh⟩
  · exact ⟨done, h.ordered.fetch hi hq hlog hp, h.sync_exec hi hs he (by simp) (by simp), hsh⟩
  · exact ⟨done + n, h.ordered.writebackDone hi hs hq hlog hp, h.sync_exec hi hs he (by simp) (by simp), hsh⟩
  · rcases h.offset hi hs hlt hst with hij | ⟨-, hng⟩
    · obtain ⟨ho, hf⟩ := (h.ordered.pop rest).process hi.window ha hlt hij
      refine ⟨done, ho, ?_, hsh⟩
      have hsync : Sync c'.q (.processLoop i (j + 1) :: rest) := .inl (by rw [hf, ← hij]; rfl)
      rw [ha.stack]
      exact hsync.cmds e
    · exact absurd hg hng

theorem Order.step (h : Order base len c done) (hi : Inv S c) (hg : NoneOnItsWay c) (hs : QueueStep S c c') :
    ∃ done', Order base len c' done' := by
  cases hs with
  | exec env cmd rest hs he => exact h.exec hi hg hs he
  | tail t _ hs he =>
    subst he
    have hr := h.ordered.ringed
    refine ⟨done, ⟨⟨hr.base_eq, hr.len_eq, hr.pos_eq, hr.first_eq, hr.fetched_eq⟩, h.ordered.waiting, h.ordered.log⟩,
      ?_, ?_⟩
    · simp only [tailWrite, hi.enabled, if_true]
      trivial
    · simp only [tailWrite, hi.enabled, if_true]
      exact h.shaped.trigger
  | receive env x hs he =>
    obtain ⟨k, rfl⟩ := receive_ok he
    refine ⟨done, h.ordered.pop _, ?_, ?_⟩
    · rw [hs]
      cases k <;> trivial
    · rw [hs]
      cases k <;> trivial

theorem Order.start (h : Enabled S base len c) : Order base len c 0 := by
  have hf : c.q.firstUnprocessed = 0 := by
    have hle := firstUnprocessed_le c.q
    rw [h.cnt] at hle
    omega
  refine ⟨⟨Ringed.start h, ?_, ?_⟩, ?_, ?_⟩
  · intro i _ hi
    rw [h.cnt] at hi
    omega
  · rw [h.log, hf]
    rfl
  · rw [h.stack]
    trivial
  · rw [h.stack]
    exact ⟨rfl, rfl, trivial⟩

def orderly (S : Subclass ε ι σ κ) (base len : ℕ) : Machine (Config σ κ) :=
  (machine S base len).restrict fun c _ => NoneOnItsWay c

theorem Order.reachable (h : (orderly S base len).Reachable c) : ∃ done, Order base len c done := by
  induction h with
  | start h => exact ⟨0, Order.start h⟩
  | step hr h ih =>
    obtain ⟨done, ih⟩ := ih
    exact ih.step (Inv.reachable hr.of_restrict) h.2 h.1

theorem step_inOrder_iff (h : (orderly S base len).Reachable c) (hs : QueueStep S c c') :
    InOrder c' ↔ NoneOnItsWay c := by
  obtain ⟨done, ho⟩ := Order.reachable h
  have hi := Inv.reachable h.of_restrict
  constructor
  · intro hin i j rest hst hlt hp k hk
    rcases ho.offset hi hst hlt hp with hij | ⟨hij, -⟩
    · have hc := called_of_lt (q := c.q) (i := k) (by omega)
      constructor <;>
      · intro hst
        rw [hst] at hc
        exact absurd hc (by decide)
    · cases hs with
      | exec env cmd rest' hs he =>
        rw [hst] at hs
        cases hs
        rcases exec_order hi hst he with ⟨-, -, -, -, hn⟩ | ⟨hc, -⟩ | ⟨pos, n, hc, -⟩ | ⟨i', j', e, hc, -, -, ha⟩
        · exact absurd ⟨hlt, hp⟩ (hn i j rfl)
        · cases hc
        · cases hc
        · cases hc
          exact absurd hin ((ho.ordered.pop rest).overtaken hi.window ha hlt hij)
      | tail t _ hs he =>
        rw [hst] at hs
        cases hs
      | receive env x hs he =>
        rw [hst] at hs
        cases hs
  · intro hg
    obtain ⟨done', ho'⟩ := ho.step hi hg hs
    exact ho'.ordered.inOrder

end

end Vmux.ProcessOrder
