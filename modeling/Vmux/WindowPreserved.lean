import Vmux.WindowInvariant

namespace Vmux.DescriptorQueue

open Bytes CircularWindow Transitions Ownership

theorem fetchCnt_clamped (q : QueueBase) : ∃ m, m ≤ q.descAvail ∧ m ≤ maxActiveDescs - q.activeCnt ∧
    q.fetchCnt = if q.nextIdx + m > q.len then q.len - q.nextIdx else m := by
  refine ⟨_, ?_, ?_, rfl⟩
  · refine (min_le_left _ _).trans ?_
    split
    · exact (min_le_left _ _).trans (min_le_left _ _)
    · exact min_le_left _ _
  · refine (min_le_left _ _).trans ?_
    split
    · exact (min_le_left _ _).trans (min_le_right _ _)
    · exact min_le_right _ _

theorem fetchCnt_bounds (q : QueueBase) (hl : 0 < q.len) :
    q.fetchCnt ≤ q.descAvail ∧ q.fetchCnt ≤ maxActiveDescs - q.activeCnt ∧ q.nextIdx + q.fetchCnt ≤ q.len := by
  have hn : q.nextIdx < q.len := Nat.mod_lt _ hl
  obtain ⟨m, ha, hc, he⟩ := fetchCnt_clamped q
  rw [he]
  split <;> omega

/-- The two queues differ only in what the contexts in use hold. -/
structure Frame (q q' : QueueBase) : Prop where
  pos : q'.activeFirstPos = q.activeFirstPos
  idx : q'.activeFirstIdx = q.activeFirstIdx
  cnt : q'.activeCnt = q.activeCnt
  base : q'.base = q.base
  len : q'.len = q.len
  tail : q'.regTail = q.regTail
  enabled : q'.enabled = q.enabled
  descLen : q'.descLen = q.descLen
  index : ∀ p, (q'.ctxs p).index = (q.ctxs p).index
  empty : ∀ p, q'.states p = .empty ↔ q.states p = .empty

theorem Frame.refl (q : QueueBase) : Frame q q :=
  ⟨rfl, rfl, rfl, rfl, rfl, rfl, rfl, rfl, fun _ => rfl, fun _ => Iff.rfl⟩

theorem Frame.trans {q r s : QueueBase} (h : Frame q r) (k : Frame r s) : Frame q s :=
  ⟨k.pos.trans h.pos, k.idx.trans h.idx, k.cnt.trans h.cnt, k.base.trans h.base, k.len.trans h.len,
    k.tail.trans h.tail, k.enabled.trans h.enabled, k.descLen.trans h.descLen,
    fun p => (k.index p).trans (h.index p), fun p => (k.empty p).trans (h.empty p)⟩

theorem Frame.window {q q' : QueueBase} (h : Frame q q') (hw : Window q) : Window q' :=
  hw.congr h.pos h.idx h.cnt h.len h.index h.empty

theorem Frame.modify (q : QueueBase) (p : Slot) (f : DescCtx → DescCtx)
    (hx : ∀ x, (f x).index = x.index) (hs : (f (q.ctxs p)).state = .empty ↔ q.states p = .empty) :
    Frame q (q.modify p f) := by
  refine ⟨rfl, rfl, rfl, rfl, rfl, rfl, rfl, rfl, index_modify q p f hx, ?_⟩
  intro r
  by_cases hr : r = p
  · subst hr
    simpa [QueueBase.states, QueueBase.modify] using hs
  · simp [QueueBase.states, QueueBase.modify, hr]

theorem Frame.setState {q : QueueBase} {p : Slot} {s : DescState} (hp : q.states p ≠ .empty)
    (hs : s ≠ .empty) : Frame q (q.setState p s) :=
  .modify q p _ (fun _ => rfl) (by simp [hs, hp])

theorem Frame.markRange {q : QueueBase} {first cnt : ℕ} {s : DescState}
    (hp : ∀ p, offset first p < cnt → q.states p ≠ .empty) (hs : s ≠ .empty) :
    Frame q (q.markRange first cnt s) := by
  refine ⟨rfl, rfl, rfl, rfl, rfl, rfl, rfl, rfl, index_markRange q first cnt s, ?_⟩
  intro p
  rw [states_markRange]
  split
  · simp [hs, hp p ‹_›]
  · rfl

theorem Frame.setDescs (ds : List (Slot × List UInt8)) (q : QueueBase) :
    Frame q (setDescs ds q) ∧ (setDescs ds q).states = q.states := by
  induction ds generalizing q with
  | nil => exact ⟨.refl q, rfl⟩
  | cons d ds ih =>
    obtain ⟨p, d⟩ := d
    have hm : (q.modify p fun x => { x with desc := d }).states = q.states :=
      states_modify q p _ fun _ => rfl
    obtain ⟨hf, hs⟩ := ih (q.modify p fun x => { x with desc := d })
    exact ⟨(Frame.modify q p (fun x => { x with desc := d }) (fun _ => rfl) Iff.rfl).trans hf, hs.trans hm⟩

theorem Frame.setDatas (ds : List (Slot × List UInt8)) (q : QueueBase) :
    Frame q (setDatas ds q) ∧ (setDatas ds q).states = q.states := by
  induction ds generalizing q with
  | nil => exact ⟨.refl q, rfl⟩
  | cons d ds ih =>
    obtain ⟨p, d⟩ := d
    have hm : (q.modify p fun x => { x with data := d }).states = q.states :=
      states_modify q p _ fun _ => rfl
    obtain ⟨hf, hs⟩ := ih (q.modify p fun x => { x with data := d })
    exact ⟨(Frame.modify q p (fun x => { x with data := d }) (fun _ => rfl) Iff.rfl).trans hf, hs.trans hm⟩

theorem finish_owned {ps : List Slot} {cl : List (Slot × DescState)} {q : QueueBase}
    (h : Owned Busy ((ps.map fun p => (p, .processing)) ++ cl) q.states) :
    ∃ q', finish ps q = .ok q' ∧ Frame q q' ∧ Owned Busy cl q'.states ∧
      ∀ p, q'.states p = q.states p ∨ q'.states p = .processed := by
  induction ps generalizing q with
  | nil => exact ⟨q, rfl, .refl q, h, fun p => .inl rfl⟩
  | cons p ps ih =>
    have hp : q.states p = .processing := h.state_eq List.mem_cons_self
    have hd : Owned Busy ((ps.map fun p => (p, .processing)) ++ cl) (q.setState p .processed).states := by
      rw [states_setState]
      exact h.drop (s := .processing) (by simp [Busy])
    obtain ⟨q', hq, hf, ho, hs⟩ := ih hd
    refine ⟨q', ?_, (Frame.setState (by simp [hp]) (by simp)).trans hf, ho, ?_⟩
    · rw [finish, if_pos (show (q.ctxs p).state = .processing from hp), hq]
    · intro r
      rcases hs r with hr | hr
      · rw [states_setState] at hr
        by_cases hrp : r = p
        · subst hrp
          simp [hr]
        · simp [hr, hrp]
      · exact .inr hr

section

variable {ε ι σ κ : Type} {S : Subclass ε ι σ κ} {env : Env ε} {c c' : Config σ κ}
  {cmd : Cmd κ} {rest : List (Cmd κ)}

theorem claims_cons (hs : c.stack = cmd :: rest) :
    claims S c = cmd.claims ++ claims S { c with stack := rest } := by
  simp [claims, hs]

theorem trigger_claims (c : Config σ κ) :
    claims S { c with stack := trigger κ ++ c.stack } = claims S c := by
  simp [claims, trigger, Cmd.claims]

theorem Settled.of_none (hb : ∀ x ∈ c.stack, x.isWriteback = false)
    (hs : ∀ p, c.q.states p ≠ .writtenBack) : Settled c := by
  refine ⟨?_, ?_, hs⟩
  · intro pos n r h
    have hx := hb (.writebackDone pos n) (by simp [h])
    simp [Cmd.isWriteback] at hx
  · intro x r h y hy
    exact hb y (by simp [h, hy])

/-- The invariant with the running command taken off the stack. -/
structure Running (S : Subclass ε ι σ κ) (cmd : Cmd κ) (c : Config σ κ) : Prop where
  enabled : c.q.enabled = true
  len_lt : c.q.len < 0x4000
  window : Window c.q
  owned : Owned Busy (cmd.claims ++ claims S c) c.q.states
  below : ∀ x ∈ c.stack, x.isWriteback = false
  states : ∀ p, c.q.states p ≠ .writtenBack

theorem Inv.running (h : Inv S c) (hs : c.stack = cmd :: rest) : Running S cmd { c with stack := rest } where
  enabled := h.enabled
  len_lt := h.len_lt
  window := h.window
  owned := claims_cons (S := S) hs ▸ h.owned
  below := h.settled.below cmd rest hs
  states := h.settled.states

theorem Running.inv (h : Running S cmd c) (hf : Frame c.q c'.q) (ho : Owned Busy (claims S c') c'.q.states)
    (hb : ∀ x ∈ c'.stack, x.isWriteback = false) (hs : ∀ p, c'.q.states p ≠ .writtenBack) : Inv S c' where
  enabled := hf.enabled.trans h.enabled
  len_lt := hf.len.symm ▸ h.len_lt
  window := hf.window h.window
  owned := ho
  settled := .of_none hb hs

theorem trigger_below (hb : ∀ x ∈ c.stack, x.isWriteback = false) :
    ∀ x ∈ trigger κ ++ c.stack, x.isWriteback = false := by
  intro x hx
  rcases List.mem_append.mp hx with hx | hx
  · simp only [trigger, List.mem_cons, List.not_mem_nil, or_false] at hx
    rcases hx with rfl | rfl | rfl <;> rfl
  · exact hb x hx

theorem update_ne_writtenBack {q : QueueBase} {p : Slot} {s : DescState} (hs : s ≠ .writtenBack)
    (hq : ∀ p, q.states p ≠ .writtenBack) : ∀ r, Function.update q.states p s r ≠ .writtenBack := by
  intro r
  by_cases hr : r = p
  · subst hr
    simpa using hs
  · simpa [hr] using hq r

theorem offset_fetchPos (q : QueueBase) (p : Slot) (h : q.activeCnt ≤ offset q.activeFirstPos p) :
    offset q.fetchPos p = offset q.activeFirstPos p - q.activeCnt := by
  rw [QueueBase.fetchPos, offset_mod, offset_shift _ _ _ h]

theorem offset_fetchPos_wrap (q : QueueBase) (p : Slot) (h : offset q.activeFirstPos p < q.activeCnt)
    (hc : q.activeCnt ≤ maxActiveDescs) : offset q.fetchPos p = offset q.activeFirstPos p + maxActiveDescs - q.activeCnt := by
  rw [QueueBase.fetchPos, offset_mod, offset_shift_wrap _ _ _ h hc]

theorem offset_fetchPos_lt (q : QueueBase) (p : Slot) (hc : q.activeCnt ≤ maxActiveDescs) {n : ℕ}
    (hn : n ≤ maxActiveDescs - q.activeCnt) :
    offset q.fetchPos p < n ↔ q.activeCnt ≤ offset q.activeFirstPos p ∧ offset q.activeFirstPos p < q.activeCnt + n := by
  by_cases h : q.activeCnt ≤ offset q.activeFirstPos p
  · rw [offset_fetchPos q p h]
    omega
  · rw [offset_fetchPos_wrap q p (by omega) hc]
    omega

theorem Window.beginFetch {q : QueueBase} (h : Window q) : Window q.beginFetch := by
  have hl : 0 < q.len := Nat.lt_of_le_of_lt (Nat.zero_le _) h.idx_lt
  obtain ⟨-, hn, -⟩ := fetchCnt_bounds q hl
  have hc := h.cnt_le
  apply Window.of_slots
  · change q.activeCnt + q.fetchCnt ≤ maxActiveDescs
    omega
  · exact h.pos_lt
  · exact h.idx_lt
  · intro p hp
    change offset q.activeFirstPos p < q.activeCnt + q.fetchCnt at hp
    change (update q.ctxs _ _ _ p).state ≠ .empty ∧ (update q.ctxs _ _ _ p).index =
      (q.activeFirstIdx + offset q.activeFirstPos p) % q.len
    by_cases hlt : offset q.activeFirstPos p < q.activeCnt
    · rw [update_of_le (by have := (offset_fetchPos_lt q p hc hn).not; omega)]
      exact h.of_offset_lt hlt
    · have ho : offset q.fetchPos p < q.fetchCnt := (offset_fetchPos_lt q p hc hn).mpr (by omega)
      rw [update_of_lt ho, offset_fetchPos q p (by omega)]
      refine ⟨by simp, ?_⟩
      simp only [QueueBase.nextIdx, Nat.mod_add_mod]
      congr 1
      omega
  · intro p hp
    change q.activeCnt + q.fetchCnt ≤ offset q.activeFirstPos p at hp
    change (update q.ctxs _ _ _ p).state = .empty
    rw [update_of_le (by have := (offset_fetchPos_lt q p hc hn).not; omega)]
    exact h.of_le_offset (by omega)

theorem states_beginFetch (q : QueueBase) (p : Slot) :
    q.beginFetch.states p = if offset q.fetchPos p < q.fetchCnt then .fetching else q.states p := by
  simp only [QueueBase.states, QueueBase.beginFetch, update]
  split <;> rfl

theorem Running.triggerFetch (h : Running S .triggerFetch c) (he : triggerFetch env c = .ok c') : Inv S c' := by
  rcases triggerFetch_ok h.enabled he with ⟨-, rfl⟩ | ⟨-, -, rfl⟩
  · exact h.inv (.refl _) h.owned h.below h.states
  have hl : 0 < c.q.len := Nat.lt_of_le_of_lt (Nat.zero_le _) h.window.idx_lt
  obtain ⟨-, hn, -⟩ := fetchCnt_bounds c.q hl
  have hn' : c.q.fetchCnt ≤ maxActiveDescs := by omega
  have hnew := fun p => offset_fetchPos_lt c.q p h.window.cnt_le hn
  refine ⟨h.enabled, h.len_lt, h.window.beginFetch, ?_, .of_none ?_ ?_⟩
  · rw [claims_cons rfl]
    refine Owned.replace [] _ (fun p => offset c.q.fetchPos p < c.q.fetchCnt) h.owned ?_ ?_ ?_ ?_ ?_
    · intro p hp
      rw [states_beginFetch, if_neg hp]
    · simp
    · intro p hp hb
      rw [h.window.of_le_offset ((hnew p).mp hp).1] at hb
      exact hb.elim
    · exact rangeClaims_nodup hn'
    · intro p s
      simp only [Cmd.claims, Nat.sub_zero, mem_rangeClaims_zero hn', states_beginFetch]
      constructor
      · rintro ⟨ho, rfl⟩
        simp [ho, Busy]
      · rintro ⟨ho, hs, -⟩
        simpa [ho] using hs
  · intro x hx
    rcases List.mem_cons.mp hx with rfl | hx
    · rfl
    · exact h.below x hx
  · intro p
    rw [states_beginFetch]
    split
    · simp
    · exact h.states p

theorem Running.triggerProcess (h : Running S .triggerProcess c) : Inv S (triggerProcess c) := by
  rw [triggerProcess_eq h.enabled]
  refine h.inv (.refl _) ?_ ?_ h.states
  · rw [claims_cons rfl]
    exact h.owned
  · intro x hx
    rcases List.mem_cons.mp hx with rfl | hx
    · rfl
    · exact h.below x hx

/-- The effect of a subclass keeps the invariant: it only releases contexts that it holds. -/
theorem applyEffect_owned {e : Effect σ κ} {cl : List (Slot × DescState)}
    (ho : Owned Busy (cl ++ e.released.map fun p => (p, .processing)) c.q.states) :
    ∃ q, finish e.finished (setDatas e.datas (setDescs e.descs c.q)) = .ok q ∧ Frame c.q q ∧
      Owned Busy (cl ++ (e.write.toList.map fun w => (w.1, .processing))) q.states ∧
      ∀ p, q.states p = c.q.states p ∨ q.states p = .processed := by
  obtain ⟨hf₁, hs₁⟩ := Frame.setDescs e.descs c.q
  obtain ⟨hf₂, hs₂⟩ := Frame.setDatas e.datas (setDescs e.descs c.q)
  have hf := hf₁.trans hf₂
  have hs := hs₂.trans hs₁
  have hp : Owned Busy ((e.finished.map fun p => (p, .processing)) ++
      (cl ++ (e.write.toList.map fun w => (w.1, .processing))))
      (setDatas e.datas (setDescs e.descs c.q)).states := by
    rw [hs]
    refine ho.perm ?_
    simp only [Effect.released, List.map_append, List.map_map, ← List.append_assoc]
    exact List.Perm.append_right _ List.perm_append_comm
  obtain ⟨q, hq, hf', ho', hs'⟩ := finish_owned hp
  refine ⟨q, hq, hf.trans hf', ho', ?_⟩
  rw [hs] at hs'
  exact hs'

theorem claims_applyEffect {e : Effect σ κ} (c : Config σ κ) (q : QueueBase) (log : List Event) :
    (claims S { q := q, client := e.client, log := log
                stack := (e.write.toList.map fun w => .dataWritten w.1) ++
                  (e.next.toList.map Cmd.resume ++ c.stack) }).Perm
      ((c.stack.flatMap Cmd.claims ++ (S.held e.client).map fun p => (p, .processing)) ++
        e.write.toList.map fun w => (w.1, .processing)) := by
  have hw : (e.write.toList.map fun w => (Cmd.dataWritten w.1 : Cmd κ)).flatMap Cmd.claims =
      e.write.toList.map fun w => (w.1, .processing) := by
    cases e.write <;> simp [Cmd.claims]
  have hn : (e.next.toList.map Cmd.resume).flatMap Cmd.claims = [] := by
    cases e.next <;> simp [Cmd.claims]
  simp only [claims, List.flatMap_append, hw, hn, List.nil_append, List.append_assoc]
  exact List.perm_append_comm.trans (by simp)

theorem applyEffect_below {e : Effect σ κ} (hb : ∀ x ∈ c.stack, x.isWriteback = false) :
    ∀ x ∈ (e.write.toList.map fun w => .dataWritten w.1) ++ (e.next.toList.map Cmd.resume ++ c.stack),
      x.isWriteback = false := by
  intro x hx
  simp only [List.mem_append, List.mem_map] at hx
  rcases hx with ⟨w, -, rfl⟩ | ⟨k, -, rfl⟩ | hx
  · rfl
  · rfl
  · exact hb x hx

theorem applyEffect_inv {e : Effect σ κ} (he : c.q.enabled = true) (hl : c.q.len < 0x4000) (hw : Window c.q)
    (ho : Owned Busy (c.stack.flatMap Cmd.claims ++
      (e.released ++ S.held e.client).map fun p => (p, .processing)) c.q.states)
    (hb : ∀ x ∈ c.stack, x.isWriteback = false) (hs : ∀ p, c.q.states p ≠ .writtenBack)
    (h : applyEffect env c e = .ok c') : Inv S c' := by
  obtain ⟨q, hq, rfl⟩ := applyEffect_ok h
  have hp : Owned Busy ((c.stack.flatMap Cmd.claims ++ (S.held e.client).map fun p => (p, .processing)) ++
      e.released.map fun p => (p, .processing)) c.q.states := by
    refine ho.perm ?_
    rw [List.map_append, List.append_assoc]
    exact List.Perm.append_left _ List.perm_append_comm
  obtain ⟨q', hq', hf, ho', hs'⟩ := applyEffect_owned hp
  obtain rfl : q' = q := by
    rw [hq] at hq'
    exact (Except.ok.inj hq').symm
  refine ⟨hf.enabled.trans he, hf.len.symm ▸ hl, hf.window hw, ho'.perm (claims_applyEffect c q' _).symm,
    .of_none (applyEffect_below hb) ?_⟩
  intro p
  rcases hs' p with h | h
  · rw [h]
    exact hs p
  · simp [h]

theorem stateAt_eq (q : QueueBase) (k : ℕ) : q.stateAt k = q.states (slot maxActiveDescs k) := rfl

theorem Running.claim_process {i j : ℕ} (h : Running S (.processLoop i j) c)
    (hp : c.q.stateAt (c.q.activeFirstPos + (i + j)) = .prepared) :
    let p := slot maxActiveDescs (c.q.activeFirstPos + (i + j))
    Owned Busy (c.stack.flatMap Cmd.claims ++ (S.held c.client ++ [p]).map fun p => (p, .processing))
      (c.q.setState p .processing).states := by
  intro p
  rw [states_setState]
  have ha : Owned Busy ((p, .processing) :: claims S c) (Function.update c.q.states p .processing) := by
    refine h.owned.add ?_ (by simp [Busy])
    rw [stateAt_eq] at hp
    rw [hp]
    simp [Busy]
  refine ha.perm ?_
  simp only [claims, List.map_append, ← List.append_assoc, List.map_cons, List.map_nil]
  exact (List.perm_append_singleton _ _).symm

theorem Running.processLoop {i j : ℕ} (h : Running S (.processLoop i j) c)
    (he : processLoop S env c i j = .ok c') : Inv S c' := by
  rcases processLoop_ok he with ⟨-, rfl⟩ | ⟨-, hp, p, q, e, rfl, rfl, hpr, ha⟩
  · exact h.inv (.refl _) h.owned h.below h.states
  have ho := h.claim_process hp
  dsimp only at ho
  replace ho := ho.perm (((S.process_held hpr).map _).append_left _)
  have hne : c.q.states (slot maxActiveDescs (c.q.activeFirstPos + (i + j))) ≠ .empty := by
    rw [stateAt_eq] at hp
    simp [hp]
  refine applyEffect_inv ?_ ?_ ?_ ?_ ?_ ?_ ha
  · exact h.enabled
  · exact h.len_lt
  · exact h.window.setState hne (by simp)
  · simpa [Cmd.claims] using ho
  · intro x hx
    rcases List.mem_cons.mp hx with rfl | hx
    · rfl
    · exact h.below x hx
  · intro r
    rw [states_setState]
    exact update_ne_writtenBack (by simp) h.states r

theorem Running.resume {k : κ} (h : Running S (.resume k) c) (he : resume S env c k = .ok c') : Inv S c' := by
  obtain ⟨e, hr, ha⟩ := resume_ok he
  refine applyEffect_inv h.enabled h.len_lt h.window ?_ h.below h.states ha
  exact h.owned.perm (((S.resume_held hr).map _).append_left _)

theorem Running.fetchDone {pos cnt i : ℕ} {buf : List UInt8} (h : Running S (.fetchDone pos cnt i buf) c)
    (he : fetchDone S c pos cnt i buf = .ok c') : Inv S c' := by
  rcases fetchDone_ok he with ⟨hi, rfl⟩ | ⟨hi, p, d, q, hp, rfl, rfl, hc⟩
  · refine h.inv (.refl _) ?_ (trigger_below h.below) h.states
    have ho := h.owned
    rw [Cmd.claims, show cnt - i = 0 by omega] at ho
    rw [trigger_claims]
    exact ho
  have ho : Owned Busy ((p, .fetching) :: (rangeClaims pos (i + 1) (cnt - (i + 1)) .fetching ++ claims S c))
      c.q.states := by
    have ho := h.owned
    rw [Cmd.claims, rangeClaims_succ hi, ← hp] at ho
    exact ho
  have hf : c.q.states p = .fetching := ho.state_eq List.mem_cons_self
  have hst : (c.q.modify p fun x => { x with
      state := .preparing, desc := slice buf (c.q.descLen * i) c.q.descLen }).states =
      Function.update c.q.states p .preparing := by
    funext r
    by_cases hr : r = p
    · subst hr
      simp [QueueBase.states, QueueBase.modify]
    · simp [QueueBase.states, QueueBase.modify, hr]
  have hfr : Frame c.q (c.q.modify p fun x => { x with
      state := .preparing, desc := slice buf (c.q.descLen * i) c.q.descLen }) :=
    .modify _ _ _ (fun _ => rfl) (by simp [hf])
  have hbelow : ∀ x ∈ Cmd.fetchDone pos cnt (i + 1) buf :: c.stack, x.isWriteback = false := by
    intro x hx
    rcases List.mem_cons.mp hx with rfl | hx
    · rfl
    · exact h.below x hx
  rcases hc with ⟨-, rfl⟩ | ⟨addr, len, -, rfl⟩
  · refine h.inv (hfr.trans (.setState (by simp [hst]) (by simp))) ?_ hbelow ?_
    · rw [claims_cons rfl, states_setState, hst, Function.update_idem]
      exact ho.drop (by simp [Busy])
    · rw [states_setState, hst, Function.update_idem]
      exact update_ne_writtenBack (by simp) h.states
  · have hg : ∀ x : DescCtx, (growData len x).index = x.index ∧ (growData len x).state = x.state := by
      intro x
      unfold growData
      split <;> exact ⟨rfl, rfl⟩
    have hst' := states_modify (c.q.modify p fun x => { x with
      state := .preparing, desc := slice buf (c.q.descLen * i) c.q.descLen }) p (growData len) fun x => (hg x).2
    refine h.inv (hfr.trans (.modify _ _ _ (fun x => (hg x).1) (by rw [(hg _).2]; rfl))) ?_ ?_ ?_
    · rw [claims_cons rfl, claims_cons rfl, hst', hst]
      exact ho.change (by simp [Busy])
    · intro x hx
      rcases List.mem_cons.mp hx with rfl | hx
      · rfl
      · exact hbelow x hx
    · rw [hst', hst]
      exact update_ne_writtenBack (by simp) h.states

theorem Running.dataFetch {p : Slot} {addr off total : ℕ} (h : Running S (.dataFetch p addr off total) c)
    (he : dataFetch env c p addr off total = .ok c') : Inv S c' := by
  obtain ⟨n, q, hn, hq, hc⟩ := dataFetch_ok he
  have hp : c.q.states p = .preparing := h.owned.state_eq (by simp [Cmd.claims])
  have hst : q.states = c.q.states := by
    rw [hq]
    exact states_modify _ _ _ fun _ => rfl
  have hfr : Frame c.q q := by
    rw [hq]
    exact .modify _ _ _ (fun _ => rfl) Iff.rfl
  rcases hc with ⟨-, rfl⟩ | ⟨-, rfl⟩
  · refine h.inv hfr ?_ ?_ ?_
    · rw [claims_cons rfl, hst]
      exact h.owned
    · intro x hx
      rcases List.mem_cons.mp hx with rfl | hx
      · rfl
      · exact h.below x hx
    · rw [hst]
      exact h.states
  · refine h.inv (hfr.trans (.setState (by simp [hst, hp]) (by simp))) ?_ (trigger_below h.below) ?_
    · rw [states_setState, hst]
      have ho := trigger_claims (S := S) c
      exact (congrArg (Owned Busy · _) ho).mpr (h.owned.drop (by simp [Busy]))
    · rw [states_setState, hst]
      exact update_ne_writtenBack (by simp) h.states

theorem Running.dataWritten {p : Slot} (h : Running S (.dataWritten p) c) (he : dataWritten c p = .ok c') :
    Inv S c' := by
  obtain rfl := dataWritten_ok he
  have hp : c.q.states p = .processing := h.owned.state_eq (by simp [Cmd.claims])
  refine h.inv (.setState (by simp [hp]) (by simp)) ?_ (trigger_below h.below) ?_
  · rw [states_setState]
    have ho := trigger_claims (S := S) c
    exact (congrArg (Owned Busy · _) ho).mpr (h.owned.drop (by simp [Busy]))
  · rw [states_setState]
    exact update_ne_writtenBack (by simp) h.states

theorem writebackCnt_bounds (q : QueueBase) (hi : q.activeFirstIdx < q.len) (hl : q.len < 0x4000) :
    q.writebackCnt ≤ q.writebackAvail ∧ q.activeFirstIdx + q.writebackCnt ≤ q.len := by
  have hm : min q.writebackAvail maxWritebackCapacity ≤ q.writebackAvail := min_le_left _ _
  simp only [QueueBase.writebackCnt]
  generalize min q.writebackAvail maxWritebackCapacity = m at *
  split
  · have hs : sub32 q.len q.activeFirstIdx = q.len - q.activeFirstIdx := by
      unfold sub32
      omega
    omega
  · omega

theorem writebackAvail_spec (q : QueueBase) : q.writebackAvail ≤ q.activeCnt ∧
    ∀ i < q.writebackAvail, q.stateAt (q.activeFirstPos + i) = .processed := by
  refine ⟨scan_le _ _, ?_⟩
  intro i hi
  have hp := scan_pass hi
  simpa using hp

theorem states_of_offset {q : QueueBase} {first n : ℕ} {s : DescState}
    (h : ∀ i < n, q.stateAt (first + i) = s) {p : Slot} (hp : offset first p < n) : q.states p = s := by
  have hs := h _ hp
  rwa [stateAt_eq, slot_offset] at hs

theorem Running.triggerWriteback (h : Running S .triggerWriteback c)
    (he : triggerWriteback S env c = .ok c') : Inv S c' := by
  rcases triggerWriteback_ok h.enabled he with ⟨-, rfl⟩ | ⟨-, rfl⟩
  · exact h.inv (.refl _) h.owned h.below h.states
  obtain ⟨hn, -⟩ := writebackCnt_bounds c.q h.window.idx_lt h.len_lt
  obtain ⟨ha, hpr⟩ := writebackAvail_spec c.q
  have hc := h.window.cnt_le
  have hst : ∀ p, offset c.q.activeFirstPos p < c.q.writebackCnt → c.q.states p = .processed :=
    fun p hp => states_of_offset hpr (by omega)
  have hfr : Frame c.q (c.q.markRange c.q.activeFirstPos c.q.writebackCnt .writingBack) :=
    .markRange (fun p hp => by simp [hst p hp]) (by simp)
  refine ⟨hfr.enabled.trans h.enabled, hfr.len.symm ▸ h.len_lt, hfr.window h.window, ?_, ?_, ?_, ?_⟩
  · rw [claims_cons rfl]
    refine Owned.replace [] _ (fun p => offset c.q.activeFirstPos p < c.q.writebackCnt) h.owned ?_ ?_ ?_ ?_ ?_
    · intro p hp
      rw [states_markRange, if_neg hp]
    · simp
    · intro p hp hb
      rw [hst p hp] at hb
      exact hb.elim
    · exact rangeClaims_nodup (by omega)
    · intro p s
      rw [Cmd.claims, mem_rangeClaims_zero (by omega), states_markRange]
      constructor
      · rintro ⟨ho, rfl⟩
        simp [ho, Busy]
      · rintro ⟨ho, hs, -⟩
        simpa [ho] using hs
  · intro pos n rest' hs
    obtain ⟨hw, -⟩ := List.cons.inj hs
    obtain ⟨rfl, rfl⟩ := Cmd.writebackDone.inj hw
    exact ⟨rfl, by change _ ≤ c.q.activeCnt; omega⟩
  · intro x rest' hs y hy
    obtain ⟨-, rfl⟩ := List.cons.inj hs
    exact h.below y hy
  · intro p
    rw [states_markRange]
    split
    · simp
    · exact h.states p

theorem bumpCnt_eq {q : QueueBase} {n : ℕ} (hc : q.activeCnt ≤ maxActiveDescs) (hn : n ≤ q.activeCnt)
    (hs : ∀ p, q.states p ≠ .writtenBack) :
    (q.markRange q.activeFirstPos n .writtenBack).bumpCnt = n := by
  apply scan_eq hn
  · intro i hi
    have hlt : offset q.activeFirstPos (slot maxActiveDescs (q.activeFirstPos + i)) < n := by
      rwa [offset_slot _ _ (by omega)]
    change decide ((q.markRange q.activeFirstPos n .writtenBack).states
      (slot maxActiveDescs (q.activeFirstPos + i)) ≠ .writtenBack) = false
    rw [states_markRange, if_pos hlt]
    simp
  · intro hlt
    change decide ((q.markRange q.activeFirstPos n .writtenBack).states _ ≠ .writtenBack) = true
    change n < q.activeCnt at hlt
    rw [states_markRange, if_neg]
    · simpa using hs _
    · change ¬offset q.activeFirstPos (slot maxActiveDescs (q.activeFirstPos + n)) < n
      rw [offset_slot _ _ (by omega)]
      omega

theorem states_bump {q : QueueBase} {n : ℕ} (hb : (q.markRange q.activeFirstPos n .writtenBack).bumpCnt = n)
    (p : Slot) : (q.markRange q.activeFirstPos n .writtenBack).bump.states p =
      if offset q.activeFirstPos p < n then .empty else q.states p := by
  change (QueueBase.markRange _ _ _ _).states p = _
  rw [states_markRange, hb, states_markRange]
  change (if offset q.activeFirstPos p < n then _ else _) = _
  split <;> rfl

theorem Window.bump {q : QueueBase} {n : ℕ} (h : Window q) (hn : n ≤ q.activeCnt)
    (hs : ∀ p, q.states p ≠ .writtenBack) : Window (q.markRange q.activeFirstPos n .writtenBack).bump := by
  have hb := bumpCnt_eq h.cnt_le hn hs
  have hc := h.cnt_le
  have hpos : (q.markRange q.activeFirstPos n .writtenBack).bump.activeFirstPos =
      (q.activeFirstPos + n) % maxActiveDescs := by simp only [QueueBase.bump, hb]; rfl
  have hidx : (q.markRange q.activeFirstPos n .writtenBack).bump.activeFirstIdx =
      (q.activeFirstIdx + n) % q.len := by simp only [QueueBase.bump, hb]; rfl
  have hcnt : (q.markRange q.activeFirstPos n .writtenBack).bump.activeCnt = q.activeCnt - n := by
    simp only [QueueBase.bump, hb]; rfl
  have hix : ∀ p, ((q.markRange q.activeFirstPos n .writtenBack).bump.ctxs p).index = (q.ctxs p).index :=
    fun p => (index_markRange _ _ _ _ p).trans (index_markRange _ _ _ _ p)
  have hl : 0 < q.len := Nat.lt_of_le_of_lt (Nat.zero_le _) h.idx_lt
  apply Window.of_slots
  · omega
  · rw [hpos]
    exact Nat.mod_lt _ (by decide)
  · rw [hidx]
    exact Nat.mod_lt _ hl
  · intro p hp
    rw [hpos, hcnt, offset_mod] at hp
    by_cases ho : offset q.activeFirstPos p < n
    · rw [offset_shift_wrap _ _ _ ho (by omega)] at hp
      omega
    · rw [offset_shift _ _ _ (by omega)] at hp
      obtain ⟨h1, h2⟩ := h.of_offset_lt (p := p) (by omega)
      rw [states_bump hb, if_neg ho, hix, h2, hidx, hpos, offset_mod, offset_shift _ _ _ (by omega)]
      refine ⟨h1, ?_⟩
      change _ = _ % q.len
      rw [Nat.mod_add_mod]
      congr 1
      omega
  · intro p hp
    rw [hpos, hcnt, offset_mod] at hp
    rw [states_bump hb]
    split
    · rfl
    · rw [offset_shift _ _ _ (by omega)] at hp
      exact h.of_le_offset (by omega)

theorem Running.writebackDone {pos n : ℕ} (h : Running S (.writebackDone pos n) c)
    (hf : pos = c.q.activeFirstPos ∧ n ≤ c.q.activeCnt) (he : writebackDone c pos n = .ok c') : Inv S c' := by
  obtain ⟨rfl, hn⟩ := hf
  obtain ⟨-, rfl⟩ := writebackDone_ok h.enabled he
  have hb := bumpCnt_eq h.window.cnt_le hn h.states
  have hc := h.window.cnt_le
  refine ⟨h.enabled, h.len_lt, h.window.bump hn h.states, ?_, .of_none (trigger_below h.below) ?_⟩
  · have ht : claims S { c with
        q := (c.q.markRange c.q.activeFirstPos n .writtenBack).bump
        stack := trigger κ ++ c.stack
        log := c.log ++ [.interrupt] } = [] ++ claims S c := by simp [claims, trigger, Cmd.claims]
    rw [ht]
    refine Owned.replace (rangeClaims c.q.activeFirstPos 0 n .writingBack) []
      (fun p => offset c.q.activeFirstPos p < n) h.owned ?_ ?_ ?_ ?_ ?_
    · intro p hp
      rw [states_bump hb, if_neg hp]
    · intro p s hm
      exact ((mem_rangeClaims_zero (by omega)).mp hm).1
    · intro p hp _
      have hw : (p, .writingBack) ∈ rangeClaims c.q.activeFirstPos 0 n .writingBack :=
        (mem_rangeClaims_zero (by omega)).mpr ⟨hp, rfl⟩
      rw [h.owned.state_eq (List.mem_append_left _ hw)]
      exact hw
    · simp
    · intro p s
      simp only [List.not_mem_nil, false_iff, not_and]
      intro hp hs
      rw [states_bump hb, if_pos hp] at hs
      rw [← hs]
      exact id
  · intro p
    rw [states_bump hb]
    split
    · simp
    · exact h.states p

theorem Inv.start {base len : ℕ} (h : Enabled S base len c) : Inv S c := by
  have hl := h.len_eq
  refine ⟨h.enabled, hl ▸ h.len_lt, ?_, ⟨?_, ?_⟩, .of_none ?_ ?_⟩
  · apply Window.of_slots
    · simp [h.cnt]
    · simp [h.first_pos]
    · rw [h.first_idx, hl]
      exact h.len_pos
    · simp [h.cnt]
    · intro p _
      exact h.empty p
  · simp [claims, h.stack, h.held, trigger, Cmd.claims]
  · intro p s
    have he : c.q.states p = .empty := h.empty p
    simp only [claims, h.stack, h.held, trigger, Cmd.claims, List.flatMap_cons, List.flatMap_nil,
      List.map_nil, List.append_nil, List.not_mem_nil, false_iff, not_and, he]
    rintro rfl
    exact id
  · rw [h.stack]
    exact fun x hx => trigger_below (c := { c with stack := [] }) (by simp) x (by simpa using hx)
  · intro p
    simp [QueueBase.states, h.empty p]

theorem Inv.exec (h : Inv S c) (hs : c.stack = cmd :: rest)
    (he : exec S env { c with stack := rest } cmd = .ok c') : Inv S c' := by
  have hr := h.running hs
  cases cmd with
  | triggerFetch => exact hr.triggerFetch he
  | triggerProcess =>
    cases he
    exact hr.triggerProcess
  | triggerWriteback => exact hr.triggerWriteback he
  | processLoop i j => exact hr.processLoop he
  | fetchDone pos cnt i buf => exact hr.fetchDone he
  | dataFetch p addr off total => exact hr.dataFetch he
  | dataWritten p => exact hr.dataWritten he
  | writebackDone pos n => exact hr.writebackDone (h.settled.front pos n rest hs) he
  | resume k => exact hr.resume he

theorem Inv.step (h : Inv S c) (hs : QueueStep S c c') : Inv S c' := by
  cases hs with
  | exec env cmd rest hs he => exact h.exec hs he
  | tail t _ hs he =>
    subst he
    refine ⟨h.enabled, h.len_lt, h.window.congr rfl rfl rfl rfl (fun _ => rfl) (fun _ => Iff.rfl), ?_, .of_none ?_ h.settled.states⟩
    · have hcl : claims S (tailWrite c t) = claims S c := by
        simp [claims, tailWrite, h.enabled, trigger, Cmd.claims]
      rw [hcl]
      exact h.owned
    · simp only [tailWrite, h.enabled, if_true]
      exact trigger_below (by simp [hs])
  | receive env x hs he =>
    obtain ⟨k, rfl⟩ := receive_ok he
    refine ⟨h.enabled, h.len_lt, h.window, ?_, .of_none ?_ h.settled.states⟩
    · cases k <;> exact h.owned
    · cases k <;> simp [hs, Cmd.isWriteback]

theorem Inv.reachable {base len : ℕ} (h : (machine S base len).Reachable c) : Inv S c :=
  h.invariant (fun _ => Inv.start) fun _ _ => Inv.step

theorem applyEffect_state {e : Effect σ κ} (cl : List (Slot × DescState))
    (ho : Owned Busy (cl ++ e.released.map fun p => (p, .processing)) c.q.states) :
    applyEffect env c e ≠ .error .stateAssertion := by
  obtain ⟨q, hq, -⟩ := applyEffect_owned ho
  intro h
  rcases bind_error h with h | ⟨q', -, h⟩
  · rw [hq] at h
    cases h
  · dsimp only at h
    split at h
    · cases h
    · split at h <;> cases h

theorem Running.processLoop_state {i j : ℕ} (h : Running S (.processLoop i j) c) :
    DescriptorQueue.processLoop S env c i j ≠ .error .stateAssertion := by
  intro he
  unfold DescriptorQueue.processLoop at he
  dsimp only at he
  split at he
  · rename_i hc
    rcases bind_error he with he | ⟨e, hpr, he⟩
    · exact S.process_state _ _ _ _ he
    · have ho := h.claim_process hc.2
      dsimp only at ho
      replace ho := ho.perm (((S.process_held hpr).map _).append_left _)
      refine applyEffect_state (c.stack.flatMap Cmd.claims ++
        (S.held e.client).map fun p => (p, .processing)) ?_ he
      refine ho.perm ?_
      rw [List.map_append, List.append_assoc]
      exact List.Perm.append_left _ List.perm_append_comm
  · cases he

theorem Running.resume_state {k : κ} (h : Running S (.resume k) c) : DescriptorQueue.resume S env c k ≠ .error .stateAssertion := by
  intro he
  rcases bind_error he with he | ⟨e, hr, he⟩
  · exact S.resume_state _ _ _ _ he
  · refine applyEffect_state (c.stack.flatMap Cmd.claims ++
      (S.held e.client).map fun p => (p, .processing)) ?_ he
    have ho := h.owned.perm (((S.resume_held hr).map _).append_left _)
    refine ho.perm ?_
    rw [List.map_append, List.append_assoc]
    exact List.Perm.append_left _ List.perm_append_comm

theorem Running.triggerFetch_state (h : Running S .triggerFetch c) :
    DescriptorQueue.triggerFetch env c ≠ .error .stateAssertion := by
  have hl : 0 < c.q.len := Nat.lt_of_le_of_lt (Nat.zero_le _) h.window.idx_lt
  obtain ⟨-, hn, -⟩ := fetchCnt_bounds c.q hl
  have hfree : c.q.allInState c.q.fetchPos c.q.fetchCnt .empty = true := by
    rw [allInState_iff]
    intro i hi
    rw [stateAt_eq]
    apply h.window.of_le_offset
    apply ((offset_fetchPos_lt c.q _ h.window.cnt_le hn).mp _).1
    rw [offset_slot _ _ (by omega)]
    exact hi
  intro he
  unfold DescriptorQueue.triggerFetch at he
  simp only [hfree, Bool.not_true, Bool.false_eq_true, if_false] at he
  split at he
  · cases he
  split at he
  · cases he
  split at he
  · cases he
  split at he <;> cases he

/-- In no state that satisfies the invariant can the next command fail a state assertion. -/
theorem Inv.no_assertion (h : Inv S c) : ¬Faults S c .stateAssertion := by
  rintro ⟨env, cmd, rest, hs, he⟩
  have hr := h.running hs
  cases cmd with
  | triggerFetch => exact hr.triggerFetch_state he
  | triggerProcess => cases he
  | triggerWriteback =>
    change triggerWriteback S env _ = _ at he
    unfold DescriptorQueue.triggerWriteback at he
    dsimp only at he
    split at he
    · cases he
    split at he
    · cases he
    split at he
    · split at he <;> cases he
    · split at he
      · cases he
      · split at he <;> cases he
  | processLoop i j => exact hr.processLoop_state he
  | fetchDone pos cnt i buf =>
    change fetchDone S _ pos cnt i buf = _ at he
    unfold DescriptorQueue.fetchDone at he
    split at he
    · dsimp only at he
      split at he <;> cases he
    · cases he
  | dataFetch p addr off total =>
    have hp : c.q.states p = .preparing := hr.owned.state_eq (by simp [Cmd.claims])
    change dataFetch env _ p addr off total = _ at he
    unfold DescriptorQueue.dataFetch at he
    dsimp only at he
    split at he
    · cases he
    split at he
    · cases he
    split at he
    · cases he
    · rename_i hn
      refine hn ?_
      change QueueBase.states (QueueBase.modify _ _ _) p = _
      rw [states_modify]
      · exact hp
      · exact fun _ => rfl
  | dataWritten p =>
    have hp : (c.q.ctxs p).state = .processing := hr.owned.state_eq (by simp [Cmd.claims])
    change dataWritten _ p = _ at he
    rw [DescriptorQueue.dataWritten, if_pos hp] at he
    cases he
  | writebackDone pos n =>
    obtain ⟨rfl, hn⟩ := h.settled.front pos n rest hs
    have hc := h.window.cnt_le
    have hw : c.q.allInState c.q.activeFirstPos n .writingBack = true := by
      rw [allInState_iff]
      intro i hi
      rw [stateAt_eq]
      refine hr.owned.state_eq (List.mem_append_left _ ((mem_rangeClaims_zero (by omega)).mpr ⟨?_, rfl⟩))
      rw [offset_slot _ _ (by omega)]
      exact hi
    change writebackDone _ c.q.activeFirstPos n = _ at he
    unfold DescriptorQueue.writebackDone at he
    dsimp only at he
    simp only [hw, Bool.not_true, Bool.false_eq_true, if_false] at he
    split at he
    · cases he
    split at he <;> cases he
  | resume k => exact hr.resume_state he

end

end Vmux.DescriptorQueue
