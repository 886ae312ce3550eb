import Vmux.Interrupts
import Vmux.QueueSteps
import Vmux.Transitions

namespace Vmux.MaskedVectors

open Transitions DescriptorQueue Interrupts

/-- The throttlers of a device, and for each vector whether the last `irq_state_cb` masked it. -/
structure Vectors where
  ts : Throttlers
  masked : ℕ → Bool

inductive Input
  | stateCb (start count : ℕ) (mask : Bool)
  | issue (vec mindelay : ℕ)
  | poll (triggered : List ℕ)

inductive Step (s : Vectors) : Input → Vectors → Prop
  | stateCb (start count : ℕ) (mask : Bool) (ts' : Throttlers) (hr : start + count ≤ numMsixIrqs)
      (h : irqStateCb start count mask s.ts = .ok ts') :
      Step s (.stateCb start count mask) ⟨ts', fun i => if start ≤ i ∧ i < start + count then mask else s.masked i⟩
  | issue (curtime : Timespec) (vec mindelay : ℕ) (ts' : Throttlers)
      (h : msiXIssue s.ts curtime vec mindelay = .ok ts') : Step s (.issue vec mindelay) ⟨ts', s.masked⟩
  | poll (now : ℕ → Timespec) (r : ℕ → Triggered) (ts' : Throttlers) (vs : List ℕ)
      (h : processAllPollTimers now r s.ts = .ok (ts', vs)) : Step s (.poll vs) ⟨ts', s.masked⟩

def Start (s : Vectors) : Prop := s.ts = Throttler.fresh ∧ s.masked = fun _ => false

def vectors : Machine Vectors where
  start := Start
  step s s' := ∃ x, Step s x s'

/-- No vector is masked while an interrupt is scheduled for it. -/
def Idle (s : Vectors) : Input → Prop
  | .stateCb start count true => ∀ i, start ≤ i → i < start + count → (s.ts i).pollTimer = .zero
  | _ => True

def idleVectors : Machine Vectors where
  start := Start
  step s s' := ∃ x, Step s x s' ∧ Idle s x

def Silent (s : Vectors) : Prop :=
  ∀ now r ts' vs, processAllPollTimers now r s.ts = .ok (ts', vs) → ∀ v ∈ vs, s.masked v = false

/-- Only a request for a vector and an interrupt on it change the deadline that is pending for it. -/
def Undisturbed (s s' : Vectors) : Input → Prop
  | .stateCb _ _ _ => ∀ i, (s'.ts i).pollTimer = (s.ts i).pollTimer
  | .issue vec _ => ∀ i, i ≠ vec % 256 → (s'.ts i).pollTimer = (s.ts i).pollTimer
  | .poll triggered => ∀ i, i ∉ triggered → (s'.ts i).pollTimer = (s.ts i).pollTimer

theorem foldlM_concat {α β : Type} (f : β → α → Except Fault β) (b : β) (l : List α) (a : α) :
    (l ++ [a]).foldlM f b = l.foldlM f b >>= fun x => f x a := by
  simp only [List.foldlM_append, List.foldlM_cons, List.foldlM_nil, bind_pure]

theorem setMask_range {mask : Bool} {start n : ℕ} (ts : Throttlers) (h : start + n ≤ numMsixIrqs) :
    (List.range' start n).foldlM (setMask mask) ts = .ok fun i =>
      if start ≤ i ∧ i < start + n then { ts i with guestUnmaskedIrq := !mask } else ts i := by
  induction n with
  | zero =>
    apply congrArg Except.ok
    funext i
    rw [if_neg (by omega)]
  | succ n ih =>
    have hlt : start + n < numMsixIrqs := by omega
    rw [List.range'_1_concat, foldlM_concat, ih (by omega)]
    change setMask mask _ (start + n) = _
    rw [setMask, if_pos hlt]
    apply congrArg Except.ok
    funext i
    by_cases hi : i = start + n
    · subst hi
      rw [Function.update_self, if_neg (by omega), if_pos (by omega)]
    · rw [Function.update_of_ne hi]
      by_cases hin : start ≤ i ∧ i < start + n
      · rw [if_pos hin, if_pos (by omega)]
      · rw [if_neg hin, if_neg (by omega)]

theorem irqStateCb_eq {start count : ℕ} {mask : Bool} (ts : Throttlers) (h : start + count ≤ numMsixIrqs) :
    irqStateCb start count mask ts = .ok fun i =>
      if start ≤ i ∧ i < start + count then { ts i with guestUnmaskedIrq := !mask } else ts i := by
  have hn : (start + count) % 2 ^ 32 - start = count := by
    have h16 : numMsixIrqs = 16 := rfl
    rw [Nat.mod_eq_of_lt (by omega)]
    omega
  rw [irqStateCb, hn, setMask_range ts h]

variable {now : ℕ → Timespec} {r : ℕ → Triggered} {ts ts' : Throttlers} {vs : List ℕ}

def due (now : ℕ → Timespec) (ts : Throttlers) (n : ℕ) : List ℕ :=
  (List.range n).filter fun i => (ts i).expired (now i)

theorem pollVectors_eq {n : ℕ} (h : (List.range n).foldlM (pollVector now r) (ts, []) = .ok (ts', vs)) :
    (∀ i, n ≤ i → ts' i = ts i) ∧
      (∀ i, i < n → (ts i).processPollTimer (now i) (r i) = .ok (ts' i, (ts i).expired (now i))) ∧
      vs = (due now ts n).map fun i => (ts i).irqIdx := by
  induction n generalizing ts' vs with
  | zero =>
    cases h
    exact ⟨fun _ _ => rfl, fun i hi => absurd hi (Nat.not_lt_zero i), rfl⟩
  | succ n ih =>
    rw [List.range_succ, foldlM_concat] at h
    cases hm : (List.range n).foldlM (pollVector now r) (ts, []) with
    | error e =>
      rw [hm] at h
      cases h
    | ok m =>
      obtain ⟨us, ws⟩ := m
      obtain ⟨habove, hbelow, hws⟩ := ih hm
      rw [hm] at h
      have hn : us n = ts n := habove n (le_refl n)
      obtain ⟨⟨t, sent⟩, hp, h⟩ := bind_ok (show pollVector now r (us, ws) n = _ from h)
      dsimp only at hp
      rw [hn] at hp
      obtain ⟨rfl, rfl⟩ := Prod.mk.inj (Except.ok.inj h)
      have hsent : sent = (ts n).expired (now n) := by
        rcases Throttler.processPollTimer_cases hp with ⟨he, hs, -⟩ | ⟨he, hs, -⟩
        · rw [he, hs]
        · rw [he, hs]
      subst hsent
      refine ⟨fun i hi => ?_, fun i hi => ?_, ?_⟩
      · have hne : i ≠ n := by omega
        rw [Function.update_of_ne hne]
        exact habove i (by omega)
      · by_cases hin : i = n
        · subst hin
          rw [Function.update_self, hp]
        · rw [Function.update_of_ne hin]
          exact hbelow i (by omega)
      · rw [hws, due, due, List.range_succ, List.filter_append, List.map_append]
        by_cases he : (ts n).expired (now n) = true
        · simp [he, hn]
        · simp [he]

theorem processAllPollTimers_eq (h : processAllPollTimers now r ts = .ok (ts', vs)) :
    (∀ i, numMsixIrqs ≤ i → ts' i = ts i) ∧
      (∀ i, i < numMsixIrqs → (ts i).processPollTimer (now i) (r i) = .ok (ts' i, (ts i).expired (now i))) ∧
      vs = (due now ts numMsixIrqs).map fun i => (ts i).irqIdx :=
  pollVectors_eq h

theorem pollVectors_ok (now : ℕ → Timespec) (ts : Throttlers) (n : ℕ) :
    ∃ p, (List.range n).foldlM (pollVector now fun _ => .ok) (ts, []) = .ok p := by
  induction n with
  | zero => exact ⟨_, rfl⟩
  | succ n ih =>
    obtain ⟨p, hp⟩ := ih
    obtain ⟨t', ht'⟩ := Throttler.processPollTimer_ok (p.1 n) (now n)
    rw [List.range_succ, foldlM_concat, hp]
    change ∃ q, pollVector now (fun _ => .ok) p n = .ok q
    rw [pollVector, ht']
    exact ⟨_, rfl⟩

/-- Every throttler has its own vector, and a masked one has no timer and takes no request. -/
structure Quiet (s : Vectors) : Prop where
  idx : ∀ i, (s.ts i).irqIdx = i
  unmasked : ∀ i, s.masked i = true → (s.ts i).guestUnmaskedIrq = false
  timer : ∀ i, s.masked i = true → (s.ts i).pollTimer = .zero

variable {s s' : Vectors} {x : Input}

theorem tryInterrupt_irqIdx (t : Throttler) (curtime : Timespec) (mindelay : ℕ) :
    (t.tryInterrupt curtime mindelay).irqIdx = t.irqIdx := by
  unfold Throttler.tryInterrupt
  split
  · rfl
  · dsimp only
    split
    · rfl
    · rfl

theorem tryInterrupt_masked {t : Throttler} (h : t.guestUnmaskedIrq = false) (curtime : Timespec) (mindelay : ℕ) :
    t.tryInterrupt curtime mindelay = t := by
  unfold Throttler.tryInterrupt
  rw [h]
  rfl

theorem msiXIssue_cases {curtime : Timespec} {vec mindelay : ℕ} (h : msiXIssue ts curtime vec mindelay = .ok ts') :
    ts' = Function.update ts (vec % 256) ((ts (vec % 256)).tryInterrupt curtime mindelay) := by
  obtain ⟨i, hi, h⟩ := bind_ok h
  unfold irqThrottle at hi
  split at hi
  · cases hi
    exact (Except.ok.inj h).symm
  · cases hi

theorem poll_idx (h : processAllPollTimers now r ts = .ok (ts', vs)) (i : ℕ) : (ts' i).irqIdx = (ts i).irqIdx := by
  obtain ⟨habove, hbelow, -⟩ := processAllPollTimers_eq h
  by_cases hi : i < numMsixIrqs
  · rcases Throttler.processPollTimer_cases (hbelow i hi) with ⟨-, -, -, -, hidx, -⟩ | ⟨-, -, ht⟩
    · exact hidx
    · rw [ht]
  · rw [habove i (by omega)]

theorem poll_unsent (h : processAllPollTimers now r ts = .ok (ts', vs)) {i : ℕ} (hi : (ts i).expired (now i) = false) :
    ts' i = ts i := by
  obtain ⟨habove, hbelow, -⟩ := processAllPollTimers_eq h
  by_cases hlt : i < numMsixIrqs
  · rcases Throttler.processPollTimer_cases (hbelow i hlt) with ⟨he, -⟩ | ⟨-, -, ht⟩
    · rw [hi] at he
      cases he
    · exact ht
  · exact habove i (by omega)

theorem not_expired_of_zero {t : Throttler} {now : Timespec} (h : t.pollTimer = .zero) : t.expired now = false := by
  apply eq_false_of_ne_true
  intro he
  exact (Throttler.expired_iff.mp he).1 h

theorem Quiet.step (h : Quiet s) (hg : Idle s x) (hs : Step s x s') : Quiet s' := by
  cases hs with
  | stateCb start count mask ts' hr hcb =>
    rw [irqStateCb_eq s.ts hr] at hcb
    obtain rfl := Except.ok.inj hcb
    refine ⟨fun i => ?_, fun i hi => ?_, fun i hi => ?_⟩
    · dsimp only
      split
      · exact h.idx i
      · exact h.idx i
    · dsimp only at hi ⊢
      by_cases hin : start ≤ i ∧ i < start + count
      · rw [if_pos hin] at hi ⊢
        rw [hi]
        rfl
      · rw [if_neg hin] at hi ⊢
        exact h.unmasked i hi
    · dsimp only at hi ⊢
      by_cases hin : start ≤ i ∧ i < start + count
      · rw [if_pos hin] at hi ⊢
        subst hi
        exact hg i hin.1 hin.2
      · rw [if_neg hin] at hi ⊢
        exact h.timer i hi
  | issue curtime vec mindelay ts' hi =>
    obtain rfl := msiXIssue_cases hi
    have hat : ∀ i, s.masked i = true →
        Function.update s.ts (vec % 256) ((s.ts (vec % 256)).tryInterrupt curtime mindelay) i = s.ts i := by
      intro i hi
      by_cases hv : i = vec % 256
      · subst hv
        rw [Function.update_self, tryInterrupt_masked (h.unmasked _ hi)]
      · exact Function.update_of_ne hv _ _
    refine ⟨fun i => ?_, fun i hi => ?_, fun i hi => ?_⟩
    · dsimp only
      by_cases hv : i = vec % 256
      · subst hv
        rw [Function.update_self, tryInterrupt_irqIdx, h.idx]
      · rw [Function.update_of_ne hv, h.idx]
    · dsimp only
      rw [hat i hi]
      exact h.unmasked i hi
    · dsimp only
      rw [hat i hi]
      exact h.timer i hi
  | poll now r ts' vs hp =>
    have hat : ∀ i, s.masked i = true → ts' i = s.ts i :=
      fun i hi => poll_unsent hp (not_expired_of_zero (h.timer i hi))
    refine ⟨fun i => ?_, fun i hi => ?_, fun i hi => ?_⟩
    · exact (poll_idx hp i).trans (h.idx i)
    · dsimp only
      rw [hat i hi]
      exact h.unmasked i hi
    · dsimp only
      rw [hat i hi]
      exact h.timer i hi

theorem Quiet.reachable (h : idleVectors.Reachable s) : Quiet s := by
  induction h with
  | start h =>
    obtain ⟨ht, hm⟩ := h
    refine ⟨fun i => by rw [ht]; rfl, fun i hi => ?_, fun i hi => ?_⟩
    · rw [hm] at hi
      cases hi
    · rw [hm] at hi
      cases hi
  | step _ h ih =>
    obtain ⟨x, hs, hg⟩ := h
    exact ih.step hg hs

theorem Quiet.silent (h : Quiet s) : Silent s := by
  intro now r ts' vs hp v hv
  obtain ⟨-, -, rfl⟩ := processAllPollTimers_eq hp
  obtain ⟨i, hi, rfl⟩ := List.mem_map.mp hv
  rw [h.idx i]
  apply eq_false_of_ne_true
  intro hm
  have he := (List.mem_filter.mp hi).2
  rw [not_expired_of_zero (h.timer i hm)] at he
  cases he

/-- A vector that is masked too early is triggered once its timer is over. -/
theorem not_silent {i : ℕ} (hidx : (s.ts i).irqIdx = i) (hi : i < numMsixIrqs) (hm : s.masked i = true)
    (ht : (s.ts i).pollTimer ≠ .zero) : ¬Silent s := by
  intro hs
  obtain ⟨p, hp⟩ := pollVectors_ok (fun _ => ⟨(s.ts i).pollTimer.sec + 1, 0⟩) s.ts numMsixIrqs
  have hvs := (pollVectors_eq hp).2.2
  have he : (s.ts i).expired ⟨(s.ts i).pollTimer.sec + 1, 0⟩ = true :=
    Throttler.expired_iff.mpr ⟨ht, Timespec.before_iff.mpr (.inl (lt_add_one _))⟩
  have hmem : i ∈ p.2 := by
    rw [hvs]
    exact List.mem_map.mpr ⟨i, List.mem_filter.mpr ⟨List.mem_range.mpr hi, he⟩, hidx⟩
  have hfalse := hs _ _ _ _ hp i hmem
  rw [hm] at hfalse
  cases hfalse

theorem idle_of_silent (h : Quiet s) (hs : Step s x s') (hsil : Silent s') : Idle s x := by
  cases hs with
  | stateCb start count mask ts' hr hcb =>
    cases mask with
    | false => trivial
    | true =>
      intro i h1 h2
      by_contra ht
      rw [irqStateCb_eq s.ts hr] at hcb
      obtain rfl := Except.ok.inj hcb
      have hin : start ≤ i ∧ i < start + count := ⟨h1, h2⟩
      apply @not_silent _ i ?_ ?_ ?_ ?_ hsil
      · dsimp only
        rw [if_pos hin]
        exact h.idx i
      · omega
      · dsimp only
        rw [if_pos hin]
      · dsimp only
        rw [if_pos hin]
        exact ht
  | issue curtime vec mindelay ts' hi => trivial
  | poll now r ts' vs hp => trivial

theorem idx_reachable (h : vectors.Reachable s) (i : ℕ) : (s.ts i).irqIdx = i := by
  induction h with
  | start h =>
    rw [h.1]
    rfl
  | step _ h ih =>
    obtain ⟨x, hs⟩ := h
    cases hs with
    | stateCb start count mask ts' hr hcb =>
      rw [irqStateCb_eq _ hr] at hcb
      obtain rfl := Except.ok.inj hcb
      dsimp only
      split
      · exact ih
      · exact ih
    | issue curtime vec mindelay ts' hi =>
      obtain rfl := msiXIssue_cases hi
      dsimp only
      by_cases hv : i = vec % 256
      · subst hv
        rw [Function.update_self, tryInterrupt_irqIdx, ih]
      · rw [Function.update_of_ne hv, ih]
    | poll now r ts' vs hp => exact (poll_idx hp i).trans ih

theorem undisturbed (hidx : ∀ i, (s.ts i).irqIdx = i) (hs : Step s x s') : Undisturbed s s' x := by
  cases hs with
  | stateCb start count mask ts' hr hcb =>
    rw [irqStateCb_eq s.ts hr] at hcb
    obtain rfl := Except.ok.inj hcb
    intro i
    dsimp only
    split
    · rfl
    · rfl
  | issue curtime vec mindelay ts' hi =>
    obtain rfl := msiXIssue_cases hi
    intro i hne
    dsimp only
    rw [Function.update_of_ne hne]
  | poll now r ts' vs hp =>
    intro i hne
    dsimp only
    by_cases hlt : i < numMsixIrqs
    · rw [poll_unsent hp]
      apply eq_false_of_ne_true
      intro he
      apply hne
      rw [(processAllPollTimers_eq hp).2.2]
      exact List.mem_map.mpr ⟨i, List.mem_filter.mpr ⟨List.mem_range.mpr hlt, he⟩, hidx i⟩
    · rw [(processAllPollTimers_eq hp).1 i (by omega)]

/-- If no vector is masked while its timer runs, masked vectors are silent, and exactly such masking
keeps them so. In every run the vectors do not disturb each other. -/
theorem masked_vectors_silent (s : Vectors) :
    (idleVectors.Reachable s → Silent s ∧ ∀ x s', Step s x s' → (Silent s' ↔ Idle s x)) ∧
    (vectors.Reachable s → ∀ x s', Step s x s' → Undisturbed s s' x) := by
  constructor
  · intro h
    have hq := Quiet.reachable h
    exact ⟨hq.silent, fun x s' hs => ⟨idle_of_silent hq hs, fun hg => (hq.step hg hs).silent⟩⟩
  · intro h x s' hs
    exact undisturbed (idx_reachable h) hs

def fresh : Vectors := ⟨Throttler.fresh, fun _ => false⟩

/-- Vector 3 after a request and `irq_state_cb(3, 1, true)`. -/
def maskedThree : Vectors :=
  let ts := Function.update fresh.ts 3 ((fresh.ts 3).tryInterrupt ⟨5, 0⟩ 2000)
  ⟨fun i => if 3 ≤ i ∧ i < 3 + 1 then { ts i with guestUnmaskedIrq := false } else ts i,
    fun i => if 3 ≤ i ∧ i < 3 + 1 then true else false⟩

theorem masked_vectors_silent_three : ∃ s, idleVectors.Reachable s ∧ s.masked 3 = true ∧ Silent s := by
  have h0 : idleVectors.Reachable fresh := .start ⟨rfl, rfl⟩
  have hidle : Idle fresh (.stateCb 3 1 true) := fun _ _ _ => rfl
  have h1 := h0.step ⟨_, .stateCb 3 1 true _ (by decide) (irqStateCb_eq _ (by decide)), hidle⟩
  exact ⟨_, h1, rfl, ((masked_vectors_silent _).1 h1).1⟩

/-- The request is made before vector 3 is masked, and sent afterwards. -/
theorem masked_vector_triggered : ∃ s, vectors.Reachable s ∧ s.masked 3 = true ∧
    (processAllPollTimers (fun _ => ⟨6, 0⟩) (fun _ => .ok) s.ts).toOption.map (·.2) = some [3] ∧ ¬Silent s := by
  have h0 : vectors.Reachable fresh := .start ⟨rfl, rfl⟩
  have h1 : vectors.Reachable ⟨Function.update fresh.ts 3 ((fresh.ts 3).tryInterrupt ⟨5, 0⟩ 2000), fresh.masked⟩ :=
    .step h0 ⟨_, .issue ⟨5, 0⟩ 3 2000 _ rfl⟩
  have h2 : vectors.Reachable maskedThree :=
    .step h1 ⟨_, .stateCb 3 1 true _ (by decide) (irqStateCb_eq _ (by decide))⟩
  refine ⟨maskedThree, h2, rfl, by decide +kernel, ?_⟩
  exact not_silent (idx_reachable h2 3) (by decide) rfl (by decide)

end Vmux.MaskedVectors
