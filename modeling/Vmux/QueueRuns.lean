import Vmux.WindowPreserved

namespace Vmux.DescriptorQueue

open Bytes CircularWindow Transitions Ownership

section

variable {ε ι σ κ : Type} (S : Subclass ε ι σ κ) (env : Env ε)

/-- Run up to `n` pending commands. -/
def cascade : ℕ → Config σ κ → Except Fault (Config σ κ)
  | 0, c => .ok c
  | n + 1, c =>
    match c.stack with
    | [] => .ok c
    | cmd :: rest => do cascade n (← exec S env { c with stack := rest } cmd)

theorem Reachable.cascade {S : Subclass ε ι σ κ} {env : Env ε} {M : Machine (Config σ κ)} {n : ℕ}
    {c c' : Config σ κ} (hM : ∀ a b cmd rest, a.stack = cmd :: rest →
      exec S env { a with stack := rest } cmd = .ok b → M.step a b) (hc : M.Reachable c)
    (h : cascade S env n c = .ok c') : M.Reachable c' := by
  induction n generalizing c with
  | zero =>
    cases h
    exact hc
  | succ n ih =>
    rw [DescriptorQueue.cascade] at h
    split at h
    · cases h
      exact hc
    · rename_i cmd rest hs
      obtain ⟨d, hd, h⟩ := bind_ok h
      exact ih (.step hc (hM _ _ cmd rest hs hd)) h

/-- The guest writes these tails one after another, each to a queue at rest. -/
def tailWrites (n : ℕ) : List ℕ → Config σ κ → Except Fault (Config σ κ)
  | [], c => cascade S env n c
  | t :: ts, c => do
    let c ← cascade S env n c
    match c.stack with
    | [] => tailWrites n ts (tailWrite c t)
    | _ :: _ => .error .abort

theorem Reachable.tailWrites {S : Subclass ε ι σ κ} {env : Env ε} {M : Machine (Config σ κ)} {n : ℕ}
    {ts : List ℕ} {c c' : Config σ κ} (hM : ∀ a b, QueueStep S a b → M.step a b) (hc : M.Reachable c)
    (ht : ∀ t ∈ ts, t < 0x100000000) (h : tailWrites S env n ts c = .ok c') : M.Reachable c' := by
  have hexec : ∀ a b cmd rest, a.stack = cmd :: rest → exec S env { a with stack := rest } cmd = .ok b → M.step a b :=
    fun a b cmd rest hs he => hM a b (.exec env cmd rest hs he)
  induction ts generalizing c with
  | nil => exact Reachable.cascade hexec hc h
  | cons t ts ih =>
    obtain ⟨d, hd, h⟩ := bind_ok h
    split at h
    · rename_i hs
      have hr := Reachable.cascade hexec hc hd
      exact ih (.step hr (hM _ _ (.tail t (ht t (by simp)) hs rfl))) (fun x hx => ht x (by simp [hx])) h
    · cases h

theorem ok_of_map {α β : Type} {x : Except Fault α} {f : α → β} {b : β} (h : x.toOption.map f = some b) :
    ∃ a, x = .ok a ∧ f a = b := by
  cases x with
  | error e => cases h
  | ok a =>
    cases h
    exact ⟨a, rfl, rfl⟩

/-- What is observed of a run that has no fault is observed of a reachable state. -/
theorem Reachable.observe {S : Subclass ε ι σ κ} {env : Env ε} {M : Machine (Config σ κ)} {n : ℕ}
    {ts : List ℕ} {c : Config σ κ} (hM : ∀ a b, QueueStep S a b → M.step a b) (hc : M.Reachable c)
    (ht : ∀ t ∈ ts, t < 0x100000000) {α : Type} {f : Config σ κ → α} {a : α}
    (h : (DescriptorQueue.tailWrites S env n ts c).toOption.map f = some a) : ∃ c', M.Reachable c' ∧ f c' = a := by
  obtain ⟨c', hr, rfl⟩ := ok_of_map h
  exact ⟨c', Reachable.tailWrites hM hc ht hr, rfl⟩

/-- A queue enabled after reset whose contexts have never been used. -/
def Config.enabled (base len descLen : ℕ) (client : σ) : Config σ κ where
  q :=
    { ctxs := fun _ => ⟨.empty, 0, [], []⟩
      activeFirstPos := 0
      activeFirstIdx := 0
      activeCnt := 0
      base, len, descLen
      regHead := 0
      regTail := 0
      enabled := true }
  client
  stack := trigger κ
  log := []

theorem Reachable.enabled {S : Subclass ε ι σ κ} {base len : ℕ} (descLen : ℕ) {client : σ} (h1 : 1 ≤ len)
    (h2 : len < 0x4000) (hc : S.held client = []) :
    (machine S base len).Reachable (Config.enabled base len descLen client) :=
  .start ⟨rfl, rfl, rfl, h1, h2, rfl, rfl, rfl, fun _ => rfl, hc, rfl, rfl⟩

end

def calls (log : List Event) : List Output :=
  log.filterMap fun e => match e with
    | .call o => some o
    | _ => none

theorem calls_append (a b : List Event) : calls (a ++ b) = calls a ++ calls b := List.filterMap_append

theorem calls_effect (calls' : List Output) (w : Option (Slot × ℕ × List UInt8)) :
    calls (calls'.map Event.call ++ w.toList.map fun w => Event.dataWrite w.1 w.2.1 w.2.2) = calls' := by
  rw [calls_append]
  have hw : calls (w.toList.map fun w => Event.dataWrite w.1 w.2.1 w.2.2) = [] := by
    cases w <;> rfl
  rw [hw, List.append_nil]
  induction calls' with
  | nil => rfl
  | cons o os ih =>
    simp only [List.map_cons, calls, List.filterMap_cons] at ih ⊢
    rw [ih]

/-- What the registers and the window say about the ring, without the contexts. -/
structure Ring where
  base : ℕ
  len : ℕ
  descLen : ℕ
  tail : ℕ
  enabled : Bool
  firstPos : ℕ
  firstIdx : ℕ
  cnt : ℕ

def QueueBase.ring (q : QueueBase) : Ring where
  base := q.base
  len := q.len
  descLen := q.descLen
  tail := q.regTail
  enabled := q.enabled
  firstPos := q.activeFirstPos
  firstIdx := q.activeFirstIdx
  cnt := q.activeCnt

theorem setDescs_ring (ds : List (Slot × List UInt8)) (q : QueueBase) : (setDescs ds q).ring = q.ring := by
  induction ds generalizing q with
  | nil => rfl
  | cons d ds ih => exact ih _

theorem setDatas_ring (ds : List (Slot × List UInt8)) (q : QueueBase) : (setDatas ds q).ring = q.ring := by
  induction ds generalizing q with
  | nil => rfl
  | cons d ds ih => exact ih _

theorem finish_ring {ps : List Slot} {q q' : QueueBase} (h : finish ps q = .ok q') : q'.ring = q.ring := by
  induction ps generalizing q with
  | nil =>
    cases h
    rfl
  | cons p ps ih =>
    unfold finish at h
    split at h
    · rw [ih h]
      rfl
    · cases h

theorem setDescs_states (ds : List (Slot × List UInt8)) (q : QueueBase) : (setDescs ds q).states = q.states := by
  induction ds generalizing q with
  | nil => rfl
  | cons d ds ih => exact (ih _).trans (states_modify q d.1 _ fun _ => rfl)

theorem setDatas_states (ds : List (Slot × List UInt8)) (q : QueueBase) : (setDatas ds q).states = q.states := by
  induction ds generalizing q with
  | nil => rfl
  | cons d ds ih => exact (ih _).trans (states_modify q d.1 _ fun _ => rfl)

theorem finish_states {ps : List Slot} {q q' : QueueBase} (h : finish ps q = .ok q') (p : Slot) :
    (p ∉ ps ∧ q'.states p = q.states p) ∨ (p ∈ ps ∧ q.states p = .processing ∧ q'.states p = .processed) := by
  induction ps generalizing q with
  | nil =>
    cases h
    exact .inl ⟨by simp, rfl⟩
  | cons r ps ih =>
    unfold finish at h
    split at h
    · rename_i hr
      rcases ih h with ⟨hm, he⟩ | ⟨hm, he, he'⟩
      · rw [states_setState] at he
        by_cases hp : p = r
        · subst hp
          exact .inr ⟨by simp, hr, by simpa using he⟩
        · exact .inl ⟨by simp [hp, hm], by simpa [hp] using he⟩
      · rw [states_setState] at he
        by_cases hp : p = r
        · subst hp
          simp at he
        · exact .inr ⟨by simp [hm], by simpa [hp] using he, he'⟩
    · cases h

section

variable {ε ι σ κ : Type} {S : Subclass ε ι σ κ} {env : Env ε} {c c' : Config σ κ}

def Effect.cmds (e : Effect σ κ) : List (Cmd κ) :=
  (e.write.toList.map fun w => .dataWritten w.1) ++ e.next.toList.map Cmd.resume

theorem Effect.cmds_isWriteback (e : Effect σ κ) : ∀ x ∈ e.cmds, x.isWriteback = false := by
  simp only [Effect.cmds, List.mem_append, List.mem_map]
  rintro x (⟨_, -, rfl⟩ | ⟨_, -, rfl⟩) <;> rfl

/-- What the code of a subclass leaves behind: contexts change only from processing to processed. -/
structure Applied (c : Config σ κ) (e : Effect σ κ) (c' : Config σ κ) : Prop where
  ring : c'.q.ring = c.q.ring
  client : c'.client = e.client
  states : ∀ p, (p ∉ e.finished ∧ c'.q.states p = c.q.states p) ∨
    (p ∈ e.finished ∧ c.q.states p = .processing ∧ c'.q.states p = .processed)
  stack : c'.stack = e.cmds ++ c.stack
  log : c'.log = c.log ++ (e.calls.map Event.call ++ e.write.toList.map fun w => .dataWrite w.1 w.2.1 w.2.2)

theorem applyEffect_applied {e : Effect σ κ} (h : applyEffect env c e = .ok c') : Applied c e c' := by
  obtain ⟨q, hq, rfl⟩ := applyEffect_ok h
  refine ⟨?_, rfl, fun p => ?_, (List.append_assoc _ _ _).symm, List.append_assoc _ _ _⟩
  · exact (finish_ring hq).trans ((setDatas_ring _ _).trans (setDescs_ring _ _))
  · have hs := finish_states hq p
    rwa [setDatas_states, setDescs_states] at hs

end

section

variable {ε ι σ κ : Type} {S : Subclass ε ι σ κ} {env : Env ε} {c c' : Config σ κ}

def Cmd.isResume : Cmd κ → Bool
  | .resume _ => true
  | _ => false

/-- The configuration in which `process` is called on the context at the window offset `i + j`. -/
def enterProcess (c : Config σ κ) (i j : ℕ) : Config σ κ :=
  let p := slot maxActiveDescs (c.q.activeFirstPos + (i + j))
  { c with
    q := c.q.setState p .processing
    stack := .processLoop i (j + 1) :: c.stack
    log := c.log ++ [.process p (c.q.ctxs p).index] }

/-- A command runs no code of the subclass, or `process`, or the rest of an earlier call. -/
structure Quiet (cmd : Cmd κ) (c c' : Config σ κ) : Prop where
  client : c'.client = c.client
  log : ∃ new, c'.log = c.log ++ new ∧ (∀ o, Event.call o ∉ new) ∧ (∀ p idx, Event.process p idx ∉ new) ∧
    ∀ p addr bytes, Event.dataWrite p addr bytes ∉ new
  stack : ∃ new, c'.stack = new ++ c.stack ∧ ∀ x ∈ new, x.isResume = false
  cmd : cmd.isResume = false ∧ ∀ i j, cmd = .processLoop i j →
    c' = c ∧ ¬(i + j < c.q.activeCnt ∧ c.q.stateAt (c.q.activeFirstPos + (i + j)) = .prepared)

theorem exec_subclass {cmd : Cmd κ} (he : c.q.enabled = true) (h : exec S env c cmd = .ok c') :
    Quiet cmd c c' ∨
      (∃ i j p e, cmd = .processLoop i j ∧ p = slot maxActiveDescs (c.q.activeFirstPos + (i + j)) ∧
        i + j < c.q.activeCnt ∧ c.q.stateAt (c.q.activeFirstPos + (i + j)) = .prepared ∧
        S.process env.client c.client (c.q.setState p .processing).ctxs p = .ok e ∧
        Applied (enterProcess c i j) e c') ∨
      ∃ k e, cmd = .resume k ∧ S.resume env.client c.client c.q.ctxs k = .ok e ∧ Applied c e c' := by
  have htr : ∀ x ∈ trigger κ, x.isResume = false := by simp [trigger, Cmd.isResume]
  cases cmd with
  | triggerFetch =>
    rcases triggerFetch_ok he h with ⟨-, rfl⟩ | ⟨-, -, rfl⟩
    · exact .inl ⟨rfl, ⟨[], by simp⟩, ⟨[], by simp⟩, rfl, by simp⟩
    · exact .inl ⟨rfl, ⟨_, rfl, by simp⟩, ⟨[_], rfl, by simp [Cmd.isResume]⟩, rfl, by simp⟩
  | triggerProcess =>
    cases h
    rw [triggerProcess_eq he]
    exact .inl ⟨rfl, ⟨[], by simp⟩, ⟨[_], rfl, by simp [Cmd.isResume]⟩, rfl, by simp⟩
  | triggerWriteback =>
    rcases triggerWriteback_ok he h with ⟨-, rfl⟩ | ⟨-, rfl⟩
    · exact .inl ⟨rfl, ⟨[], by simp⟩, ⟨[], by simp⟩, rfl, by simp⟩
    · refine .inl ⟨rfl, ⟨_, rfl, ?_⟩, ⟨[_], rfl, by simp [Cmd.isResume]⟩, rfl, by simp⟩
      unfold writebackEvent
      split <;> simp
  | processLoop i j =>
    rcases processLoop_ok h with ⟨hn, rfl⟩ | ⟨hlt, hp, p, q, e, rfl, rfl, hpr, ha⟩
    · refine .inl ⟨rfl, ⟨[], by simp⟩, ⟨[], by simp⟩, rfl, ?_⟩
      rintro _ _ ⟨⟩
      exact ⟨rfl, hn⟩
    · refine .inr (.inl ⟨i, j, _, e, rfl, rfl, hlt, hp, hpr, ?_⟩)
      have hx := index_modify c.q (slot maxActiveDescs (c.q.activeFirstPos + (i + j)))
        (fun x => { x with state := .processing }) (fun _ => rfl)
        (slot maxActiveDescs (c.q.activeFirstPos + (i + j)))
      unfold enterProcess
      dsimp only
      rw [← hx]
      exact applyEffect_applied ha
  | fetchDone pos cnt i buf =>
    rcases fetchDone_ok h with ⟨-, rfl⟩ | ⟨-, p, d, q, -, -, -, ⟨-, rfl⟩ | ⟨addr, len, -, rfl⟩⟩
    · exact .inl ⟨rfl, ⟨[], by simp⟩, ⟨_, rfl, htr⟩, rfl, by simp⟩
    · exact .inl ⟨rfl, ⟨[], by simp⟩, ⟨[_], rfl, by simp [Cmd.isResume]⟩, rfl, by simp⟩
    · exact .inl ⟨rfl, ⟨[], by simp⟩, ⟨[_, _], rfl, by simp [Cmd.isResume]⟩, rfl, by simp⟩
  | dataFetch p addr off total =>
    obtain ⟨n, q, -, -, ⟨-, rfl⟩ | ⟨-, rfl⟩⟩ := dataFetch_ok h
    · exact .inl ⟨rfl, ⟨_, rfl, by simp⟩, ⟨[_], rfl, by simp [Cmd.isResume]⟩, rfl, by simp⟩
    · exact .inl ⟨rfl, ⟨_, rfl, by simp⟩, ⟨_, rfl, htr⟩, rfl, by simp⟩
  | dataWritten p =>
    rw [dataWritten_ok h]
    exact .inl ⟨rfl, ⟨[], by simp⟩, ⟨_, rfl, htr⟩, rfl, by simp⟩
  | writebackDone pos cnt =>
    rw [(writebackDone_ok he h).2]
    exact .inl ⟨rfl, ⟨_, rfl, by simp⟩, ⟨_, rfl, htr⟩, rfl, by simp⟩
  | resume k =>
    obtain ⟨e, hr, ha⟩ := resume_ok h
    exact .inr (.inr ⟨k, e, rfl, hr, applyEffect_applied ha⟩)

theorem Applied.calls {e : Effect σ κ} (h : Applied c e c') : calls c'.log = calls c.log ++ e.calls := by
  rw [h.log, calls_append, calls_effect]

theorem Quiet.calls {cmd : Cmd κ} (h : Quiet cmd c c') : calls c'.log = calls c.log := by
  obtain ⟨new, hlog, hnew, -⟩ := h.log
  have hn : DescriptorQueue.calls new = [] := by
    rw [DescriptorQueue.calls, List.filterMap_eq_nil_iff]
    intro x hx
    cases x with
    | call o => exact absurd hx (hnew o)
    | _ => rfl
  rw [hlog, calls_append, hn, List.append_nil]

theorem exec_calls {cmd : Cmd κ} (he : c.q.enabled = true) (h : exec S env c cmd = .ok c') :
    (c'.client = c.client ∧ calls c'.log = calls c.log ∧ ∀ i j, cmd = .processLoop i j →
        ¬(i + j < c.q.activeCnt ∧ c.q.stateAt (c.q.activeFirstPos + (i + j)) = .prepared)) ∨
      (∃ i j p e, cmd = .processLoop i j ∧ p = slot maxActiveDescs (c.q.activeFirstPos + (i + j)) ∧
        i + j < c.q.activeCnt ∧ c.q.stateAt (c.q.activeFirstPos + (i + j)) = .prepared ∧
        S.process env.client c.client (c.q.setState p .processing).ctxs p = .ok e ∧
        c'.client = e.client ∧ calls c'.log = calls c.log ++ e.calls) ∨
      (∃ k e, cmd = .resume k ∧ S.resume env.client c.client c.q.ctxs k = .ok e ∧
        c'.client = e.client ∧ calls c'.log = calls c.log ++ e.calls) := by
  rcases exec_subclass he h with hq | ⟨i, j, p, e, hc, hp, hlt, hst, hpr, ha⟩ | ⟨k, e, hc, hr, ha⟩
  · exact .inl ⟨hq.client, hq.calls, fun i j hc => (hq.cmd.2 i j hc).2⟩
  · refine .inr (.inl ⟨i, j, p, e, hc, hp, hlt, hst, hpr, ha.client, ?_⟩)
    rw [ha.calls]
    simp [enterProcess, calls]
  · exact .inr (.inr ⟨k, e, hc, hr, ha.client, ha.calls⟩)

end

end Vmux.DescriptorQueue
