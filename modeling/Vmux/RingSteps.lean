import Vmux.QueueRuns

namespace Vmux.DescriptorQueue

open Bytes CircularWindow Transitions Ownership

def Event.isRing : Event → Bool
  | .fetch _ _ _ _ | .writeBack _ _ _ _ _ | .headWriteBack _ _ _ _ _ => true
  | _ => false

def ringLog (log : List Event) : List Event := log.filter Event.isRing

theorem ringLog_append (a b : List Event) : ringLog (a ++ b) = ringLog a ++ ringLog b := List.filter_append ..

theorem ringLog_eq_nil {log : List Event} (h : ∀ e ∈ log, e.isRing = false) : ringLog log = [] := by
  rw [ringLog, List.filter_eq_nil_iff]
  intro e he
  simp [h e he]

section

variable {ε ι σ κ : Type} {S : Subclass ε ι σ κ} {env : Env ε} {c c' : Config σ κ}

theorem Applied.ringLog {e : Effect σ κ} (h : Applied c e c') : ringLog c'.log = ringLog c.log := by
  have hn : DescriptorQueue.ringLog (e.calls.map Event.call ++
      e.write.toList.map fun w => .dataWrite w.1 w.2.1 w.2.2) = [] := by
    apply ringLog_eq_nil
    intro x hx
    rw [List.mem_append, List.mem_map, List.mem_map] at hx
    rcases hx with ⟨_, -, rfl⟩ | ⟨_, -, rfl⟩ <;> rfl
  rw [h.log, ringLog_append, hn, List.append_nil]

theorem exec_ring {cmd : Cmd κ} (he : c.q.enabled = true) (h : exec S env c cmd = .ok c') :
    (cmd.isWriteback = false ∧ c'.q.ring = c.q.ring ∧ ringLog c'.log = ringLog c.log ∧
      ∃ new, c'.stack = new ++ c.stack ∧ ∀ x ∈ new, x.isWriteback = false) ∨
    (cmd = .triggerFetch ∧ c.q.fetchCnt ≠ 0 ∧ c'.q.ring = { c.q.ring with cnt := c.q.activeCnt + c.q.fetchCnt } ∧
      ringLog c'.log = ringLog c.log ++ [.fetch c.q.fetchPos c.q.nextIdx c.q.fetchCnt c.q.fetchAddr] ∧
      ∃ x, c'.stack = x :: c.stack ∧ x.isWriteback = false) ∨
    (cmd = .triggerWriteback ∧ c.q.writebackCnt ≠ 0 ∧ c'.q.ring = c.q.ring ∧
      ringLog c'.log = ringLog c.log ++ [writebackEvent S c] ∧
      c'.stack = .writebackDone c.q.activeFirstPos c.q.writebackCnt :: c.stack) ∨
    ∃ pos n, cmd = .writebackDone pos n ∧ c'.q = (c.q.markRange pos n .writtenBack).bump ∧
      ringLog c'.log = ringLog c.log ∧ c'.stack = trigger κ ++ c.stack := by
  have htr : ∀ x ∈ trigger κ, x.isWriteback = false := by simp [trigger, Cmd.isWriteback]
  cases cmd with
  | triggerFetch =>
    rcases triggerFetch_ok he h with ⟨-, rfl⟩ | ⟨hn, -, rfl⟩
    · exact .inl ⟨rfl, rfl, rfl, [], rfl, by simp⟩
    · exact .inr (.inl ⟨rfl, hn, rfl, by simp [ringLog, Event.isRing], _, rfl, rfl⟩)
  | triggerProcess =>
    cases h
    rw [triggerProcess_eq he]
    exact .inl ⟨rfl, rfl, rfl, [_], rfl, by simp [Cmd.isWriteback]⟩
  | triggerWriteback =>
    rcases triggerWriteback_ok he h with ⟨-, rfl⟩ | ⟨hn, rfl⟩
    · exact .inl ⟨rfl, rfl, rfl, [], rfl, by simp⟩
    · refine .inr (.inr (.inl ⟨rfl, hn, rfl, ?_, rfl⟩))
      rw [ringLog_append]
      congr 1
      unfold writebackEvent
      split <;> rfl
  | processLoop i j =>
    rcases processLoop_ok h with ⟨-, rfl⟩ | ⟨-, -, p, q, e, rfl, rfl, -, ha⟩
    · exact .inl ⟨rfl, rfl, rfl, [], rfl, by simp⟩
    · have ha := applyEffect_applied ha
      refine .inl ⟨rfl, ha.ring, ?_, e.cmds ++ [.processLoop i (j + 1)], by rw [ha.stack]; simp, ?_⟩
      · rw [ha.ringLog]
        simp [ringLog, Event.isRing]
      · intro x hx
        rw [List.mem_append, List.mem_singleton] at hx
        rcases hx with hx | rfl
        · exact e.cmds_isWriteback x hx
        · rfl
  | fetchDone pos cnt i buf =>
    rcases fetchDone_ok h with ⟨-, rfl⟩ | ⟨-, p, d, q, -, -, rfl, ⟨-, rfl⟩ | ⟨addr, len, -, rfl⟩⟩
    · exact .inl ⟨rfl, rfl, rfl, _, rfl, htr⟩
    · exact .inl ⟨rfl, rfl, rfl, [_], rfl, by simp [Cmd.isWriteback]⟩
    · exact .inl ⟨rfl, rfl, rfl, [_, _], rfl, by simp [Cmd.isWriteback]⟩
  | dataFetch p addr off total =>
    obtain ⟨n, q, -, rfl, ⟨-, rfl⟩ | ⟨-, rfl⟩⟩ := dataFetch_ok h
    · exact .inl ⟨rfl, rfl, by simp [ringLog, Event.isRing], [_], rfl, by simp [Cmd.isWriteback]⟩
    · exact .inl ⟨rfl, rfl, by simp [ringLog, Event.isRing], _, rfl, htr⟩
  | dataWritten p =>
    rw [dataWritten_ok h]
    exact .inl ⟨rfl, rfl, rfl, _, rfl, htr⟩
  | writebackDone pos cnt =>
    obtain ⟨-, rfl⟩ := writebackDone_ok he h
    exact .inr (.inr (.inr ⟨pos, cnt, rfl, rfl, by simp [ringLog, Event.isRing], rfl⟩))
  | resume k =>
    obtain ⟨e, -, ha⟩ := resume_ok h
    have ha := applyEffect_applied ha
    exact .inl ⟨rfl, ha.ring, ha.ringLog, e.cmds, ha.stack, e.cmds_isWriteback⟩

end

/-- One turn of the ring: the context that holds the descriptor, its index and its address. -/
structure Turn where
  slot : Slot
  idx : ℕ
  addr : ℕ
deriving DecidableEq, Repr

def turn (base len descLen k : ℕ) : Turn where
  slot := slot maxActiveDescs k
  idx := k % len
  addr := (base + k % len * descLen) % 0x10000000000000000

def turns (base len descLen n : ℕ) : List Turn := (List.range n).map (turn base len descLen)

def batch (descLen pos idx cnt addr : ℕ) : List Turn :=
  (List.range cnt).map fun i => ⟨slot maxActiveDescs (pos + i), idx + i, (addr + i * descLen) % 0x10000000000000000⟩

theorem turns_add {base len descLen n m : ℕ} (h : n % len + m ≤ len) :
    turns base len descLen (n + m) = turns base len descLen n ++
      batch descLen (n % maxActiveDescs) (n % len) m ((base + n % len * descLen) % 0x10000000000000000) := by
  unfold turns batch
  rw [List.range_add, List.map_append, List.map_map]
  congr 1
  apply List.map_congr_left
  intro i hi
  rw [List.mem_range] at hi
  have hm : (n + i) % len = n % len + i := by
    rw [← Nat.mod_add_mod, Nat.mod_eq_of_lt (by omega)]
  simp only [Function.comp_apply, turn, hm, slot_mod_add, Nat.mod_add_mod]
  congr 2
  ring

theorem turns_mono {base len descLen n m : ℕ} (h : n ≤ m) :
    turns base len descLen n <+: turns base len descLen m := by
  obtain ⟨k, rfl⟩ := Nat.exists_eq_add_of_le h
  unfold turns
  rw [List.range_add, List.map_append]
  exact List.prefix_append _ _

def fetchedBy (descLen : ℕ) : Event → List Turn
  | .fetch pos idx cnt addr => batch descLen pos idx cnt addr
  | _ => []

def fetched (descLen : ℕ) (log : List Event) : List Turn := (ringLog log).flatMap (fetchedBy descLen)

theorem fetched_congr {descLen : ℕ} {a b : List Event} (h : ringLog a = ringLog b) :
    fetched descLen a = fetched descLen b := by
  rw [fetched, h, fetched]

section

variable {ε ι σ κ : Type} {S : Subclass ε ι σ κ} {c c' : Config σ κ} {rest : List (Cmd κ)} {base len done : ℕ}

/-- The ring after `done` descriptors have been freed: every turn so far was fetched once and in order. -/
structure Ringed (base len : ℕ) (c : Config σ κ) (done : ℕ) : Prop where
  base_eq : c.q.base = base
  len_eq : c.q.len = len
  pos_eq : c.q.activeFirstPos = done % maxActiveDescs
  first_eq : c.q.activeFirstIdx = done % len
  fetched_eq : fetched c.q.descLen c.log = turns base len c.q.descLen (done + c.q.activeCnt)

theorem Ringed.start (h : Enabled S base len c) : Ringed base len c 0 := by
  refine ⟨h.base_eq, h.len_eq, ?_, ?_, ?_⟩
  · rw [h.first_pos, Nat.zero_mod]
  · rw [h.first_idx, Nat.zero_mod]
  · rw [h.cnt, h.log]
    rfl

theorem Ringed.congr (h : Ringed base len c done) (hr : c'.q.ring = c.q.ring)
    (hlog : fetched c.q.descLen c'.log = fetched c.q.descLen c.log) : Ringed base len c' done := by
  obtain ⟨h1, h2, h3, -, -, h6, h7, h8⟩ := Ring.mk.inj hr
  refine ⟨h1.trans h.base_eq, h2.trans h.len_eq, h6.trans h.pos_eq, h7.trans h.first_eq, ?_⟩
  rw [h3, h8, hlog]
  exact h.fetched_eq

theorem Ringed.nextIdx (h : Ringed base len c done) : c.q.nextIdx = (done + c.q.activeCnt) % len := by
  rw [QueueBase.nextIdx, h.first_eq, h.len_eq, Nat.mod_add_mod]

theorem Ringed.fetch (h : Ringed base len c done) (hl : 0 < len)
    (hr : c'.q.ring = { c.q.ring with cnt := c.q.activeCnt + c.q.fetchCnt })
    (hlog : ringLog c'.log = ringLog c.log ++ [.fetch c.q.fetchPos c.q.nextIdx c.q.fetchCnt c.q.fetchAddr]) :
    Ringed base len c' done := by
  have hn := h.nextIdx
  have hp : c.q.fetchPos = (done + c.q.activeCnt) % maxActiveDescs := by
    rw [QueueBase.fetchPos, h.pos_eq, Nat.mod_add_mod]
  obtain ⟨h1, h2, h3, -, -, h6, h7, h8⟩ := Ring.mk.inj hr
  refine ⟨h1.trans h.base_eq, h2.trans h.len_eq, h6.trans h.pos_eq, h7.trans h.first_eq, ?_⟩
  have hb := (fetchCnt_bounds c.q (h.len_eq ▸ hl)).2.2
  rw [h3, h8, ← Nat.add_assoc, turns_add (by rw [← hn, ← h.len_eq]; exact hb)]
  unfold fetched
  rw [hlog, List.flatMap_append]
  refine congr_arg₂ _ h.fetched_eq ?_
  rw [← hn, ← hp, ← h.base_eq]
  exact List.append_nil _

theorem Ringed.writebackDone {pos n : ℕ} (h : Ringed base len c done) (hi : Inv S c)
    (hs : c.stack = .writebackDone pos n :: rest) (hq : c'.q = (c.q.markRange pos n .writtenBack).bump)
    (hlog : ringLog c'.log = ringLog c.log) :
    Ringed base len c' (done + n) ∧ c'.q.activeCnt + n = c.q.activeCnt ∧ c'.q.regTail = c.q.regTail ∧
      c'.q.descLen = c.q.descLen := by
  obtain ⟨rfl, hn⟩ := hi.settled.front pos n rest hs
  have hb := bumpCnt_eq hi.window.cnt_le hn hi.settled.states
  have hdl : c'.q.descLen = c.q.descLen := by rw [hq]; rfl
  have hcnt : c'.q.activeCnt = c.q.activeCnt - n := by
    rw [hq]
    simp only [QueueBase.bump, hb]
    rfl
  refine ⟨⟨by rw [hq]; exact h.base_eq, by rw [hq]; exact h.len_eq, ?_, ?_, ?_⟩, by omega, by rw [hq]; rfl, hdl⟩
  · rw [hq]
    simp only [QueueBase.bump, hb]
    change (c.q.activeFirstPos + n) % _ = _
    rw [h.pos_eq, Nat.mod_add_mod]
  · rw [hq]
    simp only [QueueBase.bump, hb]
    change (c.q.activeFirstIdx + n) % c.q.len = _
    rw [h.first_eq, h.len_eq, Nat.mod_add_mod]
  · rw [hdl, hcnt, fetched_congr hlog, show done + n + (c.q.activeCnt - n) = done + c.q.activeCnt by omega]
    exact h.fetched_eq

end

end Vmux.DescriptorQueue
