import Vmux.Ownership
import Vmux.QueueSteps

namespace Vmux.DescriptorQueue

open Bytes CircularWindow Transitions Ownership

def QueueBase.states (q : QueueBase) (p : Slot) : DescState := (q.ctxs p).state

structure Window (q : QueueBase) : Prop where
  cnt_le : q.activeCnt ≤ maxActiveDescs
  pos_lt : q.activeFirstPos < maxActiveDescs
  idx_lt : q.activeFirstIdx < q.len
  active : ∀ i < q.activeCnt, q.stateAt (q.activeFirstPos + i) ≠ .empty ∧
    (q.ctx (q.activeFirstPos + i)).index = (q.activeFirstIdx + i) % q.len
  rest : ∀ i, q.activeCnt ≤ i → i < maxActiveDescs → q.stateAt (q.activeFirstPos + i) = .empty

theorem Window.of_offset_lt {q : QueueBase} (h : Window q) {p : Slot}
    (hp : offset q.activeFirstPos p < q.activeCnt) :
    q.states p ≠ .empty ∧ (q.ctxs p).index = (q.activeFirstIdx + offset q.activeFirstPos p) % q.len := by
  have ha := h.active _ hp
  rwa [QueueBase.stateAt, QueueBase.ctx, slot_offset] at ha

theorem Window.of_le_offset {q : QueueBase} (h : Window q) {p : Slot}
    (hp : q.activeCnt ≤ offset q.activeFirstPos p) : q.states p = .empty := by
  have ha := h.rest _ hp (offset_lt _ _)
  rwa [QueueBase.stateAt, QueueBase.ctx, slot_offset] at ha

theorem Window.active_iff {q : QueueBase} (h : Window q) (p : Slot) :
    offset q.activeFirstPos p < q.activeCnt ↔ q.states p ≠ .empty :=
  ⟨fun hp => (h.of_offset_lt hp).1, fun hp => by
    by_contra hn
    exact hp (h.of_le_offset (by omega))⟩

theorem Window.of_slots {q : QueueBase} (hc : q.activeCnt ≤ maxActiveDescs)
    (hp : q.activeFirstPos < maxActiveDescs) (hi : q.activeFirstIdx < q.len)
    (ha : ∀ p, offset q.activeFirstPos p < q.activeCnt → q.states p ≠ .empty ∧
      (q.ctxs p).index = (q.activeFirstIdx + offset q.activeFirstPos p) % q.len)
    (hr : ∀ p, q.activeCnt ≤ offset q.activeFirstPos p → q.states p = .empty) : Window q := by
  refine ⟨hc, hp, hi, ?_, ?_⟩
  · intro i hl
    have hi' : i < maxActiveDescs := by omega
    have h := ha (slot maxActiveDescs (q.activeFirstPos + i))
    rw [offset_slot _ _ hi'] at h
    exact h hl
  · intro i hl hi'
    have h := hr (slot maxActiveDescs (q.activeFirstPos + i))
    rw [offset_slot _ _ hi'] at h
    exact h hl

theorem Window.congr {q q' : QueueBase} (h : Window q) (hp : q'.activeFirstPos = q.activeFirstPos)
    (hi : q'.activeFirstIdx = q.activeFirstIdx) (hc : q'.activeCnt = q.activeCnt) (hl : q'.len = q.len)
    (hx : ∀ p, (q'.ctxs p).index = (q.ctxs p).index)
    (hs : ∀ p, q'.states p = .empty ↔ q.states p = .empty) : Window q' := by
  apply Window.of_slots
  · rw [hc]; exact h.cnt_le
  · rw [hp]; exact h.pos_lt
  · rw [hi, hl]; exact h.idx_lt
  · intro p hlt
    rw [hp, hc] at hlt
    rw [hp, hi, hl, hx]
    exact ⟨fun he => (h.of_offset_lt hlt).1 ((hs p).mp he), (h.of_offset_lt hlt).2⟩
  · intro p hle
    rw [hp, hc] at hle
    exact (hs p).mpr (h.of_le_offset hle)

@[simp] theorem states_setState (q : QueueBase) (p : Slot) (s : DescState) :
    (q.setState p s).states = Function.update q.states p s := by
  funext r
  by_cases hr : r = p
  · subst hr
    simp [QueueBase.states, QueueBase.setState, QueueBase.modify]
  · simp [QueueBase.states, QueueBase.setState, QueueBase.modify, hr]

theorem states_modify (q : QueueBase) (p : Slot) (f : DescCtx → DescCtx)
    (hf : ∀ x, (f x).state = x.state) : (q.modify p f).states = q.states := by
  funext r
  by_cases hr : r = p
  · subst hr
    simp [QueueBase.states, QueueBase.modify, hf]
  · simp [QueueBase.states, QueueBase.modify, hr]

theorem index_modify (q : QueueBase) (p : Slot) (f : DescCtx → DescCtx)
    (hf : ∀ x, (f x).index = x.index) (r : Slot) : ((q.modify p f).ctxs r).index = (q.ctxs r).index := by
  by_cases hr : r = p
  · subst hr
    simp [QueueBase.modify, hf]
  · simp [QueueBase.modify, hr]

theorem Window.modify {q : QueueBase} (h : Window q) (p : Slot) (f : DescCtx → DescCtx)
    (hx : ∀ x, (f x).index = x.index) (hs : (f (q.ctxs p)).state = .empty ↔ q.states p = .empty) :
    Window (q.modify p f) := by
  refine h.congr rfl rfl rfl rfl (index_modify q p f hx) ?_
  intro r
  by_cases hr : r = p
  · subst hr
    simpa [QueueBase.states, QueueBase.modify] using hs
  · simp [QueueBase.states, QueueBase.modify, hr]

theorem Window.setState {q : QueueBase} (h : Window q) {p : Slot} {s : DescState} (hp : q.states p ≠ .empty)
    (hs : s ≠ .empty) : Window (q.setState p s) :=
  h.modify p _ (fun _ => rfl) (by simp [hs, hp])

theorem states_markRange (q : QueueBase) (first cnt : ℕ) (s : DescState) (p : Slot) :
    (q.markRange first cnt s).states p = if offset first p < cnt then s else q.states p := by
  simp only [QueueBase.states, QueueBase.markRange, update]
  split <;> rfl

theorem index_markRange (q : QueueBase) (first cnt : ℕ) (s : DescState) (p : Slot) :
    ((q.markRange first cnt s).ctxs p).index = (q.ctxs p).index := by
  simp only [QueueBase.markRange, update]
  split <;> rfl

theorem allInState_iff (q : QueueBase) (first cnt : ℕ) (s : DescState) :
    q.allInState first cnt s = true ↔ ∀ i < cnt, q.stateAt (first + i) = s := by
  simp [QueueBase.allInState]

def Busy : DescState → Prop
  | .fetching | .preparing | .processing | .writingBack => True
  | _ => False

def rangeClaims (pos i n : ℕ) (s : DescState) : List (Slot × DescState) :=
  (List.range' i n).map fun k => (slot maxActiveDescs (pos + k), s)

section

variable {ε ι σ κ : Type}

/-- The contexts whose next state change is up to this command. -/
def Cmd.claims : Cmd κ → List (Slot × DescState)
  | .fetchDone pos cnt i _ => rangeClaims pos i (cnt - i) .fetching
  | .dataFetch p _ _ _ => [(p, .preparing)]
  | .dataWritten p => [(p, .processing)]
  | .writebackDone pos cnt => rangeClaims pos 0 cnt .writingBack
  | _ => []

def claims (S : Subclass ε ι σ κ) (c : Config σ κ) : List (Slot × DescState) :=
  c.stack.flatMap Cmd.claims ++ (S.held c.client).map fun p => (p, .processing)

def Cmd.isWriteback : Cmd κ → Bool
  | .writebackDone _ _ => true
  | _ => false

/-- A write-back completes before anything else runs, and it is at the front of the window. -/
structure Settled (c : Config σ κ) : Prop where
  front : ∀ pos n rest, c.stack = .writebackDone pos n :: rest →
    pos = c.q.activeFirstPos ∧ n ≤ c.q.activeCnt
  below : ∀ cmd rest, c.stack = cmd :: rest → ∀ x ∈ rest, x.isWriteback = false
  states : ∀ p, c.q.states p ≠ .writtenBack

structure Inv (S : Subclass ε ι σ κ) (c : Config σ κ) : Prop where
  enabled : c.q.enabled = true
  len_lt : c.q.len < 0x4000
  window : Window c.q
  owned : Owned Busy (claims S c) c.q.states
  settled : Settled c

end

theorem mem_rangeClaims {pos i n : ℕ} {s : DescState} {p : Slot} {t : DescState} :
    (p, t) ∈ rangeClaims pos i n s ↔ (∃ k, i ≤ k ∧ k < i + n ∧ slot maxActiveDescs (pos + k) = p) ∧ s = t := by
  simp only [rangeClaims, List.mem_map, List.mem_range'_1, Prod.mk.injEq]
  constructor
  · rintro ⟨k, ⟨h1, h2⟩, h3, h4⟩
    exact ⟨⟨k, h1, h2, h3⟩, h4⟩
  · rintro ⟨⟨k, h1, h2, h3⟩, h4⟩
    exact ⟨k, ⟨h1, h2⟩, h3, h4⟩

theorem mem_rangeClaims_zero {pos n : ℕ} {s : DescState} (hn : n ≤ maxActiveDescs) {p : Slot} {t : DescState} :
    (p, t) ∈ rangeClaims pos 0 n s ↔ offset pos p < n ∧ s = t := by
  rw [mem_rangeClaims]
  constructor
  · rintro ⟨⟨k, -, hk, rfl⟩, ht⟩
    rw [offset_slot _ _ (by omega)]
    exact ⟨by omega, ht⟩
  · rintro ⟨ho, ht⟩
    exact ⟨⟨offset pos p, by omega, by omega, slot_offset _ _⟩, ht⟩

theorem rangeClaims_nodup {pos n : ℕ} {s : DescState} (hn : n ≤ maxActiveDescs) :
    ((rangeClaims pos 0 n s).map Prod.fst).Nodup := by
  rw [rangeClaims, List.map_map]
  apply List.Nodup.map_on _ (List.nodup_range' 1)
  intro a ha b hb hab
  rw [List.mem_range'_1] at ha hb
  exact slot_injective (by omega) (by omega) hab

theorem rangeClaims_succ {pos i n : ℕ} {s : DescState} (h : i < n) :
    rangeClaims pos i (n - i) s = (slot maxActiveDescs (pos + i), s) :: rangeClaims pos (i + 1) (n - (i + 1)) s := by
  obtain ⟨m, hm⟩ : ∃ m, n - i = m + 1 := ⟨n - i - 1, by omega⟩
  rw [hm, show n - (i + 1) = m by omega, rangeClaims, List.range'_succ]
  rfl

end Vmux.DescriptorQueue
