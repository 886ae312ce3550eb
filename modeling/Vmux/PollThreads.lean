import Vmux.Transitions
import Mathlib.Data.Set.Basic
import Mathlib.Tactic

namespace Vmux.PollThreads

open Transitions

inductive Dev
  | dev1 | dev2
deriving DecidableEq, Repr

def Dev.other : Dev → Dev
  | dev1 => dev2
  | dev2 => dev1

/-- `rx_poll_thread_double` and `tx_poll_thread_double`. -/
inductive Poller
  | rx | tx
deriving DecidableEq, Repr

/-- Where a poll thread is: it takes both locks, then loops over the two devices. -/
inductive PollPc
  | lock (d : Dev) | stopRequested
  | test (d : Dev) | unlock (d : Dev) | spin (d : Dev) | relock (d : Dev) | poll (d : Dev)
  | leave (d : Dev) | ended
deriving DecidableEq, Repr

/-- Where the vfio-user thread of a device is in `dma_register_cb` or `dma_unregister_cb`. -/
inductive VfioPc
  | idle | lock | clear | map
deriving DecidableEq, Repr

structure State where
  poller : Poller → PollPc
  vfio : Dev → VfioPc
  shared : Dev → Poller → Bool
  exclusive : Dev → Bool
  dmaFlag : Dev → Bool

def State.start : State where
  poller _ := .lock .dev1
  vfio _ := .idle
  shared _ _ := false
  exclusive _ := false
  dmaFlag _ := false

namespace State

variable (s : State)

def setPoller (p : Poller) (pc : PollPc) : State := { s with poller := Function.update s.poller p pc }

def setVfio (d : Dev) (pc : VfioPc) : State := { s with vfio := Function.update s.vfio d pc }

def setShared (d : Dev) (p : Poller) (b : Bool) : State :=
  { s with shared := Function.update s.shared d (Function.update (s.shared d) p b) }

def setExclusive (d : Dev) (b : Bool) : State := { s with exclusive := Function.update s.exclusive d b }

def setDmaFlag (d : Dev) (b : Bool) : State := { s with dmaFlag := Function.update s.dmaFlag d b }

/-- `lock_shared` does not block. A lock may also let waiting writers go first. -/
def sharedFree (writersFirst : Bool) (d : Dev) : Bool :=
  !s.exclusive d && !(writersFirst && s.vfio d == .lock)

def exclusiveFree (d : Dev) : Bool :=
  !s.exclusive d && !s.shared d .rx && !s.shared d .tx

/-- Take the lock of `d` in shared mode and go on at `pc`. -/
def lockShared (writersFirst : Bool) (p : Poller) (d : Dev) (pc : PollPc) : Option State :=
  if s.sharedFree writersFirst d then some ((s.setShared d p true).setPoller p pc) else none

end State

/-- The next point of a poll thread; `stop` is what `stop_requested()` returns. -/
def pollStep (writersFirst stop : Bool) (p : Poller) (s : State) : Option State :=
  match s.poller p with
  | .lock .dev1 => s.lockShared writersFirst p .dev1 (.lock .dev2)
  | .lock .dev2 => s.lockShared writersFirst p .dev2 .stopRequested
  | .stopRequested => some (s.setPoller p (if stop then .leave .dev2 else .test .dev1))
  | .test d => some (s.setPoller p (if s.dmaFlag d then .unlock d else .poll d))
  | .unlock d => some ((s.setShared d p false).setPoller p (.spin d))
  | .spin d => if s.dmaFlag d then none else some (s.setPoller p (.relock d))
  | .relock d => s.lockShared writersFirst p d (.poll d)
  | .poll .dev1 => some (s.setPoller p (.test .dev2))
  | .poll .dev2 => some (s.setPoller p .stopRequested)
  | .leave .dev2 => some ((s.setShared .dev2 p false).setPoller p (.leave .dev1))
  | .leave .dev1 => some ((s.setShared .dev1 p false).setPoller p .ended)
  | .ended => none

/-- The next point of a vfio-user thread; an idle one enters a callback. -/
def vfioStep (d : Dev) (s : State) : Option State :=
  match s.vfio d with
  | .idle => some ((s.setDmaFlag d true).setVfio d .lock)
  | .lock => if s.exclusiveFree d then some ((s.setExclusive d true).setVfio d .clear) else none
  | .clear => some ((s.setDmaFlag d false).setVfio d .map)
  | .map => some ((s.setExclusive d false).setVfio d .idle)

inductive Action
  | poll (p : Poller) (stop : Bool)
  | vfio (d : Dev)
deriving DecidableEq, Repr

def step (writersFirst : Bool) (s : State) : Action → Option State
  | .poll p stop => pollStep writersFirst stop p s
  | .vfio d => vfioStep d s

/-- The two poll threads and the two vfio-user threads, interleaved in any order. -/
def pollMachine (writersFirst : Bool) : Machine State where
  start s := s = State.start
  step s t := ∃ a, step writersFirst s a = some t

inductive Thread
  | poller (p : Poller)
  | vfio (d : Dev)
deriving DecidableEq, Repr

/-- Nothing but a step of the second thread can end what the first one waits for. -/
def WaitsFor (writersFirst : Bool) (s : State) : Thread → Thread → Prop
  | .poller p, .vfio d => s.poller p = .spin d ∧ s.dmaFlag d = true ∨
      (s.poller p = .lock d ∨ s.poller p = .relock d) ∧ s.sharedFree writersFirst d = false
  | .vfio d, .poller p => s.vfio d = .lock ∧ s.shared d p = true
  | _, _ => False

/-- A set of threads each of which waits for another one of the set. -/
def Stuck (writersFirst : Bool) (s : State) (W : Set Thread) : Prop :=
  W.Nonempty ∧ ∀ t ∈ W, ∃ u ∈ W, WaitsFor writersFirst s t u

def Deadlock (writersFirst : Bool) (s : State) : Prop := ∃ W, Stuck writersFirst s W

/-- The shared locks that a poll thread holds at a program point. -/
def PollPc.holds : PollPc → Dev → Bool
  | .lock .dev1, _ => false
  | .lock .dev2, d => d = .dev1
  | .spin d, e | .relock d, e => e ≠ d
  | .leave .dev1, d => d = .dev1
  | .ended, _ => false
  | _, _ => true

/-- The locks and the flags are what the program points say. -/
structure Locked (s : State) : Prop where
  shared : ∀ d p, s.shared d p = (s.poller p).holds d
  exclusive : ∀ d, s.exclusive d = true ↔ s.vfio d = .clear ∨ s.vfio d = .map
  dmaFlag : ∀ d, s.dmaFlag d = true ↔ s.vfio d = .lock ∨ s.vfio d = .clear

theorem Locked.start : Locked State.start :=
  ⟨fun _ _ => rfl, fun _ => by simp [State.start], fun _ => by simp [State.start]⟩

variable {w stop : Bool} {s t : State} {p : Poller} {d : Dev}

/-- A poll thread that moves to `pc`, holding the locks it holds there. -/
def State.movePoller (s : State) (p : Poller) (pc : PollPc) : State :=
  { s with
    poller := Function.update s.poller p pc
    shared := fun d r => if r = p then pc.holds d else s.shared d r }

theorem setPoller_eq (h : Locked s) {pc : PollPc} (hp : ∀ d, pc.holds d = (s.poller p).holds d) :
    s.setPoller p pc = s.movePoller p pc := by
  unfold State.setPoller State.movePoller
  congr
  funext d r
  split
  · rename_i hr
    rw [hr, h.shared, hp]
  · rfl

theorem setShared_eq (h : Locked s) {b : Bool} {pc : PollPc} (hd : pc.holds d = b)
    (hp : ∀ e, e ≠ d → pc.holds e = (s.poller p).holds e) :
    (s.setShared d p b).setPoller p pc = s.movePoller p pc := by
  unfold State.setPoller State.setShared State.movePoller
  congr
  funext e r
  dsimp only
  by_cases he : e = d
  · subst he
    rw [Function.update_self, Function.update_apply, hd]
  · rw [Function.update_of_ne he]
    split
    · rename_i hr
      rw [hr, h.shared, hp e he]
    · rfl

theorem lockShared_eq (h : Locked s) {pc : PollPc} (hd : pc.holds d = true)
    (hp : ∀ e, e ≠ d → pc.holds e = (s.poller p).holds e) (hs : s.lockShared w p d pc = some t) :
    s.sharedFree w d = true ∧ t = s.movePoller p pc := by
  unfold State.lockShared at hs
  split at hs
  · rename_i hf
    cases hs
    exact ⟨hf, setShared_eq h hd hp⟩
  · cases hs

theorem pollStep_ok (h : Locked s) (hs : pollStep w stop p s = some t) :
    (∀ u, ¬WaitsFor w s (.poller p) u) ∧ ∃ pc, t = s.movePoller p pc := by
  have hrun : (∀ d, s.poller p ≠ .spin d ∧ s.poller p ≠ .lock d ∧ s.poller p ≠ .relock d) →
      ∀ u, ¬WaitsFor w s (.poller p) u := by
    rintro hn (q | d)
    · exact id
    · rintro (⟨h, -⟩ | ⟨h | h, -⟩)
      · exact (hn d).1 h
      · exact (hn d).2.1 h
      · exact (hn d).2.2 h
  have hfree : ∀ d, (s.poller p = .lock d ∨ s.poller p = .relock d) → s.sharedFree w d = true →
      ∀ u, ¬WaitsFor w s (.poller p) u := by
    rintro d hd hf (q | e)
    · exact id
    · rintro (⟨h, -⟩ | ⟨h, hb⟩)
      · rcases hd with hd | hd <;> rw [hd] at h <;> cases h
      · have he : e = d := by
          rcases hd with hd | hd <;> rw [hd] at h <;> simpa [eq_comm] using h
        rw [he, hf] at hb
        cases hb
  unfold pollStep at hs
  split at hs
  case h_1 hpc =>
    obtain ⟨hf, rfl⟩ := lockShared_eq h rfl (by intro e he; rw [hpc]; cases e <;> simp_all [PollPc.holds]) hs
    exact ⟨hfree _ (.inl hpc) hf, _, rfl⟩
  case h_2 hpc =>
    obtain ⟨hf, rfl⟩ := lockShared_eq h rfl (by intro e he; rw [hpc]; cases e <;> simp_all [PollPc.holds]) hs
    exact ⟨hfree _ (.inl hpc) hf, _, rfl⟩
  case h_3 hpc =>
    cases hs
    refine ⟨hrun (by simp [hpc]), _, setPoller_eq h fun d => ?_⟩
    rw [hpc]
    cases stop <;> rfl
  case h_4 d hpc =>
    cases hs
    refine ⟨hrun (by simp [hpc]), _, setPoller_eq h fun e => ?_⟩
    rw [hpc]
    cases s.dmaFlag d <;> rfl
  case h_5 d hpc =>
    cases hs
    refine ⟨hrun (by simp [hpc]), _, setShared_eq h (by simp [PollPc.holds]) fun e he => ?_⟩
    rw [hpc]
    simp [PollPc.holds, he]
  case h_6 d hpc =>
    split at hs
    · cases hs
    · rename_i hf
      cases hs
      refine ⟨?_, _, setPoller_eq h fun e => by rw [hpc]; rfl⟩
      rintro (q | e)
      · exact id
      · rintro (⟨h, hb⟩ | ⟨h | h, -⟩) <;> rw [hpc] at h <;> cases h
        exact hf hb
  case h_7 d hpc =>
    obtain ⟨hf, rfl⟩ := lockShared_eq h rfl (by intro e he; rw [hpc]; simp [PollPc.holds, he]) hs
    exact ⟨hfree _ (.inr hpc) hf, _, rfl⟩
  case h_8 hpc =>
    cases hs
    exact ⟨hrun (by simp [hpc]), _, setPoller_eq h fun e => by rw [hpc]; rfl⟩
  case h_9 hpc =>
    cases hs
    exact ⟨hrun (by simp [hpc]), _, setPoller_eq h fun e => by rw [hpc]; rfl⟩
  case h_10 hpc =>
    cases hs
    refine ⟨hrun (by simp [hpc]), _, setShared_eq h rfl fun e he => ?_⟩
    rw [hpc]
    cases e <;> simp_all [PollPc.holds]
  case h_11 hpc =>
    cases hs
    refine ⟨hrun (by simp [hpc]), _, setShared_eq h rfl fun e he => ?_⟩
    rw [hpc]
    cases e <;> simp_all [PollPc.holds]
  case h_12 => cases hs

theorem vfioStep_ok (hs : vfioStep d s = some t) :
    (∀ u, ¬WaitsFor w s (.vfio d) u) ∧ t.poller = s.poller ∧ t.shared = s.shared ∧
      ∀ e, e ≠ d → t.vfio e = s.vfio e ∧ t.exclusive e = s.exclusive e ∧ t.dmaFlag e = s.dmaFlag e := by
  have hrun : s.vfio d ≠ .lock → ∀ u, ¬WaitsFor w s (.vfio d) u := by
    rintro hn (q | e)
    · exact fun h => hn h.1
    · exact id
  have hsame : ∀ e, e ≠ d → ∀ pc : VfioPc, Function.update s.vfio d pc e = s.vfio e :=
    fun e he pc => Function.update_of_ne he pc s.vfio
  unfold vfioStep at hs
  split at hs
  · rename_i hpc
    cases hs
    refine ⟨hrun (by simp [hpc]), rfl, rfl, fun e he => ⟨hsame e he _, rfl, ?_⟩⟩
    exact Function.update_of_ne he _ _
  · split at hs
    · rename_i hf
      cases hs
      refine ⟨?_, rfl, rfl, fun e he => ⟨hsame e he _, Function.update_of_ne he _ _, rfl⟩⟩
      rintro (q | e)
      · rintro ⟨-, hq⟩
        cases q <;> simp [State.exclusiveFree, hq] at hf
      · exact id
    · cases hs
  · rename_i hpc
    cases hs
    refine ⟨hrun (by simp [hpc]), rfl, rfl, fun e he => ⟨hsame e he _, rfl, ?_⟩⟩
    exact Function.update_of_ne he _ _
  · rename_i hpc
    cases hs
    refine ⟨hrun (by simp [hpc]), rfl, rfl, fun e he => ⟨hsame e he _, Function.update_of_ne he _ _, rfl⟩⟩

theorem Locked.vfioStep (h : Locked s) (hs : vfioStep d s = some t) : Locked t := by
  obtain ⟨-, hp, hsh, hother⟩ := vfioStep_ok (w := false) hs
  have hown : (t.exclusive d = true ↔ t.vfio d = .clear ∨ t.vfio d = .map) ∧
      (t.dmaFlag d = true ↔ t.vfio d = .lock ∨ t.vfio d = .clear) := by
    have h1 := h.exclusive d
    have h2 := h.dmaFlag d
    unfold PollThreads.vfioStep at hs
    split at hs
    · rename_i hpc
      cases hs
      simpa [State.setVfio, State.setDmaFlag, hpc] using h1
    · rename_i hpc
      split at hs
      · cases hs
        simpa [State.setVfio, State.setExclusive, hpc] using h2
      · cases hs
    · rename_i hpc
      cases hs
      simpa [State.setVfio, State.setDmaFlag, hpc] using h1
    · rename_i hpc
      cases hs
      simpa [State.setVfio, State.setExclusive, hpc] using h2
  refine ⟨fun e p => by rw [hp, hsh]; exact h.shared e p, fun e => ?_, fun e => ?_⟩
  · by_cases he : e = d
    · rw [he]
      exact hown.1
    · obtain ⟨h1, h2, -⟩ := hother e he
      rw [h1, h2]
      exact h.exclusive e
  · by_cases he : e = d
    · rw [he]
      exact hown.2
    · obtain ⟨h1, -, h3⟩ := hother e he
      rw [h1, h3]
      exact h.dmaFlag e

theorem Locked.movePoller (h : Locked s) (p : Poller) (pc : PollPc) : Locked (s.movePoller p pc) := by
  refine ⟨fun d r => ?_, h.exclusive, h.dmaFlag⟩
  unfold State.movePoller
  dsimp only
  rw [Function.update_apply]
  split
  · rfl
  · exact h.shared d r

theorem Locked.step {a : Action} (h : Locked s) (hs : step w s a = some t) : Locked t := by
  cases a with
  | poll p stop =>
    obtain ⟨-, pc, rfl⟩ := pollStep_ok h hs
    exact h.movePoller p pc
  | vfio d => exact h.vfioStep hs

theorem Locked.reachable (h : (pollMachine w).Reachable s) : Locked s := by
  refine h.invariant ?_ ?_
  · rintro s rfl
    exact Locked.start
  · rintro s t h ⟨a, hs⟩
    exact h.step hs

/-- Threads that wait for each other do so for ever, whatever the others do. -/
theorem Stuck.step {W : Set Thread} {a : Action} (hl : Locked s) (h : Stuck w s W) (hs : step w s a = some t) :
    Stuck w t W := by
  refine ⟨h.1, fun x hx => ?_⟩
  obtain ⟨y, hy, hxy⟩ := h.2 x hx
  refine ⟨y, hy, ?_⟩
  cases a with
  | poll p stop =>
    obtain ⟨hn, pc, rfl⟩ := pollStep_ok hl hs
    have hp : Thread.poller p ∉ W := fun hm => by
      obtain ⟨u, -, hu⟩ := h.2 _ hm
      exact hn u hu
    match x, y with
    | .poller q, .vfio d =>
      have hq : q ≠ p := fun he => hp (he ▸ hx)
      have hpc : (s.movePoller p pc).poller q = s.poller q := Function.update_of_ne hq _ _
      simp only [WaitsFor] at hxy ⊢
      rw [hpc]
      exact hxy
    | .vfio d, .poller q =>
      have hq : q ≠ p := fun he => hp (he ▸ hy)
      have hsh : (s.movePoller p pc).shared d q = s.shared d q := if_neg hq
      simp only [WaitsFor] at hxy ⊢
      rw [hsh]
      exact hxy
  | vfio e =>
    obtain ⟨hn, hp, hsh, hother⟩ := vfioStep_ok (w := w) hs
    have he : Thread.vfio e ∉ W := fun hm => by
      obtain ⟨u, -, hu⟩ := h.2 _ hm
      exact hn u hu
    match x, y with
    | .poller q, .vfio d =>
      obtain ⟨h1, h2, h3⟩ := hother d fun hd => he (hd ▸ hy)
      simp only [WaitsFor, State.sharedFree] at hxy ⊢
      rw [hp, h1, h2, h3]
      exact hxy
    | .vfio d, .poller q =>
      obtain ⟨h1, -, -⟩ := hother d fun hd => he (hd ▸ hx)
      simp only [WaitsFor] at hxy ⊢
      rw [hsh, h1]
      exact hxy

theorem Stuck.vfio_lock {W : Set Thread} (h : Stuck w s W) (hd : .vfio d ∈ W) :
    s.vfio d = .lock ∧ ∃ p, .poller p ∈ W ∧ s.shared d p = true := by
  obtain ⟨u, hu, hw⟩ := h.2 _ hd
  match u with
  | .poller p => exact ⟨hw.1, p, hu, hw.2⟩

theorem Stuck.poller_waits {W : Set Thread} (h : Stuck w s W) (hp : .poller p ∈ W) :
    ∃ d, .vfio d ∈ W ∧ (s.poller p).holds d = false := by
  obtain ⟨u, hu, hw⟩ := h.2 _ hp
  match u with
  | .vfio d =>
    refine ⟨d, hu, ?_⟩
    rcases hw with ⟨hpc, -⟩ | ⟨hpc | hpc, -⟩ <;> rw [hpc] <;> cases d <;> rfl

/-- A deadlock takes the callbacks of both devices. -/
theorem Deadlock.flags (hl : Locked s) (h : Deadlock w s) (d : Dev) : s.dmaFlag d = true := by
  obtain ⟨W, hW⟩ := h
  have hv : ∃ e, Thread.vfio e ∈ W := by
    obtain ⟨x, hx⟩ := hW.1
    match x with
    | .poller p =>
      obtain ⟨e, he, -⟩ := hW.poller_waits hx
      exact ⟨e, he⟩
    | .vfio e => exact ⟨e, hx⟩
  obtain ⟨e, he⟩ := hv
  obtain ⟨hlock, p, hp, hsh⟩ := hW.vfio_lock he
  obtain ⟨e', he', hn⟩ := hW.poller_waits hp
  -- the thread holds the lock of `e` and waits for the other device
  have hne : e' ≠ e := by
    rintro rfl
    rw [hl.shared, hn] at hsh
    cases hsh
  have hlock' := (hW.vfio_lock he').1
  have hd : d = e ∨ d = e' := by
    revert hne
    cases d <;> cases e <;> cases e' <;> simp
  rcases hd with rfl | rfl
  · exact (hl.dmaFlag _).mpr (.inl hlock)
  · exact (hl.dmaFlag _).mpr (.inl hlock')

/-- A callback of one device begins only while the flag of the other device is clear. -/
def Apart (s t : State) : Prop := ∀ d, s.dmaFlag d = false → t.dmaFlag d = true → s.dmaFlag d.other = false

theorem step_dmaFlag {a : Action} (h : Locked s) (hs : step w s a = some t) :
    ∃ d, ∀ e, e ≠ d → t.dmaFlag e = s.dmaFlag e := by
  cases a with
  | poll p stop =>
    obtain ⟨-, pc, rfl⟩ := pollStep_ok h hs
    exact ⟨.dev1, fun _ _ => rfl⟩
  | vfio d =>
    obtain ⟨-, -, -, hother⟩ := vfioStep_ok (w := w) hs
    exact ⟨d, fun e he => (hother e he).2.2⟩

theorem Apart.reachable (h : ((pollMachine w).restrict Apart).Reachable s) : ∃ d, s.dmaFlag d = false := by
  induction h with
  | start h =>
    obtain rfl := h
    exact ⟨.dev1, rfl⟩
  | @step s t hr h ih =>
    obtain ⟨⟨a, hs⟩, hg⟩ := h
    obtain ⟨d, hd⟩ := ih
    by_cases ht : t.dmaFlag d = false
    · exact ⟨d, ht⟩
    · have ht : t.dmaFlag d = true := by simpa using ht
      obtain ⟨e, he⟩ := step_dmaFlag (Locked.reachable hr.of_restrict) hs
      have hde : d = e := by
        by_contra hne
        rw [he d hne, hd] at ht
        cases ht
      refine ⟨d.other, ?_⟩
      rw [he _ (by rw [hde]; cases e <;> simp [Dev.other])]
      exact hg d hd ht

theorem polling_deadlock_free (w : Bool) :
    (∀ s, ((pollMachine w).restrict Apart).Reachable s → ¬Deadlock w s) ∧
      ∀ s, (pollMachine w).Reachable s → Deadlock w s → ∀ d, s.dmaFlag d = true := by
  refine ⟨fun s h hd => ?_, fun s h hd => hd.flags (Locked.reachable h)⟩
  obtain ⟨d, hf⟩ := Apart.reachable h
  rw [hd.flags (Locked.reachable h.of_restrict) d] at hf
  cases hf

def runActions (w : Bool) : List Action → State → Option State
  | [], s => some s
  | a :: as, s => (step w s a).bind (runActions w as)

theorem runActions_reachable {as : List Action} (h : (pollMachine w).Reachable s)
    (hs : runActions w as s = some t) : (pollMachine w).Reachable t := by
  induction as generalizing s with
  | nil =>
    cases hs
    exact h
  | cons a as ih =>
    obtain ⟨u, hu, hs⟩ := Option.bind_eq_some_iff.mp hs
    exact ih (.step h ⟨a, hu⟩) hs

/-- The thread for TX passes its test of device 1 before that flag is set, the one for RX after it. -/
def crossing : List Action :=
  (List.replicate 3 (.poll .tx false) ++ List.replicate 3 (.poll .rx false)) ++
    [.poll .tx false, .poll .tx false, .vfio .dev1, .vfio .dev2, .poll .rx false, .poll .rx false,
      .poll .tx false, .poll .tx false]

/-- Each poll thread spins on one flag and keeps the lock that the callback of the other device needs. -/
def crossed (s : State) : Bool :=
  s.poller .rx = .spin .dev1 && s.poller .tx = .spin .dev2 && s.vfio .dev1 = .lock && s.vfio .dev2 = .lock &&
    s.dmaFlag .dev1 && s.dmaFlag .dev2 && s.shared .dev2 .rx && s.shared .dev1 .tx

theorem crossed_deadlock (h : crossed s = true) : Deadlock w s := by
  simp only [crossed, Bool.and_eq_true, decide_eq_true_eq] at h
  obtain ⟨⟨⟨⟨⟨⟨⟨h1, h2⟩, h3⟩, h4⟩, h5⟩, h6⟩, h7⟩, h8⟩ := h
  refine ⟨Set.univ, ⟨.vfio .dev1, trivial⟩, ?_⟩
  rintro (p | d) -
  · cases p
    · exact ⟨.vfio .dev1, trivial, .inl ⟨h1, h5⟩⟩
    · exact ⟨.vfio .dev2, trivial, .inl ⟨h2, h6⟩⟩
  · cases d
    · exact ⟨.poller .tx, trivial, h3, h8⟩
    · exact ⟨.poller .rx, trivial, h4, h7⟩

theorem Deadlock.forever (hr : (pollMachine w).Reachable s) (h : Deadlock w s)
    (hst : Relation.ReflTransGen (pollMachine w).step s t) : Deadlock w t := by
  obtain ⟨W, hW⟩ := h
  refine ⟨W, ?_⟩
  induction hst with
  | refl => exact hW
  | tail hst ht ih =>
    obtain ⟨a, ha⟩ := ht
    exact ih.step (Locked.reachable (hr.steps hst)) ha

theorem polling_deadlocks : ∃ s, (pollMachine false).Reachable s ∧
    ∀ t, Relation.ReflTransGen (pollMachine false).step s t → Deadlock false t := by
  have hrun : (runActions false crossing State.start).map crossed = some true := by decide
  obtain ⟨s, hs, hc⟩ := Option.map_eq_some_iff.mp hrun
  have hr := runActions_reachable (.start rfl) hs
  exact ⟨s, hr, fun t => Deadlock.forever hr (crossed_deadlock hc)⟩

/-- One callback that runs alone is waited for and then done. -/
theorem polling_deadlock_free_alone : ∃ s, ((pollMachine false).restrict Apart).Reachable s ∧
    s.vfio .dev1 = .lock ∧ ¬Deadlock false s := by
  have hr : ((pollMachine false).restrict Apart).Reachable ((State.start.setDmaFlag .dev1 true).setVfio .dev1 .lock) := by
    refine .step (.start rfl) ⟨⟨.vfio .dev1, rfl⟩, ?_⟩
    intro d _ _
    rfl
  exact ⟨_, hr, rfl, (polling_deadlock_free false).1 _ hr⟩

end Vmux.PollThreads
