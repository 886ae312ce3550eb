import Mathlib.Logic.Relation
import Vmux.Interrupts
import Vmux.Transitions

namespace Vmux.LostInterrupt

open Transitions

/-- The next access of a `try_interrupt` call to what it shares with the poll. -/
inductive TryPc
  | idle
  | loadArmed (newtime : Timespec)
  | loadTime (newtime : Timespec)
  | testArmed (newtime : Timespec)
  | storeArmed (newtime : Timespec)
  | storeTime (newtime : Timespec)
  | storeTimer (newtime : Timespec)
deriving DecidableEq, Repr

/-- The next access of a `processPollTimer` call. -/
inductive PollPc
  | idle
  | compare
  | trigger
  | clearTimer
  | clearArmed
deriving DecidableEq, Repr

/-- The threads that call `try_interrupt`, under the lock of the device. -/
inductive Caller
  | vfioUser
  | rx
deriving DecidableEq, Repr

structure State where
  armed : Bool
  time : Timespec
  pollTimer : Timespec
  tryPc : TryPc
  caller : Caller
  pollPc : PollPc
  -- some `try_interrupt` started after the last `vfu_irq_trigger`
  requested : Bool
deriving DecidableEq, Repr

def State.start : State := ⟨false, .zero, .zero, .idle, .vfioUser, .idle, false⟩

/-- A call begins; the receive thread does not poll while it requests an interrupt itself. -/
def beginTry (s : State) (caller : Caller) (newtime : Timespec) : Option State :=
  if s.tryPc = .idle ∧ (caller = .rx → s.pollPc = .idle) then
    some { s with tryPc := .loadArmed newtime, caller, requested := true }
  else none

def tryStep (s : State) : Option State :=
  match s.tryPc with
  | .idle => none
  | .loadArmed n => some { s with tryPc := if s.armed then .loadTime n else .testArmed n }
  | .loadTime n => some { s with tryPc := if s.time.before n then .idle else .testArmed n }
  | .testArmed n => some { s with tryPc := .storeArmed n }
  | .storeArmed n => some { s with armed := true, tryPc := .storeTime n }
  | .storeTime n => some { s with time := n, tryPc := .storeTimer n }
  | .storeTimer n => some { s with pollTimer := n, tryPc := .idle }

/-- The next access of the poll; `now` is what the clock says when it compares. -/
def pollStep (s : State) (now : Timespec) : Option State :=
  match s.pollPc with
  | .idle =>
    if s.caller = .rx ∧ s.tryPc ≠ .idle then none
    else some { s with pollPc := if s.pollTimer = .zero then .idle else .compare }
  | .compare => some { s with pollPc := if s.pollTimer.before now then .trigger else .idle }
  | .trigger => some { s with requested := false, pollPc := .clearTimer }
  | .clearTimer => some { s with pollTimer := .zero, pollPc := .clearArmed }
  | .clearArmed => some { s with armed := false, pollPc := .idle }

inductive Action
  | begin (caller : Caller) (curtime : Timespec) (mindelay : ℕ)
  | request
  | poll (now : Timespec)
deriving DecidableEq, Repr

def step (s : State) : Action → Option State
  | .begin caller curtime mindelay => beginTry s caller (curtime.addNsec mindelay)
  | .request => tryStep s
  | .poll now => pollStep s now

def throttling : Machine State where
  start s := s = .start
  step s t := ∃ a, step s a = some t

/-- What the calls act on, for a vector that is unmasked. -/
def State.throttler (s : State) : Interrupts.Throttler := ⟨true, s.time, s.armed, 0, s.pollTimer⟩

variable {s t : State}

/-- A call that nothing interrupts is the function of the sequential model. -/
theorem request_alone (caller : Caller) (curtime : Timespec) (mindelay : ℕ) (ht : s.tryPc = .idle)
    (hp : s.pollPc = .idle) : ∃ t, Relation.ReflTransGen throttling.step s t ∧ t.tryPc = .idle ∧ t.pollPc = .idle ∧
      t.throttler = s.throttler.tryInterrupt curtime mindelay := by
  let n := curtime.addNsec mindelay
  let s1 : State := { s with tryPc := .loadArmed n, caller, requested := true }
  have h1 : throttling.step s s1 :=
    ⟨.begin caller curtime mindelay, if_pos ⟨ht, fun _ => hp⟩⟩
  have hstore : ∀ u : State, u.tryPc = .testArmed n → Relation.ReflTransGen throttling.step u
      { u with armed := true, time := n, pollTimer := n, tryPc := .idle } := by
    intro u hu
    have h1 : throttling.step u { u with tryPc := .storeArmed n } := ⟨.request, by rw [step, tryStep, hu]⟩
    have h2 : throttling.step { u with tryPc := .storeArmed n } { u with armed := true, tryPc := .storeTime n } :=
      ⟨.request, rfl⟩
    have h3 : throttling.step { u with armed := true, tryPc := .storeTime n }
        { u with armed := true, time := n, tryPc := .storeTimer n } := ⟨.request, rfl⟩
    have h4 : throttling.step { u with armed := true, time := n, tryPc := .storeTimer n }
        { u with armed := true, time := n, pollTimer := n, tryPc := .idle } := ⟨.request, rfl⟩
    exact (((Relation.ReflTransGen.single h1).tail h2).tail h3).tail h4
  by_cases ha : s.armed = true
  · have h2 : throttling.step s1 { s1 with tryPc := .loadTime n } := ⟨.request, by simp [step, tryStep, s1, ha]⟩
    by_cases hb : s.time.before n = true
    · have h3 : throttling.step { s1 with tryPc := .loadTime n } { s1 with tryPc := .idle } :=
        ⟨.request, by simp [step, tryStep, s1, hb]⟩
      refine ⟨_, ((Relation.ReflTransGen.single h1).tail h2).tail h3, rfl, hp, ?_⟩
      simp [State.throttler, Interrupts.Throttler.tryInterrupt, s1, ha, hb, n]
    · have h3 : throttling.step { s1 with tryPc := .loadTime n } { s1 with tryPc := .testArmed n } :=
        ⟨.request, by simp [step, tryStep, s1, hb]⟩
      refine ⟨_, (((Relation.ReflTransGen.single h1).tail h2).tail h3).trans (hstore _ rfl), rfl, hp, ?_⟩
      simp [State.throttler, Interrupts.Throttler.tryInterrupt, hb, n]
  · have h2 : throttling.step s1 { s1 with tryPc := .testArmed n } := ⟨.request, by simp [step, tryStep, s1, ha]⟩
    refine ⟨_, ((Relation.ReflTransGen.single h1).tail h2).trans (hstore _ rfl), rfl, hp, ?_⟩
    simp [State.throttler, Interrupts.Throttler.tryInterrupt, ha, n]

theorem poll_alone (now : Timespec) (ht : s.tryPc = .idle) (hp : s.pollPc = .idle) :
    ∃ t sent, Relation.ReflTransGen throttling.step s t ∧ t.tryPc = .idle ∧ t.pollPc = .idle ∧
      s.throttler.processPollTimer now .ok = .ok (t.throttler, sent) := by
  by_cases hz : s.pollTimer = .zero
  · refine ⟨s, false, .refl, ht, hp, ?_⟩
    simp [Interrupts.Throttler.processPollTimer, Interrupts.Throttler.expired, State.throttler, hz]
  · have h1 : throttling.step s { s with pollPc := .compare } :=
      ⟨.poll now, by simp [step, pollStep, hp, ht, hz]⟩
    by_cases hb : s.pollTimer.before now = true
    · have h2 : throttling.step { s with pollPc := .compare } { s with pollPc := .trigger } :=
        ⟨.poll now, by simp [step, pollStep, hb]⟩
      have h3 : throttling.step { s with pollPc := .trigger } { s with requested := false, pollPc := .clearTimer } :=
        ⟨.poll now, rfl⟩
      have h4 : throttling.step { s with requested := false, pollPc := .clearTimer }
          { s with requested := false, pollTimer := .zero, pollPc := .clearArmed } := ⟨.poll now, rfl⟩
      have h5 : throttling.step { s with requested := false, pollTimer := .zero, pollPc := .clearArmed }
          { s with requested := false, pollTimer := .zero, armed := false, pollPc := .idle } := ⟨.poll now, rfl⟩
      refine ⟨_, true, ((((Relation.ReflTransGen.single h1).tail h2).tail h3).tail h4).tail h5, ht, rfl, ?_⟩
      have he : s.throttler.expired now = true := Interrupts.Throttler.expired_iff.mpr ⟨hz, hb⟩
      rw [Interrupts.Throttler.processPollTimer, if_pos he]
      rfl
    · have h2 : throttling.step { s with pollPc := .compare } { s with pollPc := .idle } :=
        ⟨.poll now, by simp [step, pollStep, hb]⟩
      refine ⟨_, false, (Relation.ReflTransGen.single h1).tail h2, ht, rfl, ?_⟩
      have he : ¬s.throttler.expired now = true := fun he => hb (Interrupts.Throttler.expired_iff.mp he).2
      rw [Interrupts.Throttler.processPollTimer, if_neg he]
      rfl

/-- Between calls an interrupt is scheduled if one was requested since the last was sent, and if the
throttler is armed. -/
def Scheduled (s : State) : Prop :=
  s.tryPc = .idle → s.pollPc = .idle →
    (s.requested = true → s.pollTimer ≠ .zero) ∧ (s.armed = true → s.pollTimer ≠ .zero)

/-- A request made after the last interrupt relies on a timer that is about to be cleared, or was
already: it stores its deadline before the poll has cleared the timer, or returns early because of
an `armed` that the poll has not cleared in time. -/
def Races (s : State) : Prop :=
  s.requested = true ∧
    match s.tryPc with
    | .storeTimer _ => s.pollPc = .clearTimer
    | .loadTime n => s.time.before n = true ∧ (s.pollPc = .clearTimer ∨ s.pollTimer = .zero)
    | _ => False

/-- A request does not race, and it does not set the timer to zero, which turns it off. -/
def Orderly (s : State) : Action → Prop
  | .request => ¬Races s ∧ s.tryPc ≠ .storeTimer .zero
  | _ => True

def orderly : Machine State where
  start s := s = .start
  step s t := ∃ a, step s a = some t ∧ Orderly s a

/-- What the calls in progress rely on. -/
structure Covered (s : State) : Prop where
  requested : s.requested = true → s.tryPc ≠ .idle ∨ s.pollTimer ≠ .zero ∧ s.pollPc ≠ .clearTimer
  armed : s.armed = true → s.pollTimer ≠ .zero ∨ s.pollPc = .clearArmed ∨
    ∃ n, s.tryPc = .storeTime n ∨ s.tryPc = .storeTimer n
  polling : s.pollPc = .compare ∨ s.pollPc = .trigger → s.pollTimer ≠ .zero

theorem Covered.begin {caller : Caller} {n : Timespec} (h : Covered s) (hs : beginTry s caller n = some t) :
    Covered t := by
  unfold beginTry at hs
  split at hs
  · rename_i hidle
    cases hs
    refine ⟨fun _ => .inl nofun, fun ha => ?_, h.polling⟩
    rcases h.armed ha with hz | hc | ⟨m, hm | hm⟩
    · exact .inl hz
    · exact .inr (.inl hc)
    · rw [hidle.1] at hm
      cases hm
    · rw [hidle.1] at hm
      cases hm
  · cases hs

theorem Covered.inside {pc : TryPc} {armed : Bool} {time : Timespec} (h : Covered s) (hpc : pc ≠ .idle)
    (ha : armed = true → s.armed = true ∧ (∀ n, s.tryPc ≠ .storeTime n ∧ s.tryPc ≠ .storeTimer n) ∨
      ∃ n, pc = .storeTime n ∨ pc = .storeTimer n) :
    Covered { s with tryPc := pc, armed, time } := by
  refine ⟨fun _ => .inl hpc, fun hr => ?_, h.polling⟩
  rcases ha hr with ⟨hs, hn⟩ | hn
  · rcases h.armed hs with hz | hc | ⟨m, hm | hm⟩
    · exact .inl hz
    · exact .inr (.inl hc)
    · exact absurd hm (hn m).1
    · exact absurd hm (hn m).2
  · exact .inr (.inr hn)

theorem Covered.request (h : Covered s) (hg : Orderly s .request) (hs : tryStep s = some t) : Covered t := by
  obtain ⟨hrace, hzero⟩ := hg
  unfold tryStep at hs
  split at hs
  · cases hs
  · rename_i n hpc
    cases hs
    apply h.inside
    · split
      · nofun
      · nofun
    · intro ha
      refine .inl ⟨ha, fun m => ?_⟩
      rw [hpc]
      exact ⟨nofun, nofun⟩
  · rename_i n hpc
    cases hs
    have hne : ∀ m, s.tryPc ≠ .storeTime m ∧ s.tryPc ≠ .storeTimer m := by
      intro m
      rw [hpc]
      exact ⟨nofun, nofun⟩
    by_cases hb : s.time.before n = true
    · rw [if_pos hb]
      -- the call returns early: the timer it relies on stays
      refine ⟨fun hr => .inr ?_, fun ha => ?_, h.polling⟩
      · simp only [Races, hpc, hb, true_and, not_and, not_or] at hrace
        obtain ⟨h1, h2⟩ := hrace hr
        exact ⟨h2, h1⟩
      · rcases h.armed ha with hz | hc | ⟨m, hm | hm⟩
        · exact .inl hz
        · exact .inr (.inl hc)
        · exact absurd hm (hne m).1
        · exact absurd hm (hne m).2
    · rw [if_neg hb]
      exact h.inside nofun fun ha => .inl ⟨ha, hne⟩
  · rename_i n hpc
    cases hs
    refine h.inside nofun fun ha => .inl ⟨ha, fun m => ?_⟩
    rw [hpc]
    exact ⟨nofun, nofun⟩
  · rename_i n hpc
    cases hs
    exact h.inside nofun fun _ => .inr ⟨n, .inl rfl⟩
  · rename_i n hpc
    cases hs
    exact h.inside nofun fun _ => .inr ⟨n, .inr rfl⟩
  · rename_i n hpc
    cases hs
    have hn : n ≠ .zero := by
      intro hn
      rw [hn] at hpc
      exact hzero hpc
    refine ⟨fun hr => .inr ⟨hn, ?_⟩, fun _ => .inl hn, fun _ => hn⟩
    simp only [Races, hpc, not_and] at hrace
    exact hrace hr

theorem Covered.poll {now : Timespec} (h : Covered s) (hs : pollStep s now = some t) : Covered t := by
  unfold pollStep at hs
  split at hs
  · rename_i hpc
    split at hs
    · cases hs
    · cases hs
      have hne : s.pollPc ≠ .clearArmed := by
        rw [hpc]
        nofun
      refine ⟨fun hr => ?_, fun ha => ?_, fun hc => ?_⟩
      · rcases h.requested hr with ht | ⟨hz, -⟩
        · exact .inl ht
        · refine .inr ⟨hz, ?_⟩
          dsimp only
          rw [if_neg hz]
          nofun
      · rcases h.armed ha with hz | hc | ht
        · exact .inl hz
        · exact absurd hc hne
        · exact .inr (.inr ht)
      · intro hz
        dsimp only at hc hz
        rw [if_pos hz] at hc
        rcases hc with hc | hc
        · cases hc
        · cases hc
  · rename_i hpc
    cases hs
    have hz := h.polling (.inl hpc)
    refine ⟨fun hr => .inr ⟨hz, ?_⟩, fun _ => .inl hz, fun _ => hz⟩
    dsimp only
    split
    · nofun
    · nofun
  · rename_i hpc
    cases hs
    refine ⟨nofun, fun _ => .inl (h.polling (.inr hpc)), fun hc => ?_⟩
    rcases hc with hc | hc
    · cases hc
    · cases hc
  · rename_i hpc
    cases hs
    refine ⟨fun hr => ?_, fun _ => .inr (.inl rfl), fun hc => ?_⟩
    · rcases h.requested hr with ht | ⟨-, hne⟩
      · exact .inl ht
      · exact absurd hpc hne
    · rcases hc with hc | hc
      · cases hc
      · cases hc
  · rename_i hpc
    cases hs
    refine ⟨fun hr => ?_, nofun, fun hc => ?_⟩
    · rcases h.requested hr with ht | ⟨hz, -⟩
      · exact .inl ht
      · exact .inr ⟨hz, nofun⟩
    · rcases hc with hc | hc
      · cases hc
      · cases hc

theorem Covered.reachable (h : orderly.Reachable s) : Covered s := by
  induction h with
  | start h =>
    cases h
    exact ⟨nofun, nofun, fun h => by rcases h with h | h <;> cases h⟩
  | step _ h ih =>
    obtain ⟨a, hs, hg⟩ := h
    cases a with
    | begin caller curtime mindelay => exact ih.begin hs
    | request => exact ih.request hg hs
    | poll now => exact ih.poll hs

theorem Covered.scheduled (h : Covered s) : Scheduled s := by
  intro ht hp
  constructor
  · intro hr
    rcases h.requested hr with hne | ⟨hz, -⟩
    · exact absurd ht hne
    · exact hz
  · intro ha
    rcases h.armed ha with hz | hc | ⟨n, hn | hn⟩
    · exact hz
    · rw [hp] at hc
      cases hc
    · rw [ht] at hn
      cases hn
    · rw [ht] at hn
      cases hn

theorem lost_of_clearTimer (ht : t.tryPc = .idle) (hr : t.requested = true) (hp : t.pollPc = .clearTimer) :
    ∃ u, Relation.ReflTransGen throttling.step t u ∧ ¬Scheduled u := by
  have h1 : throttling.step t { t with pollTimer := .zero, pollPc := .clearArmed } :=
    ⟨.poll .zero, by rw [step, pollStep, hp]⟩
  have h2 : throttling.step { t with pollTimer := .zero, pollPc := .clearArmed }
      { t with pollTimer := .zero, armed := false, pollPc := .idle } := ⟨.poll .zero, rfl⟩
  exact ⟨_, .tail (.single h1) h2, fun hs => (hs ht rfl).1 hr rfl⟩

theorem lost_of_zero (ht : t.tryPc = .idle) (hr : t.requested = true) (hz : t.pollTimer = .zero)
    (hp : t.pollPc = .idle ∨ t.pollPc = .clearArmed) :
    ∃ u, Relation.ReflTransGen throttling.step t u ∧ ¬Scheduled u := by
  rcases hp with hp | hp
  · exact ⟨t, .refl, fun hs => (hs ht hp).1 hr hz⟩
  · have h1 : throttling.step t { t with armed := false, pollPc := .idle } :=
      ⟨.poll .zero, by rw [step, pollStep, hp]⟩
    exact ⟨_, .single h1, fun hs => (hs ht rfl).1 hr hz⟩

theorem Covered.lost (h : Covered s) (hrace : Races s) (hs : tryStep s = some t) :
    ∃ u, Relation.ReflTransGen throttling.step t u ∧ ¬Scheduled u := by
  obtain ⟨hr, hrace⟩ := hrace
  unfold tryStep at hs
  split at hs
  · cases hs
  · rename_i n hpc
    rw [hpc] at hrace
    exact hrace.elim
  · rename_i n hpc
    rw [hpc] at hrace
    obtain ⟨hb, hc⟩ := hrace
    rw [if_pos hb] at hs
    cases hs
    by_cases hp : s.pollPc = .clearTimer
    · exact lost_of_clearTimer rfl hr hp
    · have hz := hc.resolve_left hp
      refine @lost_of_zero { s with tryPc := .idle } rfl hr hz ?_
      cases hpoll : s.pollPc with
      | idle => exact .inl rfl
      | compare => exact absurd hz (h.polling (.inl hpoll))
      | trigger => exact absurd hz (h.polling (.inr hpoll))
      | clearTimer => exact absurd hpoll hp
      | clearArmed => exact .inr rfl
  · rename_i n hpc
    rw [hpc] at hrace
    exact hrace.elim
  · rename_i n hpc
    rw [hpc] at hrace
    exact hrace.elim
  · rename_i n hpc
    rw [hpc] at hrace
    exact hrace.elim
  · rename_i n hpc
    rw [hpc] at hrace
    cases hs
    exact lost_of_clearTimer rfl hr hrace

/-- As long as no request races with the poll no interrupt is lost, and a race loses one in some
continuation of the run. -/
theorem interrupt_not_lost (s : State) (h : orderly.Reachable s) :
    Scheduled s ∧ ∀ t, Races s → step s .request = some t →
      ∃ u, Relation.ReflTransGen throttling.step t u ∧ ¬Scheduled u := by
  have hc := Covered.reachable h
  exact ⟨hc.scheduled, fun t hrace hs => hc.lost hrace hs⟩

def runs (s : State) : List Action → Option State
  | [] => some s
  | a :: as => (step s a).bind fun t => runs t as

theorem runs_reachable {as : List Action} (h : throttling.Reachable s) (hr : runs s as = some t) :
    throttling.Reachable t := by
  induction as generalizing s with
  | nil =>
    cases hr
    exact h
  | cons a as ih =>
    obtain ⟨u, hu, hr⟩ := Option.bind_eq_some_iff.mp hr
    exact ih (.step h ⟨a, hu⟩) hr

theorem interrupt_not_lost_request :
    ∃ s, orderly.Reachable s ∧ s.requested = true ∧ s.tryPc = .idle ∧ Scheduled s := by
  have h0 : orderly.Reachable .start := .start rfl
  have h1 : orderly.Reachable ⟨false, .zero, .zero, .loadArmed ⟨5, 2000⟩, .vfioUser, .idle, true⟩ :=
    h0.step ⟨.begin .vfioUser ⟨5, 0⟩ 2000, by decide, trivial⟩
  have h2 : orderly.Reachable ⟨false, .zero, .zero, .testArmed ⟨5, 2000⟩, .vfioUser, .idle, true⟩ :=
    h1.step ⟨.request, rfl, fun h => h.2, nofun⟩
  have h3 : orderly.Reachable ⟨false, .zero, .zero, .storeArmed ⟨5, 2000⟩, .vfioUser, .idle, true⟩ :=
    h2.step ⟨.request, rfl, fun h => h.2, nofun⟩
  have h4 : orderly.Reachable ⟨true, .zero, .zero, .storeTime ⟨5, 2000⟩, .vfioUser, .idle, true⟩ :=
    h3.step ⟨.request, rfl, fun h => h.2, nofun⟩
  have h5 : orderly.Reachable ⟨true, ⟨5, 2000⟩, .zero, .storeTimer ⟨5, 2000⟩, .vfioUser, .idle, true⟩ :=
    h4.step ⟨.request, rfl, fun h => h.2, nofun⟩
  have h6 : orderly.Reachable ⟨true, ⟨5, 2000⟩, ⟨5, 2000⟩, .idle, .vfioUser, .idle, true⟩ := by
    refine h5.step ⟨.request, rfl, ?_, by decide⟩
    rintro ⟨-, h⟩
    cases h
  exact ⟨_, h6, rfl, rfl, (interrupt_not_lost _ h6).1⟩

/-- A request between the interrupt and the end of the poll finds the throttler armed, and the poll
then turns the timer off. -/
theorem interrupt_lost : ∃ s, throttling.Reachable s ∧ s.tryPc = .idle ∧ s.pollPc = .idle ∧
    s.requested = true ∧ s.pollTimer = .zero := by
  let run : List Action :=
    [.begin .vfioUser ⟨5, 0⟩ 2000, .request, .request, .request, .request, .request,
      .poll ⟨6, 0⟩, .poll ⟨6, 0⟩, .poll ⟨6, 0⟩,
      .begin .vfioUser ⟨6, 1⟩ 2000, .request, .request,
      .poll ⟨6, 0⟩, .poll ⟨6, 0⟩]
  have hr : runs .start run = some ⟨false, ⟨5, 2000⟩, .zero, .idle, .vfioUser, .idle, true⟩ := by decide
  exact ⟨_, runs_reachable (.start rfl) hr, rfl, rfl, rfl, rfl⟩

end Vmux.LostInterrupt
