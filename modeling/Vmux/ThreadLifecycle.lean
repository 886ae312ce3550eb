import Mathlib.Logic.Function.Basic
import Mathlib.Tactic
import Vmux.Transitions

namespace Vmux.ThreadLifecycle

open Transitions

/-- Where `_main` is, from the start of the first runner on. -/
inductive MainPc
  | startRunner (i : ℕ)
  | waitInitialized (i : ℕ)
  | waitConnected (i : ℕ)
  | startPolling (i : ℕ)
  | loop
  | stopRunner (i : ℕ)
  | stopPolling (i : ℕ)
  | joinRunner (i : ℕ)
  | joinPolling (i : ℕ)
  | done
  | outOfBounds
deriving DecidableEq, Repr

/-- What `VmuxRunner::run` does next. -/
inductive RunnerPc
  | notStarted
  | setStarted
  | setRunning
  | setInitialized
  | attach
  | attachFailed
  | setConnected
  | check
  | poll
  | exited
deriving DecidableEq, Repr

structure Runner where
  pc : RunnerPc
  state : ℕ
  running : Bool

/-- What `RxThread::run` does next. -/
inductive RxPc
  | notStarted
  | check
  | callback
  | exited
deriving DecidableEq, Repr

structure RxThread where
  pc : RxPc
  running : Bool

/-- One runner for each device. An entry of `pollingThreads` is either a thread or a null pointer. -/
structure Setup where
  numDevices : ℕ
  pollingThreads : List Bool
  length_le : pollingThreads.length ≤ numDevices

structure State where
  main : MainPc
  quit : Bool
  runner : ℕ → Runner
  rx : ℕ → RxThread

def started : ℕ := 1
def initialized : ℕ := 2
def connected : ℕ := 3

inductive Event
  | served (i : ℕ)
  | polled (i : ℕ)
deriving DecidableEq, Repr

/-- What others notice of a step of a runner: it may call into its device, and then fail. -/
inductive Effect
  | silent | served | failed
deriving DecidableEq, Repr

def Effect.event (i : ℕ) : Effect → Option Event
  | silent => none
  | served | failed => some (.served i)

inductive RunnerStep (r : Runner) : Effect → Runner → Prop
  | setStarted (h : r.pc = .setStarted) : RunnerStep r .silent { r with state := started, pc := .setRunning }
  | setRunning (h : r.pc = .setRunning) : RunnerStep r .silent { r with running := true, pc := .setInitialized }
  | setInitialized (h : r.pc = .setInitialized) : RunnerStep r .silent { r with state := initialized, pc := .attach }
  | attached (h : r.pc = .attach) : RunnerStep r .silent { r with pc := .setConnected }
  | notAttached (h : r.pc = .attach) : RunnerStep r .silent { r with pc := .attachFailed }
  | retry (h : r.pc = .attachFailed) (hr : r.running = true) : RunnerStep r .silent { r with pc := .attach }
  | giveUp (h : r.pc = .attachFailed) (hr : r.running = false) : RunnerStep r .silent { r with pc := .setConnected }
  | setConnected (h : r.pc = .setConnected) : RunnerStep r .silent { r with state := connected, pc := .check }
  | goOn (h : r.pc = .check) (hr : r.running = true) : RunnerStep r .silent { r with pc := .poll }
  | leave (h : r.pc = .check) (hr : r.running = false) : RunnerStep r .silent { r with pc := .exited }
  | timeout (h : r.pc = .poll) : RunnerStep r .silent { r with pc := .check }
  | serve (h : r.pc = .poll) : RunnerStep r .served { r with pc := .check }
  | disconnected (h : r.pc = .poll) : RunnerStep r .failed { r with pc := .exited }

inductive RxStep (x : RxThread) : Bool → RxThread → Prop
  | goOn (h : x.pc = .check) (hr : x.running = true) : RxStep x false { x with pc := .callback }
  | leave (h : x.pc = .check) (hr : x.running = false) : RxStep x false { x with pc := .exited }
  | callback (h : x.pc = .callback) : RxStep x true { x with pc := .check }

/-- Where `_main` waits there is no step. -/
inductive MainStep (setup : Setup) (s : State) : State → Prop
  | startRunner (i : ℕ) (hm : s.main = .startRunner i) (hi : i < setup.numDevices) : MainStep setup s { s with
      main := .waitInitialized i
      runner := Function.update s.runner i { s.runner i with pc := .setStarted } }
  | runnersStarted (hm : s.main = .startRunner setup.numDevices) : MainStep setup s { s with main := .waitConnected 0 }
  | runnerInitialized (i : ℕ) (hm : s.main = .waitInitialized i) (hs : (s.runner i).state = initialized) :
      MainStep setup s { s with main := .startRunner (i + 1) }
  | runnerConnected (i : ℕ) (hm : s.main = .waitConnected i) (hi : i < setup.numDevices)
      (hs : (s.runner i).state = connected ∨ s.quit = true) : MainStep setup s { s with main := .waitConnected (i + 1) }
  | runnersConnected (hm : s.main = .waitConnected setup.numDevices) : MainStep setup s { s with main := .startPolling 0 }
  | startPolling (i : ℕ) (hm : s.main = .startPolling i) (hp : setup.pollingThreads[i]? = some true) :
      MainStep setup s { s with main := .startPolling (i + 1), rx := Function.update s.rx i ⟨.check, true⟩ }
  | noPolling (i : ℕ) (hm : s.main = .startPolling i) (hp : setup.pollingThreads[i]? = some false) :
      MainStep setup s { s with main := .startPolling (i + 1) }
  | pollingStarted (hm : s.main = .startPolling setup.pollingThreads.length) : MainStep setup s { s with main := .loop }
  | quit (hm : s.main = .loop) (hq : s.quit = true) : MainStep setup s { s with main := .stopRunner 0 }
  | stopRunner (i : ℕ) (hm : s.main = .stopRunner i) (hi : i < setup.numDevices) : MainStep setup s { s with
      main := .stopPolling i
      runner := Function.update s.runner i { s.runner i with running := false } }
  | stopPolling (i : ℕ) (hm : s.main = .stopPolling i) (hp : setup.pollingThreads[i]? = some true) :
      MainStep setup s { s with
        main := .stopRunner (i + 1)
        rx := Function.update s.rx i { s.rx i with running := false } }
  | stopNoPolling (i : ℕ) (hm : s.main = .stopPolling i) (hp : setup.pollingThreads[i]? = some false) :
      MainStep setup s { s with main := .stopRunner (i + 1) }
  | stopOutOfBounds (i : ℕ) (hm : s.main = .stopPolling i) (hp : setup.pollingThreads[i]? = none) :
      MainStep setup s { s with main := .outOfBounds }
  | stopped (hm : s.main = .stopRunner setup.numDevices) : MainStep setup s { s with main := .joinRunner 0 }
  | joinRunner (i : ℕ) (hm : s.main = .joinRunner i) (hi : i < setup.numDevices) (hx : (s.runner i).pc = .exited) :
      MainStep setup s { s with main := .joinPolling i }
  | joinPolling (i : ℕ) (hm : s.main = .joinPolling i) (hp : setup.pollingThreads[i]? = some true)
      (hx : (s.rx i).pc = .exited) : MainStep setup s { s with main := .joinRunner (i + 1) }
  | joinNoPolling (i : ℕ) (hm : s.main = .joinPolling i) (hp : setup.pollingThreads[i]? = some false) :
      MainStep setup s { s with main := .joinRunner (i + 1) }
  | joinOutOfBounds (i : ℕ) (hm : s.main = .joinPolling i) (hp : setup.pollingThreads[i]? = none) :
      MainStep setup s { s with main := .outOfBounds }
  | joined (hm : s.main = .joinRunner setup.numDevices) : MainStep setup s { s with main := .done }

/-- A step of one of the threads, or a signal, which a runner that fails raises as well. -/
inductive Step (setup : Setup) (s : State) : Option Event → State → Prop
  | signal : Step setup s none { s with quit := true }
  | main {t : State} (h : MainStep setup s t) : Step setup s none t
  | runner (i : ℕ) {e : Effect} {r : Runner} (h : RunnerStep (s.runner i) e r) :
      Step setup s (e.event i) { s with
        quit := s.quit || e = .failed
        runner := Function.update s.runner i r }
  | rx (i : ℕ) {called : Bool} {x : RxThread} (h : RxStep (s.rx i) called x) :
      Step setup s (if called then some (.polled i) else none) { s with rx := Function.update s.rx i x }

/-- Nothing runs yet, and the flags of the threads hold anything. -/
structure Initial (s : State) : Prop where
  main : s.main = .startRunner 0
  runner : ∀ i, (s.runner i).pc = .notStarted ∧ (s.runner i).state = 0
  rx : ∀ i, (s.rx i).pc = .notStarted

def process (setup : Setup) : Machine State where
  start := Initial
  step s t := ∃ e, Step setup s e t

inductive Run (setup : Setup) : State → List Event → State → Prop
  | refl (s : State) : Run setup s [] s
  | head {s t u : State} {e : Option Event} {es : List Event} (hs : Step setup s e t) (hr : Run setup t es u) :
      Run setup s (e.toList ++ es) u

namespace MainPc

/-- `_main` has started the runner. -/
def Started (n : ℕ) : MainPc → ℕ → Prop
  | startRunner i, j => j < i
  | waitInitialized i, j => j ≤ i
  | _, j => j < n

/-- `_main` no longer waits for the runner to be initialized. -/
def Awaited : MainPc → ℕ → Prop
  | startRunner i, j | waitInitialized i, j => j < i
  | _, _ => True

/-- `_main` no longer waits for the runner to be connected. -/
def Attached (n : ℕ) : MainPc → ℕ → Prop
  | startRunner _, _ | waitInitialized _, _ => False
  | waitConnected i, j => j < i
  | _, j => j < n

def RxStarted : MainPc → ℕ → Prop
  | startRunner _, _ | waitInitialized _, _ | waitConnected _, _ => False
  | startPolling i, j => j < i
  | _, _ => True

def RunnerStopped : MainPc → ℕ → Prop
  | stopRunner i, j => j < i
  | stopPolling i, j => j ≤ i
  | joinRunner _, _ | joinPolling _, _ | done, _ => True
  | _, _ => False

def RxStopped : MainPc → ℕ → Prop
  | stopRunner i, j | stopPolling i, j => j < i
  | joinRunner _, _ | joinPolling _, _ | done, _ => True
  | _, _ => False

def RunnerJoined : MainPc → ℕ → Prop
  | joinRunner i, j => j < i
  | joinPolling i, j => j ≤ i
  | done, _ => True
  | _, _ => False

def RxJoined : MainPc → ℕ → Prop
  | joinRunner i, j | joinPolling i, j => j < i
  | done, _ => True
  | _, _ => False

/-- `_main` has left its loop. -/
def Shut : MainPc → Prop
  | stopRunner _ | stopPolling _ | joinRunner _ | joinPolling _ | done | outOfBounds => True
  | _ => False

end MainPc

namespace RunnerPc

/-- Before the runner reports that it is initialized. -/
def Early : RunnerPc → Prop
  | setStarted | setRunning | setInitialized => True
  | _ => False

def Ended : RunnerPc → Prop
  | notStarted | exited => True
  | _ => False

def state : RunnerPc → ℕ
  | notStarted | setStarted => 0
  | setRunning | setInitialized => started
  | attach | attachFailed | setConnected => initialized
  | check | poll | exited => connected

end RunnerPc

def RxPc.Ended : RxPc → Prop
  | notStarted | exited => True
  | _ => False

/-- What holds of a runner while `_main` is at `m`. -/
structure RunnerOk (n : ℕ) (m : MainPc) (j : ℕ) (r : Runner) : Prop where
  state_eq : r.state = r.pc.state
  fresh : ¬m.Started n j → r.pc = .notStarted
  begun : m.Started n j → r.pc ≠ .notStarted
  settled : m.Awaited j → ¬r.pc.Early
  stopped : j < n → m.RunnerStopped j → r.running = false
  joined : m.RunnerJoined j → r.pc.Ended

structure RxOk (m : MainPc) (present : Prop) (j : ℕ) (x : RxThread) : Prop where
  fresh : ¬m.RxStarted j ∨ ¬present → x.pc = .notStarted
  begun : m.RxStarted j → present → x.pc ≠ .notStarted
  stopped : m.RxStopped j → present → x.running = false
  joined : m.RxJoined j → x.pc.Ended

variable {n j : ℕ} {m m' : MainPc} {r r' : Runner} {e : Effect} {setup : Setup} {s t : State} {present : Prop}
  {x x' : RxThread} {called : Bool}

theorem awaited_of_stopped (h : m.RunnerStopped j) : m.Awaited j := by
  cases m <;> trivial

theorem RunnerOk.move (h : RunnerOk n m j r) (pc : RunnerPc) (hl : ¬r.pc.Ended) (he : ¬pc.Early)
    (hb : pc ≠ .notStarted) (hs : r.pc.state = pc.state) : RunnerOk n m j { r with pc := pc } := by
  refine ⟨h.state_eq.trans hs, fun hm => ?_, fun _ => hb, fun _ => he, h.stopped, fun hm => absurd (h.joined hm) hl⟩
  rw [h.fresh hm] at hl
  exact absurd trivial hl

theorem RunnerOk.report (h : RunnerOk n m j r) (pc : RunnerPc) (hl : ¬r.pc.Ended) (he : ¬pc.Early)
    (hb : pc ≠ .notStarted) : RunnerOk n m j { r with state := pc.state, pc := pc } := by
  refine ⟨rfl, fun hm => ?_, fun _ => hb, fun _ => he, h.stopped, fun hm => absurd (h.joined hm) hl⟩
  rw [h.fresh hm] at hl
  exact absurd trivial hl

/-- A runner that is not yet initialized is one that `_main` waits for. -/
theorem RunnerOk.early (h : RunnerOk n m j r) (pc : RunnerPc) (he : r.pc.Early) (hb : pc ≠ .notStarted)
    (running : Bool) : RunnerOk n m j { r with state := pc.state, running := running, pc := pc } := by
  have hna : ¬m.Awaited j := fun ha => h.settled ha he
  refine ⟨rfl, fun hm => ?_, fun _ => hb, fun ha => absurd ha hna, fun _ hm => absurd (awaited_of_stopped hm) hna,
    fun hm => ?_⟩
  · rw [h.fresh hm] at he
    exact absurd he id
  · have hend := h.joined hm
    cases hpc : r.pc <;> rw [hpc] at hend he <;> first | exact absurd he id | exact absurd hend id

theorem RunnerOk.step (h : RunnerOk n m j r) (hs : RunnerStep r e r') : RunnerOk n m j r' := by
  cases hs with
  | setStarted hp => exact h.early .setRunning (by rw [hp]; trivial) nofun r.running
  | setRunning hp =>
    have hk := h.early .setInitialized (by rw [hp]; trivial) nofun true
    have hstate : r.state = RunnerPc.setInitialized.state := h.state_eq.trans (by rw [hp]; rfl)
    rw [← hstate] at hk
    exact hk
  | setInitialized hp => exact h.report .attach (by rw [hp]; exact id) id nofun
  | attached hp => exact h.move .setConnected (by rw [hp]; exact id) id nofun (by rw [hp]; rfl)
  | notAttached hp => exact h.move .attachFailed (by rw [hp]; exact id) id nofun (by rw [hp]; rfl)
  | retry hp _ => exact h.move .attach (by rw [hp]; exact id) id nofun (by rw [hp]; rfl)
  | giveUp hp _ => exact h.move .setConnected (by rw [hp]; exact id) id nofun (by rw [hp]; rfl)
  | setConnected hp => exact h.report .check (by rw [hp]; exact id) id nofun
  | goOn hp _ => exact h.move .poll (by rw [hp]; exact id) id nofun (by rw [hp]; rfl)
  | leave hp _ => exact h.move .exited (by rw [hp]; exact id) id nofun (by rw [hp]; rfl)
  | timeout hp => exact h.move .check (by rw [hp]; exact id) id nofun (by rw [hp]; rfl)
  | serve hp => exact h.move .check (by rw [hp]; exact id) id nofun (by rw [hp]; rfl)
  | disconnected hp => exact h.move .exited (by rw [hp]; exact id) id nofun (by rw [hp]; rfl)

theorem RxOk.step (h : RxOk m present j x) (hs : RxStep x called x') : RxOk m present j x' := by
  have hlive : ∀ {pc : RxPc}, ¬x.pc.Ended → pc ≠ .notStarted → RxOk m present j { x with pc := pc } := by
    intro pc hl hb
    refine ⟨fun hm => ?_, fun _ _ => hb, h.stopped, fun hm => absurd (h.joined hm) hl⟩
    rw [h.fresh hm] at hl
    exact absurd trivial hl
  cases hs with
  | goOn hp _ => exact hlive (by rw [hp]; exact id) nofun
  | leave hp _ => exact hlive (by rw [hp]; exact id) nofun
  | callback hp => exact hlive (by rw [hp]; exact id) nofun

theorem RunnerOk.next (h : RunnerOk n m j r) (hs : m.Started n j ↔ m'.Started n j) (ha : m'.Awaited j → ¬r.pc.Early)
    (hp : j < n → m'.RunnerStopped j → m.RunnerStopped j) (hj : m'.RunnerJoined j → r.pc.Ended) : RunnerOk n m' j r :=
  ⟨h.state_eq, fun hn => h.fresh fun hm => hn (hs.mp hm), fun hm => h.begun (hs.mpr hm), ha,
    fun hlt hm => h.stopped hlt (hp hlt hm), hj⟩

theorem RxOk.next (h : RxOk m present j x) (hs : present → (m.RxStarted j ↔ m'.RxStarted j))
    (hp : m'.RxStopped j → present → m.RxStopped j) (hj : m'.RxJoined j → x.pc.Ended) : RxOk m' present j x := by
  refine ⟨fun hn => h.fresh ?_, fun hm hpr => h.begun ((hs hpr).mpr hm) hpr, fun hm hpr => h.stopped (hp hm hpr) hpr, hj⟩
  by_cases hpr : present
  · exact hn.imp_left fun hn hm => hn ((hs hpr).mp hm)
  · exact .inr hpr

theorem RunnerOk.unstopped (h : RunnerOk n s.main j r) (hm : s.main = m) (hs : m.Started n j ↔ m'.Started n j)
    (ha : m'.Awaited j → m.Awaited j) (hp : ¬m'.RunnerStopped j) (hq : ¬m'.RunnerJoined j) : RunnerOk n m' j r := by
  rw [hm] at h
  exact h.next hs (fun hm' => h.settled (ha hm')) (fun _ hm' => absurd hm' hp) fun hm' => absurd hm' hq

theorem RxOk.unstopped (h : RxOk s.main present j x) (hm : s.main = m)
    (hs : present → (m.RxStarted j ↔ m'.RxStarted j)) (hp : ¬m'.RxStopped j) (hq : ¬m'.RxJoined j) :
    RxOk m' present j x := by
  rw [hm] at h
  exact h.next hs (fun hm' _ => absurd hm' hp) fun hm' => absurd hm' hq

theorem RunnerOk.passed (h : RunnerOk n s.main j r) (hm : s.main = m) (hs : m.Started n j ↔ m'.Started n j)
    (ha : m'.Awaited j → m.Awaited j) (hp : m'.RunnerStopped j → m.RunnerStopped j)
    (hq : m'.RunnerJoined j → m.RunnerJoined j) : RunnerOk n m' j r := by
  rw [hm] at h
  exact h.next hs (fun hm' => h.settled (ha hm')) (fun _ => hp) fun hm' => h.joined (hq hm')

structure Inv (setup : Setup) (s : State) : Prop where
  runner : ∀ j, RunnerOk setup.numDevices s.main j (s.runner j)
  rx : ∀ j, RxOk s.main (setup.pollingThreads[j]? = some true) j (s.rx j)
  attached : ∀ j, s.main.Attached setup.numDevices j → s.quit = true ∨ (s.runner j).state = connected

theorem RunnerOk.start (h : Initial s) (j : ℕ) : RunnerOk n s.main j (s.runner j) := by
  obtain ⟨hpc, hstate⟩ := h.runner j
  rw [h.main]
  refine ⟨hstate.trans (by rw [hpc]; rfl), fun _ => hpc, fun hm => absurd hm (Nat.not_lt_zero j), fun _ => ?_,
    fun _ => False.elim, False.elim⟩
  rw [hpc]
  exact id

theorem RxOk.start (h : Initial s) (present : Prop) (j : ℕ) : RxOk s.main present j (s.rx j) := by
  rw [h.main]
  exact ⟨fun _ => h.rx j, False.elim, False.elim, False.elim⟩

theorem Inv.start (h : Initial s) : Inv setup s := by
  refine ⟨RunnerOk.start h, fun j => RxOk.start h _ j, ?_⟩
  rw [h.main]
  exact fun _ => False.elim

theorem early_of_state (h : RunnerOk n m j r) (hs : r.state = initialized ∨ r.state = connected) : ¬r.pc.Early := by
  rw [h.state_eq] at hs
  cases hp : r.pc <;> rw [hp] at hs <;> simp [RunnerPc.Early, RunnerPc.state, started, initialized, connected] at *

theorem RunnerOk.main (h : ∀ j, RunnerOk setup.numDevices s.main j (s.runner j)) (hs : MainStep setup s t) (j : ℕ) :
    RunnerOk setup.numDevices t.main j (t.runner j) := by
  have hj := h j
  cases hs with
  | startRunner i hm hi =>
    by_cases hji : j = i
    · subst hji
      rw [hm] at hj
      change RunnerOk _ _ j (Function.update s.runner j _ j)
      rw [Function.update_self]
      have hfresh := hj.fresh (Nat.lt_irrefl j)
      refine ⟨?_, fun hn => absurd le_rfl hn, nofun, fun ha => absurd ha (Nat.lt_irrefl j), fun _ => False.elim, False.elim⟩
      rw [hj.state_eq, hfresh]
      rfl
    · change RunnerOk _ _ j (Function.update s.runner i _ j)
      rw [Function.update_of_ne hji]
      exact hj.unstopped hm ⟨Nat.le_of_lt, fun hle => Nat.lt_of_le_of_ne hle hji⟩ id id id
  | runnersStarted hm =>
    rw [hm] at hj
    refine hj.next Iff.rfl (fun _ => ?_) (fun _ => False.elim) False.elim
    by_cases hlt : j < setup.numDevices
    · exact hj.settled hlt
    · rw [hj.fresh hlt]
      exact id
  | runnerInitialized i hm hst =>
    rw [hm] at hj
    refine hj.next Nat.lt_succ_iff.symm (fun ha => ?_) (fun _ => False.elim) False.elim
    rcases Nat.lt_succ_iff_lt_or_eq.mp ha with hlt | rfl
    · exact hj.settled hlt
    · exact early_of_state hj (.inl hst)
  | runnerConnected i hm | runnersConnected hm | startPolling i hm | noPolling i hm | pollingStarted hm
  | stopOutOfBounds i hm | joinOutOfBounds i hm => exact hj.unstopped hm Iff.rfl id id id
  | quit hm _ =>
    rw [hm] at hj
    exact hj.next Iff.rfl hj.settled (fun _ hlt => absurd hlt (Nat.not_lt_zero j)) False.elim
  | stopRunner i hm _ =>
    rw [hm] at hj
    by_cases hji : j = i
    · subst hji
      change RunnerOk _ _ j (Function.update s.runner j _ j)
      rw [Function.update_self]
      exact ⟨hj.state_eq, hj.fresh, hj.begun, hj.settled, fun _ _ => rfl, False.elim⟩
    · change RunnerOk _ _ j (Function.update s.runner i _ j)
      rw [Function.update_of_ne hji]
      exact hj.next Iff.rfl hj.settled (fun _ hle => Nat.lt_of_le_of_ne hle hji) False.elim
  | stopPolling i hm | stopNoPolling i hm => exact hj.passed hm Iff.rfl id Nat.le_of_lt_succ id
  | stopped hm =>
    rw [hm] at hj
    exact hj.next Iff.rfl hj.settled (fun hlt _ => hlt) fun hlt => absurd hlt (Nat.not_lt_zero j)
  | joinRunner i hm _ hx =>
    rw [hm] at hj
    refine hj.next Iff.rfl hj.settled (fun _ => id) fun hle => ?_
    rcases Nat.lt_or_eq_of_le hle with hlt | rfl
    · exact hj.joined hlt
    · rw [hx]
      trivial
  | joinPolling i hm | joinNoPolling i hm => exact hj.passed hm Iff.rfl id id Nat.le_of_lt_succ
  | joined hm =>
    rw [hm] at hj
    refine hj.next Iff.rfl hj.settled (fun _ => id) fun _ => ?_
    by_cases hlt : j < setup.numDevices
    · exact hj.joined hlt
    · rw [hj.fresh hlt]
      trivial

theorem RxOk.main (h : ∀ j, RxOk s.main (setup.pollingThreads[j]? = some true) j (s.rx j)) (hs : MainStep setup s t)
    (j : ℕ) : RxOk t.main (setup.pollingThreads[j]? = some true) j (t.rx j) := by
  have hj := h j
  cases hs with
  | startRunner i hm | runnersStarted hm | runnerInitialized i hm | runnerConnected i hm | stopOutOfBounds i hm
  | joinOutOfBounds i hm => exact hj.unstopped hm (fun _ => Iff.rfl) id id
  | runnersConnected hm => exact hj.unstopped hm (fun _ => iff_of_false id (Nat.not_lt_zero j)) id id
  | startPolling i hm hp =>
    by_cases hji : j = i
    · subst hji
      change RxOk _ _ j (Function.update s.rx j _ j)
      rw [Function.update_self]
      exact ⟨fun hn => absurd hn (by simp [hp, MainPc.RxStarted]), nofun, False.elim, False.elim⟩
    · change RxOk _ _ j (Function.update s.rx i _ j)
      rw [Function.update_of_ne hji]
      refine hj.unstopped hm (fun _ => ⟨Nat.lt_succ_of_lt, fun hlt => ?_⟩) id id
      exact Nat.lt_of_le_of_ne (Nat.le_of_lt_succ hlt) hji
  | noPolling i hm hp =>
    refine hj.unstopped hm (fun hpr => ⟨Nat.lt_succ_of_lt, fun hlt => ?_⟩) id id
    refine Nat.lt_of_le_of_ne (Nat.le_of_lt_succ hlt) ?_
    rintro rfl
    rw [hp] at hpr
    cases hpr
  | pollingStarted hm =>
    exact hj.unstopped hm (fun hpr => iff_of_true (List.getElem?_eq_some_iff.mp hpr).1 trivial) id id
  | quit hm _ =>
    rw [hm] at hj
    exact hj.next (fun _ => Iff.rfl) (fun hlt _ => absurd hlt (Nat.not_lt_zero j)) False.elim
  | stopRunner i hm _ =>
    rw [hm] at hj
    exact hj.next (fun _ => Iff.rfl) (fun hlt _ => hlt) False.elim
  | stopPolling i hm hp =>
    rw [hm] at hj
    by_cases hji : j = i
    · subst hji
      change RxOk _ _ j (Function.update s.rx j _ j)
      rw [Function.update_self]
      exact ⟨hj.fresh, hj.begun, fun _ _ => rfl, False.elim⟩
    · change RxOk _ _ j (Function.update s.rx i _ j)
      rw [Function.update_of_ne hji]
      exact hj.next (fun _ => Iff.rfl) (fun hlt _ => Nat.lt_of_le_of_ne (Nat.le_of_lt_succ hlt) hji) False.elim
  | stopNoPolling i hm hp =>
    rw [hm] at hj
    refine hj.next (fun _ => Iff.rfl) (fun hlt hpr => Nat.lt_of_le_of_ne (Nat.le_of_lt_succ hlt) ?_) False.elim
    rintro rfl
    rw [hp] at hpr
    cases hpr
  | stopped hm =>
    rw [hm] at hj
    refine hj.next (fun _ => Iff.rfl) (fun _ hpr => ?_) fun hlt => absurd hlt (Nat.not_lt_zero j)
    exact Nat.lt_of_lt_of_le (List.getElem?_eq_some_iff.mp hpr).1 setup.length_le
  | joinRunner i hm _ _ =>
    rw [hm] at hj
    exact hj.next (fun _ => Iff.rfl) (fun hn _ => hn) hj.joined
  | joinPolling i hm _ hx =>
    rw [hm] at hj
    refine hj.next (fun _ => Iff.rfl) (fun hn _ => hn) fun hlt => ?_
    rcases Nat.lt_succ_iff_lt_or_eq.mp hlt with hlt | rfl
    · exact hj.joined hlt
    · rw [hx]
      trivial
  | joinNoPolling i hm hp =>
    rw [hm] at hj
    refine hj.next (fun _ => Iff.rfl) (fun hn _ => hn) fun hlt => ?_
    rcases Nat.lt_succ_iff_lt_or_eq.mp hlt with hlt | rfl
    · exact hj.joined hlt
    · rw [hj.fresh (.inr (by simp [hp]))]
      trivial
  | joined hm =>
    rw [hm] at hj
    refine hj.next (fun _ => Iff.rfl) (fun hn _ => hn) fun _ => ?_
    by_cases hlt : j < setup.numDevices
    · exact hj.joined hlt
    · rw [hj.fresh (.inr fun hpr => hlt (Nat.lt_of_lt_of_le (List.getElem?_eq_some_iff.mp hpr).1 setup.length_le))]
      trivial

theorem RunnerOk.connected (h : RunnerOk n m j r) (hs : RunnerStep r e r') (hc : r.state = connected) :
    r'.state = connected := by
  have hstate := h.state_eq
  rw [hc] at hstate
  cases hs with
  | setStarted hp => rw [hp] at hstate; cases hstate
  | setInitialized hp => rw [hp] at hstate; cases hstate
  | setConnected hp => rfl
  | _ => exact hc

theorem Inv.attached_main (h : Inv setup s) (hs : MainStep setup s t) (j : ℕ)
    (ha : t.main.Attached setup.numDevices j) : t.quit = true ∨ (t.runner j).state = connected := by
  have hold := h.attached j
  cases hs with
  | startRunner => exact ha.elim
  | runnersStarted => exact absurd ha (Nat.not_lt_zero j)
  | runnerInitialized => exact ha.elim
  | runnerConnected i hm _ hc =>
    rcases Nat.lt_succ_iff_lt_or_eq.mp ha with hlt | rfl
    · rw [hm] at hold
      exact hold hlt
    · exact hc.symm
  | stopRunner i hm _ =>
    rw [hm] at hold
    by_cases hji : j = i
    · subst hji
      change _ ∨ (Function.update s.runner j _ j).state = _
      rw [Function.update_self]
      exact hold ha
    · change _ ∨ (Function.update s.runner i _ j).state = _
      rw [Function.update_of_ne hji]
      exact hold ha
  | runnersConnected hm | startPolling _ hm | noPolling _ hm | pollingStarted hm | quit hm | stopPolling _ hm
  | stopNoPolling _ hm | stopOutOfBounds _ hm | stopped hm | joinRunner _ hm | joinPolling _ hm | joinNoPolling _ hm
  | joinOutOfBounds _ hm | joined hm =>
    rw [hm] at hold
    exact hold ha

theorem Inv.step {o : Option Event} (h : Inv setup s) (hs : Step setup s o t) : Inv setup t := by
  cases hs with
  | signal => exact ⟨h.runner, h.rx, fun j _ => .inl rfl⟩
  | main hs => exact ⟨RunnerOk.main h.runner hs, RxOk.main h.rx hs, h.attached_main hs⟩
  | runner i hs =>
    refine ⟨fun j => ?_, h.rx, fun j ha => ?_⟩
    · by_cases hji : j = i
      · subst hji
        simpa using (h.runner j).step hs
      · simpa [hji] using h.runner j
    · by_cases hji : j = i
      · subst hji
        simpa using (h.attached j ha).imp (fun hq => .inl hq) ((h.runner j).connected hs)
      · simpa [hji] using (h.attached j ha).imp_left fun hq => .inl hq
  | rx i hs =>
    refine ⟨h.runner, fun j => ?_, h.attached⟩
    by_cases hji : j = i
    · subst hji
      simpa using (h.rx j).step hs
    · simpa [hji] using h.rx j

theorem Inv.reachable (h : (process setup).Reachable s) : Inv setup s := by
  apply h.invariant
  · exact fun _ => Inv.start
  · rintro s t hi ⟨o, hs⟩
    exact hi.step hs

section Stop

/-- A thread that has seen its flag set finishes its round. -/
def RunnerPc.credit : RunnerPc → ℕ
  | poll => 1
  | _ => 0

def RxPc.credit : RxPc → ℕ
  | callback => 1
  | _ => 0

/-- The runner was told to stop, and will not set its flag again. -/
structure RunnerTold (j : ℕ) (s : State) : Prop where
  shut : s.main.Shut
  running : (s.runner j).running = false
  late : ¬(s.runner j).pc.Early

structure RxTold (j : ℕ) (s : State) : Prop where
  shut : s.main.Shut
  running : (s.rx j).running = false

variable {o : Option Event} {es : List Event}

theorem RunnerStep.told (hs : RunnerStep r e r') (hr : r.running = false) (hl : ¬r.pc.Early) (i : ℕ) :
    r'.running = false ∧ ¬r'.pc.Early ∧
      (e.event i).toList.count (.served i) + r'.pc.credit ≤ r.pc.credit := by
  cases hs with
  | setStarted hp | setRunning hp | setInitialized hp => exact absurd (by rw [hp]; trivial) hl
  | goOn hp hr' => rw [hr] at hr'; cases hr'
  | timeout hp | serve hp | disconnected hp =>
    refine ⟨hr, id, ?_⟩
    rw [hp]
    simp [Effect.event, RunnerPc.credit]
  | attached | notAttached | retry | giveUp | setConnected | leave =>
    exact ⟨hr, id, Nat.zero_le _⟩

theorem RxStep.told (hs : RxStep x called x') (hr : x.running = false) :
    x'.running = false ∧ (if called then 1 else 0) + x'.pc.credit ≤ x.pc.credit := by
  cases hs with
  | goOn hp hr' => rw [hr] at hr'; cases hr'
  | leave => exact ⟨hr, Nat.zero_le _⟩
  | callback hp =>
    refine ⟨hr, ?_⟩
    rw [hp]
    rfl

/-- Once `_main` has left its loop, it starts nothing and only clears flags. -/
theorem MainStep.shut (hs : MainStep setup s t) (hm : s.main.Shut) (j : ℕ) :
    t.main.Shut ∧ (t.runner j).pc = (s.runner j).pc ∧ (t.rx j).pc = (s.rx j).pc ∧
      ((s.runner j).running = false → (t.runner j).running = false) ∧
      ((s.rx j).running = false → (t.rx j).running = false) := by
  cases hs with
  | startRunner i h | runnersStarted h | runnerInitialized i h | runnerConnected i h | runnersConnected h
  | startPolling i h | noPolling i h | pollingStarted h | quit h => exact absurd hm (by rw [h]; exact id)
  | stopRunner i h =>
    refine ⟨trivial, ?_, rfl, fun hr => ?_, id⟩
    all_goals
      by_cases hji : j = i
      · subst hji
        simp
      · simp [*]
  | stopPolling i h =>
    refine ⟨trivial, rfl, ?_, id, fun hr => ?_⟩
    all_goals
      by_cases hji : j = i
      · subst hji
        simp
      · simp [*]
  | _ => exact ⟨trivial, rfl, rfl, id, id⟩

theorem RunnerTold.step (h : RunnerTold j s) (hs : Step setup s o t) : RunnerTold j t ∧
    o.toList.count (.served j) + (t.runner j).pc.credit ≤ (s.runner j).pc.credit := by
  cases hs with
  | signal => exact ⟨⟨h.shut, h.running, h.late⟩, by simp⟩
  | main hs =>
    obtain ⟨hshut, hpc, -, hr, -⟩ := hs.shut h.shut j
    refine ⟨⟨hshut, hr h.running, ?_⟩, ?_⟩ <;> rw [hpc]
    · exact h.late
    · simp
  | @runner i e r hs =>
    by_cases hji : j = i
    · subst hji
      obtain ⟨hr, hl, hc⟩ := hs.told h.running h.late j
      exact ⟨⟨h.shut, by simpa using hr, by simpa using hl⟩, by simpa using hc⟩
    · refine ⟨⟨h.shut, by simpa [hji] using h.running, by simpa [hji] using h.late⟩, ?_⟩
      cases e <;> simp [Effect.event, hji, Ne.symm hji]
  | @rx i called x hs =>
    refine ⟨⟨h.shut, h.running, h.late⟩, ?_⟩
    cases called <;> simp

theorem RxTold.step (h : RxTold j s) (hs : Step setup s o t) : RxTold j t ∧
    o.toList.count (.polled j) + (t.rx j).pc.credit ≤ (s.rx j).pc.credit := by
  cases hs with
  | signal => exact ⟨⟨h.shut, h.running⟩, by simp⟩
  | main hs =>
    obtain ⟨hshut, -, hpc, -, hr⟩ := hs.shut h.shut j
    refine ⟨⟨hshut, hr h.running⟩, ?_⟩
    rw [hpc]
    simp
  | @runner i e r hs =>
    refine ⟨⟨h.shut, h.running⟩, ?_⟩
    cases e <;> simp [Effect.event]
  | @rx i called x hs =>
    by_cases hji : j = i
    · subst hji
      obtain ⟨hr, hc⟩ := hs.told h.running
      refine ⟨⟨h.shut, by simpa using hr⟩, ?_⟩
      cases called <;> simpa using hc
    · refine ⟨⟨h.shut, by simpa [hji] using h.running⟩, ?_⟩
      cases called <;> simp [hji, Ne.symm hji]

theorem RunnerTold.run (h : RunnerTold j s) (hr : Run setup s es t) :
    es.count (.served j) + (t.runner j).pc.credit ≤ (s.runner j).pc.credit := by
  induction hr with
  | refl => simp
  | head hs _ ih =>
    obtain ⟨ht, hc⟩ := h.step hs
    have := ih ht
    rw [List.count_append]
    omega

theorem RxTold.run (h : RxTold j s) (hr : Run setup s es t) :
    es.count (.polled j) + (t.rx j).pc.credit ≤ (s.rx j).pc.credit := by
  induction hr with
  | refl => simp
  | head hs _ ih =>
    obtain ⟨ht, hc⟩ := h.step hs
    have := ih ht
    rw [List.count_append]
    omega

/-- After all joins no thread is left to make a step. -/
structure Over (s : State) : Prop where
  main : s.main = .done
  runner : ∀ i, (s.runner i).pc.Ended
  rx : ∀ i, (s.rx i).pc.Ended

theorem RunnerStep.not_ended (hs : RunnerStep r e r') : ¬r.pc.Ended := by
  cases hs with
  | setStarted hp | setRunning hp | setInitialized hp | attached hp | notAttached hp | retry hp | giveUp hp
  | setConnected hp | goOn hp | leave hp | timeout hp | serve hp | disconnected hp =>
    rw [hp]
    exact id

theorem RxStep.not_ended (hs : RxStep x called x') : ¬x.pc.Ended := by
  cases hs with
  | goOn hp | leave hp | callback hp =>
    rw [hp]
    exact id

theorem Over.step (h : Over s) (hs : Step setup s o t) : o = none ∧ Over t := by
  cases hs with
  | signal => exact ⟨rfl, h.main, h.runner, h.rx⟩
  | main hs =>
    have hm := h.main
    cases hs <;> simp_all
  | runner i hs => exact absurd (h.runner i) hs.not_ended
  | rx i hs => exact absurd (h.rx i) hs.not_ended

theorem Over.run (h : Over s) (hr : Run setup s es t) : es = [] := by
  induction hr with
  | refl => rfl
  | head hs _ ih =>
    obtain ⟨rfl, ht⟩ := h.step hs
    exact ih ht

theorem shut_of_stopped (h : m.RunnerStopped j ∨ m.RxStopped j) : m.Shut := by
  cases m <;> first | trivial | exact absurd h (by simp [MainPc.RunnerStopped, MainPc.RxStopped])

/-- A thread that was told to stop calls into its device at most once more, and after the joins none does. -/
theorem stop_quiets (h : (process setup).Reachable s) (hr : Run setup s es t) :
    (∀ j < setup.numDevices, s.main.RunnerStopped j → es.count (.served j) ≤ 1) ∧
      (∀ j, setup.pollingThreads[j]? = some true → s.main.RxStopped j → es.count (.polled j) ≤ 1) ∧
      (s.main = .done → es = []) := by
  have hi := Inv.reachable h
  refine ⟨fun j hj hm => ?_, fun j hp hm => ?_, fun hm => ?_⟩
  · have hok := hi.runner j
    have htold : RunnerTold j s := ⟨shut_of_stopped (.inl hm), hok.stopped hj hm, hok.settled (awaited_of_stopped hm)⟩
    have hcount := htold.run hr
    have hcredit : (s.runner j).pc.credit ≤ 1 := by
      cases (s.runner j).pc <;> simp [RunnerPc.credit]
    omega
  · have htold : RxTold j s := ⟨shut_of_stopped (.inr hm), (hi.rx j).stopped hm hp⟩
    have hcount := htold.run hr
    have hcredit : (s.rx j).pc.credit ≤ 1 := by
      cases (s.rx j).pc <;> simp [RxPc.credit]
    omega
  · have hover : Over s := ⟨hm, fun j => (hi.runner j).joined (by rw [hm]; trivial),
      fun j => (hi.rx j).joined (by rw [hm]; trivial)⟩
    exact hover.run hr

def single : Setup := ⟨1, [true], le_rfl⟩

def idle : State := ⟨.startRunner 0, false, fun _ => ⟨.notStarted, 0, false⟩, fun _ => ⟨.notStarted, false⟩⟩

theorem idle_initial : Initial idle := ⟨rfl, fun _ => ⟨rfl, rfl⟩, fun _ => rfl⟩

theorem stopping_reachable : ∃ s, (process single).Reachable s ∧ s.main = .stopPolling 0 ∧ (s.runner 0).pc = .poll := by
  have h := Machine.Reachable.start (M := process single) idle_initial
  have h := h.step ⟨_, .main (.startRunner 0 rfl (by decide))⟩
  have h := h.step ⟨_, .runner 0 (.setStarted rfl)⟩
  have h := h.step ⟨_, .runner 0 (.setRunning rfl)⟩
  have h := h.step ⟨_, .runner 0 (.setInitialized rfl)⟩
  have h := h.step ⟨_, .main (.runnerInitialized 0 rfl rfl)⟩
  have h := h.step ⟨_, .main (.runnersStarted rfl)⟩
  have h := h.step ⟨_, .runner 0 (.attached rfl)⟩
  have h := h.step ⟨_, .runner 0 (.setConnected rfl)⟩
  have h := h.step ⟨_, .runner 0 (.goOn rfl rfl)⟩
  have h := h.step ⟨_, .main (.runnerConnected 0 rfl (by decide) (.inl rfl))⟩
  have h := h.step ⟨_, .main (.runnersConnected rfl)⟩
  have h := h.step ⟨_, .main (.startPolling 0 rfl rfl)⟩
  have h := h.step ⟨_, .main (.pollingStarted rfl)⟩
  have h := h.step ⟨_, .signal⟩
  have h := h.step ⟨_, .main (.quit rfl rfl)⟩
  have h := h.step ⟨_, .main (.stopRunner 0 rfl (by decide))⟩
  exact ⟨_, h, rfl, rfl⟩

theorem stop_quiets_last : ∃ s t, (process single).Reachable s ∧ s.main = .stopPolling 0 ∧
    Run single s [.served 0] t ∧ List.count (.served 0) [Event.served 0] ≤ 1 := by
  obtain ⟨s, h, hm, hpc⟩ := stopping_reachable
  have hr : Run single s [.served 0] _ := .head (.runner 0 (.serve hpc)) (.refl _)
  have hstopped : s.main.RunnerStopped 0 := by
    rw [hm]
    exact le_rfl
  exact ⟨s, _, h, hm, hr, (stop_quiets h hr).1 0 (by decide) hstopped⟩

end Stop

section Shutdown

open Relation

/-- The runner got past the state that `_main` waits for before `_main` looked. -/
def Missed (s : State) : Prop :=
  ∃ i, s.main = .waitInitialized i ∧ (s.runner i).state = connected

def MainPc.Within (n len : ℕ) : MainPc → Prop
  | startRunner i | waitConnected i => i ≤ n
  | waitInitialized i => i < n
  | startPolling i => i ≤ len
  | loop => True
  | stopRunner i => i ≤ n ∧ i ≤ len
  | stopPolling i => i < n ∧ i ≤ len
  | joinRunner i => i ≤ n ∧ n ≤ len
  | joinPolling i => i < n ∧ n ≤ len
  | done => n ≤ len
  | outOfBounds => len < n

theorem MainStep.within (hs : MainStep setup s t) (hm : s.main.Within setup.numDevices setup.pollingThreads.length) :
    t.main.Within setup.numDevices setup.pollingThreads.length := by
  cases hs with
  | startRunner i h hi => exact hi
  | runnersStarted h => exact Nat.zero_le _
  | runnerInitialized i h | joinRunner i h | joined h =>
    rw [h] at hm
    simp only [MainPc.Within] at hm ⊢
    omega
  | runnerConnected i h hi => exact hi
  | runnersConnected h => exact Nat.zero_le _
  | startPolling i h hp | noPolling i h hp => exact (List.getElem?_eq_some_iff.mp hp).1
  | pollingStarted h => trivial
  | quit h => exact ⟨Nat.zero_le _, Nat.zero_le _⟩
  | stopRunner i h hi =>
    rw [h] at hm
    exact ⟨hi, hm.2⟩
  | stopPolling i h hp | stopNoPolling i h hp =>
    rw [h] at hm
    exact ⟨hm.1, (List.getElem?_eq_some_iff.mp hp).1⟩
  | stopOutOfBounds i h hp | joinOutOfBounds i h hp =>
    rw [h] at hm
    have hle := List.getElem?_eq_none_iff.mp hp
    simp only [MainPc.Within] at hm ⊢
    omega
  | stopped h =>
    rw [h] at hm
    exact ⟨Nat.zero_le _, hm.2⟩
  | joinPolling i h | joinNoPolling i h =>
    rw [h] at hm
    exact hm

theorem within_reachable (h : (process setup).Reachable s) :
    s.main.Within setup.numDevices setup.pollingThreads.length := by
  apply h.invariant
  · intro s hs
    rw [hs.main]
    exact Nat.zero_le _
  · rintro s t hi ⟨o, hs⟩
    cases hs with
    | main hs => exact hs.within hi
    | signal | runner | rx => exact hi

/-- `_main` will not see the state it waits for any more. -/
theorem Missed.step {o : Option Event} (hi : Inv setup s) (hm : Missed s) (hs : Step setup s o t) : Missed t := by
  obtain ⟨i, hmain, hc⟩ := hm
  cases hs with
  | signal => exact ⟨i, hmain, hc⟩
  | main hs =>
    cases hs with
    | runnerInitialized k h hst =>
      rw [hmain] at h
      cases h
      rw [hc] at hst
      cases hst
    | _ => simp_all
  | runner k hs =>
    refine ⟨i, hmain, ?_⟩
    by_cases hik : i = k
    · subst hik
      simpa using (hi.runner i).connected hs hc
    · simpa [hik] using hc
  | rx => exact ⟨i, hmain, hc⟩

/-- How far `_main` is from its end. -/
def MainPc.rank (n len : ℕ) : MainPc → ℕ
  | startRunner i => 5 * n + len + 8 + 2 * (n - i)
  | waitInitialized i => 5 * n + len + 7 + 2 * (n - i)
  | waitConnected i => 4 * n + len + 6 + (n - i)
  | startPolling i => 4 * n + 5 + (len - i)
  | loop => 4 * n + 4
  | stopRunner i => 2 * n + 3 + 2 * (n - i)
  | stopPolling i => 2 * n + 2 + 2 * (n - i)
  | joinRunner i => 1 + 2 * (n - i)
  | joinPolling i => 2 * (n - i)
  | done | outOfBounds => 0

/-- What a runner can do on its own, unnoticed. -/
abbrev Silently : Runner → Runner → Prop :=
  ReflTransGen (RunnerStep · .silent ·)

abbrev Reaches (setup : Setup) : State → State → Prop :=
  ReflTransGen (process setup).step

theorem Reaches.runner {i : ℕ} (h : Silently (s.runner i) r) : ∃ t, Reaches setup s t ∧ t.main = s.main ∧ t.runner i = r := by
  induction h with
  | refl => exact ⟨s, .refl, rfl, rfl⟩
  | tail _ hs ih =>
    obtain ⟨t, ht, hm, rfl⟩ := ih
    exact ⟨_, ht.tail ⟨_, .runner i hs⟩, hm, by simp⟩

theorem initialized_of_begun (h : r.state = r.pc.state) (hb : r.pc ≠ .notStarted) (hc : r.state ≠ connected) :
    ∃ r', Silently r r' ∧ r'.state = initialized := by
  have hlast : ∀ {r : Runner}, r.pc = .setInitialized → ∃ r', Silently r r' ∧ r'.state = initialized :=
    fun hp => ⟨_, .single (.setInitialized hp), rfl⟩
  have hrunning : ∀ {r : Runner}, r.pc = .setRunning → ∃ r', Silently r r' ∧ r'.state = initialized := by
    intro r hp
    obtain ⟨r', hr, hst⟩ := hlast (r := { r with running := true, pc := .setInitialized }) rfl
    exact ⟨r', .head (.setRunning hp) hr, hst⟩
  cases hp : r.pc <;> rw [hp] at h
  case notStarted => exact absurd hp hb
  case setStarted =>
    obtain ⟨r', hr, hst⟩ := hrunning (r := { r with state := started, pc := .setRunning }) rfl
    exact ⟨r', .head (.setStarted hp) hr, hst⟩
  case setRunning => exact hrunning hp
  case setInitialized => exact hlast hp
  case attach | attachFailed | setConnected => exact ⟨r, .refl, h⟩
  case check | poll | exited => exact absurd h hc

theorem exits_of_stopped (hr : r.running = false) (hb : r.pc ≠ .notStarted) (hl : ¬r.pc.Early) :
    ∃ r', Silently r r' ∧ r'.pc = .exited := by
  have hcheck : ∀ {r : Runner}, r.pc = .check → r.running = false → ∃ r', Silently r r' ∧ r'.pc = .exited :=
    fun hp hr => ⟨_, .single (.leave hp hr), rfl⟩
  have hconnected : ∀ {r : Runner}, r.pc = .setConnected → r.running = false → ∃ r', Silently r r' ∧ r'.pc = .exited := by
    intro r hp hr
    obtain ⟨r', hs, hx⟩ := hcheck (r := { r with state := connected, pc := .check }) rfl hr
    exact ⟨r', .head (.setConnected hp) hs, hx⟩
  cases hp : r.pc
  case notStarted => exact absurd hp hb
  case setStarted | setRunning | setInitialized =>
    rw [hp] at hl
    exact absurd trivial hl
  case attach =>
    obtain ⟨r', hs, hx⟩ := hconnected (r := { r with pc := .setConnected }) rfl hr
    exact ⟨r', .head (.attached hp) hs, hx⟩
  case attachFailed =>
    obtain ⟨r', hs, hx⟩ := hconnected (r := { r with pc := .setConnected }) rfl hr
    exact ⟨r', .head (.giveUp hp hr) hs, hx⟩
  case setConnected => exact hconnected hp hr
  case check => exact hcheck hp hr
  case poll =>
    obtain ⟨r', hs, hx⟩ := hcheck (r := { r with pc := .check }) rfl hr
    exact ⟨r', .head (.timeout hp) hs, hx⟩
  case exited => exact ⟨r, .refl, hp⟩

theorem Reaches.rx_exits {i : ℕ} (hr : (s.rx i).running = false) (hb : (s.rx i).pc ≠ .notStarted) :
    ∃ t, Reaches setup s t ∧ t.main = s.main ∧ (t.rx i).pc = .exited := by
  have hcheck : ∀ {s : State}, (s.rx i).pc = .check → (s.rx i).running = false →
      ∃ t, Reaches setup s t ∧ t.main = s.main ∧ (t.rx i).pc = .exited :=
    fun hp hr => ⟨_, .single ⟨_, .rx i (.leave hp hr)⟩, rfl, by simp⟩
  cases hp : (s.rx i).pc
  case notStarted => exact absurd hp hb
  case check => exact hcheck hp hr
  case callback =>
    obtain ⟨t, ht, hm, hx⟩ := hcheck (s := { s with rx := Function.update s.rx i { s.rx i with pc := .check } })
      (by simp) (by simpa using hr)
    exact ⟨t, .head ⟨_, .rx i (.callback hp)⟩ ht, hm, hx⟩
  case exited => exact ⟨s, .refl, rfl, hp⟩

theorem present_or_absent {i : ℕ} (hi : i < setup.pollingThreads.length) :
    setup.pollingThreads[i]? = some true ∨ setup.pollingThreads[i]? = some false := by
  rw [List.getElem?_eq_getElem hi]
  cases setup.pollingThreads[i] <;> simp

/-- Unless it missed a runner, `_main` can always be brought closer to its end. -/
theorem Reaches.progress (hs : (process setup).Reachable s) (hlen : setup.pollingThreads.length = setup.numDevices)
    (hm : ¬Missed s) (hd : s.main ≠ .done) : ∃ t, Reaches setup s t ∧ ¬Missed t ∧
      t.main.rank setup.numDevices setup.numDevices < s.main.rank setup.numDevices setup.numDevices := by
  have hi := Inv.reachable hs
  have hw := within_reachable hs
  have next : ∀ {t u : State} {k : ℕ}, Reaches setup s t → MainStep setup t u → (∀ i, u.main ≠ .waitInitialized i) →
      u.main.rank setup.numDevices setup.numDevices < k →
      ∃ u, Reaches setup s u ∧ ¬Missed u ∧ u.main.rank setup.numDevices setup.numDevices < k :=
    fun ht hu hn hr => ⟨_, ht.tail ⟨none, .main hu⟩, fun ⟨i, he, _⟩ => hn i he, hr⟩
  have signalled : Reaches setup s { s with quit := true } := .single ⟨_, .signal⟩
  rw [hlen] at hw
  cases hmain : s.main <;> rw [hmain] at hw <;> simp only [MainPc.Within] at hw
  case startRunner i =>
    rcases Nat.lt_or_eq_of_le hw with hlt | rfl
    · refine ⟨_, .single ⟨_, .main (.startRunner i hmain hlt)⟩, ?_, by simp only [MainPc.rank]; omega⟩
      rintro ⟨k, hk, hc⟩
      cases hk
      have hok := hi.runner i
      rw [hmain] at hok
      simp [hok.state_eq, hok.fresh (Nat.lt_irrefl i), RunnerPc.state, connected] at hc
    · exact next .refl (.runnersStarted hmain) nofun (by simp only [MainPc.rank]; omega)
  case waitInitialized i =>
    have hok := hi.runner i
    rw [hmain] at hok
    obtain ⟨r, hr, hst⟩ := initialized_of_begun hok.state_eq (hok.begun le_rfl) fun hc => hm ⟨i, hmain, hc⟩
    obtain ⟨t, ht, htm, rfl⟩ := Reaches.runner hr
    exact next ht (.runnerInitialized i (htm.trans hmain) hst) nofun (by simp only [MainPc.rank]; omega)
  case waitConnected i =>
    rcases Nat.lt_or_eq_of_le hw with hlt | rfl
    · exact next signalled (.runnerConnected i hmain hlt (.inr rfl)) nofun (by simp only [MainPc.rank]; omega)
    · exact next .refl (.runnersConnected hmain) nofun (by simp only [MainPc.rank]; omega)
  case startPolling i =>
    rcases Nat.lt_or_eq_of_le hw with hlt | he
    · rcases present_or_absent (hlen.symm ▸ hlt) with hp | hp
      · exact next .refl (.startPolling i hmain hp) nofun (by simp only [MainPc.rank]; omega)
      · exact next .refl (.noPolling i hmain hp) nofun (by simp only [MainPc.rank]; omega)
    · rw [he, ← hlen] at hmain
      exact next .refl (.pollingStarted hmain) nofun (by simp only [MainPc.rank]; omega)
  case loop => exact next signalled (.quit hmain rfl) nofun (by simp only [MainPc.rank]; omega)
  case stopRunner i =>
    rcases Nat.lt_or_eq_of_le hw.1 with hlt | rfl
    · exact next .refl (.stopRunner i hmain hlt) nofun (by simp only [MainPc.rank]; omega)
    · exact next .refl (.stopped hmain) nofun (by simp only [MainPc.rank]; omega)
  case stopPolling i =>
    rcases present_or_absent (hlen.symm ▸ hw.1) with hp | hp
    · exact next .refl (.stopPolling i hmain hp) nofun (by simp only [MainPc.rank]; omega)
    · exact next .refl (.stopNoPolling i hmain hp) nofun (by simp only [MainPc.rank]; omega)
  case joinRunner i =>
    rcases Nat.lt_or_eq_of_le hw.1 with hlt | rfl
    · have hok := hi.runner i
      rw [hmain] at hok
      obtain ⟨r, hr, hx⟩ := exits_of_stopped (hok.stopped hlt trivial) (hok.begun hlt) (hok.settled trivial)
      obtain ⟨t, ht, htm, rfl⟩ := Reaches.runner hr
      exact next ht (.joinRunner i (htm.trans hmain) hlt hx) nofun (by simp only [MainPc.rank]; omega)
    · exact next .refl (.joined hmain) nofun (by simp only [MainPc.rank]; omega)
  case joinPolling i =>
    rcases present_or_absent (hlen.symm ▸ hw.1) with hp | hp
    · have hok := hi.rx i
      rw [hmain] at hok
      obtain ⟨t, ht, htm, hx⟩ := Reaches.rx_exits (hok.stopped trivial hp) (hok.begun trivial hp)
      exact next ht (.joinPolling i (htm.trans hmain) hp hx) nofun (by simp only [MainPc.rank]; omega)
    · exact next .refl (.joinNoPolling i hmain hp) nofun (by simp only [MainPc.rank]; omega)
  case done => exact absurd hmain hd
  case outOfBounds => exact absurd hw (Nat.lt_irrefl _)

theorem Reaches.done (hs : (process setup).Reachable s) (hlen : setup.pollingThreads.length = setup.numDevices)
    (hm : ¬Missed s) : ∃ t, Reaches setup s t ∧ t.main = .done := by
  induction hk : s.main.rank setup.numDevices setup.numDevices using Nat.strong_induction_on generalizing s with
  | _ k ih =>
    by_cases hd : s.main = .done
    · exact ⟨s, .refl, hd⟩
    · obtain ⟨t, ht, htm, hlt⟩ := Reaches.progress hs hlen hm hd
      obtain ⟨u, hu, hdone⟩ := ih _ (hk ▸ hlt) (hs.steps ht) htm rfl
      exact ⟨u, ht.trans hu, hdone⟩

/-- The process can be shut down unless `_main` missed a runner, or some device has no entry in `pollingThreads`. -/
theorem shuts_down_iff (hs : (process setup).Reachable s) : (∃ t, Reaches setup s t ∧ t.main = .done) ↔
    setup.pollingThreads.length = setup.numDevices ∧ ¬Missed s := by
  constructor
  · rintro ⟨t, ht, hd⟩
    have hw := within_reachable (hs.steps ht)
    rw [hd] at hw
    refine ⟨le_antisymm setup.length_le hw, fun hm => ?_⟩
    have hmissed : (process setup).Reachable t ∧ Missed t := by
      clear hd hw
      induction ht with
      | refl => exact ⟨hs, hm⟩
      | tail _ hstep ih =>
        obtain ⟨o, ho⟩ := hstep
        exact ⟨ih.1.step ⟨o, ho⟩, ih.2.step (Inv.reachable ih.1) ho⟩
    obtain ⟨i, hi, -⟩ := hmissed.2
    rw [hd] at hi
    cases hi
  · exact fun ⟨hlen, hm⟩ => Reaches.done hs hlen hm

/-- A guest that attaches at once leaves `_main` waiting for ever. -/
theorem shuts_down_iff_missed : ∃ s, (process single).Reachable s ∧ ¬∃ t, Reaches single s t ∧ t.main = .done := by
  have h := Machine.Reachable.start (M := process single) idle_initial
  have h := h.step ⟨_, .main (.startRunner 0 rfl (by decide))⟩
  have h := h.step ⟨_, .runner 0 (.setStarted rfl)⟩
  have h := h.step ⟨_, .runner 0 (.setRunning rfl)⟩
  have h := h.step ⟨_, .runner 0 (.setInitialized rfl)⟩
  have h := h.step ⟨_, .runner 0 (.attached rfl)⟩
  have h := h.step ⟨_, .runner 0 (.setConnected rfl)⟩
  exact ⟨_, h, fun ht => ((shuts_down_iff h).mp ht).2 ⟨0, rfl, rfl⟩⟩

/-- The polling threads, and the runners that serve requests, only call into devices of guests that have attached. -/
theorem calls_after_connect (hs : (process setup).Reachable s) {i : ℕ} :
    (Step setup s (some (.served i)) t → (s.runner i).state = connected) ∧
      (Step setup s (some (.polled i)) t → setup.pollingThreads[i]? = some true ∧
        (s.quit = true ∨ ∀ j < setup.numDevices, (s.runner j).state = connected)) := by
  have hi := Inv.reachable hs
  constructor
  · intro h
    generalize ho : some (Event.served i) = o at h
    cases h with
    | signal => cases ho
    | main => cases ho
    | @runner j e r h =>
      have hok := (hi.runner j).state_eq
      cases h <;> simp only [Effect.event, Option.some.injEq, Event.served.injEq, reduceCtorEq] at ho
      case serve hp | disconnected hp =>
        subst ho
        rw [hok, hp]
        rfl
    | @rx j called x h => cases called <;> simp at ho
  · intro h
    generalize ho : some (Event.polled i) = o at h
    cases h with
    | signal => cases ho
    | main => cases ho
    | @runner j e r h => cases e <;> simp [Effect.event] at ho
    | @rx j called x h =>
      cases h with
      | goOn | leave => simp at ho
      | callback hp =>
        obtain rfl : i = j := by simpa using ho
        have hstarted : s.main.RxStarted i ∧ setup.pollingThreads[i]? = some true := by
          by_contra hn
          have hfresh := (hi.rx i).fresh (not_and_or.mp hn)
          rw [hp] at hfresh
          cases hfresh
        refine ⟨hstarted.2, or_iff_not_imp_left.mpr fun hq j hj => (hi.attached j ?_).resolve_left hq⟩
        cases hm : s.main <;> rw [hm] at hstarted <;> first | exact hj | exact hstarted.1.elim

theorem calls_after_connect_served : ∃ s t, (process single).Reachable s ∧ Step single s (some (.served 0)) t ∧
    (s.runner 0).state = connected := by
  obtain ⟨s, h, _, hpc⟩ := stopping_reachable
  have hstep : Step single s (some (.served 0)) _ := .runner 0 (.serve hpc)
  exact ⟨s, _, h, hstep, (calls_after_connect h).1 hstep⟩

end Shutdown

end Vmux.ThreadLifecycle
