import Vmux.DescriptorQueue
import Vmux.Timespec

namespace Vmux.Interrupts

open DescriptorQueue

/-- What `vfu_irq_trigger` returns: success, `ENOENT`, or another error. -/
inductive Triggered
  | ok
  | enoent
  | error
deriving DecidableEq, Repr

/-- `InterruptThrottlerSimbricks`, without the timer file that only `timer_cb` uses. -/
structure Throttler where
  guestUnmaskedIrq : Bool
  time : Timespec
  armed : Bool
  irqIdx : ℕ
  pollTimer : Timespec
deriving DecidableEq, Repr

def Throttler.fresh (idx : ℕ) : Throttler := ⟨true, .zero, false, idx, .zero⟩

namespace Throttler

variable (t : Throttler)

/-- The call of `vfu_irq_trigger` has been made; this is what follows from its result. -/
def sendInterrupt : Triggered → Except Fault Throttler
  | .ok => .ok t
  | .enoent => .ok { t with guestUnmaskedIrq := false } -- masked without the driver knowing
  | .error => .error .abort

def pollTimerCb (r : Triggered) : Except Fault Throttler := do
  let t ← t.sendInterrupt r
  .ok { t with pollTimer := .zero, armed := false }

/-- Does `processPollTimer` find its timer expired? -/
def expired (now : Timespec) : Bool := t.pollTimer ≠ .zero ∧ t.pollTimer.before now

/-- The new state, and whether `vfu_irq_trigger` was called. -/
def processPollTimer (now : Timespec) (r : Triggered) : Except Fault (Throttler × Bool) :=
  if t.expired now then do
    let t ← t.pollTimerCb r
    .ok (t, true)
  else .ok (t, false)

def tryInterrupt (curtime : Timespec) (mindelay : ℕ) : Throttler :=
  if !t.guestUnmaskedIrq then t
  else
    let newtime := curtime.addNsec mindelay
    -- already armed and this is not scheduled sooner
    if t.armed && t.time.before newtime then t
    else { t with armed := true, time := newtime, pollTimer := newtime }

variable {t} {t' : Throttler} {now : Timespec} {r : Triggered} {sent : Bool}

theorem expired_iff : t.expired now = true ↔ t.pollTimer ≠ .zero ∧ t.pollTimer.before now = true := by
  simp [expired]

theorem sendInterrupt_cases (h : t.sendInterrupt r = .ok t') :
    t' = { t with guestUnmaskedIrq := t'.guestUnmaskedIrq } ∧
      (t'.guestUnmaskedIrq = true → t.guestUnmaskedIrq = true) := by
  cases r with
  | ok =>
    cases h
    exact ⟨rfl, id⟩
  | enoent =>
    cases h
    exact ⟨rfl, fun h => nomatch h⟩
  | error => cases h

theorem processPollTimer_cases (h : t.processPollTimer now r = .ok (t', sent)) :
    (t.expired now = true ∧ sent = true ∧ t'.pollTimer = .zero ∧ t'.armed = false ∧ t'.irqIdx = t.irqIdx ∧
      t'.time = t.time ∧ (t'.guestUnmaskedIrq = true → t.guestUnmaskedIrq = true)) ∨
    (t.expired now = false ∧ sent = false ∧ t' = t) := by
  unfold processPollTimer at h
  split at h
  · rename_i he
    left
    cases hs : t.sendInterrupt r with
    | error e =>
      rw [pollTimerCb, hs] at h
      cases h
    | ok u =>
      rw [pollTimerCb, hs] at h
      cases h
      obtain ⟨hu, hm⟩ := sendInterrupt_cases hs
      refine ⟨he, rfl, rfl, rfl, ?_, ?_, hm⟩
      · rw [hu]
      · rw [hu]
  · rename_i he
    cases h
    exact .inr ⟨eq_false_of_ne_true he, rfl, rfl⟩

theorem processPollTimer_ok (t : Throttler) (now : Timespec) :
    ∃ t', t.processPollTimer now .ok = .ok (t', t.expired now) := by
  unfold processPollTimer
  split
  · rename_i he
    exact ⟨{ t with pollTimer := .zero, armed := false }, by rw [he]; rfl⟩
  · rename_i he
    exact ⟨t, by rw [eq_false_of_ne_true he]⟩

end Throttler

/-- `NUM_MSIX_IRQs`. -/
def numMsixIrqs : ℕ := 16

/-- The throttlers of a device, as `irqThrottle` holds them. -/
abbrev Throttlers := ℕ → Throttler

/-- The throttler that `MsiXIssue` looks up: its parameter `vec` is a `uint8_t`. -/
def irqThrottle (vec : ℕ) : Except Fault ℕ :=
  if vec % 256 < numMsixIrqs then .ok (vec % 256) else .error .outOfBounds

/-- `CallbackAdaptor::MsiXIssue`. -/
def msiXIssue (ts : Throttlers) (curtime : Timespec) (vec mindelay : ℕ) : Except Fault Throttlers := do
  let i ← irqThrottle vec
  .ok (Function.update ts i ((ts i).tryInterrupt curtime mindelay))

/-- One round of `processAllPollTimers`, with the vectors triggered so far. -/
def pollVector (now : ℕ → Timespec) (r : ℕ → Triggered) (s : Throttlers × List ℕ) (i : ℕ) :
    Except Fault (Throttlers × List ℕ) := do
  let (t, sent) ← (s.1 i).processPollTimer (now i) (r i)
  .ok (Function.update s.1 i t, if sent then s.2 ++ [(s.1 i).irqIdx] else s.2)

def processAllPollTimers (now : ℕ → Timespec) (r : ℕ → Triggered) (ts : Throttlers) :
    Except Fault (Throttlers × List ℕ) :=
  (List.range numMsixIrqs).foldlM (pollVector now r) (ts, [])

def setMask (mask : Bool) (ts : Throttlers) (i : ℕ) : Except Fault Throttlers :=
  if i < numMsixIrqs then .ok (Function.update ts i { ts i with guestUnmaskedIrq := !mask })
  else .error .outOfBounds

/-- `irq_state_cb`; the end of the range is computed in 32 bits. -/
def irqStateCb (start count : ℕ) (mask : Bool) (ts : Throttlers) : Except Fault Throttlers :=
  (List.range' start ((start + count) % 2 ^ 32 - start)).foldlM (setMask mask) ts

end Vmux.Interrupts
