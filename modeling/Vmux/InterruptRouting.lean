import Vmux.DoorbellRouting
import Vmux.Interrupts

namespace Vmux.InterruptRouting

open Transitions DescriptorQueue Registers Nic Interrupts

inductive LanQueue
  | rx (i : ℕ)
  | tx (i : ℕ)
deriving DecidableEq, Repr

/-- The register that a queue was constructed with as `reg_intqctl`. -/
def LanQueue.regIntqctl (regs : Regs) : LanQueue → ℕ
  | .rx i => regs.arr .qintRqctl i
  | .tx i => regs.arr .qintTqctl i

def msixIndx (qctl : ℕ) : ℕ := qctl % 0x800

def itrIndx (qctl : ℕ) : ℕ := qctl / 0x800 % 4

def causeEna (qctl : ℕ) : Bool := qctl / 0x40000000 % 2 = 1

def intena (gctl : ℕ) : Bool := gctl % 2 = 1

def load (regs : Regs) (a : RegArray) (i : ℕ) : Except Fault ℕ :=
  if i < a.size then .ok (regs.arr a i) else .error .outOfBounds

/-- A call of `try_interrupt`: the throttler, and `mindelay`. -/
structure Request where
  throttler : ℕ
  mindelay : ℕ
deriving DecidableEq, Repr

/-- The branches of `SignalInterrupt` that choose the delay, in units of 2 us. -/
def loadDelay (regs : Regs) (vec : ℕ) : ℕ → Except Fault ℕ
  | 0 => load regs (.glintItr 0) vec
  | 1 => load regs (.glintItr 1) vec
  | 2 => load regs (.glintItr 2) vec
  | 3 => .ok 0
  | _ => .error .abort

/-- `SignalInterrupt` up to the throttler; `vec` also indexes `intevs`. -/
def signalInterrupt (regs : Regs) (vec itr : ℕ) : Except Fault Request := do
  if numPfints ≤ vec then .error .outOfBounds
  else
    let mindelay ← loadDelay regs vec itr
    let i ← irqThrottle vec
    .ok ⟨i, mindelay * 2000⟩

/-- Vector 0 also notes its cause in `pfint_icr0`. -/
def noteCause (regs : Regs) (vec : ℕ) : Regs :=
  if vec = 0 then regs.set .pfintIcr0 (regs.reg .pfintIcr0 ||| (1 ||| 1 <<< (2 + vec % 256))) else regs

/-- `lan_queue_base::interrupt`, which `writeback_done` calls. -/
def interrupt (regs : Regs) (qctl : ℕ) : Except Fault (Regs × Option Request) := do
  let index := msixIndx qctl
  let gctl ← load regs .pfintDynCtln index
  if !(causeEna qctl && intena gctl) then .ok (regs, none)
  else
    let regs := noteCause regs index
    let request ← signalInterrupt regs index (itrIndx qctl)
    .ok (regs, some request)

/-- The register that a queue selects for its vector; index 3 stands for no throttling. -/
def itrValue (regs : Regs) (vec : ℕ) : ℕ → ℕ
  | 0 => regs.arr (.glintItr 0) vec
  | 1 => regs.arr (.glintItr 1) vec
  | 2 => regs.arr (.glintItr 2) vec
  | _ => 0

def itrDelay (regs : Regs) (qctl : ℕ) : ℕ := 2000 * itrValue regs (msixIndx qctl) (itrIndx qctl)

/-- No index is out of bounds, and only the throttler of the vector is asked for an interrupt. -/
def Routed (regs : Regs) (qctl : ℕ) : Prop :=
  ∃ regs' request, interrupt regs qctl = .ok (regs', request) ∧
    (request = some ⟨msixIndx qctl, itrDelay regs qctl⟩ ∨ request = none)

variable {regs : Regs} {qctl : ℕ}

theorem loadDelay_eq {vec itr : ℕ} (hv : vec < numPfints) (hi : itr < 4) :
    loadDelay regs vec itr = .ok (itrValue regs vec itr) := by
  match itr, hi with
  | 0, _ => exact if_pos hv
  | 1, _ => exact if_pos hv
  | 2, _ => exact if_pos hv
  | 3, _ => rfl

theorem signalInterrupt_eq {vec itr : ℕ} (hv : vec < numPfints) (hi : itr < 4) :
    signalInterrupt regs vec itr = (irqThrottle vec).map fun i => ⟨i, 2000 * itrValue regs vec itr⟩ := by
  rw [signalInterrupt, if_neg (by omega), loadDelay_eq hv hi, mul_comm]
  cases irqThrottle vec with
  | error e => rfl
  | ok i => rfl

theorem msixIndx_lt : msixIndx qctl < numPfints := Nat.mod_lt _ (by decide)

theorem itrValue_noteCause (v vec itr : ℕ) : itrValue (noteCause regs v) vec itr = itrValue regs vec itr := by
  unfold noteCause
  split
  · unfold itrValue
    split
    · rfl
    · rfl
    · rfl
    · rfl
  · rfl

theorem interrupt_enabled (hc : causeEna qctl = true) (hv : msixIndx qctl < RegArray.pfintDynCtln.size)
    (hi : intena (regs.arr .pfintDynCtln (msixIndx qctl)) = true) :
    ∃ regs', interrupt regs qctl = (irqThrottle (msixIndx qctl)).map fun i => (regs', some ⟨i, itrDelay regs qctl⟩) := by
  have hitr : itrIndx qctl < 4 := Nat.mod_lt _ (by decide)
  have hload : load regs .pfintDynCtln (msixIndx qctl) = .ok (regs.arr .pfintDynCtln (msixIndx qctl)) := if_pos hv
  refine ⟨noteCause regs (msixIndx qctl), ?_⟩
  unfold interrupt
  dsimp only
  rw [hload]
  change (if _ then _ else _) = _
  rw [hc, hi, if_neg (by decide), signalInterrupt_eq msixIndx_lt hitr, itrValue_noteCause]
  cases irqThrottle (msixIndx qctl) with
  | error e => rfl
  | ok i => rfl

/-- The interrupt of a queue whose cause is enabled goes to its vector exactly if the device has a
throttler for it. -/
theorem interrupt_routed (d : Device) (q : LanQueue) (hc : causeEna (q.regIntqctl d.regs) = true)
    (hi : msixIndx (q.regIntqctl d.regs) < RegArray.pfintDynCtln.size →
      intena (d.regs.arr .pfintDynCtln (msixIndx (q.regIntqctl d.regs))) = true) :
    Routed d.regs (q.regIntqctl d.regs) ↔ msixIndx (q.regIntqctl d.regs) < numMsixIrqs := by
  generalize q.regIntqctl d.regs = qctl at *
  have hlt : msixIndx qctl < 2048 := msixIndx_lt
  have hsize : RegArray.pfintDynCtln.size = 2047 := rfl
  have h16 : numMsixIrqs = 16 := rfl
  by_cases hv : msixIndx qctl < RegArray.pfintDynCtln.size
  · obtain ⟨regs', hr⟩ := @interrupt_enabled d.regs qctl hc hv (hi hv)
    by_cases hm : msixIndx qctl % 256 < numMsixIrqs
    · have hi : irqThrottle (msixIndx qctl) = .ok (msixIndx qctl % 256) := if_pos hm
      rw [hi] at hr
      constructor
      · rintro ⟨regs'', request, heq, hreq | hreq⟩
        · rw [hr, hreq] at heq
          have hreq := Option.some.inj (Prod.mk.inj (Except.ok.inj heq)).2
          have hidx : msixIndx qctl % 256 = msixIndx qctl := congrArg Request.throttler hreq
          omega
        · rw [hr, hreq] at heq
          cases heq
      · intro hlt
        refine ⟨regs', _, hr, .inl ?_⟩
        rw [Nat.mod_eq_of_lt (by omega)]
    · have hi : irqThrottle (msixIndx qctl) = .error .outOfBounds := if_neg hm
      rw [hi] at hr
      constructor
      · rintro ⟨regs'', request, heq, -⟩
        rw [hr] at heq
        cases heq
      · intro hlt
        rw [Nat.mod_eq_of_lt (by omega)] at hm
        exact absurd hlt hm
  · have hr : interrupt d.regs qctl = .error .outOfBounds := by
      have hload : load d.regs .pfintDynCtln (msixIndx qctl) = .error .outOfBounds := if_neg hv
      unfold interrupt
      dsimp only
      rw [hload]
      rfl
    constructor
    · rintro ⟨regs'', request, heq, -⟩
      rw [hr] at heq
      cases heq
    · intro h
      omega

def routeTo (vec : ℕ) : List (ℕ × ℕ) := [(0x140000, 0x40000000 + vec), (0x160000 + 4 * vec, 1)]

theorem routeTo_reachable {vec qctl gctl : ℕ} (hv : vec < 2048)
    (h : (DoorbellRouting.guestWrites DoorbellRouting.guestEnv 1 (routeTo vec) zeroed).toOption.map (fun d =>
      (d.regs.arr .qintTqctl 0, d.regs.arr .pfintDynCtln vec)) = some (qctl, gctl)) :
    ∃ d, device.Reachable d ∧ d.regs.arr .qintTqctl 0 = qctl ∧ d.regs.arr .pfintDynCtln vec = gctl := by
  cases hw : DoorbellRouting.guestWrites DoorbellRouting.guestEnv 1 (routeTo vec) zeroed with
  | error e =>
    rw [hw] at h
    cases h
  | ok d =>
    rw [hw] at h
    simp only [Except.toOption, Option.map_some, Option.some.injEq, Prod.mk.injEq] at h
    have hsmall : ∀ w ∈ routeTo vec, w.2 < 0x100000000 := by
      intro w hw
      rcases List.mem_cons.mp hw with rfl | hw
      · dsimp only
        omega
      · rw [List.mem_singleton.mp hw]
        norm_num
    exact ⟨d, (DoorbellRouting.guestWrites_reachable hsmall (.start zeroed_fresh) rfl hw).1, h.1, h.2⟩

theorem interrupt_routed_three : ∃ d, device.Reachable d ∧ d.regs.arr .qintTqctl 0 = 0x40000003 ∧
    Routed d.regs (LanQueue.regIntqctl d.regs (.tx 0)) := by
  obtain ⟨d, hd, hq, hg⟩ := @routeTo_reachable 3 0x40000003 1 (by decide) (by decide +kernel)
  have hqctl : LanQueue.regIntqctl d.regs (.tx 0) = 0x40000003 := hq
  refine ⟨d, hd, hq, (interrupt_routed d (.tx 0) ?_ ?_).mpr ?_⟩
  · rw [hqctl]
    decide
  · rw [hqctl]
    intro _
    change intena (d.regs.arr .pfintDynCtln 3) = true
    rw [hg]
    decide
  · rw [hqctl]
    decide

/-- Vector 256 asks the throttler of vector 0, and for vector 16 there is none. -/
theorem interrupt_misrouted :
    (∃ d regs' delay, device.Reachable d ∧ LanQueue.regIntqctl d.regs (.tx 0) = 0x40000100 ∧
      d.regs.arr .pfintDynCtln 256 = 1 ∧ interrupt d.regs 0x40000100 = .ok (regs', some ⟨0, delay⟩) ∧
      ¬Routed d.regs 0x40000100) ∧
    ∃ d, device.Reachable d ∧ LanQueue.regIntqctl d.regs (.tx 0) = 0x40000010 ∧
      d.regs.arr .pfintDynCtln 16 = 1 ∧ interrupt d.regs 0x40000010 = .error .outOfBounds := by
  constructor
  · obtain ⟨d, hd, hq, hg⟩ := @routeTo_reachable 256 0x40000100 1 (by decide) (by decide +kernel)
    have hi : intena (d.regs.arr .pfintDynCtln 256) = true := by
      rw [hg]
      decide
    obtain ⟨regs', hr⟩ := @interrupt_enabled d.regs 0x40000100 (by decide) (by decide) hi
    refine ⟨d, regs', itrDelay d.regs 0x40000100, hd, hq, hg, hr, ?_⟩
    rintro ⟨regs'', request, heq, hreq | hreq⟩
    · rw [hr, hreq] at heq
      have hidx := congrArg Request.throttler (Option.some.inj (Prod.mk.inj (Except.ok.inj heq)).2)
      exact absurd hidx (show (0 : ℕ) ≠ 256 by decide)
    · rw [hr, hreq] at heq
      cases heq
  · obtain ⟨d, hd, hq, hg⟩ := @routeTo_reachable 16 0x40000010 1 (by decide) (by decide +kernel)
    have hi : intena (d.regs.arr .pfintDynCtln 16) = true := by
      rw [hg]
      decide
    obtain ⟨regs', hr⟩ := @interrupt_enabled d.regs 0x40000010 (by decide) (by decide) hi
    exact ⟨d, hd, hq, hg, hr⟩

end Vmux.InterruptRouting
