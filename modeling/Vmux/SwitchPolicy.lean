import Vmux.Bytes
import Vmux.Transitions

namespace Vmux.SwitchPolicy

open Bytes Transitions

/-- `uint8_t dst_addr[6]` with the two bytes behind it, which `macToInt` reads as well. -/
structure DstAddr where
  octets : List UInt8
  behind : List UInt8
  six : octets.length = 6
  two : behind.length = 2

def macToInt (mac : DstAddr) : ℕ := get64 (mac.octets ++ mac.behind) 0 % 0x1000000000000

structure Request where
  vmId : ℤ
  dstAddr : DstAddr
  dstQueue : ℕ

abbrev Rules := ℕ → Option ℤ

/-- `SwitchPolicy::add_switch_rule` -/
def addSwitchRule (r : Request) (switchRules : Rules) : Bool × Rules :=
  match switchRules (macToInt r.dstAddr) with
  | some owner => if owner = r.vmId then (true, switchRules) else (false, switchRules)
  | none => (true, Function.update switchRules (macToInt r.dstAddr) (some r.vmId))

/-- How far a thread is in `E810EmulatedDevice::add_switch_rule`. `before` keeps the rules that it found. -/
inductive Pc
  | idle
  | policy (r : Request) (before : Rules)
  | driver (r : Request) (before : Rules) (policyAccepts : Bool)
  | unlock (r : Request) (before : Rules) (policyAccepts installs ruleInstalled : Bool)

/-- A call that has returned. `installs` is the answer of the driver in case it was asked. -/
structure Finished where
  request : Request
  before : Rules
  after : Rules
  policyAccepts : Bool
  installs : Bool
  returned : Bool

/-- `installed` has the rules of the driver: who asked for which address. -/
structure State where
  mutex : Option ℕ
  switchRules : Rules
  installed : List (ℤ × List UInt8)
  pc : ℕ → Pc
  finished : List Finished

def driverAdd (policyAccepts installs : Bool) (r : Request) (installed : List (ℤ × List UInt8)) :
    List (ℤ × List UInt8) :=
  if policyAccepts ∧ installs then installed ++ [(r.vmId, r.dstAddr.octets)] else installed

inductive Step (s : State) : State → Prop
  | lock (thread : ℕ) (r : Request) (hm : s.mutex = none) (hp : s.pc thread = .idle) :
      Step s { s with mutex := some thread, pc := Function.update s.pc thread (.policy r s.switchRules) }
  | policy (thread : ℕ) (r : Request) (before : Rules) (hp : s.pc thread = .policy r before) :
      Step s { s with
        switchRules := (addSwitchRule r s.switchRules).2
        pc := Function.update s.pc thread (.driver r before (addSwitchRule r s.switchRules).1) }
  /-- The `rule_installed` that gets the answer of the driver is declared within the branch: the outer
  one stays `false`. -/
  | driver (thread : ℕ) (r : Request) (before : Rules) (policyAccepts installs : Bool)
      (hp : s.pc thread = .driver r before policyAccepts) :
      Step s { s with
        installed := driverAdd policyAccepts installs r s.installed
        pc := Function.update s.pc thread (.unlock r before policyAccepts installs false) }
  | unlock (thread : ℕ) (r : Request) (before : Rules) (policyAccepts installs ruleInstalled : Bool)
      (hp : s.pc thread = .unlock r before policyAccepts installs ruleInstalled) :
      Step s { s with
        mutex := none
        pc := Function.update s.pc thread .idle
        finished := s.finished ++ [⟨r, before, s.switchRules, policyAccepts, installs, ruleInstalled⟩] }

def initial : State := ⟨none, fun _ => none, [], fun _ => .idle, []⟩

def policies : Machine State where
  start s := s = initial
  step := Step

/-- No two VMs have a rule for one address. -/
def Exclusive (installed : List (ℤ × List UInt8)) : Prop :=
  ∀ x ∈ installed, ∀ y ∈ installed, x.2 = y.2 → x.1 = y.1

structure Finished.Right (f : Finished) : Prop where
  returned : f.returned = true ↔ f.policyAccepts = true ∧ f.installs = true
  unchanged : f.returned = false → f.after = f.before

/-- The address has an owner before the call, and if that is the caller, the driver refuses. -/
def Finished.Settled (f : Finished) : Prop :=
  ∃ owner, f.before (macToInt f.request.dstAddr) = some owner ∧ (owner = f.request.vmId → f.installs = false)

section

variable {s t : State} {r : Request} {rules : Rules}

theorem macToInt_eq (mac : DstAddr) : macToInt mac = leNat mac.octets := by
  have hbound := leNat_lt mac.octets
  rw [mac.six] at hbound
  unfold macToInt get64 slice
  rw [List.drop_zero, List.take_of_length_le (by simp [mac.six, mac.two]), leNat_append, mac.six]
  omega

theorem addSwitchRule_accepts (h : (addSwitchRule r rules).1 = true) :
    (addSwitchRule r rules).2 (macToInt r.dstAddr) = some r.vmId := by
  unfold addSwitchRule at h ⊢
  cases hfound : rules (macToInt r.dstAddr) with
  | none => simp
  | some owner =>
    by_cases how : owner = r.vmId
    · simp [how, hfound]
    · simp [hfound, how] at h

theorem addSwitchRule_keeps {mac : ℕ} {vm : ℤ} (h : rules mac = some vm) : (addSwitchRule r rules).2 mac = some vm := by
  unfold addSwitchRule
  cases hfound : rules (macToInt r.dstAddr) with
  | none =>
    have hne : mac ≠ macToInt r.dstAddr := by
      rintro rfl
      rw [hfound] at h
      cases h
    simp [Function.update_of_ne hne, h]
  | some owner =>
    by_cases how : owner = r.vmId
    · simp [how, h]
    · simp [how, h]

theorem addSwitchRule_unchanged_iff :
    (addSwitchRule r rules).2 = rules ↔ rules (macToInt r.dstAddr) ≠ none := by
  unfold addSwitchRule
  cases hfound : rules (macToInt r.dstAddr) with
  | none =>
    simp only [ne_eq, not_true_eq_false, iff_false]
    intro heq
    have := congrFun heq (macToInt r.dstAddr)
    simp [hfound] at this
  | some owner =>
    by_cases how : owner = r.vmId
    · simp [how]
    · simp [how]

theorem addSwitchRule_accepts_iff :
    (addSwitchRule r rules).1 = true ↔ ∀ owner, rules (macToInt r.dstAddr) = some owner → owner = r.vmId := by
  unfold addSwitchRule
  cases hfound : rules (macToInt r.dstAddr) with
  | none => simp
  | some owner =>
    by_cases how : owner = r.vmId
    · simp [how]
    · simp [how]

/-- What a thread in the critical section knows about the rules. -/
def Pc.Holds (rules : Rules) : Pc → Prop
  | idle => True
  | policy _ before => rules = before
  | driver r before policyAccepts => rules = (addSwitchRule r before).2 ∧ policyAccepts = (addSwitchRule r before).1
  | unlock r before policyAccepts _ ruleInstalled =>
    rules = (addSwitchRule r before).2 ∧ policyAccepts = (addSwitchRule r before).1 ∧ ruleInstalled = false

/-- What a call that returned did, as the code has it. -/
structure Finished.Done (f : Finished) : Prop where
  after : f.after = (addSwitchRule f.request f.before).2
  accepts : f.policyAccepts = (addSwitchRule f.request f.before).1
  returned : f.returned = false

structure Inv (s : State) : Prop where
  critical : ∀ thread, s.pc thread ≠ .idle → s.mutex = some thread
  holds : ∀ thread, (s.pc thread).Holds s.switchRules
  owner : ∀ x ∈ s.installed, s.switchRules (leNat x.2) = some x.1
  done : ∀ f ∈ s.finished, f.Done

theorem Inv.exclusive (hi : Inv s) : Exclusive s.installed := by
  intro x hx y hy heq
  have howner := hi.owner x hx
  rw [heq, hi.owner y hy] at howner
  exact (Option.some.inj howner).symm

theorem Inv.others_idle (hi : Inv s) {thread other : ℕ} (hp : s.pc thread ≠ .idle) (hne : other ≠ thread) :
    s.pc other = .idle := by
  by_contra hother
  have hmutex := hi.critical thread hp
  rw [hi.critical other hother] at hmutex
  exact hne (Option.some.inj hmutex)

/-- In the critical section a thread may change all it likes for itself, as no other thread is there. -/
theorem Inv.local_step (hi : Inv s) {thread : ℕ} (hp : s.pc thread ≠ .idle) (next : Pc) {rules : Rules}
    {installed : List (ℤ × List UInt8)} (hholds : next.Holds rules)
    (howner : ∀ x ∈ installed, rules (leNat x.2) = some x.1) :
    Inv { s with switchRules := rules, installed := installed, pc := Function.update s.pc thread next } where
  critical other hother := by
    by_cases heq : other = thread
    · rw [heq]
      exact hi.critical thread hp
    · dsimp only at hother
      rw [Function.update_of_ne heq] at hother
      exact hi.critical other hother
  holds other := by
    by_cases heq : other = thread
    · subst heq
      dsimp only
      rw [Function.update_self]
      exact hholds
    · dsimp only
      rw [Function.update_of_ne heq, hi.others_idle hp heq]
      trivial
  owner := howner
  done := hi.done

theorem Inv.lock (hi : Inv s) {thread : ℕ} (hm : s.mutex = none) (r : Request) :
    Inv { s with mutex := some thread, pc := Function.update s.pc thread (.policy r s.switchRules) } := by
  have hidle (other : ℕ) : s.pc other = .idle := by
    by_contra hother
    have hmutex := hi.critical other hother
    rw [hm] at hmutex
    cases hmutex
  refine ⟨fun other hother => ?_, fun other => ?_, hi.owner, hi.done⟩
  · by_cases heq : other = thread
    · rw [heq]
    · dsimp only at hother
      rw [Function.update_of_ne heq] at hother
      exact absurd (hidle other) hother
  · by_cases heq : other = thread
    · subst heq
      dsimp only
      rw [Function.update_self]
      exact rfl
    · dsimp only
      rw [Function.update_of_ne heq, hidle other]
      trivial

theorem Inv.unlock (hi : Inv s) {thread : ℕ} (hp : s.pc thread ≠ .idle) {f : Finished} (hf : f.Done) :
    Inv { s with mutex := none, pc := Function.update s.pc thread .idle, finished := s.finished ++ [f] } := by
  have hidle (other : ℕ) : Function.update s.pc thread .idle other = .idle := by
    by_cases heq : other = thread
    · rw [heq, Function.update_self]
    · rw [Function.update_of_ne heq, hi.others_idle hp heq]
  refine ⟨fun other hother => absurd (hidle other) hother, fun other => ?_, hi.owner, fun g hg => ?_⟩
  · dsimp only
    rw [hidle other]
    trivial
  · obtain hg | hg := List.mem_append.1 hg
    · exact hi.done g hg
    · rw [List.mem_singleton.1 hg]
      exact hf

theorem Inv.step (hi : Inv s) (h : Step s t) : Inv t := by
  cases h with
  | lock thread r hm hp => exact hi.lock hm r
  | policy thread r before hp =>
    have hholds := hi.holds thread
    rw [hp] at hholds
    cases hholds
    refine hi.local_step (by simp [hp]) _ ⟨rfl, rfl⟩ fun x hx => ?_
    exact addSwitchRule_keeps (hi.owner x hx)
  | driver thread r before policyAccepts installs hp =>
    have hholds := hi.holds thread
    rw [hp] at hholds
    refine hi.local_step (by simp [hp]) _ ⟨hholds.1, hholds.2, rfl⟩ fun x hx => ?_
    unfold driverAdd at hx
    by_cases hadd : policyAccepts ∧ installs
    · rw [if_pos hadd] at hx
      obtain hx | hx := List.mem_append.1 hx
      · exact hi.owner x hx
      · rw [List.mem_singleton.1 hx, hholds.1, ← macToInt_eq]
        exact addSwitchRule_accepts (hholds.2.symm.trans hadd.1)
    · rw [if_neg hadd] at hx
      exact hi.owner x hx
  | unlock thread r before policyAccepts installs ruleInstalled hp =>
    have hholds := hi.holds thread
    rw [hp] at hholds
    exact hi.unlock (by simp [hp]) ⟨hholds.1, hholds.2.1, hholds.2.2⟩

theorem Inv.initial : Inv initial where
  critical _ h := absurd rfl h
  holds _ := trivial
  owner _ h := absurd h List.not_mem_nil
  done _ h := absurd h List.not_mem_nil

theorem Finished.Done.right_iff {f : Finished} (hf : f.Done) : f.Right ↔ f.Settled := by
  have hright : f.Right ↔ ¬(f.policyAccepts = true ∧ f.installs = true) ∧ f.after = f.before := by
    constructor
    · rintro ⟨hreturned, hunchanged⟩
      rw [hf.returned] at hreturned
      exact ⟨fun h => Bool.false_ne_true (hreturned.2 h), hunchanged hf.returned⟩
    · rintro ⟨hnot, hafter⟩
      refine ⟨⟨fun h => ?_, fun h => absurd h hnot⟩, fun _ => hafter⟩
      rw [hf.returned] at h
      cases h
  rw [hright, hf.after, addSwitchRule_unchanged_iff, hf.accepts, addSwitchRule_accepts_iff]
  unfold Finished.Settled
  cases hfound : f.before (macToInt f.request.dstAddr) with
  | none => simp
  | some owner => simp

theorem inv (h : policies.Reachable s) : Inv s :=
  h.invariant (fun _ hs => hs ▸ Inv.initial) fun _ _ hi hs => hi.step hs

def State.call (s : State) (r : Request) (installs : Bool) : State :=
  let added := addSwitchRule r s.switchRules
  { s with
    mutex := none
    switchRules := added.2
    installed := driverAdd added.1 installs r s.installed
    finished := s.finished ++ [⟨r, s.switchRules, added.2, added.1, installs, false⟩] }

theorem reachable_call (h : policies.Reachable s) (hm : s.mutex = none) {thread : ℕ} (hp : s.pc thread = .idle)
    (r : Request) (installs : Bool) : policies.Reachable (s.call r installs) := by
  have hlock := h.step (.lock thread r hm hp)
  have hpolicy := hlock.step (.policy thread r s.switchRules (Function.update_self ..))
  have hdriver := hpolicy.step (.driver thread r s.switchRules _ installs (Function.update_self ..))
  have hunlock := hdriver.step (.unlock thread r s.switchRules _ installs false (Function.update_self ..))
  have hpc : Function.update s.pc thread .idle = s.pc := by
    rw [← hp]
    exact Function.update_eq_self thread s.pc
  simp only [Function.update_idem, hpc] at hunlock
  exact hunlock

end

/-- No two VMs ever have a rule for one address, and a call is right exactly if the address was settled before. -/
theorem switch_policy (s : State) (h : policies.Reachable s) :
    Exclusive s.installed ∧ ∀ f ∈ s.finished, f.Right ↔ f.Settled :=
  ⟨(inv h).exclusive, fun f hf => ((inv h).done f hf).right_iff⟩

def request (vmId : ℤ) : Request := ⟨vmId, ⟨[0x52, 0x54, 0, 0xfa, 0, 0x60], [0, 0], rfl, rfl⟩, 0⟩

/-- The second VM is denied the address of the first. -/
theorem switch_policy_denies :
    Exclusive ((initial.call (request 0) true).call (request 1) true).installed ∧
      ∀ f ∈ ((initial.call (request 0) true).call (request 1) true).finished, f.Right ↔ f.Settled := by
  have hfirst := @reachable_call initial (.start rfl) rfl 0 rfl (request 0) true
  exact switch_policy _ (@reachable_call _ hfirst rfl 1 rfl (request 1) true)

/-- A rule that is accepted and installed is reported as refused, and one that the driver refuses
reserves the address: the other VM is denied it although no rule is installed. -/
theorem switch_policy_wrong :
    (∃ s, policies.Reachable s ∧ s.installed = [(0, [0x52, 0x54, 0, 0xfa, 0, 0x60])] ∧
      ∃ f ∈ s.finished, f.policyAccepts = true ∧ f.installs = true ∧ f.returned = false) ∧
    ∃ s, policies.Reachable s ∧ s.installed = [] ∧
      (∃ f ∈ s.finished, f.installs = false ∧ f.returned = false ∧ f.after ≠ f.before) ∧
      (addSwitchRule (request 1) s.switchRules).1 = false := by
  refine ⟨⟨initial.call (request 0) true, ?_, rfl, ?_⟩, initial.call (request 0) false, ?_, rfl, ?_, rfl⟩
  · exact @reachable_call _ (.start rfl) rfl 0 rfl (request 0) true
  · exact ⟨_, List.mem_singleton_self _, rfl, rfl, rfl⟩
  · exact @reachable_call _ (.start rfl) rfl 0 rfl (request 0) false
  · refine ⟨_, List.mem_singleton_self _, rfl, rfl, fun heq => ?_⟩
    have := congrFun heq (macToInt (request 0).dstAddr)
    cases this

end Vmux.SwitchPolicy
