import Vmux.Bytes
import Vmux.Transitions

namespace Vmux.PtpMediation

open Bytes Transitions

inductive DeviceMode
  | passthrough
  | stub
  | emulation
  | mediation
  | vdpdk
  | e1000
deriving DecidableEq, Repr

/-- The modes that are an `E810EmulatedDevice`. -/
def DeviceMode.IsE810 : DeviceMode → Prop
  | emulation | mediation => True
  | _ => False

instance : DecidablePred DeviceMode.IsE810
  | .emulation | .mediation => inferInstanceAs (Decidable True)
  | .passthrough | .stub | .vdpdk | .e1000 => inferInstanceAs (Decidable False)

/-- What `main` starts: there is always a device. -/
structure Setup where
  useDpdk : Bool
  modes : List DeviceMode
  nonempty : modes ≠ []

def pollInMainThread : Bool := false

/-- The devices that `main` pushes to `broadcast_destinations` one after another. -/
def Setup.broadcastDestinations (setup : Setup) : List ℕ :=
  (List.range setup.modes.length).flatMap fun i => if setup.useDpdk ∧ !pollInMainThread then [i] else []

def Setup.IsE810 (setup : Setup) (d : ℕ) : Prop := ∃ m ∈ setup.modes[d]?, m.IsE810

structure RxBuf where
  data : List UInt8
  queue : Option ℕ
deriving DecidableEq

/-- The test of `driver_cb` for the PTP multicast address. -/
def isPtp (b : RxBuf) : Prop := 14 ≤ b.data.length ∧ get64 b.data 0 % 0x1000000000000 = 0x000000191b01

instance : DecidablePred isPtp := fun _ => inferInstanceAs (Decidable (_ ∧ _))

/-- `refused` says that the injection queue of the target was full. -/
inductive HandOver
  | inject (dest : ℕ) (bytes : List UInt8)
  | ethRx (bytes : List UInt8) (queue : Option ℕ) (refused : Bool)
deriving DecidableEq

inductive Crash
  | divisionByZero
  | outOfBounds
deriving DecidableEq, Repr

/-- `rx d` is what a run of `driver_cb` of the device `d` has still to do: the target that it loaded
and the frames of its burst. `received` and `handed` keep what came in, with the target, and where it went. -/
structure State where
  target : ℕ → ℤ
  timer : Option ℤ
  rx : ℕ → Option (ℤ × List RxBuf)
  inject : ℕ → List (List UInt8)
  received : ℕ → List (ℤ × RxBuf)
  handed : ℕ → List HandOver
  crash : Option Crash

/-- `timer_cb` from the load on to the store. -/
def timerStore (dests : List ℕ) (old : ℤ) (s : State) : State :=
  if dests.length = 0 then { s with crash := some .divisionByZero }
  else { s with target := Function.update s.target 0 ((old + 1) % dests.length), timer := none }

/-- The body of the loop of `driver_cb`. -/
def handleFrame (dests : List ℕ) (accept : Bool) (d : ℕ) (target : ℤ) (b : RxBuf) (s : State) : State :=
  let keep (refused : Bool) := { s with
    handed := Function.update s.handed d (s.handed d ++ [.ethRx b.data b.queue refused]) }
  if target ≠ -1 ∧ isPtp b then
    match dests[target.toNat]? with
    | none => { s with crash := some .outOfBounds }
    | some second =>
      if accept then
        { s with
          inject := Function.update s.inject second (s.inject second ++ [b.data])
          handed := Function.update s.handed d (s.handed d ++ [.inject second b.data]) }
      else keep true
  else keep false

inductive Step (setup : Setup) (s : State) : State → Prop
  /-- A write to `GLTSYN_ENA(0)` or `GLTSYN_ENA(1)`, whatever the value. -/
  | enable (d : ℕ) (hd : setup.IsE810 d) : Step setup s { s with target := Function.update s.target d 0 }
  | timerLoad (hd : setup.IsE810 0) (ht : s.timer = none) (hn : s.target 0 ≠ -1) :
      Step setup s { s with timer := some (s.target 0) }
  | timerStore (old : ℤ) (ht : s.timer = some old) : Step setup s (timerStore setup.broadcastDestinations old s)
  | receive (d : ℕ) (burst : List (List RxBuf)) (hd : setup.IsE810 d) (hr : s.rx d = none) :
      Step setup s { s with
        rx := Function.update s.rx d (some (s.target d, burst.flatten))
        received := Function.update s.received d (s.received d ++ burst.flatten.map fun b => (s.target d, b)) }
  | frame (accept : Bool) (d : ℕ) (target : ℤ) (b : RxBuf) (rest : List RxBuf) (hr : s.rx d = some (target, b :: rest)) :
      Step setup s (handleFrame setup.broadcastDestinations accept d target b
        { s with rx := Function.update s.rx d (some (target, rest)) })
  /-- The end of `driver_cb`, which takes at most one packet that was injected. -/
  | done (d : ℕ) (target : ℤ) (hr : s.rx d = some (target, [])) :
      Step setup s { s with
        rx := Function.update s.rx d none
        inject := Function.update s.inject d (s.inject d).tail }

def initial : State where
  target _ := -1
  timer := none
  rx _ := none
  inject _ := []
  received _ := []
  handed _ := []
  crash := none

/-- Nothing happens after a crash. -/
def mediation (setup : Setup) : Machine State where
  start s := s = initial
  step s t := s.crash = none ∧ Step setup s t

/-- A multicast of PTP, received while there is a target. -/
def Mediated (x : ℤ × RxBuf) : Prop :=
  x.1 ≠ -1 ∧ 14 ≤ x.2.data.length ∧ x.2.data.take 6 = [0x01, 0x1b, 0x19, 0x00, 0x00, 0x00]

def Rightly (dests : List ℕ) (x : ℤ × RxBuf) : HandOver → Prop
  | .inject dest bytes => Mediated x ∧ dests[x.1.toNat]? = some dest ∧ bytes = x.2.data
  | .ethRx bytes queue refused => (refused = true ↔ Mediated x) ∧ bytes = x.2.data ∧ queue = x.2.queue

def Valid (dests : List ℕ) (target : ℤ) : Prop := target = -1 ∨ 0 ≤ target ∧ target < dests.length

structure Sound (setup : Setup) (s : State) : Prop where
  no_crash : s.crash = none
  target : ∀ d, Valid setup.broadcastDestinations (s.target d)
  /-- The frames that were taken so far are handed over once each, the others are still to come. -/
  handed : ∀ d, List.Forall₂ (Rightly setup.broadcastDestinations) ((s.received d).take (s.handed d).length) (s.handed d)
  pending : ∀ d, (s.received d).drop (s.handed d).length = ((s.rx d).elim [] fun x => x.2.map fun b => (x.1, b))

section

variable {setup : Setup} {dests : List ℕ} {s t : State} {d : ℕ}

theorem isPtp_iff (target : ℤ) (b : RxBuf) : target ≠ -1 ∧ isPtp b ↔ Mediated (target, b) := by
  unfold isPtp Mediated
  refine and_congr_right fun _ => and_congr_right fun hlen => ?_
  obtain ⟨data, queue⟩ := b
  dsimp only at hlen ⊢
  obtain ⟨x, rest, rfl, hx⟩ : ∃ x rest, data = x ++ rest ∧ x.length = 8 :=
    ⟨data.take 8, data.drop 8, (List.take_append_drop 8 data).symm, by rw [List.length_take]; omega⟩
  match x, hx with
  | [b0, b1, b2, b3, b4, b5, b6, b7], _ =>
    have hbytes := And.intro b0.toNat_lt (And.intro b1.toNat_lt (And.intro b2.toNat_lt (And.intro b3.toNat_lt
      (And.intro b4.toNat_lt b5.toNat_lt))))
    simp only [get64, slice, List.drop_zero, List.cons_append, List.nil_append, List.take_succ_cons, List.take_zero,
      leNat, List.cons.injEq, and_true, ← UInt8.toNat_inj]
    simp only [UInt8.reduceToNat]
    omega

theorem Setup.dests_dpdk (h : setup.useDpdk = true) : setup.broadcastDestinations = List.range setup.modes.length := by
  unfold Setup.broadcastDestinations
  simp [h, pollInMainThread]

theorem Setup.dests_tap (h : setup.useDpdk = false) : setup.broadcastDestinations = [] := by
  unfold Setup.broadcastDestinations
  simp [h]

/-- Besides, what the timer and the runs of `driver_cb` have loaded is valid. -/
structure Inv (setup : Setup) (s : State) : Prop extends Sound setup s where
  timer : ∀ old ∈ s.timer, 0 ≤ old
  rx : ∀ d, ∀ x ∈ s.rx d, Valid setup.broadcastDestinations x.1

theorem Inv.initial : Inv setup initial where
  no_crash := rfl
  target _ := .inl rfl
  handed _ := .nil
  pending _ := rfl
  timer _ h := by cases h
  rx _ _ h := by cases h

theorem Valid.update {target : ℕ → ℤ} (h : ∀ d, Valid dests (target d)) {v : ℤ} (hv : Valid dests v) (d d' : ℕ) :
    Valid dests (Function.update target d v d') := by
  by_cases heq : d' = d
  · subst heq
    rw [Function.update_self]
    exact hv
  · rw [Function.update_of_ne heq]
    exact h d'

theorem Inv.retarget (hi : Inv setup s) {v : ℤ} (hv : Valid setup.broadcastDestinations v) (d : ℕ)
    {timer : Option ℤ} (htimer : ∀ old ∈ timer, 0 ≤ old) :
    Inv setup { s with target := Function.update s.target d v, timer := timer } where
  no_crash := hi.no_crash
  target := Valid.update hi.target hv d
  handed := hi.handed
  pending := hi.pending
  timer := htimer
  rx := hi.rx

theorem Inv.all_handed (hi : Inv setup s) (hr : s.rx d = none) : (s.received d).length = (s.handed d).length := by
  have hpending := hi.pending d
  rw [hr] at hpending
  have hle := List.drop_eq_nil_iff.1 hpending
  have hlen := (hi.handed d).length_eq
  rw [List.length_take] at hlen
  omega

theorem Inv.receive (hi : Inv setup s) (hr : s.rx d = none) (frames : List RxBuf) :
    Inv setup { s with
      rx := Function.update s.rx d (some (s.target d, frames))
      received := Function.update s.received d (s.received d ++ frames.map fun b => (s.target d, b)) } := by
  have hlen := hi.all_handed hr
  refine ⟨⟨hi.no_crash, hi.target, fun d' => ?_, fun d' => ?_⟩, hi.timer, fun d' x hx => ?_⟩
  · by_cases heq : d' = d
    · subst heq
      dsimp only
      rw [Function.update_self, List.take_append_of_le_length hlen.ge]
      exact hi.handed d'
    · dsimp only
      rw [Function.update_of_ne heq]
      exact hi.handed d'
  · by_cases heq : d' = d
    · subst heq
      dsimp only
      rw [Function.update_self, Function.update_self, List.drop_append_of_le_length hlen.ge, ← hlen, List.drop_length]
      rfl
    · dsimp only
      rw [Function.update_of_ne heq, Function.update_of_ne heq]
      exact hi.pending d'
  · by_cases heq : d' = d
    · subst heq
      dsimp only at hx
      rw [Function.update_self] at hx
      cases hx
      exact hi.target d'
    · dsimp only at hx
      rw [Function.update_of_ne heq] at hx
      exact hi.rx d' x hx

theorem Inv.hand (hi : Inv setup s) {target : ℤ} {b : RxBuf} {rest : List RxBuf} (hr : s.rx d = some (target, b :: rest))
    {o : HandOver} (ho : Rightly setup.broadcastDestinations (target, b) o) (inject : ℕ → List (List UInt8)) :
    Inv setup { s with
      rx := Function.update s.rx d (some (target, rest))
      inject := inject
      handed := Function.update s.handed d (s.handed d ++ [o]) } := by
  have hpending := hi.pending d
  rw [hr] at hpending
  dsimp only [Option.elim, List.map_cons] at hpending
  have htake : (s.received d).take ((s.handed d).length + 1) = (s.received d).take (s.handed d).length ++ [(target, b)] := by
    rw [List.take_add, hpending]
    rfl
  have hdrop : (s.received d).drop ((s.handed d).length + 1) = rest.map fun b => (target, b) := by
    rw [← List.drop_drop, hpending]
    rfl
  refine ⟨⟨hi.no_crash, hi.target, fun d' => ?_, fun d' => ?_⟩, hi.timer, fun d' x hx => ?_⟩
  · by_cases heq : d' = d
    · subst heq
      dsimp only
      rw [Function.update_self, List.length_append, List.length_singleton, htake]
      exact List.rel_append (hi.handed d') (.cons ho .nil)
    · dsimp only
      rw [Function.update_of_ne heq]
      exact hi.handed d'
  · by_cases heq : d' = d
    · subst heq
      dsimp only
      rw [Function.update_self, Function.update_self, List.length_append, List.length_singleton, hdrop]
      rfl
    · dsimp only
      rw [Function.update_of_ne heq, Function.update_of_ne heq]
      exact hi.pending d'
  · by_cases heq : d' = d
    · subst heq
      dsimp only at hx
      rw [Function.update_self] at hx
      cases hx
      exact hi.rx d' (target, b :: rest) hr
    · dsimp only at hx
      rw [Function.update_of_ne heq] at hx
      exact hi.rx d' x hx

theorem Inv.frame (hi : Inv setup s) {target : ℤ} {b : RxBuf} {rest : List RxBuf} (hr : s.rx d = some (target, b :: rest))
    (accept : Bool) :
    Inv setup (handleFrame setup.broadcastDestinations accept d target b
      { s with rx := Function.update s.rx d (some (target, rest)) }) := by
  unfold handleFrame
  by_cases hptp : target ≠ -1 ∧ isPtp b
  · have hmediated := (isPtp_iff target b).1 hptp
    rw [if_pos hptp]
    obtain hn | ⟨hnonneg, hlt⟩ := hi.rx d _ hr
    · exact absurd hn hptp.1
    · dsimp only at hnonneg hlt
      have hindex : target.toNat < setup.broadcastDestinations.length := by omega
      have hsecond := List.getElem?_eq_getElem hindex
      simp only [hsecond]
      cases accept with
      | true => exact hi.hand hr (o := .inject _ b.data) ⟨hmediated, hsecond, rfl⟩ _
      | false => exact hi.hand hr (o := .ethRx b.data b.queue true) ⟨by simp [hmediated], rfl, rfl⟩ _
  · have hmediated : ¬Mediated (target, b) := fun h => hptp ((isPtp_iff target b).2 h)
    rw [if_neg hptp]
    exact hi.hand hr (o := .ethRx b.data b.queue false) ⟨by simp [hmediated], rfl, rfl⟩ _

theorem Inv.done (hi : Inv setup s) {target : ℤ} (hr : s.rx d = some (target, [])) (inject : ℕ → List (List UInt8)) :
    Inv setup { s with rx := Function.update s.rx d none, inject := inject } := by
  refine ⟨⟨hi.no_crash, hi.target, hi.handed, fun d' => ?_⟩, hi.timer, fun d' x hx => ?_⟩
  · have hpending := hi.pending d'
    by_cases heq : d' = d
    · subst heq
      rw [hr] at hpending
      dsimp only
      rw [Function.update_self, hpending]
      rfl
    · dsimp only
      rw [Function.update_of_ne heq]
      exact hpending
  · by_cases heq : d' = d
    · subst heq
      dsimp only at hx
      rw [Function.update_self] at hx
      cases hx
    · dsimp only at hx
      rw [Function.update_of_ne heq] at hx
      exact hi.rx d' x hx

theorem Inv.step (hlen : 0 < setup.broadcastDestinations.length) (hi : Inv setup s) (h : Step setup s t) :
    Inv setup t := by
  cases h with
  | enable d hd =>
    have hzero : Valid setup.broadcastDestinations 0 := .inr ⟨le_refl 0, by omega⟩
    exact hi.retarget hzero d hi.timer
  | timerLoad hd ht hn =>
    refine ⟨⟨hi.no_crash, hi.target, hi.handed, hi.pending⟩, fun old hold => ?_, hi.rx⟩
    cases hold
    obtain h | h := hi.target 0
    · exact absurd h hn
    · exact h.1
  | timerStore old ht =>
    have hpos : (0 : ℤ) < setup.broadcastDestinations.length := by omega
    have hnext : Valid setup.broadcastDestinations ((old + 1) % setup.broadcastDestinations.length) :=
      .inr ⟨Int.emod_nonneg _ hpos.ne', Int.emod_lt_of_pos _ hpos⟩
    unfold timerStore
    rw [if_neg hlen.ne']
    exact hi.retarget hnext 0 fun _ h => by cases h
  | receive d burst hd hr => exact hi.receive hr burst.flatten
  | frame accept d target b rest hr => exact hi.frame hr accept
  | done d target hr => exact hi.done hr _

theorem sound_of_destinations (hlen : 0 < setup.broadcastDestinations.length) (h : (mediation setup).Reachable s) :
    Sound setup s := by
  have hi : Inv setup s := h.invariant (fun _ hs => hs ▸ Inv.initial) fun _ _ hi hs => hi.step hlen hs.2
  exact hi.toSound

theorem reachable_initial (hnone : ∀ d, ¬setup.IsE810 d) (h : (mediation setup).Reachable s) : s = initial := by
  apply h.invariant (fun _ hs => hs)
  rintro s t rfl ⟨-, hs⟩
  cases hs with
  | enable d hd => exact absurd hd (hnone d)
  | timerLoad hd ht hn => exact absurd hd (hnone 0)
  | timerStore old ht => cases ht
  | receive d burst hd hr => exact absurd hd (hnone d)
  | frame accept d target b rest hr => cases hr
  | done d target hr => cases hr

end

/-- The mediation is sound exactly if `main` fills `broadcast_destinations`, or there is no device that reads it. -/
theorem mediation_sound_iff (setup : Setup) :
    (∀ s, (mediation setup).Reachable s → Sound setup s) ↔ setup.useDpdk = true ∨ ∀ d, ¬setup.IsE810 d := by
  constructor
  · intro h
    by_contra hneither
    rw [not_or, Bool.not_eq_true] at hneither
    obtain ⟨htap, hsome⟩ := hneither
    push Not at hsome
    obtain ⟨d, hd⟩ := hsome
    have hreach : (mediation setup).Reachable { initial with target := Function.update initial.target d 0 } :=
      .step (.start rfl) ⟨rfl, .enable d hd⟩
    have htarget := (h _ hreach).target d
    rw [Setup.dests_tap htap] at htarget
    simp [Valid] at htarget
  · rintro (hdpdk | hnone) s hs
    · have hlen : 0 < setup.broadcastDestinations.length := by
        rw [Setup.dests_dpdk hdpdk, List.length_range]
        exact List.length_pos_of_ne_nil setup.nonempty
      exact sound_of_destinations hlen hs
    · rw [reachable_initial hnone hs]
      exact Inv.initial.toSound

/-- One emulated device on a tap: an enable makes the target 0 in an empty list, and the next tick divides by its length. -/
theorem mediation_divides_by_zero :
    ∃ s t, (mediation ⟨false, [.emulation], by simp⟩).Reachable s ∧ s.target 0 = 0 ∧
      (mediation ⟨false, [.emulation], by simp⟩).Reachable t ∧ t.crash = some .divisionByZero := by
  have hd : (⟨false, [.emulation], by simp⟩ : Setup).IsE810 0 := ⟨.emulation, by simp, trivial⟩
  have henable : (mediation ⟨false, [.emulation], by simp⟩).Reachable
      { initial with target := Function.update initial.target 0 0 } := .step (.start rfl) ⟨rfl, .enable 0 hd⟩
  have hload := henable.step (t := { initial with target := Function.update initial.target 0 0, timer := some 0 })
    ⟨rfl, .timerLoad hd rfl (by simp)⟩
  exact ⟨_, _, henable, rfl, hload.step ⟨rfl, .timerStore 0 rfl⟩, rfl⟩

end Vmux.PtpMediation
