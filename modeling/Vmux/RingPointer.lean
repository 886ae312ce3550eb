import Vmux.DmaMap
import Vmux.Transitions

namespace Vmux.RingPointer

open Transitions DescriptorQueue DmaMap

/-- `VdpdkDevice::TxQueue`, as far as the ring is found with it. -/
structure TxQueue where
  ringIova : ℕ
  ring : Option ℕ
  idxMask : ℕ
deriving DecidableEq, Repr

def txDescSize : ℕ := 0x20

def TxQueue.ringSize (q : TxQueue) : ℕ := (q.idxMask + 1) * txDescSize

/-- Where the vfio-user thread is in `dma_register_cb` or `dma_unregister_cb`. -/
inductive VfioPc
  | idle | lock | clear | change | unlock
deriving DecidableEq, Repr

/-- A device as its threads share it. The mutex is held exclusively, or by the transmit thread, the
receive thread or both. The queues that were made are numbered; `tx_queue` points to one of them. -/
structure Dev where
  table : Server
  dmaFlag : Bool
  exclusive : Bool
  sharedTx : Bool
  sharedRx : Bool
  vfio : VfioPc
  queues : ℕ → TxQueue
  made : ℕ
  txQueue : Option ℕ

def Dev.translation (d : Dev) (q : ℕ) : Except Fault (Option ℕ) :=
  dmaLocalAddr d.table (d.queues q).ringIova (d.queues q).ringSize

/-- A step of the vfio-user thread, or of the receive thread, which only takes and leaves the lock. -/
inductive OtherStep (d : Dev) : Dev → Prop
  | callback (h : d.vfio = .idle) : OtherStep d { d with dmaFlag := true, vfio := .lock }
  | lock (h : d.vfio = .lock) (he : d.exclusive = false) (ht : d.sharedTx = false) (hr : d.sharedRx = false) :
      OtherStep d { d with exclusive := true, vfio := .clear }
  | clear (h : d.vfio = .clear) : OtherStep d { d with dmaFlag := false, vfio := .change }
  | register (info : DmaInfo) (mapping : Option Iovec) (table' : Server) (flags : Option ℕ) (h : d.vfio = .change)
      (hm : mapDmaHere d.table info mapping = .ok (table', flags)) : OtherStep d { d with table := table', vfio := .unlock }
  | unregister (info : DmaInfo) (h : d.vfio = .change) :
      OtherStep d { d with table := unmapDmaHere d.table info, vfio := .unlock }
  | unlock (h : d.vfio = .unlock) : OtherStep d { d with exclusive := false, vfio := .idle }
  | queueStart (ringAddr idxMask : ℕ) (h : d.vfio = .idle) : OtherStep d { d with
      queues := Function.update d.queues d.made ⟨ringAddr, none, idxMask⟩
      made := d.made + 1
      txQueue := some d.made }
  | queueStop (h : d.vfio = .idle) : OtherStep d { d with txQueue := none }
  | rxLock (he : d.exclusive = false) : OtherStep d { d with sharedRx := true }
  | rxUnlock : OtherStep d { d with sharedRx := false }

/-- Where the transmit thread is. From `load` on it is in `tx_poll`, with the queue it loaded and the
ring it looked up. -/
inductive PollPc
  | lock | stopRequested | test | unlock | spin | relock
  | load (invalidated : Bool) | check (q : ℕ) (invalidated : Bool) | store (q : ℕ) (ring : Option ℕ)
  | access (q : ℕ) | drop
  | leave | ended
deriving DecidableEq, Repr

inductive PollStep : PollPc × Dev → PollPc × Dev → Prop
  | lock {d : Dev} (h : d.exclusive = false) : PollStep (.lock, d) (.stopRequested, { d with sharedTx := true })
  | stop {d : Dev} : PollStep (.stopRequested, d) (.leave, d)
  | go {d : Dev} : PollStep (.stopRequested, d) (.test, d)
  | test {d : Dev} : PollStep (.test, d) (if d.dmaFlag then .unlock else .load false, d)
  | unlock {d : Dev} : PollStep (.unlock, d) (.spin, { d with sharedTx := false })
  | spin {d : Dev} (h : d.dmaFlag = false) : PollStep (.spin, d) (.relock, d)
  | relock {d : Dev} (h : d.exclusive = false) : PollStep (.relock, d) (.load true, { d with sharedTx := true })
  | noQueue {d : Dev} {inv : Bool} (h : d.txQueue = none) : PollStep (.load inv, d) (.stopRequested, d)
  | load {d : Dev} {inv : Bool} (q : ℕ) (h : d.txQueue = some q) : PollStep (.load inv, d) (.check q inv, d)
  | lookUp {d : Dev} {q : ℕ} {inv : Bool} (r : Option ℕ) (h : inv = true ∨ (d.queues q).ring = none)
      (hr : d.translation q = .ok r) : PollStep (.check q inv, d) (.store q r, d)
  | cached {d : Dev} {q : ℕ} {inv : Bool} (h : ¬(inv = true ∨ (d.queues q).ring = none)) :
      PollStep (.check q inv, d) (.access q, d)
  | store {d : Dev} {q : ℕ} {r : Option ℕ} : PollStep (.store q r, d)
      (if r = none then .drop else .access q, { d with
        queues := Function.update d.queues q { d.queues q with ring := r } })
  | access {d : Dev} {q : ℕ} : PollStep (.access q, d) (.access q, d)
  | invalidPacket {d : Dev} {q : ℕ} : PollStep (.access q, d) (.drop, d)
  | burst {d : Dev} {q : ℕ} : PollStep (.access q, d) (.stopRequested, d)
  | drop {d : Dev} : PollStep (.drop, d) (.stopRequested, { d with txQueue := none })
  | leave {d : Dev} : PollStep (.leave, d) (.ended, { d with sharedTx := false })

def Dev.Fresh (d : Dev) : Prop :=
  d.table = .empty ∧ d.dmaFlag = false ∧ d.exclusive = false ∧ d.sharedTx = false ∧ d.sharedRx = false ∧
    d.vfio = .idle ∧ (∀ q, (d.queues q).ring = none) ∧ d.made = 0 ∧ d.txQueue = none

/-- `tx_poll_thread_single`, interleaved with the other threads of its device. -/
def single : Machine (PollPc × Dev) where
  start s := s.1 = .lock ∧ s.2.Fresh
  step s t := PollStep s t ∨ s.1 = t.1 ∧ OtherStep s.2 t.2

def PollPc.holds : PollPc → Bool
  | .lock | .spin | .relock | .ended => false
  | _ => true

/-- The thread is in `tx_poll`. -/
def PollPc.polling : PollPc → Bool
  | .load _ | .check _ _ | .store _ _ | .access _ | .drop => true
  | _ => false

/-- The ring of a queue was not looked up yet, or is where the table says. -/
def Current (d : Dev) (q : ℕ) : Prop := (d.queues q).ring = none ∨ d.translation q = .ok (d.queues q).ring

/-- What the transmit thread relies on at each point. -/
def Relies (d : Dev) : PollPc → Prop
  | .lock => ∀ q, (d.queues q).ring = none
  | .stopRequested | .test | .unlock | .load false | .drop => ∀ q, d.txQueue = some q → Current d q
  | .check q inv => q < d.made ∧ (∀ q', d.txQueue = some q' → q' = q ∨ Current d q') ∧ (inv = false → Current d q)
  | .store q r => q < d.made ∧ (∀ q', d.txQueue = some q' → q' = q ∨ Current d q') ∧ d.translation q = .ok r
  | .access q => q < d.made ∧ (∀ q', d.txQueue = some q' → Current d q') ∧
      ∃ r, (d.queues q).ring = some r ∧ d.translation q = .ok (some r)
  | .spin | .relock | .load true | .leave | .ended => True

structure Inv (s : PollPc × Dev) : Prop where
  shared : s.2.sharedTx = s.1.holds
  exclusive : s.2.exclusive = true ↔ s.2.vfio = .clear ∨ s.2.vfio = .change ∨ s.2.vfio = .unlock
  apart : s.2.exclusive = true → s.2.sharedTx = false
  made : ∀ q, s.2.txQueue = some q → q < s.2.made
  relies : Relies s.2 s.1

variable {d d' : Dev} {pc : PollPc}

theorem current_queueStart {q a m : ℕ} {x : Option ℕ} (hq : q < d.made) (h : Current d q) :
    Current { d with queues := Function.update d.queues d.made ⟨a, none, m⟩, made := d.made + 1, txQueue := x } q := by
  have hne : q ≠ d.made := by omega
  unfold Current Dev.translation at *
  dsimp only
  rwa [Function.update_of_ne hne]

theorem current_new {a m : ℕ} {x : Option ℕ} :
    Current { d with queues := Function.update d.queues d.made ⟨a, none, m⟩, made := d.made + 1, txQueue := x } d.made := by
  left
  dsimp only
  rw [Function.update_self]

theorem relies_queueStart {a m : ℕ} (h : Relies d pc) :
    Relies { d with queues := Function.update d.queues d.made ⟨a, none, m⟩, made := d.made + 1, txQueue := some d.made }
      pc := by
  have hnew : ∀ q, some d.made = some q → Current { d with
      queues := Function.update d.queues d.made ⟨a, none, m⟩, made := d.made + 1, txQueue := some d.made } q := by
    intro q hq
    cases hq
    exact current_new
  cases pc with
  | lock =>
    intro q
    dsimp only
    by_cases hq : q = d.made
    · rw [hq, Function.update_self]
    · rw [Function.update_of_ne hq]
      exact h q
  | check q inv =>
    obtain ⟨hq, -, hc⟩ := h
    exact ⟨Nat.lt_succ_of_lt hq, fun q' hq' => .inr (hnew q' hq'), fun hi => current_queueStart hq (hc hi)⟩
  | store q r =>
    obtain ⟨hq, -, ht⟩ := h
    have hne : q ≠ d.made := by omega
    refine ⟨Nat.lt_succ_of_lt hq, fun q' hq' => .inr (hnew q' hq'), ?_⟩
    unfold Dev.translation at *
    dsimp only
    rwa [Function.update_of_ne hne]
  | access q =>
    obtain ⟨hq, -, hr⟩ := h
    have hne : q ≠ d.made := by omega
    refine ⟨Nat.lt_succ_of_lt hq, hnew, ?_⟩
    unfold Dev.translation at *
    dsimp only
    rwa [Function.update_of_ne hne]
  | load inv =>
    cases inv with
    | false => exact hnew
    | true => trivial
  | stopRequested => exact hnew
  | test => exact hnew
  | unlock => exact hnew
  | drop => exact hnew
  | spin => trivial
  | relock => trivial
  | leave => trivial
  | ended => trivial

theorem relies_queueStop (h : Relies d pc) : Relies { d with txQueue := none } pc := by
  have hnone : ∀ q, none = some q → Current { d with txQueue := none } q := nofun
  cases pc with
  | lock => exact h
  | check q inv => exact ⟨h.1, nofun, h.2.2⟩
  | store q r => exact ⟨h.1, nofun, h.2.2⟩
  | access q => exact ⟨h.1, hnone, h.2.2⟩
  | load inv =>
    cases inv with
    | false => exact hnone
    | true => trivial
  | stopRequested => exact hnone
  | test => exact hnone
  | unlock => exact hnone
  | drop => exact hnone
  | spin => trivial
  | relock => trivial
  | leave => trivial
  | ended => trivial

theorem relies_change {table' : Server} {v : VfioPc} (h : Relies d pc) (hl : pc.holds = false) :
    Relies { d with table := table', vfio := v } pc := by
  cases pc with
  | lock => exact h
  | spin => trivial
  | relock => trivial
  | ended => trivial
  | _ => cases hl

theorem Inv.other (h : Inv (pc, d)) (hs : OtherStep d d') : Inv (pc, d') := by
  obtain ⟨hshared, hexcl, hapart, hmade, hrel⟩ := h
  dsimp only at hshared hexcl hapart hmade hrel
  cases hs with
  | callback hv =>
    refine ⟨hshared, ?_, hapart, hmade, hrel⟩
    simp only [hexcl, hv]
    decide
  | lock hv he ht hr =>
    refine ⟨hshared, ?_, fun _ => ht, hmade, hrel⟩
    simp
  | clear hv =>
    refine ⟨hshared, ?_, hapart, hmade, hrel⟩
    simp [hexcl, hv]
  | register info mapping table' flags hv hm =>
    have he := hexcl.mpr (.inr (.inl hv))
    refine ⟨hshared, ?_, hapart, hmade, relies_change hrel ?_⟩
    · simp [he]
    · rw [← hshared]
      exact hapart he
  | unregister info hv =>
    have he := hexcl.mpr (.inr (.inl hv))
    refine ⟨hshared, ?_, hapart, hmade, relies_change hrel ?_⟩
    · simp [he]
    · rw [← hshared]
      exact hapart he
  | unlock hv =>
    refine ⟨hshared, ?_, nofun, hmade, hrel⟩
    simp
  | queueStart a m hv =>
    refine ⟨hshared, hexcl, hapart, fun q hq => ?_, relies_queueStart hrel⟩
    cases hq
    exact Nat.lt_succ_self _
  | queueStop hv => exact ⟨hshared, hexcl, hapart, nofun, relies_queueStop hrel⟩
  | rxLock he => exact ⟨hshared, hexcl, hapart, hmade, hrel⟩
  | rxUnlock => exact ⟨hshared, hexcl, hapart, hmade, hrel⟩

theorem current_store {q q' : ℕ} {r : Option ℕ} (ht : d.translation q = .ok r) (h : q' = q ∨ Current d q') :
    Current { d with queues := Function.update d.queues q { d.queues q with ring := r } } q' := by
  unfold Current Dev.translation at *
  dsimp only
  by_cases hq : q' = q
  · subst hq
    rw [Function.update_self]
    exact .inr ht
  · rw [Function.update_of_ne hq]
    exact h.resolve_left hq

theorem Inv.poll {pc' : PollPc} (h : Inv (pc, d)) (hs : PollStep (pc, d) (pc', d')) : Inv (pc', d') := by
  obtain ⟨hshared, hexcl, hapart, hmade, hrel⟩ := h
  dsimp only at hshared hexcl hapart hmade hrel
  cases hs with
  | lock he =>
    refine ⟨rfl, hexcl, fun h => ?_, hmade, fun q hq => .inl (hrel q)⟩
    rw [he] at h
    cases h
  | stop => exact ⟨hshared, hexcl, hapart, hmade, trivial⟩
  | go => exact ⟨hshared, hexcl, hapart, hmade, hrel⟩
  | test =>
    split
    · exact ⟨hshared, hexcl, hapart, hmade, hrel⟩
    · exact ⟨hshared, hexcl, hapart, hmade, hrel⟩
  | unlock => exact ⟨rfl, hexcl, fun _ => rfl, hmade, trivial⟩
  | spin hf => exact ⟨hshared, hexcl, hapart, hmade, trivial⟩
  | relock he =>
    refine ⟨rfl, hexcl, fun h => ?_, hmade, trivial⟩
    rw [he] at h
    cases h
  | noQueue hq =>
    refine ⟨hshared, hexcl, hapart, hmade, fun q h => ?_⟩
    rw [hq] at h
    cases h
  | @load d inv q hq =>
    refine ⟨hshared, hexcl, hapart, hmade, hmade q hq, fun q' hq' => .inl ?_, fun hi => ?_⟩
    · rw [hq] at hq'
      exact (Option.some.inj hq').symm
    · subst hi
      exact hrel q hq
  | lookUp r hi hr => exact ⟨hshared, hexcl, hapart, hmade, hrel.1, hrel.2.1, hr⟩
  | @cached d q inv hn =>
    obtain ⟨hi, hring⟩ := not_or.mp hn
    obtain ⟨hq, hother, hcur⟩ := hrel
    have hc := hcur (eq_false_of_ne_true hi)
    refine ⟨hshared, hexcl, hapart, hmade, hq, fun q' hq' => ?_, ?_⟩
    · rcases hother q' hq' with rfl | hc'
      · exact hc
      · exact hc'
    · have ht := hc.resolve_left hring
      cases hr : (d.queues q).ring with
      | none => exact absurd hr hring
      | some r =>
        rw [hr] at ht
        exact ⟨r, rfl, ht⟩
  | @store d q r =>
    obtain ⟨hq, hother, ht⟩ := hrel
    have hcur : ∀ q', d.txQueue = some q' →
        Current { d with queues := Function.update d.queues q { d.queues q with ring := r } } q' :=
      fun q' hq' => current_store ht (hother q' hq')
    cases r with
    | none => exact ⟨hshared, hexcl, hapart, hmade, hcur⟩
    | some r =>
      refine ⟨hshared, hexcl, hapart, hmade, hq, hcur, r, ?_, ?_⟩
      · dsimp only
        rw [Function.update_self]
      · unfold Dev.translation at *
        dsimp only
        rwa [Function.update_self]
  | access => exact ⟨hshared, hexcl, hapart, hmade, hrel⟩
  | invalidPacket => exact ⟨hshared, hexcl, hapart, hmade, hrel.2.1⟩
  | burst => exact ⟨hshared, hexcl, hapart, hmade, hrel.2.1⟩
  | drop => exact ⟨hshared, hexcl, hapart, nofun, nofun⟩
  | leave => exact ⟨rfl, hexcl, fun _ => rfl, hmade, trivial⟩

theorem Inv.start (h : d.Fresh) : Inv (.lock, d) := by
  obtain ⟨-, -, he, ht, -, hv, hring, -, hq⟩ := h
  refine ⟨ht, ?_, fun _ => ht, fun q h => ?_, hring⟩
  · simp [he, hv]
  · rw [hq] at h
    cases h

theorem Inv.reachable {s : PollPc × Dev} (h : single.Reachable s) : Inv s := by
  induction h with
  | @start s h =>
    obtain ⟨pc, d⟩ := s
    obtain ⟨rfl, hd⟩ := h
    exact .start hd
  | @step s t _ hs ih =>
    obtain ⟨pc, d⟩ := s
    obtain ⟨pc', d'⟩ := t
    rcases hs with hs | ⟨rfl, hs⟩
    · exact ih.poll hs
    · exact ih.other hs

/-- Descriptors are accessed through the ring that the table gives now. -/
def Valid (pc : PollPc) (d : Dev) : Prop :=
  ∀ q, pc = .access q → ∃ r, (d.queues q).ring = some r ∧ d.translation q = .ok (some r)

theorem table_of_poll {pc' : PollPc} (h : PollStep (pc, d) (pc', d')) : d'.table = d.table := by
  cases h with
  | _ => rfl

theorem holds_of_polling (h : pc.polling = true) : pc.holds = true := by
  cases pc with
  | load inv => rfl
  | check q inv => rfl
  | store q r => rfl
  | access q => rfl
  | drop => rfl
  | _ => cases h

theorem Inv.valid (h : Inv (pc, d)) : Valid pc d := by
  rintro q rfl
  exact h.relies.2.2

/-- A ring that `tx_poll` finds looked up and need not look up again is where the table says. -/
theorem Inv.kept {q r : ℕ} (h : Inv (.load false, d)) (hq : d.txQueue = some q) (hr : (d.queues q).ring = some r) :
    d.translation q = .ok (some r) := by
  rcases h.relies q hq with hnone | hsome
  · rw [hnone] at hr
    cases hr
  · rwa [hr] at hsome

theorem Inv.table_of_other (h : Inv (pc, d)) (hp : pc.polling = true) (hs : OtherStep d d') : d'.table = d.table := by
  have hnot : d.vfio ≠ .change := by
    intro hv
    have ht := h.apart (h.exclusive.mpr (.inr (.inl hv)))
    rw [h.shared, holds_of_polling hp] at ht
    cases ht
  cases hs with
  | register info mapping table' flags hv hm => exact absurd hv hnot
  | unregister info hv => exact absurd hv hnot
  | _ => rfl

/-- Where the thread of two devices is: at one of them, or at neither. -/
inductive DoublePc
  | lock1 | lock2 | stopRequested | first (pc : PollPc) | second (pc : PollPc) | leave2 | leave1 | ended
deriving DecidableEq, Repr

structure Double where
  pc : DoublePc
  dev1 : Dev
  dev2 : Dev

/-- `tx_poll_thread_double`: both locks are taken, then one device is polled after the other. -/
inductive DoubleStep : Double → Double → Prop
  | lock1 {d1 d1' d2 : Dev} (h : PollStep (.lock, d1) (.stopRequested, d1')) : DoubleStep ⟨.lock1, d1, d2⟩ ⟨.lock2, d1', d2⟩
  | lock2 {d1 d2 d2' : Dev} (h : PollStep (.lock, d2) (.stopRequested, d2')) :
      DoubleStep ⟨.lock2, d1, d2⟩ ⟨.stopRequested, d1, d2'⟩
  | stop {d1 d2 : Dev} : DoubleStep ⟨.stopRequested, d1, d2⟩ ⟨.leave2, d1, d2⟩
  | go {d1 d2 : Dev} : DoubleStep ⟨.stopRequested, d1, d2⟩ ⟨.first .test, d1, d2⟩
  | first {d1 d1' d2 : Dev} {pc pc' : PollPc} (h : PollStep (pc, d1) (pc', d1')) :
      DoubleStep ⟨.first pc, d1, d2⟩ ⟨if pc' = .stopRequested then .second .test else .first pc', d1', d2⟩
  | second {d1 d2 d2' : Dev} {pc pc' : PollPc} (h : PollStep (pc, d2) (pc', d2')) :
      DoubleStep ⟨.second pc, d1, d2⟩ ⟨if pc' = .stopRequested then .stopRequested else .second pc', d1, d2'⟩
  | leave2 {d1 d2 d2' : Dev} (h : PollStep (.leave, d2) (.ended, d2')) : DoubleStep ⟨.leave2, d1, d2⟩ ⟨.leave1, d1, d2'⟩
  | leave1 {d1 d1' d2 : Dev} (h : PollStep (.leave, d1) (.ended, d1')) : DoubleStep ⟨.leave1, d1, d2⟩ ⟨.ended, d1', d2⟩
  | other1 {pc : DoublePc} {d1 d1' d2 : Dev} (h : OtherStep d1 d1') : DoubleStep ⟨pc, d1, d2⟩ ⟨pc, d1', d2⟩
  | other2 {pc : DoublePc} {d1 d2 d2' : Dev} (h : OtherStep d2 d2') : DoubleStep ⟨pc, d1, d2⟩ ⟨pc, d1, d2'⟩

def double : Machine Double where
  start s := s.pc = .lock1 ∧ s.dev1.Fresh ∧ s.dev2.Fresh
  step := DoubleStep

/-- Where the thread is for its first device: between two polls while it is at the second one. -/
def DoublePc.at1 : DoublePc → PollPc
  | .lock1 => .lock
  | .lock2 | .stopRequested | .second _ => .stopRequested
  | .first pc => pc
  | .leave2 | .leave1 => .leave
  | .ended => .ended

def DoublePc.at2 : DoublePc → PollPc
  | .lock1 | .lock2 => .lock
  | .stopRequested | .first _ => .stopRequested
  | .second pc => pc
  | .leave2 => .leave
  | .leave1 | .ended => .ended

theorem project1 {s : Double} (h : double.Reachable s) : single.Reachable (s.pc.at1, s.dev1) := by
  refine h.project (fun s => (s.pc.at1, s.dev1)) (fun s hs => ?_) fun s t hs => ?_
  · refine ⟨?_, hs.2.1⟩
    dsimp only
    rw [hs.1]
    rfl
  · cases hs with
    | lock1 h => exact .inr (.inl h)
    | lock2 h => exact .inl rfl
    | stop => exact .inr (.inl .stop)
    | go => exact .inr (.inl .go)
    | first h =>
      right
      left
      dsimp only
      split
      · rename_i hpc
        subst hpc
        exact h
      · exact h
    | second h =>
      left
      dsimp only
      split
      · rfl
      · rfl
    | leave2 h => exact .inl rfl
    | leave1 h => exact .inr (.inl h)
    | other1 h => exact .inr (.inr ⟨rfl, h⟩)
    | other2 h => exact .inl rfl

theorem project2 {s : Double} (h : double.Reachable s) : single.Reachable (s.pc.at2, s.dev2) := by
  refine h.project (fun s => (s.pc.at2, s.dev2)) (fun s hs => ?_) fun s t hs => ?_
  · refine ⟨?_, hs.2.2⟩
    dsimp only
    rw [hs.1]
    rfl
  · cases hs with
    | lock1 h => exact .inl rfl
    | lock2 h => exact .inr (.inl h)
    | stop => exact .inr (.inl .stop)
    | go => exact .inl rfl
    | first h =>
      dsimp only
      split
      · exact .inr (.inl .go)
      · exact .inl rfl
    | second h =>
      right
      left
      dsimp only
      split
      · rename_i hpc
        subst hpc
        exact h
      · exact h
    | leave2 h => exact .inr (.inl h)
    | leave1 h => exact .inl rfl
    | other1 h => exact .inl rfl
    | other2 h => exact .inr (.inr ⟨rfl, h⟩)

theorem Inv.table_of_single {s t : PollPc × Dev} (h : Inv s) (hp : s.1.polling = true) (hs : single.step s t) :
    t.2.table = s.2.table := by
  rcases hs with hs | ⟨-, hs⟩
  · exact table_of_poll hs
  · exact h.table_of_other hp hs

theorem table1_of_double {s t : Double} (h : Inv (s.pc.at1, s.dev1)) (hp : s.pc.at1.polling = true)
    (hs : double.step s t) : t.dev1.table = s.dev1.table := by
  cases hs with
  | lock1 hs => exact table_of_poll hs
  | first hs => exact table_of_poll hs
  | leave1 hs => exact table_of_poll hs
  | other1 hs => exact h.table_of_other hp hs
  | _ => rfl

theorem table2_of_double {s t : Double} (h : Inv (s.pc.at2, s.dev2)) (hp : s.pc.at2.polling = true)
    (hs : double.step s t) : t.dev2.table = s.dev2.table := by
  cases hs with
  | lock2 hs => exact table_of_poll hs
  | second hs => exact table_of_poll hs
  | leave2 hs => exact table_of_poll hs
  | other2 hs => exact h.table_of_other hp hs
  | _ => rfl

/-- Neither thread uses a ring that the table does not give, and no step changes the table of a
device whose `tx_poll` runs. -/
theorem ring_not_stale :
    (∀ s, single.Reachable s → Valid s.1 s.2 ∧
      (s.1.polling = true → ∀ t, single.step s t → t.2.table = s.2.table)) ∧
    ∀ s, double.Reachable s → (Valid s.pc.at1 s.dev1 ∧ Valid s.pc.at2 s.dev2) ∧
      (s.pc.at1.polling = true → ∀ t, double.step s t → t.dev1.table = s.dev1.table) ∧
      (s.pc.at2.polling = true → ∀ t, double.step s t → t.dev2.table = s.dev2.table) := by
  constructor
  · intro s h
    have hi := Inv.reachable h
    exact ⟨hi.valid, fun hp t hs => hi.table_of_single hp hs⟩
  · intro s h
    have h1 := Inv.reachable (project1 h)
    have h2 := Inv.reachable (project2 h)
    exact ⟨⟨h1.valid, h2.valid⟩, fun hp t hs => table1_of_double h1 hp hs, fun hp t hs => table2_of_double h2 hp hs⟩

def freshDev : Dev := ⟨.empty, false, false, false, false, .idle, fun _ => ⟨0, none, 0⟩, 0, none⟩

def pageTable : Server := ⟨(∅ : Std.TreeSet ℕ).insert 0x7000, (∅ : Std.TreeSet ℕ).insert 0x7000,
  (∅ : Std.TreeMap ℕ Iovec).insert 0x1000 ⟨0x7000, 0x1000⟩⟩

/-- A queue is started on a page that was registered before. -/
def startedDev : Dev := { freshDev with
  table := pageTable
  queues := Function.update freshDev.queues 0 ⟨0x1000, none, 0⟩
  made := 1
  txQueue := some 0 }

theorem startedDev_reachable : single.Reachable (.lock, startedDev) := by
  have h0 : single.Reachable (.lock, freshDev) := .start ⟨rfl, rfl, rfl, rfl, rfl, rfl, rfl, fun _ => rfl, rfl, rfl⟩
  have h1 : single.Reachable (.lock, { freshDev with dmaFlag := true, vfio := .lock }) :=
    h0.step (.inr ⟨rfl, .callback rfl⟩)
  have h2 : single.Reachable (.lock, { freshDev with dmaFlag := true, exclusive := true, vfio := .clear }) :=
    h1.step (.inr ⟨rfl, .lock rfl rfl rfl rfl⟩)
  have h3 : single.Reachable (.lock, { freshDev with exclusive := true, vfio := .change }) :=
    h2.step (.inr ⟨rfl, .clear rfl⟩)
  have h4 : single.Reachable (.lock, { freshDev with exclusive := true, vfio := .unlock, table := pageTable }) :=
    h3.step (.inr ⟨rfl, .register ⟨⟨0x1000, 0x1000⟩, 0x7000, 0x7000, 3⟩ (some ⟨0x7000, 0x1000⟩) _ (some 3) rfl rfl⟩)
  have h5 : single.Reachable (.lock, { freshDev with table := pageTable }) :=
    h4.step (.inr ⟨rfl, .unlock rfl⟩)
  exact h5.step (.inr ⟨rfl, .queueStart 0x1000 0 rfl⟩)

theorem ring_not_stale_started : ∃ d, single.Reachable (.access 0, d) ∧
    ∃ r, (d.queues 0).ring = some r ∧ d.translation 0 = .ok (some r) := by
  have h1 : single.Reachable (.stopRequested, { startedDev with sharedTx := true }) :=
    startedDev_reachable.step (.inl (.lock rfl))
  have h2 : single.Reachable (.test, { startedDev with sharedTx := true }) := h1.step (.inl .go)
  have h3 : single.Reachable (.load false, { startedDev with sharedTx := true }) := h2.step (.inl .test)
  have h4 : single.Reachable (.check 0 false, { startedDev with sharedTx := true }) := h3.step (.inl (.load 0 rfl))
  have h5 : single.Reachable (.store 0 (some 0x7000), { startedDev with sharedTx := true }) :=
    h4.step (.inl (.lookUp (some 0x7000) (.inr rfl) rfl))
  have h6 := h5.step (.inl .store)
  exact ⟨_, h6, (ring_not_stale.1 _ h6).1 0 rfl⟩

end Vmux.RingPointer
