import Mathlib.Tactic
import Vmux.Transitions

namespace Vmux.QueueStop

open Transitions

/-- `MAX_RX_QUEUES`. -/
abbrev maxRxQueues : ℕ := 4

inductive QueueId
  | tx
  | rx (i : Fin maxRxQueues)
deriving DecidableEq, Repr

/-- `tx_poll` and `rx_callback_fn`. -/
inductive Poller
  | tx
  | rx
deriving DecidableEq, Repr

/-- Where a poll call is. While it holds a queue it looks up the ring, and for each frame reads the
flags and the descriptor, copies the data and writes the descriptor back. -/
inductive PollPc
  | idle
  | fallback
  | lookUp (q : ℕ)
  | readFlags (q : ℕ)
  | readDescriptor (q : ℕ)
  | copyData (q : ℕ)
  | writeFlags (q : ℕ)
  | drop
deriving DecidableEq, Repr

/-- The queue whose `shared_ptr` the call holds. -/
def PollPc.holds : PollPc → Option ℕ
  | .idle | .fallback | .drop => none
  | .lookUp q | .readFlags q | .readDescriptor q | .copyData q | .writeFlags q => some q

inductive Access
  | ring (q : ℕ)
  | buffer (q : ℕ)
deriving DecidableEq, Repr

def Access.queue : Access → ℕ
  | .ring q | .buffer q => q

/-- The queues that were made are numbered, and belong to the pointer they were made for. `stopped`
says that the last region access to a queue was to stop it. -/
structure State where
  slot : QueueId → Option ℕ
  made : ℕ
  queueOf : ℕ → QueueId
  poll : Poller → PollPc
  stopped : QueueId → Bool

namespace State

variable (s : State)

def setPoll (p : Poller) (pc : PollPc) : State := { s with poll := Function.update s.poll p pc }

/-- `TX_QUEUE_START` and `RX_QUEUE_START`. -/
def queueStart (k : QueueId) : State :=
  { s with
    slot := Function.update s.slot k (some s.made)
    made := s.made + 1
    queueOf := Function.update s.queueOf s.made k
    stopped := Function.update s.stopped k false }

/-- `TX_QUEUE_STOP` and `RX_QUEUE_STOP`: the pointer is cleared. -/
def queueStop (k : QueueId) : State :=
  { s with slot := Function.update s.slot k none, stopped := Function.update s.stopped k true }

/-- `tx_poll` clears the pointer itself. -/
def dropTx : State := { s with slot := Function.update s.slot .tx none }

end State

inductive Action
  | start (k : QueueId)
  | stop (k : QueueId)
  | poll (a : Option Access)

/-- After an address that is not mapped `tx_poll` drops its queue. -/
def Poller.afterInvalid : Poller → PollPc
  | .tx => .drop
  | .rx => .idle

/-- One step, with the access it makes. A call breaks off when no descriptor is available, an address
is not mapped, a received frame is too large or there is no buffer for one that is sent. -/
inductive Step (s : State) : Action → State → Prop
  | start (k : QueueId) : Step s (.start k) (s.queueStart k)
  | stop (k : QueueId) : Step s (.stop k) (s.queueStop k)
  | loadTx (q : ℕ) (hp : s.poll .tx = .idle) (h : s.slot .tx = some q) : Step s (.poll none) (s.setPoll .tx (.lookUp q))
  | loadRx (i : Fin maxRxQueues) (q : ℕ) (hp : s.poll .rx = .idle) (h : s.slot (.rx i) = some q) :
      Step s (.poll none) (s.setPoll .rx (.lookUp q))
  | noQueue (i : Fin maxRxQueues) (hp : s.poll .rx = .idle) (h : s.slot (.rx i) = none) :
      Step s (.poll none) (s.setPoll .rx .fallback)
  | fallback (q : ℕ) (hp : s.poll .rx = .fallback) (h : s.slot (.rx 0) = some q) :
      Step s (.poll none) (s.setPoll .rx (.lookUp q))
  | noFallback (hp : s.poll .rx = .fallback) (h : s.slot (.rx 0) = none) : Step s (.poll none) (s.setPoll .rx .idle)
  | lookUp (p : Poller) (q : ℕ) (hp : s.poll p = .lookUp q) : Step s (.poll none) (s.setPoll p (.readFlags q))
  | invalidRing (p : Poller) (q : ℕ) (hp : s.poll p = .lookUp q) : Step s (.poll none) (s.setPoll p p.afterInvalid)
  | available (p : Poller) (q : ℕ) (hp : s.poll p = .readFlags q) :
      Step s (.poll (some (.ring q))) (s.setPoll p (.readDescriptor q))
  | unavailable (p : Poller) (q : ℕ) (hp : s.poll p = .readFlags q) : Step s (.poll (some (.ring q))) (s.setPoll p .idle)
  | readDescriptor (p : Poller) (q : ℕ) (hp : s.poll p = .readDescriptor q) :
      Step s (.poll (some (.ring q))) (s.setPoll p (.copyData q))
  | breakOff (p : Poller) (q : ℕ) (hp : s.poll p = .readDescriptor q) :
      Step s (.poll (some (.ring q))) (s.setPoll p .idle)
  | invalidPacket (p : Poller) (q : ℕ) (hp : s.poll p = .readDescriptor q) :
      Step s (.poll (some (.ring q))) (s.setPoll p p.afterInvalid)
  | tooLarge (q : ℕ) (hp : s.poll .tx = .readDescriptor q) :
      Step s (.poll (some (.ring q))) (s.setPoll .tx (.writeFlags q))
  | copyData (p : Poller) (q : ℕ) (hp : s.poll p = .copyData q) :
      Step s (.poll (some (.buffer q))) (s.setPoll p (.writeFlags q))
  | next (p : Poller) (q : ℕ) (hp : s.poll p = .writeFlags q) :
      Step s (.poll (some (.ring q))) (s.setPoll p (.readFlags q))
  | last (p : Poller) (q : ℕ) (hp : s.poll p = .writeFlags q) : Step s (.poll (some (.ring q))) (s.setPoll p .idle)
  | drop (hp : s.poll .tx = .drop) : Step s (.poll none) ((s.dropTx).setPoll .tx .idle)

def Start (s : State) : Prop :=
  (∀ k, s.slot k = none) ∧ s.made = 0 ∧ (∀ p, s.poll p = .idle) ∧ ∀ k, s.stopped k = false

def vdpdk : Machine State where
  start := Start
  step s t := ∃ a, Step s a t

/-- A queue is stopped while no poll call holds it. -/
def BetweenPolls (s : State) : Action → Prop
  | .stop k => ∀ p q, (s.poll p).holds = some q → s.queueOf q ≠ k
  | _ => True

def calmly : Machine State where
  start := Start
  step s t := ∃ a, Step s a t ∧ BetweenPolls s a

def Quiescent (s : State) : Prop :=
  ∀ a t, Step s (.poll (some a)) t → s.stopped (s.queueOf a.queue) = false

structure Inv (s : State) : Prop where
  owner : ∀ k q, s.slot k = some q → q < s.made ∧ s.queueOf q = k
  cleared : ∀ k, s.stopped k = true → s.slot k = none
  held : ∀ p q, (s.poll p).holds = some q → q < s.made ∧ s.stopped (s.queueOf q) = false

variable {s t : State}

theorem holds_of_access {a : Access} (h : Step s (.poll (some a)) t) : ∃ p, (s.poll p).holds = some a.queue := by
  cases h with
  | available p q hp => exact ⟨p, by rw [hp]; rfl⟩
  | unavailable p q hp => exact ⟨p, by rw [hp]; rfl⟩
  | readDescriptor p q hp => exact ⟨p, by rw [hp]; rfl⟩
  | breakOff p q hp => exact ⟨p, by rw [hp]; rfl⟩
  | invalidPacket p q hp => exact ⟨p, by rw [hp]; rfl⟩
  | tooLarge q hp => exact ⟨.tx, by rw [hp]; rfl⟩
  | copyData p q hp => exact ⟨p, by rw [hp]; rfl⟩
  | next p q hp => exact ⟨p, by rw [hp]; rfl⟩
  | last p q hp => exact ⟨p, by rw [hp]; rfl⟩

theorem Inv.quiescent (h : Inv s) : Quiescent s := by
  intro a t hs
  obtain ⟨p, hp⟩ := holds_of_access hs
  exact (h.held p _ hp).2

theorem Inv.setPoll {p : Poller} {pc : PollPc} (h : Inv s) (hpc : ∀ q, pc.holds = some q →
    (s.poll p).holds = some q ∨ ∃ k, s.slot k = some q) : Inv (s.setPoll p pc) := by
  refine ⟨h.owner, h.cleared, fun p' q hq => ?_⟩
  change (Function.update s.poll p pc p').holds = some q at hq
  by_cases hp : p' = p
  · subst hp
    rw [Function.update_self] at hq
    rcases hpc q hq with hq | ⟨k, hk⟩
    · exact h.held p' q hq
    · obtain ⟨hlt, hown⟩ := h.owner k q hk
      refine ⟨hlt, ?_⟩
      rw [show (s.setPoll p' pc).queueOf q = k from hown]
      apply eq_false_of_ne_true
      intro hst
      rw [h.cleared k hst] at hk
      cases hk
  · rw [Function.update_of_ne hp] at hq
    exact h.held p' q hq

theorem Inv.queueStart (h : Inv s) (k : QueueId) : Inv (s.queueStart k) := by
  refine ⟨fun k' q hq => ?_, fun k' hk' => ?_, fun p q hq => ?_⟩
  · change Function.update s.slot k (some s.made) k' = some q at hq
    change q < s.made + 1 ∧ Function.update s.queueOf s.made k q = k'
    by_cases hk : k' = k
    · subst hk
      rw [Function.update_self] at hq
      cases hq
      exact ⟨Nat.lt_succ_self _, Function.update_self _ _ _⟩
    · rw [Function.update_of_ne hk] at hq
      obtain ⟨hlt, hown⟩ := h.owner k' q hq
      have hne : q ≠ s.made := by omega
      rw [Function.update_of_ne hne]
      exact ⟨Nat.lt_succ_of_lt hlt, hown⟩
  · change Function.update s.stopped k false k' = true at hk'
    change Function.update s.slot k (some s.made) k' = none
    by_cases hk : k' = k
    · subst hk
      rw [Function.update_self] at hk'
      cases hk'
    · rw [Function.update_of_ne hk] at hk' ⊢
      exact h.cleared k' hk'
  · obtain ⟨hlt, hst⟩ := h.held p q hq
    have hne : q ≠ s.made := by omega
    change q < s.made + 1 ∧ Function.update s.stopped k false (Function.update s.queueOf s.made k q) = false
    rw [Function.update_of_ne hne]
    refine ⟨Nat.lt_succ_of_lt hlt, ?_⟩
    by_cases hk : s.queueOf q = k
    · rw [hk, Function.update_self]
    · rw [Function.update_of_ne hk]
      exact hst

theorem Inv.queueStop (h : Inv s) {k : QueueId} (hb : BetweenPolls s (.stop k)) : Inv (s.queueStop k) := by
  refine ⟨fun k' q hq => ?_, fun k' hk' => ?_, fun p q hq => ?_⟩
  · change Function.update s.slot k none k' = some q at hq
    by_cases hk : k' = k
    · subst hk
      rw [Function.update_self] at hq
      cases hq
    · rw [Function.update_of_ne hk] at hq
      exact h.owner k' q hq
  · change Function.update s.stopped k true k' = true at hk'
    change Function.update s.slot k none k' = none
    by_cases hk : k' = k
    · subst hk
      exact Function.update_self _ _ _
    · rw [Function.update_of_ne hk] at hk' ⊢
      exact h.cleared k' hk'
  · obtain ⟨hlt, hst⟩ := h.held p q hq
    refine ⟨hlt, ?_⟩
    change Function.update s.stopped k true (s.queueOf q) = false
    rw [Function.update_of_ne (hb p q hq)]
    exact hst

theorem Inv.dropTx (h : Inv s) : Inv s.dropTx := by
  refine ⟨fun k' q hq => ?_, fun k' hk' => ?_, h.held⟩
  · change Function.update s.slot .tx none k' = some q at hq
    by_cases hk : k' = .tx
    · subst hk
      rw [Function.update_self] at hq
      cases hq
    · rw [Function.update_of_ne hk] at hq
      exact h.owner k' q hq
  · change Function.update s.slot .tx none k' = none
    by_cases hk : k' = .tx
    · subst hk
      exact Function.update_self _ _ _
    · rw [Function.update_of_ne hk]
      exact h.cleared k' hk'

theorem Inv.step {a : Action} (h : Inv s) (hb : BetweenPolls s a) (hs : Step s a t) : Inv t := by
  have hkeep : ∀ {p : Poller} {q : ℕ} {pc : PollPc}, (s.poll p).holds = some q → pc.holds = some q →
      Inv (s.setPoll p pc) := by
    intro p q pc hp hpc
    apply h.setPoll
    intro q' hq'
    rw [hpc] at hq'
    rw [hp]
    exact .inl hq'
  have hload : ∀ {p : Poller} {q : ℕ} (k : QueueId), s.slot k = some q → Inv (s.setPoll p (.lookUp q)) := by
    intro p q k hk
    apply h.setPoll
    intro q' hq'
    cases hq'
    exact .inr ⟨k, hk⟩
  have hfree : ∀ {p : Poller}, Inv (s.setPoll p .idle) := h.setPoll nofun
  have hinvalid : ∀ p : Poller, Inv (s.setPoll p p.afterInvalid) := by
    intro p
    cases p with
    | tx => exact h.setPoll nofun
    | rx => exact h.setPoll nofun
  cases hs with
  | start k => exact h.queueStart k
  | stop k => exact h.queueStop hb
  | loadTx q hp hq => exact hload .tx hq
  | loadRx i q hp hq => exact hload (.rx i) hq
  | noQueue i hp hq => exact h.setPoll nofun
  | fallback q hp hq => exact hload (.rx 0) hq
  | noFallback hp hq => exact hfree
  | lookUp p q hp => exact hkeep (by rw [hp]; rfl) rfl
  | invalidRing p q hp => exact hinvalid p
  | available p q hp => exact hkeep (by rw [hp]; rfl) rfl
  | unavailable p q hp => exact hfree
  | readDescriptor p q hp => exact hkeep (by rw [hp]; rfl) rfl
  | breakOff p q hp => exact hfree
  | invalidPacket p q hp => exact hinvalid p
  | tooLarge q hp => exact hkeep (by rw [hp]; rfl) rfl
  | copyData p q hp => exact hkeep (by rw [hp]; rfl) rfl
  | next p q hp => exact hkeep (by rw [hp]; rfl) rfl
  | last p q hp => exact hfree
  | drop hp => exact h.dropTx.setPoll nofun

theorem Inv.reachable (h : calmly.Reachable s) : Inv s := by
  induction h with
  | start h =>
    obtain ⟨hslot, -, hpoll, hst⟩ := h
    refine ⟨fun k q hq => ?_, fun k hk => hslot k, fun p q hq => ?_⟩
    · rw [hslot] at hq
      cases hq
    · rw [hpoll] at hq
      cases hq
  | step _ h ih =>
    obtain ⟨a, hs, hb⟩ := h
    exact ih.step hb hs

theorem access_of_holds {p : Poller} {q : ℕ} (h : (t.poll p).holds = some q) :
    ∃ u a v, Relation.ReflTransGen vdpdk.step t u ∧ Step u (.poll (some a)) v ∧ a.queue = q ∧
      u.stopped = t.stopped ∧ u.queueOf = t.queueOf := by
  cases hp : t.poll p with
  | idle =>
    rw [hp] at h
    cases h
  | fallback =>
    rw [hp] at h
    cases h
  | drop =>
    rw [hp] at h
    cases h
  | lookUp q' =>
    rw [hp] at h
    cases h
    exact ⟨_, _, _, .single ⟨_, .lookUp p q hp⟩, .unavailable p q (Function.update_self _ _ _), rfl, rfl, rfl⟩
  | readFlags q' =>
    rw [hp] at h
    cases h
    exact ⟨t, _, _, .refl, .unavailable p q hp, rfl, rfl, rfl⟩
  | readDescriptor q' =>
    rw [hp] at h
    cases h
    exact ⟨t, _, _, .refl, .breakOff p q hp, rfl, rfl, rfl⟩
  | copyData q' =>
    rw [hp] at h
    cases h
    exact ⟨t, _, _, .refl, .copyData p q hp, rfl, rfl, rfl⟩
  | writeFlags q' =>
    rw [hp] at h
    cases h
    exact ⟨t, _, _, .refl, .last p q hp, rfl, rfl, rfl⟩

/-- If queues are stopped between polls, stopped queues are not touched. A queue that is stopped while
a poll call holds it is touched later in some run. -/
theorem stopped_quiescent (s : State) (h : calmly.Reachable s) :
    Quiescent s ∧ ∀ k, ¬BetweenPolls s (.stop k) →
      ∃ u, Relation.ReflTransGen vdpdk.step (s.queueStop k) u ∧ u.stopped k = true ∧ ¬Quiescent u := by
  refine ⟨(Inv.reachable h).quiescent, fun k hb => ?_⟩
  simp only [BetweenPolls, ne_eq, not_forall, not_not] at hb
  obtain ⟨p, q, hq, hk⟩ := hb
  obtain ⟨u, a, v, hu, hs, ha, hst, hof⟩ := @access_of_holds (s.queueStop k) p q hq
  have hk' : u.stopped k = true := by
    rw [hst]
    exact Function.update_self _ _ _
  refine ⟨u, hu, hk', fun hquiet => ?_⟩
  have hfalse := hquiet a v hs
  rw [ha, hof, show (s.queueStop k).queueOf q = k from hk, hk'] at hfalse
  cases hfalse

def initial : State := ⟨fun _ => none, 0, fun _ => .tx, fun _ => .idle, fun _ => false⟩

/-- The transmit queue is stopped after a poll call on it, and during one on a receive queue. -/
theorem stopped_quiescent_polled : ∃ s, calmly.Reachable s ∧ s.stopped .tx = true ∧
    (∃ t, Step s (.poll (some (.ring 1))) t) ∧ Quiescent s := by
  have h0 : calmly.Reachable initial := .start ⟨fun _ => rfl, rfl, fun _ => rfl, fun _ => rfl⟩
  have h1 := h0.step ⟨_, .start .tx, trivial⟩
  have h2 := h1.step ⟨_, .start (.rx 0), trivial⟩
  have h3 := h2.step ⟨_, .loadTx 0 rfl rfl, trivial⟩
  have h4 := h3.step ⟨_, .lookUp .tx 0 rfl, trivial⟩
  have h5 := h4.step ⟨_, .available .tx 0 rfl, trivial⟩
  have h6 := h5.step ⟨_, .readDescriptor .tx 0 rfl, trivial⟩
  have h7 := h6.step ⟨_, .copyData .tx 0 rfl, trivial⟩
  have h8 := h7.step ⟨_, .last .tx 0 rfl, trivial⟩
  have h9 := h8.step ⟨_, .loadRx 0 1 rfl rfl, trivial⟩
  have h10 := h9.step ⟨_, .lookUp .rx 1 rfl, trivial⟩
  have h11 := h10.step ⟨_, .stop .tx, fun p q hq => by
    cases p with
    | tx => cases hq
    | rx =>
      obtain rfl : 1 = q := Option.some.inj hq
      exact nofun⟩
  exact ⟨_, h11, rfl, ⟨_, .available .rx 1 rfl⟩, (stopped_quiescent _ h11).1⟩

/-- The transmit queue is stopped after `tx_poll` has read a descriptor, whose data it then copies. -/
theorem stopped_queue_read : ∃ s t, vdpdk.Reachable s ∧ s.stopped .tx = true ∧ s.queueOf 0 = .tx ∧
    Step s (.poll (some (.buffer 0))) t := by
  have h0 : vdpdk.Reachable initial := .start ⟨fun _ => rfl, rfl, fun _ => rfl, fun _ => rfl⟩
  have h1 := h0.step ⟨_, .start .tx⟩
  have h2 := h1.step ⟨_, .loadTx 0 rfl rfl⟩
  have h3 := h2.step ⟨_, .lookUp .tx 0 rfl⟩
  have h4 := h3.step ⟨_, .available .tx 0 rfl⟩
  have h5 := h4.step ⟨_, .readDescriptor .tx 0 rfl⟩
  have h6 := h5.step ⟨_, .stop .tx⟩
  exact ⟨_, _, h6, rfl, rfl, .copyData .tx 0 rfl⟩

end Vmux.QueueStop
