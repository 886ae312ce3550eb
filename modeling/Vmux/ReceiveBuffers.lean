import Vmux.DescriptorQueue
import Vmux.Transitions

namespace Vmux.ReceiveBuffers

open Transitions DescriptorQueue

def maxQueuesPerVm : ℕ := 4

def burstSize : ℕ := 32

def maxBuf : ℕ := 9000

/-- A pointer to an mbuf, with what `recv` reads of it. -/
structure Mbuf where
  ptr : ℕ
  nbSegs : ℕ
  pktLen : ℕ
  data : ℕ
deriving DecidableEq, Repr

structure RxBuf where
  data : ℕ
  used : ℕ
  queue : Option ℕ
deriving DecidableEq, Repr

structure RxQueue where
  rxBufs : List RxBuf
  nbBufsUsed : ℕ
deriving DecidableEq, Repr

/-- `bufs` is the flat list of mbufs, `burstSize` of them for each queue. -/
structure Dpdk where
  bufs : ℕ → Mbuf
  rxQueues : ℕ → RxQueue
  mediate : ℕ → Bool

def getRxQueueId (vm queue : ℕ) : ℕ := (vm * maxQueuesPerVm + queue) % 2 ^ 16

/-- The index of `get_rx_queue`, whose stride is `MAX_QUEUES_PER_VM`. -/
def rxQueueIndex (vm queue : ℕ) : ℕ := vm * maxQueuesPerVm + queue

/-- `rte_eth_rx_burst` writes the packets that it received to `bufs[base]` and behind. -/
def rxBurst (bufs : ℕ → Mbuf) (base : ℕ) (burst : List Mbuf) : ℕ → Mbuf :=
  fun k => if base ≤ k then burst.getD (k - base) (bufs k) else bufs k

def fillRxBuf (mediate : Bool) (queue : ℕ) (m : Mbuf) : RxBuf :=
  ⟨m.data, m.pktLen, if mediate then some queue else none⟩

/-- `recv` ends the process at a packet in several segments or one that is too long. -/
def Unfit (m : Mbuf) : Prop := m.nbSegs ≠ 1 ∨ maxBuf ≤ m.pktLen

instance (m : Mbuf) : Decidable (Unfit m) := inferInstanceAs (Decidable (_ ∨ _))

/-- `recv` for one queue; `burst` is what the port has received on it. -/
def recvQueue (vm queue : ℕ) (burst : List Mbuf) (d : Dpdk) : Except Fault Dpdk :=
  let received := { d with bufs := rxBurst d.bufs (getRxQueueId vm queue * burstSize) burst }
  if burst = [] then .ok received
  else if ∃ m ∈ burst, Unfit m then .error .abort
  else .ok { received with
    rxQueues := Function.update d.rxQueues (rxQueueIndex vm queue)
      ⟨burst.map (fillRxBuf (d.mediate vm) queue) ++ (d.rxQueues (rxQueueIndex vm queue)).rxBufs.drop burst.length,
        burst.length⟩ }

/-- `recv` for the queues below `n`. -/
def recvQueues (vm : ℕ) (bursts : ℕ → List Mbuf) (d : Dpdk) : ℕ → Except Fault Dpdk
  | 0 => .ok d
  | n + 1 => recvQueues vm bursts d n >>= recvQueue vm n (bursts n)

def recv (vm : ℕ) (bursts : ℕ → List Mbuf) (d : Dpdk) : Except Fault Dpdk :=
  recvQueues vm bursts d maxQueuesPerVm

/-- The loop of `recv_consumed` over the buffers of a queue, with what it hands to
`rte_pktmbuf_free`. The index is a `uint16_t`, the bound is not; `none` is out of fuel. -/
def freeLoop (bufs : ℕ → Mbuf) (bound : ℕ) : ℕ → ℕ → Option (List Mbuf)
  | 0, _ => none
  | fuel + 1, i => if i < bound then (freeLoop bufs bound fuel ((i + 1) % 2 ^ 16)).map (bufs i :: ·) else some []

/-- `nb_bufs_used = 0` for one queue. -/
def Dpdk.clear (d : Dpdk) (k : ℕ) : Dpdk :=
  { d with rxQueues := Function.update d.rxQueues k { d.rxQueues k with nbBufsUsed := 0 } }

def consumeQueue (fuel vm queue : ℕ) (d : Dpdk) : Option (Dpdk × List Mbuf) :=
  let first := getRxQueueId vm queue * burstSize
  let bound := first + (d.rxQueues (rxQueueIndex vm queue)).nbBufsUsed
  (freeLoop d.bufs bound fuel (first % 2 ^ 16)).map fun freed => (d.clear (rxQueueIndex vm queue), freed)

/-- `recv_consumed` for the queues below `n`, with all that it has freed. -/
def consumeQueues (fuel vm : ℕ) (d : Dpdk) : ℕ → Option (Dpdk × List Mbuf)
  | 0 => some (d, [])
  | n + 1 => do
    let (d, freed) ← consumeQueues fuel vm d n
    let (d, more) ← consumeQueue fuel vm n d
    return (d, freed ++ more)

def recvConsumed (fuel vm : ℕ) (d : Dpdk) : Option (Dpdk × List Mbuf) :=
  consumeQueues fuel vm d maxQueuesPerVm

/-- `pending` is the last `recv`, if it was not followed by `recv_consumed` yet. -/
structure State where
  dpdk : Dpdk
  pending : Option (ℕ × (ℕ → List Mbuf))

/-- The calls of a device's polling thread alternate. -/
inductive Step (numVms : ℕ) (s : State) : State → Prop
  | recv (vm : ℕ) (bursts : ℕ → List Mbuf) (d : Dpdk) (hp : s.pending = none) (hv : vm < numVms)
      (hb : ∀ q, (bursts q).length ≤ burstSize) (hr : ReceiveBuffers.recv vm bursts s.dpdk = .ok d) :
      Step numVms s ⟨d, some (vm, bursts)⟩
  | recvConsumed (vm fuel : ℕ) (bursts : ℕ → List Mbuf) (d : Dpdk) (freed : List Mbuf) (hp : s.pending = some (vm, bursts))
      (hc : ReceiveBuffers.recvConsumed fuel vm s.dpdk = some (d, freed)) : Step numVms s ⟨d, none⟩
  | mediate (m : ℕ → Bool) : Step numVms s { s with dpdk := { s.dpdk with mediate := m } }

/-- After `alloc_rx_lists`; the memory behind `bufs` was not written. -/
def Start (s : State) : Prop := s.pending = none ∧ ∀ k, (s.dpdk.rxQueues k).nbBufsUsed = 0

def driver (numVms : ℕ) : Machine State where
  start := Start
  step := Step numVms

def received (bursts : ℕ → List Mbuf) : List Mbuf := (List.range maxQueuesPerVm).flatMap bursts

/-- `recv_consumed` ends, frees what was received and nothing else, and marks the queues of the VM as
empty and no others. -/
def Conserved (vm : ℕ) (bursts : ℕ → List Mbuf) (d : Dpdk) : Prop :=
  ∃ fuel d', recvConsumed fuel vm d = some (d', received bursts) ∧
    (∀ q < maxQueuesPerVm, (d'.rxQueues (rxQueueIndex vm q)).nbBufsUsed = 0) ∧
    ∀ k, (∀ q < maxQueuesPerVm, k ≠ rxQueueIndex vm q) → (d'.rxQueues k).nbBufsUsed = (d.rxQueues k).nbBufsUsed

/-- The queues of a VM below `n` hold what was received on them, the others are empty. -/
structure Holds (vm n : ℕ) (bursts : ℕ → List Mbuf) (d : Dpdk) : Prop where
  used : ∀ q < n, (d.rxQueues (rxQueueIndex vm q)).nbBufsUsed = (bursts q).length
  bufs : ∀ q < n, (List.range' (rxQueueIndex vm q * burstSize) (bursts q).length).map d.bufs = bursts q
  others : ∀ k, (∀ q < n, k ≠ rxQueueIndex vm q) → (d.rxQueues k).nbBufsUsed = 0

variable {vm n : ℕ} {bursts : ℕ → List Mbuf} {d d' : Dpdk} {bufs : ℕ → Mbuf} {bound fuel i : ℕ}

theorem freeLoop_ends (hb : bound < 2 ^ 16) (hi : i ≤ bound) (hf : bound - i < fuel) :
    freeLoop bufs bound fuel i = some ((List.range' i (bound - i)).map bufs) := by
  induction fuel generalizing i with
  | zero => omega
  | succ fuel ih =>
    rw [freeLoop]
    by_cases hlt : i < bound
    · obtain ⟨m, hm⟩ : ∃ m, bound - i = m + 1 := ⟨bound - i - 1, by omega⟩
      rw [if_pos hlt, Nat.mod_eq_of_lt (by omega), ih (by omega) (by omega), hm, List.range'_succ]
      have hm' : bound - (i + 1) = m := by omega
      rw [hm']
      rfl
    · have hz : bound - i = 0 := by omega
      rw [if_neg hlt, hz]
      rfl

/-- No value of the index reaches the bound. -/
theorem freeLoop_diverges (hb : 2 ^ 16 ≤ bound) (hi : i < 2 ^ 16) : freeLoop bufs bound fuel i = none := by
  induction fuel generalizing i with
  | zero => rfl
  | succ fuel ih =>
    rw [freeLoop, if_pos (by omega), ih (Nat.mod_lt _ (by decide))]
    rfl

theorem getRxQueueId_eq {q : ℕ} (hv : vm < 512) (hq : q < maxQueuesPerVm) : getRxQueueId vm q = rxQueueIndex vm q := by
  unfold getRxQueueId rxQueueIndex maxQueuesPerVm at *
  omega

theorem rxQueueIndex_ne {p q : ℕ} (h : p ≠ q) : rxQueueIndex vm p ≠ rxQueueIndex vm q := by
  unfold rxQueueIndex
  omega

theorem bufs_apart {p q k : ℕ} (h : p < q) (hk : k < rxQueueIndex vm p * burstSize + burstSize) :
    k < rxQueueIndex vm q * burstSize := by
  unfold rxQueueIndex burstSize at *
  omega

theorem rxBurst_below {base k : ℕ} {burst : List Mbuf} (h : k < base) : rxBurst bufs base burst k = bufs k := by
  rw [rxBurst, if_neg (by omega)]

theorem rxBurst_read (bufs : ℕ → Mbuf) (base : ℕ) (burst : List Mbuf) :
    (List.range' base burst.length).map (rxBurst bufs base burst) = burst := by
  apply List.ext_getElem
  · simp
  · intro i h1 h2
    simp [rxBurst, h2]

theorem recvQueue_ok {q : ℕ} {burst : List Mbuf} (h : recvQueue vm q burst d = .ok d')
    (hz : (d.rxQueues (rxQueueIndex vm q)).nbBufsUsed = 0) :
    d'.bufs = rxBurst d.bufs (getRxQueueId vm q * burstSize) burst ∧
    (d'.rxQueues (rxQueueIndex vm q)).nbBufsUsed = burst.length ∧
    ∀ k ≠ rxQueueIndex vm q, d'.rxQueues k = d.rxQueues k := by
  unfold recvQueue at h
  by_cases he : burst = []
  · rw [if_pos he] at h
    obtain rfl := Except.ok.inj h
    refine ⟨rfl, ?_, fun k _ => rfl⟩
    rw [he]
    exact hz
  · rw [if_neg he] at h
    by_cases hu : ∃ m ∈ burst, Unfit m
    · rw [if_pos hu] at h
      cases h
    · rw [if_neg hu] at h
      obtain rfl := Except.ok.inj h
      refine ⟨rfl, ?_, fun k hk => Function.update_of_ne hk _ _⟩
      dsimp only
      rw [Function.update_self]

theorem recvQueues_holds (hv : vm < 512) (hb : ∀ q, (bursts q).length ≤ burstSize)
    (hz : ∀ k, (d.rxQueues k).nbBufsUsed = 0) (hn : n ≤ maxQueuesPerVm) (h : recvQueues vm bursts d n = .ok d') :
    Holds vm n bursts d' := by
  induction n generalizing d' with
  | zero =>
    obtain rfl := Except.ok.inj h
    exact ⟨nofun, nofun, fun k _ => hz k⟩
  | succ n ih =>
    rw [recvQueues] at h
    cases hd : recvQueues vm bursts d n with
    | error e =>
      rw [hd] at h
      cases h
    | ok d1 =>
      rw [hd] at h
      have hi := ih (by omega) hd
      have hne : ∀ q < n, rxQueueIndex vm n ≠ rxQueueIndex vm q := fun q hq => rxQueueIndex_ne (by omega)
      obtain ⟨hbufs, hused, hothers⟩ := recvQueue_ok h (hi.others _ hne)
      refine ⟨fun q hq => ?_, fun q hq => ?_, fun k hk => ?_⟩
      · rcases Nat.lt_succ_iff_lt_or_eq.mp hq with hq | rfl
        · rw [hothers _ (hne q hq).symm]
          exact hi.used q hq
        · exact hused
      · rw [hbufs, getRxQueueId_eq hv (by omega)]
        rcases Nat.lt_succ_iff_lt_or_eq.mp hq with hq | rfl
        · refine Eq.trans (List.map_congr_left fun k hk => ?_) (hi.bufs q hq)
          exact rxBurst_below (bufs_apart hq ((List.mem_range'_1.mp hk).2.trans_le (Nat.add_le_add_left (hb q) _)))
        · exact rxBurst_read _ _ _
      · rw [hothers k (hk n (Nat.lt_succ_self n))]
        exact hi.others k fun q hq => hk q (Nat.lt_succ_of_lt hq)

theorem Dpdk.clear_self (d : Dpdk) (k : ℕ) : ((d.clear k).rxQueues k).nbBufsUsed = 0 := by
  unfold Dpdk.clear
  dsimp only
  rw [Function.update_self]

theorem Dpdk.clear_ne (d : Dpdk) {j k : ℕ} (h : j ≠ k) : (d.clear k).rxQueues j = d.rxQueues j :=
  Function.update_of_ne h _ _

theorem consumeQueue_ends {q : ℕ} (hv : vm < 512) (hq : q < maxQueuesPerVm)
    (hn : (d.rxQueues (rxQueueIndex vm q)).nbBufsUsed ≤ burstSize)
    (hb : rxQueueIndex vm q * burstSize + (d.rxQueues (rxQueueIndex vm q)).nbBufsUsed < 2 ^ 16) :
    consumeQueue (burstSize + 1) vm q d = some (d.clear (rxQueueIndex vm q),
        (List.range' (rxQueueIndex vm q * burstSize) (d.rxQueues (rxQueueIndex vm q)).nbBufsUsed).map d.bufs) := by
  have hlow : rxQueueIndex vm q * burstSize % 2 ^ 16 = rxQueueIndex vm q * burstSize := Nat.mod_eq_of_lt (by omega)
  unfold consumeQueue
  dsimp only
  rw [getRxQueueId_eq hv hq, hlow, freeLoop_ends hb (by omega) (by omega), Nat.add_sub_cancel_left]
  rfl

theorem consumeQueue_diverges {q : ℕ} (hv : vm < 512) (hq : q < maxQueuesPerVm)
    (hb : 2 ^ 16 ≤ rxQueueIndex vm q * burstSize + (d.rxQueues (rxQueueIndex vm q)).nbBufsUsed) :
    consumeQueue fuel vm q d = none := by
  unfold consumeQueue
  dsimp only
  rw [getRxQueueId_eq hv hq, freeLoop_diverges hb (Nat.mod_lt _ (by decide))]
  rfl

theorem consumeQueues_ends (hv : vm < 512) (hd : Holds vm maxQueuesPerVm bursts d)
    (hb : ∀ q, (bursts q).length ≤ burstSize) (hn : n ≤ maxQueuesPerVm)
    (hf : ∀ q < n, rxQueueIndex vm q * burstSize + (bursts q).length < 2 ^ 16) :
    ∃ d', consumeQueues (burstSize + 1) vm d n = some (d', (List.range n).flatMap bursts) ∧ d'.bufs = d.bufs ∧
      (∀ q < n, (d'.rxQueues (rxQueueIndex vm q)).nbBufsUsed = 0) ∧
      ∀ k, (∀ q < n, k ≠ rxQueueIndex vm q) → d'.rxQueues k = d.rxQueues k := by
  induction n with
  | zero => exact ⟨d, rfl, rfl, nofun, fun _ _ => rfl⟩
  | succ n ih =>
    obtain ⟨d1, h1, hbufs, hzero, hkeep⟩ := ih (by omega) fun q hq => hf q (Nat.lt_succ_of_lt hq)
    have hne : ∀ q < n, rxQueueIndex vm n ≠ rxQueueIndex vm q := fun q hq => rxQueueIndex_ne (by omega)
    have hused : (d1.rxQueues (rxQueueIndex vm n)).nbBufsUsed = (bursts n).length := by
      rw [hkeep _ hne]
      exact hd.used n (by omega)
    have h2 := consumeQueue_ends (d := d1) (q := n) hv (by omega) (by rw [hused]; exact hb n)
      (by rw [hused]; exact hf n (Nat.lt_succ_self n))
    rw [hused, hbufs, hd.bufs n (by omega)] at h2
    refine ⟨d1.clear (rxQueueIndex vm n), ?_, hbufs, fun q hq => ?_, fun k hk => ?_⟩
    · simp only [consumeQueues, h1, h2, List.range_succ, List.flatMap_append, List.flatMap_singleton, Option.bind_some,
        bind, pure]
    · rcases Nat.lt_succ_iff_lt_or_eq.mp hq with hq | rfl
      · rw [Dpdk.clear_ne _ (hne q hq).symm]
        exact hzero q hq
      · exact Dpdk.clear_self _ _
    · rw [Dpdk.clear_ne _ (hk n (Nat.lt_succ_self n))]
      exact hkeep k fun q hq => hk q (Nat.lt_succ_of_lt hq)

theorem consumeQueues_succ {freed : List Mbuf} (h : consumeQueues fuel vm d (n + 1) = some (d', freed)) :
    ∃ d1 freed1 more, consumeQueues fuel vm d n = some (d1, freed1) ∧ consumeQueue fuel vm n d1 = some (d', more) := by
  rw [consumeQueues] at h
  obtain ⟨⟨d1, freed1⟩, h1, h⟩ := Option.bind_eq_some_iff.mp h
  obtain ⟨⟨d2, more⟩, h2, h⟩ := Option.bind_eq_some_iff.mp h
  obtain ⟨rfl, -⟩ := Prod.mk.inj (Option.some.inj h)
  exact ⟨d1, freed1, more, h1, h2⟩

theorem consumeQueue_some {q : ℕ} {freed : List Mbuf} (h : consumeQueue fuel vm q d = some (d', freed)) :
    d' = d.clear (rxQueueIndex vm q) := by
  obtain ⟨l, -, he⟩ := Option.map_eq_some_iff.mp h
  exact (Prod.mk.inj he).1.symm

theorem consumeQueues_others {freed : List Mbuf} (h : consumeQueues fuel vm d n = some (d', freed)) :
    ∀ k, (∀ q < n, k ≠ rxQueueIndex vm q) → d'.rxQueues k = d.rxQueues k := by
  induction n generalizing d' freed with
  | zero =>
    obtain ⟨rfl, -⟩ := Prod.mk.inj (Option.some.inj h)
    exact fun _ _ => rfl
  | succ n ih =>
    intro k hk
    obtain ⟨d1, freed1, more, h1, h2⟩ := consumeQueues_succ h
    rw [consumeQueue_some h2, Dpdk.clear_ne _ (hk n (Nat.lt_succ_self n))]
    exact ih h1 k fun q hq => hk q (Nat.lt_succ_of_lt hq)

theorem consumeQueues_cleared {freed : List Mbuf} (h : consumeQueues fuel vm d n = some (d', freed)) :
    ∀ q < n, (d'.rxQueues (rxQueueIndex vm q)).nbBufsUsed = 0 := by
  induction n generalizing d' freed with
  | zero => nofun
  | succ n ih =>
    intro q hq
    obtain ⟨d1, freed1, more, h1, h2⟩ := consumeQueues_succ h
    rw [consumeQueue_some h2]
    rcases Nat.lt_succ_iff_lt_or_eq.mp hq with hq | rfl
    · rw [Dpdk.clear_ne _ (rxQueueIndex_ne (by omega))]
      exact ih h1 q hq
    · exact Dpdk.clear_self _ _

/-- With 512 VMs the buffers of the last queue end at `2 ^ 16`. -/
theorem recvConsumed_diverges (hd : Holds 511 maxQueuesPerVm bursts d) (hf : (bursts 3).length = burstSize) :
    recvConsumed fuel 511 d = none := by
  rw [recvConsumed, Option.eq_none_iff_forall_ne_some]
  rintro ⟨d', freed⟩ h
  obtain ⟨d1, freed1, more, h1, h2⟩ := consumeQueues_succ h
  have hkeep := consumeQueues_others h1 (rxQueueIndex 511 3) fun q hq => rxQueueIndex_ne (Nat.ne_of_gt hq)
  have hnone : consumeQueue fuel 511 3 d1 = none := by
    apply consumeQueue_diverges (by decide) (by decide)
    rw [hkeep, hd.used 3 (by decide), hf]
    decide
  rw [hnone] at h2
  cases h2

theorem conserved_of_fits (hv : vm < 512) (hd : Holds vm maxQueuesPerVm bursts d)
    (hb : ∀ q, (bursts q).length ≤ burstSize) (hf : vm = 511 → (bursts 3).length < burstSize) :
    Conserved vm bursts d := by
  have hfits : ∀ q < maxQueuesPerVm, rxQueueIndex vm q * burstSize + (bursts q).length < 2 ^ 16 := by
    intro q hq
    have hq' := hb q
    unfold rxQueueIndex maxQueuesPerVm burstSize at *
    by_cases hlast : vm = 511 ∧ q = 3
    · obtain ⟨rfl, rfl⟩ := hlast
      have hlt := hf rfl
      omega
    · omega
  obtain ⟨d', h1, -, h2, h3⟩ := consumeQueues_ends hv hd hb (le_refl _) hfits
  refine ⟨_, d', h1, h2, fun k hk => ?_⟩
  rw [h3 k hk]

/-- Between the calls no queue holds anything. -/
def Inv (numVms : ℕ) (s : State) : Prop :=
  match s.pending with
  | none => ∀ k, (s.dpdk.rxQueues k).nbBufsUsed = 0
  | some (vm, bursts) => vm < numVms ∧ Holds vm maxQueuesPerVm bursts s.dpdk ∧ ∀ q, (bursts q).length ≤ burstSize

theorem Inv.step {numVms : ℕ} {s t : State} (hn : maxQueuesPerVm * numVms ≤ 2048) (h : Inv numVms s)
    (hs : Step numVms s t) : Inv numVms t := by
  unfold Inv at h
  cases hs with
  | recv vm bursts d hp hv hb hr =>
    rw [hp] at h
    unfold maxQueuesPerVm at hn
    exact ⟨hv, recvQueues_holds (by omega) hb h (le_refl _) hr, hb⟩
  | recvConsumed vm fuel bursts d freed hp hc =>
    rw [hp] at h
    obtain ⟨hv, hd, hb⟩ := h
    intro k
    by_cases hk : ∃ q < maxQueuesPerVm, k = rxQueueIndex vm q
    · obtain ⟨q, hq, rfl⟩ := hk
      exact consumeQueues_cleared hc q hq
    · have hk' : ∀ q < maxQueuesPerVm, k ≠ rxQueueIndex vm q := fun q hq he => hk ⟨q, hq, he⟩
      dsimp only
      rw [consumeQueues_others hc k hk']
      exact hd.others k hk'
  | mediate m =>
    unfold Inv
    cases hp : s.pending with
    | none =>
      rw [hp] at h
      exact h
    | some x =>
      rw [hp] at h
      exact ⟨h.1, ⟨h.2.1.used, h.2.1.bufs, h.2.1.others⟩, h.2.2⟩

theorem Inv.reachable {numVms : ℕ} {s : State} (hn : maxQueuesPerVm * numVms ≤ 2048)
    (h : (driver numVms).Reachable s) : Inv numVms s := by
  refine Machine.Reachable.invariant (fun s hs => ?_) (fun s t hi hs => hi.step hn hs) h
  unfold Inv
  rw [hs.1]
  exact hs.2

theorem recvQueues_fit (hf : ∀ q, ∀ m ∈ bursts q, ¬Unfit m) : ∃ d', recvQueues vm bursts d n = .ok d' := by
  induction n with
  | zero => exact ⟨d, rfl⟩
  | succ n ih =>
    obtain ⟨d1, h1⟩ := ih
    rw [recvQueues, h1]
    by_cases he : bursts n = []
    · exact ⟨_, if_pos he⟩
    · have hu : ¬∃ m ∈ bursts n, Unfit m := fun ⟨m, hm, hu⟩ => hf n m hm hu
      exact ⟨_, (if_neg he).trans (if_neg hu)⟩

theorem pending_reachable {numVms : ℕ} (hv : vm < numVms) (hb : ∀ q, (bursts q).length ≤ burstSize)
    (hf : ∀ q, ∀ m ∈ bursts q, ¬Unfit m) : ∃ d, (driver numVms).Reachable ⟨d, some (vm, bursts)⟩ := by
  have hstart : (driver numVms).Reachable ⟨⟨fun _ => ⟨0, 0, 0, 0⟩, fun _ => ⟨[], 0⟩, fun _ => false⟩, none⟩ :=
    .start ⟨rfl, fun _ => rfl⟩
  obtain ⟨d, hd⟩ := recvQueues_fit hf
  exact ⟨d, hstart.step (.recv vm bursts d rfl hv hb hd)⟩

/-- The buffers that a VM received are freed once each, unless they fill those of the last queue that
the port can have. -/
theorem rx_buffers_conserved_iff (numVms : ℕ) (hn : maxQueuesPerVm * numVms ≤ 2048) (s : State)
    (h : (driver numVms).Reachable s) (vm : ℕ) (bursts : ℕ → List Mbuf) (hp : s.pending = some (vm, bursts)) :
    Conserved vm bursts s.dpdk ↔ (vm = 511 → (bursts 3).length < burstSize) := by
  have hi := Inv.reachable hn h
  unfold Inv at hi
  rw [hp] at hi
  obtain ⟨hv, hd, hb⟩ := hi
  constructor
  · rintro ⟨fuel, d', hc, -⟩ rfl
    by_contra hlt
    have hle := hb 3
    rw [recvConsumed_diverges hd (by omega)] at hc
    cases hc
  · intro hf
    unfold maxQueuesPerVm at hn
    exact conserved_of_fits (by omega) hd hb hf

def packets (n : ℕ) : List Mbuf := (List.range n).map fun i => ⟨0x10000 + i * 0x900, 1, 60, 0x10080 + i * 0x900⟩

theorem rx_buffers_conserved_full : ∃ d, (driver 512).Reachable ⟨d, some (510, fun _ => packets 32)⟩ ∧
    Conserved 510 (fun _ => packets 32) d := by
  obtain ⟨d, hd⟩ := @pending_reachable 510 (fun _ => packets 32) 512 (by decide)
    (fun _ => by decide) fun _ => by decide
  exact ⟨d, hd, (rx_buffers_conserved_iff 512 (by decide) _ hd 510 _ rfl).mpr nofun⟩

/-- The last of 512 VMs gets full bursts on its queues. -/
theorem full_burst_never_consumed : ¬∀ numVms s vm bursts, maxQueuesPerVm * numVms ≤ 2048 →
    (driver numVms).Reachable s → s.pending = some (vm, bursts) → Conserved vm bursts s.dpdk := by
  intro hall
  obtain ⟨d, hd⟩ := @pending_reachable 511 (fun _ => packets 32) 512 (by decide)
    (fun _ => by decide) fun _ => by decide
  obtain ⟨fuel, d', hc, -⟩ := hall 512 _ 511 _ (by decide) hd rfl
  rw [recvConsumed_diverges (Inv.reachable (by decide) hd).2.1 rfl] at hc
  cases hc

end Vmux.ReceiveBuffers
