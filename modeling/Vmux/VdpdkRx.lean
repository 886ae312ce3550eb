import Vmux.DescriptorRing
import Vmux.DmaMap
import Vmux.Transitions

namespace Vmux.VdpdkRx

open Bytes Transitions DescriptorRing DmaMap

def maxRxQueues : ℕ := 4

def burstSize : ℕ := 32

/-- A started queue. Its `idx_mask` is `2 ^ bits - 1` and has 16 bits. -/
structure RxQueue where
  ringIova : ℕ
  bits : ℕ
  le : bits ≤ 16

/-- A packet that was put into the buffer of a descriptor: number of the call, queue of the driver,
then where it went and what the descriptor said. -/
structure Delivery where
  call : ℕ
  driver : ℕ
  frame : List UInt8
  queue : Fin maxRxQueues
  slot : ℕ
  iova : ℕ
  bufLen : ℕ
  addr : ℕ
deriving DecidableEq, Repr

/-- The packet `i` of the queue `driver`, and the ring that was loaded for it. -/
structure Cursor where
  driver : ℕ
  i : ℕ
  queue : Fin maxRxQueues
  ring : Ring
deriving DecidableEq, Repr

/-- Where `rx_callback_fn` is, with what it has read of the descriptor. -/
inductive Pc
  | idle
  | unloaded (driver i : ℕ)
  | loop (c : Cursor)
  | readIova (c : Cursor) (flags : ℕ)
  | readLen (c : Cursor) (flags iova : ℕ)
  | check (c : Cursor) (flags iova bufLen : ℕ)
  | copy (c : Cursor) (flags : ℕ) (d : Delivery)
  | writeLen (c : Cursor) (flags : ℕ) (d : Delivery)
  | release (c : Cursor) (flags : ℕ) (d : Delivery)

/-- `bursts` are the packets of the driver's queues at each call. `history` and `armed` record what
`rx_callback_fn` and the guest have done. -/
structure State where
  mem : Memory
  idx : Fin maxRxQueues → ℕ
  pc : Pc
  calls : ℕ
  bursts : ℕ → List (List (List UInt8))
  history : List Delivery
  armed : Fin maxRxQueues → ℕ → ℕ

section

variable (server : Server) (queues : Fin maxRxQueues → Option RxQueue)

/-- The queue with the index of the driver's, or queue 0 if that does not exist. -/
def target (driver : ℕ) : Fin maxRxQueues :=
  let k : Fin maxRxQueues := ⟨driver % maxRxQueues, Nat.mod_lt _ (by decide)⟩
  if (queues k).isSome then k else ⟨0, by decide⟩

def RxQueue.locate (q : RxQueue) : Except DescriptorQueue.Fault (Option ℕ) :=
  dmaLocalAddr server q.ringIova (2 ^ q.bits * descSize)

/-- The ring of a queue, if the queue was started and its ring is mapped. -/
def ring (k : Fin maxRxQueues) : Option Ring :=
  match queues k with
  | none => none
  | some q =>
    match q.locate server with
    | .ok (some base) => some ⟨base, q.bits⟩
    | _ => none

/-- The packets of a queue of the driver in the current call. -/
def State.frames (s : State) (driver : ℕ) : List (List UInt8) := (s.bursts s.calls).getD driver []

/-- The descriptor that `rx_callback_fn` looks at. -/
def State.slot (s : State) (c : Cursor) : ℕ := c.ring.slot (s.idx c.queue)

def State.leave (s : State) (driver : ℕ) : State := { s with pc := .unloaded (driver + 1) 0 }

def delivery (s : State) (c : Cursor) (frame : List UInt8) (iova bufLen addr : ℕ) : Delivery :=
  ⟨s.calls, c.driver, frame, c.queue, s.slot c, iova, bufLen, addr⟩

inductive PollStep (s : State) : State → Prop
  | call (burst : List (List (List UInt8))) (hp : s.pc = .idle) (hb : ∀ fs ∈ burst, fs.length ≤ burstSize) :
      PollStep s { s with
        pc := .unloaded 0 0
        calls := s.calls + 1
        bursts := Function.update s.bursts (s.calls + 1) burst }
  | done (q i : ℕ) (hp : s.pc = .unloaded q i) (hq : (s.bursts s.calls).length ≤ q) : PollStep s { s with pc := .idle }
  | empty (q i : ℕ) (hp : s.pc = .unloaded q i) (hq : q < (s.bursts s.calls).length)
      (hi : (s.frames q).length ≤ i) : PollStep s (s.leave q)
  | finished (c : Cursor) (hp : s.pc = .loop c) (hi : (s.frames c.driver).length ≤ c.i) :
      PollStep s (s.leave c.driver)
  | noQueue (q i : ℕ) (hp : s.pc = .unloaded q i) (hi : i < (s.frames q).length) (hn : queues (target queues q) = none) :
      PollStep s (s.leave q)
  | unmapped (q i : ℕ) (rxq : RxQueue) (hp : s.pc = .unloaded q i) (hi : i < (s.frames q).length)
      (hq : queues (target queues q) = some rxq) (hn : rxq.locate server = .ok none) : PollStep s (s.leave q)
  | load (q i : ℕ) (rxq : RxQueue) (base : ℕ) (hp : s.pc = .unloaded q i) (hi : i < (s.frames q).length)
      (hq : queues (target queues q) = some rxq) (hr : rxq.locate server = .ok (some base)) :
      PollStep s { s with pc := .loop ⟨q, i, target queues q, ⟨base, rxq.bits⟩⟩ }
  | unavailable (c : Cursor) (hp : s.pc = .loop c) (hi : c.i < (s.frames c.driver).length)
      (ha : c.ring.flags s.mem (s.slot c) % 2 = 0) : PollStep s (s.leave c.driver)
  | available (c : Cursor) (hp : s.pc = .loop c) (hi : c.i < (s.frames c.driver).length)
      (ha : c.ring.flags s.mem (s.slot c) % 2 = 1) :
      PollStep s { s with pc := .readIova c (c.ring.flags s.mem (s.slot c)) }
  | readIova (c : Cursor) (f : ℕ) (hp : s.pc = .readIova c f) :
      PollStep s { s with pc := .readLen c f (c.ring.iova s.mem (s.slot c)) }
  | readLen (c : Cursor) (f a : ℕ) (hp : s.pc = .readLen c f a) :
      PollStep s { s with pc := .check c f a (c.ring.len s.mem (s.slot c)) }
  | invalidIova (c : Cursor) (f a n : ℕ) (hp : s.pc = .check c f a n) (ht : dmaLocalAddr server a n = .ok none) :
      PollStep s (s.leave c.driver)
  | tooLarge (c : Cursor) (f a n addr : ℕ) (frame : List UInt8) (hp : s.pc = .check c f a n)
      (ht : dmaLocalAddr server a n = .ok (some addr)) (hf : (s.frames c.driver)[c.i]? = some frame)
      (hl : n < frame.length ∨ frame.length % 2 ^ 16 < frame.length) : PollStep s (s.leave c.driver)
  | fits (c : Cursor) (f a n addr : ℕ) (frame : List UInt8) (hp : s.pc = .check c f a n)
      (ht : dmaLocalAddr server a n = .ok (some addr)) (hf : (s.frames c.driver)[c.i]? = some frame)
      (hl : frame.length ≤ n) (hw : frame.length ≤ frame.length % 2 ^ 16) :
      PollStep s { s with pc := .copy c f (delivery s c frame a n addr) }
  | copy (c : Cursor) (f : ℕ) (d : Delivery) (hp : s.pc = .copy c f d) :
      PollStep s { s with mem := store s.mem d.addr d.frame, pc := .writeLen c f d }
  | writeLen (c : Cursor) (f : ℕ) (d : Delivery) (hp : s.pc = .writeLen c f d) :
      PollStep s { s with mem := c.ring.setLen s.mem (s.slot c) d.frame.length, pc := .release c f d }
  | release (c : Cursor) (f : ℕ) (d : Delivery) (hp : s.pc = .release c f d) : PollStep s { s with
      mem := c.ring.release s.mem (s.slot c) f
      idx := Function.update s.idx c.queue ((s.idx c.queue + 1) % 2 ^ 16)
      pc := .loop { c with i := (c.i + 1) % 2 ^ 16 }
      history := s.history ++ [d] }

/-- The guest arms descriptors that it owns, in any order. What it does apart from that leaves the
descriptors of `rx_callback_fn`, and who owns which, as they are. -/
inductive GuestStep (s : State) : State → Prop
  | arm (k : Fin maxRxQueues) (r : Ring) (i : ℕ) (mem' : Memory) (hk : ring server queues k = some r) (hi : i < r.count)
      (hc : r.avail s.mem i = false) (ha : r.avail mem' i = true)
      (hm : ∀ x, x < r.desc i ∨ r.desc i + descSize ≤ x → mem' x = s.mem x) :
      GuestStep s { s with
        mem := mem'
        armed := Function.update s.armed k (Function.update (s.armed k) i (s.armed k i + 1)) }
  | edit (mem' : Memory) (hk : ∀ k r i, ring server queues k = some r → i < r.count →
      (r.avail s.mem i = true → SameDesc r s.mem mem' i) ∧ r.avail mem' i = r.avail s.mem i) :
      GuestStep s { s with mem := mem' }

structure Start (s : State) : Prop where
  avail : ∀ k r i, ring server queues k = some r → i < r.count → r.avail s.mem i = false
  idx : ∀ k, s.idx k = 0
  pc : s.pc = .idle
  bursts : s.bursts = fun _ => []
  history : s.history = []
  armed : ∀ k i, s.armed k i = 0

/-- Guests that keep `ok` true of their memory. -/
def rxRings (ok : Memory → Prop) : Machine State where
  start := Start server queues
  step s t := PollStep server queues s t ∨ GuestStep server queues s t ∧ ok t.mem

def Outside (r : Ring) (addr n : ℕ) : Prop := addr + n ≤ r.base ∨ r.base + r.count * descSize ≤ addr

def RingsApart : Prop :=
  ∀ k l r r', k ≠ l → ring server queues k = some r → ring server queues l = some r' →
    Outside r r'.base (r'.count * descSize)

/-- No buffer of an armed descriptor overlaps a ring. -/
def BuffersApart (mem : Memory) : Prop :=
  ∀ k r i addr, ring server queues k = some r → i < r.count → r.avail mem i = true →
    dmaLocalAddr server (r.iova mem i) (r.len mem i) = .ok (some addr) →
    ∀ l r', ring server queues l = some r' → Outside r' addr (r.len mem i)

end

/-- The packets that one call has delivered from one queue of the driver. -/
def framesOf (history : List Delivery) (call driver : ℕ) : List (List UInt8) :=
  (history.filter fun d => d.call = call ∧ d.driver = driver).map Delivery.frame

/-- The descriptors that the packets for a queue went to. -/
def slotsOf (history : List Delivery) (k : Fin maxRxQueues) : List ℕ :=
  (history.filter fun d => d.queue = k).map Delivery.slot

section

variable (server : Server) (queues : Fin maxRxQueues → Option RxQueue)

/-- So far the call has delivered the first `i` packets of this queue of the driver, and none of the
queues after it. -/
def Position (s : State) (driver i : ℕ) : Prop :=
  framesOf s.history s.calls driver = (s.frames driver).take i ∧ i ≤ (s.frames driver).length ∧
    ∀ q, driver < q → framesOf s.history s.calls q = []

def At (s : State) (c : Cursor) : Prop :=
  Position s c.driver c.i ∧ c.queue = target queues c.driver ∧ ring server queues c.queue = some c.ring

/-- The descriptor that `rx_callback_fn` looks at is armed, and these are its flags. -/
def Owns (s : State) (c : Cursor) (flags : ℕ) : Prop :=
  c.ring.avail s.mem (s.slot c) = true ∧ flags = c.ring.flags s.mem (s.slot c)

structure Fits (s : State) (c : Cursor) (d : Delivery) : Prop where
  eq : d = delivery s c d.frame d.iova d.bufLen d.addr
  frame : (s.frames c.driver)[c.i]? = some d.frame
  len : d.frame.length ≤ d.bufLen
  word : d.frame.length < 2 ^ 16
  addr : dmaLocalAddr server d.iova d.bufLen = .ok (some d.addr)

/-- What `rx_callback_fn` has read is what the descriptor says now. -/
def Reads (s : State) : Pc → Prop
  | .idle => True
  | .unloaded q i => Position s q i
  | .loop c => At server queues s c
  | .readIova c f => At server queues s c ∧ Owns s c f
  | .readLen c f a => At server queues s c ∧ Owns s c f ∧ a = c.ring.iova s.mem (s.slot c)
  | .check c f a n => At server queues s c ∧ Owns s c f ∧ a = c.ring.iova s.mem (s.slot c) ∧
      n = c.ring.len s.mem (s.slot c)
  | .copy c f d | .writeLen c f d => At server queues s c ∧ Owns s c f ∧ Fits server s c d ∧
      d.iova = c.ring.iova s.mem (s.slot c) ∧ d.bufLen = c.ring.len s.mem (s.slot c)
  | .release c f d => At server queues s c ∧ Owns s c f ∧ Fits server s c d ∧
      c.ring.len s.mem (s.slot c) = d.frame.length

/-- The packet went to the right queue and fits into the buffer of the descriptor. -/
structure Proper (d : Delivery) : Prop where
  queue : d.queue = target queues d.driver
  len : d.frame.length ≤ d.bufLen
  addr : dmaLocalAddr server d.iova d.bufLen = .ok (some d.addr)

/-- What does not depend on memory. -/
structure Recorded (s : State) : Prop where
  burst : ∀ c, ∀ fs ∈ s.bursts c, fs.length ≤ burstSize
  calls : ∀ d ∈ s.history, d.call ≤ s.calls
  idx : ∀ k, s.idx k = (slotsOf s.history k).length % 2 ^ 16
  slots : ∀ k r, ring server queues k = some r →
    slotsOf s.history k = (List.range (slotsOf s.history k).length).map (· % r.count)
  frames : ∀ c q, framesOf s.history c q <+: (s.bursts c).getD q []
  proper : ∀ d ∈ s.history, Proper server queues d

/-- Every arming is used up by one packet, or the descriptor is still armed. -/
def Accounted (s : State) : Prop :=
  ∀ k r i, ring server queues k = some r → i < r.count →
    s.armed k i = (slotsOf s.history k).count i + if r.avail s.mem i then 1 else 0

structure Inv (s : State) : Prop where
  apart : BuffersApart server queues s.mem
  recorded : Recorded server queues s
  accounted : Accounted server queues s
  reads : Reads server queues s s.pc

end

variable {server : Server} {queues : Fin maxRxQueues → Option RxQueue} {s t : State} {c : Cursor}

theorem framesOf_concat (history : List Delivery) (d : Delivery) (call q : ℕ) :
    framesOf (history ++ [d]) call q =
      framesOf history call q ++ if d.call = call ∧ d.driver = q then [d.frame] else [] := by
  unfold framesOf
  rw [List.filter_append, List.map_append]
  congr 1
  by_cases h : d.call = call ∧ d.driver = q
  · simp [h]
  · simp [h]

theorem slotsOf_concat (history : List Delivery) (d : Delivery) (k : Fin maxRxQueues) :
    slotsOf (history ++ [d]) k = slotsOf history k ++ if d.queue = k then [d.slot] else [] := by
  unfold slotsOf
  rw [List.filter_append, List.map_append]
  congr 1
  by_cases h : d.queue = k
  · simp [h]
  · simp [h]

theorem framesOf_later {history : List Delivery} {n : ℕ} (h : ∀ d ∈ history, d.call ≤ n) (q : ℕ) :
    framesOf history (n + 1) q = [] := by
  unfold framesOf
  rw [List.map_eq_nil_iff, List.filter_eq_nil_iff]
  intro d hd heq
  have hle := h d hd
  have hcall := (of_decide_eq_true heq).1
  omega

theorem ring_bits {k : Fin maxRxQueues} {r : Ring} (h : ring server queues k = some r) : r.bits ≤ 16 := by
  unfold ring at h
  split at h
  · cases h
  · rename_i q _
    split at h
    · cases h
      exact q.le
    · cases h

theorem slot_lt (s : State) (c : Cursor) : s.slot c < c.ring.count := by
  rw [State.slot, slot_eq_mod]
  exact Nat.mod_lt _ (count_pos _)

theorem RingsApart.desc (h : RingsApart server queues) {k l : Fin maxRxQueues} {r r' : Ring} {i j : ℕ}
    (hk : ring server queues k = some r) (hl : ring server queues l = some r') (hi : i < r.count) (hj : j < r'.count)
    (hne : k = l → i ≠ j) : r.desc i + descSize ≤ r'.desc j ∨ r'.desc j + descSize ≤ r.desc i := by
  by_cases hkl : k = l
  · subst hkl
    rw [hk] at hl
    cases hl
    exact desc_apart r (hne rfl)
  · obtain ⟨h1, h2⟩ := desc_in_ring hi
    obtain ⟨h3, h4⟩ := desc_in_ring hj
    rcases h k l r r' hkl hk hl with h | h
    · omega
    · omega

theorem RingsApart.sameDesc (h : RingsApart server queues) {k l : Fin maxRxQueues} {r r' : Ring} {i j : ℕ}
    {mem mem' : Memory} (hk : ring server queues k = some r) (hl : ring server queues l = some r') (hi : i < r.count)
    (hj : j < r'.count) (hne : k = l → i ≠ j)
    (hm : ∀ x, x < r.desc i ∨ r.desc i + descSize ≤ x → mem' x = mem x) : SameDesc r' mem mem' j :=
  sameDesc_outside hm (h.desc hk hl hi hj hne)

theorem Position.leave {q i : ℕ} (h : Position s q i) : Position s (q + 1) 0 := by
  obtain ⟨-, -, h⟩ := h
  refine ⟨?_, Nat.zero_le _, fun q' hq' => h q' (by omega)⟩
  rw [h (q + 1) (Nat.lt_succ_self q), List.take_zero]

theorem Reads.guest {mem' : Memory} {armed : Fin maxRxQueues → ℕ → ℕ} {pc pc' : Pc} (h : Reads server queues s pc)
    (hs : ∀ k r i, ring server queues k = some r → i < r.count → r.avail s.mem i = true → SameDesc r s.mem mem' i) :
    Reads server queues { s with mem := mem', armed, pc := pc' } pc := by
  have hsame : ∀ {c : Cursor} {f : ℕ}, At server queues s c → Owns s c f →
      SameDesc c.ring s.mem mem' (s.slot c) :=
    fun ha ho => hs _ _ _ ha.2.2 (slot_lt _ _) ho.1
  have howns : ∀ {c : Cursor} {f : ℕ}, At server queues s c → Owns s c f →
      Owns { s with mem := mem', armed, pc := pc' } c f :=
    fun ha ho => ⟨(hsame ha ho).avail_eq.trans ho.1, ho.2.trans (hsame ha ho).flags_eq.symm⟩
  cases pc with
  | idle => trivial
  | unloaded q i => exact h
  | loop c => exact h
  | readIova c f => exact ⟨h.1, howns h.1 h.2⟩
  | readLen c f a =>
    obtain ⟨ha, ho, hiova⟩ := h
    exact ⟨ha, howns ha ho, hiova.trans (hsame ha ho).iova_eq.symm⟩
  | check c f a n =>
    obtain ⟨ha, ho, hiova, hlen⟩ := h
    exact ⟨ha, howns ha ho, hiova.trans (hsame ha ho).iova_eq.symm, hlen.trans (hsame ha ho).len_eq.symm⟩
  | copy c f d =>
    obtain ⟨ha, ho, ⟨he, hf, hl, hw, hd⟩, hiova, hlen⟩ := h
    exact ⟨ha, howns ha ho, ⟨he, hf, hl, hw, hd⟩, hiova.trans (hsame ha ho).iova_eq.symm,
      hlen.trans (hsame ha ho).len_eq.symm⟩
  | writeLen c f d =>
    obtain ⟨ha, ho, ⟨he, hf, hl, hw, hd⟩, hiova, hlen⟩ := h
    exact ⟨ha, howns ha ho, ⟨he, hf, hl, hw, hd⟩, hiova.trans (hsame ha ho).iova_eq.symm,
      hlen.trans (hsame ha ho).len_eq.symm⟩
  | release c f d =>
    obtain ⟨ha, ho, ⟨he, hf, hl, hw, hd⟩, hlen⟩ := h
    exact ⟨ha, howns ha ho, ⟨he, hf, hl, hw, hd⟩, (hsame ha ho).len_eq.trans hlen⟩

theorem Recorded.keep (h : Recorded server queues s) (mem : Memory) (pc : Pc) (armed : Fin maxRxQueues → ℕ → ℕ) :
    Recorded server queues { s with mem, pc, armed } :=
  ⟨h.burst, h.calls, h.idx, h.slots, h.frames, h.proper⟩

theorem Inv.setPc (h : Inv server queues s) {pc : Pc} (hr : Reads server queues { s with pc } pc) :
    Inv server queues { s with pc } :=
  ⟨h.apart, h.recorded.keep _ _ _, h.accounted, hr⟩

theorem Inv.leave (h : Inv server queues s) {q i : ℕ} (hp : Position s q i) : Inv server queues (s.leave q) :=
  h.setPc hp.leave

theorem Inv.setMem (h : Inv server queues s) {mem' : Memory} {pc : Pc} (hb : BuffersApart server queues mem')
    (ha : ∀ k r i, ring server queues k = some r → i < r.count → r.avail mem' i = r.avail s.mem i)
    (hr : Reads server queues { s with mem := mem', pc } pc) : Inv server queues { s with mem := mem', pc } := by
  refine ⟨hb, h.recorded.keep _ _ _, fun k r i hk hi => ?_, hr⟩
  dsimp only
  rw [ha k r i hk hi]
  exact h.accounted k r i hk hi

theorem Inv.edit (h : Inv server queues s) {mem' : Memory} (hb : BuffersApart server queues mem')
    (hk : ∀ k r i, ring server queues k = some r → i < r.count →
      (r.avail s.mem i = true → SameDesc r s.mem mem' i) ∧ r.avail mem' i = r.avail s.mem i) :
    Inv server queues { s with mem := mem' } :=
  h.setMem hb (fun k r i hr hi => (hk k r i hr hi).2) (h.reads.guest fun k r i hr hi => (hk k r i hr hi).1)

theorem Inv.arm (h : Inv server queues s) (hapart : RingsApart server queues) {mem' : Memory} {k : Fin maxRxQueues}
    {r : Ring} {i : ℕ} (hb : BuffersApart server queues mem') (hk : ring server queues k = some r) (hi : i < r.count)
    (hc : r.avail s.mem i = false) (ha : r.avail mem' i = true)
    (hm : ∀ x, x < r.desc i ∨ r.desc i + descSize ≤ x → mem' x = s.mem x) :
    Inv server queues { s with
      mem := mem'
      armed := Function.update s.armed k (Function.update (s.armed k) i (s.armed k i + 1)) } := by
  have hother : ∀ l r' j, ring server queues l = some r' → j < r'.count → (k = l → i ≠ j) → SameDesc r' s.mem mem' j :=
    fun l r' j hl hj hne => hapart.sameDesc hk hl hi hj hne hm
  refine ⟨hb, h.recorded.keep _ _ _, fun l r' j hl hj => ?_, h.reads.guest fun l r' j hl hj hav => ?_⟩
  · dsimp only
    have hacc := h.accounted l r' j hl hj
    by_cases hlj : k = l ∧ i = j
    · obtain ⟨rfl, rfl⟩ := hlj
      rw [hk] at hl
      cases hl
      rw [hc] at hacc
      rw [Function.update_self, Function.update_self, hacc, ha]
      rfl
    · rw [(hother l r' j hl hj fun h1 h2 => hlj ⟨h1, h2⟩).avail_eq, ← hacc]
      by_cases hkl : l = k
      · subst hkl
        rw [Function.update_self, Function.update_of_ne fun h2 => hlj ⟨rfl, h2.symm⟩]
      · rw [Function.update_of_ne hkl]
  · apply hother l r' j hl hj
    rintro rfl rfl
    rw [hk] at hl
    cases hl
    rw [hc] at hav
    cases hav

theorem findSegment_unique {a n m x y : ℕ} (segments : List (ℕ × Iovec)) (h1 : findSegment a n segments = .ok (some x))
    (h2 : findSegment a m segments = .ok (some y)) : x = y := by
  induction segments with
  | nil => cases h1
  | cons p rest ih =>
    simp only [findSegment] at h1 h2
    by_cases hin : p.1 ≤ a ∧ a < (p.1 + p.2.len) % word
    · rw [if_pos hin] at h1 h2
      split at h1
      · cases h1
      · split at h2
        · cases h2
        · cases h1
          cases h2
          rfl
    · rw [if_neg hin] at h1 h2
      exact ih h1 h2

theorem BuffersApart.outside (h : BuffersApart server queues s.mem) {f : ℕ} {d : Delivery} (ha : At server queues s c)
    (ho : Owns s c f) (hd : Fits server s c d) (hiova : d.iova = c.ring.iova s.mem (s.slot c))
    (hlen : d.bufLen = c.ring.len s.mem (s.slot c)) {l : Fin maxRxQueues} {r : Ring} (hl : ring server queues l = some r) :
    Outside r d.addr d.bufLen := by
  have haddr := hd.addr
  rw [hiova, hlen] at haddr
  rw [hlen]
  exact h _ _ _ _ ha.2.2 (slot_lt s c) ho.1 haddr l r hl

theorem sameDesc_copy {r : Ring} {i : ℕ} {d : Delivery} (hlen : d.frame.length ≤ d.bufLen) (hi : i < r.count)
    (h : Outside r d.addr d.bufLen) (mem : Memory) : SameDesc r mem (store mem d.addr d.frame) i := by
  obtain ⟨h1, h2⟩ := desc_in_ring hi
  have hstore : ∀ x, x < d.addr ∨ d.addr + d.frame.length ≤ x → store mem d.addr d.frame x = mem x :=
    fun x hx => store_outside hx
  apply sameDesc_outside hstore
  rcases h with h | h
  · omega
  · omega

theorem Inv.copy (h : Inv server queues s) {f : ℕ} {d : Delivery} (hp : s.pc = .copy c f d) :
    Inv server queues { s with mem := store s.mem d.addr d.frame, pc := .writeLen c f d } := by
  have hreads := h.reads
  rw [hp] at hreads
  obtain ⟨ha, ho, hd, hiova, hlen⟩ := hreads
  have hsame : ∀ l r i, ring server queues l = some r → i < r.count →
      SameDesc r s.mem (store s.mem d.addr d.frame) i :=
    fun l r i hl hi => sameDesc_copy hd.len hi (h.apart.outside ha ho hd hiova hlen hl) s.mem
  apply h.setMem
  · intro k r i addr hk hi hav haddr
    rw [(hsame k r i hk hi).avail_eq] at hav
    rw [(hsame k r i hk hi).iova_eq, (hsame k r i hk hi).len_eq] at haddr
    rw [(hsame k r i hk hi).len_eq]
    exact h.apart k r i addr hk hi hav haddr
  · intro k r i hk hi
    exact (hsame k r i hk hi).avail_eq
  · have hread : Reads server queues s (.writeLen c f d) := ⟨ha, ho, hd, hiova, hlen⟩
    exact hread.guest fun k r i hk hi _ => hsame k r i hk hi

theorem Inv.writeLen (h : Inv server queues s) (hapart : RingsApart server queues) {f : ℕ} {d : Delivery}
    (hp : s.pc = .writeLen c f d) :
    Inv server queues { s with mem := c.ring.setLen s.mem (s.slot c) d.frame.length, pc := .release c f d } := by
  have hreads := h.reads
  rw [hp] at hreads
  obtain ⟨ha, ho, hd, hiova, hlen⟩ := hreads
  have hother : ∀ l r i, ring server queues l = some r → i < r.count → (c.queue = l → s.slot c ≠ i) →
      SameDesc r s.mem (c.ring.setLen s.mem (s.slot c) d.frame.length) i :=
    fun l r i hl hi hne => hapart.sameDesc ha.2.2 hl (slot_lt s c) hi hne fun x hx => setLen_outside _ _ _ _ hx
  apply h.setMem
  · intro k r i addr hk hi hav haddr l r' hl
    by_cases hki : c.queue = k ∧ s.slot c = i
    · obtain ⟨rfl, rfl⟩ := hki
      rw [ha.2.2] at hk
      cases hk
      rw [iova_setLen, len_setLen _ _ _ hd.word, ← hiova] at haddr
      rw [len_setLen _ _ _ hd.word]
      have hout := h.apart.outside ha ho hd hiova hlen hl
      have haddr' := findSegment_unique _ haddr hd.addr
      have hle := hd.len
      unfold Outside at hout ⊢
      omega
    · have hsame := hother k r i hk hi fun h1 h2 => hki ⟨h1, h2⟩
      rw [hsame.avail_eq] at hav
      rw [hsame.iova_eq, hsame.len_eq] at haddr
      rw [hsame.len_eq]
      exact h.apart k r i addr hk hi hav haddr l r' hl
  · intro k r i hk hi
    by_cases hki : c.queue = k ∧ s.slot c = i
    · obtain ⟨rfl, rfl⟩ := hki
      rw [ha.2.2] at hk
      cases hk
      exact avail_setLen _ _ _ _
    · exact (hother k r i hk hi fun h1 h2 => hki ⟨h1, h2⟩).avail_eq
  · refine ⟨ha, ⟨?_, ?_⟩, ⟨hd.eq, hd.frame, hd.len, hd.word, hd.addr⟩, len_setLen _ _ _ hd.word⟩
    · exact (avail_setLen _ _ _ _).trans ho.1
    · exact ho.2.trans (flags_setLen _ _ _ _).symm

theorem Recorded.slot_eq (h : Recorded server queues s) (ha : At server queues s c) :
    s.slot c = (slotsOf s.history c.queue).length % c.ring.count := by
  rw [State.slot, h.idx, slot_wrap (ring_bits ha.2.2)]

theorem Recorded.frames_lt (h : Recorded server queues s) (q : ℕ) : (s.frames q).length < 2 ^ 16 := by
  have hsize : burstSize < 2 ^ 16 := by decide
  unfold State.frames
  rw [List.getD_eq_getElem?_getD]
  cases hq : (s.bursts s.calls)[q]? with
  | none => exact Nat.two_pow_pos 16
  | some fs => exact (h.burst _ fs (List.mem_of_getElem? hq)).trans_lt hsize

theorem Position.deliver {d : Delivery} (h : Position s c.driver c.i) (hd : Fits server s c d) (mem : Memory)
    (idx : Fin maxRxQueues → ℕ) (pc : Pc) :
    Position { s with mem, idx, pc, history := s.history ++ [d] } c.driver (c.i + 1) := by
  obtain ⟨h1, h2, h3⟩ := h
  have hcall : d.call = s.calls := congrArg Delivery.call hd.eq
  have hdriver : d.driver = c.driver := congrArg Delivery.driver hd.eq
  refine ⟨?_, ?_, fun q hq => ?_⟩
  · change framesOf (s.history ++ [d]) s.calls c.driver = (s.frames c.driver).take (c.i + 1)
    rw [framesOf_concat, if_pos ⟨hcall, hdriver⟩, h1, List.take_add_one, hd.frame]
    rfl
  · exact (List.getElem?_eq_some_iff.mp hd.frame).1
  · change framesOf (s.history ++ [d]) s.calls q = []
    rw [framesOf_concat, if_neg, h3 q hq, List.append_nil]
    omega

theorem Recorded.deliver (h : Recorded server queues s) {d : Delivery} (ha : At server queues s c)
    (hd : Fits server s c d) (mem : Memory) (pc : Pc) :
    Recorded server queues { s with
      mem, pc
      idx := Function.update s.idx c.queue ((s.idx c.queue + 1) % 2 ^ 16)
      history := s.history ++ [d] } := by
  have hqueue : d.queue = c.queue := congrArg Delivery.queue hd.eq
  have hslot : d.slot = s.slot c := congrArg Delivery.slot hd.eq
  have hdriver : d.driver = c.driver := congrArg Delivery.driver hd.eq
  have hcall : d.call = s.calls := congrArg Delivery.call hd.eq
  have hto : slotsOf (s.history ++ [d]) c.queue = slotsOf s.history c.queue ++ [s.slot c] := by
    rw [slotsOf_concat, if_pos hqueue, hslot]
  have hothers : ∀ k, k ≠ c.queue → slotsOf (s.history ++ [d]) k = slotsOf s.history k := by
    intro k hk
    rw [slotsOf_concat, if_neg (by rw [hqueue]; exact hk.symm), List.append_nil]
  refine ⟨h.burst, fun x hx => ?_, fun k => ?_, fun k r hr => ?_, fun n q => ?_, fun x hx => ?_⟩
  · rcases List.mem_append.mp hx with hx | hx
    · exact h.calls x hx
    · rw [List.mem_singleton.mp hx, hcall]
  · dsimp only
    by_cases hk : k = c.queue
    · subst hk
      rw [Function.update_self, hto, h.idx, List.length_append, Nat.mod_add_mod]
      rfl
    · rw [Function.update_of_ne hk, hothers k hk]
      exact h.idx k
  · dsimp only
    by_cases hk : k = c.queue
    · subst hk
      rw [ha.2.2] at hr
      cases hr
      rw [hto, List.length_append, List.length_singleton, List.range_succ, List.map_append, List.map_singleton,
        ← h.slots _ _ ha.2.2, h.slot_eq ha]
    · rw [hothers k hk]
      exact h.slots k r hr
  · by_cases hn : s.calls = n ∧ c.driver = q
    · obtain ⟨rfl, rfl⟩ := hn
      obtain ⟨hp, -, -⟩ := ha.1.deliver hd mem s.idx pc
      dsimp only at hp ⊢
      rw [hp]
      exact List.take_prefix _ _
    · dsimp only
      rw [framesOf_concat, if_neg (by rw [hcall, hdriver]; exact hn), List.append_nil]
      exact h.frames n q
  · rcases List.mem_append.mp hx with hx | hx
    · exact h.proper x hx
    · rw [List.mem_singleton.mp hx]
      exact ⟨by rw [hqueue, hdriver]; exact ha.2.1, hd.len, hd.addr⟩

theorem Inv.release (h : Inv server queues s) (hapart : RingsApart server queues) {f : ℕ} {d : Delivery}
    (hp : s.pc = .release c f d) :
    Inv server queues { s with
      mem := c.ring.release s.mem (s.slot c) f
      idx := Function.update s.idx c.queue ((s.idx c.queue + 1) % 2 ^ 16)
      pc := .loop { c with i := (c.i + 1) % 2 ^ 16 }
      history := s.history ++ [d] } := by
  have hreads := h.reads
  rw [hp] at hreads
  obtain ⟨ha, ho, hd, hlen⟩ := hreads
  have hqueue : d.queue = c.queue := congrArg Delivery.queue hd.eq
  have hslot : d.slot = s.slot c := congrArg Delivery.slot hd.eq
  rw [release_eq ho.2]
  have hother : ∀ l r i, ring server queues l = some r → i < r.count → (c.queue = l → s.slot c ≠ i) →
      SameDesc r s.mem (Function.update s.mem (c.ring.desc (s.slot c) + 10)
        (s.mem (c.ring.desc (s.slot c) + 10) &&& 0xFE)) i :=
    fun l r i hl hi hne => hapart.sameDesc ha.2.2 hl (slot_lt s c) hi hne fun x hx => update_outside _ _ _ _ hx
  refine ⟨fun k r i addr hk hi hav haddr => ?_, h.recorded.deliver ha hd _ _, fun k r i hk hi => ?_, ?_, ha.2.1, ha.2.2⟩
  · by_cases hki : c.queue = k ∧ s.slot c = i
    · obtain ⟨rfl, rfl⟩ := hki
      rw [ha.2.2] at hk
      cases hk
      rw [avail_update] at hav
      cases hav
    · have hsame := hother k r i hk hi fun h1 h2 => hki ⟨h1, h2⟩
      rw [hsame.avail_eq] at hav
      rw [hsame.iova_eq, hsame.len_eq] at haddr
      rw [hsame.len_eq]
      exact h.apart k r i addr hk hi hav haddr
  · dsimp only
    have hacc := h.accounted k r i hk hi
    rw [slotsOf_concat, hqueue, hslot, hacc]
    by_cases hki : c.queue = k ∧ s.slot c = i
    · obtain ⟨rfl, rfl⟩ := hki
      rw [ha.2.2] at hk
      cases hk
      rw [avail_update, ho.1, if_pos rfl, if_pos rfl, if_neg Bool.false_ne_true, List.count_append,
        List.count_singleton_self]
    · rw [(hother k r i hk hi fun h1 h2 => hki ⟨h1, h2⟩).avail_eq]
      by_cases hk' : c.queue = k
      · rw [if_pos hk', List.count_append, List.count_singleton, if_neg fun he => hki ⟨hk', eq_of_beq he⟩, Nat.add_zero]
      · rw [if_neg hk', List.append_nil]
  · have hi : (c.i + 1) % 2 ^ 16 = c.i + 1 := by
      have hlt := h.recorded.frames_lt c.driver
      have hle := (List.getElem?_eq_some_iff.mp hd.frame).1
      exact Nat.mod_eq_of_lt (by omega)
    dsimp only
    rw [hi]
    exact ha.1.deliver hd _ _ _

theorem Inv.call (h : Inv server queues s) {burst : List (List (List UInt8))}
    (hb : ∀ fs ∈ burst, fs.length ≤ burstSize) :
    Inv server queues { s with
      pc := .unloaded 0 0
      calls := s.calls + 1
      bursts := Function.update s.bursts (s.calls + 1) burst } := by
  have hnone := framesOf_later h.recorded.calls
  refine ⟨h.apart, ⟨fun n fs hfs => ?_, fun d hd => ?_, h.recorded.idx, h.recorded.slots, fun n q => ?_,
    h.recorded.proper⟩, h.accounted, ?_, Nat.zero_le _, fun q _ => hnone q⟩
  · dsimp only at hfs
    by_cases hn : n = s.calls + 1
    · subst hn
      rw [Function.update_self] at hfs
      exact hb fs hfs
    · rw [Function.update_of_ne hn] at hfs
      exact h.recorded.burst n fs hfs
  · exact Nat.le_succ_of_le (h.recorded.calls d hd)
  · dsimp only
    by_cases hn : n = s.calls + 1
    · subst hn
      rw [hnone q]
      exact List.nil_prefix
    · rw [Function.update_of_ne hn]
      exact h.recorded.frames n q
  · exact (hnone 0).trans List.take_zero.symm

theorem Inv.poll (h : Inv server queues s) (hapart : RingsApart server queues) (hs : PollStep server queues s t) :
    Inv server queues t := by
  have hreads := h.reads
  cases hs with
  | call burst hp hb => exact h.call hb
  | done q i hp hq => exact h.setPc trivial
  | empty q i hp hq hi =>
    rw [hp] at hreads
    exact h.leave hreads
  | finished c hp hi =>
    rw [hp] at hreads
    exact h.leave hreads.1
  | noQueue q i hp hi hn =>
    rw [hp] at hreads
    exact h.leave hreads
  | unmapped q i rxq hp hi hq hn =>
    rw [hp] at hreads
    exact h.leave hreads
  | load q i rxq base hp hi hq hr =>
    rw [hp] at hreads
    apply h.setPc
    refine ⟨hreads, rfl, ?_⟩
    simp only [ring, hq, hr]
  | unavailable c hp hi ha =>
    rw [hp] at hreads
    exact h.leave hreads.1
  | available c hp hi ha =>
    rw [hp] at hreads
    exact h.setPc ⟨hreads, decide_eq_true ha, rfl⟩
  | readIova c f hp =>
    rw [hp] at hreads
    exact h.setPc ⟨hreads.1, hreads.2, rfl⟩
  | readLen c f a hp =>
    rw [hp] at hreads
    obtain ⟨ha, ho, hiova⟩ := hreads
    exact h.setPc ⟨ha, ho, hiova, rfl⟩
  | invalidIova c f a n hp ht =>
    rw [hp] at hreads
    exact h.leave hreads.1.1
  | tooLarge c f a n addr frame hp ht hf hl =>
    rw [hp] at hreads
    exact h.leave hreads.1.1
  | fits c f a n addr frame hp ht hf hl hw =>
    rw [hp] at hreads
    obtain ⟨ha, ho, hiova, hlen⟩ := hreads
    have hword : frame.length < 2 ^ 16 := hw.trans_lt (Nat.mod_lt _ (Nat.two_pow_pos 16))
    exact h.setPc ⟨ha, ho, ⟨rfl, hf, hl, hword, ht⟩, hiova, hlen⟩
  | copy c f d hp => exact h.copy hp
  | writeLen c f d hp => exact h.writeLen hapart hp
  | release c f d hp => exact h.release hapart hp

theorem Inv.reachable (hapart : RingsApart server queues)
    (h : (rxRings server queues (BuffersApart server queues)).Reachable s) : Inv server queues s := by
  induction h with
  | @start s h =>
    have hpc := h.pc
    refine ⟨fun k r i addr hk hi hav => ?_, ⟨fun n fs hfs => ?_, fun d hd => ?_, fun k => ?_, fun k r hr => ?_,
      fun n q => ?_, fun d hd => ?_⟩, fun k r i hk hi => ?_, ?_⟩
    · rw [h.avail k r i hk hi] at hav
      cases hav
    · rw [h.bursts] at hfs
      cases hfs
    · rw [h.history] at hd
      cases hd
    · rw [h.idx, h.history]
      rfl
    · rw [h.history]
      rfl
    · rw [h.history]
      exact List.nil_prefix
    · rw [h.history] at hd
      cases hd
    · rw [h.armed, h.history, h.avail k r i hk hi]
      rfl
    · rw [hpc]
      trivial
  | step _ hs ih =>
    rcases hs with hs | ⟨hs, hb⟩
    · exact ih.poll hapart hs
    · cases hs with
      | arm k r i mem' hk hi hc ha hm => exact ih.arm hapart hb hk hi hc ha hm
      | edit mem' hk => exact ih.edit hb hk

/-- What is written next of a delivery. -/
inductive Stage
  | data
  | length
  | flags
deriving DecidableEq, Repr

def Pc.pending : Pc → Option (Stage × Delivery)
  | .copy _ _ d => some (.data, d)
  | .writeLen _ _ d => some (.length, d)
  | .release _ _ d => some (.flags, d)
  | _ => none

section

variable (server : Server) (queues : Fin maxRxQueues → Option RxQueue)

/-- What the next step of a delivery does to the ring of its queue. -/
def Writes (s t : State) (r : Ring) (d : Delivery) : Stage → Prop
  | .data => r.iova s.mem d.slot = d.iova ∧ r.len s.mem d.slot = d.bufLen ∧
      t.mem = store s.mem d.addr d.frame ∧ t.idx = s.idx ∧ t.history = s.history ∧ t.pc.pending = some (.length, d)
  | .length => t.mem = r.setLen s.mem d.slot d.frame.length ∧ t.idx = s.idx ∧ t.history = s.history ∧
      t.pc.pending = some (.flags, d)
  | .flags => r.len t.mem d.slot = d.frame.length ∧ r.avail t.mem d.slot = false ∧
      t.mem = Function.update s.mem (r.desc d.slot + 10) (s.mem (r.desc d.slot + 10) &&& 0xFE) ∧
      t.idx = Function.update s.idx d.queue ((s.idx d.queue + 1) % 2 ^ 16) ∧ t.history = s.history ++ [d] ∧
      t.pc.pending = none

/-- Nothing is written but for a delivery, and a delivery that was begun is completed. -/
def Delivers (s t : State) : Prop :=
  match s.pc.pending with
  | none => t.mem = s.mem ∧ t.idx = s.idx ∧ t.history = s.history ∧
      ∀ stage d, t.pc.pending = some (stage, d) → stage = .data
  | some (stage, d) => Proper server queues d ∧ ∃ r, ring server queues d.queue = some r ∧
      d.slot = r.slot (s.idx d.queue) ∧ r.avail s.mem d.slot = true ∧ Writes s t r d stage

end

theorem Fits.proper {d : Delivery} (h : Fits server s c d) (ha : At server queues s c) : Proper server queues d := by
  have hqueue : d.queue = c.queue := congrArg Delivery.queue h.eq
  have hdriver : d.driver = c.driver := congrArg Delivery.driver h.eq
  refine ⟨?_, h.len, h.addr⟩
  rw [hqueue, hdriver]
  exact ha.2.1

theorem Delivers.still (hp : s.pc.pending = none) (hm : t.mem = s.mem) (hi : t.idx = s.idx)
    (hh : t.history = s.history) (ht : t.pc.pending = none) : Delivers server queues s t := by
  rw [Delivers, hp]
  refine ⟨hm, hi, hh, fun stage d hd => ?_⟩
  rw [ht] at hd
  cases hd

theorem Inv.delivers (h : Inv server queues s) (hs : PollStep server queues s t) : Delivers server queues s t := by
  have hreads := h.reads
  cases hs with
  | copy c f d hp =>
    rw [hp] at hreads
    obtain ⟨ha, ho, hd, hiova, hlen⟩ := hreads
    have hqueue : d.queue = c.queue := congrArg Delivery.queue hd.eq
    have hslot : d.slot = s.slot c := congrArg Delivery.slot hd.eq
    rw [Delivers, hp]
    refine ⟨hd.proper ha, c.ring, ?_, ?_, ?_, ?_, ?_, rfl, rfl, rfl, rfl⟩
    · rw [hqueue]
      exact ha.2.2
    · rw [hqueue, hslot]
      rfl
    · rw [hslot]
      exact ho.1
    · rw [hslot, hiova]
    · rw [hslot, hlen]
  | writeLen c f d hp =>
    rw [hp] at hreads
    obtain ⟨ha, ho, hd, -, -⟩ := hreads
    have hqueue : d.queue = c.queue := congrArg Delivery.queue hd.eq
    have hslot : d.slot = s.slot c := congrArg Delivery.slot hd.eq
    rw [Delivers, hp]
    refine ⟨hd.proper ha, c.ring, ?_, ?_, ?_, ?_, rfl, rfl, rfl⟩
    · rw [hqueue]
      exact ha.2.2
    · rw [hqueue, hslot]
      rfl
    · rw [hslot]
      exact ho.1
    · rw [hslot]
  | release c f d hp =>
    rw [hp] at hreads
    obtain ⟨ha, ho, hd, hlen⟩ := hreads
    have hqueue : d.queue = c.queue := congrArg Delivery.queue hd.eq
    have hslot : d.slot = s.slot c := congrArg Delivery.slot hd.eq
    rw [Delivers, hp]
    refine ⟨hd.proper ha, c.ring, ?_, ?_, ?_, ?_, ?_, ?_, ?_, rfl, rfl⟩
    · rw [hqueue]
      exact ha.2.2
    · rw [hqueue, hslot]
      rfl
    · rw [hslot]
      exact ho.1
    · dsimp only
      rw [hslot, release_eq ho.2, len_update]
      exact hlen
    · dsimp only
      rw [hslot, release_eq ho.2, avail_update]
    · dsimp only
      rw [hslot, release_eq ho.2]
    · rw [hqueue]
  | fits c f a n addr frame hp ht hf hl hw =>
    rw [Delivers, hp]
    refine ⟨rfl, rfl, rfl, fun stage d hd => ?_⟩
    cases hd
    rfl
  | call burst hp hb => exact .still (by rw [hp]; rfl) rfl rfl rfl rfl
  | done q i hp hq => exact .still (by rw [hp]; rfl) rfl rfl rfl rfl
  | empty q i hp hq hi => exact .still (by rw [hp]; rfl) rfl rfl rfl rfl
  | finished c hp hi => exact .still (by rw [hp]; rfl) rfl rfl rfl rfl
  | noQueue q i hp hi hn => exact .still (by rw [hp]; rfl) rfl rfl rfl rfl
  | unmapped q i rxq hp hi hq hn => exact .still (by rw [hp]; rfl) rfl rfl rfl rfl
  | load q i rxq base hp hi hq hr => exact .still (by rw [hp]; rfl) rfl rfl rfl rfl
  | unavailable c hp hi ha => exact .still (by rw [hp]; rfl) rfl rfl rfl rfl
  | available c hp hi ha => exact .still (by rw [hp]; rfl) rfl rfl rfl rfl
  | readIova c f hp => exact .still (by rw [hp]; rfl) rfl rfl rfl rfl
  | readLen c f a hp => exact .still (by rw [hp]; rfl) rfl rfl rfl rfl
  | invalidIova c f a n hp ht => exact .still (by rw [hp]; rfl) rfl rfl rfl rfl
  | tooLarge c f a n addr frame hp ht hf hl => exact .still (by rw [hp]; rfl) rfl rfl rfl rfl

/-- The packets of each queue of the driver are delivered in order, to the ring that they belong to,
one for each arming of a descriptor, and nothing else is written. -/
theorem rx_delivery (server : Server) (queues : Fin maxRxQueues → Option RxQueue) (hapart : RingsApart server queues)
    (s : State) (h : (rxRings server queues (BuffersApart server queues)).Reachable s) :
    (∀ call driver, framesOf s.history call driver <+: (s.bursts call).getD driver []) ∧
    (∀ d ∈ s.history, Proper server queues d) ∧
    (∀ k r, ring server queues k = some r →
      slotsOf s.history k = (List.range (slotsOf s.history k).length).map (· % r.count)) ∧
    (∀ k, s.idx k = (slotsOf s.history k).length % 2 ^ 16) ∧
    Accounted server queues s ∧
    ∀ t, PollStep server queues s t → Delivers server queues s t := by
  have hi := Inv.reachable hapart h
  exact ⟨hi.recorded.frames, hi.recorded.proper, hi.recorded.slots, hi.recorded.idx, hi.accounted,
    fun t hs => hi.delivers hs⟩

theorem deliver_run {ok : Memory → Prop} {frame : List UInt8} {addr : ℕ}
    (h : (rxRings server queues ok).Reachable s) (hp : s.pc = .loop c)
    (hf : (s.frames c.driver)[c.i]? = some frame) (ha : c.ring.flags s.mem (s.slot c) % 2 = 1)
    (ht : dmaLocalAddr server (c.ring.iova s.mem (s.slot c)) (c.ring.len s.mem (s.slot c)) = .ok (some addr))
    (hl : frame.length ≤ c.ring.len s.mem (s.slot c)) (hw : frame.length ≤ frame.length % 2 ^ 16) :
    (rxRings server queues ok).Reachable { s with
      mem := c.ring.release (c.ring.setLen (store s.mem addr frame) (s.slot c) frame.length) (s.slot c)
        (c.ring.flags s.mem (s.slot c))
      idx := Function.update s.idx c.queue ((s.idx c.queue + 1) % 2 ^ 16)
      pc := .loop { c with i := (c.i + 1) % 2 ^ 16 }
      history := s.history ++
        [delivery s c frame (c.ring.iova s.mem (s.slot c)) (c.ring.len s.mem (s.slot c)) addr] } := by
  have hi := (List.getElem?_eq_some_iff.mp hf).1
  have h1 := h.step (.inl (.available c hp hi ha))
  have h2 := h1.step (.inl (.readIova c _ rfl))
  have h3 := h2.step (.inl (.readLen c _ _ rfl))
  have h4 := h3.step (.inl (.fits c _ _ _ addr frame rfl ht hf hl hw))
  have h5 := h4.step (.inl (.copy c _ _ rfl))
  have h6 := h5.step (.inl (.writeLen c _ _ rfl))
  exact h6.step (.inl (.release c _ _ rfl))

def pages : Server := ⟨∅, ∅, (((∅ : Std.TreeMap ℕ Iovec).insert 0x1000 ⟨0x7000, 0x1000⟩).insert 0x18000000
  ⟨0x9000, 0x1000⟩).insert 0x1000000001000 ⟨0xA000, 0x1000⟩⟩

def oneQueue (k : Fin maxRxQueues) : Option RxQueue := if k.val = 0 then some ⟨0x1000, 1, by decide⟩ else none

def blank : State := ⟨fun _ => 0, fun _ => 0, .idle, 0, fun _ => [], [], fun _ _ => 0⟩

theorem blank_start : Start server queues blank := by
  refine ⟨fun k r i hk hi => ?_, fun _ => rfl, rfl, rfl, rfl, fun _ _ => rfl⟩
  simp [Ring.avail, flags_eq_bytes, blank]

theorem arm_run {ok : Memory → Prop} {k : Fin maxRxQueues} {r : Ring} {i : ℕ} {bs : List UInt8}
    (h : (rxRings server queues ok).Reachable s) (hk : ring server queues k = some r) (hi : i < r.count)
    (hc : r.avail s.mem i = false) (hbs : bs.length ≤ descSize) (ha : r.avail (store s.mem (r.desc i) bs) i = true)
    (hok : ok (store s.mem (r.desc i) bs)) :
    (rxRings server queues ok).Reachable { s with
      mem := store s.mem (r.desc i) bs
      armed := Function.update s.armed k (Function.update (s.armed k) i (s.armed k i + 1)) } := by
  refine h.step (.inr ⟨.arm k r i _ hk hi hc ha fun x hx => ?_, hok⟩)
  apply store_outside
  omega

def armed (lo hi len : UInt8) : List UInt8 := [lo, hi, 0, 0, 0, 0, 0, 0, len, 0, 1, 0]

theorem oneQueue_ring {k : Fin maxRxQueues} {r : Ring} (h : ring pages oneQueue k = some r) :
    k.val = 0 ∧ r = ⟨0x7000, 1⟩ := by
  by_cases hk : k.val = 0
  · have hzero : k = ⟨0, by decide⟩ := Fin.ext hk
    subst hzero
    have hring : ring pages oneQueue ⟨0, by decide⟩ = some ⟨0x7000, 1⟩ := by rfl
    rw [hring] at h
    cases h
    exact ⟨rfl, rfl⟩
  · unfold ring oneQueue at h
    rw [if_neg hk] at h
    cases h

theorem oneQueue_zero : ring pages oneQueue ⟨0, by decide⟩ = some ⟨0x7000, 1⟩ := by rfl

theorem pages_ring : dmaLocalAddr pages 0x1000 0x40 = .ok (some 0x7000) := by rfl

theorem pages_buffer : dmaLocalAddr pages 0x1800 4 = .ok (some 0x7800) := by rfl

theorem pages_buffer' : dmaLocalAddr pages 0x1900 2 = .ok (some 0x7900) := by rfl

/-- The buffers of the two descriptors, where they are armed. -/
theorem buffersApart_oneQueue {mem : Memory}
    (h0 : (⟨0x7000, 1⟩ : Ring).avail mem 0 = true → dmaLocalAddr pages ((⟨0x7000, 1⟩ : Ring).iova mem 0)
      ((⟨0x7000, 1⟩ : Ring).len mem 0) = dmaLocalAddr pages 0x1800 4 ∧ (⟨0x7000, 1⟩ : Ring).len mem 0 = 4)
    (h1 : (⟨0x7000, 1⟩ : Ring).avail mem 1 = true → dmaLocalAddr pages ((⟨0x7000, 1⟩ : Ring).iova mem 1)
      ((⟨0x7000, 1⟩ : Ring).len mem 1) = dmaLocalAddr pages 0x1900 2 ∧ (⟨0x7000, 1⟩ : Ring).len mem 1 = 2) :
    BuffersApart pages oneQueue mem := by
  intro k r i addr hk hi hav haddr l r' hl
  obtain ⟨-, rfl⟩ := oneQueue_ring hk
  obtain ⟨-, rfl⟩ := oneQueue_ring hl
  have htwo : (⟨0x7000, 1⟩ : Ring).count = 2 := rfl
  have hcases : i = 0 ∨ i = 1 := by omega
  rcases hcases with rfl | rfl
  · obtain ⟨hbuf, hlen⟩ := h0 hav
    rw [hbuf, pages_buffer] at haddr
    cases haddr
    rw [hlen]
    exact .inr (by decide)
  · obtain ⟨hbuf, hlen⟩ := h1 hav
    rw [hbuf, pages_buffer'] at haddr
    cases haddr
    rw [hlen]
    exact .inr (by decide)

/-- Two descriptors are armed, and two packets arrive. -/
theorem rx_delivery_twice : RingsApart pages oneQueue ∧ ∃ s,
    (rxRings pages oneQueue (BuffersApart pages oneQueue)).Reachable s ∧
    slotsOf s.history ⟨0, by decide⟩ = [0, 1] ∧ framesOf s.history 1 0 = [[7, 8], [9]] ∧
    Accounted pages oneQueue s := by
  have hapart : RingsApart pages oneQueue := by
    intro k l r r' hkl hk hl
    exact absurd (Fin.ext ((oneQueue_ring hk).1.trans (oneQueue_ring hl).1.symm)) hkl
  have hfirst : BuffersApart pages oneQueue (store (fun _ => 0) 0x7000 (armed 0 0x18 4)) :=
    buffersApart_oneQueue (fun _ => ⟨rfl, rfl⟩) nofun
  have hboth : BuffersApart pages oneQueue (store (store (fun _ => 0) 0x7000 (armed 0 0x18 4)) 0x7020 (armed 0 0x19 2)) :=
    buffersApart_oneQueue (fun _ => ⟨rfl, rfl⟩) fun _ => ⟨rfl, rfl⟩
  have h0 : (rxRings pages oneQueue (BuffersApart pages oneQueue)).Reachable _ := .start blank_start
  have h1 := arm_run h0 oneQueue_zero (by decide : 0 < 2) rfl (by decide : (armed 0 0x18 4).length ≤ 32) rfl hfirst
  have h2 := arm_run h1 oneQueue_zero (by decide : 1 < 2) rfl (by decide : (armed 0 0x19 2).length ≤ 32) rfl hboth
  have h3 := h2.step (.inl (.call [[[7, 8], [9]]] rfl (by decide)))
  have h4 := h3.step (.inl (.load 0 0 ⟨0x1000, 1, by decide⟩ 0x7000 rfl (by decide) rfl pages_ring))
  have h5 := deliver_run h4 rfl rfl rfl pages_buffer (by decide) (by decide)
  have h6 := deliver_run h5 rfl rfl rfl pages_buffer' (by decide) (by decide)
  exact ⟨hapart, _, h6, rfl, rfl, (rx_delivery pages oneQueue hapart _ h6).2.2.2.2.1⟩

/-- The buffer of the first descriptor is the second descriptor, which the packets arm again. -/
theorem buffer_over_ring : ∃ s, (rxRings pages oneQueue fun _ => True).Reachable s ∧
    slotsOf s.history ⟨0, by decide⟩ = [0, 1, 0, 1] ∧ s.armed ⟨0, by decide⟩ 1 = 1 := by
  have hbuf : dmaLocalAddr pages 0x1020 12 = .ok (some 0x7020) := by rfl
  have h0 : (rxRings pages oneQueue fun _ => True).Reachable _ := .start blank_start
  have h1 := arm_run h0 oneQueue_zero (by decide : 0 < 2) rfl (by decide : (armed 0x20 0x10 12).length ≤ 32) rfl trivial
  have h2 := arm_run h1 oneQueue_zero (by decide : 1 < 2) rfl (by decide : (armed 0 0x18 4).length ≤ 32) rfl trivial
  have h3 := h2.step (.inl (.call [[armed 0 0x18 4, [9]]] rfl (by decide)))
  have h4 := h3.step (.inl (.load 0 0 ⟨0x1000, 1, by decide⟩ 0x7000 rfl (by decide) rfl pages_ring))
  have h5 := deliver_run h4 rfl rfl rfl hbuf (by decide) (by decide)
  have h6 := deliver_run h5 rfl rfl rfl pages_buffer (by decide) (by decide)
  have h7 := h6.step (.inl (.finished _ rfl (by decide)))
  have h8 := h7.step (.inl (.done 1 0 rfl (by decide)))
  have h9 := arm_run h8 oneQueue_zero (by decide : 0 < 2) rfl (by decide : (armed 0x20 0x10 12).length ≤ 32) rfl trivial
  have h10 := h9.step (.inl (.call [[armed 0 0x18 4, [9]]] rfl (by decide)))
  have h11 := h10.step (.inl (.load 0 0 ⟨0x1000, 1, by decide⟩ 0x7000 rfl (by decide) rfl pages_ring))
  have h12 := deliver_run h11 rfl rfl rfl hbuf (by decide) (by decide)
  have h13 := deliver_run h12 rfl rfl rfl pages_buffer (by decide) (by decide)
  exact ⟨_, h13, rfl, rfl⟩

/-- The ring of queue 1 begins two bytes after that of queue 0. -/
def overlapping (k : Fin maxRxQueues) : Option RxQueue :=
  if k.val = 0 then some ⟨0x1000, 0, by decide⟩ else if k.val = 1 then some ⟨0x1002, 0, by decide⟩ else none

/-- The length of a packet for queue 1 arms the descriptor of queue 0. -/
theorem ring_over_ring : ∃ s, (rxRings pages overlapping fun _ => True).Reachable s ∧
    slotsOf s.history ⟨0, by decide⟩ = [0] ∧ s.armed ⟨0, by decide⟩ 0 = 0 := by
  have hring : ring pages overlapping ⟨1, by decide⟩ = some ⟨0x7002, 0⟩ := by rfl
  have hbase : dmaLocalAddr pages 0x1000 0x20 = .ok (some 0x7000) := by rfl
  have hbase' : dmaLocalAddr pages 0x1002 0x20 = .ok (some 0x7002) := by rfl
  have hbuf : dmaLocalAddr pages 0x18000000 1 = .ok (some 0x9000) := by rfl
  have hbuf' : dmaLocalAddr pages 0x1000000001800 2 = .ok (some 0xA800) := by rfl
  have h0 : (rxRings pages overlapping fun _ => True).Reachable _ := .start blank_start
  have h1 := arm_run h0 hring (by decide : 0 < 1) rfl
    (by decide : ([0, 0x18, 0, 0, 0, 0, 1, 0, 2, 0, 1, 0] : List UInt8).length ≤ 32) rfl trivial
  have h2 := h1.step (.inl (.call [[], [[7]]] rfl (by decide)))
  have h3 := h2.step (.inl (.empty 0 0 rfl (by decide) (by decide)))
  have h4 := h3.step (.inl (.load 1 0 ⟨0x1002, 0, by decide⟩ 0x7002 rfl (by decide) rfl hbase'))
  have h5 := deliver_run h4 rfl rfl rfl hbuf' (by decide) (by decide)
  have h6 := h5.step (.inl (.finished _ rfl (by decide)))
  have h7 := h6.step (.inl (.done 2 0 rfl (by decide)))
  have h8 := h7.step (.inl (.call [[[9]]] rfl (by decide)))
  have h9 := h8.step (.inl (.load 0 0 ⟨0x1000, 0, by decide⟩ 0x7000 rfl (by decide) rfl hbase))
  have h10 := deliver_run h9 rfl rfl rfl hbuf (by decide) (by decide)
  exact ⟨_, h10, rfl, rfl⟩

/-- If a buffer or a ring overlaps a ring, a descriptor gets more packets than it was armed for. -/
theorem overlap_delivers_unarmed :
    (∃ s, (rxRings pages oneQueue fun _ => True).Reachable s ∧
      slotsOf s.history ⟨0, by decide⟩ = [0, 1, 0, 1] ∧ s.armed ⟨0, by decide⟩ 1 = 1) ∧
    ∃ s, (rxRings pages overlapping fun _ => True).Reachable s ∧
      slotsOf s.history ⟨0, by decide⟩ = [0] ∧ s.armed ⟨0, by decide⟩ 0 = 0 :=
  ⟨buffer_over_ring, ring_over_ring⟩

end Vmux.VdpdkRx
