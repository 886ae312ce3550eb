import Vmux.DescriptorRing
import Vmux.RingPointer

namespace Vmux.VdpdkCall

open Bytes Transitions DescriptorRing DmaMap

def burstSize : ℕ := 128

/-- `VdpdkDevice::TxQueue`. Nothing bounds `idx_mask`, which the guest wrote. -/
structure TxQueue where
  ringIova : ℕ
  ring : Option ℕ
  idxMask : ℕ
  backIdx : ℕ
deriving DecidableEq, Repr

def TxQueue.ringSize (q : TxQueue) : ℕ := (q.idxMask + 1) * descSize

/-- What `dma_local_addr` was asked for, and what it said. -/
structure Lookup where
  iova : ℕ
  len : ℕ
  found : Except DescriptorQueue.Fault (Option ℕ)

/-- The address and the length that the guest put into a descriptor. -/
structure Posting where
  iova : ℕ
  len : ℕ
deriving DecidableEq, Repr

/-- A buffer of the pool, numbered in the order of allocation. -/
structure Mbuf where
  id : ℕ
  data : List UInt8
deriving DecidableEq, Repr

/-- A descriptor whose data was copied, or dropped: what it said, and the buffer allocated for it. -/
structure Given where
  posting : Posting
  mbuf : Mbuf
deriving DecidableEq, Repr

/-- Where `tx_poll` is, with what it has read of the descriptor. -/
inductive Pc
  | entry
  | loop
  | readIova (flags : ℕ)
  | readLen (flags iova : ℕ)
  | translate (flags : ℕ) (p : Posting)
  | alloc (flags : ℕ) (p : Posting) (addr : ℕ)
  | fill (flags : ℕ) (p : Posting) (addr id : ℕ)
  | release (flags : ℕ) (g : Given)
  | burst
  | returned
  | dead

/-- `txQueue` says whether `tx_queue` holds a queue, `queue` is the one that this call loaded.
`freed` and `accepted` are numbers of buffers, `submitted` is what was handed to `rte_eth_tx_burst`.
`seen` are the descriptors that were read, `given` those that were given back to the guest. -/
structure State where
  mem : Memory
  queue : TxQueue
  txQueue : Bool
  pc : Pc
  allocs : ℕ
  mbufs : List Mbuf
  freed : List ℕ
  accepted : List ℕ
  submitted : List Mbuf
  given : List Given
  seen : List Posting
  lookups : List Lookup

/-- The descriptor that `tx_poll` looks at. -/
def State.desc (s : State) : ℕ := s.queue.ring.getD 0 + (s.queue.backIdx &&& s.queue.idxMask) * descSize

def State.flags (s : State) : ℕ := load s.mem (s.desc + 10) 2

section

variable (server : Server) (tailroom : ℕ) (invalidated : Bool)

/-- `dma_local_addr` for the whole ring. -/
def TxQueue.locate (q : TxQueue) : Lookup := ⟨q.ringIova, q.ringSize, dmaLocalAddr server q.ringIova q.ringSize⟩

def Posting.locate (p : Posting) : Lookup := ⟨p.iova, p.len, dmaLocalAddr server p.iova p.len⟩

/-- A step of one call of `tx_poll`. -/
inductive PollStep (s : State) : State → Prop
  | noQueue (hp : s.pc = .entry) (hq : s.txQueue = false) : PollStep s { s with pc := .returned }
  | ringKept (ring : ℕ) (hp : s.pc = .entry) (hq : s.txQueue = true) (hi : invalidated = false)
      (hr : s.queue.ring = some ring) : PollStep s { s with
        lookups := s.lookups ++ [⟨s.queue.ringIova, s.queue.ringSize, .ok (some ring)⟩]
        pc := .loop }
  | ringMapped (ring : ℕ) (hp : s.pc = .entry) (hq : s.txQueue = true) (hi : invalidated = true ∨ s.queue.ring = none)
      (hr : (s.queue.locate server).found = .ok (some ring)) : PollStep s { s with
        lookups := s.lookups ++ [s.queue.locate server]
        queue := { s.queue with ring := some ring }
        pc := .loop }
  | ringUnmapped (hp : s.pc = .entry) (hq : s.txQueue = true) (hi : invalidated = true ∨ s.queue.ring = none)
      (hr : (s.queue.locate server).found = .ok none) : PollStep s { s with
        lookups := s.lookups ++ [s.queue.locate server]
        queue := { s.queue with ring := none }
        txQueue := false
        pc := .returned }
  | ringDead (e : DescriptorQueue.Fault) (hp : s.pc = .entry) (hq : s.txQueue = true)
      (hi : invalidated = true ∨ s.queue.ring = none) (hr : (s.queue.locate server).found = .error e) :
      PollStep s { s with lookups := s.lookups ++ [s.queue.locate server], pc := .dead }
  | full (hp : s.pc = .loop) (hb : burstSize ≤ s.mbufs.length) : PollStep s { s with pc := .burst }
  | unavailable (hp : s.pc = .loop) (hb : s.mbufs.length < burstSize) (ha : s.flags % 2 = 0) :
      PollStep s { s with pc := .burst }
  | available (hp : s.pc = .loop) (hb : s.mbufs.length < burstSize) (ha : s.flags % 2 = 1) :
      PollStep s { s with pc := .readIova s.flags }
  | readIova (f : ℕ) (hp : s.pc = .readIova f) : PollStep s { s with pc := .readLen f (load s.mem s.desc 8) }
  | readLen (f a : ℕ) (hp : s.pc = .readLen f a) : PollStep s { s with
      seen := s.seen ++ [⟨a, load s.mem (s.desc + 8) 2⟩]
      pc := .translate f ⟨a, load s.mem (s.desc + 8) 2⟩ }
  -- The buffers that were filled before stay with nobody.
  | invalidPacket (f : ℕ) (p : Posting) (hp : s.pc = .translate f p) (ht : (p.locate server).found = .ok none) :
      PollStep s { s with lookups := s.lookups ++ [p.locate server], txQueue := false, pc := .returned }
  | packetDead (e : DescriptorQueue.Fault) (f : ℕ) (p : Posting) (hp : s.pc = .translate f p)
      (ht : (p.locate server).found = .error e) :
      PollStep s { s with lookups := s.lookups ++ [p.locate server], pc := .dead }
  | translate (f : ℕ) (p : Posting) (addr : ℕ) (hp : s.pc = .translate f p)
      (ht : (p.locate server).found = .ok (some addr)) :
      PollStep s { s with lookups := s.lookups ++ [p.locate server], pc := .alloc f p addr }
  | noMbuf (f : ℕ) (p : Posting) (addr : ℕ) (hp : s.pc = .alloc f p addr) : PollStep s { s with pc := .burst }
  | alloc (f : ℕ) (p : Posting) (addr : ℕ) (hp : s.pc = .alloc f p addr) :
      PollStep s { s with allocs := s.allocs + 1, pc := .fill f p addr s.allocs }
  | tooLarge (f : ℕ) (p : Posting) (addr id : ℕ) (hp : s.pc = .fill f p addr id) (hl : tailroom < p.len) :
      PollStep s { s with freed := s.freed ++ [id], pc := .release f ⟨p, ⟨id, []⟩⟩ }
  | copy (f : ℕ) (p : Posting) (addr id : ℕ) (hp : s.pc = .fill f p addr id) (hl : p.len ≤ tailroom) :
      PollStep s { s with
        mbufs := s.mbufs ++ [⟨id, readBytes s.mem addr p.len⟩]
        pc := .release f ⟨p, ⟨id, readBytes s.mem addr p.len⟩⟩ }
  | release (f : ℕ) (g : Given) (hp : s.pc = .release f g) : PollStep s { s with
      mem := store s.mem (s.desc + 10) (leBytes 2 (f / 2 * 2))
      queue := { s.queue with backIdx := (s.queue.backIdx + 1) % 2 ^ 16 }
      given := s.given ++ [g]
      pc := .loop }
  | nothingToSend (hp : s.pc = .burst) (hm : s.mbufs = []) : PollStep s { s with pc := .returned }
  | burst (nbTx : ℕ) (hp : s.pc = .burst) (hm : s.mbufs ≠ []) (hn : nbTx ≤ s.mbufs.length) : PollStep s { s with
      submitted := s.mbufs
      accepted := (s.mbufs.take nbTx).map Mbuf.id
      freed := s.freed ++ (s.mbufs.drop nbTx).map Mbuf.id
      mbufs := []
      pc := .returned }

/-- At any time the guest may write to its memory and start or stop queues. -/
inductive GuestStep (s : State) : State → Prop
  | edit (mem' : Memory) (txQueue' : Bool) : GuestStep s { s with mem := mem', txQueue := txQueue' }

/-- Before a call. A ring that was looked up before and need not be looked up again is where the
mappings say. -/
def Start (s : State) : Prop :=
  s.pc = .entry ∧ s.allocs = 0 ∧ s.mbufs = [] ∧ s.freed = [] ∧ s.accepted = [] ∧ s.submitted = [] ∧ s.given = [] ∧
    s.seen = [] ∧ s.lookups = [] ∧
    ∀ ring, s.queue.ring = some ring → invalidated = false → (s.queue.locate server).found = .ok (some ring)

def txCall : Machine State where
  start := Start server invalidated
  step s t := PollStep server tailroom invalidated s t ∨ GuestStep s t

/-- A call of the polling thread on the queue that it loaded. -/
def called (d : RingPointer.Dev) (q backIdx : ℕ) (mem : Memory) : State where
  mem
  queue := ⟨(d.queues q).ringIova, (d.queues q).ring, (d.queues q).idxMask, backIdx⟩
  txQueue := true
  pc := .entry
  allocs := 0
  mbufs := []
  freed := []
  accepted := []
  submitted := []
  given := []
  seen := []
  lookups := []

/-- The polling thread calls `tx_poll` in such states only. -/
theorem start_called {d : RingPointer.Dev} {q : ℕ} (h : RingPointer.single.Reachable (.load invalidated, d))
    (hq : d.txQueue = some q) (backIdx : ℕ) (mem : Memory) : Start d.table invalidated (called d q backIdx mem) := by
  refine ⟨rfl, rfl, rfl, rfl, rfl, rfl, rfl, rfl, rfl, fun ring hring hi => ?_⟩
  subst hi
  exact (RingPointer.Inv.reachable h).kept hq hring

/-- Every buffer that was allocated was either accepted or freed, once, and every frame whose
descriptor was given back was submitted or did not fit. -/
def Conserved (s : State) : Prop :=
  (∀ k, s.accepted.count k + s.freed.count k = if k < s.allocs then 1 else 0) ∧
  ∀ g ∈ s.given, g.mbuf ∈ s.submitted ∨ tailroom < g.posting.len

/-- No descriptor whose buffer is not mapped was read after one whose frame fits. -/
def Clean (seen : List Posting) : Prop :=
  ∀ before p, seen = before ++ [p] → dmaLocalAddr server p.iova p.len = .ok none → ∀ q ∈ before, tailroom < q.len

def filled (given : List Given) : List Mbuf := (given.filter fun g => g.posting.len ≤ tailroom).map Given.mbuf

/-- The buffer of a descriptor that is about to be given back. -/
def pending (g : Given) : List Mbuf := filled tailroom [g]

/-- While `tx_poll` goes through the ring: `reading` is the descriptor it is at, `last` the buffer it
has filled for it. -/
structure Filling (s : State) (reading : List Posting) (last : List Mbuf) : Prop where
  submitted : s.submitted = []
  accepted : s.accepted = []
  mbufs : s.mbufs = filled tailroom s.given ++ last
  seen : s.seen = s.given.map Given.posting ++ reading
  mapped : ∀ g ∈ s.given, dmaLocalAddr server g.posting.iova g.posting.len ≠ .ok none

/-- What `tx_poll` has met so far was mapped. -/
def AllMapped (s : State) : Prop := ∀ p ∈ s.seen, dmaLocalAddr server p.iova p.len ≠ .ok none

def Phase (s : State) : Pc → Prop
  | .entry => Filling server tailroom s [] [] ∧ s.given = []
  | .loop | .readIova _ | .readLen _ _ => Filling server tailroom s [] []
  | .translate _ p => Filling server tailroom s [p] []
  | .alloc _ p _ | .fill _ p _ _ => Filling server tailroom s [p] [] ∧ dmaLocalAddr server p.iova p.len ≠ .ok none
  | .release _ g => Filling server tailroom s [g.posting] (pending tailroom g) ∧
      dmaLocalAddr server g.posting.iova g.posting.len ≠ .ok none
  | .burst => s.submitted = [] ∧ s.accepted = [] ∧ s.mbufs = filled tailroom s.given ∧ AllMapped server s
  | .returned => (s.mbufs = [] ∧ s.submitted = filled tailroom s.given ∧ AllMapped server s) ∨
      ∃ p, Filling server tailroom s [p] [] ∧ dmaLocalAddr server p.iova p.len = .ok none
  | .dead => True

/-- The buffer that was allocated and has not been filled. -/
def Pc.held : Pc → List ℕ
  | .fill _ _ _ id => [id]
  | _ => []

def Placed (s : State) : Prop :=
  ∀ k, (s.mbufs.map Mbuf.id).count k + s.freed.count k + s.accepted.count k + s.pc.held.count k =
    if k < s.allocs then 1 else 0

end

variable {server : Server} {tailroom : ℕ} {invalidated : Bool} {s t : State}

theorem filled_concat (given : List Given) (g : Given) :
    filled tailroom (given ++ [g]) = filled tailroom given ++ pending tailroom g := by
  rw [filled, List.filter_append, List.map_append]
  rfl

theorem pending_fits {g : Given} (h : g.posting.len ≤ tailroom) : pending tailroom g = [g.mbuf] := by
  simp [pending, filled, h]

theorem pending_tooLarge {g : Given} (h : tailroom < g.posting.len) : pending tailroom g = [] := by
  simp [pending, filled, h]

theorem mem_filled {given : List Given} {g : Given} (hg : g ∈ given) (h : g.posting.len ≤ tailroom) :
    g.mbuf ∈ filled tailroom given := by
  apply List.mem_map_of_mem
  apply List.mem_filter.mpr
  exact ⟨hg, decide_eq_true h⟩

theorem filled_eq_nil {given : List Given} (h : ∀ g ∈ given, tailroom < g.posting.len) : filled tailroom given = [] := by
  rw [filled, List.map_eq_nil_iff, List.filter_eq_nil_iff]
  intro g hg
  have hlt := h g hg
  simpa using hlt

namespace Filling

variable {reading : List Posting} {last : List Mbuf}

theorem allMapped (h : Filling server tailroom s reading last)
    (hr : ∀ p ∈ reading, dmaLocalAddr server p.iova p.len ≠ .ok none) : AllMapped server s := by
  intro p hp
  rw [h.seen] at hp
  rcases List.mem_append.mp hp with hp | hp
  · obtain ⟨g, hg, rfl⟩ := List.mem_map.mp hp
    exact h.mapped g hg
  · exact hr p hp

theorem read (h : Filling server tailroom s [] []) (p : Posting) (pc : Pc) :
    Filling server tailroom { s with seen := s.seen ++ [p], pc } [p] [] := by
  refine ⟨h.submitted, h.accepted, h.mbufs, ?_, h.mapped⟩
  change s.seen ++ [p] = _
  rw [h.seen, List.append_nil]

theorem give {g : Given} (h : Filling server tailroom s [g.posting] (pending tailroom g))
    (hm : dmaLocalAddr server g.posting.iova g.posting.len ≠ .ok none) (mem : Memory) (queue : TxQueue) (pc : Pc) :
    Filling server tailroom { s with mem, queue, given := s.given ++ [g], pc } [] [] := by
  refine ⟨h.submitted, h.accepted, ?_, ?_, fun x hx => ?_⟩
  · change s.mbufs = _
    rw [h.mbufs, filled_concat, List.append_nil]
  · change s.seen = _
    rw [h.seen, List.map_append, List.append_nil]
    rfl
  · rcases List.mem_append.mp hx with hx | hx
    · exact h.mapped x hx
    · rw [List.mem_singleton.mp hx]
      exact hm

end Filling

theorem Filling.untouched (h : Filling server tailroom s [] []) (hg : s.given = []) :
    s.mbufs = [] ∧ s.submitted = filled tailroom s.given ∧ AllMapped server s := by
  refine ⟨?_, ?_, h.allMapped nofun⟩
  · rw [h.mbufs, hg]
    rfl
  · rw [h.submitted, hg]
    rfl

theorem Filling.ready {reading : List Posting} (h : Filling server tailroom s reading [])
    (hr : ∀ p ∈ reading, dmaLocalAddr server p.iova p.len ≠ .ok none) : s.submitted = [] ∧ s.accepted = [] ∧
      s.mbufs = filled tailroom s.given ∧ AllMapped server s := by
  refine ⟨h.submitted, h.accepted, ?_, h.allMapped hr⟩
  rw [h.mbufs, List.append_nil]

theorem Phase.poll (h : Phase server tailroom s s.pc) (hs : PollStep server tailroom invalidated s t) :
    Phase server tailroom t t.pc := by
  cases hs with
  | noQueue hp hq =>
    rw [hp] at h
    exact .inl (h.1.untouched h.2)
  | ringKept ring hp hq hi hr =>
    rw [hp] at h
    exact ⟨h.1.submitted, h.1.accepted, h.1.mbufs, h.1.seen, h.1.mapped⟩
  | ringMapped ring hp hq hi hr =>
    rw [hp] at h
    exact ⟨h.1.submitted, h.1.accepted, h.1.mbufs, h.1.seen, h.1.mapped⟩
  | ringUnmapped hp hq hi hr =>
    rw [hp] at h
    exact .inl (h.1.untouched h.2)
  | ringDead e hp hq hi hr => trivial
  | full hp hb =>
    rw [hp] at h
    exact h.ready nofun
  | unavailable hp hb ha =>
    rw [hp] at h
    exact h.ready nofun
  | available hp hb ha =>
    rw [hp] at h
    exact ⟨h.submitted, h.accepted, h.mbufs, h.seen, h.mapped⟩
  | readIova f hp =>
    rw [hp] at h
    exact ⟨h.submitted, h.accepted, h.mbufs, h.seen, h.mapped⟩
  | readLen f a hp =>
    rw [hp] at h
    exact h.read _ _
  | invalidPacket f p hp ht =>
    rw [hp] at h
    exact .inr ⟨p, ⟨h.submitted, h.accepted, h.mbufs, h.seen, h.mapped⟩, ht⟩
  | packetDead e f p hp ht => trivial
  | translate f p addr hp ht =>
    rw [hp] at h
    refine ⟨⟨h.submitted, h.accepted, h.mbufs, h.seen, h.mapped⟩, ?_⟩
    rw [show dmaLocalAddr server p.iova p.len = .ok (some addr) from ht]
    nofun
  | noMbuf f p addr hp =>
    rw [hp] at h
    exact h.1.ready fun q hq => List.mem_singleton.mp hq ▸ h.2
  | alloc f p addr hp =>
    rw [hp] at h
    exact ⟨⟨h.1.submitted, h.1.accepted, h.1.mbufs, h.1.seen, h.1.mapped⟩, h.2⟩
  | tooLarge f p addr id hp hl =>
    rw [hp] at h
    refine ⟨⟨h.1.submitted, h.1.accepted, ?_, h.1.seen, h.1.mapped⟩, h.2⟩
    rw [pending_tooLarge hl]
    exact h.1.mbufs
  | copy f p addr id hp hl =>
    rw [hp] at h
    refine ⟨⟨h.1.submitted, h.1.accepted, ?_, h.1.seen, h.1.mapped⟩, h.2⟩
    rw [pending_fits hl, h.1.mbufs, List.append_nil]
  | release f g hp =>
    rw [hp] at h
    exact h.1.give h.2 _ _ _
  | nothingToSend hp hm =>
    rw [hp] at h
    obtain ⟨h1, -, h3, h4⟩ := h
    exact .inl ⟨hm, h1.trans (hm.symm.trans h3), h4⟩
  | burst nbTx hp hm hn =>
    rw [hp] at h
    exact .inl ⟨rfl, h.2.2.1, h.2.2.2⟩

theorem Phase.guest {mem' : Memory} {txQueue' : Bool} {pc : Pc} (h : Phase server tailroom s pc) :
    Phase server tailroom { s with mem := mem', txQueue := txQueue' } pc := by
  have hfill : ∀ {reading last}, Filling server tailroom s reading last →
      Filling server tailroom { s with mem := mem', txQueue := txQueue' } reading last :=
    fun h => ⟨h.submitted, h.accepted, h.mbufs, h.seen, h.mapped⟩
  cases pc with
  | entry => exact ⟨hfill h.1, h.2⟩
  | loop => exact hfill h
  | readIova f => exact hfill h
  | readLen f a => exact hfill h
  | translate f p => exact hfill h
  | alloc f p addr => exact ⟨hfill h.1, h.2⟩
  | fill f p addr id => exact ⟨hfill h.1, h.2⟩
  | release f g => exact ⟨hfill h.1, h.2⟩
  | burst => exact h
  | returned =>
    rcases h with h | ⟨p, h, hp⟩
    · exact .inl h
    · exact .inr ⟨p, hfill h, hp⟩
  | dead => trivial

theorem Placed.poll (h : Placed s) (hq : s.pc = .burst → s.accepted = [])
    (hs : PollStep server tailroom invalidated s t) : Placed t := by
  intro k
  have hk := h k
  cases hs with
  | alloc f p addr hp =>
    simp only [hp, Pc.held, List.count_nil, Nat.add_zero] at hk
    simp only [Pc.held, List.count_singleton, beq_iff_eq]
    grind
  | tooLarge f p addr id hp hl =>
    simp only [hp, Pc.held] at hk
    simp only [Pc.held, List.count_append, List.count_nil]
    omega
  | copy f p addr id hp hl =>
    simp only [hp, Pc.held] at hk
    simp only [Pc.held, List.map_append, List.map_singleton, List.count_append, List.count_nil]
    omega
  | burst nbTx hp hm hn =>
    have hacc := hq hp
    have hsplit : (s.mbufs.map Mbuf.id).count k =
        ((s.mbufs.take nbTx).map Mbuf.id).count k + ((s.mbufs.drop nbTx).map Mbuf.id).count k := by
      rw [← List.count_append, ← List.map_append, List.take_append_drop]
    simp only [hp, hacc, Pc.held, List.count_nil, Nat.add_zero] at hk
    simp only [Pc.held, List.map_nil, List.count_append, List.count_nil]
    omega
  | _ => simpa only [‹s.pc = _›, Pc.held] using hk

theorem invariant (h : (txCall server tailroom invalidated).Reachable s) :
    Phase server tailroom s s.pc ∧ Placed s := by
  induction h with
  | start h =>
    obtain ⟨hpc, hallocs, hmbufs, hfreed, hacc, hsub, hgiven, hseen, -, -⟩ := h
    rw [hpc]
    refine ⟨⟨⟨hsub, hacc, ?_, ?_, ?_⟩, hgiven⟩, fun k => ?_⟩
    · rw [hmbufs, hgiven]
      rfl
    · rw [hseen, hgiven]
      rfl
    · rw [hgiven]
      nofun
    · rw [hpc, hallocs, hmbufs, hfreed, hacc]
      rfl
  | step _ hs ih =>
    obtain ⟨hphase, hplaced⟩ := ih
    rcases hs with hs | hs
    · refine ⟨hphase.poll hs, hplaced.poll (fun hp => ?_) hs⟩
      rw [hp] at hphase
      exact hphase.2.1
    · cases hs with
      | edit mem' txQueue' => exact ⟨hphase.guest, hplaced⟩

theorem conserved_iff_of_invalid {p : Posting} (h : Filling server tailroom s [p] [])
    (hp : dmaLocalAddr server p.iova p.len = .ok none) (hplaced : Placed s) (hr : s.pc = .returned) :
    Conserved tailroom s ↔ Clean server tailroom s.seen := by
  constructor
  · rintro ⟨-, hc⟩ before q hs - x hx
    rw [h.seen] at hs
    obtain ⟨rfl, -⟩ := List.append_inj' hs rfl
    obtain ⟨g, hg, rfl⟩ := List.mem_map.mp hx
    rcases hc g hg with hm | hl
    · rw [h.submitted] at hm
      cases hm
    · exact hl
  · intro hclean
    have hbig : ∀ g ∈ s.given, tailroom < g.posting.len :=
      fun g hg => hclean _ p h.seen hp _ (List.mem_map_of_mem hg)
    have hnone : s.mbufs = [] := by rw [h.mbufs, filled_eq_nil hbig, List.append_nil]
    refine ⟨fun k => ?_, fun g hg => .inr (hbig g hg)⟩
    have hk := hplaced k
    simp only [hr, hnone, Pc.held, List.map_nil, List.count_nil] at hk
    omega

theorem conserved_of_sent (h1 : s.mbufs = []) (h2 : s.submitted = filled tailroom s.given) (hplaced : Placed s)
    (hr : s.pc = .returned) : Conserved tailroom s := by
  refine ⟨fun k => ?_, fun g hg => ?_⟩
  · have hk := hplaced k
    simp only [hr, h1, Pc.held, List.map_nil, List.count_nil] at hk
    omega
  · by_cases hl : g.posting.len ≤ tailroom
    · left
      rw [h2]
      exact mem_filled hg hl
    · right
      omega

theorem AllMapped.clean (h : AllMapped server s) : Clean server tailroom s.seen := by
  intro before p hs hp
  refine absurd hp (h p ?_)
  rw [hs]
  exact List.mem_append_right _ List.mem_cons_self

/-- A call of `tx_poll` conserves buffers and frames exactly if it meets no unmapped buffer after a
frame that fits. -/
theorem tx_call_conserves_iff (server : Server) (tailroom : ℕ) (invalidated : Bool) (s : State)
    (h : (txCall server tailroom invalidated).Reachable s) (hr : s.pc = .returned) :
    Conserved tailroom s ↔ Clean server tailroom s.seen := by
  obtain ⟨hphase, hplaced⟩ := invariant h
  rw [hr] at hphase
  rcases hphase with ⟨h1, h2, h3⟩ | ⟨p, h1, h2⟩
  · exact ⟨fun _ => h3.clean, fun _ => conserved_of_sent h1 h2 hplaced hr⟩
  · exact conserved_iff_of_invalid h1 h2 hplaced hr

def page : Server := ⟨∅, ∅, (∅ : Std.TreeMap ℕ Iovec).insert 0x1000 ⟨0x7000, 0x1000⟩⟩

/-- A ring of two descriptors at the start of the page. The first is for two bytes of the page. -/
def firstPosted : Memory
  | 0x7001 => 0x10 | 0x7008 => 2 | 0x700A => 1
  | _ => 0

/-- The second descriptor is available too, for address 0, where nothing is mapped. -/
def secondPosted : Memory
  | 0x702A => 1
  | _ => 0

def firstGiven : State where
  mem := store firstPosted 0x700A [0, 0]
  queue := ⟨0x1000, some 0x7000, 1, 1⟩
  txQueue := true
  pc := .loop
  allocs := 1
  mbufs := [⟨0, [0, 0x10]⟩]
  freed := []
  accepted := []
  submitted := []
  given := [⟨⟨0x1000, 2⟩, ⟨0, [0, 0x10]⟩⟩]
  seen := [⟨0x1000, 2⟩]
  lookups := [⟨0x1000, 0x40, .ok (some 0x7000)⟩, ⟨0x1000, 2, .ok (some 0x7000)⟩]

theorem firstGiven_reachable : (txCall page 2048 false).Reachable firstGiven := by
  have h0 : (txCall page 2048 false).Reachable
      ⟨firstPosted, ⟨0x1000, none, 1, 0⟩, true, .entry, 0, [], [], [], [], [], [], []⟩ :=
    .start ⟨rfl, rfl, rfl, rfl, rfl, rfl, rfl, rfl, rfl, nofun⟩
  have h1 := h0.step (.inl (.ringMapped 0x7000 rfl rfl (.inr rfl) rfl))
  have h2 := h1.step (.inl (.available rfl (by decide) rfl))
  have h3 := h2.step (.inl (.readIova 1 rfl))
  have h4 := h3.step (.inl (.readLen 1 0x1000 rfl))
  have h5 := h4.step (.inl (.translate 1 ⟨0x1000, 2⟩ 0x7000 rfl rfl))
  have h6 := h5.step (.inl (.alloc 1 ⟨0x1000, 2⟩ 0x7000 rfl))
  have h7 := h6.step (.inl (.copy 1 ⟨0x1000, 2⟩ 0x7000 0 rfl (by decide)))
  exact h7.step (.inl (.release 1 _ rfl))

/-- There is no second descriptor, and the frame of the first is accepted. -/
theorem tx_call_conserves_sent : ∃ s, (txCall page 2048 false).Reachable s ∧ s.pc = .returned ∧
    s.accepted = [0] ∧ (Conserved 2048 s ↔ Clean page 2048 s.seen) := by
  have h1 := firstGiven_reachable.step (.inl (.unavailable rfl (by decide) rfl))
  have h2 := h1.step (.inl (.burst 1 rfl (by nofun) (by decide)))
  exact ⟨_, h2, rfl, rfl, tx_call_conserves_iff page 2048 false _ h2 rfl⟩

/-- The guest posts the second descriptor in time, and the buffer that was filled for the first is lost. -/
theorem tx_call_leaks : ¬∀ server tailroom invalidated s, (txCall server tailroom invalidated).Reachable s →
    s.pc = .returned → Conserved tailroom s := by
  intro hall
  have h1 := firstGiven_reachable.step (.inr (.edit secondPosted true))
  have h2 := h1.step (.inl (.available rfl (by decide) rfl))
  have h3 := h2.step (.inl (.readIova 1 rfl))
  have h4 := h3.step (.inl (.readLen 1 0 rfl))
  have h5 := h4.step (.inl (.invalidPacket 1 ⟨0, 0⟩ rfl rfl))
  have hcount := (hall page 2048 false _ h5 rfl).1 0
  revert hcount
  decide

end Vmux.VdpdkCall
