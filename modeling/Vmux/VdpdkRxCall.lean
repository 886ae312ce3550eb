import Vmux.VdpdkAddresses

namespace Vmux.VdpdkRxCall

open Bytes Transitions DescriptorRing DmaMap VdpdkCall VdpdkAddresses

def maxRxQueues : ℕ := 4

/-- `VdpdkDevice::RxQueue`. Nothing bounds `idx_mask`, which the guest wrote. -/
structure RxQueue where
  ringIova : ℕ
  idxMask : ℕ
  idx : ℕ
deriving DecidableEq, Repr

def RxQueue.ringSize (q : RxQueue) : ℕ := (q.idxMask + 1) * descSize

/-- The packet `i` of the queue `driver`, and the queue and the ring that were loaded for it. -/
structure Cursor where
  driver : ℕ
  i : ℕ
  queue : ℕ
  ring : ℕ
deriving DecidableEq, Repr

/-- Where `rx_callback_fn` is, with what it has read of the descriptor. -/
inductive Pc
  | unloaded (driver : ℕ)
  | fallback (driver : ℕ)
  | locate (driver queue : ℕ)
  | loop (c : Cursor)
  | readIova (c : Cursor) (flags : ℕ)
  | readLen (c : Cursor) (flags iova : ℕ)
  | translate (c : Cursor) (flags : ℕ) (p : Posting)
  | check (c : Cursor) (flags : ℕ) (p : Posting) (addr : ℕ)
  | copy (c : Cursor) (flags : ℕ) (p : Posting) (addr : ℕ) (frame : List UInt8)
  | writeLen (c : Cursor) (flags : ℕ) (frame : List UInt8)
  | release (c : Cursor) (flags : ℕ)
  | returned
  | dead

/-- The queues that were made are numbered; `rxQueues` are the slots that point to them. -/
structure State where
  mem : Memory
  queues : ℕ → RxQueue
  made : ℕ
  rxQueues : ℕ → Option ℕ
  pc : Pc
  lookups : List Lookup

/-- The descriptor that `rx_callback_fn` looks at. -/
def State.desc (s : State) (c : Cursor) : ℕ :=
  c.ring + ((s.queues c.queue).idx &&& (s.queues c.queue).idxMask) * descSize

def State.flags (s : State) (c : Cursor) : ℕ := load s.mem (s.desc c + 10) 2

section

variable (server : Server) (frames : List (List (List UInt8)))

def RxQueue.locate (q : RxQueue) : Lookup := ⟨q.ringIova, q.ringSize, dmaLocalAddr server q.ringIova q.ringSize⟩

/-- A step of one call of `rx_callback_fn`; `frames` are the packets in the queues of the driver. -/
inductive RxStep (s : State) : State → Prop
  | done (q : ℕ) (hp : s.pc = .unloaded q) (hq : frames.length ≤ q) : RxStep s { s with pc := .returned }
  | empty (q : ℕ) (hp : s.pc = .unloaded q) (hf : frames[q]? = some []) : RxStep s { s with pc := .unloaded (q + 1) }
  | load (q k : ℕ) (fs : List (List UInt8)) (hp : s.pc = .unloaded q) (hf : frames[q]? = some fs) (hn : fs ≠ [])
      (hk : s.rxQueues (q % maxRxQueues) = some k) : RxStep s { s with pc := .locate q k }
  | missing (q : ℕ) (fs : List (List UInt8)) (hp : s.pc = .unloaded q) (hf : frames[q]? = some fs) (hn : fs ≠ [])
      (hk : s.rxQueues (q % maxRxQueues) = none) : RxStep s { s with pc := .fallback q }
  | first (q k : ℕ) (hp : s.pc = .fallback q) (hk : s.rxQueues 0 = some k) : RxStep s { s with pc := .locate q k }
  | noQueue (q : ℕ) (hp : s.pc = .fallback q) (hk : s.rxQueues 0 = none) : RxStep s { s with pc := .unloaded (q + 1) }
  | ringUnmapped (q k : ℕ) (hp : s.pc = .locate q k) (hr : ((s.queues k).locate server).found = .ok none) :
      RxStep s { s with lookups := s.lookups ++ [(s.queues k).locate server], pc := .unloaded (q + 1) }
  | ringDead (q k : ℕ) (e : DescriptorQueue.Fault) (hp : s.pc = .locate q k)
      (hr : ((s.queues k).locate server).found = .error e) :
      RxStep s { s with lookups := s.lookups ++ [(s.queues k).locate server], pc := .dead }
  | ringMapped (q k ring : ℕ) (hp : s.pc = .locate q k) (hr : ((s.queues k).locate server).found = .ok (some ring)) :
      RxStep s { s with lookups := s.lookups ++ [(s.queues k).locate server], pc := .loop ⟨q, 0, k, ring⟩ }
  | finished (c : Cursor) (hp : s.pc = .loop c) (hi : (frames.getD c.driver []).length ≤ c.i) :
      RxStep s { s with pc := .unloaded (c.driver + 1) }
  | unavailable (c : Cursor) (hp : s.pc = .loop c) (hi : c.i < (frames.getD c.driver []).length)
      (ha : s.flags c % 2 = 0) : RxStep s { s with pc := .unloaded (c.driver + 1) }
  | available (c : Cursor) (hp : s.pc = .loop c) (hi : c.i < (frames.getD c.driver []).length)
      (ha : s.flags c % 2 = 1) : RxStep s { s with pc := .readIova c (s.flags c) }
  | readIova (c : Cursor) (f : ℕ) (hp : s.pc = .readIova c f) :
      RxStep s { s with pc := .readLen c f (load s.mem (s.desc c) 8) }
  | readLen (c : Cursor) (f a : ℕ) (hp : s.pc = .readLen c f a) :
      RxStep s { s with pc := .translate c f ⟨a, load s.mem (s.desc c + 8) 2⟩ }
  | invalidPacket (c : Cursor) (f : ℕ) (p : Posting) (hp : s.pc = .translate c f p)
      (ht : (p.locate server).found = .ok none) :
      RxStep s { s with lookups := s.lookups ++ [p.locate server], pc := .unloaded (c.driver + 1) }
  | packetDead (c : Cursor) (f : ℕ) (p : Posting) (e : DescriptorQueue.Fault) (hp : s.pc = .translate c f p)
      (ht : (p.locate server).found = .error e) :
      RxStep s { s with lookups := s.lookups ++ [p.locate server], pc := .dead }
  | translate (c : Cursor) (f : ℕ) (p : Posting) (addr : ℕ) (hp : s.pc = .translate c f p)
      (ht : (p.locate server).found = .ok (some addr)) :
      RxStep s { s with lookups := s.lookups ++ [p.locate server], pc := .check c f p addr }
  | tooLarge (c : Cursor) (f : ℕ) (p : Posting) (addr : ℕ) (frame : List UInt8) (hp : s.pc = .check c f p addr)
      (hf : (frames.getD c.driver [])[c.i]? = some frame)
      (hl : p.len < frame.length ∨ frame.length % 2 ^ 16 < frame.length) :
      RxStep s { s with pc := .unloaded (c.driver + 1) }
  | fits (c : Cursor) (f : ℕ) (p : Posting) (addr : ℕ) (frame : List UInt8) (hp : s.pc = .check c f p addr)
      (hf : (frames.getD c.driver [])[c.i]? = some frame) (hl : frame.length ≤ p.len)
      (hw : frame.length ≤ frame.length % 2 ^ 16) : RxStep s { s with pc := .copy c f p addr frame }
  | copy (c : Cursor) (f : ℕ) (p : Posting) (addr : ℕ) (frame : List UInt8) (hp : s.pc = .copy c f p addr frame) :
      RxStep s { s with mem := store s.mem addr frame, pc := .writeLen c f frame }
  | writeLen (c : Cursor) (f : ℕ) (frame : List UInt8) (hp : s.pc = .writeLen c f frame) : RxStep s { s with
      mem := store s.mem (s.desc c + 8) (leBytes 2 frame.length)
      pc := .release c f }
  | release (c : Cursor) (f : ℕ) (hp : s.pc = .release c f) : RxStep s { s with
      mem := store s.mem (s.desc c + 10) (leBytes 2 (f / 2 * 2))
      queues := Function.update s.queues c.queue
        { s.queues c.queue with idx := ((s.queues c.queue).idx + 1) % 2 ^ 16 }
      pc := .loop { c with i := (c.i + 1) % 2 ^ 16 } }

inductive GuestStep (s : State) : State → Prop
  | edit (mem' : Memory) : GuestStep s { s with mem := mem' }
  | start (j ringIova idxMask : ℕ) : GuestStep s { s with
      queues := Function.update s.queues s.made ⟨ringIova, idxMask, 0⟩
      made := s.made + 1
      rxQueues := Function.update s.rxQueues j (some s.made) }
  | stop (j : ℕ) : GuestStep s { s with rxQueues := Function.update s.rxQueues j none }

/-- Before a call: the slots point to queues that were made. -/
def Start (s : State) : Prop :=
  s.pc = .unloaded 0 ∧ s.lookups = [] ∧ ∀ j k, s.rxQueues j = some k → k < s.made

def rxCall : Machine State where
  start := Start
  step s t := RxStep server frames s t ∨ GuestStep s t

end

/-- The bytes of the ring and of the guest's buffers that a step of `rx_callback_fn` touches from here. -/
def rxAccesses (s : State) : Pc → List (ℕ × ℕ)
  | .loop c => [(s.desc c + 10, 2)]
  | .readIova c _ => [(s.desc c + 0, 8)]
  | .readLen c _ _ => [(s.desc c + 8, 2)]
  | .copy _ _ _ addr frame => [(addr + 0, frame.length)]
  | .writeLen c _ _ => [(s.desc c + 8, 2)]
  | .release c _ => [(s.desc c + 10, 2)]
  | _ => []

/-- The ring of the queue was looked up for this call, and nothing in vain since. -/
def RingFound (s : State) (c : Cursor) : Prop :=
  Hit s.lookups ∧ c.queue < s.made ∧ Found s.lookups c.ring (s.queues c.queue).ringSize

/-- What `rx_callback_fn` has found when it gets here. -/
def Known (s : State) : Pc → Prop
  | .unloaded _ | .fallback _ | .returned | .dead => True
  | .locate _ k => k < s.made
  | .loop c | .readIova c _ | .readLen c _ _ | .translate c _ _ | .writeLen c _ _ | .release c _ => RingFound s c
  | .check c _ p addr => RingFound s c ∧ Found s.lookups addr p.len
  | .copy c _ p addr frame => RingFound s c ∧ Found s.lookups addr p.len ∧ frame.length ≤ p.len

def Slots (s : State) : Prop := ∀ j k, s.rxQueues j = some k → k < s.made

variable {server : Server} {frames : List (List (List UInt8))} {s t : State}

theorem RingFound.served {c : Cursor} (h : RingFound s c) {off m : ℕ} (hm : off + m ≤ descSize) :
    Served s.lookups (s.desc c + off, m) := h.2.2.desc _ hm

theorem Known.served {pc : Pc} (h : Known s pc) : ∀ a ∈ rxAccesses s pc, Served s.lookups a := by
  cases pc with
  | loop c => exact List.forall_mem_singleton.mpr (RingFound.served h (by decide))
  | readIova c f => exact List.forall_mem_singleton.mpr (RingFound.served h (by decide))
  | readLen c f a => exact List.forall_mem_singleton.mpr (RingFound.served h (by decide))
  | copy c f p addr frame =>
    obtain ⟨-, hf, hl⟩ := h
    exact List.forall_mem_singleton.mpr (hf.served (by omega))
  | writeLen c f frame => exact List.forall_mem_singleton.mpr (RingFound.served h (by decide))
  | release c f => exact List.forall_mem_singleton.mpr (RingFound.served h (by decide))
  | _ => nofun

theorem Known.hit {pc : Pc} (h : Known s pc) (ha : rxAccesses s pc ≠ []) : Hit s.lookups := by
  cases pc with
  | loop c => exact h.1
  | readIova c f => exact h.1
  | readLen c f a => exact h.1
  | copy c f p addr frame => exact h.1.1
  | writeLen c f frame => exact h.1
  | release c f => exact h.1
  | _ => exact absurd rfl ha

theorem RingFound.keep {c c' : Cursor} (h : RingFound s c) (hq : c'.queue = c.queue) (hr : c'.ring = c.ring)
    (hm : s.made ≤ t.made) (hl : t.lookups = s.lookups)
    (hs : ∀ k, k < s.made → (t.queues k).ringSize = (s.queues k).ringSize) : RingFound t c' := by
  obtain ⟨hhit, hlt, hf⟩ := h
  unfold RingFound
  rw [hq, hr, hs _ hlt, hl]
  exact ⟨hhit, hlt.trans_le hm, hf⟩

theorem RingFound.look {c : Cursor} (h : RingFound s c) {l : Lookup} {addr : ℕ} (hl : l.found = .ok (some addr))
    (pc : Pc) : RingFound { s with lookups := s.lookups ++ [l], pc } c := by
  obtain ⟨-, hlt, hf⟩ := h
  exact ⟨hit_last _ hl, hlt, hf.mono _⟩

theorem Known.keep {pc : Pc} (h : Known s pc) (hm : s.made ≤ t.made) (hl : t.lookups = s.lookups)
    (hs : ∀ k, k < s.made → (t.queues k).ringSize = (s.queues k).ringSize) : Known t pc := by
  have hring : ∀ {c}, RingFound s c → RingFound t c :=
    fun h => h.keep rfl rfl hm hl hs
  cases pc with
  | unloaded q => trivial
  | fallback q => trivial
  | returned => trivial
  | dead => trivial
  | locate q k => exact Nat.lt_of_lt_of_le h hm
  | loop c => exact hring h
  | readIova c f => exact hring h
  | readLen c f a => exact hring h
  | translate c f p => exact hring h
  | check c f p addr => exact ⟨hring h.1, hl ▸ h.2⟩
  | copy c f p addr frame => exact ⟨hring h.1, hl ▸ h.2.1, h.2.2⟩
  | writeLen c f frame => exact hring h
  | release c f => exact hring h

theorem ringSize_update (queues : ℕ → RxQueue) (k idx j : ℕ) :
    (Function.update queues k { queues k with idx } j).ringSize = (queues j).ringSize := by
  by_cases h : j = k
  · rw [h, Function.update_self]
    rfl
  · rw [Function.update_of_ne h]

theorem Known.poll (h : Known s s.pc) (hslots : Slots s) (hs : RxStep server frames s t) : Known t t.pc := by
  cases hs with
  | load q k fs hp hf hn hk => exact hslots _ _ hk
  | first q k hp hk => exact hslots _ _ hk
  | ringMapped q k ring hp hr =>
    rw [hp] at h
    exact ⟨hit_last _ hr, h, found_last _ hr⟩
  | translate c f p addr hp ht =>
    rw [hp] at h
    exact ⟨RingFound.look h ht _, found_last _ ht⟩
  | fits c f p addr frame hp hf hl hw =>
    rw [hp] at h
    exact ⟨h.1, h.2, hl⟩
  | copy c f p addr frame hp =>
    rw [hp] at h
    exact h.1
  | release c f hp =>
    rw [hp] at h
    exact RingFound.keep h rfl rfl (le_refl _) rfl fun k _ => ringSize_update _ _ _ k
  | _ =>
    rw [‹s.pc = _›] at h
    trivial

theorem Known.guest (h : Known s s.pc) (hs : GuestStep s t) : Known t t.pc := by
  cases hs with
  | edit mem' => exact h.keep (le_refl _) rfl fun _ _ => rfl
  | start j ringIova idxMask =>
    refine h.keep (Nat.le_succ _) rfl fun k hk => ?_
    dsimp only
    rw [Function.update_of_ne (by omega)]
  | stop j => exact h.keep (le_refl _) rfl fun _ _ => rfl

theorem Slots.poll (h : Slots s) (hs : RxStep server frames s t) : Slots t := by
  cases hs with
  | _ => exact h

theorem Slots.guest (h : Slots s) (hs : GuestStep s t) : Slots t := by
  cases hs with
  | edit mem' => exact h
  | start j ringIova idxMask =>
    intro i k hk
    by_cases hi : i = j
    · dsimp only at hk
      rw [hi, Function.update_self] at hk
      obtain rfl := Option.some.inj hk
      exact Nat.lt_succ_self _
    · dsimp only at hk
      rw [Function.update_of_ne hi] at hk
      exact Nat.lt_succ_of_lt (h i k hk)
  | stop j =>
    intro i k hk
    by_cases hi : i = j
    · dsimp only at hk
      rw [hi, Function.update_self] at hk
      cases hk
    · dsimp only at hk
      rw [Function.update_of_ne hi] at hk
      exact h i k hk

theorem looked_poll (h : Looked server s.lookups (s.pc = .dead)) (hs : RxStep server frames s t) :
    Looked server t.lookups (t.pc = .dead) := by
  cases hs with
  | ringUnmapped q k hp hr => exact h.append rfl nofun
  | ringDead q k e hp hr => exact h.append rfl fun _ => ⟨e, hr⟩
  | ringMapped q k ring hp hr => exact h.append rfl nofun
  | invalidPacket c f p hp ht => exact h.append rfl nofun
  | packetDead c f p e hp ht => exact h.append rfl fun _ => ⟨e, ht⟩
  | translate c f p addr hp ht => exact h.append rfl nofun
  | _ => exact ⟨h.1, nofun⟩

theorem looked_guest (h : Looked server s.lookups (s.pc = .dead)) (hs : GuestStep s t) :
    Looked server t.lookups (t.pc = .dead) := by
  cases hs with
  | edit mem' => exact h
  | start j ringIova idxMask => exact h
  | stop j => exact h

theorem rxCall_known (h : (rxCall server frames).Reachable s) :
    Known s s.pc ∧ Slots s ∧ Looked server s.lookups (s.pc = .dead) := by
  induction h with
  | start h =>
    obtain ⟨hpc, hlook, hslots⟩ := h
    rw [hpc, hlook]
    exact ⟨trivial, hslots, nofun, nofun⟩
  | step _ hs ih =>
    obtain ⟨hknown, hslots, hlook⟩ := ih
    rcases hs with hs | hs
    · exact ⟨hknown.poll hslots hs, hslots.poll hs, looked_poll hlook hs⟩
    · exact ⟨hknown.guest hs, hslots.guest hs, looked_guest hlook hs⟩

/-- The call has not died. What it asked for is inside one region or handled, and then it touches
nothing. What it touches lies in what it was given. -/
structure Safe (server : Server) (lookups : List Lookup) (dead : Prop) (accesses : List (ℕ × ℕ)) : Prop where
  alive : ¬dead
  handled : ∀ l ∈ lookups, Handled server l
  skipped : ∀ l, lookups.getLast? = some l → l.found = .ok none → accesses = []
  served : ∀ a ∈ accesses, Served lookups a

theorem safe_iff {lookups : List Lookup} {dead : Prop} {accesses : List (ℕ × ℕ)} (h : Looked server lookups dead)
    (ha : ∀ a ∈ accesses, Served lookups a) (hhit : accesses ≠ [] → Hit lookups) :
    Safe server lookups dead accesses ↔ ∀ l ∈ lookups, Within server l := by
  constructor
  · intro hs l hl
    exact (handled_iff (h.1 l hl)).mp (hs.handled l hl)
  · intro hw
    refine ⟨h.none_within hw, fun l hl => (handled_iff (h.1 l hl)).mpr (hw l hl), fun l hl hnone => ?_, ha⟩
    by_contra hne
    obtain ⟨l', p, hl', hfound⟩ := hhit hne
    obtain rfl := Option.some.inj (hl.symm.trans hl')
    rw [hnone] at hfound
    cases hfound

/-- The polling functions never end the process exactly as long as no range that they look up leaves
the region it begins in. -/
theorem address_safe_iff (server : Server) :
    (∀ (tailroom : ℕ) (invalidated : Bool) (s : VdpdkCall.State), (txCall server tailroom invalidated).Reachable s →
      (Safe server s.lookups (s.pc = .dead) (txAccesses s s.pc) ↔ ∀ l ∈ s.lookups, Within server l)) ∧
    ∀ (frames : List (List (List UInt8))) (s : State), (rxCall server frames).Reachable s →
      (Safe server s.lookups (s.pc = .dead) (rxAccesses s s.pc) ↔ ∀ l ∈ s.lookups, Within server l) := by
  constructor
  · intro tailroom invalidated s h
    obtain ⟨hknown, hlook⟩ := txCall_known h
    exact safe_iff hlook hknown.served hknown.hit
  · intro frames s h
    obtain ⟨hknown, -, hlook⟩ := rxCall_known h
    exact safe_iff hlook hknown.served hknown.hit

theorem cover_page : cover page 0x1000 = some (0x1000, ⟨0x7000, 0x1000⟩) := rfl

def oneSlot : RxQueue := ⟨0x1000, 0, 0⟩

def received (mem : Memory) (pc : Pc) (lookups : List Lookup) : State :=
  ⟨mem, fun _ => oneSlot, 1, fun _ => some 0, pc, lookups⟩

def onePacket : List (List (List UInt8)) := [[[1]]]

theorem oneSlot_found : (oneSlot.locate page).found = .ok (some 0x7000) := rfl

theorem ring_located (mem : Memory) : (rxCall page onePacket).Reachable
    (received mem (.loop ⟨0, 0, 0, 0x7000⟩) [oneSlot.locate page]) := by
  have h0 : (rxCall page onePacket).Reachable (received mem (.unloaded 0) []) :=
    .start ⟨rfl, rfl, fun j k hk => by rw [← Option.some.inj hk]; exact Nat.zero_lt_one⟩
  have h1 := h0.step (.inl (.load 0 0 [[1]] rfl rfl (by decide) rfl))
  exact h1.step (.inl (.ringMapped 0 0 0x7000 rfl oneSlot_found))

theorem address_safe_page : Safe page firstGiven.lookups (firstGiven.pc = .dead) (txAccesses firstGiven firstGiven.pc) ∧
    Safe page [oneSlot.locate page] False [(0x700A, 2)] := by
  have hwithin : ∀ n ≤ 0x1000, ∀ r, Within page ⟨0x1000, n, r⟩ := by
    intro n hn r x hx
    rw [cover_page] at hx
    obtain rfl := Option.some.inj hx
    exact Nat.add_le_add_left hn 0x1000
  constructor
  · apply ((address_safe_iff page).1 2048 false firstGiven firstGiven_reachable).mpr
    intro l hl
    rcases List.mem_pair.mp hl with rfl | rfl
    · exact hwithin 0x40 (by decide) _
    · exact hwithin 2 (by decide) _
  · have hsafe := ((address_safe_iff page).2 onePacket _ (ring_located fun _ => 0)).mpr
      (List.forall_mem_singleton.mpr (hwithin 0x20 (by decide) _))
    exact ⟨id, hsafe.handled, hsafe.skipped, hsafe.served⟩

/-- Two bytes from the last one of the page on are armed. -/
def lastByte : Memory
  | 0x7000 => 0xff | 0x7001 => 0x1f | 0x7008 => 2 | 0x700A => 1
  | _ => 0

/-- The guest starts a transmit queue whose ring of two descriptors begins with the last one of the
page, or arms a buffer that begins with the last byte of the page. -/
theorem ranges_cross_region :
    (¬∀ server tailroom invalidated s, (txCall server tailroom invalidated).Reachable s → s.pc ≠ .dead) ∧
    ¬∀ server frames s, (rxCall server frames).Reachable s → s.pc ≠ .dead := by
  constructor
  · intro hall
    have h0 : (txCall page 2048 false).Reachable
        ⟨fun _ => 0, ⟨0x1fe0, none, 1, 0⟩, true, .entry, 0, [], [], [], [], [], [], []⟩ :=
      .start ⟨rfl, rfl, rfl, rfl, rfl, rfl, rfl, rfl, rfl, nofun⟩
    have h1 := h0.step (.inl (.ringDead _ rfl rfl (.inr rfl) rfl))
    exact hall page 2048 false _ h1 rfl
  · intro hall
    have h1 := (ring_located lastByte).step (.inl (.available _ rfl (by decide) rfl))
    have h2 := h1.step (.inl (.readIova _ _ rfl))
    have h3 := h2.step (.inl (.readLen _ _ 0x1fff rfl))
    have h4 := h3.step (.inl (.packetDead _ _ ⟨0x1fff, 2⟩ _ rfl rfl))
    exact hall page onePacket _ h4 rfl

end Vmux.VdpdkRxCall
