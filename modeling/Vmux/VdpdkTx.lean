import Vmux.DescriptorRing
import Vmux.DmaMap
import Vmux.Transitions

namespace Vmux.VdpdkTx

open Bytes Transitions DescriptorRing DmaMap

def burstSize : ℕ := 128

/-- The address and the length that the guest put into a descriptor. -/
structure Posting where
  iova : ℕ
  len : ℕ
deriving DecidableEq, Repr

/-- A descriptor that was consumed: what it said, where its buffer lies, and the memory at the time
its data was copied. -/
structure Taken where
  posting : Posting
  addr : ℕ
  mem : Memory

def Taken.frame (x : Taken) : List UInt8 := readBytes x.mem x.addr x.posting.len

/-- Where `tx_poll` is, with what it has read of the descriptor. -/
inductive Pc
  | idle
  | loop
  | readIova (flags : ℕ)
  | readLen (flags iova : ℕ)
  | translate (flags : ℕ) (p : Posting)
  | alloc (flags : ℕ) (p : Posting) (addr : ℕ)
  | copy (flags : ℕ) (p : Posting) (addr : ℕ)
  | release (flags : ℕ) (x : Taken)
  | burst

/-- `dropped` says that `tx_poll` has cleared `tx_queue`. `sent` is what was handed to
`rte_eth_tx_burst`; `postings` and `taken` record what the guest and `tx_poll` have done. -/
structure State where
  mem : Memory
  backIdx : ℕ
  pc : Pc
  mbufs : List (List UInt8)
  dropped : Bool
  sent : List (List UInt8)
  postings : List Posting
  taken : List Taken

section

variable (server : Server) (tailroom : ℕ) (r : Ring)

/-- The descriptor that `tx_poll` looks at. -/
def State.slot (s : State) : ℕ := r.slot s.backIdx

/-- A step of `tx_poll`, with the address and size of each access to the ring. -/
inductive PollStep (s : State) : List (ℕ × ℕ) → State → Prop
  | call (hp : s.pc = .idle) (hd : s.dropped = false) : PollStep s [] { s with pc := .loop }
  | full (hp : s.pc = .loop) (hb : burstSize ≤ s.mbufs.length) : PollStep s [] { s with pc := .burst }
  | unavailable (hp : s.pc = .loop) (hb : s.mbufs.length < burstSize) (ha : r.flags s.mem (s.slot r) % 2 = 0) :
      PollStep s [(r.desc (s.slot r) + 10, 2)] { s with pc := .burst }
  | available (hp : s.pc = .loop) (hb : s.mbufs.length < burstSize) (ha : r.flags s.mem (s.slot r) % 2 = 1) :
      PollStep s [(r.desc (s.slot r) + 10, 2)] { s with pc := .readIova (r.flags s.mem (s.slot r)) }
  | readIova (f : ℕ) (hp : s.pc = .readIova f) :
      PollStep s [(r.desc (s.slot r), 8)] { s with pc := .readLen f (r.iova s.mem (s.slot r)) }
  | readLen (f a : ℕ) (hp : s.pc = .readLen f a) :
      PollStep s [(r.desc (s.slot r) + 8, 2)] { s with pc := .translate f ⟨a, r.len s.mem (s.slot r)⟩ }
  | invalidPacket (f : ℕ) (p : Posting) (hp : s.pc = .translate f p) (ht : dmaLocalAddr server p.iova p.len = .ok none) :
      PollStep s [] { s with pc := .idle, dropped := true, mbufs := [] }
  | translate (f : ℕ) (p : Posting) (addr : ℕ) (hp : s.pc = .translate f p)
      (ht : dmaLocalAddr server p.iova p.len = .ok (some addr)) : PollStep s [] { s with pc := .alloc f p addr }
  | noMbuf (f : ℕ) (p : Posting) (addr : ℕ) (hp : s.pc = .alloc f p addr) : PollStep s [] { s with pc := .burst }
  | alloc (f : ℕ) (p : Posting) (addr : ℕ) (hp : s.pc = .alloc f p addr) : PollStep s [] { s with pc := .copy f p addr }
  | tooLarge (f : ℕ) (p : Posting) (addr : ℕ) (hp : s.pc = .copy f p addr) (hl : tailroom < p.len) :
      PollStep s [] { s with pc := .release f ⟨p, addr, s.mem⟩ }
  | copy (f : ℕ) (p : Posting) (addr : ℕ) (hp : s.pc = .copy f p addr) (hl : p.len ≤ tailroom) : PollStep s [] { s with
      mbufs := s.mbufs ++ [readBytes s.mem addr p.len]
      pc := .release f ⟨p, addr, s.mem⟩ }
  | release (f : ℕ) (x : Taken) (hp : s.pc = .release f x) : PollStep s [(r.desc (s.slot r) + 10, 2)] { s with
      mem := r.release s.mem (s.slot r) f
      backIdx := (s.backIdx + 1) % 2 ^ 16
      taken := s.taken ++ [x]
      pc := .loop }
  | burst (hp : s.pc = .burst) : PollStep s [] { s with sent := s.sent ++ s.mbufs, mbufs := [], pc := .idle }

/-- The guest posts descriptors in ring order and only those it owns. What it does apart from that
leaves the descriptors of `tx_poll`, and who owns which, as they are. -/
inductive GuestStep (s : State) : State → Prop
  | post (mem' : Memory) (hc : r.avail s.mem (s.postings.length % r.count) = false)
      (ha : r.avail mem' (s.postings.length % r.count) = true)
      (hm : ∀ x, x < r.desc (s.postings.length % r.count) ∨ r.desc (s.postings.length % r.count) + descSize ≤ x →
        mem' x = s.mem x) :
      GuestStep s { s with
        mem := mem'
        postings := s.postings ++ [⟨r.iova mem' (s.postings.length % r.count), r.len mem' (s.postings.length % r.count)⟩] }
  | edit (mem' : Memory) (hk : ∀ i, i < r.count → r.avail s.mem i = true → SameDesc r s.mem mem' i)
      (ha : ∀ i, i < r.count → r.avail mem' i = r.avail s.mem i) : GuestStep s { s with mem := mem' }

/-- After `TX_QUEUE_START`, before the guest has posted anything. -/
def Start (s : State) : Prop :=
  (∀ i, i < r.count → r.avail s.mem i = false) ∧ s.backIdx = 0 ∧ s.pc = .idle ∧ s.mbufs = [] ∧ s.dropped = false ∧
    s.sent = [] ∧ s.postings = [] ∧ s.taken = []

def txRing : Machine State where
  start := Start r
  step s t := (∃ accesses, PollStep server tailroom r s accesses t) ∨ GuestStep r s t

def frames (taken : List Taken) : List (List UInt8) :=
  (taken.filter fun x => x.posting.len ≤ tailroom).map Taken.frame

/-- The descriptor that `tx_poll` looks at was posted, and these are its flags. -/
def Owns (s : State) (f : ℕ) : Prop :=
  s.taken.length < s.postings.length ∧ f = r.flags s.mem (s.taken.length % r.count)

/-- What `tx_poll` has read is what the descriptor says now. -/
def Reads (s : State) : Pc → Prop
  | .idle => s.mbufs = []
  | .loop | .burst => True
  | .readIova f => Owns r s f
  | .readLen f a => Owns r s f ∧ a = r.iova s.mem (s.taken.length % r.count)
  | .translate f p => Owns r s f ∧
      p = ⟨r.iova s.mem (s.taken.length % r.count), r.len s.mem (s.taken.length % r.count)⟩
  | .alloc f p addr | .copy f p addr | .release f ⟨p, addr, _⟩ => Owns r s f ∧
      p = ⟨r.iova s.mem (s.taken.length % r.count), r.len s.mem (s.taken.length % r.count)⟩ ∧
      dmaLocalAddr server p.iova p.len = .ok (some addr)

/-- The frame of a descriptor that is about to be released. -/
def Pc.pending : Pc → List (List UInt8)
  | .release _ x => if x.posting.len ≤ tailroom then [x.frame] else []
  | _ => []

/-- Between what is taken and what is posted lie the descriptors that are available. -/
structure Inv (s : State) : Prop where
  window : s.taken.length ≤ s.postings.length
  bound : s.postings.length ≤ s.taken.length + r.count
  idx : s.backIdx = s.taken.length % 2 ^ 16
  avail : ∀ i, i < r.count → (r.avail s.mem i = true ↔
    ∃ j, s.taken.length ≤ j ∧ j < s.postings.length ∧ j % r.count = i)
  content : ∀ j, s.taken.length ≤ j → j < s.postings.length →
    s.postings[j]? = some ⟨r.iova s.mem (j % r.count), r.len s.mem (j % r.count)⟩
  order : s.taken.map Taken.posting = s.postings.take s.taken.length
  reads : Reads server r s s.pc
  sent : ∃ done, frames tailroom s.taken = s.sent ++ done ∧
    (s.dropped = false → s.mbufs = done ++ s.pc.pending tailroom)
  buffers : ∀ x ∈ s.taken, dmaLocalAddr server x.posting.iova x.posting.len = .ok (some x.addr)
  dropped : s.dropped = true → s.pc = .idle

end

variable {server : Server} {tailroom : ℕ} {r : Ring} {s t : State}

theorem Inv.slot_eq (h : Inv server tailroom r s) (hb : r.bits ≤ 16) : s.slot r = s.taken.length % r.count := by
  rw [State.slot, h.idx, slot_wrap hb]

theorem Inv.avail_mod (h : Inv server tailroom r s) {j : ℕ} (h1 : s.taken.length ≤ j) (h2 : j < s.postings.length) :
    r.avail s.mem (j % r.count) = true :=
  (h.avail _ (Nat.mod_lt _ (count_pos r))).mpr ⟨j, h1, h2, rfl⟩

theorem Inv.ne_of_not_avail (h : Inv server tailroom r s) {i j : ℕ} (hi : r.avail s.mem i = false)
    (h1 : s.taken.length ≤ j) (h2 : j < s.postings.length) : j % r.count ≠ i := by
  rintro rfl
  rw [h.avail_mod h1 h2] at hi
  cases hi

theorem Reads.guest {mem' : Memory} {ps : List Posting} {pc : Pc} (h : Reads server r s pc)
    (hs : s.taken.length < s.postings.length → SameDesc r s.mem mem' (s.taken.length % r.count))
    (hp : s.postings.length ≤ ps.length) : Reads server r { s with mem := mem', postings := ps } pc := by
  have howns : ∀ {f : ℕ}, Owns r s f → Owns r { s with mem := mem', postings := ps } f := by
    rintro f ⟨hlt, hf⟩
    exact ⟨hlt.trans_le hp, hf.trans (hs hlt).flags_eq.symm⟩
  cases pc with
  | idle => exact h
  | loop => trivial
  | burst => trivial
  | readIova f => exact howns h
  | readLen f a =>
    obtain ⟨ho, ha⟩ := h
    exact ⟨howns ho, ha.trans (hs ho.1).iova_eq.symm⟩
  | translate f p =>
    obtain ⟨ho, ha⟩ := h
    refine ⟨howns ho, ha.trans ?_⟩
    rw [(hs ho.1).iova_eq, (hs ho.1).len_eq]
  | alloc f p addr =>
    obtain ⟨ho, ha, hd⟩ := h
    refine ⟨howns ho, ha.trans ?_, hd⟩
    rw [(hs ho.1).iova_eq, (hs ho.1).len_eq]
  | copy f p addr =>
    obtain ⟨ho, ha, hd⟩ := h
    refine ⟨howns ho, ha.trans ?_, hd⟩
    rw [(hs ho.1).iova_eq, (hs ho.1).len_eq]
  | release f x =>
    obtain ⟨ho, ha, hd⟩ := h
    refine ⟨howns ho, ha.trans ?_, hd⟩
    rw [(hs ho.1).iova_eq, (hs ho.1).len_eq]

theorem Inv.edit (h : Inv server tailroom r s) {mem' : Memory}
    (hk : ∀ i, i < r.count → r.avail s.mem i = true → SameDesc r s.mem mem' i)
    (ha : ∀ i, i < r.count → r.avail mem' i = r.avail s.mem i) : Inv server tailroom r { s with mem := mem' } := by
  have hsame : ∀ j, s.taken.length ≤ j → j < s.postings.length → SameDesc r s.mem mem' (j % r.count) :=
    fun j h1 h2 => hk _ (Nat.mod_lt _ (count_pos r)) (h.avail_mod h1 h2)
  refine ⟨h.window, h.bound, h.idx, fun i hi => ?_, fun j h1 h2 => ?_, h.order, ?_, h.sent, h.buffers, h.dropped⟩
  · rw [ha i hi]
    exact h.avail i hi
  · rw [(hsame j h1 h2).iova_eq, (hsame j h1 h2).len_eq]
    exact h.content j h1 h2
  · exact h.reads.guest (fun hlt => hsame _ (le_refl _) hlt) (le_refl _)

theorem Inv.post (h : Inv server tailroom r s) {mem' : Memory}
    (hc : r.avail s.mem (s.postings.length % r.count) = false)
    (ha : r.avail mem' (s.postings.length % r.count) = true)
    (hm : ∀ x, x < r.desc (s.postings.length % r.count) ∨ r.desc (s.postings.length % r.count) + descSize ≤ x →
      mem' x = s.mem x) :
    Inv server tailroom r { s with
      mem := mem'
      postings := s.postings ++
        [⟨r.iova mem' (s.postings.length % r.count), r.len mem' (s.postings.length % r.count)⟩] } := by
  have hother : ∀ i, i ≠ s.postings.length % r.count → SameDesc r s.mem mem' i := by
    intro i hne x h1 h2
    apply hm
    rcases desc_apart r hne with hd | hd
    · omega
    · omega
  have hne : ∀ j, s.taken.length ≤ j → j < s.postings.length → j % r.count ≠ s.postings.length % r.count :=
    fun j h1 h2 => h.ne_of_not_avail hc h1 h2
  have hbound := h.bound
  have hroom : s.postings.length < s.taken.length + r.count := by
    by_contra hge
    have heq : s.postings.length = s.taken.length + r.count := by omega
    have hpos := count_pos r
    apply hne s.taken.length (le_refl _) (by omega)
    rw [heq, Nat.add_mod_right]
  have hwindow := h.window
  refine ⟨?_, ?_, h.idx, fun i hi => ?_, fun j h1 h2 => ?_, ?_, ?_, h.sent, h.buffers, h.dropped⟩
  · simp only [List.length_append, List.length_singleton]
    omega
  · simp only [List.length_append, List.length_singleton]
    omega
  · simp only [List.length_append, List.length_singleton]
    by_cases hi0 : i = s.postings.length % r.count
    · subst hi0
      rw [ha]
      exact ⟨fun _ => ⟨s.postings.length, hwindow, Nat.lt_succ_self _, rfl⟩, fun _ => rfl⟩
    · rw [(hother i hi0).avail_eq, h.avail i hi]
      constructor
      · rintro ⟨j, h1, h2, h3⟩
        exact ⟨j, h1, Nat.lt_succ_of_lt h2, h3⟩
      · rintro ⟨j, h1, h2, h3⟩
        refine ⟨j, h1, ?_, h3⟩
        have hj : j ≠ s.postings.length := by
          rintro rfl
          exact hi0 h3.symm
        omega
  · simp only [List.length_append, List.length_singleton] at h2
    dsimp only at h1 ⊢
    by_cases hj : j = s.postings.length
    · subst hj
      rw [List.getElem?_append_right (le_refl _), Nat.sub_self]
      rfl
    · have hlt : j < s.postings.length := by omega
      rw [List.getElem?_append_left hlt, (hother _ (hne j h1 hlt)).iova_eq, (hother _ (hne j h1 hlt)).len_eq]
      exact h.content j h1 hlt
  · dsimp only
    rw [List.take_append_of_le_length hwindow]
    exact h.order
  · apply h.reads.guest
    · intro hlt
      exact hother _ (hne _ (le_refl _) hlt)
    · simp

theorem Inv.setPc (h : Inv server tailroom r s) {pc : Pc} (hr : Reads server r { s with pc } pc)
    (hi : s.pc.pending tailroom = []) (hp : pc.pending tailroom = []) (hd : s.dropped = false) :
    Inv server tailroom r { s with pc } := by
  obtain ⟨done, hf, hm⟩ := h.sent
  refine ⟨h.window, h.bound, h.idx, h.avail, h.content, h.order, hr, ⟨done, hf, fun _ => ?_⟩, h.buffers, fun h => ?_⟩
  · dsimp only
    rw [hm hd, hi, hp]
  · rw [show s.dropped = true from h] at hd
    cases hd

theorem Inv.not_dropped (h : Inv server tailroom r s) (hp : s.pc ≠ .idle) : s.dropped = false := by
  apply eq_false_of_ne_true
  intro hd
  exact hp (h.dropped hd)

theorem frames_concat (taken : List Taken) (x : Taken) :
    frames tailroom (taken ++ [x]) = frames tailroom taken ++ if x.posting.len ≤ tailroom then [x.frame] else [] := by
  unfold frames
  rw [List.filter_append, List.map_append]
  congr 1
  by_cases hx : x.posting.len ≤ tailroom
  · simp [hx]
  · simp [hx]

theorem Inv.release (h : Inv server tailroom r s) (hb : r.bits ≤ 16) {f : ℕ} {x : Taken} (hp : s.pc = .release f x) :
    Inv server tailroom r { s with
      mem := r.release s.mem (s.slot r) f
      backIdx := (s.backIdx + 1) % 2 ^ 16
      taken := s.taken ++ [x]
      pc := .loop } := by
  have hreads := h.reads
  rw [hp] at hreads
  obtain ⟨⟨hlt, hf⟩, hx, hd⟩ := hreads
  have hbound := h.bound
  have hnext : ∀ j, s.taken.length + 1 ≤ j → j < s.postings.length → j % r.count ≠ s.taken.length % r.count :=
    fun j h1 h2 => mod_ne_of_lt (by omega) (by omega)
  rw [h.slot_eq hb, release_eq hf]
  have hlen : (s.taken ++ [x]).length = s.taken.length + 1 := by simp
  refine ⟨?_, ?_, ?_, fun i hi => ?_, fun j h1 h2 => ?_, ?_, trivial, ?_, ?_, fun h0 => ?_⟩
  · dsimp only
    omega
  · dsimp only
    omega
  · dsimp only
    rw [hlen, h.idx, Nat.mod_add_mod]
  · dsimp only
    rw [hlen]
    by_cases hi0 : i = s.taken.length % r.count
    · subst hi0
      rw [avail_update]
      constructor
      · intro hfalse
        cases hfalse
      · rintro ⟨j, h1, h2, h3⟩
        exact absurd h3 (hnext j h1 h2)
    · rw [(sameDesc_update r s.mem _ hi0).avail_eq, h.avail i hi]
      constructor
      · rintro ⟨j, h1, h2, h3⟩
        refine ⟨j, ?_, h2, h3⟩
        have hj : j ≠ s.taken.length := by
          rintro rfl
          exact hi0 h3.symm
        omega
      · rintro ⟨j, h1, h2, h3⟩
        exact ⟨j, by omega, h2, h3⟩
  · dsimp only at h1 h2 ⊢
    rw [hlen] at h1
    have hsame := sameDesc_update r s.mem (s.mem (r.desc (s.taken.length % r.count) + 10) &&& 0xFE) (hnext j h1 h2)
    rw [hsame.iova_eq, hsame.len_eq]
    exact h.content j (by omega) h2
  · dsimp only
    rw [hlen, List.take_add_one, h.content _ (le_refl _) hlt, List.map_append, h.order]
    change _ ++ [x.posting] = _
    rw [hx]
    rfl
  · obtain ⟨done, hdone, hm⟩ := h.sent
    refine ⟨done ++ if x.posting.len ≤ tailroom then [x.frame] else [], ?_, fun hnd => ?_⟩
    · dsimp only
      rw [frames_concat, hdone, List.append_assoc]
    · dsimp only at hnd ⊢
      rw [hm hnd, hp]
      exact (List.append_nil _).symm
  · intro y hy
    rcases List.mem_append.mp hy with hy | hy
    · exact h.buffers y hy
    · rw [List.mem_singleton.mp hy]
      exact hd
  · have hidle := h.dropped h0
    rw [hp] at hidle
    cases hidle

theorem Inv.poll (h : Inv server tailroom r s) (hb : r.bits ≤ 16) {accesses : List (ℕ × ℕ)}
    (hs : PollStep server tailroom r s accesses t) : Inv server tailroom r t := by
  have hreads := h.reads
  cases hs with
  | call hp hd => exact h.setPc trivial (by rw [hp]; rfl) rfl hd
  | full hp hb => exact h.setPc trivial (by rw [hp]; rfl) rfl (h.not_dropped (by rw [hp]; nofun))
  | unavailable hp hb ha => exact h.setPc trivial (by rw [hp]; rfl) rfl (h.not_dropped (by rw [hp]; nofun))
  | available hp hlt ha =>
    rw [h.slot_eq hb] at ha ⊢
    have havail : r.avail s.mem (s.taken.length % r.count) = true := decide_eq_true ha
    obtain ⟨j, h1, h2, -⟩ := (h.avail _ (Nat.mod_lt _ (count_pos r))).mp havail
    exact h.setPc ⟨h1.trans_lt h2, rfl⟩ (by rw [hp]; rfl) rfl (h.not_dropped (by rw [hp]; nofun))
  | readIova f hp =>
    rw [hp] at hreads
    rw [h.slot_eq hb]
    exact h.setPc ⟨hreads, rfl⟩ (by rw [hp]; rfl) rfl (h.not_dropped (by rw [hp]; nofun))
  | readLen f a hp =>
    rw [hp] at hreads
    obtain ⟨ho, ha⟩ := hreads
    rw [h.slot_eq hb]
    exact h.setPc ⟨ho, by rw [ha]⟩ (by rw [hp]; rfl) rfl (h.not_dropped (by rw [hp]; nofun))
  | invalidPacket f p hp ht =>
    obtain ⟨done, hf, -⟩ := h.sent
    exact ⟨h.window, h.bound, h.idx, h.avail, h.content, h.order, rfl, ⟨done, hf, nofun⟩, h.buffers, fun _ => rfl⟩
  | translate f p addr hp ht =>
    rw [hp] at hreads
    exact h.setPc ⟨hreads.1, hreads.2, ht⟩ (by rw [hp]; rfl) rfl (h.not_dropped (by rw [hp]; nofun))
  | noMbuf f p addr hp => exact h.setPc trivial (by rw [hp]; rfl) rfl (h.not_dropped (by rw [hp]; nofun))
  | alloc f p addr hp =>
    rw [hp] at hreads
    exact h.setPc hreads (by rw [hp]; rfl) rfl (h.not_dropped (by rw [hp]; nofun))
  | tooLarge f p addr hp hl =>
    rw [hp] at hreads
    exact h.setPc hreads (by rw [hp]; rfl) (if_neg (Nat.not_le.mpr hl)) (h.not_dropped (by rw [hp]; nofun))
  | copy f p addr hp hl =>
    rw [hp] at hreads
    obtain ⟨done, hf, hm⟩ := h.sent
    refine ⟨h.window, h.bound, h.idx, h.avail, h.content, h.order, hreads, ⟨done, hf, fun hd => ?_⟩, h.buffers,
      fun hd => ?_⟩
    · dsimp only at hd ⊢
      rw [hm hd, hp]
      change done ++ [] ++ [_] = done ++ if p.len ≤ tailroom then [_] else []
      rw [if_pos hl, List.append_nil]
      rfl
    · have hidle := h.dropped hd
      rw [hp] at hidle
      cases hidle
  | release f x hp => exact h.release hb hp
  | burst hp =>
    obtain ⟨done, hf, hm⟩ := h.sent
    have hd := h.not_dropped (by rw [hp]; nofun)
    refine ⟨h.window, h.bound, h.idx, h.avail, h.content, h.order, rfl, ⟨[], ?_, fun _ => rfl⟩, h.buffers, fun _ => rfl⟩
    dsimp only
    rw [hf, hm hd, hp]
    change _ = _ ++ (done ++ []) ++ []
    rw [List.append_nil, List.append_nil]

theorem Inv.reachable (hb : r.bits ≤ 16) (h : (txRing server tailroom r).Reachable s) : Inv server tailroom r s := by
  induction h with
  | start h =>
    obtain ⟨ha, hidx, hpc, hmb, hd, hsent, hpost, htaken⟩ := h
    refine ⟨?_, ?_, ?_, fun i hi => ?_, fun j h1 h2 => ?_, ?_, ?_, ⟨[], ?_, fun _ => ?_⟩, fun x hx => ?_, fun _ => hpc⟩
    · rw [htaken]
      exact Nat.zero_le _
    · rw [hpost]
      exact Nat.zero_le _
    · rw [hidx, htaken]
      rfl
    · rw [ha i hi, hpost]
      constructor
      · intro hfalse
        cases hfalse
      · rintro ⟨j, -, h2, -⟩
        exact absurd h2 (Nat.not_lt_zero j)
    · rw [hpost] at h2
      exact absurd h2 (Nat.not_lt_zero j)
    · rw [htaken, hpost]
      rfl
    · rw [hpc]
      exact hmb
    · rw [htaken, hsent]
      rfl
    · rw [hmb, hpc]
      rfl
    · rw [htaken] at hx
      cases hx
  | step _ hs ih =>
    rcases hs with ⟨accesses, hs⟩ | hs
    · exact ih.poll hb hs
    · cases hs with
      | post mem' hc ha hm => exact ih.post hc ha hm
      | edit mem' hk ha => exact ih.edit hk ha

/-- The ring is left alone, or one available descriptor, the next in posting order, is consumed and
its bit cleared. -/
def Consumes (r : Ring) (s t : State) : Prop :=
  (t.mem = s.mem ∧ t.taken = s.taken) ∨
  ((∃ x, t.taken = s.taken ++ [x]) ∧ r.avail s.mem (s.taken.length % r.count) = true ∧
    t.mem = Function.update s.mem (r.desc (s.taken.length % r.count) + 10)
      (s.mem (r.desc (s.taken.length % r.count) + 10) &&& 0xFE))

theorem Inv.consumes (h : Inv server tailroom r s) (hb : r.bits ≤ 16) {accesses : List (ℕ × ℕ)}
    (hs : PollStep server tailroom r s accesses t) : Consumes r s t := by
  cases hs with
  | release f x hp =>
    have hreads := h.reads
    rw [hp] at hreads
    obtain ⟨⟨hlt, hf⟩, -⟩ := hreads
    refine .inr ⟨⟨x, rfl⟩, h.avail_mod (le_refl _) hlt, ?_⟩
    dsimp only
    rw [h.slot_eq hb, release_eq hf]
  | _ => exact .inl ⟨rfl, rfl⟩

theorem PollStep.inside {accesses : List (ℕ × ℕ)} (hs : PollStep server tailroom r s accesses t) :
    ∀ a ∈ accesses, r.base ≤ a.1 ∧ a.1 + a.2 ≤ r.base + (r.idxMask + 1) * descSize := by
  have hpos := count_pos r
  have hcount : r.idxMask + 1 = r.count := by
    unfold Ring.idxMask Ring.count at *
    omega
  have hslot : s.slot r < r.count := by
    rw [State.slot, slot_eq_mod]
    exact Nat.mod_lt _ hpos
  have hsize : descSize = 32 := rfl
  obtain ⟨h1, h2⟩ := desc_in_ring hslot
  have hone : ∀ off n, off + n ≤ 32 → ∀ a ∈ [(r.desc (s.slot r) + off, n)],
      r.base ≤ a.1 ∧ a.1 + a.2 ≤ r.base + (r.idxMask + 1) * descSize := by
    intro off n hle a ha
    rw [List.mem_singleton.mp ha, hcount]
    dsimp only
    omega
  cases hs with
  | unavailable hp hb ha => exact hone 10 2 (by decide)
  | available hp hb ha => exact hone 10 2 (by decide)
  | readIova f hp => exact hone 0 8 (by decide)
  | readLen f a hp => exact hone 8 2 (by decide)
  | release f x hp => exact hone 10 2 (by decide)
  | _ => nofun

theorem Inv.sent_prefix (h : Inv server tailroom r s) : s.sent <+: frames tailroom s.taken := by
  obtain ⟨done, hf, -⟩ := h.sent
  exact ⟨done, hf.symm⟩

theorem Inv.sent_idle (h : Inv server tailroom r s) (hp : s.pc = .idle) (hd : s.dropped = false) :
    s.sent = frames tailroom s.taken := by
  obtain ⟨done, hf, hm⟩ := h.sent
  have hreads := h.reads
  rw [hp] at hreads
  have hmb : s.mbufs = [] := hreads
  have hdone := hm hd
  rw [hmb, hp] at hdone
  rw [hf, (List.append_eq_nil_iff.mp hdone.symm).1, List.append_nil]

/-- Descriptors are consumed in posting order, each once, and change by one bit. The frames that fit
are handed over in that order, and all of them once a call is over that met no unmapped buffer. -/
theorem tx_ring_protocol (server : Server) (tailroom : ℕ) (r : Ring) (hb : r.bits ≤ 16) (s : State)
    (h : (txRing server tailroom r).Reachable s) :
    s.taken.map Taken.posting <+: s.postings ∧
    (∀ x ∈ s.taken, dmaLocalAddr server x.posting.iova x.posting.len = .ok (some x.addr)) ∧
    s.sent <+: frames tailroom s.taken ∧
    (s.pc = .idle → s.dropped = false → s.sent = frames tailroom s.taken) ∧
    ∀ accesses t, PollStep server tailroom r s accesses t → Consumes r s t ∧
      ∀ a ∈ accesses, r.base ≤ a.1 ∧ a.1 + a.2 ≤ r.base + (r.idxMask + 1) * descSize := by
  have hi := Inv.reachable hb h
  refine ⟨?_, hi.buffers, hi.sent_prefix, hi.sent_idle, fun accesses t hs => ⟨hi.consumes hb hs, hs.inside⟩⟩
  rw [hi.order]
  exact List.take_prefix _ _

def page : Server := ⟨∅, ∅, (∅ : Std.TreeMap ℕ Iovec).insert 0x1000 ⟨0x7000, 0x1000⟩⟩

def oneSlot : Ring := ⟨0x7000, 0⟩

/-- Two bytes at `0x1000` are posted. -/
def postedMem : Memory
  | 0x7001 => 0x10 | 0x7008 => 2 | 0x700A => 1
  | _ => 0

def posted (pc : Pc) : State := ⟨postedMem, 0, pc, [], false, [], [⟨0x1000, 2⟩], []⟩

theorem posted_copied (tailroom : ℕ) : (txRing page tailroom oneSlot).Reachable (posted (.copy 1 ⟨0x1000, 2⟩ 0x7000)) := by
  have h0 : (txRing page tailroom oneSlot).Reachable ⟨fun _ => 0, 0, .idle, [], false, [], [], []⟩ :=
    .start ⟨fun _ _ => rfl, rfl, rfl, rfl, rfl, rfl, rfl, rfl⟩
  have hm : ∀ x, x < oneSlot.desc 0 ∨ oneSlot.desc 0 + descSize ≤ x → postedMem x = 0 := by
    intro x hx
    have hbase : oneSlot.desc 0 = 0x7000 := rfl
    have hsize : descSize = 32 := rfl
    unfold postedMem
    split
    · omega
    · omega
    · omega
    · rfl
  have h1 : (txRing page tailroom oneSlot).Reachable (posted .idle) :=
    h0.step (.inr (.post postedMem rfl rfl hm))
  have h2 : (txRing page tailroom oneSlot).Reachable (posted .loop) := h1.step (.inl ⟨_, .call rfl rfl⟩)
  have h3 : (txRing page tailroom oneSlot).Reachable (posted (.readIova 1)) :=
    h2.step (.inl ⟨_, .available rfl (by decide) rfl⟩)
  have h4 : (txRing page tailroom oneSlot).Reachable (posted (.readLen 1 0x1000)) :=
    h3.step (.inl ⟨_, .readIova 1 rfl⟩)
  have h5 : (txRing page tailroom oneSlot).Reachable (posted (.translate 1 ⟨0x1000, 2⟩)) :=
    h4.step (.inl ⟨_, .readLen 1 0x1000 rfl⟩)
  have h6 : (txRing page tailroom oneSlot).Reachable (posted (.alloc 1 ⟨0x1000, 2⟩ 0x7000)) :=
    h5.step (.inl ⟨_, .translate 1 ⟨0x1000, 2⟩ 0x7000 rfl rfl⟩)
  exact h6.step (.inl ⟨_, .alloc 1 ⟨0x1000, 2⟩ 0x7000 rfl⟩)

theorem tx_ring_protocol_posted : ∃ s, (txRing page 2048 oneSlot).Reachable s ∧
    s.taken.length = 1 ∧ s.sent = frames 2048 s.taken := by
  have h1 := (posted_copied 2048).step (.inl ⟨_, .copy 1 ⟨0x1000, 2⟩ 0x7000 rfl (by decide)⟩)
  have h2 := h1.step (.inl ⟨_, .release 1 _ rfl⟩)
  have h3 := h2.step (.inl ⟨_, .unavailable rfl (by decide) rfl⟩)
  have h4 := h3.step (.inl ⟨_, .burst rfl⟩)
  exact ⟨_, h4, rfl, (tx_ring_protocol page 2048 oneSlot (by decide) _ h4).2.2.2.1 rfl rfl⟩

/-- A frame that does not fit is consumed and not handed over. -/
theorem too_large_dropped : ∃ s, (txRing page 1 oneSlot).Reachable s ∧ s.pc = .idle ∧ s.dropped = false ∧
    s.taken.map Taken.posting = [⟨0x1000, 2⟩] ∧ s.sent = [] := by
  have h1 := (posted_copied 1).step (.inl ⟨_, .tooLarge 1 ⟨0x1000, 2⟩ 0x7000 rfl (by decide)⟩)
  have h2 := h1.step (.inl ⟨_, .release 1 _ rfl⟩)
  have h3 := h2.step (.inl ⟨_, .unavailable rfl (by decide) rfl⟩)
  have h4 := h3.step (.inl ⟨_, .burst rfl⟩)
  exact ⟨_, h4, rfl, rfl, rfl, rfl⟩

end Vmux.VdpdkTx
