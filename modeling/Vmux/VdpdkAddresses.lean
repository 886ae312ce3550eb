import Vmux.DmaTranslation
import Vmux.VdpdkCall

namespace Vmux.VdpdkAddresses

open Bytes Transitions DescriptorRing DmaMap DmaTranslation VdpdkCall

instance (a : ℕ) (x : ℕ × Iovec) : Decidable (Covers a x) := inferInstanceAs (Decidable (_ ∧ _))

def regionEnd (x : ℕ × Iovec) : ℕ := (x.1 + x.2.len) % word

section

variable (server : Server)

/-- The region that `dma_local_addr` finds for an address. -/
def cover (a : ℕ) : Option (ℕ × Iovec) := server.mappings.toList.reverse.find? fun x => Covers a x

/-- The range lies in one region, and `p` is where it begins there. -/
def Inside (a n p : ℕ) : Prop :=
  ∃ x ∈ server.mappings.toList, x.1 ≤ a ∧ a + n ≤ regionEnd x ∧ p = (x.2.base + (a - x.1)) % word

/-- There is an error to handle, or a range to work on. -/
def Handled (l : Lookup) : Prop := l.found = .ok none ∨ ∃ p, l.found = .ok (some p) ∧ Inside server l.iova l.len p

/-- The range ends before the region does in which it begins, if it begins in one. -/
def Within (l : Lookup) : Prop := ∀ x, cover server l.iova = some x → l.iova + l.len ≤ regionEnd x

end

/-- The bytes belong to a range that was found. -/
def Served (lookups : List Lookup) (access : ℕ × ℕ) : Prop :=
  ∃ l ∈ lookups, ∃ p, l.found = .ok (some p) ∧ p ≤ access.1 ∧ access.1 + access.2 ≤ p + l.len

variable {server : Server} {tailroom : ℕ} {invalidated : Bool}

theorem findSegment_eq (a n : ℕ) (l : List (ℕ × Iovec)) :
    findSegment a n l = match l.find? fun x => Covers a x with
      | none => .ok none
      | some x => if (a + n) % word > regionEnd x then .error .abort
        else .ok (some ((x.2.base + (a - x.1)) % word)) := by
  induction l with
  | nil => rfl
  | cons x l ih =>
    by_cases hx : Covers a x
    · simp only [List.find?_cons, hx, decide_true]
      unfold Covers at hx
      rw [findSegment, if_pos hx]
      rfl
    · simp only [List.find?_cons, hx, decide_false]
      unfold Covers at hx
      rw [findSegment, if_neg hx, ih]

theorem dmaLocalAddr_uncovered {a n : ℕ} (h : cover server a = none) : dmaLocalAddr server a n = .ok none := by
  rw [dmaLocalAddr, findSegment_eq]
  unfold cover at h
  rw [h]

theorem dmaLocalAddr_covered {a n : ℕ} {x : ℕ × Iovec} (h : cover server a = some x) :
    dmaLocalAddr server a n = if (a + n) % word > regionEnd x then .error .abort
      else .ok (some ((x.2.base + (a - x.1)) % word)) := by
  rw [dmaLocalAddr, findSegment_eq]
  unfold cover at h
  rw [h]

theorem cover_spec {a : ℕ} {x : ℕ × Iovec} (h : cover server a = some x) :
    x ∈ server.mappings.toList ∧ x.1 ≤ a ∧ a < regionEnd x := by
  have hc : Covers a x := by simpa using List.find?_some h
  exact ⟨List.mem_reverse.mp (List.mem_of_find?_eq_some h), hc.1, hc.2⟩

theorem regionEnd_lt (x : ℕ × Iovec) : regionEnd x < word := Nat.mod_lt _ (by decide)

theorem handled_iff {l : Lookup} (h : l.found = dmaLocalAddr server l.iova l.len) :
    Handled server l ↔ Within server l := by
  unfold Handled Within
  rw [h]
  cases hc : cover server l.iova with
  | none =>
    constructor
    · intro _ x hx
      cases hx
    · intro _
      left
      exact dmaLocalAddr_uncovered hc
  | some x =>
    obtain ⟨hmem, hlow, -⟩ := cover_spec hc
    rw [dmaLocalAddr_covered hc]
    constructor
    · intro hh y hy
      obtain rfl := Option.some.inj hy
      by_cases hgt : (l.iova + l.len) % word > regionEnd x
      · rw [if_pos hgt] at hh
        rcases hh with hh | ⟨p, hh, -⟩
        · cases hh
        · cases hh
      · rw [if_neg hgt] at hh
        rcases hh with hh | ⟨p, -, z, -, -, hz, -⟩
        · cases hh
        · have hlt := regionEnd_lt z
          rw [Nat.mod_eq_of_lt (by omega)] at hgt
          omega
    · intro hw
      have hend := hw x rfl
      have hlt := regionEnd_lt x
      right
      refine ⟨_, if_neg ?_, x, hmem, hlow, hend, rfl⟩
      rw [Nat.mod_eq_of_lt (by omega)]
      omega

/-- A lookup of this length found this range. -/
def Found (lookups : List Lookup) (addr n : ℕ) : Prop := ∃ l ∈ lookups, l.found = .ok (some addr) ∧ l.len = n

theorem Found.mono {lookups : List Lookup} {addr n : ℕ} (h : Found lookups addr n) (more : List Lookup) :
    Found (lookups ++ more) addr n := by
  obtain ⟨l, hl, hp⟩ := h
  exact ⟨l, List.mem_append_left _ hl, hp⟩

theorem found_last (lookups : List Lookup) {l : Lookup} {addr : ℕ} (h : l.found = .ok (some addr)) :
    Found (lookups ++ [l]) addr l.len := ⟨l, List.mem_append_right _ List.mem_cons_self, h, rfl⟩

/-- The last lookup found something. -/
def Hit (lookups : List Lookup) : Prop := ∃ l p, lookups.getLast? = some l ∧ l.found = .ok (some p)

theorem hit_last (lookups : List Lookup) {l : Lookup} {addr : ℕ} (h : l.found = .ok (some addr)) :
    Hit (lookups ++ [l]) := ⟨l, addr, List.getLast?_concat, h⟩

theorem Found.served {lookups : List Lookup} {addr n off m : ℕ} (h : Found lookups addr n) (hm : off + m ≤ n) :
    Served lookups (addr + off, m) := by
  obtain ⟨l, hl, hf, rfl⟩ := h
  exact ⟨l, hl, addr, hf, by omega, by dsimp only; omega⟩

theorem Found.desc {lookups : List Lookup} {ring mask : ℕ} (h : Found lookups ring ((mask + 1) * descSize))
    (idx : ℕ) {off m : ℕ} (hm : off + m ≤ descSize) : Served lookups (ring + (idx &&& mask) * descSize + off, m) := by
  have hle : (idx &&& mask) * descSize ≤ mask * descSize := Nat.mul_le_mul_right _ Nat.and_le_right
  rw [Nat.add_assoc]
  apply h.served
  rw [Nat.succ_mul]
  omega

/-- Every lookup was for the current mappings, and a call that died did so at one. -/
def Looked (server : Server) (lookups : List Lookup) (dead : Prop) : Prop :=
  (∀ l ∈ lookups, l.found = dmaLocalAddr server l.iova l.len) ∧ (dead → ∃ l ∈ lookups, ∃ e, l.found = .error e)

theorem Looked.append {lookups : List Lookup} {dead dead' : Prop} {l : Lookup} (h : Looked server lookups dead)
    (hl : l.found = dmaLocalAddr server l.iova l.len) (hd : dead' → ∃ e, l.found = .error e) :
    Looked server (lookups ++ [l]) dead' := by
  constructor
  · intro x hx
    rcases List.mem_append.mp hx with hx | hx
    · exact h.1 x hx
    · rw [List.mem_singleton.mp hx]
      exact hl
  · intro hdead
    exact ⟨l, List.mem_append_right _ List.mem_cons_self, hd hdead⟩

theorem Looked.none_within {lookups : List Lookup} {dead : Prop} (h : Looked server lookups dead)
    (hw : ∀ l ∈ lookups, Within server l) : ¬dead := by
  intro hd
  obtain ⟨l, hl, e, he⟩ := h.2 hd
  rcases (handled_iff (h.1 l hl)).mpr (hw l hl) with hn | ⟨p, hp, -⟩
  · rw [he] at hn
    cases hn
  · rw [he] at hp
    cases hp

/-- The bytes of the ring and of the guest's buffers that a step of `tx_poll` touches from here. -/
def txAccesses (s : VdpdkCall.State) : VdpdkCall.Pc → List (ℕ × ℕ)
  | .loop | .release _ _ => [(s.desc + 10, 2)]
  | .readIova _ => [(s.desc + 0, 8)]
  | .readLen _ _ => [(s.desc + 8, 2)]
  | .fill _ p addr _ => [(addr + 0, p.len)]
  | _ => []

/-- The ring of the queue was looked up for this call, and nothing in vain since. -/
def RingFound (s : VdpdkCall.State) : Prop :=
  Hit s.lookups ∧ ∃ ring, s.queue.ring = some ring ∧ Found s.lookups ring s.queue.ringSize

/-- What `tx_poll` has found when it gets here. -/
def TxKnown (server : Server) (invalidated : Bool) (s : VdpdkCall.State) : VdpdkCall.Pc → Prop
  | .entry => ∀ ring, s.queue.ring = some ring → invalidated = false → (s.queue.locate server).found = .ok (some ring)
  | .alloc _ p addr | .fill _ p addr _ => RingFound s ∧ Found s.lookups addr p.len
  | .returned | .dead => True
  | _ => RingFound s

theorem RingFound.served {s : VdpdkCall.State} (h : RingFound s) {off m : ℕ} (hm : off + m ≤ descSize) :
    Served s.lookups (s.desc + off, m) := by
  obtain ⟨-, ring, hr, hf⟩ := h
  rw [VdpdkCall.State.desc, hr]
  exact hf.desc _ hm

theorem TxKnown.served {s : VdpdkCall.State} {pc : VdpdkCall.Pc} (h : TxKnown server invalidated s pc) :
    ∀ a ∈ txAccesses s pc, Served s.lookups a := by
  cases pc with
  | loop => exact List.forall_mem_singleton.mpr (RingFound.served h (by decide))
  | readIova f => exact List.forall_mem_singleton.mpr (RingFound.served h (by decide))
  | readLen f a => exact List.forall_mem_singleton.mpr (RingFound.served h (by decide))
  | fill f p addr id => exact List.forall_mem_singleton.mpr (h.2.served (Nat.zero_add _).le)
  | release f g => exact List.forall_mem_singleton.mpr (RingFound.served h (by decide))
  | _ => nofun

theorem TxKnown.hit {s : VdpdkCall.State} {pc : VdpdkCall.Pc} (h : TxKnown server invalidated s pc)
    (ha : txAccesses s pc ≠ []) : Hit s.lookups := by
  cases pc with
  | loop => exact h.1
  | readIova f => exact h.1
  | readLen f a => exact h.1
  | fill f p addr id => exact h.1.1
  | release f g => exact h.1
  | _ => exact absurd rfl ha

theorem RingFound.look {s : VdpdkCall.State} (h : RingFound s) {l : Lookup} {addr : ℕ} (hl : l.found = .ok (some addr))
    (pc : VdpdkCall.Pc) : RingFound { s with lookups := s.lookups ++ [l], pc } := by
  obtain ⟨-, ring, hr, hf⟩ := h
  exact ⟨hit_last _ hl, ring, hr, hf.mono _⟩

theorem TxKnown.guest {s : VdpdkCall.State} {mem' : Memory} {txQueue' : Bool} {pc : VdpdkCall.Pc}
    (h : TxKnown server invalidated s pc) :
    TxKnown server invalidated { s with mem := mem', txQueue := txQueue' } pc := by
  cases pc with
  | _ => exact h

theorem TxKnown.poll {s t : VdpdkCall.State} (h : TxKnown server invalidated s s.pc)
    (hs : PollStep server tailroom invalidated s t) : TxKnown server invalidated t t.pc := by
  cases hs with
  | ringKept ring hp hq hi hr => exact ⟨hit_last _ rfl, ring, hr, found_last _ rfl⟩
  | ringMapped ring hp hq hi hr => exact ⟨hit_last _ hr, ring, rfl, found_last _ hr⟩
  | translate f p addr hp ht =>
    rw [hp] at h
    exact ⟨RingFound.look h ht _, found_last _ ht⟩
  | tooLarge f p addr id hp hl =>
    rw [hp] at h
    exact h.1
  | copy f p addr id hp hl =>
    rw [hp] at h
    exact h.1
  | noMbuf f p addr hp =>
    rw [hp] at h
    exact h.1
  | _ =>
    rw [‹s.pc = _›] at h
    trivial

theorem TxKnown.looked {s t : VdpdkCall.State} (h : TxKnown server invalidated s s.pc)
    (hl : Looked server s.lookups (s.pc = .dead)) (hs : PollStep server tailroom invalidated s t) :
    Looked server t.lookups (t.pc = .dead) := by
  cases hs with
  | ringKept ring hp hq hi hr =>
    rw [hp] at h
    exact hl.append (h ring hr hi).symm nofun
  | ringMapped ring hp hq hi hr => exact hl.append rfl nofun
  | ringUnmapped hp hq hi hr => exact hl.append rfl nofun
  | ringDead e hp hq hi hr => exact hl.append rfl fun _ => ⟨e, hr⟩
  | invalidPacket f p hp ht => exact hl.append rfl nofun
  | packetDead e f p hp ht => exact hl.append rfl fun _ => ⟨e, ht⟩
  | translate f p addr hp ht => exact hl.append rfl nofun
  | _ => exact ⟨hl.1, nofun⟩

theorem txCall_known {s : VdpdkCall.State} (h : (txCall server tailroom invalidated).Reachable s) :
    TxKnown server invalidated s s.pc ∧ Looked server s.lookups (s.pc = .dead) := by
  induction h with
  | start h =>
    obtain ⟨hpc, -, -, -, -, -, -, -, hlook, hkept⟩ := h
    rw [hpc, hlook]
    exact ⟨hkept, nofun, nofun⟩
  | step _ hs ih =>
    rcases hs with hs | hs
    · exact ⟨ih.1.poll hs, ih.1.looked ih.2 hs⟩
    · cases hs with
      | edit mem' txQueue' => exact ⟨ih.1.guest, ih.2⟩

end Vmux.VdpdkAddresses
