import Vmux.DmaMap
import Vmux.Transitions

namespace Vmux.DmaTranslation

open Transitions DescriptorQueue DmaMap

/-- A guest region and where it lies in this process. -/
structure Region where
  info : DmaInfo
  localBase : ℕ
deriving DecidableEq, Repr

namespace Region

variable (r : Region)

def start : ℕ := r.info.iova.base

def len : ℕ := r.info.iova.len

def Holds (a : ℕ) : Prop := r.start ≤ a ∧ a < r.start + r.len

def Contains (a n : ℕ) : Prop := r.start ≤ a ∧ a + n ≤ r.start + r.len

def Disjoint (r' : Region) : Prop := r.start + r.len ≤ r'.start ∨ r'.start + r'.len ≤ r.start

end Region

/-- What libvfio-user promises of a region it reports as mapped: it is mapped somewhere, and its
local range does not wrap. -/
structure Region.Mapped (r : Region) : Prop where
  pos : 0 < r.len
  low : r.start + r.len ≤ 2 ^ 63
  vaddr : r.info.vaddr ≠ 0
  mapping : r.info.mapping ≠ 0
  fits : r.localBase + r.len ≤ word

structure History where
  server : Server
  live : List Region

inductive Step (s : History) : History → Prop
  | register (r : Region) (server' : Server) (flags : Option ℕ) (hm : r.Mapped) (hd : ∀ x ∈ s.live, x.Disjoint r)
      (h : mapDmaHere s.server r.info (some ⟨r.localBase, r.len⟩) = .ok (server', flags)) : Step s ⟨server', r :: s.live⟩
  | unregister (r : Region) (hr : r ∈ s.live) : Step s ⟨unmapDmaHere s.server r.info, s.live.erase r⟩
  | registerUnmapped (info : DmaInfo) (mapping : Option Iovec) (server' : Server) (flags : Option ℕ)
      (hv : info.vaddr = 0) (h : mapDmaHere s.server info mapping = .ok (server', flags)) : Step s ⟨server', s.live⟩
  | unregisterUnmapped (info : DmaInfo) (hm : info.mapping = 0) : Step s ⟨unmapDmaHere s.server info, s.live⟩

def dmaCallbacks : Machine History where
  start s := s = ⟨.empty, []⟩
  step := Step

/-- Only ranges inside a live region are translated, each of them is, and where the region lies. -/
def Translates (s : History) (a n : ℕ) : Prop :=
  (∀ p, dmaLocalAddr s.server a n = .ok (some p) →
    ∃ r ∈ s.live, r.Contains a n ∧ p = r.localBase + (a - r.start)) ∧
  ∀ r ∈ s.live, r.Contains a n → dmaLocalAddr s.server a n = .ok (some (r.localBase + (a - r.start)))

/-- The table holds the live regions, which do not overlap. -/
structure Accurate (s : History) : Prop where
  mapped : ∀ r ∈ s.live, r.Mapped
  disjoint : s.live.Pairwise Region.Disjoint
  table : ∀ k m, s.server.mappings[k]? = some m ↔ ∃ r ∈ s.live, r.start = k ∧ m = ⟨r.localBase, r.len⟩

variable {s s' : History} {r r' : Region}

instance : Std.Symm Region.Disjoint := ⟨fun _ _ => Or.symm⟩

theorem start_ne (hr : r.Mapped) (hr' : r'.Mapped) (h : r.Disjoint r') : r.start ≠ r'.start := by
  have h1 := hr.pos
  have h2 := hr'.pos
  rcases h with h | h
  · omega
  · omega

theorem Accurate.nodup (h : Accurate s) : s.live.Nodup := by
  apply h.disjoint.imp_of_mem
  rintro a b ha hb hd rfl
  exact start_ne (h.mapped a ha) (h.mapped a ha) hd rfl

theorem Accurate.eq_of_holds {a : ℕ} (h : Accurate s) (hr : r ∈ s.live) (hr' : r' ∈ s.live) (ha : r.Holds a)
    (ha' : r'.Holds a) : r' = r := by
  by_contra hne
  obtain ⟨h1, h2⟩ := ha
  obtain ⟨h3, h4⟩ := ha'
  rcases h.disjoint.forall hr' hr hne with hd | hd
  · omega
  · omega

theorem Accurate.register (h : Accurate s) (hm : r.Mapped) (hd : ∀ x ∈ s.live, x.Disjoint r) {server' : Server}
    {flags : Option ℕ} (hs : mapDmaHere s.server r.info (some ⟨r.localBase, r.len⟩) = .ok (server', flags)) :
    Accurate ⟨server', r :: s.live⟩ := by
  rw [mapDmaHere, if_neg hm.vaddr] at hs
  obtain ⟨rfl, -⟩ := Prod.mk.inj (Except.ok.inj hs)
  refine ⟨fun x hx => ?_, List.pairwise_cons.mpr ⟨fun x hx => symm (hd x hx), h.disjoint⟩, fun k m => ?_⟩
  · rcases List.mem_cons.mp hx with rfl | hx
    · exact hm
    · exact h.mapped x hx
  · dsimp only
    have hcmp : compare r.info.iova.base k = .eq ↔ r.start = k := compare_eq_iff_eq
    rw [Std.TreeMap.getElem?_insert]
    by_cases hk : r.start = k
    · rw [if_pos (hcmp.mpr hk), Option.some.injEq]
      subst hk
      constructor
      · intro hm
        exact ⟨r, List.mem_cons_self, rfl, hm.symm⟩
      · rintro ⟨x, hx, hstart, hmx⟩
        rcases List.mem_cons.mp hx with rfl | hx
        · exact hmx.symm
        · exact absurd hstart (start_ne (h.mapped x hx) hm (hd x hx))
    · rw [if_neg (hcmp.not.mpr hk), h.table]
      constructor
      · rintro ⟨x, hx, hstart, hmx⟩
        exact ⟨x, List.mem_cons_of_mem _ hx, hstart, hmx⟩
      · rintro ⟨x, hx, hstart, hmx⟩
        rcases List.mem_cons.mp hx with rfl | hx
        · exact absurd hstart hk
        · exact ⟨x, hx, hstart, hmx⟩

theorem Accurate.unregister (h : Accurate s) (hr : r ∈ s.live) :
    Accurate ⟨unmapDmaHere s.server r.info, s.live.erase r⟩ := by
  rw [unmapDmaHere, if_neg (h.mapped r hr).mapping]
  have hsub : (s.live.erase r).Sublist s.live := List.erase_sublist
  refine ⟨fun x hx => h.mapped x (hsub.subset hx), h.disjoint.sublist hsub, fun k m => ?_⟩
  dsimp only
  have hcmp : compare r.info.iova.base k = .eq ↔ r.start = k := compare_eq_iff_eq
  rw [Std.TreeMap.getElem?_erase]
  by_cases hk : r.start = k
  · rw [if_pos (hcmp.mpr hk)]
    subst hk
    constructor
    · intro hm
      cases hm
    · rintro ⟨x, hx, hstart, -⟩
      obtain ⟨hne, hx⟩ := h.nodup.mem_erase_iff.mp hx
      exact absurd hstart (start_ne (h.mapped x hx) (h.mapped r hr) (h.disjoint.forall hx hr hne))
  · rw [if_neg (hcmp.not.mpr hk), h.table]
    constructor
    · rintro ⟨x, hx, hstart, hmx⟩
      refine ⟨x, h.nodup.mem_erase_iff.mpr ⟨?_, hx⟩, hstart, hmx⟩
      rintro rfl
      exact hk hstart
    · rintro ⟨x, hx, hstart, hmx⟩
      exact ⟨x, hsub.subset hx, hstart, hmx⟩

theorem Accurate.reachable (h : dmaCallbacks.Reachable s) : Accurate s := by
  induction h with
  | start h =>
    cases h
    refine ⟨nofun, .nil, fun k m => ?_⟩
    constructor
    · intro hm
      simp [Server.empty] at hm
    · rintro ⟨r, hr, -⟩
      cases hr
  | step _ hs ih =>
    cases hs with
    | register r server' flags hm hd h => exact ih.register hm hd h
    | unregister r hr => exact ih.unregister hr
    | registerUnmapped info mapping server' flags hv h =>
      unfold mapDmaHere at h
      rw [if_pos hv] at h
      obtain ⟨rfl, -⟩ := Prod.mk.inj (Except.ok.inj h)
      exact ih
    | unregisterUnmapped info hm =>
      rw [unmapDmaHere, if_pos hm]
      exact ih

def Covers (a : ℕ) (x : ℕ × Iovec) : Prop := x.1 ≤ a ∧ a < (x.1 + x.2.len) % word

theorem findSegment_none {a n : ℕ} {l : List (ℕ × Iovec)} (h : ∀ x ∈ l, ¬Covers a x) :
    findSegment a n l = .ok none := by
  induction l with
  | nil => rfl
  | cons x l ih =>
    have hx : ¬(x.1 ≤ a ∧ a < (x.1 + x.2.len) % word) := h x List.mem_cons_self
    rw [findSegment, if_neg hx]
    exact ih fun y hy => h y (List.mem_cons_of_mem _ hy)

theorem findSegment_unique {a n : ℕ} {l : List (ℕ × Iovec)} {x : ℕ × Iovec} (hx : x ∈ l) (hc : Covers a x)
    (hu : ∀ y ∈ l, Covers a y → y = x) :
    findSegment a n l = if (a + n) % word > (x.1 + x.2.len) % word then .error .abort
      else .ok (some ((x.2.base + (a - x.1)) % word)) := by
  induction l with
  | nil => cases hx
  | cons y l ih =>
    by_cases hy : Covers a y
    · obtain rfl := hu y List.mem_cons_self hy
      unfold Covers at hy
      rw [findSegment, if_pos hy]
    · have hxl : x ∈ l := by
        rcases List.mem_cons.mp hx with rfl | hx
        · exact absurd hc hy
        · exact hx
      unfold Covers at hy
      rw [findSegment, if_neg hy]
      exact ih hxl fun z hz => hu z (List.mem_cons_of_mem _ hz)

theorem Region.Mapped.end_mod (h : r.Mapped) : (r.start + r.len) % word = r.start + r.len := by
  have hlow := h.low
  exact Nat.mod_eq_of_lt (by norm_num [word]; omega)

theorem Accurate.mem_table (h : Accurate s) (x : ℕ × Iovec) :
    x ∈ s.server.mappings.toList.reverse ↔ ∃ r ∈ s.live, x = (r.start, ⟨r.localBase, r.len⟩) := by
  obtain ⟨k, m⟩ := x
  rw [List.mem_reverse, Std.TreeMap.mem_toList_iff_getElem?_eq_some, h.table]
  constructor
  · rintro ⟨r, hr, rfl, rfl⟩
    exact ⟨r, hr, rfl⟩
  · rintro ⟨r, hr, he⟩
    obtain ⟨rfl, rfl⟩ := Prod.mk.inj he
    exact ⟨r, hr, rfl, rfl⟩

theorem Accurate.covers_iff (h : Accurate s) (hr : r ∈ s.live) {a : ℕ} :
    Covers a (r.start, ⟨r.localBase, r.len⟩) ↔ r.Holds a := by
  unfold Covers Region.Holds
  dsimp only
  rw [(h.mapped r hr).end_mod]

theorem Accurate.lookup_none {a n : ℕ} (h : Accurate s) (ha : ∀ r ∈ s.live, ¬r.Holds a) :
    dmaLocalAddr s.server a n = .ok none := by
  apply findSegment_none
  intro x hx hc
  obtain ⟨r, hr, rfl⟩ := (h.mem_table x).mp hx
  exact ha r hr ((h.covers_iff hr).mp hc)

theorem Accurate.lookup {a n : ℕ} (h : Accurate s) (hr : r ∈ s.live) (ha : r.Holds a) :
    dmaLocalAddr s.server a n = if (a + n) % word > r.start + r.len then .error .abort
      else .ok (some (r.localBase + (a - r.start))) := by
  obtain ⟨h1, h2⟩ := ha
  have hfits := (h.mapped r hr).fits
  rw [dmaLocalAddr, findSegment_unique ((h.mem_table _).mpr ⟨r, hr, rfl⟩) ((h.covers_iff hr).mpr ⟨h1, h2⟩)]
  · dsimp only
    rw [(h.mapped r hr).end_mod, Nat.mod_eq_of_lt (by omega : r.localBase + (a - r.start) < word)]
  · intro y hy hc
    obtain ⟨x, hx, rfl⟩ := (h.mem_table y).mp hy
    rw [h.eq_of_holds hr hx ⟨h1, h2⟩ ((h.covers_iff hx).mp hc)]

theorem holds_of_contains {a n : ℕ} (hn : 1 ≤ n) (h : r.Contains a n) : r.Holds a := by
  obtain ⟨h1, h2⟩ := h
  exact ⟨h1, by omega⟩

/-- The translation is right exactly if the end of a range that starts in a live region does not
wrap around. -/
theorem dma_translates (s : History) (h : dmaCallbacks.Reachable s) (a n : ℕ) (ha : a < word) (hn : 1 ≤ n)
    (hnw : n < word) : Translates s a n ↔ ∀ r ∈ s.live, r.Holds a → a + n < word := by
  have hacc := Accurate.reachable h
  constructor
  · rintro ⟨hsound, -⟩ r hr hh
    by_contra hwrap
    have hmod : (a + n) % word = a + n - word := by
      rw [Nat.mod_eq_sub_mod (by omega), Nat.mod_eq_of_lt (by omega)]
    obtain ⟨h1, h2⟩ := hh
    have hlow := (hacc.mapped r hr).low
    obtain ⟨r', hr', ⟨h3, h4⟩, -⟩ := hsound _ (by rw [hacc.lookup hr ⟨h1, h2⟩, if_neg (by omega)])
    have hlow' := (hacc.mapped r' hr').low
    simp only [word] at hwrap
    omega
  · intro hw
    by_cases hex : ∃ r ∈ s.live, r.Holds a
    · obtain ⟨r, hr, hh⟩ := hex
      have hmod : (a + n) % word = a + n := Nat.mod_eq_of_lt (hw r hr hh)
      have hlook := @Accurate.lookup s r a n hacc hr hh
      rw [hmod] at hlook
      constructor
      · intro p hp
        rw [hlook] at hp
        split at hp
        · cases hp
        · rename_i hle
          cases hp
          exact ⟨r, hr, ⟨hh.1, by omega⟩, rfl⟩
      · intro r' hr' hc
        obtain rfl := hacc.eq_of_holds hr hr' hh (holds_of_contains hn hc)
        rw [hlook, if_neg (by have := hc.2; omega)]
    · have hnone : ∀ r ∈ s.live, ¬r.Holds a := fun r hr hh => hex ⟨r, hr, hh⟩
      constructor
      · intro p hp
        rw [hacc.lookup_none hnone] at hp
        cases hp
      · intro r hr hc
        exact absurd (holds_of_contains hn hc) (hnone r hr)

/-- One page at `0x1000`, mapped to `0x7000`. -/
def page : Region := ⟨⟨⟨0x1000, 0x1000⟩, 0x7000, 0x7000, 3⟩, 0x7000⟩

def pageHistory : History := ⟨⟨(∅ : Std.TreeSet ℕ).insert 0x7000, (∅ : Std.TreeSet ℕ).insert 0x7000,
  (∅ : Std.TreeMap ℕ Iovec).insert 0x1000 ⟨0x7000, 0x1000⟩⟩, [page]⟩

theorem pageHistory_reachable : dmaCallbacks.Reachable pageHistory := by
  have hm : page.Mapped := ⟨by decide, by decide, by decide, by decide, by decide⟩
  exact .step (.start rfl) (.register page _ (some 3) hm nofun rfl)

theorem dma_translates_page : Translates pageHistory 0x1100 0x40 :=
  (dma_translates _ pageHistory_reachable 0x1100 0x40 (by decide) (by decide) (by decide)).mpr fun _ _ _ => by decide

/-- A length of almost `2^64` wraps around and passes the test. -/
theorem dma_wrap_translated : dmaCallbacks.Reachable pageHistory ∧
    (dmaLocalAddr pageHistory.server 0x1100 (2 ^ 64 - 0x80)).toOption = some (some 0x7100) ∧
    ¬Translates pageHistory 0x1100 (2 ^ 64 - 0x80) := by
  have hp : (dmaLocalAddr pageHistory.server 0x1100 (2 ^ 64 - 0x80)).toOption = some (some 0x7100) := by
    decide +kernel
  refine ⟨pageHistory_reachable, hp, fun ht => ?_⟩
  cases hr : dmaLocalAddr pageHistory.server 0x1100 (2 ^ 64 - 0x80) with
  | error e =>
    rw [hr] at hp
    cases hp
  | ok x =>
    rw [hr] at hp
    cases hp
    obtain ⟨r, hmem, ⟨-, hend⟩, -⟩ := ht.1 _ hr
    rw [List.mem_singleton.mp hmem] at hend
    exact absurd hend (by decide)

end Vmux.DmaTranslation
