import Vmux.DmaTranslation

namespace Vmux.PassthroughDma

open Transitions DescriptorQueue DmaMap DmaTranslation Relation

/-- `vfio_iommu_type1_dma_map` -/
structure DmaMapping where
  flags : ℕ
  vaddr : ℕ
  iova : ℕ
  size : ℕ
deriving DecidableEq, Repr

def DmaMapping.Holds (m : DmaMapping) (a : ℕ) : Prop := m.iova ≤ a ∧ a < m.iova + m.size

instance (m : DmaMapping) (a : ℕ) : Decidable (m.Holds a) := inferInstanceAs (Decidable (_ ∧ _))

/-- The VFIO container of the kernel: its two requests with what `ioctl` returns, and where the device gets
when it accesses an address. -/
structure Iommu (σ : Type) where
  initial : σ
  mapDma : σ → DmaMapping → σ × ℤ
  unmapDma : σ → ℕ → ℕ → σ × ℤ
  translate : σ → ℕ → Option ℕ

/-- What the container promises: it does not map over a mapping, and a request that fails changes nothing. -/
structure Iommu.Documented {σ : Type} (I : Iommu σ) : Prop where
  initial : ∀ a, I.translate I.initial a = none
  refused : ∀ c m, (I.mapDma c m).2 < 0 → I.translate (I.mapDma c m).1 = I.translate c
  exclusive : ∀ c m, 0 ≤ (I.mapDma c m).2 → ∀ a, m.Holds a → I.translate c a = none
  mapped : ∀ c m, 0 ≤ (I.mapDma c m).2 → ∀ a,
    I.translate (I.mapDma c m).1 a = if m.Holds a then some (m.vaddr + (a - m.iova)) else I.translate c a

/-- `accepted` are the regions for which `VFIO_IOMMU_MAP_DMA` succeeded. -/
structure State (σ : Type) where
  guest : History
  container : σ
  accepted : List Region

variable {σ : Type} (I : Iommu σ)

def dmaMap (info : DmaInfo) (flags : ℕ) : DmaMapping := ⟨flags, info.vaddr, info.iova.base, info.iova.len⟩

/-- `map_dma` only prints a message when the request fails. -/
def dmaRegisterCb (server : Server) (c : σ) (info : DmaInfo) (mapping : Option Iovec) : Except Fault (Server × σ) := do
  let (server, mapped) ← mapDmaHere server info mapping
  match mapped with
  | none => .ok (server, c)
  | some flags => .ok (server, (I.mapDma c (dmaMap info flags)).1)

/-- Both ends of `unmap_dma_here` return `false`. -/
def unmapped (server : Server) (info : DmaInfo) : Server × Bool := (unmapDmaHere server info, false)

def dmaUnregisterCb (server : Server) (c : σ) (info : DmaInfo) : Except Fault (Server × σ) :=
  let (server, ok) := unmapped server info
  if !ok then .ok (server, c)
  else
    let (c, ret) := I.unmapDma c info.iova.base info.iova.len
    if ret < 0 then .error .abort else .ok (server, c)

/-- The callbacks, under the promises of libvfio-user that `DmaTranslation` states. -/
inductive Step (s : State σ) : State σ → Prop
  | register (r : Region) (server : Server) (c : σ) (hm : r.Mapped) (hd : ∀ x ∈ s.guest.live, x.Disjoint r)
      (h : dmaRegisterCb I s.guest.server s.container r.info (some ⟨r.localBase, r.len⟩) = .ok (server, c)) :
      Step s ⟨⟨server, r :: s.guest.live⟩, c,
        if 0 ≤ (I.mapDma s.container (dmaMap r.info (dmaFlags r.info.prot))).2 then r :: s.accepted else s.accepted⟩
  | unregister (r : Region) (server : Server) (c : σ) (hr : r ∈ s.guest.live)
      (h : dmaUnregisterCb I s.guest.server s.container r.info = .ok (server, c)) :
      Step s ⟨⟨server, s.guest.live.erase r⟩, c, s.accepted⟩
  | registerUnmapped (info : DmaInfo) (mapping : Option Iovec) (server : Server) (c : σ) (hv : info.vaddr = 0)
      (h : dmaRegisterCb I s.guest.server s.container info mapping = .ok (server, c)) :
      Step s ⟨⟨server, s.guest.live⟩, c, s.accepted⟩
  | unregisterUnmapped (info : DmaInfo) (server : Server) (c : σ) (hm : info.mapping = 0)
      (h : dmaUnregisterCb I s.guest.server s.container info = .ok (server, c)) :
      Step s ⟨⟨server, s.guest.live⟩, c, s.accepted⟩

def passthrough : Machine (State σ) where
  start s := s = ⟨⟨.empty, []⟩, I.initial, []⟩
  step := Step I

variable {I} {s t : State σ}

theorem dmaUnregisterCb_ok {server server' : Server} {c c' : σ} {info : DmaInfo}
    (h : dmaUnregisterCb I server c info = .ok (server', c')) : server' = unmapDmaHere server info ∧ c' = c := by
  obtain ⟨rfl, rfl⟩ := Prod.mk.inj (Except.ok.inj h)
  exact ⟨rfl, rfl⟩

theorem dmaRegisterCb_mapped {server server' : Server} {c c' : σ} {info : DmaInfo} {m : Iovec} (hv : info.vaddr ≠ 0)
    (h : dmaRegisterCb I server c info (some m) = .ok (server', c')) :
    mapDmaHere server info (some m) = .ok (server', some (dmaFlags info.prot)) ∧
      c' = (I.mapDma c (dmaMap info (dmaFlags info.prot))).1 := by
  rw [dmaRegisterCb, mapDmaHere, if_neg hv] at h
  obtain ⟨rfl, rfl⟩ := Prod.mk.inj (Except.ok.inj h)
  rw [mapDmaHere, if_neg hv]
  exact ⟨rfl, rfl⟩

theorem dmaRegisterCb_unmapped {server server' : Server} {c c' : σ} {info : DmaInfo} {mapping : Option Iovec}
    (hv : info.vaddr = 0) (h : dmaRegisterCb I server c info mapping = .ok (server', c')) :
    mapDmaHere server info mapping = .ok (server', none) ∧ c' = c := by
  rw [dmaRegisterCb, mapDmaHere.eq_def, if_pos hv] at h
  obtain ⟨rfl, rfl⟩ := Prod.mk.inj (Except.ok.inj h)
  rw [mapDmaHere.eq_def, if_pos hv]
  exact ⟨rfl, rfl⟩

/-- For this process a passthrough device makes no difference. -/
theorem guest_reachable (h : (passthrough I).Reachable s) : dmaCallbacks.Reachable s.guest := by
  refine h.project State.guest ?_ ?_
  · rintro s rfl
    rfl
  · intro s t hs
    right
    cases hs with
    | register r server c hm hd h =>
      exact .register r server _ hm hd (dmaRegisterCb_mapped hm.vaddr h).1
    | unregister r server c hr h =>
      obtain ⟨rfl, -⟩ := dmaUnregisterCb_ok h
      exact .unregister r hr
    | registerUnmapped info mapping server c hv h =>
      exact .registerUnmapped info mapping server none hv (dmaRegisterCb_unmapped hv h).1
    | unregisterUnmapped info server c hm h =>
      obtain ⟨rfl, -⟩ := dmaUnregisterCb_ok h
      exact .unregisterUnmapped info hm

theorem holds_dmaMap (r : Region) (flags a : ℕ) : (dmaMap r.info flags).Holds a ↔ r.Holds a := Iff.rfl

/-- The device reaches what was ever accepted. -/
def Reaches (I : Iommu σ) (s : State σ) : Prop :=
  ∀ a p, I.translate s.container a = some p ↔ ∃ r ∈ s.accepted, r.Holds a ∧ p = r.info.vaddr + (a - r.start)

theorem Reaches.accept (hI : I.Documented) (h : Reaches I s) {r : Region} {flags : ℕ} {guest : History}
    (ha : 0 ≤ (I.mapDma s.container (dmaMap r.info flags)).2) :
    Reaches I ⟨guest, (I.mapDma s.container (dmaMap r.info flags)).1, r :: s.accepted⟩ := by
  intro a p
  have hfree := hI.exclusive _ _ ha a
  dsimp only
  rw [hI.mapped _ _ ha a]
  by_cases hr : r.Holds a
  · rw [if_pos ((holds_dmaMap r flags a).mpr hr)]
    have hnone := hfree hr
    constructor
    · intro hp
      exact ⟨r, List.mem_cons_self, hr, (Option.some.inj hp).symm⟩
    · rintro ⟨x, hx, hxa, rfl⟩
      rcases List.mem_cons.mp hx with rfl | hx
      · rfl
      · have hsome := (h a _).mpr ⟨x, hx, hxa, rfl⟩
        rw [hnone] at hsome
        cases hsome
  · rw [if_neg ((holds_dmaMap r flags a).not.mpr hr), h]
    constructor
    · rintro ⟨x, hx, hxa, rfl⟩
      exact ⟨x, List.mem_cons_of_mem _ hx, hxa, rfl⟩
    · rintro ⟨x, hx, hxa, rfl⟩
      rcases List.mem_cons.mp hx with rfl | hx
      · exact absurd hxa hr
      · exact ⟨x, hx, hxa, rfl⟩

theorem Reaches.step (hI : I.Documented) (h : Reaches I s) (hs : Step I s t) : Reaches I t := by
  cases hs with
  | register r server c hm hd hr =>
    obtain ⟨-, rfl⟩ := dmaRegisterCb_mapped hm.vaddr hr
    split
    · rename_i ha
      exact h.accept hI ha
    · rename_i hf
      intro a p
      rw [hI.refused _ _ (not_le.mp hf)]
      exact h a p
  | unregister r server c hr hu =>
    obtain ⟨-, rfl⟩ := dmaUnregisterCb_ok hu
    exact h
  | registerUnmapped info mapping server c hv hr =>
    obtain ⟨-, rfl⟩ := dmaRegisterCb_unmapped hv hr
    exact h
  | unregisterUnmapped info server c hm hu =>
    obtain ⟨-, rfl⟩ := dmaUnregisterCb_ok hu
    exact h

theorem Reaches.reachable (hI : I.Documented) (h : (passthrough I).Reachable s) : Reaches I s := by
  refine h.invariant ?_ fun s t hi hs => hi.step hI hs
  rintro s rfl a p
  simp [hI.initial]

theorem Step.accepted (hs : Step I s t) : s.accepted ⊆ t.accepted := by
  cases hs with
  | register =>
    dsimp only
    split
    · exact List.subset_cons_self _ _
    · exact List.Subset.refl _
  | unregister | registerUnmapped | unregisterUnmapped => exact List.Subset.refl _

/-- Unregistering takes nothing away from a passthrough device: it reaches all that was ever mapped for it, and
memory that this process can no longer reach on behalf of the guest. -/
theorem unregistered_still_reachable (I : Iommu σ) (hI : I.Documented) (s : State σ) (h : (passthrough I).Reachable s) :
    Reaches I s ∧
      (∀ t, ReflTransGen (passthrough I).step s t → ∀ a p, I.translate s.container a = some p →
        I.translate t.container a = some p) ∧
      ∀ r ∈ s.accepted, ∀ a n, r.Holds a → (∀ x ∈ s.guest.live, ¬x.Holds a) →
        dmaLocalAddr s.guest.server a n = .ok none ∧
          I.translate s.container a = some (r.info.vaddr + (a - r.start)) := by
  have hreach := Reaches.reachable hI h
  refine ⟨hreach, fun t ht a p hp => ?_, fun r hr a n ha hnone => ⟨?_, ?_⟩⟩
  · have hsub : s.accepted ⊆ t.accepted := by
      clear hp
      induction ht with
      | refl => exact List.Subset.refl _
      | tail _ hs ih => exact List.Subset.trans ih hs.accepted
    obtain ⟨r, hr, ha, rfl⟩ := (hreach a p).mp hp
    exact (Reaches.reachable hI (h.steps ht) a _).mpr ⟨r, hsub hr, ha, rfl⟩
  · exact (Accurate.reachable (guest_reachable h)).lookup_none hnone
  · exact (hreach a _).mpr ⟨r, hr, ha, rfl⟩

/-- A container that keeps its mappings in a list. -/
def listed : Iommu (List DmaMapping) where
  initial := []
  mapDma c m := if c.any fun x => x.iova < m.iova + m.size ∧ m.iova < x.iova + x.size then (c, -1) else (m :: c, 0)
  unmapDma c iova size := (c.filter fun x => ¬(iova ≤ x.iova ∧ x.iova + x.size ≤ iova + size), 0)
  translate c a := (c.find? fun x => decide (x.Holds a)).map fun x => x.vaddr + (a - x.iova)

theorem listed_documented : listed.Documented := by
  refine ⟨fun _ => rfl, fun c m h => ?_, fun c m h a ha => ?_, fun c m h a => ?_⟩
  · simp only [listed] at h ⊢
    split at h
    · rename_i ho
      rw [if_pos ho]
    · cases h
  · simp only [listed] at h ⊢
    split at h
    · omega
    · rename_i ho
      rw [Option.map_eq_none_iff, List.find?_eq_none]
      intro x hx hxa
      obtain ⟨h1, h2⟩ := ha
      obtain ⟨h3, h4⟩ : x.Holds a := of_decide_eq_true hxa
      exact ho (List.any_eq_true.mpr ⟨x, hx, decide_eq_true ⟨by omega, by omega⟩⟩)
  · simp only [listed] at h ⊢
    split at h
    · omega
    · rename_i ho
      rw [if_neg ho, List.find?_cons]
      by_cases ha : m.Holds a
      · simp [ha]
      · simp [ha]

/-- The page is registered and unregistered, and the device still reaches it. -/
theorem unregistered_still_reachable_page : ∃ s, (passthrough listed).Reachable s ∧ s.guest.live = [] ∧
    dmaLocalAddr s.guest.server 0x1100 0x40 = .ok none ∧ listed.translate s.container 0x1100 = some 0x7100 := by
  have hm : page.Mapped := ⟨by decide, by decide, by decide, by decide, by decide⟩
  have h := Machine.Reachable.start (M := passthrough listed) rfl
  have h := h.step (.register page _ _ hm nofun rfl)
  have h := h.step (.unregister page _ _ List.mem_cons_self rfl)
  have hpage := (unregistered_still_reachable listed listed_documented _ h).2.2 page List.mem_cons_self 0x1100 0x40
    ⟨by decide, by decide⟩ nofun
  exact ⟨_, h, rfl, hpage.1, hpage.2⟩

end Vmux.PassthroughDma
