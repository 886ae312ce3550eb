import Mathlib.Tactic
import Vmux.DescriptorQueue

namespace Vmux.DmaMap

open DescriptorQueue

structure Iovec where
  base : ℕ
  len : ℕ
deriving DecidableEq, Repr

/-- `vfu_dma_info_t`; `mapping` is the base of the range that is mapped into this process. -/
structure DmaInfo where
  iova : Iovec
  vaddr : ℕ
  mapping : ℕ
  prot : ℕ
deriving DecidableEq, Repr

/-- The containers of `VfioUserServer` that the DMA callbacks keep: `mapped` and `sgs` by local
address, `mappings` by guest address. Of the scatter lists only the keys are used. -/
structure Server where
  mapped : Std.TreeSet ℕ
  sgs : Std.TreeSet ℕ
  mappings : Std.TreeMap ℕ Iovec

def Server.empty : Server := ⟨∅, ∅, ∅⟩

/-- `VFIO_DMA_MAP_FLAG_READ` and `VFIO_DMA_MAP_FLAG_WRITE` from `PROT_READ` and `PROT_WRITE`. -/
def dmaFlags (prot : ℕ) : ℕ := (if prot % 2 = 1 then 1 else 0) + if prot / 2 % 2 = 1 then 2 else 0

/-- The new containers and, if the region was mapped, its flags. `mapping` is what `vfu_sgl_get`
stores, if it and `vfu_addr_to_sgl` succeed. -/
def mapDmaHere (s : Server) (info : DmaInfo) (mapping : Option Iovec) : Except Fault (Server × Option ℕ) :=
  if info.vaddr = 0 then .ok (s, none)
  else match mapping with
    | none => .error .abort
    | some m => .ok (⟨s.mapped.insert info.vaddr, s.sgs.insert info.vaddr, s.mappings.insert info.iova.base m⟩,
        some (dmaFlags info.prot))

def unmapDmaHere (s : Server) (info : DmaInfo) : Server :=
  if info.mapping = 0 then s
  else ⟨s.mapped.erase info.vaddr, s.sgs.erase info.vaddr, s.mappings.erase info.iova.base⟩

def word : ℕ := 2 ^ 64

/-- The loop of `dma_local_addr` over the mappings that are left. -/
def findSegment (dmaAddress len : ℕ) : List (ℕ × Iovec) → Except Fault (Option ℕ)
  | [] => .ok none
  | (iovaStart, segment) :: rest =>
    let iovaEnd := (iovaStart + segment.len) % word
    if iovaStart ≤ dmaAddress ∧ dmaAddress < iovaEnd then
      if (dmaAddress + len) % word > iovaEnd then .error .abort
      else .ok (some ((segment.base + (dmaAddress - iovaStart)) % word))
    else findSegment dmaAddress len rest

/-- `dma_local_addr`, which goes through the mappings from the last one to the first. -/
def dmaLocalAddr (s : Server) (dmaAddress len : ℕ) : Except Fault (Option ℕ) :=
  findSegment dmaAddress len s.mappings.toList.reverse

end Vmux.DmaMap
