import Vmux.BitFields
import Vmux.DoorbellRouting
import Vmux.StorageRegisters

namespace Vmux.QueueContext

open Bytes BitFields AddressMap DescriptorQueue AdminQueue LanRx LanTx Registers Nic

/-- A row of `ice_ctx_ele`: a member with its size in bytes and the bits of the packed form. -/
structure CtxEle (α : Type) where
  get : α → ℕ
  sizeOf : ℕ
  width : ℕ
  lsb : ℕ

section

variable {α : Type}

/-- The common body of the four functions below, over words of `size` bytes. -/
def iceWrite (size : ℕ) (src : α) (dest : List UInt8) (e : CtxEle α) : List UInt8 :=
  let shift := e.lsb % 8
  let mask := BitVec.ofNat (8 * size) (2 ^ e.width - 1)
  let word := BitVec.ofNat (8 * size) (e.get src) &&& mask
  let old := BitVec.ofNat (8 * size) (leNat (slice dest (e.lsb / 8) size))
  overwrite dest (e.lsb / 8) (leBytes size (old &&& ~~~(mask <<< shift) ||| word <<< shift).toNat)

def iceWriteByte (src : α) (dest : List UInt8) (e : CtxEle α) : List UInt8 := iceWrite 1 src dest e
def iceWriteWord (src : α) (dest : List UInt8) (e : CtxEle α) : List UInt8 := iceWrite 2 src dest e
def iceWriteDword (src : α) (dest : List UInt8) (e : CtxEle α) : List UInt8 := iceWrite 4 src dest e
def iceWriteQword (src : α) (dest : List UInt8) (e : CtxEle α) : List UInt8 := iceWrite 8 src dest e

/-- `none` is `ICE_ERR_INVAL_SIZE`. A field that is wider than its member is not written. -/
def iceSetCtx (src : α) : List UInt8 → List (CtxEle α) → Option (List UInt8)
  | dest, [] => some dest
  | dest, e :: info =>
    if e.sizeOf * 8 < e.width then iceSetCtx src dest info
    else match e.sizeOf with
      | 1 => iceSetCtx src (iceWriteByte src dest e) info
      | 2 => iceSetCtx src (iceWriteWord src dest e) info
      | 4 => iceSetCtx src (iceWriteDword src dest e) info
      | 8 => iceSetCtx src (iceWriteQword src dest e) info
      | _ => none

end

structure RlanCtx where
  head : ℕ
  cpuid : ℕ
  base : ℕ
  qlen : ℕ
  dbuf : ℕ
  hbuf : ℕ
  dtype : ℕ
  dsize : ℕ
  crcstrip : ℕ
  l2tsel : ℕ
  hsplit0 : ℕ
  hsplit1 : ℕ
  showiv : ℕ
  rxmax : ℕ
  tphrdescEna : ℕ
  tphwdescEna : ℕ
  tphdataEna : ℕ
  tphheadEna : ℕ
  lrxqthresh : ℕ
  prefena : ℕ

def iceRlanCtxInfo : List (CtxEle RlanCtx) :=
  [⟨RlanCtx.head, 2, 13, 0⟩, ⟨RlanCtx.cpuid, 2, 8, 13⟩, ⟨RlanCtx.base, 8, 57, 32⟩, ⟨RlanCtx.qlen, 2, 13, 89⟩,
   ⟨RlanCtx.dbuf, 2, 7, 102⟩, ⟨RlanCtx.hbuf, 2, 5, 109⟩, ⟨RlanCtx.dtype, 1, 2, 114⟩, ⟨RlanCtx.dsize, 1, 1, 116⟩,
   ⟨RlanCtx.crcstrip, 1, 1, 117⟩, ⟨RlanCtx.l2tsel, 1, 1, 119⟩, ⟨RlanCtx.hsplit0, 1, 4, 120⟩,
   ⟨RlanCtx.hsplit1, 1, 2, 124⟩, ⟨RlanCtx.showiv, 1, 1, 127⟩, ⟨RlanCtx.rxmax, 4, 14, 174⟩,
   ⟨RlanCtx.tphrdescEna, 1, 1, 193⟩, ⟨RlanCtx.tphwdescEna, 1, 1, 194⟩, ⟨RlanCtx.tphdataEna, 1, 1, 195⟩,
   ⟨RlanCtx.tphheadEna, 1, 1, 196⟩, ⟨RlanCtx.lrxqthresh, 2, 3, 198⟩, ⟨RlanCtx.prefena, 1, 1, 201⟩]

structure TlanCtx where
  base : ℕ
  portNum : ℕ
  cgdNum : ℕ
  pfNum : ℕ
  vmvfNum : ℕ
  vmvfType : ℕ
  srcVsi : ℕ
  tsynEna : ℕ
  internalUsageFlag : ℕ
  altVlan : ℕ
  cpuid : ℕ
  wbMode : ℕ
  tphrdDesc : ℕ
  tphrd : ℕ
  tphwrDesc : ℕ
  cmpqId : ℕ
  qnumInFunc : ℕ
  itrNotificationMode : ℕ
  adjustProfId : ℕ
  qlen : ℕ
  quantaProfIdx : ℕ
  tsoEna : ℕ
  tsoQnum : ℕ
  legacyInt : ℕ
  dropEna : ℕ
  cacheProfIdx : ℕ
  pktShaperProfIdx : ℕ
  gscEna : ℕ
  intQState : ℕ

def iceTlanCtxInfo : List (CtxEle TlanCtx) :=
  [⟨TlanCtx.base, 8, 57, 0⟩, ⟨TlanCtx.portNum, 1, 3, 57⟩, ⟨TlanCtx.cgdNum, 2, 5, 60⟩, ⟨TlanCtx.pfNum, 1, 3, 65⟩,
   ⟨TlanCtx.vmvfNum, 2, 10, 68⟩, ⟨TlanCtx.vmvfType, 1, 2, 78⟩, ⟨TlanCtx.srcVsi, 2, 10, 80⟩,
   ⟨TlanCtx.tsynEna, 1, 1, 90⟩, ⟨TlanCtx.internalUsageFlag, 1, 1, 91⟩, ⟨TlanCtx.altVlan, 1, 1, 92⟩,
   ⟨TlanCtx.cpuid, 2, 8, 93⟩, ⟨TlanCtx.wbMode, 1, 1, 101⟩, ⟨TlanCtx.tphrdDesc, 1, 1, 102⟩,
   ⟨TlanCtx.tphrd, 1, 1, 103⟩, ⟨TlanCtx.tphwrDesc, 1, 1, 104⟩, ⟨TlanCtx.cmpqId, 2, 9, 105⟩,
   ⟨TlanCtx.qnumInFunc, 2, 14, 114⟩, ⟨TlanCtx.itrNotificationMode, 1, 1, 128⟩, ⟨TlanCtx.adjustProfId, 1, 6, 129⟩,
   ⟨TlanCtx.qlen, 4, 13, 135⟩, ⟨TlanCtx.quantaProfIdx, 1, 4, 148⟩, ⟨TlanCtx.tsoEna, 1, 1, 152⟩,
   ⟨TlanCtx.tsoQnum, 2, 11, 153⟩, ⟨TlanCtx.legacyInt, 1, 1, 164⟩, ⟨TlanCtx.dropEna, 1, 1, 165⟩,
   ⟨TlanCtx.cacheProfIdx, 1, 2, 166⟩, ⟨TlanCtx.pktShaperProfIdx, 1, 3, 168⟩, ⟨TlanCtx.intQState, 1, 122, 171⟩,
   ⟨TlanCtx.gscEna, 1, 1, 172⟩]

section

variable {α : Type} {src : α} {size : ℕ} {dest : List UInt8} {e : CtxEle α} {info : List (CtxEle α)}

theorem length_iceWrite (hlen : e.lsb / 8 + size ≤ dest.length) : (iceWrite size src dest e).length = dest.length :=
  overwrite_length (by rw [leBytes_length]; exact hlen)

theorem leNat_iceWrite (hfit : e.lsb % 8 + e.width ≤ 8 * size) (hlen : e.lsb / 8 + size ≤ dest.length) :
    leNat (iceWrite size src dest e) = setField (leNat dest) e.lsb e.width (e.get src) := by
  apply Nat.eq_of_testBit_eq
  intro i
  have hsplit : 8 * (e.lsb / 8) + e.lsb % 8 = e.lsb := Nat.div_add_mod _ _
  dsimp only [iceWrite]
  rw [leNat_overwrite (by rw [leBytes_length]; exact hlen), leBytes_length, testBit_setField, testBit_setField,
    leNat_leBytes, ← two_pow_eight_mul, Nat.mod_eq_of_lt (BitVec.isLt _)]
  by_cases hin : 8 * (e.lsb / 8) ≤ i ∧ i < 8 * (e.lsb / 8) + 8 * size
  · rw [if_pos hin]
    have hbit : i - 8 * (e.lsb / 8) < 8 * size := by omega
    have hback : i - 8 * (e.lsb / 8) + 8 * (e.lsb / 8) = i := by omega
    simp only [BitVec.testBit_toNat, BitVec.getLsbD_or, BitVec.getLsbD_and, BitVec.getLsbD_not, BitVec.getLsbD_shiftLeft,
      BitVec.getLsbD_ofNat, Nat.testBit_two_pow_sub_one, leNat_slice, testBit_field, hbit, hback]
    by_cases hf : e.lsb ≤ i ∧ i < e.lsb + e.width
    · have h1 : ¬i - 8 * (e.lsb / 8) < e.lsb % 8 := by omega
      have h2 : i - 8 * (e.lsb / 8) - e.lsb % 8 < 8 * size := by omega
      have h3 : i - 8 * (e.lsb / 8) - e.lsb % 8 < e.width := by omega
      have h4 : i - 8 * (e.lsb / 8) - e.lsb % 8 = i - e.lsb := by omega
      rw [h4] at h2 h3
      rw [if_pos hf, h4]
      simp [h1, h2, h3]
    · rw [if_neg hf]
      by_cases h1 : i - 8 * (e.lsb / 8) < e.lsb % 8
      · simp [h1]
      · have h3 : ¬i - 8 * (e.lsb / 8) - e.lsb % 8 < e.width := by omega
        simp [h3]
  · rw [if_neg hin]
    have hf : ¬(e.lsb ≤ i ∧ i < e.lsb + e.width) := by omega
    rw [if_neg hf]

def CtxEle.Written (e : CtxEle α) : Prop := e.width ≤ e.sizeOf * 8

instance : DecidablePred (@CtxEle.Written α) := fun _ => inferInstanceAs (Decidable (_ ≤ _))

def CtxEle.field (src : α) (e : CtxEle α) : Field := ⟨e.lsb, e.width, e.get src⟩

/-- The word through which a field is written holds all of it and lies inside the packed form. -/
def CtxEle.Fits (n : ℕ) (e : CtxEle α) : Prop :=
  e.Written → e.sizeOf ∈ [1, 2, 4, 8] ∧ e.lsb % 8 + e.width ≤ 8 * e.sizeOf ∧ e.lsb / 8 + e.sizeOf ≤ n

instance (n : ℕ) : DecidablePred (@CtxEle.Fits α n) := fun _ => inferInstanceAs (Decidable (_ → _))

structure WellPlaced (n : ℕ) (info : List (CtxEle α)) : Prop where
  fits : ∀ e ∈ info, e.Fits n
  apart : (info.filter fun e => e.Written).Pairwise fun a b => b.lsb + b.width ≤ a.lsb ∨ a.lsb + a.width ≤ b.lsb

theorem iceSetCtx_pack (h : ∀ e ∈ info, e.Fits dest.length) :
    ∃ b, iceSetCtx src dest info = some b ∧ b.length = dest.length ∧
      leNat b = pack (leNat dest) ((info.filter fun e => e.Written).map (CtxEle.field src)) := by
  induction info generalizing dest with
  | nil => exact ⟨dest, rfl, rfl, rfl⟩
  | cons e info ih =>
    have hinfo : ∀ x ∈ info, x.Fits dest.length := fun x hx => h x (List.mem_cons_of_mem _ hx)
    by_cases hw : e.Written
    · obtain ⟨hsize, hfit, hlen⟩ := h e List.mem_cons_self hw
      have hl : (iceWrite e.sizeOf src dest e).length = dest.length := length_iceWrite hlen
      obtain ⟨b, hb, hbl, hbn⟩ := @ih (iceWrite e.sizeOf src dest e) (by rwa [hl])
      refine ⟨b, ?_, hbl.trans hl, ?_⟩
      · rw [iceSetCtx, if_neg (Nat.not_lt.mpr hw)]
        simp only [List.mem_cons, List.not_mem_nil, or_false] at hsize
        rcases hsize with hs | hs | hs | hs
        · rw [hs] at hb ⊢
          exact hb
        · rw [hs] at hb ⊢
          exact hb
        · rw [hs] at hb ⊢
          exact hb
        · rw [hs] at hb ⊢
          exact hb
      · rw [hbn, leNat_iceWrite hfit hlen, List.filter_cons_of_pos (by simpa using hw), List.map_cons]
        rfl
    · obtain ⟨b, hb, hbl, hbn⟩ := ih hinfo
      refine ⟨b, ?_, hbl, ?_⟩
      · rw [iceSetCtx, if_pos (Nat.not_le.mp hw)]
        exact hb
      · rw [List.filter_cons_of_neg (by simpa using hw)]
        exact hbn

theorem iceSetCtx_field (h : WellPlaced dest.length info) (src : α) :
    ∃ b, iceSetCtx src dest info = some b ∧ b.length = dest.length ∧
      ∀ e ∈ info, e.Written → field (leNat b) e.lsb e.width = e.get src % 2 ^ e.width := by
  obtain ⟨b, hb, hbl, hbn⟩ := @iceSetCtx_pack _ src dest info h.fits
  refine ⟨b, hb, hbl, ?_⟩
  intro e he hw
  have hpair : ((info.filter fun e => e.Written).map (CtxEle.field src)).Pairwise fun a b => b.Apart a :=
    List.pairwise_map.mpr h.apart
  have hmem : e.field src ∈ (info.filter fun e => e.Written).map (CtxEle.field src) :=
    List.mem_map_of_mem (List.mem_filter.mpr ⟨he, by simpa using hw⟩)
  rw [hbn]
  exact field_pack hpair hmem _

end

theorem rlan_wellPlaced : WellPlaced 32 iceRlanCtxInfo := ⟨by decide, by decide⟩

theorem tlan_wellPlaced : WellPlaced 22 iceTlanCtxInfo := ⟨by decide, by decide⟩

/-- `QRX_CONTEXT(_i, _QRX)`. -/
def qrxContext (i q : ℕ) : ℕ := 0x280000 + (i * 8192 + q * 4)

/-- `ice_copy_rxq_ctx_to_hw`, whose `wr32` arrive as register writes. Above `QRX_CTRL_MAX_INDEX` it
returns `ICE_ERR_PARAM`. -/
def iceCopyRxqCtxToHw (env : DeviceEnv) (d : Device) (ctx : List UInt8) (q : ℕ) : Except Fault Device :=
  if 2047 < q then .ok d
  else (List.range 8).foldlM (fun d i => d.regWrite env (qrxContext i q) (get32 ctx (i * 4))) d

def copyAll (env : DeviceEnv) (d : Device) (ctxs : List (ℕ × List UInt8)) : Except Fault Device :=
  ctxs.foldlM (fun d x => iceCopyRxqCtxToHw env d x.2 x.1) d

variable {env : DeviceEnv} {d d' : Device} {q i : ℕ} {b : List UInt8}

theorem qrxContext_decodes :
    Decodes 0x280000 0x28FFFF 4 (.store .qrxContext) (writeRanges ++ writeCases) := by decide +kernel

theorem regWrite_qrxContext (env : DeviceEnv) (d : Device) (hi : i < 8) (hq : q < 2048) (val : ℕ) :
    d.regWrite env (qrxContext i q) val = .ok (d.setRegs (d.regs.store .qrxContext (i * 2048 + q) val)) := by
  have hlo : 0x280000 ≤ qrxContext i q := Nat.le_add_right _ _
  have hhi : qrxContext i q ≤ 0x28FFFF := by
    unfold qrxContext
    omega
  obtain ⟨r, hl, ht, hidx⟩ := qrxContext_decodes.lookup_eq hlo hhi
  have hindex : (qrxContext i q - 0x280000) / 4 = i * 2048 + q := by
    unfold qrxContext
    omega
  rw [hindex] at hidx
  have hin : ∀ a ∈ writeAccesses d.regs (fun i => (d.rxqs i).q.enabled) (qrxContext i q) val, a.InBounds := by
    unfold writeAccesses
    rw [hl]
    dsimp only
    rw [ht, hidx]
    intro a ha
    rw [List.mem_singleton.mp ha]
    change i * 2048 + q < 8 * 2048
    omega
  unfold Device.regWrite regMemWrite32
  rw [if_pos hin, hl]
  dsimp only
  rw [ht, hidx]
  rfl

theorem copy_words (env : DeviceEnv) (hq : q < 2048) (n : ℕ) (hn : n ≤ 8) (d : Device) :
    ∃ d', (List.range n).foldlM (fun d i => d.regWrite env (qrxContext i q) (get32 b (i * 4))) d = .ok d' ∧
      ∀ i q', i < 8 → q' < 2048 → d'.regs.arr .qrxContext (i * 2048 + q') =
        if q' = q ∧ i < n then get32 b (i * 4) else d.regs.arr .qrxContext (i * 2048 + q') := by
  induction n with
  | zero => exact ⟨d, rfl, fun i q' _ _ => by simp⟩
  | succ n ih =>
    obtain ⟨d₁, hd₁, hw⟩ := ih (by omega)
    refine ⟨d₁.setRegs (d₁.regs.store .qrxContext (n * 2048 + q) (get32 b (n * 4))), ?_, ?_⟩
    · have hstep := regWrite_qrxContext env d₁ (i := n) (by omega) hq (get32 b (n * 4))
      simp only [List.range_succ, List.foldlM_append, hd₁, List.foldlM_cons, List.foldlM_nil]
      exact congrArg (· >>= pure) hstep
    · intro i q' hi hq'
      change (d₁.regs.store .qrxContext (n * 2048 + q) (get32 b (n * 4))).arr .qrxContext (i * 2048 + q') = _
      by_cases hsame : q' = q ∧ i = n
      · obtain ⟨rfl, rfl⟩ := hsame
        rw [StorageRegisters.store_arr_self, if_pos ⟨rfl, by omega⟩]
      · rw [StorageRegisters.store_arr_ne _ _ _ _ (.inr (by omega)), hw i q' hi hq']
        by_cases hold : q' = q ∧ i < n
        · rw [if_pos hold, if_pos ⟨hold.1, by omega⟩]
        · rw [if_neg hold, if_neg (by omega)]

theorem leBytes_get32 {l : List UInt8} {off : ℕ} (h : off + 4 ≤ l.length) : leBytes 4 (get32 l off) = slice l off 4 := by
  have h4 := leBytes_leNat (slice l off 4)
  rwa [slice_length h] at h4

theorem flatMap_slices (l : List UInt8) (n : ℕ) :
    ((List.range n).flatMap fun i => slice l (i * 4) 4) = l.take (n * 4) := by
  induction n with
  | zero => simp
  | succ n ih =>
    rw [List.range_succ, List.flatMap_append, ih, Nat.succ_mul, List.take_add]
    simp [slice]

theorem copied_context (env : DeviceEnv) (d : Device) (hq : q < 2048) (hb : b.length = 32) :
    ∃ d', iceCopyRxqCtxToHw env d b q = .ok d' ∧ rxContext d'.regs q = b ∧
      ∀ q', q' < 2048 → q' ≠ q → rxContext d'.regs q' = rxContext d.regs q' := by
  obtain ⟨d', hd', hw⟩ := @copy_words q b env hq 8 le_rfl d
  refine ⟨d', ?_, ?_, ?_⟩
  · rw [iceCopyRxqCtxToHw, if_neg (by omega)]
    exact hd'
  · have hwords : rxContext d'.regs q = (List.range 8).flatMap fun i => slice b (i * 4) 4 := by
      unfold rxContext
      apply List.flatMap_congr
      intro i hi
      have hi8 := List.mem_range.mp hi
      rw [hw i q hi8 hq, if_pos ⟨rfl, hi8⟩, leBytes_get32 (by omega)]
    rw [hwords, flatMap_slices]
    exact List.take_of_length_le (by omega)
  · intro q' hq' hne
    unfold rxContext
    apply List.flatMap_congr
    intro i hi
    rw [hw i q' (List.mem_range.mp hi) hq', if_neg (by omega)]

theorem copyAll_context {others : List (ℕ × List UInt8)} (hothers : ∀ x ∈ others, x.1 ≠ q ∧ x.2.length = 32)
    (env : DeviceEnv) (d : Device) (hq : q < 2048) :
    ∃ d', copyAll env d others = .ok d' ∧ rxContext d'.regs q = rxContext d.regs q := by
  induction others generalizing d with
  | nil => exact ⟨d, rfl, rfl⟩
  | cons x others ih =>
    obtain ⟨hne, hlen⟩ := hothers x List.mem_cons_self
    have hrest : ∀ y ∈ others, y.1 ≠ q ∧ y.2.length = 32 := fun y hy => hothers y (List.mem_cons_of_mem _ hy)
    have hcopy : ∃ d₁, iceCopyRxqCtxToHw env d x.2 x.1 = .ok d₁ ∧ rxContext d₁.regs q = rxContext d.regs q := by
      by_cases hx : x.1 < 2048
      · obtain ⟨d₁, hd₁, -, hkeep⟩ := copied_context env d hx hlen
        exact ⟨d₁, hd₁, hkeep q hq hne.symm⟩
      · exact ⟨d, by rw [iceCopyRxqCtxToHw, if_pos (by omega)], rfl⟩
    obtain ⟨d₁, hd₁, hkeep⟩ := hcopy
    obtain ⟨d', hd', hkeep'⟩ := ih hrest d₁
    refine ⟨d', ?_, hkeep'.trans hkeep⟩
    rw [copyAll, List.foldlM_cons, hd₁]
    exact hd'

structure RxDecoded (ctx : RlanCtx) (c : Config RxClient RxPacket) : Prop where
  base : c.q.base = 128 * (ctx.base % 2 ^ 57)
  len : c.q.len = ctx.qlen % 2 ^ 13
  head : c.q.regHead = ctx.head % 2 ^ 13
  dbuff : c.client.dbuffSize = 128 * (ctx.dbuf % 2 ^ 7)
  hbuff : c.client.hbuffSize = 64 * (ctx.hbuf % 2 ^ 5)
  crc_strip : c.client.crcStrip = true ↔ ctx.crcstrip % 2 = 1

structure TxDecoded (ctx : TlanCtx) (c : Config TxClient Unit) : Prop where
  base : c.q.base = 128 * (ctx.base % 2 ^ 57)
  len : c.q.len = ctx.qlen % 2 ^ 13
  hwb : c.client.hwb = true ↔ ctx.wbMode % 2 = 1

/-- The context of `q` is written, then those of other queues, then `q` is initialized. -/
def RxInverted (env : DeviceEnv) (d : Device) (q : ℕ) (ctx : RlanCtx) (others : List (ℕ × List UInt8)) : Prop :=
  ∃ b d' c, iceSetCtx ctx (List.replicate 32 0) iceRlanCtxInfo = some b ∧ copyAll env d ((q, b) :: others) = .ok d' ∧
    rxEnable (rxContext d'.regs q) (d'.rxqs q) = .ok c ∧ RxDecoded ctx c

/-- `add_txqs` takes the context over, then its queue is initialized. -/
def TxInverted (env : AdminEnv) (dev : AdminDev) (ctxs : Slot → DescCtx) (p : Slot) (ctx : TlanCtx)
    (c : Config TxClient Unit) : Prop :=
  ∃ h, handle env dev ctxs p = .ok h ∧ TxDecoded ctx (txEnable (h.dev.ctxAddr (get16 (ctxs p).data 8)) c)

theorem rxEnable_decoded {ctx : RlanCtx} (hf : ∀ e ∈ iceRlanCtxInfo, e.Written →
      field (leNat b) e.lsb e.width = e.get ctx % 2 ^ e.width)
    (hsize : ctx.dsize % 2 = 1) (htype : ctx.dtype % 4 = 0) (c : Config RxClient RxPacket) :
    ∃ c', rxEnable b c = .ok c' ∧ RxDecoded ctx c' := by
  have hhead : rxHead b = ctx.head % 2 ^ 13 := by
    have h := (@field_slice b 0 2 0 13 (by decide)).trans
      (hf ⟨RlanCtx.head, 2, 13, 0⟩ (by simp [iceRlanCtxInfo]) (by decide))
    rwa [field, pow_zero, Nat.div_one] at h
  have hbase : get64 b 4 % 2 ^ 57 = ctx.base % 2 ^ 57 := by
    have h := (@field_slice b 4 8 0 57 (by decide)).trans
      (hf ⟨RlanCtx.base, 8, 57, 32⟩ (by simp [iceRlanCtxInfo]) (by decide))
    rwa [field, pow_zero, Nat.div_one] at h
  have hlen : rxLen b = ctx.qlen % 2 ^ 13 :=
    (@field_slice b 11 2 1 13 (by decide)).trans
      (hf ⟨RlanCtx.qlen, 2, 13, 89⟩ (by simp [iceRlanCtxInfo]) (by decide))
  have hdbuf : get16 b 12 / 0x40 % 0x80 = ctx.dbuf % 2 ^ 7 :=
    (@field_slice b 12 2 6 7 (by decide)).trans
      (hf ⟨RlanCtx.dbuf, 2, 7, 102⟩ (by simp [iceRlanCtxInfo]) (by decide))
  have hhbuf : get16 b 13 / 0x20 % 0x20 = ctx.hbuf % 2 ^ 5 :=
    (@field_slice b 13 2 5 5 (by decide)).trans
      (hf ⟨RlanCtx.hbuf, 2, 5, 109⟩ (by simp [iceRlanCtxInfo]) (by decide))
  have hdtype : rxDtype b = ctx.dtype % 4 :=
    (@field_slice b 13 2 10 2 (by decide)).trans
      (hf ⟨RlanCtx.dtype, 1, 2, 114⟩ (by simp [iceRlanCtxInfo]) (by decide))
  have hdsize : get16 b 13 / 0x1000 % 2 = ctx.dsize % 2 :=
    (@field_slice b 13 2 12 1 (by decide)).trans
      (hf ⟨RlanCtx.dsize, 1, 1, 116⟩ (by simp [iceRlanCtxInfo]) (by decide))
  have hcrc : get16 b 13 / 0x2000 % 2 = ctx.crcstrip % 2 :=
    (@field_slice b 13 2 13 1 (by decide)).trans
      (hf ⟨RlanCtx.crcstrip, 1, 1, 117⟩ (by simp [iceRlanCtxInfo]) (by decide))
  have hlong : rxLongdesc b = true := by
    rw [rxLongdesc, hdsize, hsize]
    rfl
  have h57 : ctx.base % 2 ^ 57 < 2 ^ 57 := Nat.mod_lt _ (by decide)
  unfold rxEnable
  rw [hlong, if_neg (by decide), if_neg (by omega)]
  refine ⟨_, rfl, ?_, hlen, hhead, ?_, ?_, ?_⟩
  · change get64 b 4 % 2 ^ 57 * 128 % 2 ^ 64 = _
    rw [hbase]
    omega
  · exact (congrArg (· * 128) hdbuf).trans (Nat.mul_comm _ _)
  · exact (congrArg (· * 64) hhbuf).trans (Nat.mul_comm _ _)
  · change decide (get16 b 13 / 0x2000 % 2 = 1) = true ↔ _
    rw [hcrc, decide_eq_true_iff]

/-- The mask for the length has 14 bits and takes in the lowest bit of the next field. -/
theorem txEnable_decoded_iff {ctx : TlanCtx} (hf : ∀ e ∈ iceTlanCtxInfo, e.Written →
      field (leNat b) e.lsb e.width = e.get ctx % 2 ^ e.width) (c : Config TxClient Unit) :
    TxDecoded ctx (txEnable b c) ↔ ctx.quantaProfIdx % 2 = 0 := by
  have hbase : get64 b 0 % 2 ^ 57 = ctx.base % 2 ^ 57 := by
    have h := (@field_slice b 0 8 0 57 (by decide)).trans
      (hf ⟨TlanCtx.base, 8, 57, 0⟩ (by simp [iceTlanCtxInfo]) (by decide))
    rwa [field, pow_zero, Nat.div_one] at h
  have hwb : get64 b 12 / 0x20 % 2 = ctx.wbMode % 2 :=
    (@field_slice b 12 8 5 1 (by decide)).trans
      (hf ⟨TlanCtx.wbMode, 1, 1, 101⟩ (by simp [iceTlanCtxInfo]) (by decide))
  have hqlen : field (leNat b) 135 13 = ctx.qlen % 2 ^ 13 :=
    hf ⟨TlanCtx.qlen, 4, 13, 135⟩ (by simp [iceTlanCtxInfo]) (by decide)
  have hquanta : field (leNat b) 148 4 = ctx.quantaProfIdx % 2 ^ 4 :=
    hf ⟨TlanCtx.quantaProfIdx, 1, 4, 148⟩ (by simp [iceTlanCtxInfo]) (by decide)
  have hlow : field (leNat b) 148 4 = field (leNat b) 148 1 + 2 * field (leNat b) 149 3 := field_add _ _ 1 3
  have hlen : txLen b = ctx.qlen % 2 ^ 13 + 2 ^ 13 * field (leNat b) 148 1 := by
    have h : txLen b = field (leNat b) 135 14 := @field_slice b 16 4 7 14 (by decide)
    rw [h, ← hqlen]
    exact field_add _ _ 13 1
  have hbit : field (leNat b) 148 1 < 2 := Nat.mod_lt _ (by decide)
  constructor
  · intro h
    have hl : txLen b = ctx.qlen % 2 ^ 13 := h.len
    omega
  · intro heven
    have h57 : ctx.base % 2 ^ 57 < 2 ^ 57 := Nat.mod_lt _ (by decide)
    refine ⟨?_, ?_, ?_⟩
    · change get64 b 0 % 2 ^ 57 * 128 % 2 ^ 64 = _
      rw [hbase]
      omega
    · change txLen b = _
      omega
    · change decide (get64 b 12 / 0x20 % 2 = 1) = true ↔ _
      rw [hwb, decide_eq_true_iff]

theorem rx_inverted (env : DeviceEnv) (d : Device) (hq : q < Registers.numQueues) {ctx : RlanCtx}
    (hsize : ctx.dsize % 2 = 1) (htype : ctx.dtype % 4 = 0) {others : List (ℕ × List UInt8)}
    (hothers : ∀ x ∈ others, x.1 ≠ q ∧ x.2.length = 32) : RxInverted env d q ctx others := by
  have hq' : q < 2048 := hq.trans (by decide)
  obtain ⟨b, hb, hbl, hf⟩ := @iceSetCtx_field _ (List.replicate 32 0) _ rlan_wellPlaced ctx
  obtain ⟨d₁, hd₁, hown, -⟩ := copied_context env d hq' hbl
  obtain ⟨d', hd', hkeep⟩ := copyAll_context hothers env d₁ hq'
  obtain ⟨c, hc, hdec⟩ := rxEnable_decoded hf hsize htype (d'.rxqs q)
  refine ⟨b, d', c, hb, ?_, ?_, hdec⟩
  · rw [copyAll, List.foldlM_cons, hd₁]
    exact hd'
  · rw [hkeep, hown]
    exact hc

theorem handle_addTxqs {env : AdminEnv} {dev : AdminDev} {ctxs : Slot → DescCtx} {p : Slot}
    (hop : opcode (ctxs p).desc = opcodeAddTxqs) (hdata : 56 ≤ (ctxs p).data.length)
    (hidx : get16 (ctxs p).data 8 < AdminQueue.numQueues) :
    ∃ h, handle env dev ctxs p = .ok h ∧ h.dev.ctxAddr (get16 (ctxs p).data 8) = slice (ctxs p).data 16 22 := by
  have hok : ∃ h, handle env dev ctxs p = .ok h := by
    unfold handle
    dsimp only
    rw [hop]
    dsimp only [opcodeAddTxqs]
    rw [need_ok hdata]
    exact ⟨_, if_neg (by omega)⟩
  obtain ⟨h, hh⟩ := hok
  obtain ⟨-, -, -, hctx⟩ := (handle_txqs hh).add hop
  exact ⟨h, hh, by rw [hctx, Function.update_self]⟩

theorem queue_context_inverted_iff (env : DeviceEnv) (d : Device) (q : ℕ) (hq : q < Registers.numQueues) (rx : RlanCtx)
    (hsize : rx.dsize % 2 = 1) (htype : rx.dtype % 4 = 0) (others : List (ℕ × List UInt8))
    (hothers : ∀ x ∈ others, x.1 ≠ q ∧ x.2.length = 32) (aenv : AdminEnv) (dev : AdminDev) (ctxs : Slot → DescCtx)
    (p : Slot) (hop : opcode (ctxs p).desc = opcodeAddTxqs) (hdata : 56 ≤ (ctxs p).data.length)
    (hidx : get16 (ctxs p).data 8 < AdminQueue.numQueues) (tx : TlanCtx) (dest : List UInt8) (hdest : dest.length = 22)
    (hctx : iceSetCtx tx dest iceTlanCtxInfo = some (slice (ctxs p).data 16 22)) (c : Config TxClient Unit) :
    RxInverted env d q rx others ∧ TxInverted aenv dev ctxs p tx c ↔ tx.quantaProfIdx % 2 = 0 := by
  have hrx := rx_inverted env d hq hsize htype hothers
  obtain ⟨b, hb, -, hf⟩ := @iceSetCtx_field _ dest iceTlanCtxInfo (by rw [hdest]; exact tlan_wellPlaced) tx
  obtain rfl := Option.some.inj (hb.symm.trans hctx)
  obtain ⟨h, hh, haddr⟩ := @handle_addTxqs aenv dev ctxs p hop hdata hidx
  rw [← txEnable_decoded_iff hf c]
  constructor
  · rintro ⟨-, h', hh', hdec⟩
    obtain rfl := Except.ok.inj (hh.symm.trans hh')
    rwa [haddr] at hdec
  · intro hdec
    refine ⟨hrx, h, hh, ?_⟩
    rwa [haddr]

def rlan : RlanCtx := ⟨5, 0xff, 0x123456, 512, 16, 3, 0, 1, 1, 1, 0xf, 3, 1, 12, 1, 1, 1, 1, 7, 1⟩

def tlan (quanta : ℕ) : TlanCtx :=
  ⟨0x123456, 7, 0x1f, 7, 0x3ff, 3, 0x3ff, 1, 1, 1, 0xff, 1, 1, 1, 1, 0x1ff, 0x3fff, 1, 0x3f, 64, quanta, 1, 0x7ff, 1, 1, 3,
    7, 1, 0⟩

/-- An `add_txqs` command for queue 0. -/
def addTxqsCtx (quanta : ℕ) : DescCtx where
  state := .prepared
  index := 0
  desc := [0, 0, 0x30, 0x0C] ++ List.replicate 28 0
  data := List.replicate 16 0 ++ ((iceSetCtx (tlan quanta) (List.replicate 22 0) iceTlanCtxInfo).getD [] ++
    List.replicate 18 0)

theorem addTxqsCtx_packed : ∀ quanta < 2, iceSetCtx (tlan quanta) (List.replicate 22 0) iceTlanCtxInfo =
    some (slice (addTxqsCtx quanta).data 16 22) := by decide +kernel

theorem addTxqsCtx_data : ∀ quanta < 2, 56 ≤ (addTxqsCtx quanta).data.length ∧
    get16 (addTxqsCtx quanta).data 8 < AdminQueue.numQueues := by decide +kernel

theorem queue_context_inverted_even :
    RxInverted DoorbellRouting.guestEnv zeroed 1535 rlan [(0, List.replicate 32 0xff)] ∧
      TxInverted DoorbellRouting.guestEnv.admin zeroed.atq.client.dev (fun _ => addTxqsCtx 0) 0 (tlan 0) (zeroed.txqs 0) :=
  (queue_context_inverted_iff DoorbellRouting.guestEnv zeroed 1535 (by decide) rlan rfl rfl
    [(0, List.replicate 32 0xff)] (by decide) DoorbellRouting.guestEnv.admin zeroed.atq.client.dev (fun _ => addTxqsCtx 0) 0
    (by decide) (addTxqsCtx_data 0 (by decide)).1 (addTxqsCtx_data 0 (by decide)).2 (tlan 0) (List.replicate 22 0) rfl
    (addTxqsCtx_packed 0 (by decide)) (zeroed.txqs 0)).mpr rfl

/-- With the lowest bit of `quanta_prof_idx` set, a ring of 64 descriptors is taken for one of 8256. -/
theorem queue_context_misread :
    iceSetCtx (tlan 1) (List.replicate 22 0) iceTlanCtxInfo = some (slice (addTxqsCtx 1).data 16 22) ∧
      ¬TxInverted DoorbellRouting.guestEnv.admin zeroed.atq.client.dev (fun _ => addTxqsCtx 1) 0 (tlan 1) (zeroed.txqs 0) ∧
      txLen (slice (addTxqsCtx 1).data 16 22) = 8256 := by
  refine ⟨addTxqsCtx_packed 1 (by decide), ?_, by decide +kernel⟩
  rintro ⟨h, hh, hdec⟩
  obtain ⟨h', hh', haddr⟩ := @handle_addTxqs DoorbellRouting.guestEnv.admin zeroed.atq.client.dev (fun _ => addTxqsCtx 1) 0
    (by decide) (addTxqsCtx_data 1 (by decide)).1 (addTxqsCtx_data 1 (by decide)).2
  obtain rfl := Except.ok.inj (hh.symm.trans hh')
  have hl : txLen (h.dev.ctxAddr (get16 (addTxqsCtx 1).data 8)) = (tlan 1).qlen % 2 ^ 13 := hdec.len
  rw [haddr] at hl
  exact absurd hl (by decide +kernel)

end Vmux.QueueContext
