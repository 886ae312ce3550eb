import Vmux.NicSteps
import Vmux.RegisterBounds

namespace Vmux.StorageRegisters

open Transitions AddressMap DescriptorQueue Registers RegisterBounds Nic

/-- An array of registers that only store what is written. -/
structure Row where
  arr : RegArray
  lo : ℕ
  stride : ℕ
deriving DecidableEq, Repr

def storageRows : List Row :=
  [⟨.pfintDynCtln, 0x160000, 4⟩, ⟨.glintItr 0, 0x154000, 4⟩, ⟨.glintItr 1, 0x156000, 4⟩, ⟨.glintItr 2, 0x158000, 4⟩,
   ⟨.qintTqctl, 0x140000, 4⟩, ⟨.qintRqctl, 0x150000, 4⟩, ⟨.glintCeqctl, 0x15C000, 4⟩, ⟨.qrxContext, 0x280000, 4⟩,
   ⟨.qrxflxpCntxt, 0x480000, 4⟩, ⟨.flexRxdid 0, 0x45C800, 4⟩, ⟨.flexRxdid 1, 0x45C900, 4⟩,
   ⟨.flexRxdid 2, 0x45CA00, 4⟩, ⟨.flexRxdid 3, 0x45CB00, 4⟩, ⟨.gltsynShtime, 0x0888E0, 4⟩] ++
  glprtCounters.map (fun c => ⟨.glprt c, c.base, 8⟩) ++
  glvCounters.map (fun c => ⟨.glv c, c.base, c.stride⟩)

/-- How many registers of an array are read where they are written. -/
def span : RegArray → ℕ
  | .glintCeqctl | .qrxContext | .gltsynShtime => 1
  | .flexRxdid 0 => 0
  | .glv _ => 8
  | a => a.size

inductive Half
  | whole
  | low
  | high
deriving DecidableEq, Repr

def Half.get : Half → ℕ → ℕ
  | whole, x => x
  | low, x => x % 0x100000000
  | high, x => x / 0x100000000 % 0x100000000

def storageRegs : List (ℕ × Half × Reg) :=
  [(0x080000, .low, .pfAtqba), (0x080100, .high, .pfAtqba), (0x080200, .whole, .pfAtqlen), (0x080300, .whole, .pfAtqh),
   (0x080400, .whole, .pfAtqt),
   (0x080080, .low, .pfArqba), (0x080180, .high, .pfArqba), (0x080280, .whole, .pfArqlen), (0x080380, .whole, .pfArqh),
   (0x080480, .whole, .pfArqt),
   (0x22E100, .low, .pfMbxAtqba), (0x22E180, .high, .pfMbxAtqba), (0x22E200, .whole, .pfMbxAtqlen),
   (0x22E280, .whole, .pfMbxAtqh), (0x22E300, .whole, .pfMbxAtqt),
   (0x22E380, .low, .pfMbxArqba), (0x22E400, .high, .pfMbxArqba), (0x22E480, .whole, .pfMbxArqlen),
   (0x22E500, .whole, .pfMbxArqh), (0x22E580, .whole, .pfMbxArqt)]

inductive Word
  | elem (a : RegArray) (i : ℕ)
  | part (h : Half) (r : Reg)
deriving DecidableEq, Repr

def Word.get (regs : Regs) : Word → ℕ
  | elem a i => regs.arr a i
  | part h r => h.get (regs.reg r)

def Word.InSpan : Word → Prop
  | elem a i => i < span a
  | part _ _ => True

/-- The address of a storage register, at every index that its array has. -/
inductive Storage : ℕ → Word → Prop
  | elem (row : Row) (i : ℕ) (h : row ∈ storageRows) (hi : i < row.arr.size) :
      Storage (row.lo + row.stride * i) (.elem row.arr i)
  | part {addr : ℕ} (h : Half) (r : Reg) (hm : (addr, h, r) ∈ storageRegs) : Storage addr (.part h r)

def Half.read : Half → Reg → ReadReg
  | whole => .reg
  | low => .low
  | high => .high

def target : RegArray → WriteAction
  | .qintTqctl => .tqctl
  | .glintCeqctl => .ceqctl
  | a => .store a

def Row.last (row : Row) : ℕ := row.lo + row.stride * (span row.arr - 1)

/-- The arrays that a branch of `reg_mem_write32` stores to. -/
def touched : WriteAction → List RegArray
  | .store a => [a]
  | .commDbell => [.qtxCommDbell, .qtxTail]
  | .rxTail => [.qrxTail]
  | .rxCtrl => [.qrxCtrl, .qrxEna]
  | .tqctl => [.qintTqctl]
  | .ceqctl => [.glintCeqctl]

def storeReg : RegStore → Reg
  | .set r | .low r _ | .high r => r

def storeHalf : RegStore → Half
  | .set _ => .whole
  | .low _ _ => .low
  | .high _ => .high

/-- What the two decoders do with each array: read and write it inside its span, and store to it
nowhere else. -/
theorem rows_table : ∀ row ∈ storageRows, 0 < row.stride ∧
    (0 < span row.arr → Decodes row.lo row.last row.stride (.load row.arr) (readRanges ++ readCases) ∧
      Decodes row.lo row.last row.stride (target row.arr) (writeRanges ++ writeCases)) ∧
    (∀ r ∈ writeRanges ++ writeCases, row.arr ∈ touched r.target → r.lo = row.lo ∧ r.stride = row.stride) ∧
    row.arr ≠ .qrxEna ∧ row.arr ≠ .gltsynEna ∧ row.arr ≠ .gltsynIncval := by
  decide +kernel

/-- What the two `switch` statements do with each register of the queues. -/
theorem regs_table : ∀ x ∈ storageRegs, ((lookup (readRanges ++ readCases) x.1).isNone ∧
      readSwitch.lookup x.1 = some (x.2.1.read x.2.2)) ∧
    ((lookup (writeRanges ++ writeCases) x.1).isNone ∧
      (writeSwitch.lookup x.1).map (fun e => (storeHalf e.1, storeReg e.1)) = some x.2) ∧
    (∀ e ∈ writeSwitch, storeReg e.2.1 = x.2.2 →
      e.1 = x.1 ∨ (storeHalf e.2.1 = .low ∧ x.2.1 = .high) ∨ (storeHalf e.2.1 = .high ∧ x.2.1 = .low)) ∧
    x.2.2 ≠ .pfpeCqpdb ∧ x.2.2 ≠ .pfSbAtqbal ∧ x.2.2 ≠ .pfSbAtqbah ∧ x.2.2 ≠ .pfintIcr0 ∧ x.2.2 ≠ .gllanRctl0 := by
  decide +kernel

theorem rows_stride {row : Row} (hr : row ∈ storageRows) : 0 < row.stride := (rows_table row hr).1

theorem rows_other {row : Row} (hr : row ∈ storageRows) :
    row.arr ≠ .qrxEna ∧ row.arr ≠ .gltsynEna ∧ row.arr ≠ .gltsynIncval :=
  (rows_table row hr).2.2.2

theorem regs_other {x : ℕ × Half × Reg} (hx : x ∈ storageRegs) : x.2.2 ≠ .pfpeCqpdb ∧ x.2.2 ≠ .pfSbAtqbal ∧
    x.2.2 ≠ .pfSbAtqbah ∧ x.2.2 ≠ .pfintIcr0 ∧ x.2.2 ≠ .gllanRctl0 :=
  (regs_table x hx).2.2.2

variable {ptp : PtpClock} {en : ℕ → Bool} {regs regs' : Regs} {addr val : ℕ} {notes : List Notify}

theorem index_of_row {row : Row} (hr : row ∈ storageRows) (i : ℕ) :
    (row.lo + row.stride * i - row.lo) / row.stride = i := by
  rw [Nat.add_sub_cancel_left]
  exact Nat.mul_div_cancel_left i (rows_stride hr)

theorem le_last {row : Row} {i : ℕ} (hi : i < span row.arr) : row.lo + row.stride * i ≤ row.last := by
  unfold Row.last
  have hle : row.stride * i ≤ row.stride * (span row.arr - 1) := Nat.mul_le_mul_left _ (by omega)
  omega

theorem read_storage {w : Word} (h : Storage addr w) (hw : w.InSpan) (ptp : PtpClock) (regs : Regs) :
    regMemRead32 ptp regs addr = .ok (w.get regs, regs) := by
  cases h with
  | elem row i hr hi =>
    have hspan : i < span row.arr := hw
    obtain ⟨r, hl, ht, hidx⟩ := ((rows_table row hr).2.1 (by omega)).1.lookup_eq (Nat.le_add_right _ _) (le_last hspan)
    rw [index_of_row hr] at hidx
    have hin : ∀ a ∈ readAccesses (row.lo + row.stride * i), a.InBounds := by
      unfold readAccesses
      rw [hl]
      dsimp only
      rw [ht, hidx]
      intro a ha
      rw [List.mem_singleton.mp ha]
      exact hi
    unfold regMemRead32
    rw [if_pos hin, hl]
    dsimp only
    rw [ht, hidx]
    rfl
  | part h r hm =>
    obtain ⟨hn, hs⟩ := (regs_table _ hm).1
    rw [Option.isNone_iff_eq_none] at hn
    dsimp only at hn hs
    have hin : ∀ a ∈ readAccesses addr, a.InBounds := by
      unfold readAccesses
      rw [hn]
      dsimp only
      rw [hs]
      cases h with
      | whole => nofun
      | low => nofun
      | high => nofun
    unfold regMemRead32
    rw [if_pos hin, hn]
    dsimp only
    rw [hs]
    cases h with
    | whole => rfl
    | low => rfl
    | high => rfl

theorem store_arr_ne (regs : Regs) {a b : RegArray} (i val j : ℕ) (h : b ≠ a ∨ j ≠ i) :
    (regs.store a i val).arr b j = regs.arr b j := by
  unfold Regs.store
  dsimp only
  by_cases hb : b = a
  · subst hb
    rw [Function.update_self, Function.update_of_ne (h.resolve_left fun hn => hn rfl)]
  · rw [Function.update_of_ne hb]

theorem store_arr_self (regs : Regs) (a : RegArray) (i val : ℕ) : (regs.store a i val).arr a i = val := by
  unfold Regs.store
  dsimp only
  rw [Function.update_self, Function.update_self]

theorem run_arr (act : WriteAction) (i j val : ℕ) {a : RegArray} (h : a ∈ touched act → j ≠ i) :
    (act.run regs i val).1.arr a j = regs.arr a j := by
  have hne : ∀ b ∈ touched act, a ≠ b ∨ j ≠ i := by
    intro b hb
    by_cases hab : a = b
    · subst hab
      exact .inr (h hb)
    · exact .inl hab
  cases act with
  | store b => exact store_arr_ne _ _ _ _ (hne _ (by simp [touched]))
  | commDbell =>
    exact (store_arr_ne _ _ _ _ (hne _ (by simp [touched]))).trans (store_arr_ne _ _ _ _ (hne _ (by simp [touched])))
  | rxTail => exact store_arr_ne _ _ _ _ (hne _ (by simp [touched]))
  | rxCtrl =>
    exact (store_arr_ne _ _ _ _ (hne _ (by simp [touched]))).trans (store_arr_ne _ _ _ _ (hne _ (by simp [touched])))
  | tqctl => exact store_arr_ne _ _ _ _ (hne _ (by simp [touched]))
  | ceqctl => exact store_arr_ne _ _ _ _ (hne _ (by simp [touched]))

theorem run_reg (act : WriteAction) (i val : ℕ) : (act.run regs i val).1.reg = regs.reg := by
  cases act with
  | store b => rfl
  | commDbell => rfl
  | rxTail => rfl
  | rxCtrl => rfl
  | tqctl => rfl
  | ceqctl => rfl

theorem apply_arr (st : RegStore) (regs : Regs) (val : ℕ) : (st.apply regs val).arr = regs.arr := by
  cases st with
  | set r => rfl
  | low r h => rfl
  | high r => rfl

theorem sbAtqbal_eq (ptp : PtpClock) (regs : Regs) (val : ℕ) : (sbAtqbal ptp regs val).arr = regs.arr ∧
    ∀ r, r ≠ .pfSbAtqbal → r ≠ .pfSbAtqbah → (sbAtqbal ptp regs val).reg r = regs.reg r := by
  unfold sbAtqbal
  split
  · refine ⟨rfl, fun r h1 h2 => ?_⟩
    simp only [Regs.set]
    rw [Function.update_of_ne h2, Function.update_of_ne h1]
  · refine ⟨rfl, fun r h1 h2 => ?_⟩
    simp only [Regs.set]
    rw [Function.update_of_ne h1]

theorem initIncval_eq (regs : Regs) : (initIncval regs).reg = regs.reg ∧
    ∀ a j, a ≠ .gltsynIncval → (initIncval regs).arr a j = regs.arr a j := by
  refine ⟨rfl, fun a j ha => ?_⟩
  have hstep : ∀ (l : List ℕ) (r : Regs),
      (l.foldl (fun r i => r.store .gltsynIncval i (r.arr .gltsynShadj i)) r).arr a j = r.arr a j := by
    intro l
    induction l with
    | nil => exact fun r => rfl
    | cons i l ih => exact fun r => (ih _).trans (store_arr_ne _ _ _ _ (.inl ha))
  exact hstep _ _

theorem cmdSync_eq (regs : Regs) (val : ℕ) : (cmdSync regs val).1.reg = regs.reg ∧
    ∀ a j, a ≠ .gltsynIncval → (cmdSync regs val).1.arr a j = regs.arr a j := by
  unfold cmdSync
  split
  · exact initIncval_eq regs
  split
  · exact ⟨rfl, fun _ _ _ => rfl⟩
  · exact ⟨rfl, fun _ _ _ => rfl⟩

/-- The write is at the address of a register, if it reaches one that only stores. -/
def Aligned (addr : ℕ) : Prop :=
  ∀ r ∈ lookup (writeRanges ++ writeCases) addr, (∃ row ∈ storageRows, row.arr ∈ touched r.target) →
    (addr - r.lo) % r.stride = 0

theorem write_elem_other (h : regMemWrite32 ptp en regs addr val = .ok (regs', notes)) (ha : Aligned addr) {row : Row}
    (hr : row ∈ storageRows) {i : ℕ} (hne : row.lo + row.stride * i ≠ addr) :
    regs'.arr row.arr i = regs.arr row.arr i := by
  obtain ⟨-, hena, hinc⟩ := rows_other hr
  unfold regMemWrite32 at h
  split at h
  · have hregs := congrArg Prod.fst (Except.ok.inj h)
    dsimp only at hregs
    rw [← hregs]
    split
    · rename_i r hl
      apply run_arr
      rintro ht rfl
      obtain ⟨hmem, hlo, -⟩ := lookup_some hl
      obtain ⟨h1, h2⟩ := (rows_table row hr).2.2.1 r hmem ht
      have hmod := ha r hl ⟨row, hr, ht⟩
      apply hne
      rw [Range.index, ← h1, ← h2, Nat.mul_div_cancel' (Nat.dvd_of_mod_eq_zero hmod)]
      omega
    split
    · rw [apply_arr]
    split
    · rfl
    split
    · rfl
    split
    · rw [(sbAtqbal_eq ptp regs val).1]
    split
    · exact (cmdSync_eq regs val).2 _ _ hinc
    split
    · exact store_arr_ne _ _ _ _ (.inl hena)
    · rfl
  · cases h

/-- A low half is joined with the high half of its own register. -/
def Joined (regs : Regs) (addr : ℕ) : Prop :=
  ∀ e ∈ writeSwitch.lookup addr, ∀ r h, e.1 = .low r h → regs.reg h / 0x100000000 = regs.reg r / 0x100000000

theorem apply_reg_ne (st : RegStore) (regs : Regs) (val : ℕ) {r : Reg} (h : storeReg st ≠ r) :
    (st.apply regs val).reg r = regs.reg r := by
  cases st with
  | set x => exact Function.update_of_ne h.symm _ _
  | low x y => exact Function.update_of_ne h.symm _ _
  | high x => exact Function.update_of_ne h.symm _ _

theorem apply_reg_self (st : RegStore) (regs : Regs) {val : ℕ} (hv : val < 0x100000000) :
    (storeHalf st).get ((st.apply regs val).reg (storeReg st)) = val := by
  cases st with
  | set r => exact Function.update_self _ _ _
  | low r h =>
    have heq : (RegStore.apply regs val (.low r h)).reg r = val + regs.reg h / 0x100000000 * 0x100000000 :=
      Function.update_self _ _ _
    simp only [storeHalf, storeReg, Half.get, heq]
    omega
  | high r =>
    have heq : (RegStore.apply regs val (.high r)).reg r = val * 0x100000000 + regs.reg r % 0x100000000 :=
      Function.update_self _ _ _
    simp only [storeHalf, storeReg, Half.get, heq]
    omega

theorem apply_reg_half (st : RegStore) {regs : Regs} {val : ℕ} (hv : val < 0x100000000) {half : Half}
    (hj : ∀ r h, st = .low r h → regs.reg h / 0x100000000 = regs.reg r / 0x100000000)
    (hh : (storeHalf st = .low ∧ half = .high) ∨ (storeHalf st = .high ∧ half = .low)) :
    half.get ((st.apply regs val).reg (storeReg st)) = half.get (regs.reg (storeReg st)) := by
  cases st with
  | set r =>
    rcases hh with ⟨h, -⟩ | ⟨h, -⟩
    · cases h
    · cases h
  | low r h =>
    have heq : (RegStore.apply regs val (.low r h)).reg r = val + regs.reg h / 0x100000000 * 0x100000000 :=
      Function.update_self _ _ _
    have hjoin := hj r h rfl
    rcases hh with ⟨-, rfl⟩ | ⟨h, -⟩
    · simp only [storeReg, Half.get, heq]
      omega
    · cases h
  | high r =>
    have heq : (RegStore.apply regs val (.high r)).reg r = val * 0x100000000 + regs.reg r % 0x100000000 :=
      Function.update_self _ _ _
    rcases hh with ⟨h, -⟩ | ⟨-, rfl⟩
    · cases h
    · simp only [storeReg, Half.get, heq]
      omega

theorem write_part_other (h : regMemWrite32 ptp en regs addr val = .ok (regs', notes)) (hv : val < 0x100000000)
    (hj : Joined regs addr) {x : ℕ × Half × Reg} (hx : x ∈ storageRegs) (hne : x.1 ≠ addr) :
    x.2.1.get (regs'.reg x.2.2) = x.2.1.get (regs.reg x.2.2) := by
  obtain ⟨hdb, hbal, hbah, -, -⟩ := regs_other hx
  unfold regMemWrite32 at h
  split at h
  · have hregs := congrArg Prod.fst (Except.ok.inj h)
    dsimp only at hregs
    rw [← hregs]
    split
    · rw [run_reg]
    split
    · rename_i st calls he
      dsimp only
      by_cases hr : storeReg st = x.2.2
      · have hhalf := ((regs_table x hx).2.2.1 _ (mem_of_lookup he) hr).resolve_left hne.symm
        rw [← hr]
        exact apply_reg_half st hv (fun r h => hj _ he r h) hhalf
      · rw [apply_reg_ne _ _ _ hr]
    split
    · rfl
    split
    · dsimp only [Regs.set]
      rw [Function.update_of_ne hdb]
    split
    · dsimp only
      rw [(sbAtqbal_eq ptp regs val).2 _ hbal hbah]
    split
    · rw [(cmdSync_eq regs val).1]
    split
    · rfl
    · rfl
  · cases h

theorem run_target {a : RegArray} (i val : ℕ) : ((target a).run regs i val).1.arr a i = val := by
  unfold target
  split
  · exact store_arr_self _ _ _ _
  · exact store_arr_self _ _ _ _
  · exact store_arr_self _ _ _ _

theorem write_storage {w : Word} (h : regMemWrite32 ptp en regs addr val = .ok (regs', notes)) (hv : val < 0x100000000)
    (hs : Storage addr w) (hw : w.InSpan) : w.get regs' = val := by
  unfold regMemWrite32 at h
  split at h
  · have hregs := congrArg Prod.fst (Except.ok.inj h)
    dsimp only at hregs
    rw [← hregs]
    cases hs with
    | elem row i hr hi =>
      have hspan : i < span row.arr := hw
      obtain ⟨r, hl, ht, hidx⟩ := ((rows_table row hr).2.1 (by omega)).2.lookup_eq (Nat.le_add_right _ _) (le_last hspan)
      rw [index_of_row hr] at hidx
      rw [hl]
      dsimp only
      rw [ht, hidx]
      exact run_target i val
    | part half r hm =>
      obtain ⟨hn, he⟩ := (regs_table _ hm).2.1
      rw [Option.isNone_iff_eq_none] at hn
      obtain ⟨e, hl, heq⟩ := Option.map_eq_some_iff.mp he
      dsimp only at hn hl heq
      cases heq
      rw [hn, hl]
      exact apply_reg_self _ _ hv
  · cases h

def pfintOicr : ℕ := 0x16CA00
def pfFwAtqh : ℕ := 0x080300

/-- The words that a read clears are zero. -/
def FlexClear (regs : Regs) : Prop := ∀ i, i < numRxdid → regs.arr (.flexRxdid 0) i = 0

theorem reads_clear : ∀ r ∈ readRanges ++ readCases, ∀ a, r.target = .clear a → a = .flexRxdid 0 := by
  have hall : ∀ r ∈ readRanges ++ readCases, r.target = .clear (.flexRxdid 0) ∨ r.target = .rxdidFlags ∨
      r.target = .phcTime ∨ ∃ a ∈ r.target.arrays, r.target = .load a := by decide +kernel
  intro r hr a ha
  rcases hall r hr with h | h | h | ⟨b, -, h⟩
  · rw [h] at ha
    cases ha
    rfl
  · rw [h] at ha
    cases ha
  · rw [h] at ha
    cases ha
  · rw [h] at ha
    cases ha

theorem reads_clearing {x : ℕ × ReadReg} (hx : x ∈ readSwitch) {r : Reg} (hr : x.2 = .clearing r) :
    x.1 = pfintOicr ∧ r = .pfintIcr0 := by
  fin_cases hx <;> cases hr
  exact ⟨rfl, rfl⟩

theorem store_same (regs : Regs) (a : RegArray) (i : ℕ) : regs.store a i (regs.arr a i) = regs := by
  unfold Regs.store
  rw [Function.update_eq_self, Function.update_eq_self]

theorem read_keeps {v : ℕ} (h : regMemRead32 ptp regs addr = .ok (v, regs')) (hf : FlexClear regs) :
    regs' = regs ∨ addr = pfintOicr ∧ regs' = regs.set .pfintIcr0 0 := by
  unfold regMemRead32 at h
  split at h
  · rename_i hin
    have hregs := congrArg Prod.snd (Except.ok.inj h)
    dsimp only at hregs
    rw [← hregs]
    unfold readAccesses at hin
    cases hl : lookup (readRanges ++ readCases) addr with
    | some r =>
      rw [hl] at hin
      dsimp only at hin ⊢
      cases ht : r.target with
      | clear a =>
        have ha := reads_clear r (lookup_some hl).1 a ht
        subst ha
        rw [ht] at hin
        have hlt : r.index addr < numRxdid := hin _ (List.mem_singleton.mpr rfl)
        left
        have hzero := hf _ hlt
        change regs.store (.flexRxdid 0) (r.index addr) 0 = regs
        rw [← hzero]
        exact store_same _ _ _
      | _ => exact .inl rfl
    | none =>
      dsimp only
      cases hs : readSwitch.lookup addr with
      | none => exact .inl rfl
      | some x =>
        cases x with
        | clearing r =>
          obtain ⟨ha, rfl⟩ := reads_clearing (mem_of_lookup hs) rfl
          exact .inr ⟨ha, rfl⟩
        | _ => exact .inl rfl
  · cases h

theorem reset_written (h : regMemWrite32 ptp en regs addr val = .ok (regs', notes)) (hn : .reset ∈ notes) :
    addr = pfgenCtrl ∧ val % 2 = 1 := by
  unfold regMemWrite32 at h
  split at h
  · have hnotes := congrArg Prod.snd (Except.ok.inj h)
    dsimp only at hnotes
    rw [← hnotes] at hn
    split at hn
    · rename_i r hl
      cases ht : r.target <;> simp [ht, WriteAction.run] at hn
    split at hn
    · rename_i st calls he
      have hall : ∀ e ∈ writeSwitch, .reset ∉ e.2.2 := by decide +kernel
      exact absurd hn (hall _ (mem_of_lookup he))
    split at hn
    · rename_i ha
      split at hn
      · exact ⟨ha, ‹_›⟩
      · cases hn
    split at hn
    · split at hn
      · simp at hn
      · cases hn
    split at hn
    · cases hn
    split at hn
    · unfold cmdSync at hn
      split at hn
      · simp at hn
      split at hn
      · simp at hn
      · cases hn
    split at hn
    · simp at hn
    · cases hn
  · cases h

/-- The registers that only store are the same. -/
structure SameStorage (regs regs' : Regs) : Prop where
  arr : ∀ row ∈ storageRows, regs'.arr row.arr = regs.arr row.arr
  reg : ∀ x ∈ storageRegs, regs'.reg x.2.2 = regs.reg x.2.2

theorem SameStorage.refl (regs : Regs) : SameStorage regs regs := ⟨fun _ _ => rfl, fun _ _ => rfl⟩

theorem SameStorage.storeEna (regs : Regs) (i val : ℕ) : SameStorage regs (regs.store .qrxEna i val) :=
  ⟨fun _row hr => Function.update_of_ne (rows_other hr).1 _ _, fun _ _ => rfl⟩

variable {d d' : Device}

theorem txQenaUpdated_same (d : Device) (i : ℕ) :
    (d.txQenaUpdated i).regs = d.regs ∧ (d.txQenaUpdated i).atq.q = d.atq.q := by
  unfold Device.txQenaUpdated
  dsimp only
  split
  · exact ⟨rfl, rfl⟩
  split
  · exact ⟨rfl, rfl⟩
  · exact ⟨rfl, rfl⟩

theorem foldl_txQenaUpdated (l : List ℕ) (d : Device) :
    (l.foldl Device.txQenaUpdated d).regs = d.regs ∧ (l.foldl Device.txQenaUpdated d).atq.q = d.atq.q := by
  induction l generalizing d with
  | nil => exact ⟨rfl, rfl⟩
  | cons i l ih =>
    obtain ⟨h1, h2⟩ := ih (d.txQenaUpdated i)
    obtain ⟨h3, h4⟩ := txQenaUpdated_same d i
    exact ⟨h1.trans h3, h2.trans h4⟩

theorem rxTailUpdated_regs (d : Device) (i : ℕ) : (d.rxTailUpdated i).regs = d.regs := by
  unfold Device.rxTailUpdated
  split
  · rfl
  · rfl

theorem notify_same {n : Notify} (h : d.notify n = .ok d') (hn : n ≠ .reset) : SameStorage d.regs d'.regs := by
  cases n with
  | tailUpdated i rx =>
    cases rx
    · cases h
      unfold Device.txTailUpdated
      split
      · exact .refl _
      · exact .refl _
    · cases h
      rw [rxTailUpdated_regs]
      exact .refl _
  | qenaUpdated i rx =>
    cases rx
    · cases h
      rw [(txQenaUpdated_same d i).1]
      exact .refl _
    · rcases rxQenaUpdated_cases h with ⟨-, -, c, val, -, rfl⟩ | ⟨-, -, val, rfl⟩ | ⟨-, rfl⟩
      · exact .storeEna _ _ _
      · exact .storeEna _ _ _
      · exact .refl _
  | reset => exact absurd rfl hn
  | _ =>
    cases h
    exact .refl _

/-- What runs on its own writes one of them, the head of the firmware queue, while that is enabled. -/
theorem ran_same (ht : Tidy d) (h : Ran d d') : SameStorage d.regs d'.regs ∨
    d'.atq.q.enabled = true ∧ (∀ row ∈ storageRows, d'.regs.arr row.arr = d.regs.arr row.arr) ∧
      ∀ x ∈ storageRegs, x.1 ≠ pfFwAtqh → d'.regs.reg x.2.2 = d.regs.reg x.2.2 := by
  cases h with
  | done call rest hs hq hr ht hu => exact .inl (.refl _)
  | atq env cmd rest c hc hs he =>
    right
    obtain ⟨h1, h2⟩ := foldl_txQenaUpdated (enabledTxqs (c.log.drop d.atq.log.length)) (d.setAtq c)
    rw [h1, h2]
    have hlive : d.atq.q.enabled = true := ht.atq.live (by rw [hs]; nofun)
    refine ⟨(exec_registers (c := { d.atq with stack := rest }) hlive he).1, fun row hr => rfl, fun x hx hne => ?_⟩
    have hhead : ∀ x ∈ storageRegs, x.1 ≠ pfFwAtqh → x.2.2 ≠ .pfAtqh := by decide
    obtain ⟨-, -, -, -, hrctl⟩ := regs_other hx
    change ((d.regs.set .pfAtqh _).set .gllanRctl0 _).reg x.2.2 = _
    dsimp only [Regs.set]
    rw [Function.update_of_ne hrctl, Function.update_of_ne (hhead x hx hne)]
  | rx i env cmd rest c hc hs he => exact .inl (.refl _)
  | tx i env cmd rest c hc hs he => exact .inl (.refl _)
  | tailUpdated idx rest hs =>
    rw [rxTailUpdated_regs]
    exact .inl (.refl _)

theorem packetReceived_regs {env : DeviceEnv} {hint : Option ℕ} {data : List UInt8}
    (h : d.packetReceived env hint data = .ok d') : d'.regs = d.regs := by
  unfold Device.packetReceived at h
  dsimp only at h
  split at h
  · cases h
  split at h
  · cases h
    rfl
  · obtain ⟨c, -, h⟩ := bind_ok h
    cases h
    rfl

structure State where
  dev : Device
  last : ℕ → Option ℕ

def written : Input → (ℕ → Option ℕ) → ℕ → Option ℕ
  | .write addr val, last => Function.update last addr (some val)
  | _, last => last

/-- While the firmware queue is enabled, its head is not for the guest to keep. -/
def forget (d : Device) (last : ℕ → Option ℕ) : ℕ → Option ℕ :=
  if d.atq.q.enabled then Function.update last pfFwAtqh none else last

/-- Register reads and all that the device does, with the writes that `ok` allows. -/
def storage (ok : Regs → ℕ → ℕ → Prop) : Machine State where
  start s := Fresh s.dev ∧ s.last = fun _ => none
  step s t :=
    (∃ x, Step s.dev x t.dev ∧ (∀ addr val, x = .write addr val → ok s.dev.regs addr val) ∧
      t.last = forget t.dev (written x s.last)) ∨
    ∃ ptp addr v regs, s.dev.calls = [] ∧ regMemRead32 ptp s.dev.regs addr = .ok (v, regs) ∧
      t.dev = s.dev.setRegs regs ∧ t.last = s.last

structure ReadsBack (s : State) : Prop where
  back : ∀ addr w v, Storage addr w → s.last addr = some v →
    ∀ ptp, ∃ regs, regMemRead32 ptp s.dev.regs addr = .ok (v, regs)
  keep : ∀ ptp addr v regs, addr ≠ pfintOicr → regMemRead32 ptp s.dev.regs addr = .ok (v, regs) → regs = s.dev.regs

/-- Not a reset, not beside a register, inside the span, and no half of a base is mixed up with that
of another. -/
structure Sound (regs : Regs) (addr val : ℕ) : Prop where
  reset : addr = pfgenCtrl → val % 2 = 0
  aligned : Aligned addr
  inSpan : ∀ w, Storage addr w → w.InSpan
  joined : Joined regs addr

structure Kept (regs : Regs) (last : ℕ → Option ℕ) : Prop where
  words : ∀ addr w v, Storage addr w → last addr = some v → w.InSpan ∧ w.get regs = v
  flex : FlexClear regs

structure Inv (s : State) : Prop where
  tidy : Tidy s.dev
  kept : Kept s.dev.regs s.last

variable {s t : State}

theorem forget_some {last : ℕ → Option ℕ} {v : ℕ} (h : forget d last addr = some v) :
    last addr = some v ∧ (d.atq.q.enabled = true → addr ≠ pfFwAtqh) := by
  unfold forget at h
  split at h
  · have hne : addr ≠ pfFwAtqh := by
      rintro rfl
      rw [Function.update_self] at h
      cases h
    rw [Function.update_of_ne hne] at h
    exact ⟨h, fun _ => hne⟩
  · rename_i he
    exact ⟨h, fun ht => absurd ht he⟩

theorem flex_row : (⟨.flexRxdid 0, 0x45C800, 4⟩ : Row) ∈ storageRows := by decide

theorem SameStorage.get {w : Word} (h : SameStorage regs regs') (hs : Storage addr w) : w.get regs' = w.get regs := by
  cases hs with
  | elem row i hr hi => exact congrFun (h.arr row hr) i
  | part half r hm => exact congrArg half.get (h.reg _ hm)

theorem SameStorage.flex (h : SameStorage regs regs') (hf : FlexClear regs) : FlexClear regs' := by
  intro i hi
  rw [h.arr _ flex_row]
  exact hf i hi

theorem Kept.same {last : ℕ → Option ℕ} (h : Kept regs last) (hs : SameStorage regs regs') : Kept regs' last := by
  refine ⟨fun a w v hst hl => ?_, hs.flex h.flex⟩
  obtain ⟨hin, hg⟩ := h.words a w v hst hl
  exact ⟨hin, (hs.get hst).trans hg⟩

theorem Kept.forget {last : ℕ → Option ℕ} (h : Kept regs last) (d : Device) : Kept regs (forget d last) :=
  ⟨fun a w v hst hl => h.words a w v hst (forget_some hl).1, h.flex⟩

theorem Kept.store {last : ℕ → Option ℕ} (h : Kept regs last) (hs : Sound regs addr val)
    (hr : regMemWrite32 ptp en regs addr val = .ok (regs', notes)) (hv : val < 0x100000000) :
    Kept regs' (Function.update last addr (some val)) := by
  refine ⟨fun a w v hst hl => ?_, fun i hi => ?_⟩
  · by_cases ha : a = addr
    · subst ha
      rw [Function.update_self] at hl
      cases hl
      have hin := hs.inSpan w hst
      exact ⟨hin, write_storage hr hv hst hin⟩
    · rw [Function.update_of_ne ha] at hl
      obtain ⟨hin, hg⟩ := h.words a w v hst hl
      refine ⟨hin, Eq.trans ?_ hg⟩
      cases hst with
      | elem row i hrow hi => exact write_elem_other hr hs.aligned hrow ha
      | part half r hm => exact write_part_other hr hv hs.joined hm ha
  · have hne : 0x45C800 + 4 * i ≠ addr := by
      rintro rfl
      exact absurd (hs.inSpan _ (.elem _ i flex_row hi)) (Nat.not_lt_zero i)
    rw [write_elem_other hr hs.aligned flex_row hne]
    exact h.flex i hi

theorem Kept.write {env : DeviceEnv} {last : ℕ → Option ℕ} (h : Kept d.regs last) (hs : Sound d.regs addr val)
    (hv : val < 0x100000000) (hw : d.regWrite env addr val = .ok d') :
    Kept d'.regs (Function.update last addr (some val)) := by
  obtain ⟨⟨regs', notes⟩, hr, hcase⟩ := regWrite_cases hw
  have hsame : SameStorage regs' d'.regs := by
    rcases hcase with ⟨-, rfl⟩ | ⟨n, hn, hd⟩
    · exact .refl _
    · have hnr : n ≠ .reset := by
        rintro rfl
        dsimp only at hn
        obtain ⟨ha, hodd⟩ := reset_written hr (by rw [hn]; exact List.mem_singleton.mpr rfl)
        have heven := hs.reset ha
        omega
      exact notify_same hd hnr
  exact (h.store hs hr hv).same hsame

theorem Kept.ran {last : ℕ → Option ℕ} (h : Kept d.regs last) (ht : Tidy d) (hr : Ran d d') :
    Kept d'.regs (StorageRegisters.forget d' last) := by
  rcases ran_same ht hr with hsame | ⟨hen, harr, hreg⟩
  · exact (h.same hsame).forget d'
  · refine ⟨fun a w v hst hl => ?_, fun i hi => ?_⟩
    · obtain ⟨hl, hne⟩ := forget_some hl
      obtain ⟨hin, hg⟩ := h.words a w v hst hl
      refine ⟨hin, Eq.trans ?_ hg⟩
      cases hst with
      | elem row i hrow hi => exact congrFun (harr row hrow) i
      | part half r hm => exact congrArg half.get (hreg _ hm (hne hen))
    · rw [harr _ flex_row]
      exact h.flex i hi

theorem Kept.read {last : ℕ → Option ℕ} {v : ℕ} (h : Kept regs last)
    (hr : regMemRead32 ptp regs addr = .ok (v, regs')) : Kept regs' last := by
  rcases read_keeps hr h.flex with rfl | ⟨-, rfl⟩
  · exact h
  · apply h.same
    refine ⟨fun _ _ => rfl, fun x hx => ?_⟩
    obtain ⟨-, -, -, hicr, -⟩ := regs_other hx
    exact Function.update_of_ne hicr _ _

theorem Inv.step (h : Inv s) (hs : (storage Sound).step s t) : Inv t := by
  rcases hs with ⟨x, hx, hok, hlast⟩ | ⟨ptp, addr, v, regs, -, hr, hdev, hlast⟩
  · refine ⟨h.tidy.step hx, ?_⟩
    rw [hlast]
    cases hx with
    | write env addr val hv hc hw => exact (h.kept.write (hok addr val rfl) hv hw).forget _
    | packet env hint data hc hp =>
      rw [packetReceived_regs hp]
      exact h.kept.forget _
    | run env call rest hc hrun => exact h.kept.ran h.tidy (ran_of_run hc hrun)
  · refine ⟨?_, ?_⟩
    · rw [hdev]
      exact h.tidy.setRegs regs
    · rw [hdev, hlast]
      exact h.kept.read hr

theorem Inv.reachable (h : (storage Sound).Reachable s) : Inv s := by
  induction h with
  | start h =>
    obtain ⟨hfresh, hlast⟩ := h
    refine ⟨.fresh hfresh, fun addr w v _ hl => ?_, fun i _ => ?_⟩
    · rw [hlast] at hl
      cases hl
    · rw [hfresh.regs]
      rfl
  | step _ hs ih => exact ih.step hs

/-- As long as the writes are sound, every storage register reads back what was last written to it,
and no read but that of `PFINT_OICR` changes a register. -/
theorem storage_reads_back (s : State) (h : (storage Sound).Reachable s) : ReadsBack s := by
  have hi := Inv.reachable h
  refine ⟨fun addr w v hs hl ptp => ?_, fun ptp addr v regs hne hr => ?_⟩
  · obtain ⟨hin, hg⟩ := hi.kept.words addr w v hs hl
    refine ⟨s.dev.regs, ?_⟩
    rw [read_storage hs hin, hg]
  · rcases read_keeps hr hi.kept.flex with h | ⟨h, -⟩
    · exact h
    · exact absurd h hne

def quietEnv : DeviceEnv :=
  ⟨fun _ => 0, fun _ _ => true, ⟨0, fun _ => 0⟩, ⟨fun _ => 0, 0, fun _ => 0⟩, ⟨fun _ => true⟩, ⟨0, 0, 0, fun _ => 0⟩⟩

theorem inSpan_of_outside {w : Word} (h : ∀ row ∈ storageRows, row.arr.size ≤ span row.arr ∨
    addr < row.lo + row.stride * span row.arr ∨ row.lo + row.stride * row.arr.size ≤ addr) (hs : Storage addr w) :
    w.InSpan := by
  cases hs with
  | part half r hm => trivial
  | elem row i hr hi =>
    have hpos := rows_stride hr
    change i < span row.arr
    rcases h row hr with h | h | h
    · exact hi.trans_le h
    · exact (Nat.mul_lt_mul_left hpos).mp (by omega)
    · have hle := (Nat.mul_lt_mul_left hpos).mpr hi
      omega

theorem cntxt_sound (regs : Regs) (val : ℕ) : Sound regs 0x48000C val := by
  have hl : lookup (writeRanges ++ writeCases) 0x48000C = some ⟨0x480000, 0x481FFC, 4, .store .qrxflxpCntxt⟩ := by rfl
  have hctrl : 0x48000C ≠ pfgenCtrl := by decide
  refine ⟨fun h => absurd h hctrl, ?_, fun w hs => inSpan_of_outside (by decide +kernel) hs, ?_⟩
  · intro r hr
    rw [hl] at hr
    cases hr
    exact fun _ => by decide
  · have hnone : writeSwitch.lookup 0x48000C = none := by rfl
    intro e he
    rw [hnone] at he
    cases he

/-- A write of seven to `QRXFLXP_CNTXT(3)`. -/
theorem storage_reads_back_cntxt : ∃ s, (storage Sound).Reachable s ∧ s.last 0x48000C = some 7 ∧
    ∀ ptp, ∃ regs, regMemRead32 ptp s.dev.regs 0x48000C = .ok (7, regs) := by
  have hmem : (⟨.qrxflxpCntxt, 0x480000, 4⟩ : Row) ∈ storageRows := by decide +kernel
  have hstorage : Storage 0x48000C (.elem .qrxflxpCntxt 3) := .elem _ 3 hmem (by decide)
  have h0 : (storage Sound).Reachable ⟨zeroed, fun _ => none⟩ := .start ⟨zeroed_fresh, rfl⟩
  have hwrite : zeroed.regWrite quietEnv 0x48000C 7 = .ok (zeroed.setRegs (.store .cleared .qrxflxpCntxt 3 7)) := by rfl
  have hsound : ∀ addr val, Input.write 0x48000C 7 = .write addr val → Sound zeroed.regs addr val := by
    intro addr val heq
    cases heq
    exact cntxt_sound _ _
  have h1 : (storage Sound).Reachable ⟨_, Function.update (fun _ => none) 0x48000C (some 7)⟩ :=
    h0.step (.inl ⟨.write 0x48000C 7, .write quietEnv _ _ (by decide) rfl hwrite, hsound, rfl⟩)
  have hlast : (Function.update (fun _ => none) 0x48000C (some 7) : ℕ → Option ℕ) 0x48000C = some 7 :=
    Function.update_self _ _ _
  exact ⟨_, h1, hlast, (storage_reads_back _ h1).back _ _ _ hstorage hlast⟩

/-- A write of five to `GLFLXP_RXDID_FLX_WRD_0(0)` reads as zero, and the read clears it. -/
theorem flex_word_lost : Storage 0x45C800 (.elem (.flexRxdid 0) 0) ∧
    ∃ s, (storage fun _ _ _ => True).Reachable s ∧ s.last 0x45C800 = some 5 ∧
      ∀ ptp, ∃ regs, regMemRead32 ptp s.dev.regs 0x45C800 = .ok (0, regs) ∧ regs ≠ s.dev.regs := by
  have h0 : (storage fun _ _ _ => True).Reachable ⟨zeroed, fun _ => none⟩ := .start ⟨zeroed_fresh, rfl⟩
  have hwrite : zeroed.regWrite quietEnv 0x45C800 5 = .ok (zeroed.setRegs (.store .cleared (.flexRxdid 0) 0 5)) := by rfl
  have h1 : (storage fun _ _ _ => True).Reachable ⟨_, Function.update (fun _ => none) 0x45C800 (some 5)⟩ :=
    h0.step (.inl ⟨.write 0x45C800 5, .write quietEnv _ _ (by decide) rfl hwrite, fun _ _ _ => trivial, rfl⟩)
  have hlast : (Function.update (fun _ => none) 0x45C800 (some 5) : ℕ → Option ℕ) 0x45C800 = some 5 :=
    Function.update_self _ _ _
  refine ⟨.elem _ 0 flex_row (by decide), _, h1, hlast, fun ptp => ⟨_, rfl, fun heq => ?_⟩⟩
  have hword : (0 : ℕ) = 5 := congrArg (fun r => r.arr (.flexRxdid 0) 0) heq
  cases hword

end Vmux.StorageRegisters
