import Vmux.Registers

namespace Vmux.RegisterBounds

open AddressMap Registers

/-- Length of the BAR, for a branch that indexes nothing. -/
def barSize : ℕ := 0x4000000

def readSize : ReadAction → ℕ
  | .load a | .clear a => a.size
  | .rxdidFlags | .phcTime => barSize

/-- The shortest of the arrays and queue tables a branch indexes with its own index. -/
def writeSize : WriteAction → ℕ
  | .store a => a.size
  | .commDbell | .rxTail | .rxCtrl | .tqctl | .ceqctl => numQueues

/-- Read addresses whose index is too large: the tables of transmit heads and of queue interrupts
beyond the last queue, the byte offset into `GLINT_CEQCTL`, the two short VSI counters, the element
one past the end of the other VSI counters, and the byte offset into the shadow time. -/
def readOverruns : List (ℕ × ℕ) :=
  [(0x0E1800, 0x0EFFFC), (0x141800, 0x141FFC), (0x151800, 0x151FFC), (0x15C800, 0x15E000), (0x3B6040, 0x3B7800),
   (0x30E040, 0x30F800), (0x3B1800, 0x3B1800), (0x301800, 0x301800), (0x3B5800, 0x3B5800), (0x30D800, 0x30D800),
   (0x295804, 0x295804), (0x312C00, 0x312C00), (0x3B3800, 0x3B3800), (0x30B800, 0x30B800), (0x0888E6, 0x0888F4)]

def writeOverruns : List (ℕ × ℕ) :=
  [(0x161FFC, 0x161FFC), (0x2C1800, 0x2C1FFC), (0x121800, 0x121FFC), (0x141800, 0x14FFFC), (0x151800, 0x151FFC),
   (0x15D800, 0x15DF84), (0x2903FD, 0x291FFF)]

/-- The rows that `reg_mem_read32` compares an address with. -/
theorem read_table : overruns readSize [] (readRanges ++ readCases) = readOverruns ∧
    Separated readSize [] (readRanges ++ readCases) ∧ ∀ r ∈ readRanges ++ readCases, r.hi < barSize := by decide +kernel

theorem lookup_some {α : Type} {rs : List (Range α)} {addr : ℕ} {r : Range α} (h : lookup rs addr = some r) :
    r ∈ rs ∧ r.Covers addr :=
  ⟨List.mem_of_find?_eq_some h, by simpa using List.find?_some h⟩

theorem fits_none {α : Type} {size : α → ℕ} {rs : List (Range α)} {addr : ℕ} (h : lookup rs addr = none) :
    Fits size rs addr := by
  intro r hr
  rw [h] at hr
  cases hr

theorem fits_some {α : Type} {size : α → ℕ} {rs : List (Range α)} {addr : ℕ} {r : Range α}
    (h : lookup rs addr = some r) : Fits size rs addr ↔ r.index addr < size r.target := by
  constructor
  · intro hf
    exact hf r h
  · intro hlt r' hr'
    rw [h] at hr'
    cases hr'
    exact hlt

theorem index_lt_bar {α : Type} {r : Range α} {addr : ℕ} (hc : r.Covers addr) (hhi : r.hi < barSize) :
    r.index addr < barSize := by
  have h1 : r.index addr ≤ addr - r.lo := Nat.div_le_self _ _
  have h2 := hc.2
  omega

theorem mem_of_lookup {α β : Type} [BEq α] [LawfulBEq α] {l : List (α × β)} {k : α} {b : β} (h : l.lookup k = some b) :
    (k, b) ∈ l := by
  obtain ⟨l₁, l₂, hl, -⟩ := List.lookup_eq_some_iff.mp h
  rw [hl]
  simp

theorem readSwitch_elem : ∀ x ∈ readSwitch, ∀ a i, x.2 = .elem a i → i < a.size := by
  intro x hx a i hb
  fin_cases hx <;> cases hb <;> decide

theorem read_accesses_iff (addr : ℕ) :
    (∀ a ∈ readAccesses addr, a.InBounds) ↔ Fits readSize (readRanges ++ readCases) addr := by
  unfold readAccesses
  cases hl : lookup (readRanges ++ readCases) addr with
  | none =>
    refine iff_of_true ?_ (fits_none hl)
    dsimp only
    split
    · rename_i a i h
      have hlt := readSwitch_elem _ (mem_of_lookup h) a i rfl
      simpa [Access.InBounds] using hlt
    · simp
  | some r =>
    obtain ⟨hr, hc⟩ := lookup_some hl
    rw [fits_some hl]
    cases ht : r.target with
    | load a => simp [ht, ReadAction.arrays, readSize, Access.InBounds]
    | clear a => simp [ht, ReadAction.arrays, readSize, Access.InBounds]
    | rxdidFlags => simp [ht, ReadAction.arrays, readSize, index_lt_bar hc (read_table.2.2 r hr)]
    | phcTime => simp [ht, ReadAction.arrays, readSize, index_lt_bar hc (read_table.2.2 r hr)]

def qrxCtrl : Range WriteAction := ⟨0x120000, 0x120000 + 2047 * 4, 4, .rxCtrl⟩

/-- The tail register of a receive queue that the write enables holds a queue number. -/
def TailIsQueue (regs : Regs) (rxEnabled : ℕ → Bool) (addr val : ℕ) : Prop :=
  qrxCtrl.Covers addr → enablesRx rxEnabled (qrxCtrl.index addr) val → tailIndex regs (qrxCtrl.index addr) < numQueues

/-- The rows that `reg_mem_write32` compares an address with. -/
theorem write_table : overruns writeSize [] (writeRanges ++ writeCases) = writeOverruns ∧
    Separated writeSize [] (writeRanges ++ writeCases) ∧
    (∀ r ∈ writeRanges ++ writeCases,
      (r.target = .rxCtrl ∧ r.lo = qrxCtrl.lo ∧ r.hi = qrxCtrl.hi ∧ r.stride = qrxCtrl.stride) ∨
        (r.target ≠ .rxCtrl ∧ (r.hi < qrxCtrl.lo ∨ qrxCtrl.hi < r.lo))) ∧
    ∃ r ∈ writeRanges ++ writeCases, r.lo = qrxCtrl.lo ∧ r.hi = qrxCtrl.hi := by decide +kernel

theorem cmdSync_in_bounds (regs : Regs) (val : ℕ) : ∀ a ∈ cmdSyncAccesses regs val, a.InBounds := by
  have hsel : selMaster regs < 2 := Nat.mod_lt _ (by decide)
  have hadj : ∀ a ∈ [Access.reg .gltsynShadj (2 * selMaster regs), .reg .gltsynShadj (2 * selMaster regs + 1)],
      a.InBounds := by
    simp only [List.forall_mem_cons, Access.InBounds, RegArray.size, List.not_mem_nil, false_implies, implies_true,
      and_true]
    omega
  unfold cmdSyncAccesses
  dsimp only
  split
  · rw [List.cons_append, List.forall_mem_cons, List.forall_mem_append]
    exact ⟨by decide, by decide, hadj⟩
  · split
    · exact hadj
    · simp

theorem ena_in_bounds (addr : ℕ) :
    ∀ a ∈ (enaCases.lookup addr).toList.map fun i => Access.reg .gltsynEna i, a.InBounds := by
  cases h : enaCases.lookup addr with
  | none => simp
  | some i =>
    have hi : ∀ x ∈ enaCases, x.2 < RegArray.gltsynEna.size := by decide
    have hlt := hi _ (mem_of_lookup h)
    simpa [Access.InBounds] using hlt

theorem action_in_bounds_iff (regs : Regs) (rxEnabled : ℕ → Bool) (i val : ℕ) (w : WriteAction) :
    (∀ a ∈ w.accesses regs rxEnabled i val, a.InBounds) ↔
      i < writeSize w ∧ (w = .rxCtrl → enablesRx rxEnabled i val → tailIndex regs i < numQueues) := by
  cases w with
  | store a => simp [WriteAction.accesses, Access.InBounds, writeSize]
  | rxCtrl =>
    simp only [WriteAction.accesses, List.forall_mem_append, List.forall_mem_cons, Access.InBounds, RegArray.size,
      writeSize, numQueues, List.not_mem_nil, false_implies, implies_true, and_true, forall_true_left]
    split
    · rename_i he
      simp only [he, List.forall_mem_cons, List.not_mem_nil, false_implies, implies_true, and_true,
        forall_true_left]
      omega
    · rename_i he
      simp only [he, List.not_mem_nil, false_implies, implies_true, and_true]
      omega
  | commDbell | rxTail | tqctl | ceqctl =>
    simp only [WriteAction.accesses, List.forall_mem_cons, Access.InBounds, RegArray.size, writeSize, numQueues,
      numPfints, List.not_mem_nil, false_implies, implies_true, and_true, reduceCtorEq]
    omega

theorem write_accesses_iff (regs : Regs) (rxEnabled : ℕ → Bool) (addr val : ℕ) :
    (∀ a ∈ writeAccesses regs rxEnabled addr val, a.InBounds) ↔
      Fits writeSize (writeRanges ++ writeCases) addr ∧ TailIsQueue regs rxEnabled addr val := by
  unfold writeAccesses
  cases hl : lookup (writeRanges ++ writeCases) addr with
  | none =>
    have hout : ¬qrxCtrl.Covers addr := by
      intro hc
      obtain ⟨r, hr, hlo, hhi⟩ := write_table.2.2.2
      have hn := List.find?_eq_none.mp hl r hr
      simp [Range.Covers, hlo, hhi] at hn
      exact absurd hc.2 (by have := hn hc.1; omega)
    refine iff_of_true ?_ ⟨fits_none hl, fun hc => absurd hc hout⟩
    dsimp only
    split
    · exact cmdSync_in_bounds regs val
    · exact ena_in_bounds addr
  | some r =>
    obtain ⟨hr, hc⟩ := lookup_some hl
    rw [fits_some hl]
    dsimp only
    rw [action_in_bounds_iff]
    refine and_congr_right fun _ => ?_
    rcases write_table.2.2.1 r hr with ⟨ht, hlo, hhi, hst⟩ | ⟨ht, hd⟩
    · have hc' : qrxCtrl.Covers addr := by
        simpa [Range.Covers, hlo, hhi] using hc
      have hi : r.index addr = qrxCtrl.index addr := by
        simp [Range.index, hlo, hst]
      simp [TailIsQueue, ht, hc', hi]
    · have hout : ¬qrxCtrl.Covers addr := by
        intro hq
        have := hq.1
        have := hq.2
        have := hc.1
        have := hc.2
        omega
      simp [TailIsQueue, ht, hout]

/-- Every index is in bounds exactly outside the listed address ranges and, for a write that enables a
receive queue, when its tail register happens to hold the number of a queue. -/
theorem register_accesses_in_bounds (addr : ℕ) :
    ((∀ a ∈ readAccesses addr, a.InBounds) ↔ ∀ iv ∈ readOverruns, ¬Within iv addr) ∧
    (∀ regs rxEnabled val, (∀ a ∈ writeAccesses regs rxEnabled addr val, a.InBounds) ↔
      (∀ iv ∈ writeOverruns, ¬Within iv addr) ∧ TailIsQueue regs rxEnabled addr val) := by
  constructor
  · rw [read_accesses_iff, fits_iff read_table.2.1, read_table.1]
  · intro regs rxEnabled val
    rw [write_accesses_iff, fits_iff write_table.2.1, write_table.1]

theorem dyn_ctl_write_overruns :
    0x161FFC < barSize ∧ ∃ a ∈ writeAccesses .cleared (fun _ => false) 0x161FFC 0, ¬a.InBounds :=
  ⟨by decide, .reg .pfintDynCtln 2047, by decide +kernel, by decide⟩

end Vmux.RegisterBounds
