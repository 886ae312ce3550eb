import Vmux.PtpClock
import Vmux.StorageRegisters

namespace Vmux.PtpRegisters

open Transitions AddressMap DescriptorQueue Registers RegisterBounds StorageRegisters Ptp

def gltsynIncval0 : ℕ := 0x088918

/-- The operands of the two shifts are the array `REG_GLTSYN_SHTIME` itself, that is its address. -/
def newTime (shtime : ℕ) (regs : Regs) : BitVec 128 :=
  BitVec.ofNat 128 (regs.arr .gltsynShtime 0) ||| BitVec.ofNat 128 shtime <<< 32 ||| BitVec.ofNat 128 shtime <<< 64

def setIncval (inc : ℕ) (m : PtpManager) : PtpManager := { m with incVal := inc }

/-- What the calls of `reg_mem_write32` do to the manager. -/
def notify (shtime : ℕ) (regs : Regs) (m : PtpManager) : Notify → PtpManager
  | .phcWrite => phcWrite (newTime shtime regs) m
  | .setIncval inc => setIncval inc m
  | .adjust val => adjust (BitVec.ofNat 64 val).toInt m
  | _ => m

def timesWritten (shtime : ℕ) (regs : Regs) (calls : List Notify) : List (BitVec 128) :=
  calls.filterMap fun
    | .phcWrite => some (newTime shtime regs)
    | _ => none

def adjustments (calls : List Notify) : List ℕ :=
  calls.filterMap fun
    | .adjust val => some val
    | _ => none

/-- Timer 0 has the words 0, 2 and 4 of the shadow time. -/
def programmedTime (regs : Regs) : ℕ :=
  regs.arr .gltsynShtime 0 + regs.arr .gltsynShtime 2 * 0x100000000 + regs.arr .gltsynShtime 4 * 0x10000000000000000

/-- The low words of the timers come first, then the high ones. -/
def programmedAdjust (regs : Regs) : ℕ :=
  regs.arr .gltsynShadj (2 + selMaster regs) * 0x100000000 + regs.arr .gltsynShadj (selMaster regs)

def shadowArrays : List RegArray := [.gltsynShtime, .gltsynShadj]

/-- The registers from reset on, with any accesses of the guest. Whatever else the device does, it
leaves the shadow registers alone. -/
inductive RegisterStep (r r' : Regs) : Prop
  | write (ptp : PtpClock) (en : ℕ → Bool) (addr val : ℕ) (notes : List Notify) (hv : val < 0x100000000)
      (h : regMemWrite32 ptp en r addr val = .ok (r', notes))
  | read (ptp : PtpClock) (addr val : ℕ) (h : regMemRead32 ptp r addr = .ok (val, r'))
  | reset (h : r' = Regs.cleared)
  | other (h : ∀ a ∈ shadowArrays, r'.arr a = r.arr a)

def registerRuns : Machine Regs where
  start r := r = Regs.cleared
  step := RegisterStep

/-- `INIT_TIME_INCVAL` sets the time and the increment, and nothing else. -/
structure SetsTime (shtime : ℕ) (regs regs' : Regs) (calls : List Notify) : Prop where
  time : timesWritten shtime regs calls = [BitVec.ofNat 128 (programmedTime regs)]
  incval : ∀ (ptp : PtpClock) (m : PtpManager),
    regMemRead32 { ptp with incval := (calls.foldl (notify shtime regs) m).incVal } regs' gltsynIncval0 =
      .ok (regs.arr .gltsynShadj 0, regs')
  adjust : ∀ val ∈ adjustments calls, val = 0

/-- `ADJ_TIME` adjusts the time and nothing else. -/
structure AdjustsTime (shtime : ℕ) (regs : Regs) (calls : List Notify) : Prop where
  adjust : adjustments calls = [programmedAdjust regs]
  time : timesWritten shtime regs calls = []
  incval : ∀ m, (calls.foldl (notify shtime regs) m).incVal = m.incVal

section

variable {ptp : PtpClock} {en : ℕ → Bool} {regs regs' : Regs} {addr val : ℕ} {notes : List Notify}

theorem store_arr (a b : RegArray) (i j : ℕ) :
    (regs.store a i val).arr b j = regs.arr b j ∨ (regs.store a i val).arr b j = val := by
  by_cases h : b = a ∧ j = i
  · obtain ⟨rfl, rfl⟩ := h
    exact .inr (store_arr_self _ _ _ _)
  · rw [not_and_or] at h
    exact .inl (store_arr_ne _ _ _ _ h)

theorem write_shadow (h : regMemWrite32 ptp en regs addr val = .ok (regs', notes)) {a : RegArray}
    (ha : a ∈ shadowArrays) (j : ℕ) : regs'.arr a j = regs.arr a j ∨ regs'.arr a j = val := by
  have hne : a ≠ .gltsynIncval ∧ a ≠ .gltsynEna := by
    rcases List.mem_pair.mp ha with rfl | rfl <;> decide
  unfold regMemWrite32 at h
  split at h
  · have hregs := congrArg Prod.fst (Except.ok.inj h)
    dsimp only at hregs
    rw [← hregs]
    split
    · rename_i r _
      cases r.target with
      | store b => exact store_arr b a _ j
      | _ =>
        left
        apply run_arr
        rcases List.mem_pair.mp ha with rfl | rfl <;> simp [touched]
    split
    · exact .inl (by rw [apply_arr])
    split
    · exact .inl rfl
    split
    · exact .inl rfl
    split
    · exact .inl (by rw [(sbAtqbal_eq ptp regs val).1])
    split
    · exact .inl ((cmdSync_eq regs val).2 _ _ hne.1)
    split
    · exact .inl (store_arr_ne _ _ _ _ (.inl hne.2))
    · exact .inl rfl
  · cases h

theorem read_shadow (h : regMemRead32 ptp regs addr = .ok (val, regs')) {a : RegArray} (ha : a ∈ shadowArrays) :
    regs'.arr a = regs.arr a := by
  have hne : a ≠ .flexRxdid 0 := by
    rcases List.mem_pair.mp ha with rfl | rfl <;> decide
  unfold regMemRead32 at h
  split at h
  · have hregs := congrArg Prod.snd (Except.ok.inj h)
    dsimp only at hregs
    rw [← hregs]
    split
    · rename_i r hl
      cases ht : r.target with
      | clear b =>
        rw [reads_clear r (lookup_some hl).1 b ht]
        exact Function.update_of_ne hne _ _
      | _ => rfl
    split
    · rename_i x _
      cases x with
      | _ => rfl
    · rfl
  · cases h

def Words (r : Regs) : Prop := ∀ a ∈ shadowArrays, ∀ i, r.arr a i < 0x100000000

theorem words (h : registerRuns.Reachable regs) : Words regs := by
  refine h.invariant (fun r hr => ?_) fun r r' hw hs => ?_
  · subst hr
    intro a _ i
    exact Nat.zero_lt_succ _
  · intro a ha i
    cases hs with
    | write ptp en addr val notes hv h =>
      rcases write_shadow h ha i with he | he
      · exact he ▸ hw a ha i
      · exact he ▸ hv
    | read ptp addr val h => exact (congrFun (read_shadow h ha) i) ▸ hw a ha i
    | reset h =>
      subst h
      exact Nat.zero_lt_succ _
    | other h => exact (congrFun (h a ha) i) ▸ hw a ha i

theorem exec_inBounds (en : ℕ → Bool) (r : Regs) : ∀ a ∈ writeAccesses r en gltsynCmdSync 3, a.InBounds := by
  have hl : lookup (writeRanges ++ writeCases) gltsynCmdSync = none := by rfl
  unfold writeAccesses
  rw [hl]
  exact cmdSync_in_bounds r 3

/-- `GLTSYN_CMD_SYNC` with `EXEC` runs the command. -/
theorem exec_cmd (ptp : PtpClock) (en : ℕ → Bool) (r : Regs) :
    regMemWrite32 ptp en r gltsynCmdSync 3 = .ok (cmdSync r 3) := by
  have hl : lookup (writeRanges ++ writeCases) gltsynCmdSync = none := by rfl
  have hs : writeSwitch.lookup gltsynCmdSync = none := by rfl
  unfold regMemWrite32
  rw [if_pos (exec_inBounds en r), hl]
  dsimp only
  rw [hs]
  rfl

theorem read_incval (ptp : PtpClock) (r : Regs) :
    regMemRead32 ptp r gltsynIncval0 = .ok (ptp.incval % 0x100000000, r) := by
  have hl : lookup (readRanges ++ readCases) gltsynIncval0 = none := by rfl
  have hs : readSwitch.lookup gltsynIncval0 = some .incval := by rfl
  have hin : ∀ a ∈ readAccesses gltsynIncval0, a.InBounds := by
    unfold readAccesses
    rw [hl]
    dsimp only
    rw [hs]
    nofun
  unfold regMemRead32
  rw [if_pos hin, hl]
  dsimp only
  rw [hs]
  rfl

theorem or_words {a p : ℕ} (ha : a < 2 ^ 32) (hp : p < 2 ^ 32) :
    a ||| p * 2 ^ 32 ||| p * 2 ^ 64 = a + p * 2 ^ 32 + p * 2 ^ 64 := by
  have h1 : a ||| p * 2 ^ 32 = 2 ^ 32 * p + a := by
    rw [Nat.or_comm, Nat.mul_comm]
    exact (Nat.two_pow_add_eq_or_of_lt ha p).symm
  have hlt : 2 ^ 32 * p + a < 2 ^ 64 := by omega
  rw [h1, Nat.or_comm, Nat.mul_comm p, ← Nat.two_pow_add_eq_or_of_lt hlt p]
  omega

/-- The address takes the place of the words only if it is small enough to be one of them. -/
theorem newTime_iff {shtime : ℕ} (hp : shtime < 2 ^ 64) (hw : Words regs) :
    newTime shtime regs = BitVec.ofNat 128 (programmedTime regs) ↔
      shtime < 0x100000000 ∧ regs.arr .gltsynShtime 2 = shtime ∧ regs.arr .gltsynShtime 4 = shtime := by
  have ha := hw .gltsynShtime (by simp [shadowArrays]) 0
  have hb := hw .gltsynShtime (by simp [shadowArrays]) 2
  have hc := hw .gltsynShtime (by simp [shadowArrays]) 4
  unfold newTime programmedTime
  generalize regs.arr .gltsynShtime 0 = a at *
  generalize regs.arr .gltsynShtime 2 = b at *
  generalize regs.arr .gltsynShtime 4 = c at *
  have hleft : (BitVec.ofNat 128 a ||| BitVec.ofNat 128 shtime <<< 32 ||| BitVec.ofNat 128 shtime <<< 64).toNat =
      a ||| shtime * 2 ^ 32 ||| shtime * 2 ^ 64 := by
    rw [BitVec.toNat_or, BitVec.toNat_or, BitVec.toNat_shiftLeft, BitVec.toNat_shiftLeft, BitVec.toNat_ofNat,
      BitVec.toNat_ofNat, Nat.shiftLeft_eq, Nat.shiftLeft_eq, Nat.mod_eq_of_lt (show a < 2 ^ 128 by omega),
      Nat.mod_eq_of_lt (show shtime < 2 ^ 128 by omega), Nat.mod_eq_of_lt (show shtime * 2 ^ 32 < 2 ^ 128 by omega),
      Nat.mod_eq_of_lt (show shtime * 2 ^ 64 < 2 ^ 128 by omega)]
  have hright : (BitVec.ofNat 128 (a + b * 0x100000000 + c * 0x10000000000000000)).toNat =
      a + b * 2 ^ 32 + c * 2 ^ 64 := by
    rw [BitVec.toNat_ofNat]
    omega
  rw [← BitVec.toNat_inj, hleft, hright]
  constructor
  · intro h
    have hle : shtime * 2 ^ 64 ≤ a ||| shtime * 2 ^ 32 ||| shtime * 2 ^ 64 := Nat.right_le_or
    have hsmall : shtime < 2 ^ 32 := by omega
    rw [or_words ha hsmall] at h
    omega
  · rintro ⟨hsmall, rfl, rfl⟩
    exact or_words ha hsmall

theorem init_sets_time {shtime : ℕ} (hp : shtime < 2 ^ 64) (hw : Words regs) (hc : ptpCmd regs = 3) :
    SetsTime shtime regs (cmdSync regs 3).1 (cmdSync regs 3).2 ↔
      (shtime < 0x100000000 ∧ regs.arr .gltsynShtime 2 = shtime ∧ regs.arr .gltsynShtime 4 = shtime) ∧
        regs.arr .gltsynShadj (2 * selMaster regs) = 0 ∧ regs.arr .gltsynShadj (2 * selMaster regs + 1) = 0 := by
  have hsync : cmdSync regs 3 = (initIncval regs, [.phcWrite,
      .setIncval (regs.arr .gltsynShadj 0 + regs.arr .gltsynShadj 1 * 0x100000000), .adjust (ptpAdjust regs)]) :=
    if_pos ⟨rfl, hc⟩
  rw [hsync, ← newTime_iff hp hw]
  constructor
  · rintro ⟨htime, -, hadj⟩
    have hzero : ptpAdjust regs = 0 := hadj _ (by simp [adjustments])
    refine ⟨by simpa [timesWritten] using htime, ?_⟩
    unfold ptpAdjust at hzero
    omega
  · rintro ⟨htime, h1, h2⟩
    refine ⟨by simpa [timesWritten] using htime, fun ptp m => ?_, ?_⟩
    · have hw0 := hw .gltsynShadj (by simp [shadowArrays]) 0
      rw [read_incval]
      simp only [List.foldl_cons, List.foldl_nil, notify, setIncval, adjust]
      congr 2
      omega
    · simp [adjustments, ptpAdjust, h1, h2]

theorem adjust_incVal (val : ℤ) (m : PtpManager) : (adjust val m).incVal = m.incVal := rfl

theorem adj_adjusts_time {shtime : ℕ} (hw : Words regs) (hc : ptpCmd regs = 4) :
    AdjustsTime shtime regs (cmdSync regs 3).2 ↔
      regs.arr .gltsynShadj (2 * selMaster regs) = regs.arr .gltsynShadj (2 + selMaster regs) ∧
        regs.arr .gltsynShadj (2 * selMaster regs + 1) = regs.arr .gltsynShadj (selMaster regs) := by
  have hsync : cmdSync regs 3 = (regs, [.adjust (ptpAdjust regs)]) := by
    unfold cmdSync
    rw [if_neg (by omega), if_pos ⟨rfl, hc⟩]
  have h1 := hw .gltsynShadj (by simp [shadowArrays]) (2 * selMaster regs + 1)
  have h2 := hw .gltsynShadj (by simp [shadowArrays]) (selMaster regs)
  rw [hsync]
  constructor
  · rintro ⟨hadj, -, -⟩
    have heq : ptpAdjust regs = programmedAdjust regs := List.singleton_inj.mp hadj
    unfold ptpAdjust programmedAdjust at heq
    omega
  · rintro ⟨hh, hl⟩
    have heq : ptpAdjust regs = programmedAdjust regs := by rw [ptpAdjust, programmedAdjust, hh, hl]
    refine ⟨List.singleton_inj.mpr heq, rfl, fun m => ?_⟩
    exact adjust_incVal _ m

theorem write_cmd (r : Regs) (val : ℕ) : regMemWrite32 ⟨0, 0, 0, fun _ => 0⟩ (fun _ => false) r 0x088810 val =
    .ok (r.set .gltsynCmd val, []) := by
  have hl : lookup (writeRanges ++ writeCases) 0x088810 = none := by rfl
  have hs : writeSwitch.lookup 0x088810 = some (.set .gltsynCmd, []) := by rfl
  have hin : ∀ a ∈ writeAccesses r (fun _ => false) 0x088810 val, a.InBounds := by
    unfold writeAccesses
    rw [hl]
    nofun
  unfold regMemWrite32
  rw [if_pos hin, hl]
  dsimp only
  rw [hs]
  rfl

theorem write_stored (r : Regs) {a : RegArray} {i : ℕ} (hi : i < a.size) (h : (lookup (writeRanges ++ writeCases) addr).map
      (fun x => (x.target, x.index addr)) = some (.store a, i)) :
    regMemWrite32 ⟨0, 0, 0, fun _ => 0⟩ (fun _ => false) r addr val = .ok (r.store a i val, []) := by
  obtain ⟨x, hl, hx⟩ := Option.map_eq_some_iff.mp h
  rw [Prod.mk.injEq] at hx
  obtain ⟨ht, hidx⟩ := hx
  have hin : ∀ y ∈ writeAccesses r (fun _ => false) addr val, y.InBounds := by
    unfold writeAccesses
    rw [hl]
    dsimp only
    rw [ht, hidx]
    intro y hy
    rw [List.mem_singleton.mp hy]
    exact hi
  unfold regMemWrite32
  rw [if_pos hin, hl]
  dsimp only
  rw [ht, hidx]
  rfl

def programmed (a : RegArray) (i val cmd : ℕ) : Regs := (Regs.cleared.store a i val).set .gltsynCmd cmd

theorem reachable_programmed (addr : ℕ) {a : RegArray} {i val cmd : ℕ} (hv : val < 0x100000000) (hc : cmd < 0x100000000)
    (hi : i < a.size) (h : (lookup (writeRanges ++ writeCases) addr).map
      (fun x => (x.target, x.index addr)) = some (.store a, i)) : registerRuns.Reachable (programmed a i val cmd) :=
  .step (.step (.start rfl) (.write _ _ addr val [] hv (write_stored _ hi h))) (.write _ _ 0x088810 cmd [] hc (write_cmd _ cmd))

/-- The commands of the driver, for registers as they can be and any address of the process. -/
theorem ptp_commands (shtime : ℕ) (hp : shtime < 2 ^ 64) (ptp : PtpClock) (en : ℕ → Bool) (regs : Regs)
    (hr : registerRuns.Reachable regs) :
    ∃ regs' calls, regMemWrite32 ptp en regs gltsynCmdSync 3 = .ok (regs', calls) ∧
      (ptpCmd regs = 3 → (SetsTime shtime regs regs' calls ↔
        (shtime < 0x100000000 ∧ regs.arr .gltsynShtime 2 = shtime ∧ regs.arr .gltsynShtime 4 = shtime) ∧
          regs.arr .gltsynShadj (2 * selMaster regs) = 0 ∧ regs.arr .gltsynShadj (2 * selMaster regs + 1) = 0)) ∧
      (ptpCmd regs = 4 → (AdjustsTime shtime regs calls ↔
        regs.arr .gltsynShadj (2 * selMaster regs) = regs.arr .gltsynShadj (2 + selMaster regs) ∧
          regs.arr .gltsynShadj (2 * selMaster regs + 1) = regs.arr .gltsynShadj (selMaster regs))) :=
  ⟨_, _, exec_cmd ptp en regs, init_sets_time hp (words hr), adj_adjusts_time (words hr)⟩

/-- Three words of the adjustment are 7, and the command is `ADJ_TIME` for timer 0. -/
def sevens : Regs :=
  (((Regs.cleared.store .gltsynShadj 0 7).store .gltsynShadj 1 7).store .gltsynShadj 2 7).set .gltsynCmd 4

theorem ptp_commands_sevens : registerRuns.Reachable sevens ∧
    ∃ regs' calls, regMemWrite32 ⟨0, 0, 0, fun _ => 0⟩ (fun _ => false) sevens gltsynCmdSync 3 = .ok (regs', calls) ∧
      programmedAdjust sevens = 0x700000007 ∧ AdjustsTime 0x7F0000001000 sevens calls := by
  have h0 : registerRuns.Reachable Regs.cleared := .start rfl
  have h1 := h0.step (.write _ _ 0x088908 7 [] (by decide)
    (write_stored _ (by decide : 0 < RegArray.gltsynShadj.size) (by decide +kernel)))
  have h2 := h1.step (.write _ _ 0x08890C 7 [] (by decide)
    (write_stored _ (by decide : 1 < RegArray.gltsynShadj.size) (by decide +kernel)))
  have h3 := h2.step (.write _ _ 0x088910 7 [] (by decide)
    (write_stored _ (by decide : 2 < RegArray.gltsynShadj.size) (by decide +kernel)))
  have hr : registerRuns.Reachable sevens := h3.step (.write _ _ 0x088810 4 [] (by decide) (write_cmd _ 4))
  obtain ⟨regs', calls, he, -, hadj⟩ := ptp_commands 0x7F0000001000 (by decide) ⟨0, 0, 0, fun _ => 0⟩ (fun _ => false) _ hr
  exact ⟨hr, regs', calls, he, by decide, (hadj (by decide)).mpr (by decide)⟩

/-- The time 5 and the adjustment 1 are neither set nor applied. -/
theorem ptp_commands_wrong :
    (registerRuns.Reachable (programmed .gltsynShtime 2 5 3) ∧ ptpCmd (programmed .gltsynShtime 2 5 3) = 3 ∧
      ¬SetsTime 0x7F0000001000 (programmed .gltsynShtime 2 5 3) (cmdSync (programmed .gltsynShtime 2 5 3) 3).1
        (cmdSync (programmed .gltsynShtime 2 5 3) 3).2) ∧
    registerRuns.Reachable (programmed .gltsynShadj 0 1 4) ∧ ptpCmd (programmed .gltsynShadj 0 1 4) = 4 ∧
      adjustments (cmdSync (programmed .gltsynShadj 0 1 4) 3).2 = [0x100000000] ∧
      ¬AdjustsTime 0x7F0000001000 (programmed .gltsynShadj 0 1 4) (cmdSync (programmed .gltsynShadj 0 1 4) 3).2 := by
  have h1 : registerRuns.Reachable (programmed .gltsynShtime 2 5 3) :=
    reachable_programmed 0x0888E8 (by decide) (by decide) (by decide) (by decide +kernel)
  have h2 : registerRuns.Reachable (programmed .gltsynShadj 0 1 4) :=
    reachable_programmed 0x088908 (by decide) (by decide) (by decide) (by decide +kernel)
  refine ⟨⟨h1, by decide, fun hset => ?_⟩, h2, by decide, by decide, fun hadj => ?_⟩
  · have hsmall := ((init_sets_time (by decide) (words h1) (by decide)).mp hset).1.1
    exact absurd hsmall (by decide)
  · have hwords := ((adj_adjusts_time (words h2) (by decide)).mp hadj).1
    exact absurd hwords (by decide)

end

end Vmux.PtpRegisters
