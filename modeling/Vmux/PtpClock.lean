import Vmux.Transitions
import Mathlib.Tactic

namespace Vmux.Ptp

open Transitions

/-- Whether the timestamps come from the driver or from the clock of the host. -/
inductive Mode
  | emulation
  | mediation
deriving DecidableEq, Repr

/-- `last_val` and `offset` are `e810_timestamp_t`, of which this is the member `value`. -/
structure PtpManager where
  lastUpdated : ℕ
  lastVal : BitVec 128
  offset : BitVec 128
  incVal : ℕ

def fresh : PtpManager := ⟨0, 0, 0, 0x100000000⟩

/-- What the calls find outside: `clock_gettime` can fail. -/
structure Source where
  monotonic : Option ℕ
  currentTimestamp : ℕ
  sampleTimestamp : ℕ

/-- `E810_TIMESTAMP_MASK`. -/
def timestampMask : BitVec 128 := BitVec.ofNat 128 (0xFFFFFFFF * 0x10000000000000000 + 0xFFFFFFFFFFFFFFFF)

/-- What a `uint64_t` is after the way through a `double`: 53 bits, rounded to nearest, ties to even. -/
def viaDouble (n : ℕ) : ℕ :=
  if n < 2 ^ 53 then n
  else
    let ulp := 2 ^ (Nat.log2 n - 52)
    let up := ulp / 2 < n % ulp ∨ n % ulp = ulp / 2 ∧ n / ulp % 2 = 1
    (n / ulp + if up then 1 else 0) * ulp % 0x10000000000000000

def addOffset (m : PtpManager) : PtpManager :=
  if m.offset ≠ 0 then { m with lastVal := m.lastVal + (m.offset &&& timestampMask) } else m

section

variable (s : ℕ)

/-- The member `time`, whose lowest bit is bit `s` of `value`. -/
def time (v : BitVec 128) : ℕ := v.toNat / 2 ^ s % 0x10000000000000000

/-- `{ .time = t, .time_0 = 0 }` -/
def timestamp (t : ℕ) : BitVec 128 := BitVec.ofNat 128 (t % 0x10000000000000000 * 2 ^ s)

/-- `v.time += n` -/
def addTime (v : BitVec 128) (n : ℕ) : BitVec 128 :=
  BitVec.ofNat 128 (v.toNat - time s v * 2 ^ s + (time s v + n) % 0x10000000000000000 * 2 ^ s)

def phcRead (mode : Mode) (src : Source) (m : PtpManager) : BitVec 128 × PtpManager :=
  match mode with
  | .mediation =>
    let m := addOffset { m with lastVal := timestamp s src.currentTimestamp }
    (m.lastVal, m)
  | .emulation =>
    match src.monotonic with
    | none => (0, m)
    | some cycleNow =>
      let cyclesPassed := (cycleNow + 0x10000000000000000 - m.lastUpdated) % 0x10000000000000000
      let m := addOffset { m with
        lastUpdated := cycleNow
        lastVal := addTime s m.lastVal (viaDouble cyclesPassed) }
      (m.lastVal, m)

/-- `phc_sample_rx` and `phc_sample_tx`. -/
def phcSample (mode : Mode) (src : Source) (m : PtpManager) : BitVec 128 × PtpManager :=
  match mode with
  | .mediation => (timestamp s src.sampleTimestamp, m)
  | .emulation => phcRead s .emulation src m

end

def phcWrite (val : BitVec 128) (m : PtpManager) : PtpManager := { m with offset := m.offset + (val - m.lastVal) }

def adjust (val : ℤ) (m : PtpManager) : PtpManager := { m with offset := m.offset + BitVec.ofInt 128 val }

/-- A reading of the clock: when it was made, the correction of the source clock that the calls
before it ask for, and the result. -/
structure Reading where
  at_ : ℕ
  corr : ℤ
  value : BitVec 128
deriving DecidableEq

structure Timed where
  manager : PtpManager
  now : ℕ
  corr : ℤ
  readings : List Reading

inductive Call
  | read
  | sample (hw : ℕ)
  | adjust (val : ℤ)
  | write (val : BitVec 128)

def clockBound : Mode → ℕ
  | .emulation => 2 ^ 53
  | .mediation => 2 ^ 64

def Call.Valid : Call → Prop
  | .adjust val => -2 ^ 63 ≤ val ∧ val < 2 ^ 63
  | _ => True

def sourceAt (t hw : ℕ) : Source := ⟨some t, t, hw⟩

def Timed.record (x : Timed) (t : ℕ) (r : BitVec 128 × PtpManager) : Timed :=
  { x with manager := r.2, now := t, readings := x.readings ++ [⟨t, x.corr, r.1⟩] }

/-- A sample in mediation is a timestamp of the driver and no reading of this clock. -/
def Timed.call (mode : Mode) (s : ℕ) (x : Timed) (t : ℕ) : Call → Timed
  | .read => x.record t (phcRead s mode (sourceAt t 0) x.manager)
  | .sample hw =>
    match mode with
    | .emulation => x.record t (phcSample s .emulation (sourceAt t hw) x.manager)
    | .mediation => { x with manager := (phcSample s .mediation (sourceAt t hw) x.manager).2, now := t }
  | .adjust val => { x with manager := Ptp.adjust val x.manager, now := t, corr := x.corr + val }
  | .write val => { x with manager := phcWrite val x.manager, now := t, corr := val.toNat - t * 2 ^ s }

/-- Calls at non-decreasing times, each of which is `good`. -/
def clockRuns (mode : Mode) (s : ℕ) (good : Timed → ℕ → Call → Prop) : Machine Timed where
  start x := x.manager = fresh ∧ x.corr = 0 ∧ x.readings = []
  step x y := ∃ t call, x.now ≤ t ∧ t < clockBound mode ∧ Call.Valid call ∧ good x t call ∧ y = x.call mode s t call

/-- The law of the clock. -/
def Reading.Lawful (s : ℕ) (r : Reading) : Prop :=
  (time s r.value : ℤ) = (r.at_ * 2 ^ s + r.corr) / 2 ^ s % 2 ^ 64

instance (s : ℕ) (r : Reading) : Decidable (r.Lawful s) := inferInstanceAs (Decidable (_ = _))

/-- What the mask cuts off the offset is above the member `time`. -/
def Covered (s : ℕ) (offset : BitVec 128) : Prop :=
  (offset &&& timestampMask).toNat % 2 ^ (s + 64) = offset.toNat % 2 ^ (s + 64)

instance (s : ℕ) (offset : BitVec 128) : Decidable (Covered s offset) := inferInstanceAs (Decidable (_ = _))

/-- A reading in emulation finds `last_val` without an offset that an earlier reading added, and a write
comes when the offset is the difference between the last reading and the source clock. -/
def steady (mode : Mode) (s : ℕ) (x : Timed) (t : ℕ) : Call → Prop
  | .adjust _ => True
  | .write _ => x.manager.offset = x.manager.lastVal - timestamp s t
  | .read => Covered s x.manager.offset ∧
      (mode = .emulation → x.manager.lastVal = timestamp s x.manager.lastUpdated)
  | .sample _ => mode = .emulation → Covered s x.manager.offset ∧
      x.manager.lastVal = timestamp s x.manager.lastUpdated

instance (mode : Mode) (s : ℕ) (x : Timed) (t : ℕ) : ∀ call, Decidable (steady mode s x t call)
  | .adjust _ => inferInstanceAs (Decidable True)
  | .write _ => inferInstanceAs (Decidable (_ = _))
  | .read => inferInstanceAs (Decidable (_ ∧ _))
  | .sample _ => inferInstanceAs (Decidable (_ → _))

section

variable {mode : Mode} {s : ℕ} {x y : Timed}

theorem emod_mul_ediv {a b : ℤ} (ha : 0 < a) (z : ℤ) : z % (a * b) / a = z / a % b := by
  have hz : z % (a * b) = z + a * (-(b * (z / (a * b)))) := by
    rw [Int.emod_def]
    ring
  rw [hz, Int.add_mul_ediv_left _ _ ha.ne', Int.emod_def, ← Int.ediv_ediv_of_nonneg ha.le]
  ring

theorem time_mod (v : BitVec 128) : time s v = v.toNat % 2 ^ (s + 64) / 2 ^ s := by
  rw [time, pow_add]
  exact (Nat.mod_mul_right_div_self _ _ _).symm

theorem lawful_of_emod {t : ℕ} {c : ℤ} {v : BitVec 128}
    (h : (v.toNat : ℤ) % 2 ^ (s + 64) = (t * 2 ^ s + c) % 2 ^ (s + 64)) : Reading.Lawful s ⟨t, c, v⟩ := by
  have hs : (0 : ℤ) < 2 ^ s := by positivity
  rw [Reading.Lawful, time_mod]
  push_cast
  rw [h, pow_add]
  exact emod_mul_ediv hs _

theorem timestamp_toNat {t : ℕ} (hs : s ≤ 64) (ht : t < 2 ^ 64) : (timestamp s t).toNat = t * 2 ^ s := by
  have hlt : t * 2 ^ s < 2 ^ 128 :=
    calc t * 2 ^ s < 2 ^ 64 * 2 ^ s := Nat.mul_lt_mul_of_pos_right ht (by positivity)
      _ ≤ 2 ^ 64 * 2 ^ 64 := Nat.mul_le_mul_left _ (Nat.pow_le_pow_right (by norm_num) hs)
      _ = 2 ^ 128 := by norm_num
  rw [timestamp, BitVec.toNat_ofNat, Nat.mod_eq_of_lt (show t < 0x10000000000000000 from ht), Nat.mod_eq_of_lt hlt]

theorem time_timestamp {t : ℕ} (hs : s ≤ 64) (ht : t < 2 ^ 64) : time s (timestamp s t) = t := by
  rw [time, timestamp_toNat hs ht, Nat.mul_div_cancel _ (by positivity)]
  exact Nat.mod_eq_of_lt ht

theorem addTime_timestamp {t n : ℕ} (hs : s ≤ 64) (ht : t < 2 ^ 64) : addTime s (timestamp s t) n = timestamp s (t + n) := by
  rw [addTime, time_timestamp hs ht, timestamp_toNat hs ht, Nat.sub_self, Nat.zero_add]
  rfl

theorem viaDouble_eq {n : ℕ} (h : n < 2 ^ 53) : viaDouble n = n := if_pos h

theorem addOffset_lastVal (m : PtpManager) : (addOffset m).lastVal = m.lastVal + (m.offset &&& timestampMask) := by
  unfold addOffset
  split
  · rfl
  · rename_i h
    rw [not_not.mp h]
    simp

theorem addOffset_offset (m : PtpManager) : (addOffset m).offset = m.offset := by
  unfold addOffset
  split <;> rfl

theorem addOffset_lastUpdated (m : PtpManager) : (addOffset m).lastUpdated = m.lastUpdated := by
  unfold addOffset
  split <;> rfl

theorem phcRead_value {t hw : ℕ} (hs : s ≤ 64) (ht : t < clockBound mode) (hl : x.manager.lastUpdated ≤ t)
    (hc : mode = .emulation → x.manager.lastVal = timestamp s x.manager.lastUpdated) :
    (phcRead s mode (sourceAt t hw) x.manager).1 = timestamp s t + (x.manager.offset &&& timestampMask) := by
  cases mode with
  | mediation => exact addOffset_lastVal _
  | emulation =>
    have ht : t < 2 ^ 53 := ht
    refine (addOffset_lastVal _).trans ?_
    have hcycles : (t + 0x10000000000000000 - x.manager.lastUpdated) % 0x10000000000000000 = t - x.manager.lastUpdated := by
      omega
    dsimp only
    rw [hcycles, viaDouble_eq (by omega), hc rfl, addTime_timestamp hs (by omega), Nat.add_sub_cancel' hl]

theorem phcRead_offset (mode : Mode) (src : Source) (m : PtpManager) : (phcRead s mode src m).2.offset = m.offset := by
  unfold phcRead
  split
  · exact addOffset_offset _
  · split
    · rfl
    · exact addOffset_offset _

/-- The offset is the correction that the calls ask for, and the clock was not updated in the future. -/
structure Corrected (mode : Mode) (s : ℕ) (x : Timed) : Prop where
  offset : x.manager.offset = BitVec.ofInt 128 x.corr
  updated : x.manager.lastUpdated ≤ x.now
  lawful : ∀ r ∈ x.readings, r.Lawful s

theorem reading_lawful {t hw : ℕ} (hs : s ≤ 64) (h : Corrected mode s x) (hn : x.now ≤ t) (ht : t < clockBound mode)
    (hcov : Covered s x.manager.offset)
    (hc : mode = .emulation → x.manager.lastVal = timestamp s x.manager.lastUpdated) :
    Reading.Lawful s ⟨t, x.corr, (phcRead s mode (sourceAt t hw) x.manager).1⟩ := by
  have ht64 : t < 2 ^ 64 := by
    cases mode
    · exact lt_trans ht (by norm_num [clockBound])
    · exact ht
  have hdvd : (2 : ℤ) ^ (s + 64) ∣ 2 ^ 128 := pow_dvd_pow 2 (by omega)
  have hoff : ((x.manager.offset &&& timestampMask).toNat : ℤ) ≡ x.corr [ZMOD 2 ^ (s + 64)] := by
    have hmask : ((x.manager.offset &&& timestampMask).toNat : ℤ) ≡ x.manager.offset.toNat [ZMOD 2 ^ (s + 64)] := by
      have hcov : (x.manager.offset &&& timestampMask).toNat % 2 ^ (s + 64) =
          x.manager.offset.toNat % 2 ^ (s + 64) := hcov
      exact_mod_cast hcov
    have hcorr : (x.manager.offset.toNat : ℤ) ≡ x.corr [ZMOD 2 ^ 128] := by
      rw [h.offset, BitVec.toNat_ofInt]
      have hnn : 0 ≤ x.corr % ((2 ^ 128 : ℕ) : ℤ) := Int.emod_nonneg _ (by norm_num)
      rw [Int.toNat_of_nonneg hnn]
      exact Int.mod_modEq _ _
    exact hmask.trans (hcorr.of_dvd hdvd)
  have hsum : ((timestamp s t + (x.manager.offset &&& timestampMask)).toNat : ℤ) ≡
      t * 2 ^ s + (x.manager.offset &&& timestampMask).toNat [ZMOD 2 ^ 128] := by
    rw [BitVec.toNat_add, timestamp_toNat hs ht64]
    push_cast
    exact Int.mod_modEq _ _
  apply lawful_of_emod
  rw [phcRead_value hs ht (h.updated.trans hn) hc]
  exact (hsum.of_dvd hdvd).trans (hoff.add_left _)

theorem phcRead_lastUpdated {t hw : ℕ} (hl : x.manager.lastUpdated ≤ t) :
    (phcRead s mode (sourceAt t hw) x.manager).2.lastUpdated ≤ t := by
  cases mode with
  | mediation => exact (addOffset_lastUpdated _).trans_le hl
  | emulation => exact (addOffset_lastUpdated _).le

theorem Corrected.read {t hw : ℕ} (hs : s ≤ 64) (h : Corrected mode s x) (hn : x.now ≤ t) (ht : t < clockBound mode)
    (hcov : Covered s x.manager.offset)
    (hc : mode = .emulation → x.manager.lastVal = timestamp s x.manager.lastUpdated) :
    Corrected mode s (x.record t (phcRead s mode (sourceAt t hw) x.manager)) := by
  refine ⟨?_, phcRead_lastUpdated (h.updated.trans hn), ?_⟩
  · exact (phcRead_offset _ _ _).trans h.offset
  · intro r hr
    rcases List.mem_append.mp hr with hr | hr
    · exact h.lawful r hr
    · rw [List.mem_singleton.mp hr]
      exact reading_lawful hs h hn ht hcov hc

theorem Corrected.write {t : ℕ} (hs : s ≤ 64) (h : Corrected mode s x) (hn : x.now ≤ t) (ht : t < 2 ^ 64)
    (val : BitVec 128) (ho : x.manager.offset = x.manager.lastVal - timestamp s t) :
    Corrected mode s (x.call mode s t (.write val)) := by
  refine ⟨?_, h.updated.trans hn, h.lawful⟩
  change x.manager.offset + (val - x.manager.lastVal) = BitVec.ofInt 128 (val.toNat - t * 2 ^ s)
  have hts : timestamp s t = BitVec.ofInt 128 (t * 2 ^ s : ℤ) := by
    apply BitVec.eq_of_toNat_eq
    have hlt := (timestamp s t).isLt
    rw [timestamp_toNat hs ht] at hlt ⊢
    rw [BitVec.toNat_ofInt]
    norm_cast
    exact (Nat.mod_eq_of_lt hlt).symm
  have hval : val = BitVec.ofInt 128 (val.toNat : ℤ) := by
    apply BitVec.eq_of_toNat_eq
    rw [BitVec.toNat_ofInt]
    norm_cast
    exact (Nat.mod_eq_of_lt val.isLt).symm
  calc x.manager.offset + (val - x.manager.lastVal) = val - timestamp s t := by
        rw [ho]
        grind
    _ = BitVec.ofInt 128 val.toNat - BitVec.ofInt 128 (t * 2 ^ s) := by rw [← hval, hts]
    _ = BitVec.ofInt 128 (val.toNat - t * 2 ^ s) := by
        rw [Int.sub_eq_add_neg, BitVec.ofInt_add, BitVec.ofInt_neg, BitVec.sub_eq_add_neg]

theorem Corrected.call {t : ℕ} {call : Call} (hs : s ≤ 64) (h : Corrected mode s x) (hn : x.now ≤ t)
    (ht : t < clockBound mode) (hgood : steady mode s x t call) : Corrected mode s (x.call mode s t call) := by
  cases call with
  | read => exact h.read hs hn ht hgood.1 hgood.2
  | sample hw =>
    cases mode with
    | emulation =>
      have hread : Corrected .emulation s (x.record t (phcRead s .emulation (sourceAt t hw) x.manager)) :=
        h.read hs hn ht (hgood rfl).1 fun _ => (hgood rfl).2
      exact hread
    | mediation => exact ⟨h.offset, h.updated.trans hn, h.lawful⟩
  | adjust val =>
    refine ⟨?_, h.updated.trans hn, h.lawful⟩
    change x.manager.offset + BitVec.ofInt 128 val = BitVec.ofInt 128 (x.corr + val)
    rw [h.offset, BitVec.ofInt_add]
  | write val =>
    have ht64 : t < 2 ^ 64 := by
      cases mode
      · exact lt_trans ht (by norm_num [clockBound])
      · exact ht
    exact h.write hs hn ht64 val hgood

theorem Corrected.start (good : Timed → ℕ → Call → Prop) (h : (clockRuns mode s good).start x) : Corrected mode s x := by
  obtain ⟨hm, hc, hr⟩ := h
  refine ⟨?_, ?_, ?_⟩
  · rw [hm, hc]
    rfl
  · rw [hm]
    exact Nat.zero_le _
  · simp [hr]

def Timed.calls (mode : Mode) (s : ℕ) : List (ℕ × Call) → Timed → Timed
  | [], x => x
  | (t, call) :: rest, x => (x.call mode s t call).calls mode s rest

/-- Calls that come one after another and are good when they come. -/
def Timed.Allowed (mode : Mode) (s : ℕ) (good : Timed → ℕ → Call → Prop) : List (ℕ × Call) → Timed → Prop
  | [], _ => True
  | (t, call) :: rest, x => (x.now ≤ t ∧ t < clockBound mode ∧ Call.Valid call ∧ good x t call) ∧
      (x.call mode s t call).Allowed mode s good rest

theorem reachable_calls {good : Timed → ℕ → Call → Prop} {l : List (ℕ × Call)} (h : (clockRuns mode s good).Reachable x)
    (ha : x.Allowed mode s good l) : (clockRuns mode s good).Reachable (x.calls mode s l) := by
  induction l generalizing x with
  | nil => exact h
  | cons c l ih =>
    obtain ⟨⟨hn, ht, hv, hg⟩, ha⟩ := ha
    exact ih (.step h ⟨c.1, c.2, hn, ht, hv, hg, rfl⟩) ha

def powerOn : Timed := ⟨fresh, 0, 0, []⟩

theorem reachable_powerOn (good : Timed → ℕ → Call → Prop) : (clockRuns mode s good).Reachable powerOn :=
  .start ⟨rfl, rfl, rfl⟩

/-- As long as no reading adds an offset a second time and each write is told the time by a reading,
every reading is that of the corrected source clock. -/
theorem phc_read_law (mode : Mode) (s : ℕ) (hs : s ≤ 64) (x : Timed)
    (h : (clockRuns mode s (steady mode s)).Reachable x) : ∀ r ∈ x.readings, r.Lawful s := by
  have hc : Corrected mode s x := by
    refine h.invariant (fun y hy => Corrected.start _ hy) fun y z hy hz => ?_
    obtain ⟨t, call, hn, ht, -, hgood, rfl⟩ := hz
    exact hy.call hs hn ht hgood
  exact hc.lawful

/-- The clock is set to 5 right after a reading at 1. -/
theorem phc_read_law_set : ∃ x, (clockRuns .emulation 64 (steady .emulation 64)).Reachable x ∧
    x.readings.map (fun r => time 64 r.value) = [1, 7] ∧ ∀ r ∈ x.readings, r.Lawful 64 := by
  have hr : (clockRuns .emulation 64 (steady .emulation 64)).Reachable (powerOn.calls .emulation 64
      [(1, .read), (1, .write (BitVec.ofNat 128 (5 * 2 ^ 64))), (3, .read)]) := by
    refine reachable_calls (reachable_powerOn _) ?_
    refine ⟨⟨by decide, by decide, trivial, ?_, fun _ => ?_⟩, ⟨by decide, by decide, trivial, ?_⟩,
      ⟨by decide, by decide, trivial, ?_, fun _ => ?_⟩, trivial⟩
    all_goals decide +kernel
  exact ⟨_, hr, by decide +kernel, phc_read_law .emulation 64 (by decide) _ hr⟩

/-- The second reading after the clock was set adds the offset once more. -/
theorem phc_read_repeats_offset : ∃ x, (clockRuns .emulation 64 fun _ _ _ => True).Reachable x ∧
    x.readings.map (fun r => (r.at_, time 64 r.value)) = [(1, 1), (1, 5), (2, 10)] ∧ ¬∀ r ∈ x.readings, r.Lawful 64 := by
  have hr : (clockRuns .emulation 64 fun _ _ _ => True).Reachable (powerOn.calls .emulation 64
      [(1, .read), (1, .write (BitVec.ofNat 128 (5 * 2 ^ 64))), (1, .read), (2, .read)]) := by
    refine reachable_calls (reachable_powerOn _) ?_
    refine ⟨⟨by decide, by decide, trivial, trivial⟩, ⟨by decide, by decide, trivial, trivial⟩,
      ⟨by decide, by decide, trivial, trivial⟩, ⟨by decide, by decide, trivial, trivial⟩, trivial⟩
  refine ⟨_, hr, by decide +kernel, fun hall => ?_⟩
  have hlast := hall ⟨2, 4 * 2 ^ 64, BitVec.ofNat 128 (10 * 2 ^ 64)⟩ (by decide +kernel)
  exact absurd hlast (by decide +kernel)

end

end Vmux.Ptp
