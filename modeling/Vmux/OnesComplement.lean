import Mathlib.Data.List.Basic
import Mathlib.Tactic

namespace Vmux.OnesComplement

/-- Addition of 16-bit words in which the carry comes back in at the low end. -/
def add (x y : ℕ) : ℕ := if x + y < 0x10000 then x + y else x + y - 0xffff

/-- The one's-complement sum of the big-endian words of a byte string, which a zero completes if its length is odd. -/
def sum : List UInt8 → ℕ
  | a :: b :: rest => add (256 * a.toNat + b.toNat) (sum rest)
  | [a] => 256 * a.toNat
  | [] => 0

def Verifies (l : List UInt8) : Prop := sum l = 0xffff

instance (l : List UInt8) : Decidable (Verifies l) := inferInstanceAs (Decidable (sum l = 0xffff))

/-- The plain sum of the little-endian words. -/
def leSum : List UInt8 → ℕ
  | a :: b :: rest => a.toNat + 256 * b.toNat + leSum rest
  | [a] => a.toNat
  | [] => 0

theorem sum_cases (l : List UInt8) :
    sum l ≤ 0xffff ∧ 256 * leSum l % 0xffff = sum l % 0xffff ∧ (sum l = 0 ↔ leSum l = 0) := by
  induction l using leSum.induct with
  | case1 a b rest ih =>
    have ha := a.toNat_lt
    have hb := b.toNat_lt
    obtain ⟨hle, hmod, hzero⟩ := ih
    simp only [sum, leSum, add]
    split
    · exact ⟨by omega, by omega, by omega⟩
    · exact ⟨by omega, by omega, by omega⟩
  | case2 a =>
    have ha := a.toNat_lt
    simp only [sum, leSum]
    exact ⟨by omega, trivial, by omega⟩
  | case3 => decide

theorem verifies_iff (l : List UInt8) : Verifies l ↔ leSum l % 0xffff = 0 ∧ leSum l ≠ 0 := by
  obtain ⟨hle, hmod, hzero⟩ := sum_cases l
  unfold Verifies
  omega

theorem leSum_append {a : List UInt8} (b : List UInt8) (h : a.length % 2 = 0) : leSum (a ++ b) = leSum a + leSum b := by
  induction a using leSum.induct with
  | case1 x y rest ih =>
    have hrest : rest.length % 2 = 0 := by
      simp only [List.length_cons] at h
      omega
    simp only [List.cons_append, leSum, ih hrest]
    omega
  | case2 x => simp at h
  | case3 => simp [leSum]

theorem leSum_le (l : List UInt8) : leSum l ≤ 0x10000 * l.length := by
  induction l using leSum.induct with
  | case1 a b rest ih =>
    have ha := a.toNat_lt
    have hb := b.toNat_lt
    simp only [leSum, List.length_cons]
    omega
  | case2 a =>
    have ha := a.toNat_lt
    simp only [leSum, List.length_singleton]
    omega
  | case3 => simp [leSum]

end Vmux.OnesComplement
