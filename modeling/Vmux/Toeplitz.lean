import Mathlib.Tactic

namespace Vmux.Toeplitz

variable {key : ℕ → Bool} {w : ℕ}

/-- The `w` bits of the key from bit `i` on, the first of them highest. -/
def window (key : ℕ → Bool) : (w i : ℕ) → BitVec w
  | 0, _ => 0#0
  | w + 1, i => BitVec.cons (key i) (window key w (i + 1))

/-- For every bit of the input that is set, the window of the key at its place. -/
def toeplitz (key : ℕ → Bool) (w : ℕ) : ℕ → List Bool → BitVec w
  | _, [] => 0#w
  | i, b :: bs => (if b then window key w i else 0#w) ^^^ toeplitz key w (i + 1) bs

theorem getLsbD_window (i k : ℕ) : (window key w i).getLsbD k = (decide (k < w) && key (i + (w - 1 - k))) := by
  induction w generalizing i with
  | zero => simp [window]
  | succ w ih =>
    rw [window, BitVec.getLsbD_cons, ih]
    by_cases hk : k = w
    · simp [hk]
    · have hlt : k < w ↔ k < w + 1 := by omega
      by_cases hw : k < w
      · have hplace : i + 1 + (w - 1 - k) = i + (w - k) := by omega
        simp [hk, hw, hlt.mp hw, hplace]
      · simp [hk, hw, mt hlt.mpr hw]

theorem window_succ (i : ℕ) :
    window key w (i + 1) = window key w i <<< 1 ||| (BitVec.ofBool (key (i + w))).setWidth w := by
  apply BitVec.eq_of_getLsbD_eq
  intro k hk
  rw [BitVec.getLsbD_or, BitVec.getLsbD_shiftLeft, BitVec.getLsbD_setWidth, getLsbD_window, getLsbD_window,
    BitVec.getLsbD_ofBool]
  by_cases h0 : k = 0
  · subst h0
    have hlast : i + 1 + (w - 1) = i + w := by omega
    simp [hk, hlast]
  · have hprev : k - 1 < w := by omega
    have hplace : i + 1 + (w - 1 - k) = i + (w - 1 - (k - 1)) := by omega
    simp [hk, h0, hprev, hplace]

theorem toeplitz_append (i : ℕ) (a b : List Bool) :
    toeplitz key w i (a ++ b) = toeplitz key w i a ^^^ toeplitz key w (i + a.length) b := by
  induction a generalizing i with
  | nil => simp [toeplitz]
  | cons x a ih =>
    rw [List.cons_append, toeplitz, ih, toeplitz, List.length_cons, BitVec.xor_assoc, Nat.add_assoc, Nat.add_comm 1]

theorem toeplitz_zeros (i n : ℕ) : toeplitz key w i (List.replicate n false) = 0#w := by
  induction n generalizing i with
  | zero => rfl
  | succ n ih => simp [List.replicate_succ, toeplitz, ih]

end Vmux.Toeplitz
