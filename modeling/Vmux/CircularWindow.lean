import Mathlib.Data.Fin.Basic
import Mathlib.Data.Nat.ModEq
import Mathlib.Tactic

namespace Vmux.CircularWindow

variable {n : ℕ} [NeZero n] {α : Type*}

def slot (n : ℕ) [NeZero n] (k : ℕ) : Fin n := ⟨k % n, Nat.mod_lt _ (NeZero.pos n)⟩

/-- How many slots after `first` the slot `p` comes. -/
def offset (first : ℕ) (p : Fin n) : ℕ := (p.val + (n - first % n)) % n

theorem offset_lt (first : ℕ) (p : Fin n) : offset first p < n := Nat.mod_lt _ (NeZero.pos n)

theorem slot_mod (k : ℕ) : slot n (k % n) = slot n k := by simp [slot]

theorem slot_mod_add (k i : ℕ) : slot n (k % n + i) = slot n (k + i) := by simp [slot]

theorem slot_offset (first : ℕ) (p : Fin n) : slot n (first + offset first p) = p := by
  apply Fin.ext
  have hp := p.isLt
  have hm := Nat.mod_lt first (NeZero.pos n)
  have hd := Nat.div_add_mod first n
  simp only [slot, offset, Nat.add_mod_mod]
  have he : first + (p.val + (n - first % n)) = p.val + n * (first / n + 1) := by
    rw [Nat.mul_add, Nat.mul_one]; omega
  rw [he, Nat.add_mul_mod_self_left, Nat.mod_eq_of_lt hp]

theorem offset_slot (first i : ℕ) (hi : i < n) : offset first (slot n (first + i)) = i := by
  have hm := Nat.mod_lt first (NeZero.pos n)
  have hd := Nat.div_add_mod first n
  simp only [slot, offset, Nat.mod_add_mod]
  have he : first + i + (n - first % n) = i + n * (first / n + 1) := by
    rw [Nat.mul_add, Nat.mul_one]; omega
  rw [he, Nat.add_mul_mod_self_left, Nat.mod_eq_of_lt hi]

theorem slot_injective {first i j : ℕ} (hi : i < n) (hj : j < n)
    (h : slot n (first + i) = slot n (first + j)) : i = j := by
  rw [← offset_slot first i hi, h, offset_slot first j hj]

theorem offset_eq_iff {first i : ℕ} (hi : i < n) (p : Fin n) :
    offset first p = i ↔ p = slot n (first + i) := by
  constructor
  · intro h
    rw [← h, slot_offset]
  · intro h
    rw [h, offset_slot first i hi]

omit [NeZero n] in
theorem offset_mod (first : ℕ) (p : Fin n) : offset (first % n) p = offset first p := by
  simp [offset]

theorem offset_shift (first b : ℕ) (p : Fin n) (hb : b ≤ offset first p) :
    offset (first + b) p = offset first p - b := by
  have hl := offset_lt first p
  rw [offset_eq_iff (by omega), show first + b + (offset first p - b) = first + offset first p by omega,
    slot_offset]

theorem offset_shift_wrap (first b : ℕ) (p : Fin n) (hb : offset first p < b) (hn : b ≤ n) :
    offset (first + b) p = offset first p + n - b := by
  have hl := offset_lt first p
  rw [offset_eq_iff (by omega), show first + b + (offset first p + n - b) = first + offset first p + n by omega]
  conv_lhs => rw [← slot_offset first p]
  simp [slot]

/-- Rewrite the entries at the offsets below `cnt`; `g` also sees the offset. -/
def update (f : Fin n → α) (first cnt : ℕ) (g : ℕ → α → α) : Fin n → α :=
  fun p => if offset first p < cnt then g (offset first p) (f p) else f p

omit [NeZero n] in
theorem update_of_lt {f : Fin n → α} {first cnt : ℕ} {g : ℕ → α → α} {p : Fin n}
    (h : offset first p < cnt) : update f first cnt g p = g (offset first p) (f p) := by
  simp [update, h]

omit [NeZero n] in
theorem update_of_le {f : Fin n → α} {first cnt : ℕ} {g : ℕ → α → α} {p : Fin n}
    (h : cnt ≤ offset first p) : update f first cnt g p = f p := by
  simp [update, Nat.not_lt.mpr h]

/-- The loop `for (i = 0; i < n; i++) if (stop i) break;` ends at this index. -/
def scan (stop : ℕ → Bool) (n : ℕ) : ℕ := (List.range n).findIdx stop

theorem scan_le (stop : ℕ → Bool) (n : ℕ) : scan stop n ≤ n := by
  simpa [scan] using @List.findIdx_le_length _ stop (List.range n)

theorem scan_stop (stop : ℕ → Bool) (n : ℕ) (h : scan stop n < n) : stop (scan stop n) = true := by
  have hl : List.findIdx stop (List.range n) < (List.range n).length := by simpa [scan] using h
  have hg := List.findIdx_getElem (w := hl)
  simpa [scan] using hg

theorem scan_pass {stop : ℕ → Bool} {n i : ℕ} (h : i < scan stop n) : stop i = false := by
  have hg := @List.not_of_lt_findIdx _ stop (List.range n) i h
  simpa using hg

theorem scan_eq {stop : ℕ → Bool} {n k : ℕ} (hk : k ≤ n) (hpass : ∀ i < k, stop i = false)
    (hstop : k < n → stop k = true) : scan stop n = k := by
  have hle := scan_le stop n
  rcases Nat.lt_trichotomy (scan stop n) k with h | h | h
  · have hs := scan_stop stop n (by omega)
    rw [hpass _ h] at hs
    cases hs
  · exact h
  · have hp := scan_pass h
    rw [hstop (by omega)] at hp
    cases hp

end Vmux.CircularWindow
