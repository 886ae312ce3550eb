import Mathlib.Order.Basic
import Mathlib.Order.Nat

namespace Vmux.AddressMap

/-- Addresses `lo` to `hi`, decoded to the elements of `target` in steps of `stride`. -/
structure Range (α : Type*) where
  lo : ℕ
  hi : ℕ
  stride : ℕ
  target : α

variable {α : Type*}

namespace Range

def Covers (r : Range α) (addr : ℕ) : Prop := r.lo ≤ addr ∧ addr ≤ r.hi

instance (r : Range α) (addr : ℕ) : Decidable (r.Covers addr) := inferInstanceAs (Decidable (_ ∧ _))

def index (r : Range α) (addr : ℕ) : ℕ := (addr - r.lo) / r.stride

def limit (size : α → ℕ) (r : Range α) : ℕ := r.lo + r.stride * size r.target

theorem index_lt_iff {size : α → ℕ} {r : Range α} {addr : ℕ} (hs : 0 < r.stride) (hc : r.Covers addr) :
    r.index addr < size r.target ↔ addr < r.limit size := by
  rw [index, limit, Nat.div_lt_iff_lt_mul hs, Nat.mul_comm]
  have := hc.1
  omega

end Range

/-- The first range of the list that covers an address decides. -/
def lookup (rs : List (Range α)) (addr : ℕ) : Option (Range α) := rs.find? fun r => r.Covers addr

def Fits (size : α → ℕ) (rs : List (Range α)) (addr : ℕ) : Prop :=
  ∀ r, lookup rs addr = some r → r.index addr < size r.target

def raise (seen : List (Range α)) (a : ℕ) : ℕ :=
  seen.foldl (fun a e => if e.Covers a then e.hi + 1 else a) a

/-- The addresses of `r` that reach it and are decoded to an element beyond the target. -/
def exposed (size : α → ℕ) (seen : List (Range α)) (r : Range α) : Option (ℕ × ℕ) :=
  if raise seen (r.limit size) ≤ r.hi then some (raise seen (r.limit size), r.hi) else none

def overruns (size : α → ℕ) : List (Range α) → List (Range α) → List (ℕ × ℕ)
  | _, [] => []
  | seen, r :: rs => (exposed size seen r).toList ++ overruns size (seen ++ [r]) rs

def Within (iv : ℕ × ℕ) (addr : ℕ) : Prop := iv.1 ≤ addr ∧ addr ≤ iv.2

instance (iv : ℕ × ℕ) (addr : ℕ) : Decidable (Within iv addr) := inferInstanceAs (Decidable (_ ∧ _))

/-- No earlier range cuts into what is exposed of a later one. -/
def Separated (size : α → ℕ) : List (Range α) → List (Range α) → Prop
  | _, [] => True
  | seen, r :: rs =>
    (0 < r.stride ∧ ∀ e ∈ seen, ∀ iv ∈ exposed size seen r, e.hi < iv.1 ∨ iv.2 < e.lo) ∧
      Separated size (seen ++ [r]) rs

instance (size : α → ℕ) : ∀ seen rs, Decidable (Separated size seen rs)
  | _, [] => .isTrue trivial
  | seen, r :: rs =>
    have := instDecidableSeparated size (seen ++ [r]) rs
    inferInstanceAs (Decidable (_ ∧ _))

theorem le_raise (seen : List (Range α)) (a : ℕ) : a ≤ raise seen a := by
  induction seen generalizing a with
  | nil => exact le_rfl
  | cons e seen ih =>
    refine le_trans ?_ (ih _)
    dsimp only
    split
    · rename_i he
      exact Nat.le_succ_of_le he.2
    · exact le_rfl

theorem covered_of_lt_raise {seen : List (Range α)} {a addr : ℕ} (ha : a ≤ addr) (hr : addr < raise seen a) :
    ∃ e ∈ seen, e.Covers addr := by
  induction seen generalizing a with
  | nil => exact absurd hr (not_lt.mpr ha)
  | cons e seen ih =>
    by_cases he : e.Covers addr
    · exact ⟨e, List.mem_cons_self, he⟩
    · have hstep : (if e.Covers a then e.hi + 1 else a) ≤ addr := by
        split
        · rename_i hc
          have h1 := hc.1
          unfold Range.Covers at he
          omega
        · exact ha
      obtain ⟨e', hmem, hcov⟩ := ih hstep hr
      exact ⟨e', List.mem_cons_of_mem _ hmem, hcov⟩

theorem exposed_within {size : α → ℕ} {seen : List (Range α)} {r : Range α} {iv : ℕ × ℕ} {addr : ℕ}
    (hiv : iv ∈ exposed size seen r) (h : Within iv addr) : r.limit size ≤ addr ∧ r.Covers addr := by
  unfold exposed at hiv
  split at hiv
  · cases hiv
    have hle := le_raise seen (r.limit size)
    have hlo : r.lo ≤ r.limit size := Nat.le_add_right _ _
    exact ⟨hle.trans h.1, (hlo.trans hle).trans h.1, h.2⟩
  · cases hiv

theorem within_exposed {size : α → ℕ} {seen : List (Range α)} {r : Range α} {addr : ℕ}
    (hseen : ∀ e ∈ seen, ¬e.Covers addr) (hc : r.Covers addr) (hl : r.limit size ≤ addr) :
    ∃ iv ∈ exposed size seen r, Within iv addr := by
  have hr : raise seen (r.limit size) ≤ addr := by
    by_contra hlt
    obtain ⟨e, he, hcov⟩ := covered_of_lt_raise hl (not_le.mp hlt)
    exact hseen e he hcov
  refine ⟨(raise seen (r.limit size), r.hi), ?_, hr, hc.2⟩
  simp [exposed, hr.trans hc.2]

theorem separated_later {size : α → ℕ} {seen rs : List (Range α)} {e : Range α} (he : e ∈ seen)
    (hs : Separated size seen rs) {iv : ℕ × ℕ} (hiv : iv ∈ overruns size seen rs) :
    e.hi < iv.1 ∨ iv.2 < e.lo := by
  induction rs generalizing seen with
  | nil => cases hiv
  | cons r rs ih =>
    rcases List.mem_append.mp hiv with hiv | hiv
    · exact hs.1.2 e he iv (by simpa using hiv)
    · exact ih (List.mem_append_left _ he) hs.2 hiv

theorem fits_iff_of_seen {size : α → ℕ} {seen rs : List (Range α)} {addr : ℕ}
    (hseen : ∀ e ∈ seen, ¬e.Covers addr) (hs : Separated size seen rs) :
    Fits size rs addr ↔ ∀ iv ∈ overruns size seen rs, ¬Within iv addr := by
  induction rs generalizing seen with
  | nil => simp [Fits, lookup, overruns]
  | cons r rs ih =>
    by_cases hc : r.Covers addr
    · have hl : lookup (r :: rs) addr = some r := by simp [lookup, hc]
      have hfit : Fits size (r :: rs) addr ↔ addr < r.limit size := by
        rw [← Range.index_lt_iff hs.1.1 hc]
        simp [Fits, hl]
      rw [hfit]
      constructor
      · intro hlt iv hiv hw
        rcases List.mem_append.mp hiv with hiv | hiv
        · have := (exposed_within (by simpa using hiv) hw).1
          omega
        · have hmem : r ∈ seen ++ [r] := List.mem_append_right _ List.mem_cons_self
          have hd := separated_later hmem hs.2 hiv
          have := hc.1
          have := hc.2
          have := hw.1
          have := hw.2
          omega
      · intro h
        by_contra hlt
        obtain ⟨iv, hiv, hw⟩ := within_exposed hseen hc (not_lt.mp hlt)
        exact h iv (List.mem_append_left _ (by simpa using hiv)) hw
    · have hl : lookup (r :: rs) addr = lookup rs addr := by simp [lookup, hc]
      have hseen' : ∀ e ∈ seen ++ [r], ¬e.Covers addr := by
        intro e he
        rcases List.mem_append.mp he with he | he
        · exact hseen e he
        · rw [List.mem_singleton.mp he]
          exact hc
      rw [Fits, hl, ← Fits, ih hseen' hs.2, overruns, List.forall_mem_append]
      refine ⟨fun h => ⟨fun iv hiv hw => hc ?_, h⟩, fun h => h.2⟩
      exact (exposed_within (by simpa using hiv) hw).2

theorem fits_iff {size : α → ℕ} {rs : List (Range α)} (hs : Separated size [] rs) (addr : ℕ) :
    Fits size rs addr ↔ ∀ iv ∈ overruns size [] rs, ¬Within iv addr :=
  fits_iff_of_seen (by simp) hs

/-- The addresses from `lo` to `hi` reach the range of this target that begins at `lo`. -/
def Decodes [DecidableEq α] (lo hi stride : ℕ) (t : α) : List (Range α) → Prop
  | [] => False
  | r :: rs =>
    if r.lo = lo ∧ r.target = t then hi ≤ r.hi ∧ (r.stride = stride ∨ hi = lo)
    else (r.hi < lo ∨ hi < r.lo) ∧ Decodes lo hi stride t rs

instance [DecidableEq α] (lo hi stride : ℕ) (t : α) : ∀ rs, Decidable (Decodes lo hi stride t rs)
  | [] => .isFalse not_false
  | r :: rs =>
    have := instDecidableDecodes lo hi stride t rs
    inferInstanceAs (Decidable (if r.lo = lo ∧ r.target = t then _ else _ ∧ Decodes lo hi stride t rs))

theorem Decodes.lookup_eq [DecidableEq α] {lo hi stride addr : ℕ} {t : α} {rs : List (Range α)}
    (h : Decodes lo hi stride t rs) (h1 : lo ≤ addr) (h2 : addr ≤ hi) :
    ∃ r, lookup rs addr = some r ∧ r.target = t ∧ r.index addr = (addr - lo) / stride := by
  induction rs with
  | nil => exact absurd h not_false
  | cons r rs ih =>
    unfold Decodes at h
    split at h
    · rename_i hr
      have hc : r.Covers addr := ⟨hr.1.le.trans h1, h2.trans h.1⟩
      refine ⟨r, by simp [lookup, hc], hr.2, ?_⟩
      rw [Range.index, hr.1]
      rcases h.2 with hs | hs
      · rw [hs]
      · have haddr : addr - lo = 0 := by omega
        rw [haddr, Nat.zero_div, Nat.zero_div]
    · have hc : ¬r.Covers addr := by
        rintro ⟨h3, h4⟩
        rcases h.1 with h | h
        · omega
        · omega
      obtain ⟨r', hl, ht⟩ := ih h.2
      exact ⟨r', by simpa [lookup, hc] using hl, ht⟩

end Vmux.AddressMap
