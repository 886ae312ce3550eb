import Mathlib.Data.Finset.Card
import Mathlib.Data.List.Nodup
import Mathlib.Tactic.Push

namespace Vmux.DescriptorTable

/-- The lowest number that is free, which is the one that a new descriptor gets. -/
def lowest (used : Finset ℕ) : ℕ :=
  ((List.range (used.card + 1)).find? fun n => decide (n ∉ used)).getD 0

def descriptor (used : Finset ℕ) : ℕ × Finset ℕ := (lowest used, insert (lowest used) used)

/-- Descriptors one after the other, and nothing closed in between. -/
def allocate : ℕ → Finset ℕ → List ℕ × Finset ℕ
  | 0, used => ([], used)
  | n + 1, used =>
    let (fd, used) := descriptor used
    let (fds, used) := allocate n used
    (fd :: fds, used)

variable {used : Finset ℕ}

theorem exists_free (used : Finset ℕ) : ∃ n ∈ List.range (used.card + 1), n ∉ used := by
  by_contra h
  push Not at h
  have hsub : Finset.range (used.card + 1) ⊆ used := by
    intro n hn
    exact h n (List.mem_range.mpr (Finset.mem_range.mp hn))
  have hcard := Finset.card_le_card hsub
  rw [Finset.card_range] at hcard
  omega

theorem lowest_spec : lowest used ∉ used ∧ ∀ n < lowest used, n ∈ used := by
  obtain ⟨n, hn, hfree⟩ := exists_free used
  unfold lowest
  cases hf : (List.range (used.card + 1)).find? fun n => decide (n ∉ used) with
  | none =>
    have := List.find?_eq_none.mp hf n hn
    simp [hfree] at this
  | some m =>
    obtain ⟨hm, -, hlow⟩ := List.find?_range_eq_some.mp hf
    refine ⟨of_decide_eq_true hm, fun j hj => ?_⟩
    simpa using hlow j hj

theorem lowest_notMem : lowest used ∉ used := lowest_spec.1

theorem le_lowest {n : ℕ} (h : Finset.range n ⊆ used) : n ≤ lowest used := by
  by_contra hlt
  exact lowest_notMem (h (Finset.mem_range.mpr (by omega)))

theorem range_succ_subset {n : ℕ} (h : Finset.range n ⊆ used) :
    Finset.range (n + 1) ⊆ insert (lowest used) used := by
  intro m hm
  rw [Finset.mem_range] at hm
  rw [Finset.mem_insert]
  by_cases hl : m < lowest used
  · exact .inr (lowest_spec.2 m hl)
  · have := le_lowest h
    exact .inl (by omega)

theorem allocate_succ (n : ℕ) (used : Finset ℕ) :
    allocate (n + 1) used = (lowest used :: (allocate n (insert (lowest used) used)).1,
      (allocate n (insert (lowest used) used)).2) := rfl

theorem allocate_add (m n : ℕ) (used : Finset ℕ) :
    allocate (m + n) used =
      ((allocate m used).1 ++ (allocate n (allocate m used).2).1, (allocate n (allocate m used).2).2) := by
  induction m generalizing used with
  | zero => rw [Nat.zero_add]; rfl
  | succ m ih => rw [Nat.succ_add, allocate_succ, ih, allocate_succ, List.cons_append]

theorem notMem_of_mem_allocate {n fd : ℕ} {used : Finset ℕ} (h : fd ∈ (allocate n used).1) : fd ∉ used := by
  induction n generalizing used with
  | zero => cases h
  | succ n ih =>
    rcases List.mem_cons.mp h with rfl | h
    · exact lowest_notMem
    · exact fun hu => ih h (Finset.mem_insert_of_mem hu)

theorem allocate_nodup (n : ℕ) (used : Finset ℕ) : (allocate n used).1.Nodup := by
  induction n generalizing used with
  | zero => exact List.nodup_nil
  | succ n ih =>
    refine List.nodup_cons.mpr ⟨fun h => ?_, ih _⟩
    exact notMem_of_mem_allocate h (Finset.mem_insert_self _ _)

theorem le_allocate {m n k fd : ℕ} {used : Finset ℕ} (h : Finset.range m ⊆ used)
    (hk : (allocate n used).1[k]? = some fd) : m + k ≤ fd := by
  induction n generalizing m k used with
  | zero => cases hk
  | succ n ih =>
    cases k with
    | zero =>
      obtain rfl := Option.some.inj hk
      exact le_lowest h
    | succ k =>
      have := ih (range_succ_subset h) hk
      omega

end Vmux.DescriptorTable
