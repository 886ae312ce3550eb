import Mathlib.Data.List.Nodup
import Mathlib.Tactic

namespace Vmux.Ownership

variable {ρ τ : Type*} {busy : τ → Prop} {st st' : ρ → τ} {cl cl' old new rest : List (ρ × τ)}

/-- Every resource in a busy state is claimed exactly once, with that state, and no other is. -/
structure Owned (busy : τ → Prop) (cl : List (ρ × τ)) (st : ρ → τ) : Prop where
  nodup : (cl.map Prod.fst).Nodup
  mem_iff : ∀ p s, (p, s) ∈ cl ↔ st p = s ∧ busy s

namespace Owned

theorem perm (h : Owned busy cl st) (hp : cl.Perm cl') : Owned busy cl' st :=
  ⟨(hp.map _).nodup_iff.mp h.nodup, fun p s => by rw [← hp.mem_iff, h.mem_iff]⟩

theorem state_eq (h : Owned busy cl st) {p : ρ} {s : τ} (hm : (p, s) ∈ cl) : st p = s :=
  ((h.mem_iff p s).mp hm).1

theorem disjoint (h : Owned busy (old ++ rest) st) {p : ρ} {s t : τ} (ho : (p, s) ∈ old)
    (hr : (p, t) ∈ rest) : False := by
  have hn := h.nodup
  rw [List.map_append, List.nodup_append] at hn
  exact hn.2.2 p (List.mem_map_of_mem ho) p (List.mem_map_of_mem hr) rfl

/-- Change the states of the resources in `D`, exchanging the claims `old` on them for `new`. -/
theorem replace (old new : List (ρ × τ)) (D : ρ → Prop) (h : Owned busy (old ++ rest) st) (hout : ∀ p, ¬D p → st' p = st p)
    (hold : ∀ p s, (p, s) ∈ old → D p) (hin : ∀ p, D p → busy (st p) → (p, st p) ∈ old)
    (hnd : (new.map Prod.fst).Nodup) (hnew : ∀ p s, (p, s) ∈ new ↔ D p ∧ st' p = s ∧ busy s) :
    Owned busy (new ++ rest) st' := by
  have hrest : ∀ p s, (p, s) ∈ rest → ¬D p := by
    intro p s hm hD
    obtain ⟨hs, hb⟩ := (h.mem_iff p s).mp (List.mem_append_right _ hm)
    exact h.disjoint (hin p hD (hs ▸ hb)) hm
  constructor
  · have hn := h.nodup
    rw [List.map_append, List.nodup_append] at hn ⊢
    refine ⟨hnd, hn.2.1, ?_⟩
    rintro p hp q hq rfl
    obtain ⟨⟨p', s⟩, hps, rfl⟩ := List.mem_map.mp hp
    obtain ⟨⟨q', t⟩, hqt, he⟩ := List.mem_map.mp hq
    obtain rfl : q' = p' := he
    exact hrest _ t hqt ((hnew _ s).mp hps).1
  · intro p s
    rw [List.mem_append, hnew]
    by_cases hD : D p
    · constructor
      · rintro (hm | hm)
        · exact hm.2
        · exact absurd hD (hrest p s hm)
      · intro hm
        exact .inl ⟨hD, hm⟩
    · have hm := h.mem_iff p s
      rw [List.mem_append] at hm
      rw [hout p hD, ← hm]
      constructor
      · rintro (hn | hn)
        · exact absurd hn.1 hD
        · exact .inr hn
      · rintro (hn | hn)
        · exact absurd (hold p s hn) hD
        · exact .inr hn

variable [DecidableEq ρ]

/-- The claim on `p` passes from state `s` to state `t`. -/
theorem change {p : ρ} {s t : τ} (h : Owned busy ((p, s) :: cl) st) (ht : busy t) :
    Owned busy ((p, t) :: cl) (Function.update st p t) := by
  refine replace [(p, s)] [(p, t)] (· = p) h ?_ ?_ ?_ ?_ ?_
  · intro q hq
    exact Function.update_of_ne hq _ _
  · simp
  · rintro q rfl -
    simp [h.state_eq List.mem_cons_self]
  · simp
  · intro q u
    simp only [List.mem_singleton, Prod.mk.injEq]
    constructor
    · rintro ⟨rfl, rfl⟩
      simp [ht]
    · rintro ⟨rfl, hu, -⟩
      simpa using hu.symm

theorem drop {p : ρ} {s t : τ} (h : Owned busy ((p, s) :: cl) st) (ht : ¬busy t) :
    Owned busy cl (Function.update st p t) := by
  refine replace [(p, s)] [] (· = p) h ?_ ?_ ?_ ?_ ?_
  · intro q hq
    exact Function.update_of_ne hq _ _
  · simp
  · rintro q rfl -
    simp [h.state_eq List.mem_cons_self]
  · simp
  · rintro q u
    simp only [List.not_mem_nil, false_iff, not_and]
    rintro rfl hu hb
    rw [Function.update_self] at hu
    exact ht (hu ▸ hb)

theorem add {p : ρ} {t : τ} (h : Owned busy cl st) (hp : ¬busy (st p)) (ht : busy t) :
    Owned busy ((p, t) :: cl) (Function.update st p t) := by
  refine replace [] [(p, t)] (· = p) h ?_ ?_ ?_ ?_ ?_
  · intro q hq
    exact Function.update_of_ne hq _ _
  · simp
  · rintro q rfl hb
    exact absurd hb hp
  · simp
  · intro q u
    simp only [List.mem_singleton, Prod.mk.injEq]
    constructor
    · rintro ⟨rfl, rfl⟩
      simp [ht]
    · rintro ⟨rfl, hu, -⟩
      simpa using hu.symm

end Owned

end Vmux.Ownership
