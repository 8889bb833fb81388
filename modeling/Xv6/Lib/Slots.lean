import Mathlib

/-!
# Slots that hold addresses

A table has slots, each with an address in it or empty (0).  `values f` is the set of the addresses
in the slots of `f`, and `Distinct f` says that no address is in two slots.  The lemmas say how both
change when one slot is filled, cleared or replaced.
-/

namespace Slots

variable {ι : Type} {f : ι → ℕ} {i j : ι} {p : ℕ}

/-- The addresses in the slots. -/
def values (f : ι → ℕ) : Set ℕ := {p | p ≠ 0 ∧ ∃ i, f i = p}

/-- No address is in two slots. -/
def Distinct (f : ι → ℕ) : Prop := ∀ i j, f i = f j → f i ≠ 0 → i = j

theorem mem_values (h : f i ≠ 0) : f i ∈ values f := ⟨h, i, rfl⟩

theorem zero_notMem_values : 0 ∉ values f := fun h => h.1 rfl

theorem values_of_forall_zero (h : ∀ i, f i = 0) : values f = ∅ := by
  ext p
  constructor
  · rintro ⟨hp, i, rfl⟩
    exact absurd (h i) hp
  · exact fun hp => absurd hp (Set.notMem_empty p)

theorem distinct_of_forall_zero (h : ∀ i, f i = 0) : Distinct f :=
  fun i _ _ hne => absurd (h i) hne

variable [DecidableEq ι]

theorem values_replace (hdist : Distinct f) (hp : p ≠ 0) (hnot : p ∉ values f) :
    values (Function.update f i p) = insert p (values f) \ {f i} := by
  ext q
  constructor
  · rintro ⟨hq, j, rfl⟩
    by_cases hj : j = i
    · subst hj
      rw [Function.update_self] at hq ⊢
      refine ⟨Set.mem_insert p _, fun heq => ?_⟩
      have heq : p = f j := heq
      exact hnot (heq ▸ mem_values (heq ▸ hp))
    · rw [Function.update_of_ne hj] at hq ⊢
      exact ⟨Or.inr (mem_values hq), fun heq => hj (hdist j i heq hq)⟩
  · rintro ⟨rfl | ⟨hq, j, rfl⟩, hne⟩
    · exact ⟨hp, i, Function.update_self ..⟩
    · refine ⟨hq, j, Function.update_of_ne ?_ ..⟩
      rintro rfl
      exact hne rfl

theorem values_fill (hdist : Distinct f) (hi : f i = 0) (hp : p ≠ 0) (hnot : p ∉ values f) :
    values (Function.update f i p) = insert p (values f) := by
  rw [values_replace hdist hp hnot, hi]
  refine Set.sdiff_singleton_eq_self ?_
  rintro (h | h)
  · exact hp h.symm
  · exact zero_notMem_values h

theorem values_subset_update (hi : f i = 0) : values f ⊆ values (Function.update f i p) := by
  rintro q ⟨hq, j, rfl⟩
  refine ⟨hq, j, Function.update_of_ne ?_ ..⟩
  rintro rfl
  exact hq hi

theorem values_clear (hdist : Distinct f) (i : ι) :
    values (Function.update f i 0) = values f \ {f i} := by
  ext q
  constructor
  · rintro ⟨hq, j, rfl⟩
    have hj : j ≠ i := by
      rintro rfl
      exact hq (Function.update_self ..)
    rw [Function.update_of_ne hj] at hq ⊢
    exact ⟨mem_values hq, fun heq => hj (hdist j i heq hq)⟩
  · rintro ⟨⟨hq, j, rfl⟩, hne⟩
    refine ⟨hq, j, Function.update_of_ne ?_ ..⟩
    rintro rfl
    exact hne rfl

theorem Distinct.update (hdist : Distinct f) (hnot : p ∉ values f) (i : ι) :
    Distinct (Function.update f i p) := by
  intro j j' heq hne
  by_cases hj : j = i <;> by_cases hj' : j' = i
  · rw [hj, hj']
  · subst hj
    rw [Function.update_self, Function.update_of_ne hj'] at heq
    rw [Function.update_self] at hne
    exact absurd (heq ▸ mem_values (heq ▸ hne)) hnot
  · subst hj'
    rw [Function.update_self, Function.update_of_ne hj] at heq
    rw [Function.update_of_ne hj] at hne
    exact absurd (heq ▸ mem_values hne) hnot
  · rw [Function.update_of_ne hj, Function.update_of_ne hj'] at heq
    rw [Function.update_of_ne hj] at hne
    exact hdist j j' heq hne

end Slots
