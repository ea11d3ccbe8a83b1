import Mathlib.Algebra.BigOperators.Ring.Finset
import Mathlib.Algebra.Order.BigOperators.Group.Finset
import Mathlib.Data.Fintype.BigOperators

/-!
# Sums over a finite family of which one member changes

The members of a family each contribute a number. When one of them changes, so does the sum by
the difference of the two contributions (`sum_update`).
-/

namespace Tally

open Function Finset

variable {ι β : Type*} [Fintype ι]

theorem sum_update [DecidableEq ι] (f : ι → β) (g : β → ℕ) (t : ι) (x : β) :
    ∑ i, g (update f t x i) + g (f t) = ∑ i, g (f i) + g x := by
  have hothers : ∑ i ∈ univ.erase t, g (update f t x i) =
      ∑ i ∈ univ.erase t, g (f i) :=
    sum_congr rfl fun i hi => by rw [update_of_ne (ne_of_mem_erase hi)]
  rw [← add_sum_erase _ _ (mem_univ t), update_self,
    ← add_sum_erase univ (fun i => g (f i)) (mem_univ t)]
  omega

theorem le_sum (f : ι → ℕ) (t : ι) : f t ≤ ∑ i, f i :=
  single_le_sum (fun _ _ => Nat.zero_le _) (mem_univ t)

theorem sum_toNat_eq_card (f : ι → Bool) :
    ∑ i, (f i).toNat = (univ.filter fun i => f i = true).card := by
  rw [card_filter]
  refine sum_congr rfl fun i _ => ?_
  cases f i <;> rfl

/-- A sum that is 1 has exactly one member that contributes. -/
theorem sum_toNat_eq_one_iff (f : ι → Bool) : ∑ i, (f i).toNat = 1 ↔ ∃! i, f i = true := by
  rw [sum_toNat_eq_card, card_eq_one]
  constructor
  · rintro ⟨t, ht⟩
    have hmem : ∀ i, f i = true ↔ i = t := by
      intro i
      simpa using Finset.ext_iff.mp ht i
    exact ⟨t, (hmem t).mpr rfl, fun i hi => (hmem i).mp hi⟩
  · rintro ⟨t, ht, hunique⟩
    refine ⟨t, eq_singleton_iff_unique_mem.mpr ⟨?_, fun i hi => ?_⟩⟩
    · exact mem_filter.mpr ⟨mem_univ t, ht⟩
    · exact hunique i (mem_filter.mp hi).2

end Tally
