import Mathlib

/-!
# Sums that change at one point

What is spread over the entries of a table, counted over the whole table, when
one entry is replaced.
-/

namespace AgenticOS.Foundation

variable {ι α M : Type*} [Fintype ι] [DecidableEq ι] [AddCommMonoid M]

theorem sum_add_eq_of_ne {f f' : ι → M} (i : ι) (h : ∀ j, j ≠ i → f' j = f j) :
    ∑ j, f' j + f i = ∑ j, f j + f' i := by
  have hrest : ∑ j ∈ Finset.univ.erase i, f' j = ∑ j ∈ Finset.univ.erase i, f j :=
    Finset.sum_congr rfl fun j hj => h j (Finset.ne_of_mem_erase hj)
  rw [← Finset.add_sum_erase _ f' (Finset.mem_univ i),
    ← Finset.add_sum_erase _ f (Finset.mem_univ i), hrest]
  abel

theorem sum_update_add (F : α → M) (g : ι → α) (i : ι) (x : α) :
    ∑ j, F (Function.update g i x j) + F (g i) = ∑ j, F (g j) + F x := by
  have hkeep (j : ι) (hj : j ≠ i) : F (Function.update g i x j) = F (g j) := by
    rw [Function.update_of_ne hj]
  rw [sum_add_eq_of_ne i hkeep, Function.update_self]

end AgenticOS.Foundation
