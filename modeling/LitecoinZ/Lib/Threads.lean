import Mathlib.Data.Fintype.BigOperators

/-!
# Totals over threads

What all threads together have of something, when one of them goes into another phase.
-/

namespace Threads

variable {ι β M : Type} [Fintype ι] [DecidableEq ι] [AddCommMonoid M]

def total (f : β → M) (phase : ι → β) : M := ∑ i, f (phase i)

theorem total_eq_add (f : β → M) (phase : ι → β) (i : ι) :
    total f phase = f (phase i) + ∑ j ∈ Finset.univ.erase i, f (phase j) :=
  (Finset.add_sum_erase _ _ (Finset.mem_univ i)).symm

theorem total_update_eq (f : β → M) (phase : ι → β) (i : ι) (x : β) :
    total f (Function.update phase i x) = f x + ∑ j ∈ Finset.univ.erase i, f (phase j) := by
  rw [total_eq_add f _ i, Function.update_self]
  refine congrArg _ (Finset.sum_congr rfl fun j hj => ?_)
  rw [Function.update_of_ne (Finset.ne_of_mem_erase hj)]

theorem total_update (f : β → M) (phase : ι → β) (i : ι) (x : β) :
    total f (Function.update phase i x) + f (phase i) = total f phase + f x := by
  rw [total_update_eq, total_eq_add f phase i, add_right_comm, add_comm (f x), add_right_comm]

end Threads
