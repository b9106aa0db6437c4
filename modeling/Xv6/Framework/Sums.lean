import Mathlib.Algebra.BigOperators.Group.Finset.Basic

/-!
# Sums over a table

How the sum of a measure over a table changes when one entry is replaced.
-/

namespace Xv6

open Function

variable {ι L M : Type} [DecidableEq ι] [AddCommMonoid M]

theorem sum_update {t : Finset ι} {i : ι} (hi : i ∈ t) (g : ι → L) (l : L) (f : L → M) :
    ∑ j ∈ t, f (update g i l j) + f (g i) = ∑ j ∈ t, f (g j) + f l := by
  have hrest : ∑ j ∈ t.erase i, f (update g i l j) = ∑ j ∈ t.erase i, f (g j) :=
    Finset.sum_congr rfl fun j hj => by rw [update_of_ne (Finset.ne_of_mem_erase hj)]
  rw [← Finset.add_sum_erase t (fun j => f (update g i l j)) hi,
    ← Finset.add_sum_erase t (fun j => f (g j)) hi, hrest, update_self, add_right_comm, add_comm (f l), add_right_comm]

/-- Replacing an entry by one of the same measure. -/
theorem sum_update_eq {t : Finset ι} {i : ι} (g : ι → L) {l : L} (f : L → M) (h : f l = f (g i)) :
    ∑ j ∈ t, f (update g i l j) = ∑ j ∈ t, f (g j) :=
  Finset.sum_congr rfl fun j _ => by
    by_cases e : j = i
    · rw [e, update_self, h]
    · rw [update_of_ne e]

end Xv6
