import Mathlib.Algebra.Order.BigOperators.Group.Finset
import Mathlib.Algebra.BigOperators.Ring.Finset
import Mathlib.Algebra.Order.Ring.Int

namespace Xv6.Lib

open Function

variable {ι α : Type} [Fintype ι] {P : α → Prop} [DecidablePred P] {f : ι → α}

def count (P : α → Prop) [DecidablePred P] (f : ι → α) : Int :=
  (Finset.univ.filter fun i => P (f i)).card

theorem count_nonneg : 0 ≤ count P f := Int.natCast_nonneg _

theorem count_le_card : count P f ≤ Fintype.card ι := by
  rw [count, ← Finset.card_univ]
  exact_mod_cast Finset.card_filter_le _ _

theorem count_pos (h : P (f i)) : 0 < count P f := by
  rw [count, Int.natCast_pos]
  exact Finset.card_pos.mpr ⟨i, by simpa using h⟩

theorem count_congr (h : ∀ i, P (f i) ↔ P (g i)) : count P f = count P g := by
  simp only [count, h]

theorem sum_update [DecidableEq ι] (w : α → Int) (f : ι → α) (i : ι) (x : α) :
    ∑ j, w (update f i x j) = ∑ j, w (f j) - w (f i) + w x := by
  have hrest : ∑ j ∈ Finset.univ.erase i, w (update f i x j) =
      ∑ j ∈ Finset.univ.erase i, w (f j) := by
    refine Finset.sum_congr rfl fun j hj => ?_
    rw [update_of_ne (Finset.ne_of_mem_erase hj)]
  rw [← Finset.add_sum_erase _ _ (Finset.mem_univ i),
    ← Finset.add_sum_erase _ (fun j => w (f j)) (Finset.mem_univ i), hrest, update_self]
  omega

theorem count_eq_sum : count P f = ∑ i, if P (f i) then 1 else 0 := by
  rw [count, ← Finset.sum_boole]

theorem count_update [DecidableEq ι] (f : ι → α) (i : ι) (x : α) :
    count P (update f i x) =
      count P f - (if P (f i) then 1 else 0) + if P x then 1 else 0 := by
  rw [count_eq_sum, count_eq_sum]
  exact sum_update (fun y => if P y then 1 else 0) f i x

theorem sum_le_count {w : α → Int} {c : Int} (h : ∀ i, w (f i) ≤ if P (f i) then c else 0) :
    ∑ i, w (f i) ≤ c * count P f := by
  rw [count_eq_sum, Finset.mul_sum]
  refine Finset.sum_le_sum fun i _ => ?_
  rw [mul_ite, mul_one, mul_zero]
  exact h i

end Xv6.Lib
