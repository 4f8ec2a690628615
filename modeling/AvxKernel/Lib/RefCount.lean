import Mathlib.Algebra.BigOperators.Group.Finset.Basic
import Mathlib.Algebra.BigOperators.Group.Finset.Piecewise

/-! Counting references. Finitely many places hold a reference each, or none; the
places and what they refer to are arbitrary. -/
namespace AvxKernel

variable {ι α : Type} [DecidableEq α] {places : Finset ι} {slots : ι → Option α}
  {i : ι} {a : α}

/-- The number of places that refer to `a`. -/
def refs (places : Finset ι) (slots : ι → Option α) (a : α) : Nat :=
  (places.filter fun i => slots i = some a).card

theorem refs_eq_sum :
    refs places slots a = ∑ i ∈ places, if slots i = some a then 1 else 0 :=
  Finset.card_filter _ _

/-- What a place held before it counts no more, what it holds now does. -/
theorem refs_update [DecidableEq ι] (slots : ι → Option α) (hi : i ∈ places) (v : Option α) (a : α) :
    refs places (Function.update slots i v) a + (if slots i = some a then 1 else 0) =
      refs places slots a + (if v = some a then 1 else 0) := by
  have others : ∀ w : Option α, refs places (Function.update slots i w) a =
      (if w = some a then 1 else 0) +
        ∑ j ∈ places.erase i, if slots j = some a then 1 else 0 := by
    intro w
    rw [refs_eq_sum, ← Finset.add_sum_erase _ _ hi, Function.update_self]
    congr 1
    refine Finset.sum_congr rfl fun j hj => ?_
    rw [Function.update_of_ne (Finset.ne_of_mem_erase hj)]
  have before := others (slots i)
  rw [Function.update_eq_self] at before
  rw [others v, before]
  omega

theorem refs_eq_zero : refs places slots a = 0 ↔ ∀ i ∈ places, slots i ≠ some a := by
  rw [refs, Finset.card_eq_zero, Finset.filter_eq_empty_iff]

theorem refs_pos (hi : i ∈ places) (points : slots i = some a) : 0 < refs places slots a :=
  Nat.pos_of_ne_zero fun zero => refs_eq_zero.mp zero i hi points

end AvxKernel
