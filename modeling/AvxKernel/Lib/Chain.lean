import Mathlib.Data.List.Basic
import Mathlib.Data.List.Nodup
import Mathlib.Logic.Relation

/-! Chains in a table of successors. `next` gives the successor of an element,
or none where a chain ends. A chain is determined by its first element, and so
never passes through an element twice. -/
namespace AvxKernel

variable {α : Type} {next next' : α → Option α}

/-- The elements from the first to the one without a successor. -/
def Chain (next : α → Option α) : List α → Prop
  | [] => False
  | [a] => next a = none
  | a :: b :: rest => next a = some b ∧ Chain next (b :: rest)

theorem Chain.ne_nil {l : List α} (h : Chain next l) : l ≠ [] := by
  rintro rfl
  exact h

theorem Chain.tail {a b : α} {rest : List α} (h : Chain next (a :: b :: rest)) :
    Chain next (b :: rest) := h.2

theorem Chain.next_getElem {l : List α} (h : Chain next l) {i : Nat} (hi : i + 1 < l.length) :
    next l[i] = some l[i + 1] := by
  induction l generalizing i with
  | nil => exact absurd rfl h.ne_nil
  | cons a l ih =>
    cases l with
    | nil => simp at hi
    | cons b rest =>
      cases i with
      | zero => exact h.1
      | succ i => exact ih h.tail (by simpa using hi)

theorem Chain.next_last {l : List α} (h : Chain next l) {i : Nat} (hi : i + 1 = l.length) :
    next l[i] = none := by
  induction l generalizing i with
  | nil => exact absurd rfl h.ne_nil
  | cons a l ih =>
    cases l with
    | nil =>
      simp at hi
      subst hi
      exact h
    | cons b rest =>
      cases i with
      | zero => simp at hi
      | succ i => exact ih h.tail (by simpa using hi)

theorem Chain.congr {l : List α} (h : Chain next l) (same : ∀ a ∈ l, next' a = next a) :
    Chain next' l := by
  induction l with
  | nil => exact h
  | cons a l ih =>
    cases l with
    | nil => exact (same a (by simp)).trans h
    | cons b rest =>
      exact ⟨(same a (by simp)).trans h.1, ih h.2 fun c hc => same c (List.mem_cons_of_mem _ hc)⟩

/-- Two chains from the same element are the same chain. -/
theorem Chain.unique {a : α} {l l' : List α} (h : Chain next (a :: l)) (h' : Chain next (a :: l')) :
    l = l' := by
  induction l generalizing a l' with
  | nil =>
    cases l' with
    | nil => rfl
    | cons b rest => exact absurd (h.symm.trans h'.1) (by simp)
  | cons b rest ih =>
    cases l' with
    | nil => exact absurd (h'.symm.trans h.1) (by simp)
    | cons c rest' =>
      have same : b = c := Option.some.inj (h.1.symm.trans h'.1)
      subst same
      rw [ih h.2 h'.2]

theorem Chain.of_append {a : α} {l₁ l₂ : List α} (h : Chain next (l₁ ++ a :: l₂)) :
    Chain next (a :: l₂) := by
  induction l₁ with
  | nil => exact h
  | cons b l₁ ih =>
    cases l₁ with
    | nil => exact h.2
    | cons c l₁ => exact ih h.2

theorem Chain.nodup {l : List α} (h : Chain next l) : l.Nodup := by
  induction l with
  | nil => exact List.nodup_nil
  | cons a l ih =>
    have rest : l.Nodup := by
      cases l with
      | nil => exact List.nodup_nil
      | cons b rest => exact ih h.2
    refine List.nodup_cons.mpr ⟨fun again => ?_, rest⟩
    -- a second visit would start a chain as long as the whole one
    obtain ⟨l₁, l₂, rfl⟩ := List.append_of_mem again
    have again : Chain next (a :: l₂) := Chain.of_append (show Chain next ((a :: l₁) ++ a :: l₂) from h)
    have shorter := congrArg List.length (h.unique again)
    simp at shorter
    omega

/-- What is reached from an element without passing through it again. -/
theorem reach_cut {r : α → α → Prop} {a c : α} : Relation.ReflTransGen r a c ↔
    c = a ∨ ∃ b, r a b ∧ Relation.ReflTransGen (fun x y => x ≠ a ∧ r x y) b c := by
  constructor
  · intro reach
    induction reach with
    | refl => exact .inl rfl
    | @tail x y _ last ih =>
      by_cases again : x = a
      · subst again
        exact .inr ⟨y, last, .refl⟩
      · rcases ih with first | ⟨b, step, path⟩
        · exact absurd first again
        · exact .inr ⟨b, step, path.tail ⟨again, last⟩⟩
  · rintro (rfl | ⟨b, step, path⟩)
    · exact .refl
    · have kept : (fun x y => x ≠ a ∧ r x y) ≤ r := fun _ _ edge => edge.2
      exact .head step (Relation.ReflTransGen.mono kept _ _ path)

end AvxKernel
