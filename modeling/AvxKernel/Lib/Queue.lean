import Mathlib.Data.List.Basic

/-! A queue of bounded capacity, as those who use it see it. As much of what is
offered goes in as there is room for, as much as is there comes out of what is asked
for, and every run keeps all elements, in their order. Elements and capacity are
arbitrary. -/
namespace AvxKernel

/-- What is seen of one use of a queue: how many elements were offered or asked for,
and the ones that went in or came out. -/
inductive Transfer (α : Type) where
  | put (offered : Nat) (moved : List α)
  | get (asked : Nat) (moved : List α)

namespace Queue

variable {α : Type} {capacity : Nat} {q q' : List α} {use : Transfer α}
  {uses : List (Transfer α)}

/-- One use of a queue that holds `q` leaves it with `q'`. -/
inductive Step (capacity : Nat) : List α → Transfer α → List α → Prop where
  | put {q moved : List α} {offered : Nat} (most : moved.length = min offered (capacity - q.length)) :
      Step capacity q (.put offered moved) (q ++ moved)
  | get {q moved rest : List α} {asked : Nat} (first : q = moved ++ rest)
      (most : moved.length = min asked q.length) : Step capacity q (.get asked moved) rest

inductive Run (capacity : Nat) : List α → List (Transfer α) → List α → Prop where
  | nil {q : List α} : Run capacity q [] q
  | cons {q q' q'' : List α} {use : Transfer α} {uses : List (Transfer α)}
      (first : Step capacity q use q') (rest : Run capacity q' uses q'') :
      Run capacity q (use :: uses) q''

/-- What went in, from the first to the last. -/
def accepted : List (Transfer α) → List α
  | [] => []
  | .put _ moved :: uses => moved ++ accepted uses
  | .get _ _ :: uses => accepted uses

/-- What came out, from the first to the last. -/
def delivered : List (Transfer α) → List α
  | [] => []
  | .put _ _ :: uses => delivered uses
  | .get _ moved :: uses => moved ++ delivered uses

theorem Step.length_le (step : Step capacity q use q') (fits : q.length ≤ capacity) :
    q'.length ≤ capacity := by
  cases step with
  | put most =>
    rw [List.length_append, most]
    omega
  | get first =>
    rw [first, List.length_append] at fits
    exact Nat.le_of_add_left_le fits

theorem Run.length_le (run : Run capacity q uses q') (fits : q.length ≤ capacity) :
    q'.length ≤ capacity := by
  induction run with
  | nil => exact fits
  | cons first _ ih => exact ih (first.length_le fits)

/-- What was there and what went in is what came out and what is there. -/
theorem Run.conserved (run : Run capacity q uses q') :
    q ++ accepted uses = delivered uses ++ q' := by
  induction run with
  | nil => rw [accepted, delivered, List.append_nil, List.nil_append]
  | cons first _ ih =>
    cases first with
    | put most => rwa [accepted, delivered, ← List.append_assoc]
    | get split => rw [accepted, delivered, List.append_assoc, ← ih, ← List.append_assoc, split]

end Queue

end AvxKernel
