import Mathlib.Logic.Relation

/-! Programs of threads that share a state, over any set of operations, and what a
thread may rely on as it goes. A program names its operations and its loops; what an
operation does is left to the machine that runs it. The rules say of each operation
when a thread may do it, which results it can get, and what the thread knows after
it. A program is safe from what a thread knows if it keeps to the rules at every turn,
whatever the results. -/
namespace AvxKernel

/-- A loop goes round with the value on the left, and on with the value on the right. -/
inductive Code (Op : Type) (Res : Op → Type) : Type → Type 1 where
  | ret {α : Type} (a : α) : Code Op Res α
  | op {α : Type} (o : Op) (rest : Res o → Code Op Res α) : Code Op Res α
  | loop {α β γ : Type} (body : β → Code Op Res (β ⊕ γ)) (b : β) (rest : γ → Code Op Res α) :
      Code Op Res α

namespace Code

variable {Op : Type} {Res : Op → Type} {α β γ : Type}

def bind : Code Op Res α → (α → Code Op Res β) → Code Op Res β
  | ret a, f => f a
  | op o rest, f => op o fun r => bind (rest r) f
  | loop body b rest, f => loop body b fun c => bind (rest c) f

instance : Monad (Code Op Res) where
  pure := ret
  bind := bind

def perform (o : Op) : Code Op Res (Res o) := op o ret

def repeatFrom (b : β) (body : β → Code Op Res (β ⊕ γ)) : Code Op Res γ := loop body b ret

/-- The first round of a loop, and what comes after it. -/
def unroll (body : β → Code Op Res (β ⊕ γ)) (b : β) (rest : γ → Code Op Res α) : Code Op Res α :=
  bind (body b) fun
    | .inl next => loop body next rest
    | .inr c => rest c

/-- One program after the other, for each element of the list. -/
def each (body : β → Code Op Res Unit) : List β → Code Op Res Unit
  | [] => ret ()
  | b :: bs => bind (body b) fun _ => each body bs

end Code

/-- What a thread may rely on. A view is what it knows. -/
structure Rules (Op : Type) (Res : Op → Type) (View : Type) where
  /-- The thread may do the operation. -/
  allowed : View → Op → Prop
  /-- The operation can have this result. -/
  possible : View → (o : Op) → Res o → Prop
  /-- The view after the operation. -/
  next : View → (o : Op) → Res o → View

namespace Rules

variable {Op : Type} {Res : Op → Type} {View : Type} (R : Rules Op Res View) {α β γ : Type}

/-- The program keeps to the rules, and ends with a value and a view as `Q` says. Each
round of a loop may rely on what the round before has left. -/
def Safe : {α : Type} → Code Op Res α → View → (α → View → Prop) → Prop
  | _, .ret a, v, Q => Q a v
  | _, .op o rest, v, Q => R.allowed v o ∧ ∀ r, R.possible v o r → Safe (rest r) (R.next v o r) Q
  | _, @Code.loop _ _ _ β _ body b rest, v, Q => ∃ I : β → View → Prop,
      I b v ∧ ∀ b v, I b v → Safe (body b) v fun r w =>
        match r with
        | .inl next => I next w
        | .inr c => Safe (rest c) w Q

variable {R} {x : Code Op Res α} {v : View} {Q Q' : α → View → Prop}

theorem Safe.mono (h : R.Safe x v Q) (post : ∀ a w, Q a w → Q' a w) : R.Safe x v Q' := by
  induction x generalizing v with
  | ret a => exact post a v h
  | op o rest ih => exact ⟨h.1, fun r may => ih r (h.2 r may) post⟩
  | loop body b rest ihBody ihRest =>
    obtain ⟨I, start, round⟩ := h
    refine ⟨I, start, fun b v here => ihBody b (round b v here) ?_⟩
    intro r w after
    cases r with
    | inl next => exact after
    | inr c => exact ihRest c after post

theorem Safe.pure {a : α} (h : Q a v) : R.Safe (Pure.pure a) v Q := h

theorem Safe.bind {f : α → Code Op Res β} {Q : β → View → Prop}
    (h : R.Safe x v fun a w => R.Safe (f a) w Q) : R.Safe (x >>= f) v Q := by
  change R.Safe (Code.bind x f) v Q
  induction x generalizing v with
  | ret a => exact h
  | op o rest ih => exact ⟨h.1, fun r may => ih r (h.2 r may)⟩
  | loop body b rest ihBody ihRest =>
    obtain ⟨I, start, round⟩ := h
    refine ⟨I, start, fun b v here => (round b v here).mono ?_⟩
    intro r w after
    cases r with
    | inl next => exact after
    | inr c => exact ihRest c after

/-- What the first part ends with is enough for the rest. -/
theorem Safe.bind_of {f : α → Code Op Res β} {P : α → View → Prop} {Q : β → View → Prop}
    (first : R.Safe x v P) (rest : ∀ a w, P a w → R.Safe (f a) w Q) : R.Safe (x >>= f) v Q :=
  Safe.bind (first.mono rest)

theorem Safe.perform_bind {o : Op} {f : Res o → Code Op Res β} {Q : β → View → Prop}
    (may : R.allowed v o) (rest : ∀ r, R.possible v o r → R.Safe (f r) (R.next v o r) Q) :
    R.Safe (Code.perform o >>= f) v Q :=
  ⟨may, rest⟩

theorem Safe.perform {o : Op} {Q : Res o → View → Prop} (may : R.allowed v o)
    (rest : ∀ r, R.possible v o r → Q r (R.next v o r)) : R.Safe (Code.perform o) v Q :=
  ⟨may, rest⟩

theorem Safe.ite {c : Prop} [Decidable c] {y : Code Op Res α} (yes : c → R.Safe x v Q)
    (no : ¬c → R.Safe y v Q) : R.Safe (if c then x else y) v Q := by
  split
  · exact yes ‹c›
  · exact no ‹¬c›

/-- A conditional step before the rest. -/
theorem Safe.join {c : Prop} [Decidable c] {x : Code Op Res Unit} {f : Unit → Code Op Res β}
    {Q : β → View → Prop} (P : View → Prop) (yes : c → R.Safe x v fun _ w => P w) (no : ¬c → P v)
    (rest : ∀ w, P w → R.Safe (f ()) w Q) : R.Safe (if c then x >>= f else f ()) v Q := by
  split
  · exact Safe.bind_of (yes ‹c›) fun _ w here => rest w here
  · exact rest v (no ‹¬c›)

/-- A loop with its invariant. -/
theorem Safe.repeatFrom {b : β} {body : β → Code Op Res (β ⊕ γ)} {Q : γ → View → Prop}
    (I : β → View → Prop) (start : I b v)
    (round : ∀ b v, I b v → R.Safe (body b) v fun r w =>
      match r with
      | .inl next => I next w
      | .inr c => Q c w) : R.Safe (Code.repeatFrom b body) v Q :=
  ⟨I, start, round⟩

theorem Safe.each {body : β → Code Op Res Unit} {I : View → Prop} {bs : List β} (start : I v)
    (round : ∀ b ∈ bs, ∀ v, I v → R.Safe (body b) v fun _ w => I w) :
    R.Safe (Code.each body bs) v fun _ w => I w := by
  induction bs generalizing v with
  | nil => exact start
  | cons b bs ih =>
    refine Safe.bind_of (round b List.mem_cons_self v start) fun _ w here => ?_
    exact ih here fun c member => round c (List.mem_cons_of_mem b member)

/-- A loop is as safe after its first round. -/
theorem Safe.unroll {body : β → Code Op Res (β ⊕ γ)} {b : β} {rest : γ → Code Op Res α}
    (h : R.Safe (.loop body b rest) v Q) : R.Safe (Code.unroll body b rest) v Q := by
  obtain ⟨I, start, round⟩ := h
  refine Safe.bind_of (round b v start) fun r w after => ?_
  cases r with
  | inl next => exact ⟨I, after, round⟩
  | inr c => exact after

end Rules

end AvxKernel
