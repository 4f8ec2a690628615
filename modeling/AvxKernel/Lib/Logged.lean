import Mathlib.Control.Monad.Writer

/-! Programs that say what they do as they go: a value, and the events on the way
to it. What holds of every event is read off the program, step by step. -/
namespace AvxKernel

abbrev Logged (ε : Type) := Writer (List ε)

namespace Logged

variable {ε α β : Type} {P : ε → Prop}

def value (x : Logged ε α) : α := (WriterT.run x).1

def events (x : Logged ε α) : List ε := (WriterT.run x).2

def emit (e : ε) : Logged ε Unit := tell [e]

@[simp] theorem value_pure (a : α) : value (pure a : Logged ε α) = a := rfl

@[simp] theorem value_bind (x : Logged ε α) (f : α → Logged ε β) :
    value (x >>= f) = value (f (value x)) := rfl

@[simp] theorem events_pure (a : α) : events (pure a : Logged ε α) = [] := rfl

@[simp] theorem events_bind (x : Logged ε α) (f : α → Logged ε β) :
    events (x >>= f) = events x ++ events (f (value x)) := rfl

@[simp] theorem events_emit (e : ε) : events (emit e) = [e] := rfl

/-- Every event is of a kind. -/
def Always (P : ε → Prop) (x : Logged ε α) : Prop := ∀ e ∈ events x, P e

theorem always_pure (a : α) : Always P (pure a : Logged ε α) := by
  intro e he
  cases he

theorem always_emit {e : ε} : Always P (emit e) ↔ P e := by
  rw [Always, events_emit]
  exact List.forall_mem_singleton

theorem always_bind {x : Logged ε α} {f : α → Logged ε β} :
    Always P (x >>= f) ↔ Always P x ∧ Always P (f (value x)) := by
  rw [Always, events_bind]
  exact List.forall_mem_append

theorem Always.bind {x : Logged ε α} {f : α → Logged ε β} (first : Always P x)
    (rest : ∀ a, Always P (f a)) : Always P (x >>= f) :=
  always_bind.mpr ⟨first, rest _⟩

end Logged

end AvxKernel
