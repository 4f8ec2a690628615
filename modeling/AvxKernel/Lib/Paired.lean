import AvxKernel.Lib.Machine

/-! Two calls from related states that stop alike: both with related values and in
related states, or both in the same way without returning. -/
namespace AvxKernel

namespace Machine

variable {σ τ α α' β β' : Type} {R : σ → τ → Prop} {Q : α → α' → Prop} {P : β → β' → Prop}

/-- How two calls have ended. -/
def Same (R : σ → τ → Prop) (Q : α → α' → Prop) : Except Halt (α × σ) → Except Halt (α' × τ) → Prop
  | .ok (a, s), .ok (a', s') => Q a a' ∧ R s s'
  | .error h, .error h' => h = h'
  | _, _ => False

/-- From related states the calls end alike. -/
def Paired (R : σ → τ → Prop) (Q : α → α' → Prop) (x : Machine σ α) (y : Machine τ α') : Prop :=
  ∀ s s', R s s' → Same R Q (x s) (y s')

theorem Same.value {x : Except Halt (α × σ)} {y : Except Halt (α × τ)} (h : Same R Eq x y) :
    x.map Prod.fst = y.map Prod.fst := by
  rcases x with e | ⟨a, s⟩ <;> rcases y with e' | ⟨a', s'⟩
  · exact congrArg Except.error h
  · exact h.elim
  · exact h.elim
  · exact congrArg Except.ok h.1

theorem Same.bind {x : Machine σ α} {y : Machine τ α'} {f : α → Machine σ β} {g : α' → Machine τ β'}
    {R' : σ → τ → Prop} {s : σ} {s' : τ} (first : Same R Q (x s) (y s'))
    (rest : ∀ a a' t t', Q a a' → R t t' → Same R' P (f a t) (g a' t')) :
    Same R' P ((x >>= f) s) ((y >>= g) s') := by
  cases hx : x s with
  | error e =>
    cases hy : y s' with
    | error e' =>
      rw [hx, hy] at first
      rw [bind_of_error hx, bind_of_error hy]
      exact first
    | ok r =>
      rw [hx, hy] at first
      exact first.elim
  | ok r =>
    cases hy : y s' with
    | error e' =>
      rw [hx, hy] at first
      exact first.elim
    | ok r' =>
      obtain ⟨a, t⟩ := r
      obtain ⟨a', t'⟩ := r'
      rw [hx, hy] at first
      rw [bind_of_ok hx, bind_of_ok hy]
      exact rest a a' t t' first.1 first.2

theorem Same.ite {c c' : Prop} [Decidable c] [Decidable c'] {x₁ x₂ : Machine σ α} {y₁ y₂ : Machine τ α'}
    {s : σ} {s' : τ} (same : c ↔ c') (yes : c → Same R Q (x₁ s) (y₁ s')) (no : ¬c → Same R Q (x₂ s) (y₂ s')) :
    Same R Q ((if c then x₁ else x₂) s) ((if c' then y₁ else y₂) s') := by
  by_cases h : c
  · rw [if_pos h, if_pos (same.mp h)]
    exact yes h
  · rw [if_neg h, if_neg (mt same.mpr h)]
    exact no h

/-- What one of two calls that end alike has returned, the other has. -/
theorem Same.ok {x : Except Halt (α × σ)} {y : Except Halt (α' × τ)} {a : α} {s : σ} (h : Same R Q x y)
    (run : x = .ok (a, s)) : ∃ a' s', y = .ok (a', s') ∧ Q a a' ∧ R s s' := by
  subst run
  cases y with
  | error e => exact h.elim
  | ok r => exact ⟨r.1, r.2, rfl, h.1, h.2⟩

namespace Paired

theorem pure {a : α} {a' : α'} (h : Q a a') :
    Paired R Q (pure a : Machine σ α) (pure a' : Machine τ α') := fun _ _ hs => ⟨h, hs⟩

theorem halt (h : Halt) : Paired R Q (halt h : Machine σ α) (halt h : Machine τ α') :=
  fun _ _ _ => rfl

theorem panic (m : String) : Paired R Q (panic m : Machine σ α) (panic m : Machine τ α') :=
  halt _

theorem bind {x : Machine σ α} {y : Machine τ α'} {f : α → Machine σ β} {g : α' → Machine τ β'}
    (first : Paired R Q x y) (rest : ∀ a a', Q a a' → Paired R P (f a) (g a')) :
    Paired R P (x >>= f) (y >>= g) := fun s s' hs =>
  Same.bind (first s s' hs) fun a a' t t' value => rest a a' value t t'

theorem ite {c c' : Prop} [Decidable c] [Decidable c'] {x₁ x₂ : Machine σ α} {y₁ y₂ : Machine τ α'}
    (same : c ↔ c') (yes : c → Paired R Q x₁ y₁) (no : ¬c → Paired R Q x₂ y₂) :
    Paired R Q (if c then x₁ else x₂) (if c' then y₁ else y₂) := fun s s' hs =>
  Same.ite same (fun h => yes h s s' hs) fun h => no h s s' hs

/-- What is read may differ as the states do. -/
theorem get_bind {f : σ → Machine σ α} {g : τ → Machine τ α'}
    (h : ∀ s s', R s s' → Same R Q (f s s) (g s' s')) :
    Paired R Q (MonadState.get >>= f) (MonadState.get >>= g) := by
  intro s s' hs
  rw [bind_of_ok (get_run s), bind_of_ok (get_run s')]
  exact h s s' hs

theorem modify {f : σ → σ} {g : τ → τ} (h : ∀ s s', R s s' → R (f s) (g s')) :
    Paired R Eq (modify f : Machine σ PUnit) (modify g : Machine τ PUnit) :=
  fun s s' hs => ⟨rfl, h s s' hs⟩

theorem forM {f : β → Machine σ PUnit} {g : β → Machine τ PUnit} {l : List β}
    (h : ∀ b ∈ l, Paired R Eq (f b) (g b)) : Paired R Eq (l.forM f) (l.forM g) := by
  induction l with
  | nil => exact pure rfl
  | cons b l ih =>
    exact bind (h b List.mem_cons_self) fun _ _ _ => ih fun b' mem => h b' (List.mem_cons_of_mem _ mem)

end Paired

end Machine

end AvxKernel
