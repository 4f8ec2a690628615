import Mathlib.Logic.Relation

/-! Kernel calls as state transformers that can stop short of returning. The
state is arbitrary; nothing here knows what a call does. A call either returns
a value and a new state, or halts for good. The rules below peel a successful
call apart (`bind_ok`) and carry a reflexive, transitive relation between the
states before and after through any composition of calls (`Frame`). -/
namespace AvxKernel

/-- The ways a call ends without returning to its caller. -/
inductive Halt where
  | panic (message : String)
  /-- A load or store through an address the kernel does not map. -/
  | fault
  /-- The calling process has exited. -/
  | exit (status : Int)
  /-- A loop of the source that does not end. -/
  | diverge
  /-- The caller sleeps, and nothing wakes it. -/
  | asleep
deriving DecidableEq, Repr

abbrev Machine (σ α : Type) := StateT σ (Except Halt) α

namespace Machine

variable {σ τ α β : Type}

def halt (h : Halt) : Machine σ α := fun _ => .error h

def panic (message : String) : Machine σ α := halt (.panic message)

/-- A computation without state. -/
def lift (x : Except Halt α) : Machine σ α := fun s =>
  match x with
  | .ok a => .ok (a, s)
  | .error h => .error h

theorem bind_ok {x : Machine σ α} {f : α → Machine σ β} {s t : σ} {b : β} :
    (x >>= f) s = .ok (b, t) ↔ ∃ a u, x s = .ok (a, u) ∧ f a u = .ok (b, t) := by
  simp only [bind, StateT.bind]
  cases h : x s with
  | error e => simp [Except.bind]
  | ok p =>
    obtain ⟨a, u⟩ := p
    simp only [Except.bind, Except.ok.injEq, Prod.mk.injEq]
    constructor
    · exact fun hf => ⟨a, u, ⟨rfl, rfl⟩, hf⟩
    · rintro ⟨a', u', ⟨rfl, rfl⟩, hf⟩
      exact hf

theorem bind_of_ok {x : Machine σ α} {f : α → Machine σ β} {s u : σ} {a : α}
    (h : x s = .ok (a, u)) : (x >>= f) s = f a u := by
  simp only [bind, StateT.bind, h, Except.bind]

theorem bind_congr_run {x y : Machine σ α} {f : α → Machine σ β} {s : σ} (h : x s = y s) :
    (x >>= f) s = (y >>= f) s := by
  simp only [bind, StateT.bind, h]

theorem bind_of_error {x : Machine σ α} {f : α → Machine σ β} {s : σ} {e : Halt}
    (h : x s = .error e) : (x >>= f) s = .error e := by
  simp only [bind, StateT.bind, h, Except.bind]

@[simp] theorem pure_run (a : α) (s : σ) : (pure a : Machine σ α) s = .ok (a, s) := rfl

@[simp] theorem get_run (s : σ) : (get : Machine σ σ) s = .ok (s, s) := rfl

@[simp] theorem set_run (s t : σ) : (set t : Machine σ PUnit) s = .ok (⟨⟩, t) := rfl

@[simp] theorem modify_run (f : σ → σ) (s : σ) :
    (modify f : Machine σ PUnit) s = .ok (⟨⟩, f s) := rfl

@[simp] theorem modifyGet_run (f : σ → α × σ) (s : σ) :
    (modifyGet f : Machine σ α) s = .ok (f s) := rfl

@[simp] theorem halt_run (h : Halt) (s : σ) : (halt h : Machine σ α) s = .error h := rfl

@[simp] theorem panic_run (m : String) (s : σ) :
    (panic m : Machine σ α) s = .error (.panic m) := rfl

theorem lift_run {x : Except Halt α} {a : α} (h : x = .ok a) (s : σ) :
    (lift x : Machine σ α) s = .ok (a, s) := by
  rw [h]
  rfl

theorem lift_ok {x : Except Halt α} {s t : σ} {a : α}
    (run : (lift x : Machine σ α) s = .ok (a, t)) : x = .ok a := by
  cases x with
  | error e => cases run
  | ok b =>
    cases run
    rfl

theorem ite_run (c : Prop) [Decidable c] (x y : Machine σ α) (s : σ) :
    (if c then x else y) s = if c then x s else y s := by
  split <;> rfl

/-- Run a call on one component of a larger state. -/
def zoom (get : τ → σ) (put : σ → τ → τ) (x : Machine σ α) : Machine τ α := fun t =>
  match x (get t) with
  | .ok (a, s) => .ok (a, put s t)
  | .error e => .error e

theorem zoom_ok {get : τ → σ} {put : σ → τ → τ} {x : Machine σ α} {t t' : τ} {a : α} :
    zoom get put x t = .ok (a, t') ↔ ∃ s, x (get t) = .ok (a, s) ∧ t' = put s t := by
  unfold zoom
  cases h : x (get t) with
  | error e => simp
  | ok p =>
    obtain ⟨b, s⟩ := p
    simp only [Except.ok.injEq, Prod.mk.injEq]
    constructor
    · rintro ⟨rfl, rfl⟩
      exact ⟨s, ⟨rfl, rfl⟩, rfl⟩
    · rintro ⟨u, ⟨rfl, rfl⟩, rfl⟩
      exact ⟨rfl, rfl⟩

/-- A loop that carries a value: the body gives the value of the next round on
the left, or the result on the right. -/
def loop (body : β → Machine σ (β ⊕ α)) : Nat → β → Machine σ α
  | 0, _ => halt .diverge
  | limit + 1, b => do
    match ← body b with
    | .inl next => loop body limit next
    | .inr a => return a

/-- A loop returns what one of its rounds returned. -/
theorem loop_result {P : α → Prop} {body : β → Machine σ (β ⊕ α)}
    (h : ∀ b s a t, body b s = .ok (.inr a, t) → P a) {limit : Nat} {b : β} {s t : σ} {a : α}
    (run : loop body limit b s = .ok (a, t)) : P a := by
  induction limit generalizing b s with
  | zero => cases run
  | succ limit ih =>
    obtain ⟨round, u, first, rest⟩ := bind_ok.mp run
    cases round with
    | inl next => exact ih rest
    | inr last =>
      cases rest
      exact h _ _ _ _ first

/-- Loops whose rounds differ in what they return at the end. -/
theorem loop_map {γ : Type} (f : α → γ) {body : β → Machine σ (β ⊕ α)} {body' : β → Machine σ (β ⊕ γ)}
    (h : ∀ b, body' b = (do
      match ← body b with
      | .inl next => return .inl next
      | .inr a => return .inr (f a)))
    (limit : Nat) (b : β) : loop body' limit b = (do return f (← loop body limit b)) := by
  induction limit generalizing b with
  | zero => rfl
  | succ limit ih =>
    rw [loop, loop, h, bind_assoc, bind_assoc]
    congr 1
    funext round
    cases round with
    | inl next => exact ih next
    | inr a => rfl

theorem ok_of_value {x : Except Halt (α × σ)} {a : α} (h : x.toOption.map Prod.fst = some a) :
    ∃ t, x = .ok (a, t) := by
  cases x with
  | error e => cases h
  | ok r =>
    cases h
    exact ⟨r.2, rfl⟩

/-- Every return of the call relates the state before to the state after. -/
def Frame (R : σ → σ → Prop) (x : Machine σ α) : Prop :=
  ∀ s a t, x s = .ok (a, t) → R s t

section Frame

variable {R : σ → σ → Prop}

theorem Frame.pure [Std.Refl R] (a : α) : Frame R (pure a : Machine σ α) := by
  intro s b t h
  simp only [pure_run, Except.ok.injEq, Prod.mk.injEq] at h
  exact h.2 ▸ Std.Refl.refl s

theorem Frame.get [Std.Refl R] : Frame R (get : Machine σ σ) := by
  intro s b t h
  simp only [get_run, Except.ok.injEq, Prod.mk.injEq] at h
  exact h.2 ▸ Std.Refl.refl s

theorem Frame.halt (h : Halt) : Frame R (halt h : Machine σ α) := by
  intro s a t ht
  cases ht

theorem Frame.panic (m : String) : Frame R (panic m : Machine σ α) :=
  Frame.halt _

theorem Frame.bind [IsTrans σ R] {x : Machine σ α} {f : α → Machine σ β}
    (hx : Frame R x) (hf : ∀ a, Frame R (f a)) : Frame R (x >>= f) := by
  intro s b t h
  obtain ⟨a, u, hxu, hfu⟩ := bind_ok.mp h
  exact Trans.trans (hx s a u hxu) (hf a u b t hfu)

theorem Frame.ite_of {c : Prop} [Decidable c] {x y : Machine σ α}
    (hx : c → Frame R x) (hy : ¬c → Frame R y) : Frame R (if c then x else y) := by
  split
  · exact hx ‹c›
  · exact hy ‹¬c›

theorem Frame.ite {c : Prop} [Decidable c] {x y : Machine σ α}
    (hx : Frame R x) (hy : Frame R y) : Frame R (if c then x else y) :=
  Frame.ite_of (fun _ => hx) fun _ => hy

theorem Frame.loop [IsTrans σ R] [Std.Refl R] {body : β → Machine σ (β ⊕ α)}
    (h : ∀ b, Frame R (body b)) (limit : Nat) (b : β) : Frame R (loop body limit b) := by
  induction limit generalizing b with
  | zero => exact Frame.halt _
  | succ limit ih =>
    refine Frame.bind (h b) fun round => ?_
    cases round with
    | inl next => exact ih next
    | inr a => exact Frame.pure a

theorem Frame.forM [IsTrans σ R] [Std.Refl R] {body : β → Machine σ PUnit}
    (h : ∀ b, Frame R (body b)) (l : List β) : Frame R (l.forM body) := by
  induction l with
  | nil => exact Frame.pure _
  | cons b l ih => exact Frame.bind (h b) fun _ => ih

/-- A call that reads the state and then sets it. -/
theorem Frame.get_bind {f : σ → Machine σ α} (h : ∀ s a t, f s s = .ok (a, t) → R s t) :
    Frame R (MonadState.get >>= f) := by
  intro s a t hs
  rw [bind_of_ok (get_run s)] at hs
  exact h s a t hs

theorem Frame.modify (f : σ → σ) (h : ∀ s, R s (f s)) :
    Frame R (modify f : Machine σ PUnit) := by
  intro s a t ht
  simp only [modify_run, Except.ok.injEq, Prod.mk.injEq] at ht
  exact ht.2 ▸ h s

theorem Frame.mono {S : σ → σ → Prop} {x : Machine σ α} (hx : Frame R x)
    (h : ∀ s t, R s t → S s t) : Frame S x :=
  fun s a t ht => h s t (hx s a t ht)

theorem Frame.zoom {S : τ → τ → Prop} {get : τ → σ} {put : σ → τ → τ} {x : Machine σ α}
    (hx : Frame R x) (h : ∀ t s, R (get t) s → S t (put s t)) : Frame S (zoom get put x) := by
  intro t a t' ht
  obtain ⟨s, hs, rfl⟩ := zoom_ok.mp ht
  exact h t s (hx _ _ _ hs)

end Frame

/-- The call goes the same way where the state is changed by `g`, and leaves the
change as it is. -/
def Blind (g : σ → σ) (x : Machine σ α) : Prop :=
  ∀ s, x (g s) = (x s).map fun r => (r.1, g r.2)

section Blind

variable {g : σ → σ}

theorem Blind.pure (a : α) : Blind g (pure a : Machine σ α) := fun _ => rfl

theorem Blind.halt (h : Halt) : Blind g (halt h : Machine σ α) := fun _ => rfl

theorem Blind.bind {x : Machine σ α} {f : α → Machine σ β} (hx : Blind g x)
    (hf : ∀ a, Blind g (f a)) : Blind g (x >>= f) := by
  intro s
  have first := hx s
  cases run : x s with
  | error h =>
    rw [run] at first
    rw [bind_of_error run, bind_of_error first]
    rfl
  | ok r =>
    obtain ⟨a, t⟩ := r
    rw [run] at first
    rw [bind_of_ok run, bind_of_ok first]
    exact hf a t

theorem Blind.ite {c : Prop} [Decidable c] {x y : Machine σ α} (hx : Blind g x)
    (hy : Blind g y) : Blind g (if c then x else y) := by
  split
  · exact hx
  · exact hy

/-- What is done with the state that is read does not depend on the change. -/
theorem Blind.get_bind {f : σ → Machine σ α} (same : ∀ s, f (g s) = f s)
    (h : ∀ s, Blind g (f s)) : Blind g (MonadState.get >>= f) := by
  intro s
  rw [bind_of_ok (get_run s), bind_of_ok (get_run (g s)), same]
  exact h s s

theorem Blind.modify {f : σ → σ} (same : ∀ s, f (g s) = g (f s)) :
    Blind g (modify f : Machine σ PUnit) := by
  intro s
  rw [modify_run, modify_run, same]
  rfl

theorem Blind.zoom {g : τ → τ} {get : τ → σ} {put : σ → τ → τ} (x : Machine σ α)
    (same : ∀ t, get (g t) = get t) (apart : ∀ s t, put s (g t) = g (put s t)) :
    Blind g (zoom get put x) := by
  intro t
  rw [Machine.zoom, Machine.zoom, same]
  cases x (get t) with
  | error h => rfl
  | ok r => exact congrArg (fun t' => Except.ok (r.1, t')) (apart r.2 t)

end Blind

end Machine

end AvxKernel
