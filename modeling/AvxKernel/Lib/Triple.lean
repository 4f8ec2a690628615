import AvxKernel.Lib.Prog

/-! What is known of a call from the state in which it starts: it returns with a
value and in a state that satisfy the postcondition, or it stops in a way that is
allowed. Which ways of stopping are allowed is a parameter. -/
namespace AvxKernel

namespace Machine

variable {σ τ α β : Type} {may : Halt → Prop} {x : Machine σ α} {s : σ} {Q R : α → σ → Prop}

/-- From `s`, the call returns as `Q` says, or stops in an allowed way. -/
def Ends (may : Halt → Prop) (x : Machine σ α) (s : σ) (Q : α → σ → Prop) : Prop :=
  match x s with
  | .ok (a, t) => Q a t
  | .error h => may h

namespace Ends

theorem ok {t : σ} {a : α} (h : Ends may x s Q) (run : x s = .ok (a, t)) : Q a t := by
  unfold Ends at h
  rwa [run] at h

theorem error {e : Halt} (h : Ends may x s Q) (run : x s = .error e) : may e := by
  unfold Ends at h
  rwa [run] at h

theorem of_ok {t : σ} {a : α} (run : x s = .ok (a, t)) (h : Q a t) : Ends may x s Q := by
  unfold Ends
  rwa [run]

theorem of_error {e : Halt} (run : x s = .error e) (h : may e) : Ends may x s Q := by
  unfold Ends
  rwa [run]

/-- A call that goes as another does from some state. -/
theorem of_run {y : Machine σ α} {t : σ} (same : x s = y t) (h : Ends may y t Q) : Ends may x s Q := by
  unfold Ends at h ⊢
  rwa [same]

theorem congr_run {y : Machine σ α} (same : x s = y s) : Ends may x s Q ↔ Ends may y s Q := by
  unfold Ends
  rw [same]

/-- A call that may stop in any way is known by its runs. -/
theorem of_runs (any : ∀ e, may e) (h : ∀ a t, x s = .ok (a, t) → Q a t) : Ends may x s Q := by
  cases run : x s with
  | error e => exact of_error run (any e)
  | ok r => exact of_ok run (h _ _ run)

theorem mono (h : Ends may x s R) (post : ∀ a t, R a t → Q a t) : Ends may x s Q := by
  cases run : x s with
  | error e => exact of_error run (h.error run)
  | ok r => exact of_ok run (post _ _ (h.ok run))

theorem congr_post (same : ∀ a t, Q a t ↔ R a t) : Ends may x s Q ↔ Ends may x s R :=
  ⟨fun ends => ends.mono fun a t => (same a t).mp, fun ends => ends.mono fun a t => (same a t).mpr⟩

/-- A call that can only stop in one way. -/
theorem stops {e : Halt} (h : Ends (· = e) x s fun _ _ => False) : x s = .error e := by
  cases run : x s with
  | error e' => rw [h.error run]
  | ok r => exact (h.ok run).elim

/-- The postcondition together with the run that reached it. -/
theorem with_run (h : Ends may x s Q) : Ends may x s fun a t => Q a t ∧ x s = .ok (a, t) := by
  cases run : x s with
  | error e => exact of_error run (h.error run)
  | ok r => exact of_ok run ⟨h.ok run, rfl⟩

theorem pure {a : α} (h : Q a s) : Ends may (Pure.pure a) s Q := h

theorem halt {e : Halt} (h : may e) : Ends may (Machine.halt e : Machine σ α) s Q := h

theorem bind {f : α → Machine σ β} {Q : β → σ → Prop} (first : Ends may x s R)
    (rest : ∀ a t, R a t → Ends may (f a) t Q) : Ends may (x >>= f) s Q := by
  cases run : x s with
  | error e => exact of_error (bind_of_error run) (first.error run)
  | ok r =>
    have ends := rest r.1 r.2 (first.ok run)
    unfold Ends at ends ⊢
    rwa [bind_of_ok (a := r.1) (u := r.2) run]

theorem bind_iff {f : α → Machine σ β} {Q : β → σ → Prop} :
    Ends may (x >>= f) s Q ↔ Ends may x s fun a t => Ends may (f a) t Q := by
  constructor
  · intro ends
    cases run : x s with
    | error e => exact of_error run (ends.error (bind_of_error run))
    | ok r => exact of_ok (a := r.1) (t := r.2) run (of_run (bind_of_ok run).symm ends)
  · exact fun first => bind first fun _ _ rest => rest

theorem get_bind {f : σ → Machine σ β} {Q : β → σ → Prop} (rest : Ends may (f s) s Q) :
    Ends may (MonadState.get >>= f) s Q := by
  unfold Ends
  rw [bind_of_ok (get_run s)]
  exact rest

theorem modify {g : σ → σ} {Q : PUnit → σ → Prop} (h : Q ⟨⟩ (g s)) :
    Ends may (modify g : Machine σ PUnit) s Q := h

theorem ite {c : Prop} [Decidable c] {y : Machine σ α} (yes : c → Ends may x s Q)
    (no : ¬c → Ends may y s Q) : Ends may (if c then x else y) s Q := by
  split
  · exact yes ‹c›
  · exact no ‹¬c›

theorem ite_iff {c : Prop} [Decidable c] {y : Machine σ α} :
    Ends may (if c then x else y) s Q ↔ (c → Ends may x s Q) ∧ (¬c → Ends may y s Q) := by
  by_cases h : c
  · simp [h]
  · simp [h]

theorem lift {r : Except Halt α} (stop : ∀ e, r = .error e → may e) (done : ∀ a, r = .ok a → Q a s) :
    Ends may (Machine.lift r) s Q := by
  cases r with
  | error e => exact of_error rfl (stop e rfl)
  | ok a => exact of_ok rfl (done a rfl)

theorem zoom_iff {get : τ → σ} {put : σ → τ → τ} {t : τ} {Q : α → τ → Prop} :
    Ends may (Machine.zoom get put x) t Q ↔ Ends may x (get t) fun a s => Q a (put s t) := by
  unfold Ends Machine.zoom
  cases x (get t) with
  | error e => rfl
  | ok r => rfl

theorem zoom {get : τ → σ} {put : σ → τ → τ} {t : τ} {Q : α → τ → Prop}
    (h : Ends may x (get t) fun a s => Q a (put s t)) : Ends may (Machine.zoom get put x) t Q :=
  zoom_iff.mpr h

/-- A loop whose rounds bring some measure down returns within as many rounds. -/
theorem loop_measure {body : β → Machine σ (β ⊕ α)} {I : β → σ → Prop} {m : β → Nat}
    (round : ∀ b s, I b s → Ends may (body b) s fun r t =>
      match r with
      | .inl next => I next t ∧ m next < m b
      | .inr a => Q a t)
    {limit : Nat} {b : β} (start : I b s) (enough : m b < limit) :
    Ends may (loop body limit b) s Q := by
  induction limit generalizing b s with
  | zero => exact absurd enough (Nat.not_lt_zero _)
  | succ limit ih =>
    refine bind (round b s start) fun r t post => ?_
    cases r with
    | inl next => exact ih post.1 (Nat.lt_of_lt_of_le post.2 (Nat.le_of_lt_succ enough))
    | inr a => exact pure post

/-- What every round keeps holds in every round that is reached. -/
theorem rounds_keep {I : β → σ → Prop} {next : β × σ → β × σ → Prop}
    (round : ∀ b s c t, I b s → next (b, s) (c, t) → I c t) {b : β} (start : I b s) {y : β × σ}
    (reached : Relation.ReflTransGen next (b, s) y) : I y.1 y.2 := by
  induction reached with
  | refl => exact start
  | tail _ goes ih => exact round _ _ _ _ ih goes

/-- A loop whose rounds bring some measure down ends as `Q` says exactly where every round
that is reached does, if it is the last one. `R` says where a round leads. -/
theorem loop_iff {body : β → Machine σ (β ⊕ α)} {I : β → σ → Prop} {m : β → Nat}
    {R : β × σ → β × σ → Prop}
    (leads : ∀ b s c t, I b s → (body b s = .ok (.inl c, t) ↔ R (b, s) (c, t)))
    (round : ∀ b s c t, I b s → R (b, s) (c, t) → I c t ∧ m c < m b)
    {limit : Nat} {b : β} (start : I b s) (enough : m b < limit) :
    Ends may (loop body limit b) s Q ↔ ∀ y, Relation.ReflTransGen R (b, s) y →
      Ends may (body y.1) y.2 fun r t => ∀ a, r = .inr a → Q a t := by
  constructor
  · intro ends y reached
    induction limit generalizing b s with
    | zero => exact absurd enough (Nat.not_lt_zero _)
    | succ limit ih =>
      rcases reached.cases_head with rfl | ⟨⟨c, t⟩, first, rest⟩
      · refine (bind_iff.mp ends).mono ?_
        rintro r t last a rfl
        exact last
      · obtain ⟨kept, less⟩ := round b s c t start first
        have same : loop body (limit + 1) b s = loop body limit c t :=
          bind_of_ok ((leads b s c t start).mpr first)
        exact ih kept (Nat.lt_of_lt_of_le less (Nat.le_of_lt_succ enough)) (of_run same.symm ends) rest
  · intro ends
    refine loop_measure (m := m) (I := fun c u => I c u ∧ Relation.ReflTransGen R (b, s) (c, u))
      ?_ ⟨start, .refl⟩ enough
    rintro c u ⟨kept, reached⟩
    refine (ends _ reached).with_run.mono ?_
    rintro (d | a) v ⟨last, run⟩
    · have goes := (leads c u d v kept).mp run
      obtain ⟨kept, less⟩ := round c u d v kept goes
      exact ⟨⟨kept, reached.tail goes⟩, less⟩
    · exact last a rfl

theorem forM {body : β → Machine σ PUnit} {I : σ → Prop}
    (round : ∀ b s, I s → Ends may (body b) s fun _ => I) (l : List β) (start : I s) :
    Ends may (l.forM body) s fun _ => I := by
  induction l generalizing s with
  | nil => exact pure start
  | cons b l ih => exact bind (round b s start) fun _ _ => ih

end Ends

/-! ### The ways of stopping, whatever the state -/

/-- The call stops in allowed ways only. -/
def Only (may : Halt → Prop) (x : Machine σ α) : Prop := ∀ s, Ends may x s fun _ _ => True

namespace Only

theorem of_error (h : ∀ s e, x s = .error e → may e) : Only may x := by
  intro s
  cases run : x s with
  | ok r => exact Ends.of_ok (a := r.1) (t := r.2) run trivial
  | error e => exact Ends.of_error run (h s e run)

theorem pure (a : α) : Only may (Pure.pure a : Machine σ α) := fun _ => trivial

theorem get : Only may (MonadState.get : Machine σ σ) := fun _ => trivial

theorem modify (f : σ → σ) : Only may (modify f : Machine σ PUnit) := fun _ => trivial

theorem set (t : σ) : Only may (MonadStateOf.set t : Machine σ PUnit) := fun _ => trivial

theorem halt {e : Halt} (h : may e) : Only may (Machine.halt e : Machine σ α) := fun _ => h

theorem bind {f : α → Machine σ β} (first : Only may x) (rest : ∀ a, Only may (f a)) :
    Only may (x >>= f) :=
  fun s => Ends.bind (first s) fun a t _ => rest a t

theorem ite {c : Prop} [Decidable c] {y : Machine σ α} (yes : Only may x) (no : Only may y) :
    Only may (if c then x else y) := by
  split
  · exact yes
  · exact no

theorem loop {body : β → Machine σ (β ⊕ α)} (round : ∀ b, Only may (body b)) (diverge : may .diverge)
    (limit : Nat) (b : β) : Only may (loop body limit b) := by
  induction limit generalizing b with
  | zero => exact halt diverge
  | succ limit ih =>
    refine bind (round b) fun r => ?_
    cases r with
    | inl next => exact ih next
    | inr a => exact pure a

theorem forM {body : β → Machine σ PUnit} (round : ∀ b, Only may (body b)) (l : List β) :
    Only may (l.forM body) := by
  induction l with
  | nil => exact pure _
  | cons b l ih => exact bind (round b) fun _ => ih

theorem zoom {get : τ → σ} {put : σ → τ → τ} (h : Only may x) :
    Only may (Machine.zoom get put x) :=
  fun t => Ends.zoom ((h (get t)).mono fun _ _ _ => trivial)

end Only

/-- The call never stops in this way. -/
def Avoids (e : Halt) (x : Machine σ α) : Prop := ∀ s, x s ≠ .error e

theorem avoids_iff {e : Halt} : Avoids e x ↔ Only (· ≠ e) x := by
  constructor
  · intro h
    refine Only.of_error fun s other run => ?_
    rintro rfl
    exact h s run
  · intro h s run
    exact (h s).error run rfl

namespace Avoids

variable {e : Halt}

theorem ends (h : Avoids e x) (s : σ) : Ends (· ≠ e) x s fun _ _ => True := avoids_iff.mp h s

theorem pure (a : α) : Avoids e (Pure.pure a : Machine σ α) := avoids_iff.mpr (Only.pure a)

theorem get : Avoids e (MonadState.get : Machine σ σ) := avoids_iff.mpr Only.get

theorem modify (f : σ → σ) : Avoids e (modify f : Machine σ PUnit) := avoids_iff.mpr (Only.modify f)

theorem set (t : σ) : Avoids e (MonadStateOf.set t : Machine σ PUnit) := avoids_iff.mpr (Only.set t)

theorem halt {other : Halt} (ne : other ≠ e) : Avoids e (Machine.halt other : Machine σ α) :=
  avoids_iff.mpr (Only.halt ne)

theorem bind {f : α → Machine σ β} (first : Avoids e x) (rest : ∀ a, Avoids e (f a)) :
    Avoids e (x >>= f) :=
  avoids_iff.mpr (Only.bind (avoids_iff.mp first) fun a => avoids_iff.mp (rest a))

theorem ite {c : Prop} [Decidable c] {y : Machine σ α} (yes : Avoids e x) (no : Avoids e y) :
    Avoids e (if c then x else y) :=
  avoids_iff.mpr (Only.ite (avoids_iff.mp yes) (avoids_iff.mp no))

theorem loop {body : β → Machine σ (β ⊕ α)} (round : ∀ b, Avoids e (body b)) (ne : Halt.diverge ≠ e)
    (limit : Nat) (b : β) : Avoids e (loop body limit b) :=
  avoids_iff.mpr (Only.loop (fun b => avoids_iff.mp (round b)) ne limit b)

theorem forM {body : β → Machine σ PUnit} (round : ∀ b, Avoids e (body b)) (l : List β) :
    Avoids e (l.forM body) :=
  avoids_iff.mpr (Only.forM (fun b => avoids_iff.mp (round b)) l)

theorem zoom {get : τ → σ} {put : σ → τ → τ} (h : Avoids e x) :
    Avoids e (Machine.zoom get put x) :=
  avoids_iff.mpr (Only.zoom (avoids_iff.mp h))

end Avoids

end Machine

namespace Prog

variable {σ α β : Type} {me : Nat} {may : Halt → Prop} {x : Prog σ α} {s : Shared σ}
  {Q R : α → Shared σ → Prop}

/-- The same of a program that runs alone. -/
def Ends (me : Nat) (may : Halt → Prop) (x : Prog σ α) (s : Shared σ)
    (Q : α → Shared σ → Prop) : Prop :=
  Machine.Ends may (run me x) s Q

namespace Ends

theorem mono (h : Ends me may x s R) (post : ∀ a t, R a t → Q a t) : Ends me may x s Q :=
  Machine.Ends.mono h post

theorem with_run (h : Ends me may x s Q) :
    Ends me may x s fun a t => Q a t ∧ run me x s = .ok (a, t) :=
  Machine.Ends.with_run h

theorem pure {a : α} (h : Q a s) : Ends me may (Pure.pure a) s Q := h

theorem halt {e : Halt} (h : may e) : Ends me may (Prog.halt e : Prog σ α) s Q := by
  unfold Ends Prog.halt
  rw [run_step]
  exact h

theorem panic {m : String} (h : may (.panic m)) : Ends me may (Prog.panic m : Prog σ α) s Q :=
  halt h

theorem bind {f : α → Prog σ β} {Q : β → Shared σ → Prop} (first : Ends me may x s R)
    (rest : ∀ a t, R a t → Ends me may (f a) t Q) : Ends me may (x >>= f) s Q := by
  unfold Ends
  rw [run_bind]
  exact Machine.Ends.bind first rest

theorem ite {c : Prop} [Decidable c] {y : Prog σ α} (yes : c → Ends me may x s Q)
    (no : ¬c → Ends me may y s Q) : Ends me may (if c then x else y) s Q := by
  split
  · exact yes ‹c›
  · exact no ‹¬c›

theorem step {m : Nat → Machine (Shared σ) α} (h : Machine.Ends may (m me) s Q) :
    Ends me may (Prog.step m) s Q := by
  unfold Ends
  rwa [run_step]

theorem onState {m : Machine σ α}
    (h : Machine.Ends may m s.state fun a t => Q a { s with state := t }) :
    Ends me may (Prog.onState m) s Q :=
  step (Machine.Ends.zoom h)

theorem read_bind {γ : Type} {g : σ → γ} {f : γ → Prog σ β} {Q : β → Shared σ → Prop}
    (rest : Ends me may (f (g s.state)) s Q) : Ends me may (Prog.read g >>= f) s Q := by
  refine bind (R := fun a t => a = g s.state ∧ t = s) ?_ ?_
  · exact step (Machine.Ends.get_bind (Machine.Ends.pure ⟨rfl, rfl⟩))
  · rintro a t ⟨rfl, rfl⟩
    exact rest

theorem modify {g : σ → σ} {Q : Unit → Shared σ → Prop} (h : Q () { s with state := g s.state }) :
    Ends me may (Prog.modify g) s Q :=
  step h

/-- The lock is taken only where it is free. -/
theorem acquire {d : Nat} {Q : Unit → Shared σ → Prop} (diverge : may .diverge)
    (h : s.holder d = none → Q () { s with holder := Function.update s.holder d (some me) }) :
    Ends me may (Prog.acquire d) s Q := by
  unfold Ends
  rw [run_acquire]
  refine Machine.Ends.get_bind ?_
  cases held : s.holder d with
  | none => exact h held
  | some q => exact diverge

theorem release {d : Nat} {Q : Unit → Shared σ → Prop} (mine : s.holder d = some me)
    (h : Q () { s with holder := Function.update s.holder d none }) :
    Ends me may (Prog.release d) s Q := by
  refine step ?_
  refine Machine.Ends.of_ok rfl ?_
  rw [if_pos mine]
  exact h

theorem holding_bind {d : Nat} {f : Bool → Prog σ β} {Q : β → Shared σ → Prop}
    (rest : Ends me may (f (s.holder d = some me)) s Q) :
    Ends me may (Prog.holding d >>= f) s Q := by
  refine bind (R := fun a t => a = decide (s.holder d = some me) ∧ t = s) ?_ ?_
  · exact step (Machine.Ends.get_bind (Machine.Ends.pure ⟨rfl, rfl⟩))
  · rintro a t ⟨rfl, rfl⟩
    exact rest

end Ends

end Prog

end AvxKernel
