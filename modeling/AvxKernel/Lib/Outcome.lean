import AvxKernel.Lib.Machine
import Mathlib.Tactic.ByContra

/-! Calls that come to one good end under a condition, and to no good end without
it: a call that may fail, and stops what its caller is doing when it does. -/
namespace AvxKernel

variable {σ α β : Type}

/-- The run returns `value` where `fits`, and nothing good where not. -/
structure Outcome (run : Except Halt (α × σ)) (good : α → Prop) (fits : Prop) (value : α)
    (post : σ → Prop) : Prop where
  succeeds : fits → ∃ t, run = .ok (value, t) ∧ post t
  fails : ¬fits → ∀ a t, run = .ok (a, t) → ¬good a

namespace Outcome

variable {x : Machine σ α} {f : α → Machine σ β} {s t : σ} {run : Except Halt (α × σ)} {a value : α}
  {good : α → Prop} {good' : β → Prop} {fits fits' : Prop} {b : β} {post post' : σ → Prop}
  {done : σ → Prop}

theorem of_ok (returns : run = .ok (value, t)) (holds : post t) : Outcome run good True value post where
  succeeds := fun _ => ⟨t, returns, holds⟩
  fails := fun no => absurd trivial no

theorem of_fail (bad : ∀ a t, run = .ok (a, t) → ¬good a) : Outcome run good False value post where
  succeeds := False.elim
  fails := fun _ => bad

theorem congr (h : Outcome run good fits value post) (same : fits' ↔ fits)
    (weaker : ∀ t, post t → post' t) : Outcome run good fits' value post' where
  succeeds := by
    intro holds
    obtain ⟨t, returns, after⟩ := h.succeeds (same.mp holds)
    exact ⟨t, returns, weaker t after⟩
  fails := fun no => h.fails fun holds => no (same.mpr holds)

/-- A call that returns for sure, and what comes after it. -/
theorem after (first : x s = .ok (a, t)) (rest : Outcome (f a t) good' fits b post) :
    Outcome ((x >>= f) s) good' fits b post := by
  rw [Machine.bind_of_ok first]
  exact rest

/-- A call that may fail, and what comes after it if it does not. -/
theorem bind (first : Outcome (x s) good fits a done)
    (rest : fits → ∀ t, done t → Outcome (f a t) good' fits' b post)
    (stop : ∀ r t, ¬good r → ∀ r' t', f r t = .ok (r', t') → ¬good' r') :
    Outcome ((x >>= f) s) good' (fits ∧ fits') b post where
  succeeds := by
    rintro ⟨now, later⟩
    obtain ⟨t, returns, holds⟩ := first.succeeds now
    obtain ⟨u, ends, after⟩ := (rest now t holds).succeeds later
    exact ⟨u, (Machine.bind_of_ok returns).trans ends, after⟩
  fails := by
    intro no r t returns
    obtain ⟨r', u, started, ends⟩ := Machine.bind_ok.mp returns
    by_cases now : fits
    · obtain ⟨u', returned, holds⟩ := first.succeeds now
      cases started.symm.trans returned
      exact (rest now u holds).fails (fun later => no ⟨now, later⟩) r t ends
    · exact stop r' u (first.fails now r' u started) r t ends

/-- A check that stops the call where it goes wrong. -/
theorem check {c : Prop} [Decidable c] {y z : Machine σ α}
    (stop : ∀ r t, y s = .ok (r, t) → ¬good r) (go : ¬c → Outcome (z s) good fits value post) :
    Outcome ((if c then y else z) s) good (¬c ∧ fits) value post := by
  by_cases wrong : c
  · rw [if_pos wrong]
    exact ⟨fun both => absurd wrong both.1, fun _ => stop⟩
  · rw [if_neg wrong]
    exact (go wrong).congr (and_iff_right wrong) fun _ done => done

theorem of_good (h : Outcome run good fits value post) (returns : run = .ok (a, t)) (fine : good a) :
    fits ∧ a = value ∧ post t := by
  have holds : fits := by
    by_contra no
    exact h.fails no a t returns fine
  obtain ⟨u, ends, after⟩ := h.succeeds holds
  cases returns.symm.trans ends
  exact ⟨holds, rfl, after⟩

end Outcome

end AvxKernel
