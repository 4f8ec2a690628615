import AvxKernel.Life.Locks

/-! `sys_nanosleep` of `sysproc.c`. While the process sleeps others run; what they
leave behind is a parameter, and they hand the lock of the process back. -/
namespace AvxKernel.Life

/-- The address of `ticks`, on which the process sleeps. -/
def TICKS : Proc.Chan := .other 0

def fallAsleep (pr : Task) : Task := { pr with chan := some TICKS, state := .sleeping }

def wakeUp (pr : Task) : Task := { pr with chan := none }

/-- `sleep` where the lock is the process's own: the process is chosen again when the
others have done the `i`th of their turns. -/
def sleepOwn (meanwhile : Nat → Kernel → Kernel) (p i : Nat) : Call Unit := do
  setProc p fallAsleep
  if ← Prog.holding p then
    Prog.modify (meanwhile i)
  else
    Prog.panic "sched p->lock"
  setProc p wakeUp

/-- The ticks to wait: the result is an `int`, and compared as a `uint64`. -/
def sleepTicks (sec usec : Nat) : Nat :=
  ((Int.bmod (u64 (sec * 20 + usec / 50000000)) (2 ^ 32)).tdiv 10 % 2 ^ 64).toNat

def waiting (tick0 wait : Nat) (k : Kernel) : Prop := u64 (k.ticks + (2 ^ 64 - tick0)) < wait

instance (tick0 wait : Nat) (k : Kernel) : Decidable (waiting tick0 wait k) :=
  inferInstanceAs (Decidable (_ < _))

def nanosleepFrom (meanwhile : Nat → Kernel → Kernel) (p tick0 wait : Nat) :
    Nat → Nat → Call Int
  | 0, _ => Prog.halt .diverge
  | limit + 1, i => do
    let k ← Prog.read id
    if waiting tick0 wait k then
      if (k.proc p).killed then
        return -1
      else
        sleepOwn meanwhile p i
        nanosleepFrom meanwhile p tick0 wait limit (i + 1)
    else
      release p
      return 0

/-- The arguments are what `copyin` reads at the two addresses, nothing where it fails. -/
def sys_nanosleep (limit : Nat) (meanwhile : Nat → Kernel → Kernel) (p : Nat)
    (sec usec : Option Nat) : Call Int := do
  match sec, usec with
  | some sec, some usec =>
    acquire p
    let tick0 ← Prog.read Kernel.ticks
    nanosleepFrom meanwhile p tick0 (sleepTicks sec usec) limit 0
  | _, _ => return -1

/-! ### What the process sees -/

/-- The kernel once the process is awake again. -/
def woken (meanwhile : Nat → Kernel → Kernel) (p i : Nat) (k : Kernel) : Kernel :=
  (meanwhile i (k.put p fallAsleep)).put p wakeUp

/-- The kernel when the process looks for the `j`th time, from its `i`th on. -/
def looks (meanwhile : Nat → Kernel → Kernel) (p : Nat) : Nat → Nat → Kernel → Kernel
  | _, 0, k => k
  | i, j + 1, k => looks meanwhile p (i + 1) j (woken meanwhile p i k)

/-- In one of its first looks the process finds itself killed with time left to sleep. -/
def KilledAsleep (meanwhile : Nat → Kernel → Kernel) (p tick0 wait limit i : Nat) (k : Kernel) : Prop :=
  ∃ j < limit, (∀ l ≤ j, waiting tick0 wait (looks meanwhile p i l k)) ∧
    ((looks meanwhile p i j k).proc p).killed = true

section Locks

variable {meanwhile : Nat → Kernel → Kernel} {p tick0 wait limit i : Nat} {s : Shared Kernel}
  {k : Kernel}

theorem sleepOwn_ends {may : Halt → Prop} (held : s.holder p = some p) :
    Prog.Ends p may (sleepOwn meanwhile p i) s fun _ t =>
      t = { s with state := woken meanwhile p i s.state } := by
  refine Prog.Ends.bind (R := fun _ t => t = { s with state := s.state.put p fallAsleep })
    (Prog.Ends.modify rfl) ?_
  rintro _ t rfl
  refine Prog.Ends.holding_bind ?_
  rw [decide_eq_true held]
  refine Prog.Ends.bind (R := fun _ t => t =
    { s with state := meanwhile i (s.state.put p fallAsleep) }) (Prog.Ends.modify rfl) ?_
  rintro _ t rfl
  exact Prog.Ends.modify rfl

theorem killedAsleep_succ : KilledAsleep meanwhile p tick0 wait (limit + 1) i k ↔
    waiting tick0 wait k ∧ ((k.proc p).killed = true ∨
      KilledAsleep meanwhile p tick0 wait limit (i + 1) (woken meanwhile p i k)) := by
  constructor
  · rintro ⟨j, lt, waits, killed⟩
    refine ⟨waits 0 (Nat.zero_le _), ?_⟩
    cases j with
    | zero => exact .inl killed
    | succ j => exact .inr ⟨j, by omega, fun l le => waits (l + 1) (by omega), killed⟩
  · rintro ⟨now, killed | ⟨j, lt, waits, killed⟩⟩
    · refine ⟨0, by omega, fun l le => ?_, killed⟩
      obtain rfl := Nat.le_zero.mp le
      exact now
    · refine ⟨j + 1, by omega, fun l le => ?_, killed⟩
      cases l with
      | zero => exact now
      | succ l => exact waits l (by omega)

/-- The lock is given back unless the process finds itself killed, and then it returns. -/
theorem nanosleepFrom_ends (held : s.holder p = some p) :
    Prog.Ends p (fun e => e ≠ Foreign ∧ ¬KilledAsleep meanwhile p tick0 wait limit i s.state)
      (nanosleepFrom meanwhile p tick0 wait limit i) s fun _ t => t.stray = s.stray ∧
        (KilledAsleep meanwhile p tick0 wait limit i s.state ∧ t.holder = s.holder ∨
          ¬KilledAsleep meanwhile p tick0 wait limit i s.state ∧
            t.holder = Function.update s.holder p none) := by
  induction limit generalizing s i with
  | zero => exact Prog.Ends.halt ⟨by decide, fun ⟨_, lt, _⟩ => absurd lt (Nat.not_lt_zero _)⟩
  | succ limit ih =>
    refine Prog.Ends.read_bind (Prog.Ends.ite (fun waits => ?_) fun late => ?_)
    · refine Prog.Ends.ite (fun killed => ?_) fun (alive : ¬(s.state.proc p).killed = true) => ?_
      · exact Prog.Ends.pure ⟨rfl, .inl ⟨killedAsleep_succ.mpr ⟨waits, .inl killed⟩, rfl⟩⟩
      · have same : KilledAsleep meanwhile p tick0 wait (limit + 1) i s.state ↔
            KilledAsleep meanwhile p tick0 wait limit (i + 1) (woken meanwhile p i s.state) := by
          rw [killedAsleep_succ, or_iff_right alive]
          exact and_iff_right waits
        rw [same]
        refine Prog.Ends.bind (sleepOwn_ends held) ?_
        rintro _ t rfl
        exact ih held
    · refine Prog.Ends.bind (release_ends held) ?_
      rintro _ t rfl
      exact Prog.Ends.pure ⟨rfl, .inr ⟨fun killed => late (killedAsleep_succ.mp killed).1, rfl⟩⟩

end Locks

end AvxKernel.Life
