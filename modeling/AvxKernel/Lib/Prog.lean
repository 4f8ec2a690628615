import AvxKernel.Lib.Machine
import Mathlib.Logic.Function.Basic
import Mathlib.Logic.Relation

/-! Programs of several processes over one state. A program is a sequence of
atomic steps, and of acquisitions of locks that may have to wait. The same
program runs alone, as one call on the state, or a step at a time among the
programs of other processes. -/
namespace AvxKernel

/-- A state and who holds each lock. Nothing reads `stray`, which counts the
releases by a process that did not hold the lock. -/
structure Shared (σ : Type) where
  state : σ
  holder : Nat → Option Nat
  stray : Nat

/-- An atomic step is told which process takes it. -/
inductive Prog (σ α : Type) : Type 1 where
  | ret (a : α)
  | lock (d : Nat) (rest : Prog σ α)
  | atom {β : Type} (m : Nat → Machine (Shared σ) β) (rest : β → Prog σ α)

namespace Prog

variable {σ α β : Type}

def bind : Prog σ α → (α → Prog σ β) → Prog σ β
  | ret a, f => f a
  | lock d rest, f => lock d (bind rest f)
  | atom m rest, f => atom m fun b => bind (rest b) f

instance : Monad (Prog σ) where
  pure := ret
  bind := bind

/-- One atomic step. -/
def step (m : Nat → Machine (Shared σ) α) : Prog σ α := atom m ret

def halt (h : Halt) : Prog σ α := step fun _ => Machine.halt h

def panic (message : String) : Prog σ α := halt (.panic message)

def read (f : σ → α) : Prog σ α := step fun _ => do return f (← get).state

def modify (f : σ → σ) : Prog σ Unit :=
  step fun _ => MonadState.modifyGet fun s => ((), { s with state := f s.state })

/-- A step on the state that leaves the locks alone. -/
def onState (x : Machine σ α) : Prog σ α :=
  step fun _ => Machine.zoom Shared.state (fun t s => { s with state := t }) x

/-- Waits for the lock and takes it. -/
def acquire (d : Nat) : Prog σ Unit := lock d (ret ())

/-- Frees the lock, whoever holds it. -/
def release (d : Nat) : Prog σ Unit := step fun me =>
  MonadState.modifyGet fun s => ((), { s with
    holder := Function.update s.holder d none
    stray := if s.holder d = some me then s.stray else s.stray + 1 })

def holding (d : Nat) : Prog σ Bool := step fun me => do return (← get).holder d = some me

/-! ### Alone -/

/-- Takes a lock that is free; the wait for one that is not never ends where no
other process runs. -/
def takeLock (me d : Nat) : Machine (Shared σ) Unit := do
  let s ← get
  match s.holder d with
  | none => set { s with holder := Function.update s.holder d (some me) }
  | some _ => Machine.halt .diverge

/-- The program as one call of process `me`. -/
def run (me : Nat) : Prog σ α → Machine (Shared σ) α
  | ret a => pure a
  | lock d rest => do
    takeLock me d
    run me rest
  | atom m rest => do
    let b ← m me
    run me (rest b)

variable (me : Nat)

@[simp] theorem run_pure (a : α) : run me (pure a : Prog σ α) = pure a := rfl

@[simp] theorem run_bind (x : Prog σ α) (f : α → Prog σ β) :
    run me (x >>= f) = run me x >>= fun a => run me (f a) := by
  change run me (bind x f) = _
  induction x with
  | ret a => rfl
  | lock d rest ih => simp only [bind, run, ih, bind_assoc]
  | atom m rest ih => simp only [bind, run, ih, bind_assoc]

@[simp] theorem run_step (m : Nat → Machine (Shared σ) α) : run me (step m) = m me := by
  simp only [step, run, bind_pure]

@[simp] theorem run_acquire (d : Nat) : run me (acquire d : Prog σ Unit) = takeLock me d := by
  simp only [acquire, run, bind_pure_unit]

end Prog

/-! ### Interleaved -/

/-- The programs that the processes have still to run. -/
structure System (σ : Type) where
  shared : Shared σ
  prog : Nat → Prog σ Unit

namespace System

variable {σ : Type}

/-- A step of one process: it takes up a new call, it takes a lock that is free,
or it does the next atomic step of its program. -/
inductive Step (calls : Nat → Prog σ Unit → Prop) : System σ → System σ → Prop where
  | call {s : System σ} {p : Nat} {x : Prog σ Unit} (idle : s.prog p = .ret ())
      (may : calls p x) : Step calls s { s with prog := Function.update s.prog p x }
  | lock {s : System σ} {p d : Nat} {rest : Prog σ Unit} (next : s.prog p = .lock d rest)
      (free : s.shared.holder d = none) :
      Step calls s
        { shared := { s.shared with holder := Function.update s.shared.holder d (some p) }
          prog := Function.update s.prog p rest }
  | atom {s : System σ} {p : Nat} {β : Type} {m : Nat → Machine (Shared σ) β}
      {rest : β → Prog σ Unit} {b : β} {shared : Shared σ} (next : s.prog p = .atom m rest)
      (done : m p s.shared = .ok (b, shared)) :
      Step calls s { shared, prog := Function.update s.prog p (rest b) }

/-- The process waits for a lock that another one holds. -/
def Blocked (s : System σ) (p q : Nat) : Prop :=
  ∃ d rest, s.prog p = .lock d rest ∧ s.shared.holder d = some q

/-- Some processes wait for each other in a ring. -/
def Deadlock (s : System σ) : Prop := ∃ p, Relation.TransGen s.Blocked p p

end System

end AvxKernel
