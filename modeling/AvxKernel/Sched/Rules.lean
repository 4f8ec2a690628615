import AvxKernel.Sched.Kernel

/-! What the code that a processor runs may rely on, and what it must keep to: the state
of the interrupts, the locks that it holds, and what it knows of a process whose lock it
holds. -/
namespace AvxKernel.Sched

open Proc (ProcState Chan)

/-- What is known of the registers. `CSR.PRMD` and `intena` are known only while
interrupts are off and no other code has been switched to. -/
structure Regs where
  ie : Bool
  user : Bool
  prmd : Option Prmd
  eentry : Eentry
  noff : Nat
  intena : Option Bool
  proc : Option Nat

/-- What belongs to the code that runs. -/
structure Own where
  held : List Lock
  /-- A lock that has been taken and is not yet, or no more, marked with the processor. -/
  half : Option Lock
  /-- The states of processes whose lock is held. -/
  knows : Nat → Option ProcState
  /-- The state that a process has given itself before it switches away. -/
  parked : Option ProcState
  /-- The process that a scheduler is about to switch to. -/
  claims : Option Nat
  /-- A place in the table whose context has been set up. -/
  fresh : Option Nat
  /-- A process that has a parent, and whose lock is held. -/
  adopted : Option Nat
  /-- Places in the table that hold no child of the process. -/
  strangers : Nat → Prop

structure View extends Regs, Own

/-- The process whose code is run, if it is not a scheduler's. -/
def Context.process : Context → Option Nat
  | .cpu _ => none
  | .proc p => some p

namespace View

variable (me : Context) (b : Nat → Prop) (v : View)

/-- In the kernel, with interrupts on. -/
def calm : View where
  ie := true
  user := false
  prmd := none
  eentry := .kernelvec
  noff := 0
  intena := none
  proc := me.process
  held := []
  half := none
  knows := fun _ => none
  parked := none
  claims := none
  fresh := none
  adopted := none
  strangers := b

/-- In user mode. -/
def inUser (p : Nat) : View := { calm (.proc p) b with user := true, eentry := .uservec }

/-- In the kernel, with interrupts off and no lock held. -/
def trapped (i : Option Bool) (r : Option Prmd) : View :=
  { calm me b with ie := false, intena := i, prmd := r }

/-- Just switched to, with the lock of the process that is or was run. -/
def resumed (p : Nat) : View :=
  { trapped (.proc p) b none none with noff := 1, held := [.proc p] }

/-- With interrupts turned on, nothing is known of what they change. -/
def enabled : View := { v with ie := true, intena := none, prmd := none }

def forget (lk : Lock) (q : Nat) : Option ProcState := if lk = .proc q then none else v.knows q

/-- The lock may be given back: its process is not being switched to or away. -/
def MayRelease (lk : Lock) : Prop :=
  ∀ q, lk = .proc q → v.claims ≠ some q ∧ (me = .proc q → v.parked = none) ∧
    (me.process = none → v.proc ≠ some q)

/-- The state of the process may be set: by the process itself, before it switches away,
or by one that holds its lock and knows its state. A process that exits has no children. -/
def MaySet (init p : Nat) (st : ProcState) : Prop :=
  me = .proc p ∧ v.parked = none ∧
    (st = .sleeping ∨ st = .runnable ∨ st = .zombie ∧ p ≠ init ∧ ∀ q < NPROC, v.strangers q) ∨
  me ≠ .proc p ∧
    (v.knows p = some .sleeping ∧ st = .runnable ∨
      v.knows p = some .unused ∧ v.fresh = some p ∧ v.adopted = some p ∧ st = .runnable ∨
      (v.knows p = some .unused ∨ v.knows p = some .zombie) ∧ st = .unused ∨
      v.knows p = some .runnable ∧ st = .running ∧ me.process = none ∧ v.claims = none)

/-- The parent may be set: that of a new process to the one that makes it, that of any
but the first process to the first one, and that of a process that is freed to none. -/
def MayAdopt (init p : Nat) (q : Option Nat) : Prop :=
  (∃ m, me = .proc m ∧ m ≠ p ∧ q = some m ∧ v.fresh = some p ∧ v.parked = none) ∨
    p ≠ init ∧ q = some init ∨
    (v.knows p = some .unused ∨ v.knows p = some .zombie) ∧ q = none

/-- All but the lock of the process is given back, and interrupts are off. -/
structure Switches (p : Nat) : Prop where
  held : v.held = [.proc p]
  half : v.half = none
  noff : v.noff = 1
  ie : v.ie = false
  proc : v.proc = some p
  eentry : v.eentry = .kernelvec

end View

open View

/-- When an operation may be done. -/
def Allowed (init : Nat) (me : Context) (v : View) : Op → Prop
  | .intr_on => v.enabled = calm me v.strangers
  | .set_prmd _ | .set_eentry _ | .set_noff _ | .set_intena _ => v.ie = false
  | .ertn => v.ie = false ∧ (v.prmd = some ⟨.kernel, true⟩ ∧ v.enabled = calm me v.strangers ∨
      v.prmd = some ⟨.user, true⟩ ∧
        ∃ p, me = .proc p ∧ { v.enabled with user := true } = inUser v.strangers p)
  | .set_cpu_proc p => me.process = none ∧ (p = none ∨ v.ie = false ∧ p = v.claims)
  | .test_and_set lk => v.ie = false ∧ v.half = none ∧ lk ∉ v.held
  | .set_cpu lk | .sync_release lk => v.half = some lk
  | .clear_cpu lk => lk ∈ v.held ∧ v.half = none ∧ v.MayRelease me lk
  | .set_state p st => .proc p ∈ v.held ∧ v.MaySet me init p st
  | .set_chan p _ => .proc p ∈ v.held
  | .set_killed p b => b = true → p ≠ init
  | .set_parent p q => .proc p ∈ v.held ∧ p < NPROC ∧ v.MayAdopt me init p q
  | .set_context p => .proc p ∈ v.held ∧ v.knows p = some .unused
  | .swtch_to p => me.process = none ∧ v.Switches p ∧ v.claims = some p
  | .swtch_back p => me = .proc p ∧ v.Switches p ∧ v.parked ≠ none
  | .panic _ | .fault => False
  | _ => True

/-- The results that an operation can have. -/
def Possible (init : Nat) (me : Context) (v : View) : (o : Op) → o.Res → Prop
  | .intr_get, r => r = v.ie
  | .prmd, r => ∀ x, v.prmd = some x → r = x
  | .noff, r => r = v.noff
  | .intena, r => ∀ b, v.intena = some b → r = b
  | .cpu_proc, r => r = v.proc
  | .locked lk, r => lk ∈ v.held → r = true
  | .cpu_is lk, r => r = true ↔ lk ∈ v.held
  | .state p, r => (∀ st, v.knows p = some st → r = st) ∧
      (me = .proc p → r = v.parked.getD .running)
  | .killed p, r => p = init → r = false
  | .parent p, r => (∀ q, r = some q → q ≠ p ∧ p ≠ init) ∧
      (∀ m, me = .proc m → m ≠ init →
        (v.strangers p → r ≠ some m) ∧ (m = p → v.parked = none → r ≠ none))
  | .swtch_back _, _ => v.parked ≠ some .zombie
  | _, _ => True

/-- What is known after it. -/
def Next (me : Context) (v : View) : (o : Op) → o.Res → View
  | .intr_off, _ => { v with ie := false }
  | .intr_on, _ => v.enabled
  | .set_prmd x, _ => { v with prmd := some x }
  | .set_eentry entry, _ => { v with eentry := entry }
  | .ertn, _ => { v.enabled with user := decide (v.prmd = some ⟨.user, true⟩) }
  | .set_noff n, _ => { v with noff := n }
  | .set_intena b, _ => { v with intena := some b }
  | .set_cpu_proc p, _ => { v with proc := p }
  | .test_and_set lk, r => { v with half := cond (r : Bool) none (some lk) }
  | .set_cpu lk, _ => { v with held := lk :: v.held, half := none }
  | .clear_cpu lk, _ => { v with
      held := v.held.erase lk
      half := some lk
      knows := v.forget lk
      fresh := v.fresh.filter fun q => lk ≠ .proc q
      adopted := v.adopted.filter fun q => lk ≠ .proc q }
  | .sync_release _, _ => { v with half := none }
  | .state p, r =>
    if .proc p ∈ v.held then { v with knows := Function.update v.knows p (some r) } else v
  | .set_state p st, _ => { v with
      knows := Function.update v.knows p (some st)
      parked := if me = .proc p then some st else v.parked
      claims := if st = .running then some p else v.claims
      fresh := v.fresh.filter (· ≠ p) }
  | .parent p, r => { v with
      strangers := fun q => v.strangers q ∨ q = p ∧ r ≠ me.process ∨ me = .proc p ∧ r = some q }
  | .set_parent p q, _ => { v with
      adopted := q.map fun _ => p
      strangers := fun x => if x = p then q ≠ me.process else v.strangers x }
  | .set_context p, _ => { v with fresh := some p }
  | .swtch_to p, _ => resumed (fun _ => False) p
  | .swtch_back p, _ => resumed v.strangers p
  | _, _ => v

def rules (init : Nat) (me : Context) : Rules Op Op.Res View where
  allowed v o := v.user = false ∧ Allowed init me v o
  possible := Possible init me
  next := Next me

/-- The code of a process ends in user mode, and that of a scheduler does not end. -/
def Done (_ : Unit) (v : View) : Prop := v.user = true

/-- In the kernel, with no lock held. -/
def Idle (me : Context) (v : View) : Prop :=
  ∃ b, v = calm me b ∨ ∃ i r, v = trapped me b i r

/-- What the rest of the kernel keeps to, a handler of system calls above all: it starts
with no lock held, and ends so. -/
def Disciplined (init p : Nat) (handler : K Unit) : Prop :=
  ∀ v, Idle (.proc p) v → (rules init (.proc p)).Safe handler v fun _ w => Idle (.proc p) w

end AvxKernel.Sched
