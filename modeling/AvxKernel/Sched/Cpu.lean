import AvxKernel.Lib.Code
import AvxKernel.Proc.Table

/-! The processors that run the kernel, as far as locks, interrupts and context switches
go. Every processor takes one operation at a time of the code that it runs: a load or
store of a field that processors share, or of a register of its own. A context is the
code that `swtch` has left there, and stays there when it is loaded, so that nothing but
the kernel's own discipline keeps two processors off one kernel stack. -/
namespace AvxKernel.Sched

open Proc (ProcState Chan)

/-- A spin lock: that of a process, or any other. -/
inductive Lock where
  | proc (p : Nat)
  | other (n : Nat)
deriving DecidableEq

/-- `struct context` of a processor, which is that of its scheduler, or of a process. -/
inductive Context where
  | cpu (c : Nat)
  | proc (p : Nat)
deriving DecidableEq

inductive Plv where
  | kernel
  | user
deriving DecidableEq

/-- What `CSR.PRMD` holds of the state before a trap. -/
structure Prmd where
  pplv : Plv
  pie : Bool
deriving DecidableEq

/-- What `CSR.EENTRY` may point to. -/
inductive Eentry where
  /-- Nothing has been stored there since the processor was started. -/
  | unset
  | kernelvec
  | uservec
deriving DecidableEq

/-- One access to the state. The current processor is meant where none is named. -/
inductive Op where
  | intr_get
  | intr_off
  | intr_on
  | prmd
  | set_prmd (r : Prmd)
  | set_eentry (entry : Eentry)
  /-- Returns from a trap. -/
  | ertn
  | cpuid
  /-- `mycpu()->noff` -/
  | noff
  | set_noff (n : Nat)
  | intena
  | set_intena (b : Bool)
  /-- `mycpu()->proc` -/
  | cpu_proc
  | set_cpu_proc (p : Option Nat)
  /-- `lk->locked` -/
  | locked (lk : Lock)
  /-- `lk->cpu == mycpu()` -/
  | cpu_is (lk : Lock)
  /-- `__sync_lock_test_and_set(&lk->locked, 1)` -/
  | test_and_set (lk : Lock)
  /-- `lk->cpu = mycpu()` -/
  | set_cpu (lk : Lock)
  /-- `lk->cpu = 0` -/
  | clear_cpu (lk : Lock)
  /-- `__sync_lock_release(&lk->locked)` -/
  | sync_release (lk : Lock)
  | state (p : Nat)
  | set_state (p : Nat) (st : ProcState)
  | chan (p : Nat)
  | set_chan (p : Nat) (ch : Option Chan)
  | killed (p : Nat)
  | set_killed (p : Nat) (b : Bool)
  | parent (p : Nat)
  | set_parent (p : Nat) (q : Option Nat)
  /-- Sets up the context in which a new process begins. -/
  | set_context (p : Nat)
  /-- `swtch(&c->context, &p->context)`, where `c` is the current processor -/
  | swtch_to (p : Nat)
  /-- `swtch(&p->context, &mycpu()->context)` -/
  | swtch_back (p : Nat)
  | load (a : Nat)
  | store (a v : Nat)
  /-- Something that is left open: what a device or an allocation answers. -/
  | choose
  | panic (message : String)
  /-- A load through a null pointer. -/
  | fault

def Op.Res : Op → Type
  | .intr_get | .intena | .locked _ | .cpu_is _ | .test_and_set _ | .killed _ | .choose => Bool
  | .prmd => Prmd
  | .noff | .cpuid | .load _ => Nat
  | .cpu_proc | .parent _ => Option Nat
  | .state _ => ProcState
  | .chan _ => Option Chan
  | .panic _ | .fault => Empty
  | _ => Unit

abbrev K := Code Op Op.Res

/-- A processor: its registers, its `struct cpu`, and the code it has still to run.
A processor in user mode runs no code of the kernel. -/
structure Cpu where
  plv : Plv
  ie : Bool
  /-- `CSR.ECFG` lets the timer and devices interrupt. -/
  lie : Bool
  prmd : Prmd
  eentry : Eentry
  proc : Option Nat
  noff : Nat
  intena : Bool
  code : K Unit

structure Spinlock where
  locked : Bool
  cpu : Option Nat

/-- What of `struct proc` the code below reads or writes. -/
structure Slot where
  state : ProcState
  chan : Option Chan
  killed : Bool
  parent : Option Nat

/-- No operation reads `inside`, which lists the processors that have found the lock free
and not yet released it. -/
structure Sys where
  cpu : Nat → Cpu
  lock : Lock → Spinlock
  proc : Nat → Slot
  context : Context → K Unit
  mem : Nat → Nat
  inside : Lock → List Nat

namespace Sys

variable (s : Sys)

def setCpu (c : Nat) (f : Cpu → Cpu) : Sys :=
  { s with cpu := Function.update s.cpu c (f (s.cpu c)) }

def setCode (c : Nat) (code : K Unit) : Sys := s.setCpu c fun cpu => { cpu with code }

def setLock (lk : Lock) (f : Spinlock → Spinlock) : Sys :=
  { s with lock := Function.update s.lock lk (f (s.lock lk)) }

def setProc (p : Nat) (f : Slot → Slot) : Sys :=
  { s with proc := Function.update s.proc p (f (s.proc p)) }

/-- Processor `c` does the operation, with this result. -/
def Does (forkret : K Unit) (c : Nat) : (o : Op) → o.Res → Sys → Prop
  | .intr_get, r, t => r = (s.cpu c).ie ∧ t = s
  | .intr_off, _, t => t = s.setCpu c fun cpu => { cpu with ie := false }
  | .intr_on, _, t => t = s.setCpu c fun cpu => { cpu with ie := true }
  | .prmd, r, t => r = (s.cpu c).prmd ∧ t = s
  | .set_prmd x, _, t => t = s.setCpu c fun cpu => { cpu with prmd := x }
  | .set_eentry entry, _, t => t = s.setCpu c fun cpu => { cpu with eentry := entry }
  | .ertn, _, t => t = s.setCpu c fun cpu => { cpu with plv := cpu.prmd.pplv, ie := cpu.prmd.pie }
  | .cpuid, r, t => r = c ∧ t = s
  | .noff, r, t => r = (s.cpu c).noff ∧ t = s
  | .set_noff n, _, t => t = s.setCpu c fun cpu => { cpu with noff := n }
  | .intena, r, t => r = (s.cpu c).intena ∧ t = s
  | .set_intena b, _, t => t = s.setCpu c fun cpu => { cpu with intena := b }
  | .cpu_proc, r, t => r = (s.cpu c).proc ∧ t = s
  | .set_cpu_proc p, _, t => t = s.setCpu c fun cpu => { cpu with proc := p }
  | .locked lk, r, t => r = (s.lock lk).locked ∧ t = s
  | .cpu_is lk, r, t => r = decide ((s.lock lk).cpu = some c) ∧ t = s
  | .test_and_set lk, r, t => r = (s.lock lk).locked ∧
      t = { s.setLock lk fun l => { l with locked := true } with
        inside := if (s.lock lk).locked then s.inside
          else Function.update s.inside lk (c :: s.inside lk) }
  | .set_cpu lk, _, t => t = s.setLock lk fun l => { l with cpu := some c }
  | .clear_cpu lk, _, t => t = s.setLock lk fun l => { l with cpu := none }
  | .sync_release lk, _, t => t = { s.setLock lk fun l => { l with locked := false } with
      inside := Function.update s.inside lk ((s.inside lk).erase c) }
  | .state p, r, t => r = (s.proc p).state ∧ t = s
  | .set_state p st, _, t => t = s.setProc p fun np => { np with state := st }
  | .chan p, r, t => r = (s.proc p).chan ∧ t = s
  | .set_chan p ch, _, t => t = s.setProc p fun np => { np with chan := ch }
  | .killed p, r, t => r = (s.proc p).killed ∧ t = s
  | .set_killed p b, _, t => t = s.setProc p fun np => { np with killed := b }
  | .parent p, r, t => r = (s.proc p).parent ∧ t = s
  | .set_parent p q, _, t => t = s.setProc p fun np => { np with parent := q }
  | .set_context p, _, t => t = { s with context := Function.update s.context (.proc p) forkret }
  | .load a, r, t => r = s.mem a ∧ t = s
  | .store a v, _, t => t = { s with mem := Function.update s.mem a v }
  | .choose, _, t => t = s
  | .swtch_to _, _, _ | .swtch_back _, _, _ | .panic _, _, _ | .fault, _, _ => False

/-- `swtch(old, new)` on processor `c`, which leaves `rest` to be done. -/
def swtch (c : Nat) (old new : Context) (rest : K Unit) : Sys :=
  { s.setCode c (s.context new) with context := Function.update s.context old rest }

/-- Processor `c` takes a trap. -/
def trap (c : Nat) (code : K Unit) : Sys :=
  s.setCpu c fun cpu =>
    { cpu with prmd := ⟨cpu.plv, cpu.ie⟩, plv := .kernel, ie := false, code }

end Sys

end AvxKernel.Sched
