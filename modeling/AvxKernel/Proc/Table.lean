import AvxKernel.Params
import Mathlib.Logic.Function.Basic

/-! The process table of `proc.c` and the calls that make, end and await a
process, one step for each stretch between two lock operations. A stretch that
takes a lock and gives it back before it takes another is one step, which waits
for that lock. -/
namespace AvxKernel.Proc

inductive ProcState where
  | unused
  | sleeping
  | runnable
  | running
  | zombie
deriving DecidableEq

/-- What a process sleeps on: the address of a place in the table, or any other. -/
inductive Chan where
  | proc (p : Nat)
  | other (n : Nat)
deriving DecidableEq

/-- What of `struct proc` the calls below read or write. -/
structure Slot where
  state : ProcState
  parent : Option Nat
  chan : Option Chan
  killed : Bool
  xstate : BitVec 32
  pid : Nat

/-- Where in the kernel a process is. -/
inductive Pc where
  /-- There is no process. -/
  | idle
  /-- In none of the calls below. -/
  | user
  /-- In `exit`: about to read its parent. -/
  | exitParent (status : BitVec 32)
  /-- About to take the lock of the parent it has read. -/
  | exitLockParent (status : BitVec 32) (original_parent : Nat)
  /-- About to take its own. -/
  | exitLockSelf (status : BitVec 32) (original_parent : Nat)
  /-- In the loop of `reparent`, at place `pp`. -/
  | exitReparent (status : BitVec 32) (original_parent pp : Nat)
  /-- In `sched`, for the last time. -/
  | exitSched
  | dead
  /-- In the loop of `wait`, at place `np`. -/
  | wait (np : Nat) (havekids : Bool)
  | waitSleep
  /-- In the loop of `findchild`, at place `np`; no `pid` stands for -1. -/
  | wait4pid (pid : Option Nat) (np : Nat) (tchild : Option Nat)
  | wait4pidSleep (pid : Option Nat) (tchild : Nat)
  /-- In the loop of `allocproc`, at place `np`. -/
  | allocproc (np : Nat)
  /-- In `fork`, with the child's lock. -/
  | fork (np : Nat)
  /-- In `fork`, once the child has its parent. -/
  | forkParent (np : Nat)
deriving DecidableEq

/-- A process that has been reaped, numbered in the order of creation, with the
process that has done it and the parent it had. -/
structure Reaped where
  born : Nat
  reaper : Nat
  parent : Option Nat

/-- The table, who holds each lock, and where each process is. The last four are
for the record, which no function reads: how many processes have been made, the
number of the process in each place, and which have exited and been reaped. -/
structure Sys where
  proc : Nat → Slot
  lock : Nat → Option Nat
  pc : Nat → Pc
  nextpid : Nat
  births : Nat
  born : Nat → Nat
  exited : List Nat
  reaped : List Reaped

namespace Sys

variable (s : Sys)

def goto (p : Nat) (pc : Pc) : Sys := { s with pc := Function.update s.pc p pc }

def put (q : Nat) (f : Slot → Slot) : Sys :=
  { s with proc := Function.update s.proc q (f (s.proc q)) }

/-- `acquire(&q->lock)` by `p` -/
def acquire (q p : Nat) : Sys := { s with lock := Function.update s.lock q (some p) }

/-- `release(&q->lock)` -/
def release (q : Nat) : Sys := { s with lock := Function.update s.lock q none }

end Sys

/-- Sleeps on the channel until it is woken up. -/
def Slot.sleep (np : Slot) (chan : Chan) : Slot := { np with chan := some chan, state := .sleeping }

/-- Goes on after a sleep. -/
def Slot.resume (np : Slot) : Slot := { np with chan := none, state := .running }

/-- Made runnable if it sleeps on the channel. -/
def Slot.wakeup (np : Slot) (chan : Chan) : Slot :=
  if np.chan = some chan ∧ np.state = .sleeping then { np with state := .runnable } else np

/-- `freeproc`, as far as these fields go. -/
def Slot.freeproc (np : Slot) : Slot :=
  { np with pid := 0, parent := none, chan := none, killed := false, xstate := 0, state := .unused }

/-- The wakeups of `exit`: the parent may wait for any child or for this one. -/
def Sys.wakeParent (s : Sys) (original_parent p : Nat) : Sys :=
  s.put original_parent fun q => (q.wakeup (.proc original_parent)).wakeup (.proc p)

/-- `np` has been found to have exited, and is freed by `p`. -/
def Sys.reap (s : Sys) (p np : Nat) : Sys :=
  let reaped := ⟨s.born np, p, (s.proc np).parent⟩ :: s.reaped
  { (((s.put np Slot.freeproc).goto np .idle).release p).goto p .user with reaped }

/-- Whether `wait4pid` waits for a process. -/
def Matches (pid : Option Nat) (np : Slot) : Prop := ∀ n, pid = some n → np.pid = n

instance (pid : Option Nat) (np : Slot) : Decidable (Matches pid np) :=
  match pid with
  | none => isTrue fun _ h => nomatch h
  | some n => decidable_of_iff (np.pid = n) ⟨fun h _ e => h.trans (Option.some.inj e),
      fun h => h n rfl⟩

/-- The channel on which `wait4pid` sleeps. -/
def waitChan (p : Nat) (pid : Option Nat) (tchild : Nat) : Chan :=
  if pid = none then .proc p else .proc tchild

/-- A process that is running. -/
def Sys.Runs (s : Sys) (p : Nat) : Prop := p < NPROC ∧ (s.proc p).state = .running

variable (init : Nat)

/-- A step of process `p`. -/
inductive Step (s : Sys) (p : Nat) : Sys → Prop
  /-- `exit` begins by waking up the first process, and is not for that one. -/
  | exit (status : BitVec 32) (run : s.Runs p) (at_pc : s.pc p = .user) (other : p ≠ init)
    (free : s.lock init = none) :
    Step s p ((s.put init fun q => q.wakeup (.proc init)).goto p (.exitParent status))
  | exitParent (status : BitVec 32) (original_parent : Nat) (run : s.Runs p)
    (at_pc : s.pc p = .exitParent status) (free : s.lock p = none)
    (parent : (s.proc p).parent = some original_parent) :
    Step s p (s.goto p (.exitLockParent status original_parent))
  | exitLockParent (status : BitVec 32) (original_parent : Nat) (run : s.Runs p)
    (at_pc : s.pc p = .exitLockParent status original_parent)
    (free : s.lock original_parent = none) :
    Step s p ((s.acquire original_parent p).goto p (.exitLockSelf status original_parent))
  | exitLockSelf (status : BitVec 32) (original_parent : Nat) (run : s.Runs p)
    (at_pc : s.pc p = .exitLockSelf status original_parent) (free : s.lock p = none) :
    Step s p ((s.acquire p p).goto p (.exitReparent status original_parent 0))
  | reparent (status : BitVec 32) (original_parent pp : Nat) (run : s.Runs p)
    (at_pc : s.pc p = .exitReparent status original_parent pp) (inside : pp < NPROC)
    (child : (s.proc pp).parent = some p) (free : s.lock pp = none) :
    Step s p ((s.put pp fun q => { q with parent := some init }).goto p
      (.exitReparent status original_parent (pp + 1)))
  | reparentNext (status : BitVec 32) (original_parent pp : Nat) (run : s.Runs p)
    (at_pc : s.pc p = .exitReparent status original_parent pp) (inside : pp < NPROC)
    (other : (s.proc pp).parent ≠ some p) :
    Step s p (s.goto p (.exitReparent status original_parent (pp + 1)))
  | exitZombie (status : BitVec 32) (original_parent : Nat) (run : s.Runs p)
    (at_pc : s.pc p = .exitReparent status original_parent NPROC) :
    Step s p { ((((s.wakeParent original_parent p).put p fun q =>
        { q with xstate := status, state := .zombie }).release original_parent).goto p
        .exitSched) with exited := s.born p :: s.exited }
  /-- The scheduler gives the lock back. -/
  | exitSched (at_pc : s.pc p = .exitSched) : Step s p ((s.release p).goto p .dead)
  | wait (run : s.Runs p) (at_pc : s.pc p = .user) (free : s.lock p = none) :
    Step s p ((s.acquire p p).goto p (.wait 0 false))
  | waitNext (np : Nat) (havekids : Bool) (run : s.Runs p)
    (at_pc : s.pc p = .wait np havekids) (inside : np < NPROC)
    (other : (s.proc np).parent ≠ some p) : Step s p (s.goto p (.wait (np + 1) havekids))
  | waitChild (np : Nat) (havekids : Bool) (run : s.Runs p)
    (at_pc : s.pc p = .wait np havekids) (inside : np < NPROC)
    (child : (s.proc np).parent = some p) (free : s.lock np = none)
    (alive : (s.proc np).state ≠ .zombie) : Step s p (s.goto p (.wait (np + 1) true))
  /-- The status cannot be copied out. -/
  | waitFail (np : Nat) (havekids : Bool) (run : s.Runs p)
    (at_pc : s.pc p = .wait np havekids) (inside : np < NPROC)
    (child : (s.proc np).parent = some p) (free : s.lock np = none)
    (zombie : (s.proc np).state = .zombie) : Step s p ((s.release p).goto p .user)
  | waitReap (np : Nat) (havekids : Bool) (run : s.Runs p)
    (at_pc : s.pc p = .wait np havekids) (inside : np < NPROC)
    (child : (s.proc np).parent = some p) (free : s.lock np = none)
    (zombie : (s.proc np).state = .zombie) : Step s p (s.reap p np)
  | waitNone (havekids : Bool) (run : s.Runs p) (at_pc : s.pc p = .wait NPROC havekids)
    (nothing : havekids = false ∨ (s.proc p).killed) : Step s p ((s.release p).goto p .user)
  | waitSleep (run : s.Runs p) (at_pc : s.pc p = .wait NPROC true)
    (going : (s.proc p).killed = false) :
    Step s p (((s.put p fun q => q.sleep (.proc p)).release p).goto p .waitSleep)
  | waitResume (inside : p < NPROC) (ready : (s.proc p).state = .runnable)
    (at_pc : s.pc p = .waitSleep) (free : s.lock p = none) :
    Step s p (((s.put p Slot.resume).acquire p p).goto p (.wait 0 false))
  | wait4pid (pid : Option Nat) (run : s.Runs p) (at_pc : s.pc p = .user)
    (free : s.lock p = none) : Step s p ((s.acquire p p).goto p (.wait4pid pid 0 none))
  | wait4pidNext (pid : Option Nat) (np : Nat) (tchild : Option Nat) (run : s.Runs p)
    (at_pc : s.pc p = .wait4pid pid np tchild) (inside : np < NPROC)
    (other : ¬(Matches pid (s.proc np) ∧ (s.proc np).parent = some p)) :
    Step s p (s.goto p (.wait4pid pid (np + 1) tchild))
  | wait4pidChild (pid : Option Nat) (np : Nat) (tchild : Option Nat) (run : s.Runs p)
    (at_pc : s.pc p = .wait4pid pid np tchild) (inside : np < NPROC)
    (wanted : Matches pid (s.proc np)) (child : (s.proc np).parent = some p)
    (free : s.lock np = none) (alive : (s.proc np).state ≠ .zombie) :
    Step s p (s.goto p (.wait4pid pid (np + 1) (some np)))
  | wait4pidFail (pid : Option Nat) (np : Nat) (tchild : Option Nat) (run : s.Runs p)
    (at_pc : s.pc p = .wait4pid pid np tchild) (inside : np < NPROC)
    (wanted : Matches pid (s.proc np)) (child : (s.proc np).parent = some p)
    (free : s.lock np = none) (zombie : (s.proc np).state = .zombie) :
    Step s p (((s.put np fun q => { q with xstate := q.xstate <<< 8 }).release p).goto p .user)
  | wait4pidReap (pid : Option Nat) (np : Nat) (tchild : Option Nat) (run : s.Runs p)
    (at_pc : s.pc p = .wait4pid pid np tchild) (inside : np < NPROC)
    (wanted : Matches pid (s.proc np)) (child : (s.proc np).parent = some p)
    (free : s.lock np = none) (zombie : (s.proc np).state = .zombie) : Step s p (s.reap p np)
  | wait4pidNone (pid : Option Nat) (run : s.Runs p) (at_pc : s.pc p = .wait4pid pid NPROC none) :
    Step s p ((s.release p).goto p .user)
  | wait4pidSleep (pid : Option Nat) (tchild : Nat) (run : s.Runs p)
    (at_pc : s.pc p = .wait4pid pid NPROC (some tchild)) :
    Step s p (((s.put p fun q => q.sleep (waitChan p pid tchild)).release p).goto p
      (.wait4pidSleep pid tchild))
  | wait4pidResume (pid : Option Nat) (tchild : Nat) (inside : p < NPROC)
    (ready : (s.proc p).state = .runnable) (at_pc : s.pc p = .wait4pidSleep pid tchild)
    (free : s.lock p = none) :
    Step s p (((s.put p Slot.resume).acquire p p).goto p (.wait4pid pid 0 none))
  | fork (run : s.Runs p) (at_pc : s.pc p = .user) : Step s p (s.goto p (.allocproc 0))
  | allocprocNext (np : Nat) (run : s.Runs p) (at_pc : s.pc p = .allocproc np)
    (inside : np < NPROC) (free : s.lock np = none) (used : (s.proc np).state ≠ .unused) :
    Step s p (s.goto p (.allocproc (np + 1)))
  | allocprocNone (run : s.Runs p) (at_pc : s.pc p = .allocproc NPROC) :
    Step s p (s.goto p .user)
  /-- The counter is an `int`, which must not overflow. -/
  | allocpid (np : Nat) (run : s.Runs p) (at_pc : s.pc p = .allocproc np) (inside : np < NPROC)
    (free : s.lock np = none) (unused : (s.proc np).state = .unused)
    (narrow : s.nextpid + 1 < 2 ^ 31) :
    Step s p { (((s.put np fun q => { q with pid := s.nextpid }).acquire np p).goto p
        (.fork np)) with
      nextpid := s.nextpid + 1
      births := s.births + 1
      born := Function.update s.born np s.births }
  /-- No memory for the trap frame. -/
  | allocprocFail (np : Nat) (run : s.Runs p) (at_pc : s.pc p = .fork np) :
    Step s p ((s.release np).goto p .user)
  /-- No memory for the page table or for the child's pages. -/
  | forkFail (np : Nat) (run : s.Runs p) (at_pc : s.pc p = .fork np) :
    Step s p (((s.put np Slot.freeproc).release np).goto p .user)
  /-- `vma_map` fails: the child's lock is not given back. -/
  | forkStuck (np : Nat) (run : s.Runs p) (at_pc : s.pc p = .fork np) :
    Step s p (s.goto p .user)
  | forkParent (np : Nat) (run : s.Runs p) (at_pc : s.pc p = .fork np) :
    Step s p ((s.put np fun q => { q with parent := some p }).goto p (.forkParent np))
  | forkDone (np : Nat) (run : s.Runs p) (at_pc : s.pc p = .forkParent np) :
    Step s p ((((s.put np fun q => { q with state := .runnable }).release np).goto np .user).goto p
      .user)
  /-- Any other sleep. -/
  | sleep (n : Nat) (run : s.Runs p) (at_pc : s.pc p = .user) (free : s.lock p = none) :
    Step s p (s.put p fun q => q.sleep (.other n))
  | yield (run : s.Runs p) (free : s.lock p = none) :
    Step s p (s.put p fun q => { q with state := .runnable })
  /-- The scheduler chooses a process that does not go on inside a wait. -/
  | schedule (inside : p < NPROC) (ready : (s.proc p).state = .runnable) (free : s.lock p = none)
    (other : s.pc p ≠ .waitSleep ∧ ∀ pid tchild, s.pc p ≠ .wait4pidSleep pid tchild) :
    Step s p (s.put p Slot.resume)
  /-- `kill`, or the `wakeup` of what sleeps on a channel, which leaves `killed` as it
  is. -/
  | rouse (q : Nat) (killed : Bool) (run : s.Runs p) (inside : q < NPROC)
    (free : s.lock q = none) :
    Step s p (s.put q fun np =>
      { np with killed, state := if np.state = .sleeping then .runnable else np.state })

/-- The first process, on its own. -/
structure Sys.Start (s : Sys) : Prop where
  inside : init < NPROC
  first : (s.proc init).state = .runnable ∧ (s.proc init).parent = none ∧
    0 < (s.proc init).pid ∧ (s.proc init).pid < s.nextpid ∧ s.born init < s.births ∧
    s.pc init = .user
  others : ∀ q, q ≠ init → (s.proc q).state = .unused ∧ (s.proc q).parent = none ∧
    (s.proc q).pid = 0 ∧ s.pc q = .idle
  unlocked : ∀ q, s.lock q = none
  exited : s.exited = []
  reaped : s.reaped = []

end AvxKernel.Proc
