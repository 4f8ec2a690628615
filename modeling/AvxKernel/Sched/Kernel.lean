import AvxKernel.Sched.Cpu

/-! `intr.c`, `spinlock.c`, `sleeplock.c`, the part of `proc.c` that switches between
processes, and `trap.c`, as far as they take locks, turn interrupts off and on, or switch
contexts. -/
namespace AvxKernel.Sched

open Code (perform repeatFrom each)
open Proc (ProcState Chan)

variable {α : Type}

/-! ### The operations -/

def intr_get : K Bool := perform Op.intr_get
def intr_off : K Unit := perform Op.intr_off
def intr_on : K Unit := perform Op.intr_on
def r_csr_prmd : K Prmd := perform Op.prmd
def w_csr_prmd (r : Prmd) : K Unit := perform (Op.set_prmd r)
def w_csr_eentry (entry : Eentry) : K Unit := perform (Op.set_eentry entry)
def ertn : K Unit := perform Op.ertn
def cpuid : K Nat := perform Op.cpuid
def noff : K Nat := perform Op.noff
def set_noff (n : Nat) : K Unit := perform (Op.set_noff n)
def intena : K Bool := perform Op.intena
def set_intena (b : Bool) : K Unit := perform (Op.set_intena b)
def cpu_proc : K (Option Nat) := perform Op.cpu_proc
def set_cpu_proc (p : Option Nat) : K Unit := perform (Op.set_cpu_proc p)
def locked (lk : Lock) : K Bool := perform (Op.locked lk)
def cpu_is (lk : Lock) : K Bool := perform (Op.cpu_is lk)
def test_and_set (lk : Lock) : K Bool := perform (Op.test_and_set lk)
def set_cpu (lk : Lock) : K Unit := perform (Op.set_cpu lk)
def clear_cpu (lk : Lock) : K Unit := perform (Op.clear_cpu lk)
def sync_release (lk : Lock) : K Unit := perform (Op.sync_release lk)
def state (p : Nat) : K ProcState := perform (Op.state p)
def set_state (p : Nat) (st : ProcState) : K Unit := perform (Op.set_state p st)
def chan (p : Nat) : K (Option Chan) := perform (Op.chan p)
def set_chan (p : Nat) (ch : Option Chan) : K Unit := perform (Op.set_chan p ch)
def killed (p : Nat) : K Bool := perform (Op.killed p)
def set_killed (p : Nat) (b : Bool) : K Unit := perform (Op.set_killed p b)
def parent (p : Nat) : K (Option Nat) := perform (Op.parent p)
def set_parent (p : Nat) (q : Option Nat) : K Unit := perform (Op.set_parent p q)
def set_context (p : Nat) : K Unit := perform (Op.set_context p)
def swtch_to (p : Nat) : K Unit := perform (Op.swtch_to p)
def swtch_back (p : Nat) : K Unit := perform (Op.swtch_back p)
def load (a : Nat) : K Nat := perform (Op.load a)
def store (a v : Nat) : K Unit := perform (Op.store a v)
def choose : K Bool := perform Op.choose

def panic (message : String) : K α := .op (.panic message) nofun

def fault : K α := .op .fault nofun

/-- Goes round until the body returns false. -/
def loopWhile (body : K Bool) : K Unit :=
  repeatFrom () fun _ => do
    if ← body then
      return .inl ()
    else
      return .inr ()

/-! ### `intr.c` -/

def push_off : K Unit := do
  let old ← intr_get
  intr_off
  if (← noff) = 0 then
    set_intena old
  set_noff ((← noff) + 1)

def pop_off : K Unit := do
  if ← intr_get then
    panic "pop_off - interruptible"
  if (← noff) < 1 then
    panic "pop_off"
  set_noff ((← noff) - 1)
  if (← noff) = 0 then
    if ← intena then
      intr_on

/-! ### `spinlock.c` -/

def holding (lk : Lock) : K Bool := do
  if ← locked lk then
    cpu_is lk
  else
    return false

def acquire (lk : Lock) : K Unit := do
  push_off
  if ← holding lk then
    panic "acquire"
  loopWhile (test_and_set lk)
  set_cpu lk

def release (lk : Lock) : K Unit := do
  if !(← holding lk) then
    panic "release"
  clear_cpu lk
  sync_release lk
  pop_off

/-! ### `proc.c` -/

def myproc : K (Option Nat) := do
  push_off
  let p ← cpu_proc
  pop_off
  return p

/-- `myproc()`, which is then dereferenced. -/
def thisproc : K Nat := do
  match ← myproc with
  | some p => return p
  | none => fault

def sched : K Unit := do
  let p ← thisproc
  if !(← holding (.proc p)) then
    panic "sched p->lock"
  if (← noff) ≠ 1 then
    panic "sched locks"
  if (← state p) = .running then
    panic "sched running"
  if ← intr_get then
    panic "sched interruptible"
  let saved ← intena
  swtch_back p
  set_intena saved

def yield : K Unit := do
  let p ← thisproc
  acquire (.proc p)
  set_state p .runnable
  sched
  release (.proc p)

def sleep (ch : Chan) (lk : Lock) : K Unit := do
  let p ← thisproc
  if lk ≠ .proc p then
    acquire (.proc p)
    release lk
  set_chan p (some ch)
  set_state p .sleeping
  sched
  set_chan p none
  if lk ≠ .proc p then
    release (.proc p)
    acquire lk

/-- Makes the process runnable if it sleeps on the channel. -/
def rouse (p : Nat) (ch : Chan) : K Unit := do
  if (← state p) = .sleeping then
    if (← chan p) = some ch then
      set_state p .runnable

/-- The same, with the channel looked at first. -/
def rouse1 (p : Nat) (ch : Chan) : K Unit := do
  if (← chan p) = some ch then
    if (← state p) = .sleeping then
      set_state p .runnable

def wakeup (ch : Chan) : K Unit :=
  each (fun p => do
    acquire (.proc p)
    rouse p ch
    release (.proc p)) (List.range NPROC)

def wakeup1 (p : Nat) : K Unit := do
  if !(← holding (.proc p)) then
    panic "wakeup1"
  rouse1 p (.proc p)

/-- The process that has the pid, if there is one, gets a signal, which is 0 if `b` is
false. -/
def kill (victim : Option Nat) (b : Bool) : List Nat → K Unit
  | [] => return
  | p :: rest => do
    acquire (.proc p)
    if victim = some p then
      set_killed p b
      if (← state p) = .sleeping then
        set_state p .runnable
      release (.proc p)
    else
      release (.proc p)
      kill victim b rest

/-- What the code below names outside of the table of processes: locks, channels and the
flag of `forkret`, the first process, what a process that exits does with its files, and
what the first process does with the disk. -/
structure Names where
  pid_lock : Nat
  kmem_lock : Nat
  ftable_lock : Nat
  ecache_lock : Nat
  pr_lock : Nat
  tickslock : Nat
  ticks : Nat
  cons_lock : Nat
  cons_r : Nat
  uart_tx_lock : Nat
  uart_tx_r : Nat
  first : Nat
  initproc : Nat
  closing : K Unit
  boot : K Unit
  apart : pr_lock ≠ cons_lock

variable (names : Names)

/-- A section of which only the lock matters. -/
def guarded (lk : Nat) : K Unit := do
  acquire (.other lk)
  release (.other lk)

/-- As many rounds as it takes. -/
def some_rounds (body : K Unit) : K Unit :=
  loopWhile do
    if ← choose then
      body
      return true
    else
      return false

def uartputc_sync : K Unit := do
  push_off
  loopWhile choose
  pop_off

def printf : K Unit := do
  acquire (.other names.pr_lock)
  some_rounds uartputc_sync
  release (.other names.pr_lock)

def allocpid : K Unit := guarded names.pid_lock

/-- `kalloc`, with what it returns: whether there is a page. -/
def kalloc (page : Bool) : K Bool := do
  guarded names.kmem_lock
  if page then
    return true
  else
    printf names
    return false

/-- `kfree`. A null pointer is no page. -/
def kfree (page : Bool) : K Unit := do
  if page then
    guarded names.kmem_lock
  else
    panic "kfree"

/-- Takes pages and gives them back, and says whether there were enough. -/
def pages : K Bool := do
  some_rounds do
    let _ ← kalloc names (← choose)
  choose

/-- `exec_close` says whether the field is the address of a page. -/
def freeproc (exec_close : Bool) (p : Nat) : K Unit := do
  kfree names true
  kfree names exec_close
  let _ ← pages names
  guarded names.kmem_lock
  set_parent p none
  set_chan p none
  set_killed p false
  set_state p .unused

/-- What `fork` and `clone` are answered: whether there are pages for the new process's
page table, and one for `exec_close`, and whether `vma_map` copies every area. -/
structure Answers where
  pagetable : Bool
  exec_close : Bool
  mapped : Bool
deriving DecidableEq

/-- Returns with the lock of the process that it has found. The page for `exec_close` is
written without a look at whether there is one; in a place that no process has had, the
field is null until then. -/
def allocproc (answers : Answers) : List Nat → K (Option Nat)
  | [] => return none
  | np :: rest => do
    acquire (.proc np)
    if (← state np) = .unused then
      allocpid names
      guarded names.kmem_lock
      if ← kalloc names (← choose) then
        let _ ← pages names
        if answers.pagetable then
          if ← kalloc names answers.exec_close then
            set_context np
            return some np
          else
            fault
        else
          freeproc names (← choose) np
          release (.proc np)
          return none
      else
        release (.proc np)
        return none
    else
      release (.proc np)
      allocproc answers rest

/-- `fork` and `clone`. Where an area is not copied, they return with the lock of the new
process. -/
def fork (answers : Answers) : K Unit := do
  let p ← thisproc
  match ← allocproc names answers (List.range NPROC) with
  | none => return
  | some np =>
    if ← pages names then
      let _ ← pages names
      if answers.mapped then
        set_parent np (some p)
        some_rounds (guarded names.ftable_lock)
        guarded names.ecache_lock
        set_state np .runnable
        release (.proc np)
      else
        printf names
    else
      freeproc names true np
      release (.proc np)

def reparent (p : Nat) : K Unit :=
  each (fun pp => do
    if (← parent pp) = some p then
      acquire (.proc pp)
      set_parent pp (some names.initproc)
      release (.proc pp)) (List.range NPROC)

def exit : K Unit := do
  let p ← thisproc
  if p = names.initproc then
    panic "init exiting"
  names.closing
  acquire (.proc names.initproc)
  wakeup1 names.initproc
  release (.proc names.initproc)
  acquire (.proc p)
  let original_parent ← parent p
  release (.proc p)
  match original_parent with
  | none => fault
  | some original_parent =>
    acquire (.proc original_parent)
    acquire (.proc p)
    reparent names p
    wakeup1 original_parent
    rouse1 original_parent (.proc p)
    set_state p .zombie
    release (.proc original_parent)
    sched
    panic "zombie exit"

/-- The loop of `wait` over the table: it returns whether there are children, or nothing
once there is an answer. -/
def waitScan (p : Nat) : List Nat → Bool → K (Option Bool)
  | [], havekids => return some havekids
  | np :: rest, havekids => do
    if (← parent np) = some p then
      acquire (.proc np)
      if (← state np) = .zombie then
        if ← choose then
          release (.proc np)
          release (.proc p)
          return none
        else
          freeproc names true np
          release (.proc np)
          release (.proc p)
          return none
      else
        release (.proc np)
        waitScan p rest true
    else
      waitScan p rest havekids

def wait : K Unit := do
  let p ← thisproc
  acquire (.proc p)
  loopWhile do
    match ← waitScan names p (List.range NPROC) false with
    | none => return false
    | some havekids =>
      if havekids = false ∨ (← killed p) then
        release (.proc p)
        return false
      else
        sleep (.proc p) (.proc p)
        return true

/-- The child, with its lock, if it is a zombie, and the last child that was looked at.
`any` stands for the pid -1. -/
def findchild (any : Bool) (p : Nat) : List Nat → Option Nat → K (Option Nat × Option Nat)
  | [], child => return (none, child)
  | np :: rest, child => do
    if any ∨ (← choose) then
      if (← parent np) = some p then
        acquire (.proc np)
        if (← state np) = .zombie then
          return (some np, some np)
        else
          release (.proc np)
          findchild any p rest (some np)
      else
        findchild any p rest child
    else
      findchild any p rest child

def wait4pid (any : Bool) : K Unit := do
  let p ← thisproc
  acquire (.proc p)
  loopWhile do
    match ← findchild any p (List.range NPROC) none with
    | (some child, _) =>
      if ← choose then
        release (.proc child)
        release (.proc p)
        return false
      else
        freeproc names true child
        release (.proc child)
        release (.proc p)
        return false
    | (none, none) =>
      release (.proc p)
      return false
    | (none, some tchild) =>
      sleep (.proc (if any then p else tchild)) (.proc p)
      return true

/-! ### `sleeplock.c` -/

/-- `struct sleeplock`: its spin lock, and where `locked` and `pid` are. -/
structure Sleeplock where
  lk : Nat
  locked : Nat
  pid : Nat
  chan : Nat

def acquiresleep (lk : Sleeplock) : K Unit := do
  acquire (.other lk.lk)
  loopWhile do
    if (← load lk.locked) ≠ 0 then
      sleep (.other lk.chan) (.other lk.lk)
      return true
    else
      return false
  store lk.locked 1
  let p ← thisproc
  store lk.pid p
  release (.other lk.lk)

def releasesleep (lk : Sleeplock) : K Unit := do
  acquire (.other lk.lk)
  store lk.locked 0
  store lk.pid 0
  wakeup (.other lk.chan)
  release (.other lk.lk)

def holdingsleep (lk : Sleeplock) : K Bool := do
  acquire (.other lk.lk)
  let mut r := false
  if (← load lk.locked) ≠ 0 then
    let pid ← load lk.pid
    r := decide (pid = (← thisproc))
  release (.other lk.lk)
  return r

/-! ### `console.c` and `uart.c`, in an interrupt -/

/-- Which character has come, and how it is echoed, is left open. -/
def consoleintr : K Unit := do
  acquire (.other names.cons_lock)
  if ← choose then
    some_rounds (printf names)
  else
    some_rounds uartputc_sync
    if ← choose then
      wakeup (.other names.cons_r)
  release (.other names.cons_lock)

def uartstart : K Unit := some_rounds (wakeup (.other names.uart_tx_r))

def uartintr : K Unit := do
  some_rounds (consoleintr names)
  acquire (.other names.uart_tx_lock)
  uartstart names
  release (.other names.uart_tx_lock)

/-! ### `trap.c` -/

inductive Irq where
  | uart
  | timer
  /-- Another one. -/
  | unexpected
deriving DecidableEq

/-- Why a trap is taken. -/
inductive Cause where
  | interrupt (irq : Irq)
  /-- A page fault, of which nothing is done. -/
  | pageFault
  /-- A system call, with what its handler does. -/
  | syscall (handler : K Unit)
  | exception

def clockintr : K Unit := do
  acquire (.other names.tickslock)
  wakeup (.other names.ticks)
  release (.other names.tickslock)

/-- 2 for the timer, 1 for other devices, 0 for what is no interrupt. -/
def devintr : Cause → K Nat
  | .interrupt .uart => do
    uartintr names
    return 1
  | .interrupt .unexpected => do
    printf names
    return 1
  | .interrupt .timer => do
    if (← cpuid) = 0 then
      clockintr names
      uartintr names
    return 2
  | _ => return 0

/-- `kernelvec` and `kerneltrap`. -/
def kerneltrap (cause : Cause) : K Unit := do
  let prmd ← r_csr_prmd
  if prmd.pplv ≠ .kernel then
    panic "kerneltrap: not from privilege0"
  if ← intr_get then
    panic "kerneltrap: interrupts enabled"
  let which_dev ← devintr names cause
  if which_dev = 0 then
    panic "kerneltrap"
  if which_dev = 2 then
    if (← myproc) ≠ none then
      let _p ← thisproc
    if (← myproc) ≠ none then
      if (← state (← thisproc)) = .running then
        yield
  w_csr_prmd prmd
  ertn

/-- `usertrapret` and `userret`. -/
def usertrapret : K Unit := do
  let _p ← thisproc
  intr_off
  w_csr_eentry .uservec
  let x ← r_csr_prmd
  w_csr_prmd { x with pplv := .user, pie := true }
  ertn

/-- `uservec` and `usertrap`. -/
def usertrap (cause : Cause) : K Unit := do
  let prmd ← r_csr_prmd
  if prmd.pplv = .kernel then
    panic "usertrap: not from user mode"
  w_csr_eentry .kernelvec
  let p ← thisproc
  let mut which_dev := 0
  match cause with
  | .syscall handler =>
    if ← killed p then
      exit names
    intr_on
    handler
  | .pageFault => printf names
  | _ =>
    which_dev ← devintr names cause
    if which_dev = 0 then
      let _p ← thisproc
      some_rounds (printf names)
      set_killed p true
  if ← killed p then
    exit names
  if which_dev = 2 then
    yield
  usertrapret

/-- Where a new process begins, with its lock held by the scheduler. -/
def forkret : K Unit := do
  let p ← thisproc
  release (.proc p)
  if (← load names.first) ≠ 0 then
    store names.first 0
    names.boot
    let _p ← thisproc
  usertrapret

/-! ### `scheduler` -/

/-- One round over the table, which returns whether a process was found. -/
def schedule : List Nat → Bool → K Bool
  | [], found => return found
  | p :: rest, found => do
    acquire (.proc p)
    if (← state p) = .runnable then
      set_state p .running
      set_cpu_proc (some p)
      swtch_to p
      set_cpu_proc none
      release (.proc p)
      schedule rest true
    else
      release (.proc p)
      schedule rest found

def scheduler : K Unit := do
  set_cpu_proc none
  loopWhile do
    intr_on
    let found ← schedule (List.range NPROC) false
    if !found then
      intr_on
    return true

end AvxKernel.Sched
