import AvxKernel.Exec.Exec
import AvxKernel.Exec.Fork
import AvxKernel.Lib.Prog
import AvxKernel.Proc.Table

/-! How `proc.c` makes processes and takes them apart: `allocproc`, `freeproc`,
`fork` and `clone`, over the memory that they take from `kalloc`. The locks are
the spinlocks of the process table, numbered by place. -/
namespace AvxKernel.Life

open Vm

/-- `struct proc`. The pointer `exec_close` is `exec_close_page` here, and what it points
to is the field of that name. -/
structure Task extends Exec.Proc where
  state : Proc.ProcState
  parent : Option Nat
  chan : Option Proc.Chan
  killed : Bool
  xstate : Int
  pid : Nat
  exec_close_page : Nat
  cwd : Nat
  tmask : Int

/-- Memory, the process table, the clock, and the counts of open files and cached entries by
their addresses. -/
structure Kernel where
  ram : Ram
  proc : Nat → Task
  nextpid : Nat
  ticks : Nat
  file : Nat → Int
  ent : Nat → Int

/-- The kernel with one process changed. -/
def Kernel.put (p : Nat) (f : Task → Task) (k : Kernel) : Kernel :=
  { k with proc := Function.update k.proc p (f (k.proc p)) }

abbrev Call (α : Type) := Prog Kernel α

section Access

variable {α : Type}

def onRam (x : Machine Ram α) : Call α :=
  Prog.onState (Machine.zoom Kernel.ram (fun ram k => { k with ram }) x)

/-- A call that works on one process, which need not be the one that makes it. -/
def onTask (p : Nat) (x : Machine (Exec.Kernel Unit) α) : Call α :=
  Prog.onState (Machine.zoom (fun k => ⟨k.ram, (k.proc p).toProc, ()⟩)
    (fun e k => { k with
      ram := e.ram
      proc := Function.update k.proc p { k.proc p with toProc := e.p } }) x)

def proc (p : Nat) : Call Task := Prog.read fun k => k.proc p

def setProc (p : Nat) (f : Task → Task) : Call Unit := Prog.modify (Kernel.put p f)

end Access

def acquire (lk : Nat) : Call Unit := do
  if ← Prog.holding lk then Prog.panic "acquire" else Prog.acquire lk

def release (lk : Nat) : Call Unit := do
  if ← Prog.holding lk then Prog.release lk else Prog.panic "release"

def allocpid : Call Nat := Prog.onState do
  let k ← get
  set { k with nextpid := k.nextpid + 1 }
  return k.nextpid

def filedup (f : Nat) : Call Unit := Prog.onState do
  let k ← get
  if k.file f < 1 then
    Machine.panic "filedup"
  else
    set { k with file := Function.update k.file f (k.file f + 1) }

def edup (entry : Nat) : Call Unit := Prog.modify fun k =>
  if entry ≠ 0 then { k with ent := Function.update k.ent entry (k.ent entry + 1) } else k

variable (limit : Nat) (image : Exec.Image)

def freeproc (p : Nat) : Call Unit := do
  let pr ← proc p
  (if pr.trapframe ≠ 0 then onRam (kfree pr.trapframe) else return ())
  onRam (kfree pr.exec_close_page)
  setProc p fun pr => { pr with trapframe := 0 }
  (if pr.pagetable ≠ 0 then do
    let _ ← onTask p (Exec.free_vma_list limit)
    onRam (Exec.proc_freepagetable limit pr.pagetable pr.sz)
  else
    return ())
  setProc p fun pr => { pr with
    pagetable := 0
    vma := 0
    sz := 0
    pid := 0
    parent := none
    name := []
    chan := none
    killed := false
    xstate := 0
    state := .unused }

/-- `allocproc` from the label `found` on: the place, with its lock, or nothing. -/
def allocFound (p : Nat) : Call (Option Nat) := do
  let pid ← allocpid
  setProc p fun pr => { pr with pid, vma := 0, filelimit := NOFILE }
  let trapframe ← onRam kalloc
  setProc p fun pr => { pr with trapframe }
  if trapframe = 0 then
    release p
    return none
  else
    onRam (memset trapframe 0 PGSIZE)
    let pagetable ← onTask p (Exec.proc_pagetable limit image)
    setProc p fun pr => { pr with pagetable }
    if pagetable = 0 then
      freeproc limit p
      release p
      return none
    else
      let exec_close ← onRam kalloc
      setProc p fun pr => { pr with exec_close_page := exec_close }
      -- the table is cleared without a look at what `kalloc` gave
      if exec_close = 0 then
        Prog.halt .fault
      else
        setProc p fun pr => { pr with exec_close := fun _ => 0 }
        return some p

/-- The loop of `allocproc`, over the places that are left. -/
def allocFrom : List Nat → Call (Option Nat)
  | [] => return none
  | p :: rest => do
    acquire p
    if (← proc p).state = .unused then
      allocFound limit image p
    else
      release p
      allocFrom rest

def allocproc : Call (Option Nat) := allocFrom limit image (List.range NPROC)

/-- The size of `struct trapframe`, and where some of its registers are. -/
def TRAPFRAME_SIZE : Nat := 288
def TF_SP : Nat := 16
def TF_A0 : Nat := 24
def TF_ERA : Nat := 264

/-- A descriptor that the child shares. -/
def copyFile (p np i : Nat) : Call Unit := do
  let f := (← proc p).ofile i
  if f ≠ 0 then
    filedup f
    setProc np fun pr => { pr with ofile := Function.update pr.ofile i f }
  else
    return ()

/-- What `fork` and `clone` do once the child's memory is there, apart from the registers
that `clone` sets on top; the child runs when its lock is released. -/
def copyProcess (p np : Nat) (registers : Nat → Machine Ram Unit) : Call Int := do
  let pr ← proc p
  setProc np fun pr' => { pr' with sz := pr.sz, parent := some p, tmask := pr.tmask }
  let trapframe := (← proc np).trapframe
  onRam do
    memmove trapframe pr.trapframe TRAPFRAME_SIZE
    Exec.poke (trapframe + TF_A0) 8 0
  (List.range NOFILE).forM (copyFile p np)
  edup pr.cwd
  setProc np fun pr' => { pr' with cwd := pr.cwd, name := pr.name }
  let pid := (← proc np).pid
  setProc np fun pr' => { pr' with state := .runnable }
  onRam (registers trapframe)
  release np
  return pid

/-- The loop of `fork` that copies the pages of the areas, if there is a list of them. -/
def mapAreas (old new head : Nat) : Machine Ram Int :=
  if head ≠ 0 then do
    let first ← Exec.vma_next head
    Machine.loop (Exec.mapRound old new head) limit first
  else
    return 0

/-- The child's heap, -1 if there is no memory for it. -/
def copyHeap (p np : Nat) : Call Int := do
  let pr ← proc p
  let pagetable := (← proc np).pagetable
  onRam (uvmcopy pr.pagetable pagetable pr.sz)

/-- The child's areas, -1 if there is no memory for their pages. -/
def copyAreas (p np : Nat) : Call Int := do
  let pr ← proc p
  let pagetable := (← proc np).pagetable
  let head ← onRam (Exec.vma_copy limit pr.vma)
  setProc np fun pr' => { pr' with vma := head }
  onRam (mapAreas limit pr.pagetable pagetable head)

/-- `fork` and `clone`, for the process `p` that calls them. -/
def forkWith (p : Nat) (registers : Nat → Machine Ram Unit) : Call Int := do
  match ← allocproc limit image with
  | none => return -1
  | some np =>
    if (← copyHeap p np) < 0 then
      freeproc limit np
      release np
      return -1
    else if (← copyAreas limit p np) < 0 then
      return -1
    else
      copyProcess p np registers

def fork (p : Nat) : Call Int := forkWith limit image p fun _ => return ()

def clone (p new_stack new_fn : Nat) : Call Int := forkWith limit image p fun trapframe => do
  Exec.poke (trapframe + TF_ERA) 8 new_fn
  Exec.poke (trapframe + TF_SP) 8 new_stack

end AvxKernel.Life
