import AvxKernel.Lib.Machine
import AvxKernel.Params
import Mathlib.Logic.Function.Basic

/-! `file.c`: the table of open files, and the descriptors of the processes,
which point into it. What lies below, the directory entries, the pipes and user
memory, is a parameter: its state, its entries and its calls. -/
namespace AvxKernel.Fd

def NFILE : Nat := 100

inductive FileType where
  | none
  | pipe
  | entry
  | device
  | sock
  /-- `/dev/null`. -/
  | null
deriving DecidableEq

variable {σ E P : Type}

/-- `struct file`, without its device, its socket and its times. A pointer that is
not set is none. -/
structure File (E P : Type) where
  type : FileType
  ref : Nat
  readable : Bool
  writable : Bool
  pipe : Option P
  ep : Option E
  off : Nat

inductive ProcState where
  | unused
  | live
  | zombie
deriving DecidableEq

/-- What of a process bears on its files. -/
structure Proc (E : Type) where
  state : ProcState
  ofile : Nat → Option Nat
  filelimit : Nat
  exec_close : Nat → Nat
  cwd : Option E

/-- `ftable.file` and `proc`, over the state of the rest. -/
structure Kernel (σ E P : Type) where
  file : Nat → File E P
  proc : Nat → Proc E
  below : σ

abbrev Call (σ E P α : Type) := Machine (Kernel σ E P) α

/-- How `fork` fares with the memory of the child. -/
inductive ForkCopy where
  | done
  /-- `uvmcopy` fails. -/
  | uvmcopy
  /-- `vma_map` fails. -/
  | vma_map
deriving DecidableEq

abbrev Path := List UInt8

def cstr (s : String) : Path := s.toList.map fun c => UInt8.ofNat c.toNat

/-- The calls into the rest of the kernel. -/
structure Below (σ E P : Type) where
  attr : σ → E → Nat
  file_size : σ → E → Nat
  /-- `new_lookup_path` from an entry, or from the working directory given. -/
  new_ename : Option E → Option E → Path → Machine σ (Option E)
  new_enameparent : Option E → Option E → Path → Machine σ (Option E × Path)
  ealloc : E → Path → Nat → Machine σ (Option E)
  elock : E → Machine σ Unit
  eunlock : E → Machine σ Unit
  eput : E → Machine σ Unit
  edup : E → Machine σ E
  etrunc : E → Machine σ Unit
  /-- `strncpy(ep->filename, "zero", 4)` -/
  setZero : E → Machine σ Unit
  kallocPipe : Machine σ (Option P)
  kfreePipe : P → Machine σ Unit
  pipeclose : P → Bool → Machine σ Unit
  /-- `copyout` of an `int` to the memory of a process. -/
  copyout : Nat → Nat → Nat → Machine σ Bool
  /-- What `allocproc` allocates. -/
  allocproc : Nat → Machine σ Bool
  forkCopy : Nat → Nat → Machine σ ForkCopy
  freeproc : Nat → Machine σ Unit

variable (b : Below σ E P)

/-- A call into the rest of the kernel. -/
def onBelow {α : Type} (x : Machine σ α) : Call σ E P α :=
  Machine.zoom Kernel.below (fun s k => { k with below := s }) x

def setFile (f : Nat) (g : File E P → File E P) : Call σ E P Unit :=
  modify fun k => { k with file := Function.update k.file f (g (k.file f)) }

def setProc (p : Nat) (g : Proc E → Proc E) : Call σ E P Unit :=
  modify fun k => { k with proc := Function.update k.proc p (g (k.proc p)) }

/-- `p->ofile[fd] = f` -/
def setOfile (p fd : Nat) (f : Option Nat) : Call σ E P Unit :=
  setProc p fun pr => { pr with ofile := Function.update pr.ofile fd f }

def filealloc : Call σ E P (Option Nat) := do
  let k ← get
  match (List.range NFILE).find? fun f => (k.file f).ref == 0 with
  | none => return none
  | some f =>
    setFile f fun file => { file with ref := 1 }
    return some f

def filedup (f : Nat) : Call σ E P Nat := do
  let k ← get
  if (k.file f).ref < 1 then
    Machine.panic "filedup"
  else
    setFile f fun file => { file with ref := file.ref + 1 }
    return f

/-- What is done with a file that nothing refers to any more. -/
def release (ff : File E P) : Call σ E P Unit :=
  match ff.type, ff.pipe, ff.ep with
  | .pipe, some pi, _ => onBelow (b.pipeclose pi ff.writable)
  | .entry, _, some ep => onBelow (b.eput ep)
  | .pipe, none, _ | .entry, _, none => Machine.halt .fault
  | _, _, _ => return

def fileclose (f : Nat) : Call σ E P Unit := do
  let k ← get
  if (k.file f).ref < 1 then
    Machine.panic "fileclose"
  else if (k.file f).ref - 1 > 0 then
    setFile f fun file => { file with ref := file.ref - 1 }
  else
    setFile f fun file => { file with ref := 0, type := .none }
    release b (k.file f)

/-- `NOFILEMAX(p)` -/
def Proc.limit (pr : Proc E) : Nat := if pr.filelimit < NOFILE then pr.filelimit else NOFILE

/-- `fdalloc2`, which begins at `start`. A negative `int` is no less than any
`uint64`, so it finds nothing from there. -/
def fdalloc2 (p : Nat) (f : Nat) (start : Int) : Call σ E P (Option Nat) := do
  let k ← get
  let pr := k.proc p
  match (List.range pr.limit).find? fun fd => start.toNat ≤ fd && (pr.ofile fd).isNone with
  | none => return none
  | some fd =>
    if start < 0 then
      return none
    else
      setOfile p fd (some f)
      return some fd

def fdalloc (p : Nat) (f : Nat) : Call σ E P (Option Nat) := fdalloc2 p f 0

/-- The file of a descriptor, or none where `argfd` is negative. For -100 it stores
through `pfd`. -/
def argfd (p : Nat) (pfd : Bool) (fd : Int) : Call σ E P (Option Nat) := do
  let k ← get
  if fd = -100 then
    if pfd then return none else Machine.halt .fault
  else if fd < 0 ∨ NOFILE ≤ fd then
    return none
  else
    return (k.proc p).ofile fd.toNat

/-- A new file with a descriptor for it. Where there is no descriptor left, the
file is closed again. -/
def allocFd (p : Nat) : Call σ E P (Option (Nat × Nat)) := do
  match ← filealloc with
  | none => return none
  | some f =>
    match ← fdalloc p f with
    | none => do
      fileclose b f
      return none
    | some fd => return some (f, fd)

end AvxKernel.Fd
