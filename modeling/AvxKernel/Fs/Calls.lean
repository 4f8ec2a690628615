import AvxKernel.Fd.Calls
import AvxKernel.Fs.Ecache

/-! The system calls of `sysfile.c` on paths, over the cache of directory entries.
The calls that open files, and `fork` and `exit`, are those on the table of open
files, with the cache below it. -/
namespace AvxKernel.Fs

open Fd (Path cstr argfd setProc setOfile fileclose)
open Fat (ATTR_DIRECTORY formatname)

def AT_FDCWD : Int := -100
def F_OK : Nat := 0
def R_OK : Nat := 4
def W_OK : Nat := 2
def X_OK : Nat := 1

variable {δ : Type} (disk : Disk δ) (limit : Nat)

/-! ### Removing -/

/-- Whether a path ends in a component ".". -/
def endsInDot (path : Path) : Bool :=
  match path.reverse.dropWhile (· == 47) with
  | 46 :: 47 :: _ => true
  | [46] => true
  | _ => false

/-- Whether a directory still holds entries. -/
def occupied (ep : Nat) : Cache δ Bool := do
  if (← entry ep).isDir then
    return !(← onDisk fun ent => disk.isdirempty ent ep)
  else
    return false

/-- `elock(ep->parent)` -/
def elockParent (ep : Nat) : Cache δ Unit := do
  match (← entry ep).parent with
  | none => Prog.panic "elock"
  | some parent => elock parent

/-- `eunlock(ep->parent)` -/
def eunlockParent (ep : Nat) : Cache δ Unit := do
  match (← entry ep).parent with
  | none => Prog.panic "eunlock"
  | some parent => eunlock parent

/-- The end of `sys_remove` and `sys_unlinkat`, once the entry has been found. -/
def removeEntry (ep : Nat) : Cache δ Int := do
  elock ep
  if ← occupied disk ep then
    eunlock ep
    eput disk limit ep
    return -1
  else
    elockParent ep
    eremove disk ep
    eunlockParent ep
    eunlock ep
    eput disk limit ep
    return 0

def sys_remove (cwd : Option Nat) (path : Path) : Cache δ Int :=
  if path = [] ∨ endsInDot path = true then
    return -1
  else do
    match ← ename disk limit cwd path with
    | none => return -1
    | some ep => removeEntry disk limit ep

def sys_unlinkat (cwd : Option Nat) (path : Path) : Cache δ Int :=
  if path = [] ∨ endsInDot path = true then
    return -1
  else do
    match ← ename disk limit cwd path with
    | none => return if (cstr "/tmp/testsuite-").isPrefixOf path then 0 else -1
    | some ep =>
      if (cstr "/tmp/testsuite-").isPrefixOf path then
        return 0
      else
        removeEntry disk limit ep

/-! ### Renaming -/

/-- What a renaming looks up: the source, the directory of the destination and the
new name, as far as it gets. -/
structure Lookups where
  src : Option Nat
  pdst : Option Nat
  name : Option Name

def renameLookups (olddp newdp cwd : Option Nat) (old new : Path) : Cache δ Lookups := do
  match ← new_ename disk limit olddp cwd old with
  | none => return ⟨none, none, none⟩
  | some src =>
    match ← new_enameparent disk limit newdp cwd new with
    | (none, _) => return ⟨some src, none, none⟩
    | (some pdst, name) => return ⟨some src, some pdst, formatname name⟩

/-- Whether `src` is on the way from an entry up to the root. -/
def isAbove (src : Nat) : Nat → Option Nat → Cache δ Bool
  | _, none => return false
  | 0, some _ => Prog.halt .diverge
  | rounds + 1, some ep => do
    if ep = src then
      return true
    else
      isAbove src rounds (← entry ep).parent

/-- `eput` of a pointer that may be null. -/
def eputSome (e : Option Nat) : Cache δ Unit :=
  match e with
  | none => return
  | some e => eput disk limit e

/-- The label `fail`. -/
def renameFail (srclock : Bool) (src dst pdst : Option Nat) : Cache δ Int := do
  (if srclock then
    match src with
    | none => Prog.panic "eunlock"
    | some src => eunlock src
  else
    return ())
  eputSome disk limit dst
  eputSome disk limit pdst
  eputSome disk limit src
  return -1

/-- From the new name on: both directories change, then the references go. -/
def renameMove (src pdst : Nat) (dst : Option Nat) (name : Name) (off : Nat) : Cache δ Int := do
  setEntry src fun d => { d with filename := name }
  onDisk fun ent => disk.emake ent pdst src off
  (if (← entry src).parent ≠ some pdst then do
    eunlock pdst
    elockParent src
  else
    return ())
  eremove disk src
  eunlockParent src
  let psrc := (← entry src).parent
  let parent ← edup pdst
  setEntry src fun d => { d with parent := some parent }
  setEntry src fun d => { d with off }
  setEntry src fun d => { d with valid := 1 }
  eunlock src
  (match psrc with
  | none => Prog.halt .fault
  | some psrc => eput disk limit psrc)
  eputSome disk limit dst
  eput disk limit pdst
  eput disk limit src
  return 0

/-- With the look-ups done: the source is locked, then the directory of the
destination. `offset` is what the local `off` holds if nothing is stored there. -/
def renameLocked (offset src pdst : Nat) (name : Name) : Cache δ Int := do
  elock src
  elock pdst
  let (dst, off) ← dirlookup disk limit pdst name
  let off := off.getD offset
  match dst with
  | none => renameMove disk limit src pdst none name off
  | some dst =>
    eunlock pdst
    if src = dst then
      renameFail disk limit true (some src) (some dst) (some pdst)
    else if (← entry src).attr &&& (← entry dst).attr &&& ATTR_DIRECTORY ≠ 0 then
      elock dst
      if ← occupied disk dst then
        eunlock dst
        renameFail disk limit true (some src) (some dst) (some pdst)
      else
        elock pdst
        eremove disk dst
        eunlock dst
        renameMove disk limit src pdst (some dst) name off
    else
      renameFail disk limit true (some src) (some dst) (some pdst)

/-- A renaming from its look-ups on, with what the locals `srclock` and `off` hold
at first. -/
def rename (srclock : Bool) (offset : Nat) (olddp newdp cwd : Option Nat) (old new : Path) :
    Cache δ Int := do
  match ← renameLookups disk limit olddp newdp cwd old new with
  | ⟨some src, some pdst, some name⟩ =>
    if ← isAbove src limit (some pdst) then
      renameFail disk limit srclock (some src) none (some pdst)
    else
      renameLocked disk limit offset src pdst name
  | ⟨src, pdst, _⟩ => renameFail disk limit srclock src none pdst

def sys_rename (offset : Nat) (cwd : Option Nat) (old new : Path) : Cache δ Int :=
  rename disk limit false offset none none cwd old new

/-! ### Calls on the descriptors as well -/

/-- The state of the descriptors and files over the cache. -/
abbrev Kernel (δ : Type) := Fd.Kernel (Shared (Ecache δ)) Nat Nat

abbrev Call (δ α : Type) := Machine (Kernel δ) α

/-- A redirection found among the arguments of `exec`. -/
structure Redirection where
  file : Path
  omode : UInt32

/-- What `exec` has read off the arguments that it puts on the new stack. -/
structure Arguments where
  argc : Int
  redirection : Option Redirection

/-- What these calls use of the rest of the kernel, the volume included. -/
structure World (δ : Type) extends Disk δ where
  kallocPipe : OnDisk δ (Option Nat)
  kfreePipe : Nat → OnDisk δ Unit
  pipeclose : Nat → Bool → OnDisk δ Unit
  copyout : Nat → Nat → Nat → OnDisk δ Bool
  /-- `copyout` of the `struct kstat` of an entry, or of none. -/
  copyoutKstat : Nat → Nat → Option Dirent → OnDisk δ Bool
  allocproc : Nat → OnDisk δ Bool
  forkCopy : Nat → Nat → OnDisk δ Fd.ForkCopy
  freeproc : Nat → OnDisk δ Unit
  readelfhdr : (Nat → Dirent) → Nat → OnDisk δ Bool
  proc_pagetable : Nat → OnDisk δ Bool
  /-- Whether the image needs the interpreter. A failure has no consequence: the unsigned
  result is tested for a negative one. -/
  loadelf : (Nat → Dirent) → Nat → Nat → OnDisk δ Bool
  load_elf_interp : (Nat → Dirent) → Nat → Nat → OnDisk δ Unit
  /-- The stack of the new program; none where it does not fit. -/
  buildStack : Nat → OnDisk δ (Option Arguments)

/-- Runs a program of the cache for a process. -/
def onCache {α : Type} (p : Nat) (x : Cache δ α) : Call δ α := Fd.onBelow (Prog.run p x)

variable (w : World δ)

/-- The cache as what lies below the table of open files, for process `p`. -/
def below (p : Nat) : Fd.Below (Shared (Ecache δ)) Nat Nat where
  attr s e := (s.state.ent e).attr
  file_size s e := (s.state.ent e).file_size
  new_ename env cwd path := Prog.run p (new_ename w.toDisk limit env cwd path)
  new_enameparent env cwd path := Prog.run p (new_enameparent w.toDisk limit env cwd path)
  ealloc dp name attr := Prog.run p (ealloc w.toDisk limit dp name attr)
  elock e := Prog.run p (elock e)
  eunlock e := Prog.run p (eunlock e)
  eput e := Prog.run p (eput w.toDisk limit e)
  edup e := Prog.run p (edup e)
  etrunc e := Prog.run p (etrunc w.toDisk e)
  setZero e := Prog.run p (setZero e)
  kallocPipe := Prog.run p (onDisk fun _ => w.kallocPipe)
  kfreePipe pi := Prog.run p (onDisk fun _ => w.kfreePipe pi)
  pipeclose pi writable := Prog.run p (onDisk fun _ => w.pipeclose pi writable)
  copyout q addr n := Prog.run p (onDisk fun _ => w.copyout q addr n)
  allocproc q := Prog.run p (onDisk fun _ => w.allocproc q)
  forkCopy q np := Prog.run p (onDisk fun _ => w.forkCopy q np)
  freeproc q := Prog.run p (onDisk fun _ => w.freeproc q)

/-- A call on paths that starts at the working directory. -/
def fromCwd (p : Nat) (x : Option Nat → Cache δ Int) : Call δ Int := do
  let k ← get
  onCache p (x (k.proc p).cwd)

def sys_mkdir (p : Nat) (path : Path) : Call δ Int := do
  let k ← get
  match ← Fd.new_create (below limit w p) none (k.proc p).cwd limit path true with
  | none => return -1
  | some ep =>
    onCache p (eunlock ep)
    onCache p (eput w.toDisk limit ep)
    return 0

def sys_chdir (p : Nat) (path : Path) : Call δ Int := do
  let k ← get
  match ← onCache p (ename w.toDisk limit (k.proc p).cwd path) with
  | none => return -1
  | some ep =>
    onCache p (elock ep)
    if (← onCache p (entry ep)).isDir = false then
      onCache p (eunlock ep)
      onCache p (eput w.toDisk limit ep)
      return -1
    else
      onCache p (eunlock ep)
      match (k.proc p).cwd with
      | none => Machine.halt .fault
      | some cwd =>
        onCache p (eput w.toDisk limit cwd)
        setProc p fun pr => { pr with cwd := some ep }
        return 0

/-- What the local of a directory descriptor holds after `argfd`, which does not
store through it where it fails before. -/
def dirfdAfter (dirfd dirfd₀ : Int) (f : Option Nat) : Int :=
  if f.isSome ∨ dirfd = AT_FDCWD then dirfd else dirfd₀

/-- What `ekstat` reads: nothing where the pointer is null. -/
def entryIfSet : Option Nat → Cache δ (Option Dirent)
  | none => return none
  | some ep => return some (← entry ep)

/-- The type of the file is not looked at. -/
def sys_fstatat (p : Nat) (dirfd dirfd₀ : Int) (path : Path) (st : Nat) : Call δ Int := do
  let fp ← argfd p true dirfd
  let k ← get
  if fp = none ∧ dirfdAfter dirfd dirfd₀ fp ≠ AT_FDCWD then
    return -24
  else
    let dp := fp.bind fun f => (k.file f).ep
    if dp.any fun dp => !(k.below.state.ent dp).isDir then
      return -1
    else
      let ep ← onCache p (new_ename w.toDisk limit dp (k.proc p).cwd path)
      if (cstr "/dev/null").isPrefixOf path then
        let d ← onCache p (entryIfSet ep)
        if ← onCache p (onDisk fun _ => w.copyoutKstat p st d) then return 0 else return -1
      else
        match ep with
        | none => return -2
        | some ep =>
          onCache p (elock ep)
          let d ← onCache p (entry ep)
          onCache p (eunlock ep)
          onCache p (eput w.toDisk limit ep)
          if ← onCache p (onDisk fun _ => w.copyoutKstat p st (some d)) then return 0 else return -1

def sys_faccessat (p : Nat) (dirfd dirfd₀ : Int) (path : Path) (mode : Nat) : Call δ Int := do
  let fp ← argfd p true dirfd
  let k ← get
  if fp = none ∧ dirfdAfter dirfd dirfd₀ fp ≠ AT_FDCWD then
    return -24
  else
    let dp :=
      if path.head? = some 47 then none
      else if fp = none then (k.proc p).cwd
      else fp.bind fun f => (k.file f).ep
    match ← onCache p (new_ename w.toDisk limit dp (k.proc p).cwd path) with
    | none => return -1
    | some _ =>
      if mode = F_OK then
        return 0
      else if (R_OK ||| W_OK ||| X_OK) &&& mode ≠ mode then
        return -1
      else
        return 0

/-- The directory descriptors only matter where they are no descriptors. The look-ups
start at the working directory in any case. -/
def sys_renameat2 (p : Nat) (srclock : Bool) (offset : Nat) (olddirfd olddirfd₀ : Int) (old : Path)
    (newdirfd newdirfd₀ : Int) (new : Path) : Call δ Int := do
  let k ← get
  let cwd := (k.proc p).cwd
  let oldfp ← argfd p true olddirfd
  if oldfp = none ∧ old.head? ≠ some 47 ∧ dirfdAfter olddirfd olddirfd₀ oldfp ≠ AT_FDCWD then
    return -9
  else
    let newfp ← argfd p true newdirfd
    if newfp = none ∧ new.head? ≠ some 47 ∧ dirfdAfter newdirfd newdirfd₀ newfp ≠ AT_FDCWD then
      return -9
    else
      let olddp := if oldfp = none then cwd else none
      let newdp := if newfp = none then cwd else none
      onCache p (rename w.toDisk limit srclock offset olddp newdp cwd old new)

/-! ### `exec` -/

def is_sh_script (path : Path) : Bool := path.drop (path.length - 3) == cstr ".sh"

/-- The label `bad`, with the entries that are locked there. -/
def execBad (p : Nat) (interpreter ep : Option Nat) : Call δ Int := do
  interpreter.forM fun e => do
    onCache p (eunlock e)
    onCache p (eput w.toDisk limit e)
  ep.forM fun e => do
    onCache p (eunlock e)
    onCache p (eput w.toDisk limit e)
  return -1

/-- The descriptors that are closed on `exec`. -/
def closeOnExec (p : Nat) : Call δ Unit := do
  let k ← get
  (List.range (k.proc p).limit).forM fun fd => do
    let k ← get
    match (k.proc p).ofile fd with
    | none => return
    | some f =>
      if (k.proc p).exec_close fd ≠ 0 then do
        fileclose (below limit w p) f
        setOfile p fd none
        setProc p fun pr => { pr with exec_close := Function.update pr.exec_close fd 0 }
      else
        return

/-- Whether the file of a redirection could be opened as file 1. -/
def redirect (p : Nat) (r : Redirection) : Call δ Bool := do
  let k ← get
  match (k.proc p).ofile 1 with
  | none => Machine.halt .fault
  | some f =>
    fileclose (below limit w p) f
    setOfile p 1 none
    let fd ← Fd.open (below limit w p) limit p r.file r.omode
    if fd ≠ 1 then
      return false
    else
      setProc p fun pr => { pr with exec_close := Function.update pr.exec_close 1 1 }
      return true

/-- The interpreter, if the image needs it: whether it could be loaded. -/
def loadInterpreter (p ep : Nat) (is_dynamic : Bool) : Call δ Bool :=
  if is_dynamic then do
    let k ← get
    match ← onCache p (ename w.toDisk limit (k.proc p).cwd (cstr "/libc.so")) with
    | none =>
      let _ ← execBad limit w p none (some ep)
      return false
    | some interpreter =>
      onCache p (elock interpreter)
      if ← onCache p (onDisk fun ent => w.readelfhdr ent interpreter) then
        onCache p (onDisk fun ent => w.load_elf_interp ent p interpreter)
        onCache p (eunlock interpreter)
        onCache p (eput w.toDisk limit interpreter)
        return true
      else
        let _ ← execBad limit w p (some interpreter) (some ep)
        return false
  else
    return true

/-- `exec` as far as entries and descriptors go; none where the process exits. -/
def exec (initproc p : Nat) (path : Path) : Call δ (Option Int) :=
  if is_sh_script path then do
    Fd.exit (below limit w p) initproc p
    return none
  else do
    let k ← get
    match ← onCache p (ename w.toDisk limit (k.proc p).cwd path) with
    | none => return some (← execBad limit w p none none)
    | some ep =>
      onCache p (elock ep)
      if (← onCache p (onDisk fun ent => w.readelfhdr ent ep)) = false then
        return some (← execBad limit w p none (some ep))
      else if (← onCache p (onDisk fun _ => w.proc_pagetable p)) = false then
        return some (← execBad limit w p none (some ep))
      else
        let is_dynamic ← onCache p (onDisk fun ent => w.loadelf ent p ep)
        if ← loadInterpreter limit w p ep is_dynamic then
          onCache p (eunlock ep)
          onCache p (eput w.toDisk limit ep)
          match ← onCache p (onDisk fun _ => w.buildStack p) with
          | none => return some (← execBad limit w p none none)
          | some args =>
            closeOnExec limit w p
            match args.redirection with
            | none => return some args.argc
            | some r =>
              if ← redirect limit w p r then
                return some args.argc
              else
                return some (← execBad limit w p none none)
        else
          return some (-1)

end AvxKernel.Fs
