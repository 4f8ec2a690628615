import AvxKernel.Fat.Name
import AvxKernel.Fd.Ftable

/-! The system calls of `sysfile.c` that make, copy and drop descriptors, and
what `fork` and `exit` do with those of a process. -/
namespace AvxKernel.Fd

def O_RDONLY : UInt32 := 0x000
def O_WRONLY : UInt32 := 0x001
def O_RDWR : UInt32 := 0x002
def O_CREATE : UInt32 := 0x040
def O_TRUNC : UInt32 := 0x200
def O_APPEND : UInt32 := 0x400

def F_DUPFD : Int := 0
def F_GETFD : Int := 1
def F_SETFD : Int := 2
def F_DUPFD_CLOEXEC : Int := 1030

variable {σ E P : Type} (b : Below σ E P)

/-- Whether a flag is set. -/
def has (flags flag : UInt32) : Bool := flags &&& flag ≠ 0

/-- `ep->attribute & ATTR_DIRECTORY` -/
def isDir (ep : E) : Call σ E P Bool := do
  let k ← get
  return b.attr k.below ep &&& Fat.ATTR_DIRECTORY ≠ 0

def sys_dup (p : Nat) (fd : Int) : Call σ E P Int := do
  match ← argfd p false fd with
  | none => return -1
  | some f =>
    match ← fdalloc p f with
    | none => return -24
    | some fd => do
      let _ ← filedup f
      return fd

def sys_dup3 (p : Nat) (fd newfd : Int) : Call σ E P Int := do
  match ← argfd p false fd with
  | none => return -1
  | some f =>
    let k ← get
    if newfd < 0 then
      return -1
    else if (k.proc p).limit ≤ newfd.toNat then
      return -24
    else if (k.proc p).ofile newfd.toNat ≠ some f then do
      let f ← filedup f
      setOfile p newfd.toNat (some f)
      return newfd
    else
      return newfd

/-- An `int` from the low half of an argument. -/
def toInt (arg : Nat) : Int := (BitVec.ofNat 32 arg).toInt

def sys_fcntl (p : Nat) (fd cmd : Int) (arg : Nat) : Call σ E P Int := do
  match ← argfd p true fd with
  | none => return -1
  | some f =>
    let k ← get
    if cmd = F_GETFD then
      return lowInt ((k.proc p).exec_close fd.toNat)
    else if cmd = F_SETFD then do
      setProc p fun pr => { pr with exec_close := Function.update pr.exec_close fd.toNat (u32 arg) }
      return 0
    else if cmd = F_DUPFD then
      match ← fdalloc2 p f (toInt arg) with
      | none => return -24
      | some fd => do
        let _ ← filedup f
        return fd
    else if cmd = F_DUPFD_CLOEXEC then
      match ← fdalloc2 p f (toInt arg) with
      | none => return -24
      | some fd => do
        let _ ← filedup f
        setProc p fun pr => { pr with exec_close := Function.update pr.exec_close fd 1 }
        return fd
    else
      return 0

def sys_close (p : Nat) (fd : Int) : Call σ E P Int := do
  match ← argfd p true fd with
  | none => return -1
  | some f =>
    setOfile p fd.toNat none
    fileclose b f
    return 0

/-! ### Opening -/

/-- `get_parent_name`: the path before its last component, and that component. -/
def get_parent_name (path : Path) : Path × Path :=
  let len := if path.getLast? = some 47 then path.length - 1 else path.length
  let pname := match (List.range len).reverse.find? fun i => path[i]? == some 47 with
    | some i => path.take i
    | none => path
  (pname, path.drop (pname.length + 1))

/-- `new_create` from an entry and the working directory, and `create` where there
is no such entry. The entry it returns is locked. `mode & O_RDONLY` is 0, so a
file never becomes read-only. -/
def new_create (env cwd : Option E) : Nat → Path → Bool → Call σ E P (Option E)
  | 0, _, _ => Machine.halt .diverge
  | limit + 1, path, dir => do
    let (dp, name) ← onBelow (b.new_enameparent env cwd path)
    let (dp, name) ← (match dp with
      | some dp => do
        onBelow (b.elock dp)
        return (some dp, name)
      | none => do
        let (pname, name) := get_parent_name path
        let dp ← new_create env cwd limit pname true
        return (dp, name))
    match dp with
    | none => return none
    | some dp =>
      match ← onBelow (b.ealloc dp name (if dir then Fat.ATTR_DIRECTORY else 0)) with
      | none => do
        onBelow (b.eunlock dp)
        onBelow (b.eput dp)
        return none
      | some ep => do
        if dir ≠ (← isDir b ep) then
          onBelow (b.eunlock dp)
          onBelow (b.eput ep)
          onBelow (b.eput dp)
          return none
        else
          onBelow (b.eunlock dp)
          onBelow (b.eput dp)
          onBelow (b.elock ep)
          return some ep

/-- The file that `open` and `sys_openat` make of a locked entry. -/
def openEntry (f : Nat) (ep : E) (flags : UInt32) : Call σ E P Unit := do
  if (← isDir b ep) = false ∧ has flags O_TRUNC then onBelow (b.etrunc ep) else pure ()
  let k ← get
  setFile f fun file => { file with
    type := .entry
    off := if has flags O_APPEND then b.file_size k.below ep else 0
    ep := some ep
    readable := !has flags O_WRONLY
    writable := has flags O_WRONLY || has flags O_RDWR }
  onBelow (b.eunlock ep)

/-- The entry that `open` opens, locked. -/
def openLookup (limit : Nat) (cwd : Option E) (path : Path) (omode : UInt32) :
    Call σ E P (Option E) :=
  if has omode O_CREATE then
    new_create b none cwd limit path false
  else do
    match ← onBelow (b.new_ename none cwd path) with
    | none => return none
    | some ep =>
      onBelow (b.elock ep)
      if (← isDir b ep) = true ∧ omode ≠ O_RDONLY then
        onBelow (b.eunlock ep)
        onBelow (b.eput ep)
        return none
      else
        return some ep

def «open» (limit : Nat) (p : Nat) (path : Path) (omode : UInt32) : Call σ E P Int := do
  let k ← get
  match ← openLookup b limit (k.proc p).cwd path omode with
  | none => return -1
  | some ep =>
    match ← allocFd b p with
    | none =>
      onBelow (b.eunlock ep)
      onBelow (b.eput ep)
      return -1
    | some (f, fd) =>
      openEntry b f ep omode
      return fd

/-- The paths that `sys_openat` creates without being asked to. -/
def created : List Path :=
  ["/proc/loadavg", "/tmp/testsuite-", "/dev/zero", "/etc/passwd", "/proc/meminfo", "/dev/tty",
    "/etc/localtime", "/dev/misc/rtc", "/proc/mounts", "/dev/urandom"].map cstr

/-- The directory that a descriptor stands for, if it is one. -/
def openatDir (dirf : Option Nat) : Call σ E P (Option E) := do
  let k ← get
  match dirf.map k.file with
  | some ⟨.entry, _, _, _, _, some dp, _⟩ =>
    if (← isDir b dp) = false then
      onBelow (b.eunlock dp)
      return none
    else
      return some dp
  | some ⟨.entry, _, _, _, _, none, _⟩ => Machine.halt .fault
  | _ => return none

/-- The entry that `sys_openat` opens, locked. -/
def openatLookup (limit : Nat) (dp cwd : Option E) (path : Path) (flags : UInt32) :
    Call σ E P (Option E) := do
  let ep ← onBelow (b.new_ename dp cwd path)
  let ep ← (match ep with
    | some ep => do
      onBelow (b.elock ep)
      return some ep
    | none =>
      if has flags O_CREATE ∨ (created.any fun name => name.isPrefixOf path) then
        new_create b dp cwd limit path false
      else
        return none)
  match ep with
  | none => return none
  | some ep =>
    if (← isDir b ep) = true ∧ has flags O_WRONLY = false ∧ has flags O_RDWR = false then
      onBelow (b.eunlock ep)
      onBelow (b.eput ep)
      return none
    else
      return some ep

def sys_openat (limit : Nat) (p : Nat) (dirfd : Int) (path : Path) (flags : UInt32) :
    Call σ E P Int := do
  let dirf ← argfd p true dirfd
  if (cstr "/dev/null").isPrefixOf path then
    match ← allocFd b p with
    | none => return -24
    | some (f, fd) =>
      setFile f fun file =>
        { file with type := .null, off := 0, ep := none, readable := true, writable := true }
      return fd
  else
    let flags := flags ||| O_RDWR
    let dp ← openatDir b dirf
    let k ← get
    match ← openatLookup b limit dp (k.proc p).cwd path flags with
    | none => return -1
    | some ep =>
      match ← allocFd b p with
      | none =>
        onBelow (b.eunlock ep)
        onBelow (b.eput ep)
        return -24
      | some (f, fd) =>
        openEntry b f ep flags
        dp.forM fun dp => onBelow (b.elock dp)
        setProc p fun pr => { pr with exec_close := Function.update pr.exec_close fd 0 }
        if (cstr "/dev/zero").isPrefixOf path then onBelow (b.setZero ep) else pure ()
        dp.forM fun dp => onBelow (b.eunlock dp)
        return fd

/-! ### Pipes -/

def pipealloc : Call σ E P (Option (Nat × Nat)) := do
  match ← filealloc with
  | none => return none
  | some f0 =>
    match ← filealloc with
    | none =>
      fileclose b f0
      return none
    | some f1 =>
      match ← onBelow b.kallocPipe with
      | none =>
        fileclose b f0
        fileclose b f1
        return none
      | some pi =>
        setFile f0 fun file =>
          { file with type := .pipe, readable := true, writable := false, pipe := some pi }
        setFile f1 fun file =>
          { file with type := .pipe, readable := false, writable := true, pipe := some pi }
        return some (f0, f1)

/-- The copies of the two descriptors; the second only if the first succeeds. -/
def copyFds (p : Nat) (fdarray fd0 fd1 : Nat) : Call σ E P Bool := do
  if ← onBelow (b.copyout p fdarray fd0) then
    onBelow (b.copyout p (u64 (fdarray + 4)) fd1)
  else
    return false

def sys_pipe (p : Nat) (fdarray : Nat) : Call σ E P Int := do
  match ← pipealloc b with
  | none => return -1
  | some (rf, wf) =>
    match ← fdalloc p rf with
    | none =>
      fileclose b rf
      fileclose b wf
      return -1
    | some fd0 =>
      match ← fdalloc p wf with
      | none =>
        setOfile p fd0 none
        fileclose b rf
        fileclose b wf
        return -1
      | some fd1 =>
        if ← copyFds b p fdarray fd0 fd1 then
          return 0
        else
          setOfile p fd0 none
          setOfile p fd1 none
          fileclose b rf
          fileclose b wf
          return -1

/-! ### Processes -/

def copyFile (p np i : Nat) : Call σ E P Unit := do
  let k ← get
  match (k.proc p).ofile i with
  | none => return
  | some f =>
    let f ← filedup f
    setOfile np i (some f)

/-- The loop of `fork` over the descriptors. -/
def copyFiles (p np : Nat) (fds : List Nat) : Call σ E P Unit := fds.forM (copyFile p np)

/-- `fork`; the child's place in the table stands for its pid. -/
def fork (p : Nat) : Call σ E P (Option Nat) := do
  let k ← get
  match (List.range NPROC).find? fun np => (k.proc np).state = .unused with
  | none => return none
  | some np =>
    setProc np fun pr => { pr with filelimit := NOFILE }
    if ← onBelow (b.allocproc np) then
      setProc np fun pr => { pr with exec_close := fun _ => 0 }
      match ← onBelow (b.forkCopy p np) with
      | .uvmcopy =>
        onBelow (b.freeproc np)
        return none
      | .vma_map => return none
      | .done =>
        copyFiles p np (List.range NOFILE)
        let k ← get
        match (k.proc p).cwd with
        | none => Machine.halt .fault
        | some cwd =>
          let cwd ← onBelow (b.edup cwd)
          setProc np fun pr => { pr with cwd := some cwd, state := .live }
          return some np
    else
      return none

def closeFile (p fd : Nat) : Call σ E P Unit := do
  let k ← get
  match (k.proc p).ofile fd with
  | none => return
  | some f =>
    fileclose b f
    setOfile p fd none

/-- The loop of `exit` over the descriptors. -/
def closeFiles (p : Nat) (fds : List Nat) : Call σ E P Unit := fds.forM (closeFile b p)

/-- `exit` as far as the process's files go; it is not the first process. -/
def exit (initproc p : Nat) : Call σ E P Unit :=
  if p = initproc then
    Machine.panic "init exiting"
  else do
    closeFiles b p (List.range NOFILE)
    let k ← get
    match (k.proc p).cwd with
    | none => Machine.halt .fault
    | some cwd =>
      onBelow (b.eput cwd)
      setProc p fun pr => { pr with cwd := none, state := .zombie }

/-- A waiting parent frees the process. -/
def reap (p : Nat) : Call σ E P Unit := do
  onBelow (b.freeproc p)
  setProc p fun pr => { pr with state := .unused }

end AvxKernel.Fd
