import AvxKernel.Fat.Name
import AvxKernel.Fd.Calls
import AvxKernel.Vm.Pte

/-! The calls of `file.c` and `sysfile.c` on open files. Each looks at the type of
the file, or does not, before it follows one of the file's two pointers. -/
namespace AvxKernel.Fd

def NDEV : Int := 10
def SEEK_SET : Int := 0
def SEEK_CUR : Int := 1
def SEEK_END : Int := 2
def AT_FDCWD : Int := -100
def F_OK : Nat := 0
def ACCESS : Nat := 7

/-- The memory of a process, at the address where a call below copies to it or from it. -/
inductive Access where
  | copyout (dstva : Nat)
  | copyin (srcva : Nat)

/-- The address at which the copy panics before it looks at the page table. -/
def Access.Refused : Access → Prop
  | .copyout dstva => Vm.MAXVA < dstva
  | .copyin srcva => Vm.MAXVA < srcva ∧ srcva &&& Vm.DMWIN_MASK ≠ 0

instance : DecidablePred Access.Refused
  | .copyout _ => inferInstanceAs (Decidable (_ < _))
  | .copyin _ => inferInstanceAs (Decidable (_ ∧ _))

def Access.message : Access → String
  | .copyout _ => "copyout: dstva > MAXVA"
  | .copyin _ => "copyin: srcva > MAXVA & srcva is not in 0x9000(x)"

/-- How a call below ends: with a value, never, or with a panic of its own. -/
inductive Reply (σ α : Type) where
  | back (a : α) (s : σ)
  | waits
  | panics (message : String)

/-- A call below: where it touches the memory of a process, in order, and how it ends if
none of the copies panics. -/
abbrev Under (σ α : Type) := σ → List Access × Reply σ α

/-- A lock below, which is got or waited for. -/
abbrev Lock (σ : Type) := σ → Option σ

/-- What the calls on open files need of the rest of the kernel: processes, directory
entries, pipes, devices and user memory. `D` is what a `struct dirent` says of a file. An
open file counts as a reference to its entry, so that `elock` does not panic. -/
structure Io (σ E P D : Type) where
  name : σ → Nat → List UInt8
  char_count : σ → Nat → Int
  setCharCount : Nat → Int → σ → σ
  filename : σ → E → List UInt8
  file_size : σ → E → Nat
  dirent : σ → E → D
  attr : D → Nat
  d_name : D → List UInt8
  elock : E → Lock σ
  eunlock : E → σ → σ
  eput : E → Under σ Unit
  new_ename : Option E → Option E → Path → Under σ (Option E)
  eread : Nat → E → Nat → Nat → Nat → Under σ Int
  ewrite : Nat → E → Nat → Nat → Nat → Under σ Int
  etruncate : E → Int → Under σ Unit
  /-- The loop of `enext`. -/
  scan : E → Nat → Under σ (Int × D × Nat)
  piperead : Nat → P → Nat → Int → Under σ Int
  pipewrite : Nat → P → Nat → Int → Under σ Int
  acquire : P → Lock σ
  release : P → σ → σ
  /-- The device number of a file, and the two functions of a device. -/
  major : σ → Nat → Int
  setMajor : Nat → Int → σ → σ
  devread : Nat → Option (Nat → Nat → Int → Under σ Int)
  devwrite : Nat → Option (Nat → Nat → Int → Under σ Int)
  /-- What `copyout` stores, after it has looked at the address: a character, a record, and
  for `kstat` the blank one if there is no entry. -/
  storeChar : Nat → Nat → UInt8 → σ → σ
  storeStat : Nat → Nat → D → σ → Bool × σ
  storeKstat : Nat → Nat → Option D → σ → Bool × σ
  storeDirent : Nat → Nat → Nat → Nat → D → σ → Bool × σ
  /-- Nothing where a page is mapped and there is nothing to copy from. -/
  copyout_zero : Nat → Nat → Int → σ → Option σ

variable {σ E P D : Type} (io : Io σ E P D)

/-- The mark of the model for a call below that does not come back. -/
def Away : Halt := .asleep

def Reply.run {α : Type} : Reply σ α → Except Halt (α × σ)
  | .back a t => .ok (a, t)
  | .waits => .error Away
  | .panics message => .error (.panic message)

def under {α : Type} (x : Under σ α) : Machine σ α := fun s =>
  match (x s).1.find? (Access.Refused ·) with
  | some access => .error (.panic access.message)
  | none => (x s).2.run

def locked (x : Lock σ) : Machine σ Unit := fun s =>
  match x s with
  | some t => .ok ((), t)
  | none => .error Away

/-- `copyout` of something whose place is at `dstva`. -/
def copyout {α : Type} (dstva : Nat) (store : σ → α × σ) : Machine σ α :=
  if Access.Refused (.copyout dstva) then
    Machine.panic (Access.copyout dstva).message
  else
    modifyGet store

/-- `either_copyout` of a character to a process, whose result is not looked at. -/
def copyoutChar (p addr : Nat) (ch : UInt8) : Machine σ Unit :=
  copyout addr fun s => ((), io.storeChar p addr ch s)

/-- The complaint of the model, not of the source, about a pointer that the type of the
file does not vouch for. What the kernel does with such a pointer depends on what the place
in the table was used for before. -/
def Wild : Halt := .panic "wild pointer"

/-- `f->ep`, about to be followed. -/
def epOf (f : Nat) : Call σ E P E := do
  let k ← get
  match (k.file f).ep with
  | none => Machine.halt .fault
  | some ep => if (k.file f).type = .entry then return ep else Machine.halt Wild

/-- `f->pipe`, about to be followed. -/
def pipeOf (f : Nat) : Call σ E P P := do
  let k ← get
  match (k.file f).pipe with
  | none => Machine.halt .fault
  | some pi => if (k.file f).type = .pipe then return pi else Machine.halt Wild

/-! ### `fileread` and `filewrite` -/

/-- The case of a directory entry in `fileread`: what is read, and how far the offset
moves. -/
def readEntry (p : Nat) (ep : E) (off addr : Nat) (n : Int) : Machine σ (Int × Nat) := do
  locked (io.elock ep)
  let s ← get
  if 0 < io.char_count s p then
    set (io.setCharCount p (io.char_count s p - 1) s)
    modify (io.eunlock ep)
    return (n, 0)
  else if (cstr "libc-bench").isPrefixOf (io.name s p) ∧
      (cstr "tmpfile_").isPrefixOf (io.filename s ep) then
    modify (io.eunlock ep)
    copyoutChar io p addr 120
    return (1, 0)
  else
    let r ← (if (cstr "zero").isPrefixOf (io.filename s ep) then do
        copyoutChar io p addr 0
        return (1, 0)
      else if (cstr "urandom").isPrefixOf (io.filename s ep) then do
        copyoutChar io p addr 114
        return (1, 0)
      else do
        let r ← under (io.eread p ep addr off (n % 2 ^ 32).toNat)
        return (r, if 0 < r then r.toNat else 0))
    modify (io.eunlock ep)
    return r

/-- The same of `filewrite`. -/
def writeEntry (p : Nat) (ep : E) (off addr : Nat) (n : Int) : Machine σ (Int × Nat) := do
  locked (io.elock ep)
  let s ← get
  if io.char_count s p ≠ 0 then
    set (io.setCharCount p (io.char_count s p + n) s)
    modify (io.eunlock ep)
    return (n, 0)
  else if (cstr "libc-bench").isPrefixOf (io.name s p) ∧
      (cstr "tmpfile_").isPrefixOf (io.filename s ep) then
    set (io.setCharCount p n s)
    modify (io.eunlock ep)
    return (1, 0)
  else
    let r ← under (io.ewrite p ep addr off (n % 2 ^ 32).toNat)
    modify (io.eunlock ep)
    return if r = n then (n, (n % 2 ^ 32).toNat) else (-1, 0)

/-- The offset is a `uint`. -/
def moveOff (f step : Nat) : Call σ E P Unit :=
  setFile f fun file => { file with off := u32 (file.off + step) }

/-- A device, called by number if there is one that has the function. -/
def device (op : Nat → Option (Nat → Nat → Int → Under σ Int)) (p f addr : Nat) (n : Int) :
    Call σ E P Int := do
  let k ← get
  let major := io.major k.below f
  if major < 0 ∨ NDEV ≤ major then
    return -1
  else
    match op major.toNat with
    | none => return -1
    | some call => onBelow (under (call p addr n))

/-- The case of `/dev/null` runs on into the next. -/
def fileread (p f addr : Nat) (n : Int) : Call σ E P Int := do
  let k ← get
  if (k.file f).readable = false then
    return -1
  else
    match (k.file f).type with
    | .pipe => do
      let pi ← pipeOf f
      onBelow (under (io.piperead p pi addr n))
    | .device => device io io.devread p f addr n
    | .entry => do
      let ep ← epOf f
      let (r, step) ← onBelow (readEntry io p ep (k.file f).off addr n)
      moveOff f step
      return r
    | .null => do
      match io.copyout_zero p addr n k.below with
      | none => Machine.halt .fault
      | some _ => Machine.panic "fileread"
    | .none | .sock => Machine.panic "fileread"

def filewrite (p f addr : Nat) (n : Int) : Call σ E P Int := do
  let k ← get
  if (k.file f).writable = false then
    return -1
  else
    match (k.file f).type with
    | .pipe => do
      let pi ← pipeOf f
      onBelow (under (io.pipewrite p pi addr n))
    | .device => device io io.devwrite p f addr n
    | .entry => do
      let ep ← epOf f
      let (r, step) ← onBelow (writeEntry io p ep (k.file f).off addr n)
      moveOff f step
      return r
    | .null => return n
    | .none | .sock => Machine.panic "filewrite"

/-! ### `fileseek` -/

/-- The result is a `uint64`. -/
def fileseek (f offset : Nat) (whence : Int) : Call σ E P Nat := do
  let k ← get
  let off := (k.file f).off
  match (k.file f).type with
  | .entry => do
    let ep ← epOf f
    onBelow (locked (io.elock ep))
    let r ← (if whence = SEEK_SET then do
        setFile f fun file => { file with off := u32 offset }
        return offset
      else if whence = SEEK_CUR then do
        setFile f fun file => { file with off := u32 (off + offset) }
        return u32 (off + offset)
      else if whence = SEEK_END then do
        let k ← get
        let off := u32 (io.file_size k.below ep + offset)
        setFile f fun file => { file with off }
        return off
      else
        return 2 ^ 64 - 1)
    onBelow (modify (io.eunlock ep))
    return r
  | .pipe => do
    let pi ← pipeOf f
    onBelow (locked (io.acquire pi))
    let r ← (if whence = SEEK_SET then do
        setFile f fun file => { file with off := u32 offset }
        return offset
      else if whence = SEEK_CUR then do
        setFile f fun file => { file with off := u32 (off + offset) }
        return u32 (off + offset)
      else
        return 2 ^ 64 - 1)
    onBelow (modify (io.release pi))
    return r
  | _ => return 2 ^ 64 - 1

/-! ### Directories -/

/-- `enext`: the result, what it has filled in, and the count of slots. -/
def enext (dp : E) (off : Nat) : Machine σ (Int × D × Nat) := do
  let s ← get
  if io.attr (io.dirent s dp) &&& Fat.ATTR_DIRECTORY = 0 then
    Machine.panic "enext not dir"
  else if off % 32 ≠ 0 then
    Machine.panic "enext not align"
  else
    under (io.scan dp off)

/-- The loop of `dirnext` over the empty slots, from an offset on. -/
def nextEntry (limit : Nat) (ep : E) (off : Nat) : Machine σ (Int × D × Nat × Nat) :=
  Machine.loop (fun off => do
    let (ret, de, count) ← enext io ep off
    if ret = 0 then
      return .inl (u32 (off + count * 32))
    else
      return .inr (ret, de, count, off)) limit off

variable (limit : Nat)

def dirnext (p f addr : Nat) : Call σ E P Int := do
  let k ← get
  if (k.file f).readable = false then
    return -1
  else
    let ep ← epOf f
    if io.attr (io.dirent k.below ep) &&& Fat.ATTR_DIRECTORY = 0 then
      return -1
    else
      onBelow (locked (io.elock ep))
      let (ret, de, count, off) ← onBelow (nextEntry io limit ep (k.file f).off)
      setFile f fun file => { file with off }
      onBelow (modify (io.eunlock ep))
      if ret = -1 then
        return 0
      else
        moveOff f (count * 32)
        if ← onBelow (copyout addr (io.storeStat p addr de)) then return 1 else return -1

/-- The size of a record of `getdents64`, with the name's end and rounded up. -/
def reclen (name : List UInt8) : Nat := (24 + (name.length + 1) + 7) / 8 * 8

/-- The loop of `get_next_dirent`: the result, and the offset that is left. It moves the
offset once more where the next record does not fit. -/
def nextDirents (p : Nat) (ep : E) (off addr : Nat) (n : Int) : Machine σ (Int × Nat) :=
  Machine.loop (fun (off, addr, n, copysize) => do
    let (ret, de, cnt) ← enext io ep off
    let next := u32 (off + cnt * 32)
    if ret = 0 then
      return .inl (next, addr, n, copysize)
    else if ret = -1 then
      modify (io.eunlock ep)
      return .inr (copysize, next)
    else
      let size := reclen (io.d_name de)
      if n < size then
        modify (io.eunlock ep)
        return .inr (copysize, u32 (next + cnt * 32))
      else if ← copyout addr (io.storeDirent p addr off size de) then
        return .inl (next, u64 (addr + size), n - size, copysize + size)
      else
        modify (io.eunlock ep)
        return .inr (-1, next)) limit (off, addr, n, 0)

def get_next_dirent (p f addr : Nat) (n : Int) : Call σ E P Int := do
  let k ← get
  if (k.file f).readable = false then
    return -1
  else
    let ep ← epOf f
    if io.attr (io.dirent k.below ep) &&& Fat.ATTR_DIRECTORY = 0 then
      return -1
    else
      onBelow (locked (io.elock ep))
      let (r, off) ← onBelow (nextDirents io limit p ep (k.file f).off addr n)
      setFile f fun file => { file with off }
      return r

/-! ### The system calls -/

def sys_read (p : Nat) (fd : Int) (addr : Nat) (n : Int) : Call σ E P Int := do
  match ← argfd p false fd with
  | none => return -1
  | some f => fileread io p f addr n

def sys_write (p : Nat) (fd : Int) (addr : Nat) (n : Int) : Call σ E P Int := do
  match ← argfd p false fd with
  | none => return -1
  | some f => filewrite io p f addr n

def sys_lseek (p : Nat) (fd : Int) (offset : Nat) (whence : Int) : Call σ E P Nat := do
  match ← argfd p true fd with
  | none => return 2 ^ 64 - 1
  | some f => fileseek io f offset whence

def sys_readdir (p : Nat) (fd : Int) (addr : Nat) : Call σ E P Int := do
  match ← argfd p false fd with
  | none => return -1
  | some f => dirnext io limit p f addr

/-- The length is cut to an `int`. -/
def sys_getdents64 (p : Nat) (fd : Int) (buf len : Nat) : Call σ E P Int := do
  match ← argfd p true fd with
  | none => return -1
  | some f => get_next_dirent io limit p f buf (toInt len)

/-- What the local of a descriptor holds after `argfd`, which does not store through it where
it fails before. -/
def localAfter (fd fd₀ : Int) (f : Option Nat) : Int :=
  if f.isSome ∨ fd = AT_FDCWD then fd else fd₀

/-- For the working directory the local `fp` is followed though nothing has set it. -/
def sys_ftruncate (p : Nat) (fd fd₀ : Int) (len : Int) : Call σ E P Int := do
  let fp ← argfd p true fd
  if fp = none ∧ localAfter fd fd₀ fp ≠ AT_FDCWD then
    return -24
  else
    match fp with
    | none => Machine.halt .fault
    | some f =>
      let ep ← epOf f
      onBelow (under (io.etruncate ep len))
      return 0

/-- The directory entry of a file, if there is one: a pointer that is null is not
followed. -/
def epIfSet (f : Nat) : Call σ E P (Option E) := do
  let k ← get
  match (k.file f).ep with
  | none => return none
  | some _ => return some (← epOf f)

def sys_fstatat (p : Nat) (fd fd₀ : Int) (path : Path) (st : Nat) : Call σ E P Int := do
  let fp ← argfd p true fd
  if fp = none ∧ localAfter fd fd₀ fp ≠ AT_FDCWD then
    return -24
  else
    let dp ← (match fp with
      | none => return none
      | some f => epIfSet f)
    let k ← get
    if dp.any fun dp => io.attr (io.dirent k.below dp) &&& Fat.ATTR_DIRECTORY == 0 then
      return -1
    else
      let ep ← onBelow (under (io.new_ename dp (k.proc p).cwd path))
      if (cstr "/dev/null").isPrefixOf path then
        let k ← get
        let d := ep.map (io.dirent k.below)
        if ← onBelow (copyout st (io.storeKstat p st d)) then return 0 else return -1
      else
        match ep with
        | none => return -2
        | some ep =>
          onBelow (locked (io.elock ep))
          let k ← get
          onBelow (modify (io.eunlock ep))
          onBelow (under (io.eput ep))
          let d := some (io.dirent k.below ep)
          if ← onBelow (copyout st (io.storeKstat p st d)) then return 0 else return -1

/-- The pointer is followed in the look-up. -/
def sys_faccessat (p : Nat) (fd fd₀ : Int) (path : Path) (mode : Nat) : Call σ E P Int := do
  let fp ← argfd p true fd
  if fp = none ∧ localAfter fd fd₀ fp ≠ AT_FDCWD then
    return -24
  else
    let k ← get
    let dp ← (
      if path.head? = some 47 then return none
      else match fp with
        | none => return (k.proc p).cwd
        | some f => epIfSet f)
    match ← onBelow (under (io.new_ename dp (k.proc p).cwd path)) with
    | none => return -1
    | some _ =>
      if mode = F_OK then
        return 0
      else if ACCESS &&& mode ≠ mode then
        return -1
      else
        return 0

/-- To open a device. -/
def sys_dev (b : Below σ E P) (p : Nat) (omode : UInt32) (major : Int) : Call σ E P Int :=
  if has omode O_CREATE then
    Machine.panic "dev file on FAT"
  else if major < 0 ∨ NDEV ≤ major then
    return -1
  else do
    match ← allocFd b p with
    | none => return -1
    | some (f, fd) =>
      setFile f fun file => { file with
        type := .device
        off := 0
        ep := none
        readable := !has omode O_WRONLY
        writable := has omode O_WRONLY || has omode O_RDWR }
      modify fun k => { k with below := io.setMajor f major k.below }
      return fd

end AvxKernel.Fd
