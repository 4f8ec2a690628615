import AvxKernel.File.Opened
import AvxKernel.Fat.Split
import AvxKernel.Ipc.Faults

/-! `sys_readv` and `sys_writev`: calls for the buffers of an array that the process names,
which is copied to the stack of the kernel. -/
namespace AvxKernel.File

open Fat (Geometry Sink Source)
open Fd (cstr)
open Ipc (User)
open Vm (MAXVA DMWIN_MASK)

def IOVMAX : Nat := 64

/-- `sizeof(iovec)` -/
def IOVEC : Nat := 16

/-- The mark of the model for a load or store outside the array. -/
def OutOfBounds : Halt := .panic "out of bounds"

/-! ### The memory of a process -/

/-- How many bytes at places of a process are copied before the first that is not there. -/
def lead (pr : User) : (Nat → Nat) → Nat → Nat
  | _, 0 => 0
  | place, n + 1 => if pr.reaches (place 0) then lead pr (fun i => place (i + 1)) n + 1 else 0

theorem lead_succ (pr : User) (place : Nat → Nat) (n : Nat) :
    lead pr place (n + 1) = if pr.reaches (place 0) then lead pr (fun i => place (i + 1)) n + 1 else 0 := rfl

/-- The bytes of a buffer lie one after the other. -/
def buffer (addr : Nat) : Nat → Nat := fun i => u64 (addr + i)

/-- `either_copyout` to places of a process. -/
def toUser (pr : User) (place : Nat → Nat) : Sink where
  copy off n := (lead pr (fun i => place (off + i)) n, lead pr (fun i => place (off + i)) n == n)

theorem lead_le (pr : User) (place : Nat → Nat) (n : Nat) : lead pr place n ≤ n := by
  induction n generalizing place with
  | zero => exact Nat.le_refl 0
  | succ n ih =>
    rw [lead_succ]
    split
    · exact Nat.succ_le_succ (ih _)
    · exact Nat.zero_le _

/-- `either_copyin` from places of a process. -/
def fromUser (pr : User) (place : Nat → Nat) : Source where
  copy off n :=
    let k := lead pr (fun i => place (off + i)) n
    ((List.range k).map fun i => pr.memory (place (off + i)), k == n)
  length_le off n := by
    rw [List.length_map, List.length_range]
    exact lead_le pr _ n

/-- The bytes that have been stored. -/
def storeAt (pr : User) : (Nat → Nat) → List UInt8 → User
  | _, [] => pr
  | place, b :: rest =>
    storeAt { pr with memory := Function.update pr.memory (place 0) b } (fun i => place (i + 1)) rest

theorem storeAt_cons (pr : User) (place : Nat → Nat) (b : UInt8) (rest : List UInt8) :
    storeAt pr place (b :: rest) =
      storeAt { pr with memory := Function.update pr.memory (place 0) b } (fun i => place (i + 1)) rest := rfl

/-- An open file, and the memory of the process that calls. -/
structure Caller where
  file : Opened
  pr : User

/-! ### Reads and writes of one buffer -/

/-- `fileread` calls `either_copyout`. -/
def Copies (s : Opened) (p : Nat) (n : Int) : Prop :=
  s.readable = true ∧ ¬0 < s.char_count p ∧
    (s.Bench p ∨ (cstr "zero").isPrefixOf s.filename ∨ (cstr "urandom").isPrefixOf s.filename ∨
      ¬(s.ep.file_size < s.off ∨ u32 (s.off + uint n) < s.off ∨ s.ep.isDir) ∧
        0 < if s.ep.file_size < u32 (s.off + uint n) then s.ep.file_size - s.off else uint n)

instance (s : Opened) (p : Nat) (n : Int) : Decidable (Copies s p n) := inferInstanceAs (Decidable (_ ∧ _))

/-- `filewrite` calls `either_copyin`. -/
def Sends (s : Opened) (p : Nat) (n : Int) : Prop :=
  s.writable = true ∧ s.char_count p = 0 ∧ ¬s.Bench p ∧ Fat.Takes s.ep s.off (uint n) ∧ 0 < uint n

instance (s : Opened) (p : Nat) (n : Int) : Decidable (Sends s p n) := inferInstanceAs (Decidable (_ ∧ _))

/-- An address for which `copyin` panics. -/
def WildIn (addr : Nat) : Prop := MAXVA < addr ∧ addr &&& DMWIN_MASK ≠ 0

instance (addr : Nat) : Decidable (WildIn addr) := inferInstanceAs (Decidable (_ ∧ _))

variable (fat : Geometry)

/-- A read of the file to places of the process, one buffer or more. -/
def readTo (p : Nat) (place : Nat → Nat) (n : Int) : Machine Caller Int := do
  let s ← get
  let ((r, bytes), file) ← Machine.lift (fileread fat p (toUser s.pr place) n s.file)
  set { file, pr := storeAt s.pr place bytes : Caller }
  return r

/-- A write of what is at places of the process. -/
def writeFrom (p : Nat) (place : Nat → Nat) (n : Int) : Machine Caller Int := do
  let s ← get
  let (r, file) ← Machine.lift (filewrite fat p (fromUser s.pr place) n s.file)
  set { s with file }
  return r

/-- The same with the first copy, which is to the first place. -/
def readConcat (p : Nat) (place : Nat → Nat) (n : Int) : Machine Caller Int := do
  let s ← get
  if MAXVA < place 0 ∧ Copies s.file p n then
    Machine.panic "copyout: dstva > MAXVA"
  else
    readTo fat p place n

def writeConcat (p : Nat) (place : Nat → Nat) (n : Int) : Machine Caller Int := do
  let s ← get
  if WildIn (place 0) ∧ Sends s.file p n then
    Machine.panic "copyin: srcva > MAXVA & srcva is not in 0x9000(x)"
  else
    writeFrom fat p place n

/-- `fileread` for a buffer of the process; the first copy is to its address. -/
def filereadUser (p addr : Nat) (n : Int) : Machine Caller Int := do
  let s ← get
  if MAXVA < addr ∧ Copies s.file p n then
    Machine.panic "copyout: dstva > MAXVA"
  else
    readTo fat p (buffer addr) n

/-- `filewrite` for a buffer of the process. -/
def filewriteUser (p addr : Nat) (n : Int) : Machine Caller Int := do
  let s ← get
  if WildIn addr ∧ Sends s.file p n then
    Machine.panic "copyin: srcva > MAXVA & srcva is not in 0x9000(x)"
  else
    writeFrom fat p (buffer addr) n

/-! ### The array -/

structure Iovec where
  iov_base : Nat
  iov_len : Nat
deriving DecidableEq

/-- `v[i]` -/
def iovec (v : Memory) (i : Nat) : Iovec where
  iov_base := v.fetch (IOVEC * i) 8
  iov_len := v.fetch (IOVEC * i + 8) 4

/-- `copyin` to `v`, whose result nobody looks at. -/
def copyinArray (pr : User) (v : Memory) (iov n : Nat) : Except Halt Memory :=
  if WildIn iov then
    .error (.panic "copyin: srcva > MAXVA & srcva is not in 0x9000(x)")
  else
    let k := lead pr (buffer iov) n
    if IOVEC * IOVMAX < k then
      .error OutOfBounds
    else
      .ok (v.blit 0 ((List.range k).map fun i => pr.memory (buffer iov i)))

/-- A `uint64` to which an `int` is added. -/
def addInt (len : Nat) (r : Int) : Nat := ((len + r) % 2 ^ 64).toNat

/-- The loop of both calls, from entry `i` on. -/
def eachBuffer (call : Nat → Int → Machine Caller Int) (v : Memory) : Nat → Nat → Nat → Machine Caller Nat
  | 0, _, len => return len
  | more + 1, i, len =>
    if IOVMAX ≤ i then
      Machine.halt OutOfBounds
    else do
      let r ← call (iovec v i).iov_base (lowInt (iovec v i).iov_len)
      eachBuffer call v more (i + 1) (addInt len r)

/-- `sys_readv` for the file of its descriptor; `v` is what the stack holds. -/
def sys_readv (p : Nat) (v : Memory) (iov : Nat) (iovcnt : Int) : Machine Caller Nat :=
  if iov = 0 then
    return 2 ^ 64 - 1
  else do
    let s ← get
    let v ← Machine.lift (copyinArray s.pr v iov (IOVEC * IOVMAX))
    eachBuffer (filereadUser fat p) v iovcnt.toNat 0 0

/-- The same of `sys_writev`, which copies as many entries as it is told. -/
def sys_writev (p : Nat) (v : Memory) (iov : Nat) (iovcnt : Int) : Machine Caller Nat :=
  if iov = 0 then
    return 2 ^ 64 - 1
  else do
    let s ← get
    let v ← Machine.lift (copyinArray s.pr v iov ((IOVEC : Int) * iovcnt % 2 ^ 64).toNat)
    eachBuffer (filewriteUser fat p) v iovcnt.toNat 0 0

/-! ### What the calls are for -/

/-- The place of each byte of buffers that are put one behind the other; nothing is behind
the last. -/
def concat : List Iovec → Nat → Nat
  | [], _ => 0
  | b :: rest, i => if i < b.iov_len ∨ rest = [] then buffer b.iov_base i else concat rest (i - b.iov_len)

def total (bufs : List Iovec) : Nat := (bufs.map Iovec.iov_len).sum

/-- The buffers of an array. -/
def buffers (v : Memory) (n : Nat) : List Iovec := (List.range n).map (iovec v)

/-- The array as the process has it. -/
def userArray (pr : User) (iov : Nat) : Memory := fun i => pr.memory (buffer iov i)

/-- The entries can be read from the memory of the process. -/
def Readable (pr : User) (iov : Nat) (iovcnt : Int) : Prop :=
  iov ≠ 0 ∧ ¬WildIn iov ∧ ∀ i < IOVEC * iovcnt.toNat, pr.reaches (buffer iov i)

/-- Two outcomes with the same file and the same memory. -/
def SameEffect (t u : Caller) : Prop := Alike t.file u.file ∧ u.pr = t.pr

/-- What is to hold of a call for the entries of an array: it stays in its own array, fails
where the user's cannot be read, and is otherwise the one call for all its bytes, whose
count is an `int`. -/
structure Vectored (whole : (Nat → Nat) → Int → Machine Caller Int) (iov : Nat) (iovcnt : Int) (s : Caller)
    (out : Except Halt (Nat × Caller)) : Prop where
  inside : out ≠ .error OutOfBounds
  fails : ¬Readable s.pr iov iovcnt → ∃ t, out = .ok (2 ^ 64 - 1, t)
  same : Readable s.pr iov iovcnt →
    let bufs := buffers (userArray s.pr iov) iovcnt.toNat
    Machine.Same SameEffect (fun r r' => r = addInt 0 r') out (whole (concat bufs) (lowInt (total bufs)) s)

end AvxKernel.File
