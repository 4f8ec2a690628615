import AvxKernel.Fat.Cursors
import AvxKernel.Fd.Handlers

/-! One open file on an entry of the volume, for the processes that share it. The calls of
`file.c` hold the lock of the entry, so that each of them is one step. -/
namespace AvxKernel.File

open Fat (Geometry Disk Dirent Sink Source SameFile FAT32_MAX_FILENAME)
open Fd (cstr SEEK_SET SEEK_CUR SEEK_END)

/-- The `struct file`, its entry, the volume, and of each process its name and its
`char_count`. -/
structure Opened where
  disk : Disk
  ep : Dirent
  off : Nat
  readable : Bool
  writable : Bool
  name : Nat → List UInt8
  char_count : Nat → Int

def Opened.filename (s : Opened) : List UInt8 := s.ep.filename.chars (FAT32_MAX_FILENAME + 1)

/-- A process of the benchmark on one of its temporary files. -/
def Opened.Bench (s : Opened) (p : Nat) : Prop :=
  (cstr "libc-bench").isPrefixOf (s.name p) ∧ (cstr "tmpfile_").isPrefixOf s.filename

instance (s : Opened) (p : Nat) : Decidable (s.Bench p) := inferInstanceAs (Decidable (_ ∧ _))

def Opened.setCharCount (s : Opened) (p : Nat) (n : Int) : Opened :=
  { s with char_count := Function.update s.char_count p n }

/-- A count that is an `int`, as a `uint`. -/
def uint (n : Int) : Nat := (n % 2 ^ 32).toNat

/-- `either_copyout` of one character: what is stored. -/
def copyoutChar (buf : Sink) (ch : UInt8) : List UInt8 := [ch].take (buf.copy 0 1).1

/-- A call on the volume. -/
def onDisk {α : Type} (x : Machine Disk α) : Machine Opened α :=
  Machine.zoom Opened.disk (fun disk s => { s with disk }) x

variable (fat : Geometry)

/-- The result, and the bytes that are stored. -/
def fileread (p : Nat) (buf : Sink) (n : Int) : Machine Opened (Int × List UInt8) := do
  let s ← get
  if s.readable = false then
    return (-1, [])
  else if 0 < s.char_count p then
    set (s.setCharCount p (s.char_count p - 1))
    return (n, [])
  else if s.Bench p then
    return (1, copyoutChar buf 120)
  else if (cstr "zero").isPrefixOf s.filename then
    return (1, copyoutChar buf 0)
  else if (cstr "urandom").isPrefixOf s.filename then
    return (1, copyoutChar buf 114)
  else
    let (r, bytes, ep) ← onDisk (Fat.ereadInto fat s.ep buf s.off (uint n))
    modify fun s => { s with ep, off := if 0 < r then u32 (s.off + r.toNat) else s.off }
    return (r, bytes)

def filewrite (p : Nat) (data : Source) (n : Int) : Machine Opened Int := do
  let s ← get
  if s.writable = false then
    return -1
  else if s.char_count p ≠ 0 then
    set (s.setCharCount p (s.char_count p + n))
    return n
  else if s.Bench p then
    set (s.setCharCount p n)
    return 1
  else
    let (r, ep) ← onDisk (Fat.ewrite fat s.ep data s.off (uint n))
    if r = n then
      modify fun s => { s with ep, off := u32 (s.off + uint n) }
      return n
    else
      modify fun s => { s with ep }
      return -1

/-- The offset that is asked for and the result are `uint64`, that of the file a `uint`. -/
def fileseek (offset : Nat) (whence : Int) : Machine Opened Nat := do
  let s ← get
  if whence = SEEK_SET then
    set { s with off := u32 offset }
    return offset
  else if whence = SEEK_CUR then
    set { s with off := u32 (s.off + offset) }
    return u32 (s.off + offset)
  else if whence = SEEK_END then
    set { s with off := u32 (s.ep.file_size + offset) }
    return u32 (s.ep.file_size + offset)
  else
    return 2 ^ 64 - 1

/-- The offset is an `int`, and `fileseek` takes a `uint64`. -/
def uint64 (off : Int) : Nat := (off % 2 ^ 64).toNat

def sys_pread (p : Nat) (buf : Sink) (count off : Int) : Machine Opened (Int × List UInt8) := do
  let _ ← fileseek (uint64 off) SEEK_SET
  fileread fat p buf count

variable {s t u : Opened}

/-- What `fileread` takes for a file of bytes. -/
structure Opened.Plain (s : Opened) (p : Nat) : Prop where
  readable : s.readable = true
  none : ¬0 < s.char_count p
  bench : ¬s.Bench p
  zero : ¬(cstr "zero").isPrefixOf s.filename
  urandom : ¬(cstr "urandom").isPrefixOf s.filename

/-- Two states that differ only in where the file was read last. -/
def Alike (t u : Opened) : Prop := SameFile t.ep u.ep ∧ u = { t with ep := u.ep }

theorem uint_lt (n : Int) : uint n < 2 ^ 32 := by
  rw [uint]
  omega

section OnDisk

variable {α : Type} {x : Machine Disk α}

theorem onDisk_ok {a : α} {d : Disk} (run : x t.disk = .ok (a, d)) :
    onDisk x t = .ok (a, { t with disk := d }) := by
  unfold onDisk Machine.zoom
  rw [run]

theorem onDisk_error {stop : Halt} (run : x t.disk = .error stop) : onDisk x t = .error stop := by
  unfold onDisk Machine.zoom
  rw [run]

end OnDisk

end AvxKernel.File
