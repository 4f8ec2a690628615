import AvxKernel.Fat.File
import AvxKernel.Fat.FreeSlots
import AvxKernel.Fat.Remove
import AvxKernel.Fat.Truncate
import AvxKernel.Fs.Calls

/-! The cache of directory entries over a volume. The calls of `fat32.c` on the volume
are those on its bytes, for the entries of the cache as they are. -/
namespace AvxKernel.Fs

open Fat (Geometry Buffer FAT32_MAX_FILENAME SLOTS)
open Fd (cstr)

/-- The bytes of the volume, and `cur_clus` and `clus_cnt` of each entry. -/
structure Mounted where
  bytes : Fat.Disk
  cur_clus : Nat → Nat
  clus_cnt : Nat → Nat

/-- An entry of the cache with its cursor. -/
def Mounted.dirent (v : Mounted) (e : Nat) (d : Dirent) : Fat.Dirent where
  filename := Buffer.ofName (fun _ => 0) d.filename
  attr := d.attr
  first_clus := d.first_clus
  file_size := d.file_size
  cur_clus := v.cur_clus e
  clus_cnt := v.clus_cnt e
  dirty := d.dirty
  valid := d.valid
  off := d.off

/-- The cursor of an entry, as a call has left it. -/
def Mounted.keep (v : Mounted) (e : Nat) (d : Fat.Dirent) : Mounted :=
  { v with
    cur_clus := Function.update v.cur_clus e d.cur_clus
    clus_cnt := Function.update v.clus_cnt e d.clus_cnt }

/-- A call on the bytes; where it stops it does not return. -/
def onBytes {α β : Type} (x : Machine Fat.Disk α) (k : α → Mounted → β × Mounted) :
    OnDisk Mounted β := fun v =>
  match x v.bytes with
  | .ok (a, bytes) => some (k a { v with bytes })
  | .error _ => none

variable (fat : Geometry)

/-- The loop of `dirlookup`: the directory, the entry that it reads into, whether that is
the one, and the offset. -/
def lookFrom (filename : Name) :
    Nat → Fat.Dirent → Fat.Dirent → Nat → Nat →
      Machine Fat.Disk (Fat.Dirent × Fat.Dirent × Bool × Nat)
  | 0, _, _, _, _ => Machine.halt .diverge
  | limit + 1, dp, ep, off, count => do
    let (type, dp, ep, count) ← Fat.enext fat dp ep off count
    if type = -1 then
      return (dp, ep, false, off)
    else if Fat.sameName filename ep.filename then
      return (dp, ep, true, off)
    else
      lookFrom filename limit dp ep (u32 (off + count <<< 5)) count

/-- The calls of `fat32.c`; the loop of `etrunc` is cut at a length. -/
def fatDisk (limit : Nat) : Disk Mounted where
  search ent dp ep filename v := onBytes (do
      let (_, dp) ← Fat.reloc_clus fat (v.dirent dp (ent dp)) 0 false
      lookFrom fat filename (SLOTS + 1) dp (v.dirent ep (ent ep)) 0 0)
    (fun (dp', ep', found, off) v =>
      ({ filename := ep'.filename.chars (FAT32_MAX_FILENAME + 1)
         attr := ep'.attr
         first_clus := ep'.first_clus
         file_size := ep'.file_size
         off := if found then some off else none
         poff := if found then none else some off }, (v.keep dp dp').keep ep ep')) v
  isdirempty ent dp v :=
    onBytes (Fat.enext fat (v.dirent dp (ent dp)) Fat.blank 64 0)
      (fun (type, dp', _, _) v => (type == -1, v.keep dp dp')) v
  alloc_clus v := onBytes (Fat.alloc_clus fat) (fun clus v => (clus, v)) v
  setCursor e clus v := some ((), { v with
    cur_clus := Function.update v.cur_clus e clus
    clus_cnt := Function.update v.clus_cnt e 0 })
  emake ent dp ep off v :=
    onBytes (Fat.emake fat (v.dirent dp (ent dp)) (v.dirent ep (ent ep)) off)
      (fun dp' v => ((), v.keep dp dp')) v
  eupdate ent e v :=
    match (ent e).parent with
    | none => none
    | some dp =>
      onBytes (Fat.eupdate fat (v.dirent dp (ent dp)) (v.dirent e (ent e)))
        (fun (dp', _) v => ((), v.keep dp dp')) v
  eremove ent e v :=
    match (ent e).parent with
    | none => none
    | some dp =>
      onBytes (Fat.eremove fat (v.dirent dp (ent dp)) (v.dirent e (ent e)))
        (fun (dp', _) v => ((), v.keep dp dp')) v
  etrunc ent e v :=
    onBytes (Fat.etrunc fat limit (v.dirent e (ent e))) (fun _ v => ((), v)) v

/-- `eread` into memory that takes it all. -/
def eread (e off n : Nat) : Cache Mounted (Int × List UInt8) :=
  onDisk fun ent v => onBytes (Fat.eread fat (v.dirent e (ent e)) off n)
    (fun (r, bytes, e') v => ((r, bytes), v.keep e e')) v

/-- `ewrite` from memory that gives it all. -/
def ewrite (e off : Nat) (bytes : List UInt8) : Cache Mounted Int := do
  let (r, e') ← onDisk fun ent v =>
    onBytes (Fat.ewrite fat (v.dirent e (ent e)) (.ofBytes bytes) off bytes.length)
      (fun (r, e') v => ((r, e'), v.keep e e')) v
  setEntry e fun d => { d with
    first_clus := e'.first_clus
    file_size := e'.file_size
    dirty := e'.dirty }
  return r

/-! ### Open files -/

/-- What `fileread` and `filewrite` look at of the process: whether its name begins with
`libc-bench`, and its `char_count`. -/
structure Caller where
  bench : Bool
  char_count : Int
deriving DecidableEq

/-- The case of a directory entry in `fileread`: the result, the bytes and the process. -/
def readEntry (p : Caller) (e off n : Nat) : Cache Mounted ((Int × List UInt8) × Caller) := do
  elock e
  let name := (← entry e).filename
  if 0 < p.char_count then
    eunlock e
    return ((lowInt n, []), { p with char_count := p.char_count - 1 })
  else if p.bench = true ∧ (cstr "tmpfile_").isPrefixOf name = true then
    eunlock e
    return ((1, [120]), p)
  else
    let r ← (if (cstr "zero").isPrefixOf name = true then
        return (1, [0])
      else if (cstr "urandom").isPrefixOf name = true then
        return (1, [114])
      else
        eread fat e off n)
    eunlock e
    return (r, p)

/-- The same of `filewrite`. -/
def writeEntry (p : Caller) (e off : Nat) (bytes : List UInt8) : Cache Mounted (Int × Caller) := do
  elock e
  let name := (← entry e).filename
  let n := lowInt bytes.length
  if p.char_count ≠ 0 then
    eunlock e
    return (n, { p with char_count := p.char_count + n })
  else if p.bench = true ∧ (cstr "tmpfile_").isPrefixOf name = true then
    eunlock e
    return (1, { p with char_count := n })
  else
    let r ← ewrite fat e off bytes
    eunlock e
    return (if r = n then r else -1, p)

variable (disk : Disk Mounted) (limit : Nat)

/-- A name is looked up in a directory. -/
def lookupEntry (dp : Nat) (name : Name) : Cache Mounted (Option Nat) := do
  elock dp
  let (found, _) ← dirlookup disk limit dp name
  eunlock dp
  return found

/-- An entry is made in a directory, as `create` does. -/
def createEntry (dp : Nat) (name : Name) (attr : Nat) : Cache Mounted (Option Nat) := do
  elock dp
  let made ← ealloc disk limit dp name attr
  eunlock dp
  return made

end AvxKernel.Fs
