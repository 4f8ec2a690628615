import AvxKernel.Fat.Name
import AvxKernel.Fat.Volume

/-! Directory entries of `fat32.c`: the cursor of a file on its cluster chain,
and the writing, reading and removing of the slots of an entry. -/
namespace AvxKernel.Fat

/-- The fields of `struct dirent`, without its links and its reference count. -/
structure Dirent where
  filename : Buffer
  attr : Nat
  first_clus : Nat
  file_size : Nat
  cur_clus : Nat
  clus_cnt : Nat
  dirty : Bool
  valid : Int
  off : Nat

def Dirent.isDir (entry : Dirent) : Bool := entry.attr &&& ATTR_DIRECTORY ≠ 0

/-- Back to the first cluster. -/
def Dirent.rewind (entry : Dirent) : Dirent :=
  { entry with cur_clus := entry.first_clus, clus_cnt := 0 }

def Dirent.advance (entry : Dirent) (clus : Nat) : Dirent :=
  { entry with cur_clus := clus, clus_cnt := entry.clus_cnt + 1 }

/-- `clus >= FAT32_EOC` for an `int`. -/
def isEnd (clus : Nat) : Prop := FAT32_EOC ≤ clus ∧ clus < 2 ^ 31

instance (clus : Nat) : Decidable (isEnd clus) := inferInstanceAs (Decidable (_ ∧ _))

variable (fat : Geometry)

/-- The first loop of `reloc_clus`, over the clusters still to go; false where
the chain ends before that and nothing may be allocated. -/
def relocForward (alloc : Bool) : Nat → Dirent → Machine Disk (Bool × Dirent)
  | 0, entry => return (true, entry)
  | more + 1, entry => do
    let clus ← read_fat fat entry.cur_clus
    if isEnd clus then
      if alloc then
        let clus ← alloc_clus fat
        write_fat fat entry.cur_clus clus
        relocForward alloc more (entry.advance clus)
      else
        return (false, entry.rewind)
    else if clus = FAT32_BAD then
      Machine.panic "encounter a bad cluster\n"
    else
      relocForward alloc more (entry.advance clus)

/-- The second loop. -/
def relocFromStart : Nat → Dirent → Machine Disk Dirent
  | 0, entry => return entry
  | more + 1, entry => do
    let clus ← read_fat fat entry.cur_clus
    if FAT32_EOC ≤ clus then
      Machine.panic "reloc_clus"
    else
      relocFromStart more (entry.advance clus)

/-- The offset in the cluster, or none for -1. -/
def reloc_clus (entry : Dirent) (off : Nat) (alloc : Bool) :
    Machine Disk (Option Nat × Dirent) := do
  let clus_num := off / fat.byts_per_clus
  let (there, entry) ← relocForward fat alloc (clus_num - entry.clus_cnt) entry
  if there = false then
    return (none, entry)
  else
    let entry ← (if clus_num < entry.clus_cnt then relocFromStart fat clus_num entry.rewind
      else return entry)
    return (some (off % fat.byts_per_clus), entry)

/-- The offset that an unsigned variable gets from `reloc_clus`. -/
def unsignedOff (off : Option Nat) : Nat := off.getD (2 ^ 32 - 1)

/-- Writes one slot of a directory, growing the directory where it ends. -/
def putSlot (dp : Dirent) (off : Nat) (de : Slot) : Machine Disk Dirent := do
  let (off2, dp) ← reloc_clus fat dp off true
  let _ ← rw_clus_write fat dp.cur_clus (.ofBytes de) (unsignedOff off2) 32
  return dp

/-- The loop of `emake` over the long-name slots, `i` of them still to write. -/
def emakeLong (ep : Dirent) (entcnt : Nat) (checksum : UInt8) :
    Nat → Dirent → Nat → Machine Disk (Dirent × Nat)
  | 0, dp, off => return (dp, off)
  | i + 1, dp, off => do
    let order := if i + 1 = entcnt then (i + 1) ||| LAST_LONG_ENTRY else i + 1
    let units := nameUnits ep.filename CHAR_LONG_NAME (i * CHAR_LONG_NAME) false
    let dp ← putSlot fat dp off (longSlot order checksum units)
    emakeLong ep entcnt checksum i dp (u32 (off + 32))

/-- ".          " -/
def dotName : List UInt8 := 46 :: List.replicate 10 32

/-- "..         " -/
def dotDotName : List UInt8 := 46 :: 46 :: List.replicate 9 32

def emake (dp ep : Dirent) (off : Nat) : Machine Disk Dirent :=
  if dp.isDir = false then
    Machine.panic "emake: not dir"
  else if off % 32 ≠ 0 then
    Machine.panic "emake: not aligned"
  else if off ≤ 32 then
    putSlot fat dp off
      (shortSlot (if off = 0 then dotName else dotDotName) ATTR_DIRECTORY ep.first_clus 0)
  else do
    let entcnt := (ep.filename.strlen + CHAR_LONG_NAME - 1) / CHAR_LONG_NAME
    let shortname := generate_shortname (ep.filename.chars (FAT32_MAX_FILENAME + 1))
    let (dp, off) ← emakeLong fat ep entcnt (cal_checksum shortname) entcnt dp off
    putSlot fat dp off (shortSlot shortname ep.attr ep.first_clus ep.file_size)

/-- `read_entry_info`. -/
def read_entry_info (entry : Dirent) (de : Slot) : Dirent :=
  let first_clus := field de 20 2 * 2 ^ 16 + field de 26 2
  { entry with
    attr := de.attr
    first_clus
    file_size := field de 28 4
    cur_clus := first_clus
    clus_cnt := 0 }

/-- The slots that a 32-bit offset can reach. -/
def SLOTS : Nat := 2 ^ 27

/-- What `enext` carries from slot to slot: the entry it fills in, the empty
slots seen, what it has stored in `*count`, and whether `count` is still set. -/
structure Scan where
  ep : Dirent
  cnt : Nat
  count : Nat
  counting : Bool

/-- The body of the loop of `enext`, once the slot is read: the return value, or
none to go on. A name that does not fit the entry's array and a store through
the cleared `count` are faults. -/
def Scan.slot (s : Scan) (de : Slot) : Except Halt (Option Int × Scan) :=
  if de.order = END_OF_ENTRY then
    .ok (some (-1), s)
  else if de.order = EMPTY_ENTRY then
    .ok (none, { s with cnt := s.cnt + 1 })
  else if s.cnt ≠ 0 then
    if s.counting then .ok (some 0, { s with count := s.cnt }) else .error .fault
  else if de.attr = ATTR_LONG_NAME then
    let lcnt := de.order &&& 0xBF
    if de.order &&& LAST_LONG_ENTRY ≠ 0 ∧ s.counting = false then
      .error .fault
    else if lcnt = 0 ∨ 20 < lcnt then
      .error .fault
    else
      let ep := { s.ep with
        filename := read_entry_name s.ep.filename ((lcnt - 1) * CHAR_LONG_NAME) de }
      if de.order &&& LAST_LONG_ENTRY ≠ 0 then
        .ok (none, { s with ep, count := lcnt + 1, counting := false })
      else
        .ok (none, { s with ep })
  else if s.counting then
    .ok (some 1, { s with
      ep := read_entry_info { s.ep with filename := read_entry_name s.ep.filename 0 de } de
      count := 1 })
  else
    .ok (some 1, { s with ep := read_entry_info s.ep de })

/-- The loop of `enext`. -/
def enextFrom : Nat → Dirent → Nat → Scan → Machine Disk (Int × Dirent × Scan)
  | 0, _, _, _ => Machine.halt .diverge
  | limit + 1, dp, off, s => do
    let (off2, dp) ← reloc_clus fat dp off false
    match off2 with
    | none => return (-1, dp, s)
    | some off2 =>
      let de ← rw_clus_read fat dp.cur_clus off2 32
      match ← Machine.lift (s.slot de) with
      | (some type, s) => return (type, dp, s)
      | (none, s) => enextFrom limit dp (u32 (off + 32)) s

/-- The return value, the directory, the entry and `*count`. -/
def enext (dp ep : Dirent) (off count : Nat) : Machine Disk (Int × Dirent × Dirent × Nat) :=
  if dp.isDir = false then
    Machine.panic "enext not dir"
  else if off % 32 ≠ 0 then
    Machine.panic "enext not align"
  else if dp.valid ≠ 1 then
    return (-1, dp, ep, count)
  else do
    let ep := { ep with filename := ep.filename.clear (FAT32_MAX_FILENAME + 1) }
    let (type, dp, s) ← enextFrom fat (SLOTS + 1) dp off ⟨ep, 0, count, true⟩
    return (type, dp, s.ep, s.count)

end AvxKernel.Fat
