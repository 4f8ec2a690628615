import AvxKernel.Lib.Bytes
import AvxKernel.Lib.Machine
import AvxKernel.Params
import Mathlib.Data.List.TakeWhile

/-! Names in `fat32.c`: which are legal, how a long-name slot and a short-name
slot spell them, and how they are read back. `char` is signed, so bytes from 128
on count as below the blank. -/
namespace AvxKernel.Fat

def ATTR_READ_ONLY : Nat := 0x01
def ATTR_SYSTEM : Nat := 0x04
def ATTR_DIRECTORY : Nat := 0x10
def ATTR_ARCHIVE : Nat := 0x20
def ATTR_LONG_NAME : Nat := 0x0F

def LAST_LONG_ENTRY : Nat := 0x40

def EMPTY_ENTRY : Nat := 0xe5
def END_OF_ENTRY : Nat := 0x00
def CHAR_LONG_NAME : Nat := 13
def CHAR_SHORT_NAME : Nat := 11

def FAT32_MAX_FILENAME : Nat := 255

/-- The bytes of a C array from its start on: the array `filename` of a
`struct dirent` and the four bytes behind it, its attribute and padding, that a
twentieth long-name slot reaches. -/
abbrev Buffer := Nat → UInt8

/-- The characters before the first NUL, or the first `n`. -/
def Buffer.chars (buf : Buffer) (n : Nat) : List UInt8 :=
  ((List.range n).map buf).takeWhile (· ≠ 0)

/-- `strlen` of a filename, which ends within its array. -/
def Buffer.strlen (buf : Buffer) : Nat := (buf.chars (FAT32_MAX_FILENAME + 1)).length

/-- The buffer holds the characters and a NUL behind them. -/
def Buffer.Holds (buf : Buffer) (name : List UInt8) : Prop :=
  (∀ i (h : i < name.length), buf i = name[i]) ∧ buf name.length = 0 ∧ 0 ∉ name

/-- `strncpy` and the NUL that `ealloc` puts at the end of the array. -/
def Buffer.ofName (buf : Buffer) (name : List UInt8) : Buffer := fun i =>
  if i < FAT32_MAX_FILENAME then name.getD i 0
  else if i = FAT32_MAX_FILENAME then 0
  else buf i

/-- `memset` over the array alone. -/
def Buffer.clear (buf : Buffer) (n : Nat) : Buffer := fun i => if i < n then 0 else buf i

def Buffer.set (buf : Buffer) (i : Nat) (b : UInt8) : Buffer := Function.update buf i b

/-- `"*/:<>?\|` -/
def illegal : List UInt8 := [34, 42, 47, 58, 60, 62, 63, 92, 124]

/-- Trims blanks at both ends and dots in front; none if a character is illegal. -/
def formatname (name : List UInt8) : Option (List UInt8) :=
  let name := name.dropWhile fun c => c == 32 || c == 46
  if name.any fun c => c < 0x20 || 0x80 ≤ c || illegal.contains c then
    none
  else
    some (name.reverse.dropWhile (· == 32)).reverse

theorem formatname_front {name name' : List UInt8} (h : formatname name = some name') :
    name'.head? ≠ some 46 := by
  intro dot
  unfold formatname at h
  simp only at h
  split at h
  · cases h
  · have trimmed := Option.some.inj h
    have isPrefix : name' <+: name.dropWhile fun c => c == 32 || c == 46 := by
      rw [← trimmed]
      have suffix := List.dropWhile_suffix (l := (name.dropWhile fun c => c == 32 || c == 46).reverse)
        (fun c : UInt8 => c == 32)
      simpa using List.reverse_prefix.mpr suffix
    have first := List.head?_dropWhile_not (fun c : UInt8 => c == 32 || c == 46) name
    obtain ⟨rest, eq⟩ := isPrefix
    have head : (name.dropWhile fun c => c == 32 || c == 46).head? = some 46 := by
      rw [← eq]
      cases name' with
      | nil => cases dot
      | cons c cs => simpa using dot
    rw [head] at first
    simp at first

theorem formatname_slash {name : List UInt8} (slash : (47 : UInt8) ∈ name) :
    formatname name = none := by
  have kept : (47 : UInt8) ∈ name.dropWhile fun c => c == 32 || c == 46 := by
    rw [← List.takeWhile_append_dropWhile (p := fun c : UInt8 => c == 32 || c == 46) (l := name),
      List.mem_append] at slash
    rcases slash with front | behind
    · simpa using List.mem_takeWhile_imp front
    · exact behind
  rw [formatname, if_pos]
  exact List.any_eq_true.mpr ⟨47, kept, by decide⟩

/-- `+,;=[]` -/
def illegalShort : List UInt8 := [43, 44, 59, 61, 91, 93]

def shortChar (c : UInt8) : UInt8 :=
  if 97 ≤ c && c ≤ 122 then c - 32
  else if illegalShort.contains c then 95
  else c

/-- The loop of `generate_shortname`, at position `at` of the name: `p` is the
last dot, or the start if there is none, until it has been passed. A round moves
at least one position on, so the name's length bounds their number. -/
def shortnameFrom (name : List UInt8) : Nat → Nat → Option Nat → List UInt8 → List UInt8
  | 0, _, _, shortname => shortname
  | limit + 1, i, p, shortname =>
    if CHAR_SHORT_NAME ≤ shortname.length then
      shortname
    else
      match name[i]? with
      | none => shortname
      | some c =>
        if shortname.length = 8 ∧ p.isSome then
          if p.getD 0 + 1 < i + 1 then
            shortname
          else
            shortnameFrom name limit (p.getD 0 + 1) none shortname
        else if c = 32 then
          shortnameFrom name limit (i + 1) p shortname
        else if c = 46 then
          if p.elim true (· < i + 1) then
            shortnameFrom name limit (i + 1) none
              (shortname ++ List.replicate (8 - shortname.length) 32)
          else
            shortnameFrom name limit (i + 1) p shortname
        else
          shortnameFrom name limit (i + 1) p (shortname ++ [shortChar c])

/-- The position of the last dot, 0 if there is none. -/
def lastDot (name : List UInt8) : Nat :=
  ((List.range name.length).reverse.find? fun j => name.getD j 0 == 46).getD 0

def generate_shortname (name : List UInt8) : List UInt8 :=
  let shortname := shortnameFrom name name.length 0 (some (lastDot name)) []
  shortname ++ List.replicate (CHAR_SHORT_NAME - shortname.length) 32

def cal_checksum (shortname : List UInt8) : UInt8 :=
  shortname.foldl (fun sum c => (if sum &&& 1 = 0 then (0 : UInt8) else 0x80) + sum / 2 + c) 0

/-- The inner loop of `emake`: the characters from `p` on, two bytes each, and
after the NUL only bytes 0xff. -/
def nameUnits (filename : Buffer) : Nat → Nat → Bool → List UInt8
  | 0, _, _ => []
  | j + 1, p, false => filename p :: 0 :: nameUnits filename j (p + 1) (filename p == 0)
  | j + 1, p, true => 0xff :: 0xff :: nameUnits filename j p true

/-- `snstr`: stops at the first NUL and then fills one place less than is left. -/
def snstr (dst : Buffer) (i : Nat) : List Nat → Buffer
  | [] => dst
  | u :: rest =>
    if u = 0 then
      fun k => if i ≤ k ∧ k < i + rest.length then 0 else dst k
    else
      snstr (dst.set i (UInt8.ofNat u)) (i + 1) rest

/-- A directory slot is 32 bytes long. -/
abbrev Slot := List UInt8

def Slot.order (de : Slot) : Nat := field de 0 1
def Slot.attr (de : Slot) : Nat := field de 11 1

/-- The two-byte characters of a field of a long-name slot. -/
def Slot.wchars (de : Slot) (off n : Nat) : List Nat :=
  (List.range n).map fun i => field de (off + 2 * i) 2

def longSlot (order : Nat) (checksum : UInt8) (units : List UInt8) : Slot :=
  [UInt8.ofNat order] ++ units.take 10 ++ [UInt8.ofNat ATTR_LONG_NAME, 0, checksum] ++
    (units.drop 10).take 12 ++ [0, 0] ++ units.drop 22

def shortSlot (name : List UInt8) (attr first_clus file_size : Nat) : Slot :=
  name ++ [UInt8.ofNat attr] ++ List.replicate 8 0 ++ bytesOf (first_clus / 2 ^ 16) 2 ++
    List.replicate 4 0 ++ bytesOf (first_clus % 2 ^ 16) 2 ++ bytesOf file_size 4

/-- The characters of a short name that `read_entry_name` takes over. -/
def shortChars (de : Slot) : List UInt8 :=
  let base := (de.take 8).takeWhile (· ≠ 32)
  let dot := if de.getD 8 0 ≠ 32 then [46] else []
  base ++ dot ++ ((de.drop 8).take 3).takeWhile (· ≠ 32)

/-- Reads the name of a slot into the buffer from position `i` on. -/
def read_entry_name (buffer : Buffer) (i : Nat) (de : Slot) : Buffer :=
  if de.attr = ATTR_LONG_NAME then
    let buffer := snstr buffer i (de.wchars 1 5)
    let buffer := snstr buffer (i + 5) (de.wchars 14 6)
    snstr buffer (i + 11) (de.wchars 28 2)
  else
    fun k =>
      if i ≤ k ∧ k < i + (CHAR_SHORT_NAME + 2) then (shortChars de).getD (k - i) 0 else buffer k

end AvxKernel.Fat
