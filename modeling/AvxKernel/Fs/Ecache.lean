import AvxKernel.Fat.Name
import AvxKernel.Lib.Prog

/-! The cache of directory entries of `fat32.c`: entries with reference counts,
linked to their parents, on a list by last use. A section under `ecache.lock` is
one step, and so is every read of an entry outside of it. -/
namespace AvxKernel.Fs

open Fat (ATTR_DIRECTORY ATTR_ARCHIVE FAT32_MAX_FILENAME formatname)

def ENTRY_CACHE_NUM : Nat := 50

/-- The slot of `root`; those of `ecache.entries` follow it. -/
def root : Nat := 0

/-- A name, up to its NUL. -/
abbrev Name := List UInt8

/-- `struct dirent` without `dev`, which is 0 throughout; `cur_clus` and `clus_cnt`
only remember where the volume was last read, and count as part of it. -/
structure Dirent where
  filename : Name
  attr : Nat
  first_clus : Nat
  file_size : Nat
  dirty : Bool
  valid : Int
  ref : Int
  off : Nat
  parent : Option Nat

/-- `root` and `ecache`, with the entries from `root.next` on in list order, and
the volume below. -/
structure Ecache (δ : Type) where
  ent : Nat → Dirent
  order : List Nat
  disk : δ

/-- What the loop of `dirlookup` over a directory leaves behind: the entry it
read last, the offset at which it found the name, and the offset it stored
through `poff`. -/
structure Found where
  filename : Name
  attr : Nat
  first_clus : Nat
  file_size : Nat
  off : Option Nat
  poff : Option Nat

/-- A call on the volume; it need not return. -/
abbrev OnDisk (δ α : Type) := δ → Option (α × δ)

/-- The calls that read and write the volume, on the entries of the cache. -/
structure Disk (δ : Type) where
  /-- The loop of `dirlookup` for a name in a directory, with the entry it reads into. -/
  search : (Nat → Dirent) → Nat → Nat → Name → OnDisk δ Found
  isdirempty : (Nat → Dirent) → Nat → OnDisk δ Bool
  alloc_clus : OnDisk δ Nat
  /-- `ep->cur_clus = clus`, where `ep->clus_cnt` is 0. -/
  setCursor : Nat → Nat → OnDisk δ Unit
  emake : (Nat → Dirent) → Nat → Nat → Nat → OnDisk δ Unit
  eupdate : (Nat → Dirent) → Nat → OnDisk δ Unit
  eremove : (Nat → Dirent) → Nat → OnDisk δ Unit
  etrunc : (Nat → Dirent) → Nat → OnDisk δ Unit

variable {δ α : Type}

abbrev Cache (δ α : Type) := Prog (Ecache δ) α

def Ecache.set (s : Ecache δ) (e : Nat) (g : Dirent → Dirent) : Ecache δ :=
  { s with ent := Function.update s.ent e (g (s.ent e)) }

def entry (e : Nat) : Cache δ Dirent := Prog.read fun s => s.ent e

def setEntry (e : Nat) (g : Dirent → Dirent) : Cache δ Unit := Prog.modify fun s => s.set e g

def onDisk (x : (Nat → Dirent) → OnDisk δ α) : Cache δ α := Prog.onState fun s =>
  match x s.ent s.disk with
  | some (a, disk) => .ok (a, { s with disk })
  | none => .error .diverge

/-- `strncmp` of two names is 0. -/
def sameName (a b : Name) : Bool := a.take FAT32_MAX_FILENAME == b.take FAT32_MAX_FILENAME

/-- `ep->attribute & ATTR_DIRECTORY` -/
def Dirent.isDir (d : Dirent) : Bool := d.attr &&& ATTR_DIRECTORY ≠ 0

/-! ### References and locks -/

/-- Whether `eget` hits the entry. -/
def Dirent.hit (d : Dirent) (parent : Nat) (name : Name) : Bool :=
  d.valid == 1 && d.parent == some parent && sameName d.filename name

def eget (parent : Nat) (name : Name) : Cache δ Nat := Prog.onState do
  let s ← get
  match s.order.find? fun e => (s.ent e).hit parent name with
  | some ep =>
    let t := s.set ep fun d => { d with ref := d.ref + 1 }
    set (if (s.ent ep).ref = 0 then t.set parent fun d => { d with ref := d.ref + 1 } else t)
    return ep
  | none =>
    match s.order.reverse.find? fun e => (s.ent e).ref == 0 with
    | some ep =>
      set (s.set ep fun d => { d with ref := 1, off := 0, valid := 0, dirty := false })
      return ep
    | none => Machine.panic "eget: insufficient ecache"

def edup (e : Nat) : Cache δ Nat := do
  setEntry e fun d => { d with ref := d.ref + 1 }
  return e

def elock (e : Nat) : Cache δ Unit := do
  if (← entry e).ref < 1 then
    Prog.panic "elock"
  else
    Prog.acquire e

def eunlock (e : Nat) : Cache δ Unit := do
  if ← Prog.holding e then
    if (← entry e).ref < 1 then
      Prog.panic "eunlock"
    else
      Prog.release e
  else
    Prog.panic "eunlock"

def eupdate (disk : Disk δ) (e : Nat) : Cache δ Unit := do
  let d ← entry e
  if d.dirty = false ∨ d.valid ≠ 1 then
    return
  else
    onDisk fun ent => disk.eupdate ent e
    setEntry e fun d => { d with dirty := false }

def eremove (disk : Disk δ) (e : Nat) : Cache δ Unit := do
  if (← entry e).valid ≠ 1 then
    return
  else
    onDisk fun ent => disk.eremove ent e
    setEntry e fun d => { d with valid := -1 }

def etrunc (disk : Disk δ) (e : Nat) : Cache δ Unit := do
  onDisk fun ent => disk.etrunc ent e
  setEntry e fun d => { d with file_size := 0, first_clus := 0, dirty := true }

/-- The first section of `eput`: whether the last reference to a valid entry is
put back. Where the entry's lock is not free, `acquiresleep` sleeps with
`ecache.lock` held. -/
def eputFirst (e : Nat) : Cache δ Bool := Prog.step fun me => do
  let s ← get
  let d := s.state.ent e
  if e ≠ root ∧ d.valid ≠ 0 ∧ d.ref = 1 then
    match s.holder e with
    | some _ => Machine.panic "sched locks"
    | none =>
      set { s with
        state := { s.state with order := e :: s.state.order.erase e }
        holder := Function.update s.holder e (some me) }
      return true
  else
    set { s with state := s.state.set e fun d => { d with ref := d.ref - 1 } }
    return false

/-- What `eput` writes back of an entry that it has locked. -/
def eputWrite (disk : Disk δ) (e : Nat) : Cache δ Unit := do
  if (← entry e).valid = -1 then
    etrunc disk e
  else
    match (← entry e).parent with
    | none => Prog.panic "elock"
    | some parent =>
      elock parent
      eupdate disk e
      match (← entry e).parent with
      | none => Prog.panic "eunlock"
      | some parent => eunlock parent

/-- The chain of parents that `eput` follows is cut at a length. -/
def eput (disk : Disk δ) : Nat → Nat → Cache δ Unit
  | 0, _ => Prog.halt .diverge
  | limit + 1, e => do
    if ← eputFirst e then
      eputWrite disk e
      Prog.release e
      let eparent := (← entry e).parent
      setEntry e fun d => { d with ref := d.ref - 1 }
      if (← entry e).ref = 0 then
        match eparent with
        | none => Prog.halt .fault
        | some eparent => eput disk limit eparent
      else
        return
    else
      return

variable (disk : Disk δ) (limit : Nat)

/-! ### Looking up -/

/-- The entry, and what has been stored through `poff`. -/
def dirlookup (dp : Nat) (filename : Name) : Cache δ (Option Nat × Option Nat) := do
  let d ← entry dp
  if d.isDir = false then
    Prog.panic "dirlookup not DIR"
  else if sameName filename [46] then
    return (some (← edup dp), none)
  else if sameName filename [46, 46] then
    if dp = root then
      return (some (← edup root), none)
    else
      match (← entry dp).parent with
      | none => return (none, none)
      | some parent => return (some (← edup parent), none)
  else if (← entry dp).valid ≠ 1 then
    return (none, none)
  else
    let ep ← eget dp filename
    if (← entry ep).valid = 1 then
      return (some ep, none)
    else
      let found ← onDisk fun ent => disk.search ent dp ep filename
      setEntry ep fun d => { d with
        filename := found.filename
        attr := found.attr
        first_clus := found.first_clus
        file_size := found.file_size }
      match found.off with
      | some off =>
        let parent ← edup dp
        setEntry ep fun d => { d with parent := some parent, off }
        setEntry ep fun d => { d with valid := 1 }
        return (some ep, found.poff)
      | none =>
        eput disk limit ep
        return (none, found.poff)

/-- The next element of a path and what follows it. -/
def skipelem (path : Name) : Option (Name × Name) :=
  let path := path.dropWhile (· == 47)
  if path.isEmpty then
    none
  else
    let elem := path.takeWhile (· ≠ 47)
    let rest := path.dropWhile (· ≠ 47)
    some (elem.take FAT32_MAX_FILENAME, rest.dropWhile (· == 47))

/-- The loop of `new_lookup_path`. Each round takes an element off the path, so
the path's length bounds the rounds. -/
def lookupFrom (parent : Bool) : Nat → Nat → Name → Name → Cache δ (Option Nat × Name)
  | 0, _, _, _ => Prog.halt .diverge
  | rounds + 1, entry, path, name =>
    match skipelem path with
    | none =>
      if parent then do
        eput disk limit entry
        return (none, name)
      else
        return (some entry, name)
    | some (name, path) => do
      elock entry
      if (← Fs.entry entry).isDir = false then
        eunlock entry
        eput disk limit entry
        return (none, name)
      else if parent = true ∧ path = [] then
        eunlock entry
        return (some entry, name)
      else
        match (← dirlookup disk limit entry name).1 with
        | none =>
          eunlock entry
          eput disk limit entry
          return (none, name)
        | some next =>
          eunlock entry
          eput disk limit entry
          lookupFrom parent rounds next path name

/-- `new_lookup_path` for a process with the working directory `cwd`, and
`lookup_path` where there is no `env`. -/
def new_lookup_path (env cwd : Option Nat) (path : Name) (parent : Bool) :
    Cache δ (Option Nat × Name) := do
  if path.head? = some 47 then
    let entry ← edup root
    lookupFrom disk limit parent (path.length + 1) entry path []
  else
    match env with
    | some env =>
      let entry ← edup env
      lookupFrom disk limit parent (path.length + 1) entry path []
    | none =>
      if path = [] then
        return (none, [])
      else
        match cwd with
        | none => Prog.panic "elock"
        | some cwd =>
          let entry ← edup cwd
          lookupFrom disk limit parent (path.length + 1) entry path []

def new_ename (env cwd : Option Nat) (path : Name) : Cache δ (Option Nat) := do
  return (← new_lookup_path disk limit env cwd path false).1

def new_enameparent (env cwd : Option Nat) (path : Name) : Cache δ (Option Nat × Name) :=
  new_lookup_path disk limit env cwd path true

def ename (cwd : Option Nat) (path : Name) : Cache δ (Option Nat) :=
  new_ename disk limit none cwd path

def enameparent (cwd : Option Nat) (path : Name) : Cache δ (Option Nat × Name) :=
  new_enameparent disk limit none cwd path

/-! ### Making entries -/

/-- The entry of a file that is made, and for a directory its two first slots. -/
def fillEntry (dp ep : Nat) (name : Name) (attr off : Nat) : Cache δ Unit := do
  setEntry ep fun d => { d with attr := attr, file_size := 0, first_clus := 0 }
  let parent ← edup dp
  setEntry ep fun d => { d with
    parent := some parent
    off
    dirty := false
    filename := name.take FAT32_MAX_FILENAME }
  onDisk fun _ => disk.setCursor ep 0
  (if attr = ATTR_DIRECTORY then do
    let clus ← onDisk fun _ => disk.alloc_clus
    setEntry ep fun d => { d with first_clus := clus }
    onDisk fun _ => disk.setCursor ep clus
    onDisk fun ent => disk.emake ent ep ep 0
    onDisk fun ent => disk.emake ent ep dp 32
  else
    setEntry ep fun d => { d with attr := d.attr ||| ATTR_ARCHIVE })
  onDisk fun ent => disk.emake ent dp ep off
  setEntry ep fun d => { d with valid := 1 }

def ealloc (dp : Nat) (name : Name) (attr : Nat) : Cache δ (Option Nat) := do
  let d ← entry dp
  if d.isDir = false then
    Prog.panic "ealloc not dir"
  else if d.valid ≠ 1 then
    return none
  else
    match formatname name with
    | none => return none
    | some name =>
      let (found, off) ← dirlookup disk limit dp name
      match found with
      | some ep => return some ep
      | none =>
        let ep ← eget dp name
        elock ep
        fillEntry disk dp ep name attr (off.getD 0)
        eunlock ep
        return some ep

/-- `strncpy(ep->filename, "zero", 4)` -/
def setZero (e : Nat) : Cache δ Unit :=
  setEntry e fun d => { d with filename := [122, 101, 114, 111] ++ d.filename.drop 4 }

end AvxKernel.Fs
