import AvxKernel.File.Opened
import AvxKernel.Fat.Split

/-! `sys_copy_file_range`: all bytes are read into pages of the kernel, and written from there. -/
namespace AvxKernel.File

open Fat (Geometry Disk Dirent Contents SameFile Takes)

/-- The mark of the model for an index outside the page of pointers. -/
def OutOfPage : Halt := .panic "out of the page of pointers"

/-- The places for pointers in a page. -/
def POINTERS : Nat := 512

/-- Two open files on entries of a volume, the free pages in the order of their list, and what
the pages hold. -/
structure Copying where
  disk : Disk
  src : Dirent
  dst : Dirent
  inOff : Nat
  outOff : Nat
  free : List Nat
  page : Nat → Memory

/-- `kalloc` fills the page with junk. -/
def kalloc : Machine Copying (Option Nat) := do
  let s ← get
  match s.free with
  | [] => return none
  | p :: free =>
    set { s with free, page := Function.update s.page p fun _ => 5 }
    return some p

/-- `memset(page, 0, PGSIZE)`, which faults where there is no page. -/
def clear : Option Nat → Machine Copying Nat
  | none => Machine.halt .fault
  | some p => do
    modify fun s => { s with page := Function.update s.page p fun _ => 0 }
    return p

def kfree (p : Nat) : Machine Copying Unit :=
  modify fun s => { s with free := p :: s.free, page := Function.update s.page p fun _ => 1 }

/-- The first loop, with the pointers that are in the page already. -/
def fillPages : Nat → List Nat → Machine Copying (List Nat)
  | 0, pbuf => return pbuf
  | more + 1, pbuf => do
    let r ← kalloc
    if POINTERS ≤ pbuf.length then
      Machine.halt OutOfPage
    else do
      let p ← clear r
      fillPages more (pbuf ++ [p])

/-- `pbuf[i]`; the page has been cleared before. -/
def pageAt (pbuf : List Nat) (i : Int) : Machine Copying Nat :=
  if 0 ≤ i ∧ i < POINTERS then return pbuf.getD i.toNat 0 else Machine.halt OutOfPage

/-- The loops over the pages. -/
def rounds (body : Int → Machine Copying Unit) : Nat → Nat → Machine Copying Unit
  | 0, _ => return ()
  | more + 1, i => do
    body i
    rounds body more (i + 1)

variable (fat : Geometry)

/-- `eread(fp_in->ep, 0, pbuf[i], fp_in->off + i * PGSIZE, n)`, whose result nobody looks at. -/
def readPage (pbuf : List Nat) (n : Nat) (i : Int) : Machine Copying Unit := do
  let p ← pageAt pbuf i
  let s ← get
  let ((_, bytes, src), disk) ← Machine.lift (Fat.eread fat s.src (u32 (s.inOff + PGSIZE * i.toNat)) (u32 n) s.disk)
  set { s with disk, src, page := Function.update s.page p ((s.page p).blit 0 bytes) }

/-- `ewrite` of bytes of the kernel. -/
def writeAt (bytes : List UInt8) (off n : Nat) : Machine Copying Unit := do
  let s ← get
  let ((_, dst), disk) ← Machine.lift (Fat.ewrite fat s.dst (.ofBytes bytes) (u32 off) (u32 n) s.disk)
  set { s with disk, dst }

/-- `ewrite(fp_out->ep, 0, pbuf[i], fp_out->off + i * PGSIZE, n)` -/
def writePage (pbuf : List Nat) (n : Nat) (i : Int) : Machine Copying Unit := do
  let p ← pageAt pbuf i
  let s ← get
  writeAt fat ((s.page p).window 0 n) (s.outOff + PGSIZE * i.toNat) n

/-- What is written between the end of the file and its offset: a page, and what lies behind
it in the memory of the kernel. -/
def gapBytes (behind : Memory) (n : Nat) : List UInt8 :=
  (List.range n).map fun i => if i < PGSIZE then 0 else behind i

def fillGap (behind : Memory) : Machine Copying Unit := do
  let s ← get
  if s.dst.file_size < s.outOff then do
    let p ← clear (← kalloc)
    writeAt fat (gapBytes behind (s.outOff - s.dst.file_size)) s.dst.file_size (s.outOff - s.dst.file_size)
    kfree p

/-- The call for a length other than zero; `off_in` is what the second `argaddr` has put there. -/
def copyRange (behind : Memory) (off_in len : Nat) : Machine Copying Unit := do
  let pagenum : Int := lowInt (if len % PGSIZE = 0 then len / PGSIZE else len / PGSIZE + 1)
  let lastlen := uint64 (len - PGSIZE * (pagenum - 1))
  let top ← clear (← kalloc)
  let pbuf ← fillPages pagenum.toNat []
  if off_in = 0 then do
    rounds (readPage fat pbuf PGSIZE) (pagenum - 1).toNat 0
    readPage fat pbuf lastlen (pagenum - 1)
    modify fun s => { s with inOff := u32 (s.inOff + len) }
  fillGap fat behind
  rounds (writePage fat pbuf PGSIZE) (pagenum - 1).toNat 0
  writePage fat pbuf lastlen (pagenum - 1)
  modify fun s => { s with outOff := u32 (s.outOff + len) }
  rounds (fun i => do kfree (← pageAt pbuf i)) pagenum.toNat 0
  kfree top

/-- Of `len` only the low half is set, to the low half of the argument; `high` is what the stack
holds in the other. The address of the first offset gives way to that of the second. -/
def sys_copy_file_range (behind : Memory) (off_out len high : Nat) : Machine Copying Nat :=
  let off_in := off_out
  let len := 2 ^ 32 * high + u32 len
  if len = 0 then return 0 else do
    copyRange fat behind off_in len
    return len

/-! ### What the call is for -/

variable {fat}

/-- The bytes asked for that are there. -/
def Copying.left (s : Copying) (len : Nat) : Nat := min len (s.src.file_size - s.inOff)

variable (fat) in
/-- So many bytes of the source are written at `fp_out->off`, in one write with what fills the
file up to there. -/
structure Copied (data : List UInt8) (len r : Nat) (s t : Copying) : Prop where
  count : r = s.left len
  inOff : t.inOff = s.inOff + r
  outOff : t.outOff = s.outOff + r
  pages : t.free.Perm s.free
  source : SameFile s.src t.src
  none : r = 0 → t.disk = s.disk ∧ t.dst = s.dst
  written : 0 < r → ∃ gap v, gap.length = s.outOff - s.dst.file_size ∧
    Takes s.dst (min s.outOff s.dst.file_size) (gap.length + r) ∧
    Fat.ewrite fat s.dst (.ofBytes (gap ++ (data.drop s.inOff).take r)) (min s.outOff s.dst.file_size)
      (gap.length + r) s.disk = .ok ((v, t.dst), t.disk)

/-- The pages for so many bytes, with the one of their pointers. -/
def pagesFor (len : Nat) : Nat := (len + (PGSIZE - 1)) / PGSIZE

variable (fat) in
/-- When the call does that: the length that it fetches is that of the bytes there, and there are
places for the pointers, pages, and room in the destination. -/
def Copyable (data : List UInt8) (behind : Memory) (len high : Nat) (s : Copying) : Prop :=
  let n := 2 ^ 32 * high + u32 len
  let gap := gapBytes behind (s.outOff - s.dst.file_size)
  n = s.left len ∧ (0 < n → pagesFor n ≤ POINTERS ∧
    pagesFor n + (if s.dst.file_size < s.outOff then 2 else 1) ≤ s.free.length ∧
    Takes s.dst (min s.outOff s.dst.file_size) (gap.length + n) ∧
    ∃ r, Fat.ewrite fat s.dst (.ofBytes (gap ++ (data.drop s.inOff).take n)) (min s.outOff s.dst.file_size)
      (gap.length + n) s.disk = .ok r)

end AvxKernel.File
