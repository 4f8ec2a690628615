import AvxKernel.Vm.Space

/-! The list of a process's virtual memory areas: `vma.c`, and `mmap` as `exec`
uses it. The nodes of the list are pages of kernel memory, read and written at
the offsets of `struct vma`; a pointer the kernel does not map faults. `limit`
bounds the rounds of the loops that follow pointers. -/
namespace AvxKernel.Exec

open Vm

def MAXUVA : Nat := 0x80000000
def USER_MMAP_START : Nat := MAXUVA - 0x10000000 - 2 * PGSIZE
def USER_STACK_TOP : Nat := MAXUVA - PGSIZE
def INIT_STACK_SIZE : Nat := 100 * PGSIZE

/-- `enum segtype`. -/
def NONE : Nat := 0
def MMAP : Nat := 1
def STACK : Nat := 2

/-- The fields of `struct proc` that `exec` uses. -/
structure Proc where
  sz : Nat
  pagetable : Nat
  trapframe : Nat
  vma : Nat
  filelimit : Nat
  ofile : Nat → Nat
  exec_close : Nat → Int
  name : List UInt8

/-- What `exec` runs on: memory, the calling process, and a file system of which
it knows only the calls below. -/
structure Kernel (F : Type) where
  ram : Ram
  p : Proc
  fs : F

/-- The calls into the file system, each with what it hands back. `ename` and
`file_open` (the source's `open`) return 0 and -1 on failure, and `eread` the
bytes it delivers, in place of the address they go to. -/
structure FileSystem (F : Type) where
  ename : List UInt8 → Machine F Nat
  elock : Nat → Machine F Unit
  eunlock : Nat → Machine F Unit
  eput : Nat → Machine F Unit
  eread : Nat → Nat → Nat → Machine F (List UInt8)
  fileclose : Nat → Machine F Unit
  filedup : Nat → Machine F Unit
  /-- The assignment `f->off = offset`. -/
  seek : Nat → Int → Machine F Unit
  file_open : List UInt8 → Nat → (Nat → Nat) → Machine F (Int × (Nat → Nat))

section Access

variable {F α : Type}

def onRam (x : Machine Ram α) : Machine (Kernel F) α :=
  Machine.zoom Kernel.ram (fun ram k => { k with ram }) x

def onFs (x : Machine F α) : Machine (Kernel F) α :=
  Machine.zoom Kernel.fs (fun fs k => { k with fs }) x

def modifyProc (f : Proc → Proc) : Machine (Kernel F) Unit :=
  modify fun k => { k with p := f k.p }

/-- The calling process. -/
def myproc : Machine (Kernel F) Proc := do
  let k ← get
  return k.p

theorem onRam_of_ok {x : Machine Ram α} {k : Kernel F} {t : Ram} {r : α}
    (run : x k.ram = .ok (r, t)) : onRam x k = .ok (r, { k with ram := t }) := by
  rw [onRam, Machine.zoom, run]

theorem onRam_of_error {x : Machine Ram α} {k : Kernel F} {e : Halt} (run : x k.ram = .error e) :
    onRam x k = .error e := by
  rw [onRam, Machine.zoom, run]

theorem onFs_of_ok {x : Machine F α} {k : Kernel F} {fs : F} {r : α}
    (run : x k.fs = .ok (r, fs)) : onFs x k = .ok (r, { k with fs }) := by
  rw [onFs, Machine.zoom, run]

theorem myproc_run (k : Kernel F) : (myproc : Machine (Kernel F) Proc) k = .ok (k.p, k) := rfl

end Access

def peek (a w : Nat) : Machine Ram Nat := do
  let s ← get
  if mapped a then return s.mem.fetch a w else Machine.halt .fault

def poke (a w v : Nat) : Machine Ram Unit := do
  let s ← get
  if mapped a then set (s.setMem (s.mem.store a w v)) else Machine.halt .fault

def vma_type (vma : Nat) : Machine Ram Nat := peek vma 4
def vma_addr (vma : Nat) : Machine Ram Nat := peek (vma + 8) 8
def vma_end (vma : Nat) : Machine Ram Nat := peek (vma + 24) 8
def vma_prev (vma : Nat) : Machine Ram Nat := peek (vma + 48) 8
def vma_next (vma : Nat) : Machine Ram Nat := peek (vma + 56) 8

/-- An `int` as it is stored. -/
def intBits (i : Int) : Nat := (i % 2 ^ 32).toNat

variable (limit : Nat)

def find_mmap_vma (head : Nat) : Machine Ram Nat := do
  let first ← vma_next head
  Machine.loop (fun vma => do
    if vma = head then
      return .inr 0
    else if (← vma_type vma) = MMAP then
      return .inr vma
    else
      return .inl (← vma_next vma)) limit first

/-- Where the search of `alloc_vma` stops: at the node to insert before, in a
node that holds the whole range, or at one that the range overlaps. -/
inductive Place where
  | before (vma : Nat)
  | inside (vma : Nat)
  | overlap

def findPlace (head start stop : Nat) : Machine Ram Place := do
  let first ← vma_next head
  Machine.loop (fun vma => do
    if vma = head then
      return .inr (.before vma)
    else if stop ≤ (← vma_addr vma) then
      return .inr (.before vma)
    else if (← vma_end vma) ≤ start then
      return .inl (← vma_next vma)
    else if (← vma_addr vma) ≤ start ∧ stop ≤ (← vma_end vma) then
      return .inr (.inside vma)
    else
      return .inr .overlap) limit first

def alloc_vma (p : Proc) (type addr sz perm : Nat) (alloc : Bool) (pa : Nat) : Machine Ram Nat := do
  let start := PGROUNDDOWN addr
  let stop := PGROUNDUP (u64 (addr + sz))
  match ← findPlace limit p.vma start stop with
  | .inside find_vma => return find_vma
  | .overlap => return 0
  | .before find_vma =>
    let vma ← kalloc
    if vma = 0 then
      return 0
    else
      memset vma 0 PGSIZE
      let mapping ← (
        if sz = 0 then return 0
        else if alloc then uvmalloc1 p.pagetable start stop perm
        else if pa ≠ 0 then mappages p.pagetable start sz pa perm
        else return 0)
      if mapping ≠ 0 then
        kfree vma
        return 0
      else
        poke (vma + 8) 8 start
        poke (vma + 16) 8 sz
        poke (vma + 4) 4 perm
        poke (vma + 24) 8 stop
        poke (vma + 36) 4 (intBits (-1))
        poke (vma + 40) 8 0
        poke vma 4 type
        poke (vma + 48) 8 (← vma_prev find_vma)
        poke (vma + 56) 8 find_vma
        poke ((← vma_prev find_vma) + 56) 8 vma
        poke (find_vma + 48) 8 vma
        return vma

/-- The result of `find_mmap_vma` is followed without a check for 0. -/
def alloc_mmap_vma (p : Proc) (addr sz perm : Nat) (fd : Int) (f_off : Nat) : Machine Ram Nat := do
  let find_vma ← find_mmap_vma limit p.vma
  let addr ← (if addr = 0 then do
      let low ← vma_addr find_vma
      return if sz < low then PGROUNDDOWN (low - sz) else addr
    else
      return addr)
  let vma ← alloc_vma limit p MMAP addr sz perm true 0
  if vma = 0 then
    return 0
  else
    poke (vma + 36) 4 (intBits fd)
    poke (vma + 40) 8 f_off
    return vma

def alloc_vma_stack (p : Proc) : Machine Ram Int := do
  let stop := USER_STACK_TOP
  let start := stop - INIT_STACK_SIZE
  let first ← vma_next p.vma
  let find_vma ← Machine.loop (fun vma => do
    if vma = p.vma then
      return .inr vma
    else
      let next ← vma_next vma
      if next = p.vma then return .inr vma else return .inl next) limit first
  let vma ← kalloc
  if vma = 0 then
    return -1
  else if (← uvmalloc1 p.pagetable start stop (PTE_P ||| PTE_W ||| PTE_PLV3 ||| PTE_D)) ≠ 0 then
    kfree vma
    return -1
  else
    poke vma 4 STACK
    poke (vma + 4) 4 (PTE_P ||| PTE_W)
    poke (vma + 8) 8 start
    poke (vma + 24) 8 stop
    poke (vma + 16) 8 INIT_STACK_SIZE
    poke (vma + 32) 4 0
    poke (vma + 36) 4 (intBits (-1))
    poke (vma + 40) 8 (2 ^ 64 - 1)
    poke (vma + 48) 8 find_vma
    poke (vma + 56) 8 (← vma_next find_vma)
    poke ((← vma_next find_vma) + 48) 8 vma
    poke (find_vma + 56) 8 vma
    return 0

def get_proc_sp (p : Proc) : Machine Ram Nat := do
  let first ← vma_next p.vma
  let vma ← Machine.loop (fun vma => do
    if vma = p.vma then
      return .inr vma
    else if (← vma_type vma) = STACK then
      return .inr vma
    else
      return .inl (← vma_next vma)) limit first
  if (← vma_type vma) ≠ STACK then
    return 2 ^ 64 - 1
  else
    vma_end vma

/-- Frees the mapped pages of one area, skipping what is not mapped. -/
def freeArea (pagetable vma : Nat) : Machine Ram Unit := do
  let first ← vma_addr vma
  Machine.loop (fun a => do
    if a < (← vma_end vma) then
      let pte ← walk pagetable a false
      if pte = 0 then
        return .inl (u64 (a + PGSIZE))
      else
        let entry ← load pte
        if entry &&& PTE_V = 0 ∨ PTE_FLAGS entry = PTE_V then
          return .inl (u64 (a + PGSIZE))
        else
          kfree (PTE2PA entry)
          store pte 0
          return .inl (u64 (a + PGSIZE))
    else
      return .inr ()) limit first

/-- The nodes of the list, their pages first, and the head last. -/
def freeNodes (pagetable vma_head : Nat) : Machine Ram Unit := do
  let first ← vma_next vma_head
  let last ← Machine.loop (fun vma => do
    if vma = vma_head then
      return .inr vma
    else
      freeArea limit pagetable vma
      let next ← vma_next vma
      kfree (← vma_prev next)
      return .inl next) limit first
  kfree last

variable {F : Type}

def free_vma_list : Machine (Kernel F) Int := do
  let p ← myproc
  if p.vma = 0 then
    return 1
  else
    onRam (freeNodes limit p.pagetable p.vma)
    modifyProc fun p => { p with vma := 0 }
    return 1

/-- On the second failure `p->vma` keeps the node that has just been freed. -/
def vma_init : Machine (Kernel F) Nat := do
  let vma ← onRam kalloc
  if vma = 0 then
    return 0
  else
    onRam do
      memset vma 0 PGSIZE
      poke vma 4 NONE
      poke (vma + 56) 8 vma
      poke (vma + 48) 8 vma
    modifyProc fun p => { p with vma := vma }
    let p ← myproc
    if (← onRam (alloc_mmap_vma limit p USER_MMAP_START 0 0 0 0)) = 0 then
      onRam (kfree vma)
      return 0
    else
      return vma

end AvxKernel.Exec
