import AvxKernel.Lib.Bytes
import AvxKernel.Lib.Machine
import AvxKernel.Vm.Pte

/-! The page allocator of `kalloc.c` and the page-table walks of `vm.c`. Both
work on window addresses, and memory is addressed by those: a free page holds
the free list's next pointer in its first eight bytes, and a table page holds
512 entries. -/
namespace AvxKernel.Vm

/-- The memory under the kernel's own addresses, `kmem`, and the linker's
`kernel_end`. Three records that nothing reads say which pages `kalloc` has
handed out, which pages `kfree` has taken, and which user bytes the copy
routines have touched, each as its user address and the address used for it. -/
structure Ram where
  mem : Memory
  freelist : Nat
  npage : Nat
  kernel_end : Nat
  allocated : List Nat
  freed : List Nat
  touched : List (Nat × Nat)

def Ram.setMem (s : Ram) (mem : Memory) : Ram := { s with mem }

@[simp] theorem Ram.setMem_mem (s : Ram) (mem : Memory) : (s.setMem mem).mem = mem := rfl

@[simp] theorem Ram.setMem_setMem (s : Ram) (mem mem' : Memory) :
    (s.setMem mem).setMem mem' = s.setMem mem' := rfl

@[simp] theorem Ram.setMem_allocated (s : Ram) (mem : Memory) :
    (s.setMem mem).allocated = s.allocated := rfl

@[simp] theorem Ram.setMem_freed (s : Ram) (mem : Memory) : (s.setMem mem).freed = s.freed := rfl

@[simp] theorem Ram.setMem_touched (s : Ram) (mem : Memory) :
    (s.setMem mem).touched = s.touched := rfl

def memset (dst c n : Nat) : Machine Ram Unit :=
  modify fun s => s.setMem (s.mem.fill dst n (UInt8.ofNat c))

def load (a : Nat) : Machine Ram Nat := do
  let s ← get
  return s.mem.fetch a 8

def store (a v : Nat) : Machine Ram Unit :=
  modify fun s => s.setMem (s.mem.store a 8 v)

def kfree (pa : Nat) : Machine Ram Unit := do
  let s ← get
  if pa % PGSIZE ≠ 0 ∨ pa < s.kernel_end ∨ RAMSTOP ≤ pa then
    Machine.panic "kfree"
  else
    -- junk first, then the link of the free list over it
    memset pa 1 PGSIZE
    store pa s.freelist
    modify fun t => { t with
      freelist := pa
      npage := u64 (t.npage + 1)
      freed := pa :: t.freed }

def kalloc : Machine Ram Nat := do
  let s ← get
  let r := s.freelist
  if r = 0 then
    return 0
  else
    let next ← load r
    modify fun t => { t with
      freelist := next
      npage := u64 (t.npage + (2 ^ 64 - 1))
      allocated := r :: t.allocated }
    memset r 5 PGSIZE
    return r

/-- The loop of `walk`, from a table page of the given level down. -/
def walkLevels (alloc : Bool) (va : Nat) : Nat → Nat → Machine Ram Nat
  | 0, pagetable => return pagetable + 8 * PX 0 va
  | level + 1, pagetable => do
    let pte := pagetable + 8 * PX (level + 1) va
    let entry ← load pte
    if entry &&& PTE_V ≠ 0 then
      walkLevels alloc va level (PTE2PA entry ||| DMWIN_MASK)
    else if alloc = false then
      return 0
    else
      let page ← kalloc
      if page = 0 then
        return 0
      else
        memset page 0 PGSIZE
        store pte (pde page)
        walkLevels alloc va level page

def walk (pagetable va : Nat) (alloc : Bool) : Machine Ram Nat :=
  if va &&& DMWIN_MASK ≠ 0 then
    return va
  else if MAXVA ≤ va then
    Machine.panic "walk"
  else
    walkLevels alloc va 3 pagetable

def walkaddr (pagetable va : Nat) : Machine Ram Nat :=
  if va &&& DMWIN_MASK ≠ 0 then
    return va
  else if MAXVA ≤ va then
    return 0
  else do
    let pte ← walk pagetable va false
    if pte = 0 then
      return 0
    else
      let entry ← load pte
      if entry &&& PTE_V = 0 then
        return 0
      else if entry &&& PTE_PLV3 = 0 then
        return 0
      else
        return PTE2PA entry

/-- The loop of `mappages`; the count bounds it by the number of pages there are. -/
def mappagesFrom (pagetable last perm : Nat) : Nat → Nat → Nat → Machine Ram Int
  | 0, _, _ => Machine.halt .diverge
  | n + 1, a, pa => do
    let pte ← walk pagetable a true
    if pte = 0 then
      return -1
    else
      let entry ← load pte
      if entry &&& PTE_V ≠ 0 then
        Machine.panic "remap"
      else
        store pte (leaf pa perm)
        if a = last then
          return 0
        else
          mappagesFrom pagetable last perm n (u64 (a + PGSIZE)) (u64 (pa + PGSIZE))

/-- The pages of a 64-bit address space. -/
def PAGES : Nat := 2 ^ 52

def mappages (pagetable va size pa perm : Nat) : Machine Ram Int :=
  if size = 0 then
    Machine.panic "mappages: size == 0"
  else
    mappagesFrom pagetable (PGROUNDDOWN (u64 (va + size - 1))) perm PAGES (PGROUNDDOWN va) pa

def vmunmapFrom (pagetable stop : Nat) (do_free : Bool) : Nat → Nat → Machine Ram Unit
  | 0, _ => Machine.halt .diverge
  | n + 1, a =>
    if a < stop then do
      let pte ← walk pagetable a false
      if pte = 0 then
        Machine.panic "vmunmap: walk"
      else
        let entry ← load pte
        if entry &&& PTE_V = 0 then
          Machine.panic "vmunmap: not mapped"
        else if PTE_FLAGS entry = PTE_V then
          Machine.panic "vmunmap: not a leaf"
        else
          (if do_free then kfree (PTE2PA entry ||| DMWIN_MASK) else return ())
          store pte 0
          vmunmapFrom pagetable stop do_free n (u64 (a + PGSIZE))
    else
      return ()

def vmunmap (pagetable va npages : Nat) (do_free : Bool) : Machine Ram Unit :=
  if va % PGSIZE ≠ 0 then
    Machine.panic "vmunmap: not aligned"
  else
    vmunmapFrom pagetable (u64 (va + u64 (npages * PGSIZE))) do_free (PAGES + 1) va

def uvmcreate : Machine Ram Nat := do
  let pagetable ← kalloc
  if pagetable = 0 then
    return 0
  else
    memset pagetable 0 PGSIZE
    return pagetable

end AvxKernel.Vm
