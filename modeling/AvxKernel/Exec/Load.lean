import AvxKernel.Exec.Vma

/-! Loading an ELF image: the page table of a new address space (`proc.c`),
`mmap` (`mmap.c`), and the loaders of `exec.c`. Structures read from a file are
taken from their bytes. -/
namespace AvxKernel.Exec

open Vm

/-- What the linker and the compiler have placed: the trampolines, the literal
"UB_BINDIR=." of `exec`, its arrays on the stack, and the value that its
`ph.vaddr` happens to start with. -/
structure Image where
  trampoline : Nat
  signalTrampoline : Nat
  ub_bindir : Nat
  ustack : Nat
  envp : Nat
  aux : Nat
  random : Nat
  ph_vaddr : Nat

def ELF_MAGIC : Nat := 0x464C457F
def ELF_PROG_LOAD : Nat := 1
def ELF_PROG_INTERP : Nat := 3
def ELF_PROG_PHDR : Nat := 6
def ELF_PROG_FLAG_EXEC : Nat := 1
def ELF_PROG_FLAG_WRITE : Nat := 2
def ELF_PROG_FLAG_READ : Nat := 4

def PTE_NX : Nat := 1 <<< 62
def PTE_NR : Nat := 1 <<< 61

def PROT_READ : Nat := 1
def PROT_WRITE : Nat := 1 <<< 1
def PROT_EXEC : Nat := 1 <<< 2
def MAP_PRIVATE : Nat := 0x02
def MAP_FIXED : Nat := 0x10
def MAP_ANONYMOUS : Nat := 0x20

structure Elfhdr where
  magic : Nat
  entry : Nat
  phoff : Nat
  phentsize : Nat
  phnum : Nat

/-- The size of `struct elfhdr`. -/
def ELFHDR : Nat := 64

def Elfhdr.read (bytes : List UInt8) : Elfhdr where
  magic := field bytes 0 4
  entry := field bytes 24 8
  phoff := field bytes 32 8
  phentsize := field bytes 54 2
  phnum := field bytes 56 2

structure Proghdr where
  type : Nat
  flags : Nat
  off : Nat
  vaddr : Nat
  filesz : Nat
  memsz : Nat

/-- The size of `struct proghdr`. -/
def PROGHDR : Nat := 56

def Proghdr.read (bytes : List UInt8) : Proghdr where
  type := field bytes 0 4
  flags := field bytes 4 4
  off := field bytes 8 8
  vaddr := field bytes 16 8
  filesz := field bytes 32 8
  memsz := field bytes 40 8

variable {F : Type} (limit : Nat) (image : Image) (fsys : FileSystem F)

def proc_pagetable : Machine (Kernel F) Nat := do
  let pagetable ← onRam uvmcreate
  if pagetable = 0 then
    return 0
  else if (← vma_init limit) = 0 then
    onRam (uvmfree limit pagetable 0)
    return 0
  else
    let p ← myproc
    onRam do
      if (← mappages pagetable TRAMPOLINE PGSIZE image.trampoline
          (PTE_P ||| PTE_MAT ||| PTE_D)) < 0 then
        uvmfree limit pagetable 0
        return 0
      else if (← mappages pagetable TRAPFRAME PGSIZE p.trapframe
          (u32 (PTE_NX ||| PTE_P ||| PTE_W ||| PTE_MAT ||| PTE_D))) < 0 then
        vmunmap pagetable TRAMPOLINE 1 false
        uvmfree limit pagetable 0
        return 0
      else if (← mappages pagetable SIGTRAMPOLINE PGSIZE image.signalTrampoline
          (PTE_P ||| PTE_MAT ||| PTE_D)) < 0 then
        vmunmap pagetable TRAMPOLINE 1 false
        vmunmap pagetable TRAPFRAME 1 false
        uvmfree limit pagetable 0
        return 0
      else
        return pagetable

def proc_freepagetable (pagetable sz : Nat) : Machine Ram Unit := do
  vmunmap pagetable TRAMPOLINE 1 false
  vmunmap pagetable TRAPFRAME 1 false
  uvmfree limit pagetable sz

/-- `perm` is an `int`, which cuts off `PTE_NR` and `PTE_NX`. The size that is
read from the file stays 0, so no page of it is read here. -/
def mmap (start len prot flags : Nat) (fd offset : Int) : Machine (Kernel F) Nat := do
  if offset < 0 then
    return 2 ^ 64 - 1
  else
    let perm := PTE_PLV3 ||| PTE_MAT ||| PTE_D ||| PTE_W
    let perm := if prot &&& PROT_WRITE ≠ 0 then perm ||| PTE_W else perm
    let perm := if prot &&& PROT_EXEC ≠ 0 then perm ||| PTE_MAT ||| PTE_P else perm
    let p ← myproc
    let f := if fd = -1 then 0 else p.ofile fd.toNat
    if fd ≠ -1 ∧ f = 0 then
      return 2 ^ 64 - 1
    else
      let vma ← onRam (alloc_mmap_vma limit p start len perm fd offset.toNat)
      -- read before the check of `vma`
      let start ← (if flags &&& MAP_FIXED = 0 then onRam (vma_addr vma) else return start)
      if vma = 0 then
        return 2 ^ 64 - 1
      else if fd ≠ -1 then
        onFs (fsys.seek f offset)
        onFs (fsys.filedup f)
        return start
      else
        return start

/-- Bytes that the file system delivers to a kernel address. -/
def deliver (dst : Nat) (bytes : List UInt8) : Machine Ram Unit := do
  let s ← get
  if (List.range bytes.length).all fun i => mapped (dst + i) then
    set (s.setMem (s.mem.blit dst bytes))
  else
    Machine.halt .fault

def eread (ep dst off n : Nat) : Machine (Kernel F) Nat := do
  let bytes ← onFs (fsys.eread ep off n)
  onRam (deliver dst bytes)
  return bytes.length

/-- The part of a segment in its first page is read whole, whatever `sz` is. -/
def loadseg (pagetable va ep offset sz : Nat) : Machine (Kernel F) Int := do
  let va_off := va % PGSIZE
  let first ← (if va_off ≠ 0 then do
      let pa ← onRam (walkaddr pagetable (va - va_off))
      if pa = 0 then
        Machine.panic "loadseg: address should exist"
      else
        let n := PGSIZE - va_off
        if (← eread fsys ep (pa + va_off) offset n) ≠ n then
          return none
        else
          return some (n, u64 (va - va_off + PGSIZE))
    else
      return some (0, va))
  match first with
  | none => return -1
  | some (i, va) =>
    Machine.loop (fun (i, va) => do
      if i < sz then
        let pa ← onRam (walkaddr pagetable va)
        if pa = 0 then
          Machine.panic "loadseg: address should exist"
        else
          let n := if sz - i < PGSIZE then sz - i else PGSIZE
          if (← eread fsys ep pa (u32 (offset + i)) n) ≠ n then
            return .inr (-1)
          else
            return .inl (u32 (i + n), u64 (va + PGSIZE))
      else
        return .inr 0) limit (i, va)

def readelfhdr (ep : Nat) : Machine (Kernel F) (Option Elfhdr) := do
  let bytes ← onFs (fsys.eread ep 0 ELFHDR)
  if bytes.length ≠ ELFHDR then
    return none
  else
    let elf := Elfhdr.read bytes
    if elf.magic ≠ ELF_MAGIC then return none else return some elf

/-- A program header, or none if the file ends before it. -/
def readproghdr (ep off : Nat) : Machine (Kernel F) (Option Proghdr) := do
  let bytes ← onFs (fsys.eread ep off PROGHDR)
  return if bytes.length ≠ PROGHDR then none else some (Proghdr.read bytes)

/-- What `loadelf` carries from one program header to the next. -/
structure Loading where
  i : Nat
  off : Nat
  sz : Nat
  getphdr : Bool
  ph_vaddr : Nat
  is_dynamic : Bool

/-- In C the `!` of the source binds before `&`, so that the execute bit is
tested on flags that are all clear and the read bit never. -/
def segmentPerm (flags : Nat) : Nat :=
  let notFlags := if flags = 0 then 1 else 0
  let perm := if notFlags &&& ELF_PROG_FLAG_EXEC ≠ 0 then u32 PTE_NX else 0
  let perm := if flags &&& ELF_PROG_FLAG_WRITE ≠ 0 then perm ||| PTE_W else perm
  if notFlags &&& ELF_PROG_FLAG_READ ≠ 0 then u32 (perm ||| PTE_NR) else perm

/-- `off` is an `int`, passed on as a `uint`. The -1 of a failure is an unsigned one. -/
def loadelf (elf : Elfhdr) (ep pagetable : Nat) : Machine (Kernel F) (Nat × Loading) :=
  Machine.loop (fun l => do
    if l.i < elf.phnum then
      match ← readproghdr fsys ep l.off with
      | none => return .inr (2 ^ 64 - 1, l)
      | some ph =>
        let next := { l with i := l.i + 1, off := u32 (l.off + PROGHDR) }
        if ph.type = ELF_PROG_LOAD then
          if ph.memsz < ph.filesz then
            return .inr (2 ^ 64 - 1, l)
          else if u64 (ph.vaddr + ph.memsz) < ph.vaddr then
            return .inr (2 ^ 64 - 1, l)
          else
            let ph_vaddr :=
              if l.getphdr = false ∧ ph.off = 0 then u64 (elf.phoff + ph.vaddr) else l.ph_vaddr
            let sz1 ← onRam (uvmalloc pagetable l.sz (PGROUNDUP (u64 (ph.vaddr + ph.memsz)))
              (segmentPerm ph.flags))
            if sz1 = 0 then
              return .inr (2 ^ 64 - 1, { l with ph_vaddr })
            else if (← loadseg limit fsys pagetable ph.vaddr ep (u32 ph.off) (u32 ph.filesz)) < 0 then
              return .inr (2 ^ 64 - 1, { l with ph_vaddr, sz := sz1 })
            else
              return .inl { next with ph_vaddr, sz := sz1 }
        else if ph.type = ELF_PROG_PHDR then
          return .inl { next with getphdr := true, ph_vaddr := ph.vaddr }
        else if ph.type = ELF_PROG_INTERP then
          return .inl { next with is_dynamic := true }
        else
          return .inl next
    else
      return .inr (0, l)) limit ⟨0, u32 elf.phoff, 0, false, image.ph_vaddr, false⟩

/-- A header that cannot be read gives -1, as a size. -/
def get_total_mapping_size (elf : Elfhdr) (interpreter : Nat) : Machine (Kernel F) Nat :=
  Machine.loop (fun (i, off, min_addr, max_addr, is_true) => do
    if i < elf.phnum then
      match ← readproghdr fsys interpreter off with
      | none => return .inr (2 ^ 64 - 1)
      | some ph =>
        if ph.type = ELF_PROG_LOAD then
          return .inl (i + 1, u32 (off + PROGHDR), min min_addr (PGROUNDDOWN ph.vaddr),
            max max_addr (u64 (ph.vaddr + ph.memsz)), true)
        else
          return .inl (i + 1, u32 (off + PROGHDR), min_addr, max_addr, is_true)
    else
      return .inr (if is_true then u64 (max_addr + (2 ^ 64 - min_addr)) else 0))
    limit (0, u32 elf.phoff, 2 ^ 64 - 1, 0, false)

def load_elf_interp (pagetable : Nat) (elf : Elfhdr) (interpreter : Nat) :
    Machine (Kernel F) Nat := do
  let total_size ← get_total_mapping_size limit fsys elf interpreter
  if total_size = 0 then
    return 2 ^ 64 - 1
  else
    let start_addr ← mmap limit fsys 0 total_size (PROT_READ ||| PROT_WRITE ||| PROT_EXEC)
      (MAP_PRIVATE ||| MAP_ANONYMOUS) (-1) 0
    if start_addr = 2 ^ 64 - 1 then
      return 2 ^ 64 - 1
    else
      Machine.loop (fun (i, off) => do
        if i < elf.phnum then
          match ← readproghdr fsys interpreter off with
          | none => return .inr (2 ^ 64 - 1)
          | some ph =>
            if ph.type = ELF_PROG_LOAD then
              if ph.memsz < ph.filesz then
                return .inr (2 ^ 64 - 1)
              else if u64 (ph.vaddr + ph.memsz) < ph.vaddr then
                return .inr (2 ^ 64 - 1)
              else if (← loadseg limit fsys pagetable (u64 (start_addr + ph.vaddr)) interpreter
                  (u32 ph.off) (u32 ph.filesz)) < 0 then
                return .inr (2 ^ 64 - 1)
              else
                return .inl (i + 1, u32 (off + PROGHDR))
            else
              return .inl (i + 1, u32 (off + PROGHDR))
        else
          return .inr start_addr) limit (0, u32 elf.phoff)

end AvxKernel.Exec
