import AvxKernel.Exec.Areas
import AvxKernel.Vm.Clone

/-! How `fork` copies memory: `uvmcopy` for the heap, `vma_copy` for the list of
areas, and `vma_map` for the pages of each. The child runs on a table of its own. -/
namespace AvxKernel.Exec

open Vm

/-- The size of `struct vma`. -/
def VMA : Nat := 64

/-- A node at the end of a list. -/
def appendCopy (new_vma pre_vma nvma : Nat) : Machine Ram Unit := do
  memmove nvma pre_vma VMA
  poke (nvma + 48) 8 0
  poke (nvma + 56) 8 0
  poke (nvma + 48) 8 (← vma_prev new_vma)
  poke (nvma + 56) 8 new_vma
  poke ((← vma_prev new_vma) + 56) 8 nvma
  poke (new_vma + 48) 8 nvma

/-- A round of the loop of `vma_copy`. -/
def copyRound (head new_vma pre_vma : Nat) : Machine Ram (Nat ⊕ Nat) := do
  if pre_vma = head then
    return .inr new_vma
  else
    let nvma ← kalloc
    if nvma = 0 then
      return .inr 0
    else
      appendCopy new_vma pre_vma nvma
      return .inl (← vma_next pre_vma)

variable (limit : Nat)

/-- What it returns is also the list of the new process, 0 on failure: the nodes made so
far are then lost. -/
def vma_copy (head : Nat) : Machine Ram Nat := do
  let new_vma ← kalloc
  if new_vma = 0 then
    return 0
  else
    poke (new_vma + 48) 8 new_vma
    poke (new_vma + 56) 8 new_vma
    poke new_vma 4 NONE
    let first ← vma_next head
    Machine.loop (copyRound head new_vma) limit first

/-- The pages of an area that are there are taken back. -/
def unmapArea (new vma start : Nat) : Machine Ram Unit := do
  let addr ← vma_addr vma
  vmunmap new addr ((start - addr) / PGSIZE) true

def areaRound (old new vma start : Nat) : Machine Ram (Nat ⊕ Int) := do
  if start < (← vma_end vma) then
    if ← copyPage id old new start then
      return .inl (u64 (start + PGSIZE))
    else
      unmapArea new vma start
      return .inr (-1)
  else
    return .inr 0

def vma_map (old new vma : Nat) : Machine Ram Int := do
  let first ← vma_addr vma
  let r ← Machine.loop (areaRound old new vma) (PAGES + 1) first
  if r < 0 then
    return -1
  else
    let _ ← walkaddr new (← vma_addr vma)
    return 0

/-- A round of the loop of `fork` that maps the areas of the child. -/
def mapRound (old new head nvma : Nat) : Machine Ram (Nat ⊕ Int) := do
  if nvma = head then
    return .inr 0
  else if (← vma_map old new nvma) < 0 then
    return .inr (-1)
  else
    return .inl (← vma_next nvma)

/-- The part of `fork` that copies memory, into the table of the child: whether it goes
on, and the child's list of areas. -/
def copyMemory (p : Proc) (pagetable : Nat) : Machine Ram (Int × Nat) := do
  if (← uvmcopy p.pagetable pagetable p.sz) < 0 then
    return (-1, 0)
  else
    let head ← vma_copy limit p.vma
    if head = 0 then
      return (0, 0)
    else
      let first ← vma_next head
      let r ← Machine.loop (mapRound p.pagetable pagetable head) limit first
      return (r, head)

end AvxKernel.Exec
