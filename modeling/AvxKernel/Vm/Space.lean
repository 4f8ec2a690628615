import AvxKernel.Vm.Copy

/-! User address spaces as a whole, from `vm.c`: growing and shrinking them by
pages, and freeing the table pages. `limit` bounds the rounds of a loop whose
end depends on what memory holds. -/
namespace AvxKernel.Vm

/-- The page count is an `int`. -/
def uvmdealloc1 (pagetable start stop : Nat) : Machine Ram Int :=
  if stop ≤ start then
    return -1
  else do
    (if PGROUNDUP start ≤ PGROUNDUP stop then
      vmunmap pagetable (PGROUNDUP start)
        (s32 ((PGROUNDUP stop - PGROUNDUP start) / PGSIZE)) true
    else
      return ())
    return 0

/-- Maps one zeroed page, the round that `uvmalloc1` and `uvmalloc` share. -/
def mapFresh (pagetable a perm : Nat) : Machine Ram Bool := do
  let mem ← kalloc
  if mem = 0 then
    return false
  else
    memset mem 0 PGSIZE
    let r ← mappages pagetable a PGSIZE mem perm
    if r ≠ 0 then
      kfree mem
      return false
    else
      return true

def uvmalloc1 (pagetable start stop perm : Nat) : Machine Ram Int :=
  if stop ≤ start then
    return -1
  else
    Machine.loop (fun a =>
      if a < stop then do
        if ← mapFresh pagetable a perm then
          return .inl (u64 (a + PGSIZE))
        else
          let _ ← uvmdealloc1 pagetable start a
          return .inr (-1)
      else
        return .inr 0) (PAGES + 1) start

def uvmdealloc (pagetable oldsz newsz : Nat) : Machine Ram Nat :=
  if oldsz ≤ newsz then
    return oldsz
  else do
    (if PGROUNDUP newsz < PGROUNDUP oldsz then
      vmunmap pagetable (PGROUNDUP newsz)
        (s32 ((PGROUNDUP oldsz - PGROUNDUP newsz) / PGSIZE)) true
    else
      return ())
    return newsz

/-- On failure it asks `uvmdealloc` to shrink from `a` to the old size. -/
def uvmalloc (pagetable oldsz newsz perm : Nat) : Machine Ram Nat :=
  if newsz < oldsz then
    return oldsz
  else
    let oldsz := PGROUNDUP oldsz
    Machine.loop (fun a =>
      if a < newsz then do
        if ← mapFresh pagetable a (perm ||| PTE_PLV3) then
          return .inl (u64 (a + PGSIZE))
        else
          let _ ← uvmdealloc pagetable a oldsz
          return .inr 0
      else
        return .inr newsz) (PAGES + 1) oldsz

def freewalk : Nat → Nat → Machine Ram Unit
  | 0, _ => Machine.halt .diverge
  | limit + 1, pagetable => do
    (List.range 512).forM fun i => do
      let pte ← load (pagetable + 8 * i)
      if pte &&& PTE_V ≠ 0 ∧ PTE_FLAGS pte = PTE_V then
        freewalk limit (PTE2PA pte ||| DMWIN_MASK)
        store (pagetable + 8 * i) 0
      else
        return ()
    kfree pagetable

def uvmfree (limit pagetable sz : Nat) : Machine Ram Unit := do
  (if 0 < sz then vmunmap pagetable 0 (PGROUNDUP sz / PGSIZE) true else return ())
  freewalk limit pagetable

/-! ### What has been freed stays on the record -/

def Freed (s t : Ram) : Prop := s.freed <:+ t.freed

instance : Std.Refl Freed := ⟨fun s => List.suffix_refl s.freed⟩

instance : IsTrans Ram Freed := ⟨fun _ _ _ first rest => List.IsSuffix.trans first rest⟩

theorem freed_load (a : Nat) : Machine.Frame Freed (load a) := .bind .get fun _ => .pure _

theorem freed_store (a v : Nat) : Machine.Frame Freed (store a v) :=
  .modify _ fun s => List.suffix_refl s.freed

theorem freed_memset (dst c n : Nat) : Machine.Frame Freed (memset dst c n) :=
  .modify _ fun s => List.suffix_refl s.freed

theorem freed_touch (va a n : Nat) : Machine.Frame Freed (touch va a n) :=
  .modify _ fun s => List.suffix_refl s.freed

theorem freed_kfree (pa : Nat) : Machine.Frame Freed (kfree pa) :=
  .bind .get fun _ => .ite (.panic _) <|
    .bind (freed_memset _ _ _) fun _ => .bind (freed_store _ _) fun _ =>
      .modify _ fun t => List.suffix_cons pa t.freed

theorem freed_kalloc : Machine.Frame Freed kalloc :=
  .bind .get fun _ => .ite (.pure _) <| .bind (freed_load _) fun _ =>
    .bind (.modify _ fun s => List.suffix_refl s.freed) fun _ =>
      .bind (freed_memset _ _ _) fun _ => .pure _

theorem freed_walk (pagetable va : Nat) (alloc : Bool) : Machine.Frame Freed (walk pagetable va alloc) := by
  have levels : ∀ l a, Machine.Frame Freed (walkLevels alloc va l a) := by
    intro l
    induction l with
    | zero => exact fun _ => .pure _
    | succ l ih =>
      exact fun _ => .bind (freed_load _) fun _ => .ite (ih _) <| .ite (.pure _) <|
        .bind freed_kalloc fun _ => .ite (.pure _) <| .bind (freed_memset _ _ _) fun _ =>
          .bind (freed_store _ _) fun _ => ih _
  exact .ite (.pure _) (.ite (.panic _) (levels _ _))

theorem freed_walkaddr (pagetable va : Nat) : Machine.Frame Freed (walkaddr pagetable va) :=
  .ite (.pure _) <| .ite (.pure _) <| .bind (freed_walk _ _ _) fun _ => .ite (.pure _) <|
    .bind (freed_load _) fun _ => .ite (.pure _) (.ite (.pure _) (.pure _))

theorem freed_mappages (pagetable va size pa perm : Nat) :
    Machine.Frame Freed (mappages pagetable va size pa perm) := by
  have rounds : ∀ n last a pa, Machine.Frame Freed (mappagesFrom pagetable last perm n a pa) := by
    intro n last
    induction n with
    | zero => exact fun _ _ => .halt _
    | succ n ih =>
      exact fun _ _ => .bind (freed_walk _ _ _) fun _ => .ite (.pure _) <|
        .bind (freed_load _) fun _ => .ite (.panic _) <| .bind (freed_store _ _) fun _ =>
          .ite (.pure _) (ih _ _)
  exact .ite (.panic _) (rounds _ _ _ _)

theorem freed_vmunmap (pagetable va npages : Nat) (do_free : Bool) :
    Machine.Frame Freed (vmunmap pagetable va npages do_free) := by
  have rounds : ∀ n stop a, Machine.Frame Freed (vmunmapFrom pagetable stop do_free n a) := by
    intro n stop
    induction n with
    | zero => exact fun _ => .halt _
    | succ n ih =>
      exact fun _ => .ite (.bind (freed_walk _ _ _) fun _ => .ite (.panic _) <|
        .bind (freed_load _) fun _ => .ite (.panic _) <| .ite (.panic _) <|
          .bind (.ite (freed_kfree _) (.pure _)) fun _ => .bind (freed_store _ _) fun _ => ih _)
        (.pure _)
  exact .ite (.panic _) (rounds _ _ _)

theorem freed_uvmdealloc1 (pagetable start stop : Nat) :
    Machine.Frame Freed (uvmdealloc1 pagetable start stop) :=
  .ite (.pure _) <| .bind (.ite (freed_vmunmap _ _ _ _) (.pure _)) fun _ => .pure _

theorem freed_uvmdealloc (pagetable oldsz newsz : Nat) :
    Machine.Frame Freed (uvmdealloc pagetable oldsz newsz) :=
  .ite (.pure _) <| .bind (.ite (freed_vmunmap _ _ _ _) (.pure _)) fun _ => .pure _

theorem freed_mapFresh (pagetable a perm : Nat) : Machine.Frame Freed (mapFresh pagetable a perm) :=
  .bind freed_kalloc fun _ => .ite (.pure _) <| .bind (freed_memset _ _ _) fun _ =>
    .bind (freed_mappages _ _ _ _ _) fun _ => .ite (.bind (freed_kfree _) fun _ => .pure _) (.pure _)

theorem freed_uvmalloc1 (pagetable start stop perm : Nat) :
    Machine.Frame Freed (uvmalloc1 pagetable start stop perm) :=
  .ite (.pure _) <| .loop (fun _ => .ite (.bind (freed_mapFresh _ _ _) fun _ => .ite (.pure _) <|
    .bind (freed_uvmdealloc1 _ _ _) fun _ => .pure _) (.pure _)) _ _

theorem freed_uvmalloc (pagetable oldsz newsz perm : Nat) :
    Machine.Frame Freed (uvmalloc pagetable oldsz newsz perm) :=
  .ite (.pure _) <| .loop (fun _ => .ite (.bind (freed_mapFresh _ _ _) fun _ => .ite (.pure _) <|
    .bind (freed_uvmdealloc _ _ _) fun _ => .pure _) (.pure _)) _ _

theorem freed_freewalk (limit pagetable : Nat) : Machine.Frame Freed (freewalk limit pagetable) := by
  induction limit generalizing pagetable with
  | zero => exact .halt _
  | succ limit ih =>
    exact .bind (.forM (fun _ => .bind (freed_load _) fun _ =>
      .ite (.bind (ih _) fun _ => freed_store _ _) (.pure _)) _) fun _ => freed_kfree _

theorem freed_uvmfree (limit pagetable sz : Nat) : Machine.Frame Freed (uvmfree limit pagetable sz) :=
  .bind (.ite (freed_vmunmap _ _ _ _) (.pure _)) fun _ => freed_freewalk _ _

theorem freed_memmove (dst src n : Nat) : Machine.Frame Freed (memmove dst src n) := by
  refine .get_bind fun s a t h => ?_
  split at h
  · cases h
    exact List.suffix_refl s.freed
  · cases h

theorem freed_copyPages {move : Nat → Nat → Nat → Machine Ram Unit}
    (h : ∀ src dst n, Machine.Frame Freed (move src dst n)) (pagetable kernel va len : Nat) :
    Machine.Frame Freed (copyPages pagetable move kernel va len) := by
  fun_induction copyPages with
  | case1 => exact .pure _
  | case2 kernel va len _ va0 ih =>
    exact .bind (freed_walkaddr _ _) fun _ => .ite (.pure _) <| .bind (freed_touch _ _ _) fun _ =>
      .bind (h _ _ _) fun _ => ih

theorem freed_copyout (pagetable dstva src len : Nat) :
    Machine.Frame Freed (copyout pagetable dstva src len) :=
  .ite (.panic _) <| .ite (.panic _) <|
    freed_copyPages (fun _ _ _ => freed_memmove _ _ _) _ _ _ _

end AvxKernel.Vm
