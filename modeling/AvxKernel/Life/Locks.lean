import AvxKernel.Life.Task
import AvxKernel.Lib.Triple

/-! What the calls that make processes do with the locks of the table: nothing in
memory takes or frees one. -/
namespace AvxKernel.Life

open Vm Machine

/-- The complaint of `release` about a lock that its caller does not hold. -/
def Foreign : Halt := .panic "release"

/-! ### Memory -/

theorem avoids_memset (dst c n : Nat) : Avoids Foreign (memset dst c n) := .modify _

theorem avoids_load (a : Nat) : Avoids Foreign (load a) := .bind .get fun _ => .pure _

theorem avoids_store (a v : Nat) : Avoids Foreign (store a v) := .modify _

theorem avoids_kfree (pa : Nat) : Avoids Foreign (kfree pa) :=
  .bind .get fun _ => .ite (.halt (by decide)) <|
    .bind (avoids_memset _ _ _) fun _ => .bind (avoids_store _ _) fun _ => .modify _

theorem avoids_kalloc : Avoids Foreign kalloc :=
  .bind .get fun _ => .ite (.pure _) <| .bind (avoids_load _) fun _ => .bind (.modify _) fun _ =>
    .bind (avoids_memset _ _ _) fun _ => .pure _

theorem avoids_walk (pagetable va : Nat) (alloc : Bool) : Avoids Foreign (walk pagetable va alloc) := by
  have levels : ∀ l a, Avoids Foreign (walkLevels alloc va l a) := by
    intro l
    induction l with
    | zero => exact fun _ => .pure _
    | succ l ih =>
      exact fun _ => .bind (avoids_load _) fun _ => .ite (ih _) <| .ite (.pure _) <|
        .bind avoids_kalloc fun _ => .ite (.pure _) <| .bind (avoids_memset _ _ _) fun _ =>
          .bind (avoids_store _ _) fun _ => ih _
  exact .ite (.pure _) (.ite (.halt (by decide)) (levels _ _))

theorem avoids_walkaddr (pagetable va : Nat) : Avoids Foreign (walkaddr pagetable va) :=
  .ite (.pure _) <| .ite (.pure _) <| .bind (avoids_walk _ _ _) fun _ => .ite (.pure _) <|
    .bind (avoids_load _) fun _ => .ite (.pure _) (.ite (.pure _) (.pure _))

theorem avoids_mappages (pagetable va size pa perm : Nat) :
    Avoids Foreign (mappages pagetable va size pa perm) := by
  have rounds : ∀ n last a pa, Avoids Foreign (mappagesFrom pagetable last perm n a pa) := by
    intro n last
    induction n with
    | zero => exact fun _ _ => .halt (by decide)
    | succ n ih =>
      exact fun _ _ => .bind (avoids_walk _ _ _) fun _ => .ite (.pure _) <|
        .bind (avoids_load _) fun _ => .ite (.halt (by decide)) <| .bind (avoids_store _ _) fun _ =>
          .ite (.pure _) (ih _ _)
  exact .ite (.halt (by decide)) (rounds _ _ _ _)

theorem avoids_vmunmap (pagetable va npages : Nat) (do_free : Bool) :
    Avoids Foreign (vmunmap pagetable va npages do_free) := by
  have rounds : ∀ n stop a, Avoids Foreign (vmunmapFrom pagetable stop do_free n a) := by
    intro n stop
    induction n with
    | zero => exact fun _ => .halt (by decide)
    | succ n ih =>
      exact fun _ => .ite (.bind (avoids_walk _ _ _) fun _ => .ite (.halt (by decide)) <|
        .bind (avoids_load _) fun _ => .ite (.halt (by decide)) <| .ite (.halt (by decide)) <|
          .bind (.ite (avoids_kfree _) (.pure _)) fun _ => .bind (avoids_store _ _) fun _ => ih _)
        (.pure _)
  exact .ite (.halt (by decide)) (rounds _ _ _)

theorem avoids_uvmdealloc1 (pagetable start stop : Nat) :
    Avoids Foreign (uvmdealloc1 pagetable start stop) :=
  .ite (.pure _) <| .bind (.ite (avoids_vmunmap _ _ _ _) (.pure _)) fun _ => .pure _

theorem avoids_mapWith {fill : Nat → Machine Ram Unit} (h : ∀ mem, Avoids Foreign (fill mem))
    (pagetable a perm : Nat) : Avoids Foreign (mapWith fill pagetable a perm) :=
  .bind avoids_kalloc fun _ => .ite (.pure _) <| .bind (h _) fun _ =>
    .bind (avoids_mappages _ _ _ _ _) fun _ => .ite (.bind (avoids_kfree _) fun _ => .pure _) (.pure _)

theorem avoids_uvmalloc1 (pagetable start stop perm : Nat) :
    Avoids Foreign (uvmalloc1 pagetable start stop perm) :=
  .ite (.pure _) <| .loop (fun _ => .ite
    (.bind (avoids_mapWith (fun _ => avoids_memset _ _ _) _ _ _) fun _ => .ite (.pure _) <|
      .bind (avoids_uvmdealloc1 _ _ _) fun _ => .pure _) (.pure _)) (by decide) _ _

theorem avoids_freewalk (limit pagetable : Nat) : Avoids Foreign (freewalk limit pagetable) := by
  induction limit generalizing pagetable with
  | zero => exact .halt (by decide)
  | succ limit ih =>
    exact .bind (.forM (fun _ => .bind (avoids_load _) fun _ =>
      .ite (.bind (ih _) fun _ => avoids_store _ _) (.pure _)) _) fun _ => avoids_kfree _

theorem avoids_uvmfree (limit pagetable sz : Nat) : Avoids Foreign (uvmfree limit pagetable sz) :=
  .bind (.ite (avoids_vmunmap _ _ _ _) (.pure _)) fun _ => avoids_freewalk _ _

theorem avoids_memmove (dst src n : Nat) : Avoids Foreign (memmove dst src n) :=
  .bind .get fun _ => .ite (.set _) (.halt (by decide))

theorem avoids_copyPage (address : Nat → Nat) (old new a : Nat) :
    Avoids Foreign (copyPage address old new a) :=
  .bind (avoids_walk _ _ _) fun _ => .ite (.halt (by decide)) <| .bind (avoids_load _) fun _ =>
    .ite (.halt (by decide)) (avoids_mapWith (fun _ => avoids_memmove _ _ _) _ _ _)

theorem avoids_uvmcopy (old new sz : Nat) : Avoids Foreign (uvmcopy old new sz) :=
  .loop (fun _ => .ite (.bind (avoids_copyPage _ _ _ _) fun _ => .ite (.pure _) <|
    .bind (avoids_vmunmap _ _ _ _) fun _ => .pure _) (.pure _)) (by decide) _ _

/-! ### Areas -/

theorem avoids_peek (a w : Nat) : Avoids Foreign (Exec.peek a w) :=
  .bind .get fun _ => .ite (.pure _) (.halt (by decide))

theorem avoids_poke (a w v : Nat) : Avoids Foreign (Exec.poke a w v) :=
  .bind .get fun _ => .ite (.set _) (.halt (by decide))

variable (limit : Nat)

theorem avoids_find_mmap_vma (head : Nat) : Avoids Foreign (Exec.find_mmap_vma limit head) :=
  .bind (avoids_peek _ _) fun _ => .loop (fun _ => .ite (.pure _) <| .bind (avoids_peek _ _) fun _ =>
    .ite (.pure _) (.bind (avoids_peek _ _) fun _ => .pure _)) (by decide) _ _

theorem avoids_findPlace (head start stop : Nat) :
    Avoids Foreign (Exec.findPlace limit head start stop) :=
  .bind (avoids_peek _ _) fun _ => .loop (fun _ => .ite (.pure _) <| .bind (avoids_peek _ _) fun _ =>
    .ite (.pure _) <| .bind (avoids_peek _ _) fun _ =>
    .ite (.bind (avoids_peek _ _) fun _ => .pure _) <| .bind (avoids_peek _ _) fun _ =>
    .bind (avoids_peek _ _) fun _ => .ite (.pure _) (.pure _)) (by decide) _ _

theorem avoids_alloc_vma (p : Exec.Proc) (type addr sz perm : Nat) (alloc : Bool) (pa : Nat) :
    Avoids Foreign (Exec.alloc_vma limit p type addr sz perm alloc pa) := by
  refine .bind (avoids_findPlace _ _ _ _) fun place => ?_
  cases place with
  | inside _ => exact .pure _
  | overlap => exact .pure _
  | before _ =>
    exact .bind avoids_kalloc fun _ => .ite (.pure _) <| .bind (avoids_memset _ _ _) fun _ =>
      .bind (.ite (.pure _) <| .ite (avoids_uvmalloc1 _ _ _ _) <|
        .ite (avoids_mappages _ _ _ _ _) (.pure _)) fun _ =>
      .ite (.bind (avoids_kfree _) fun _ => .pure _) <|
      .bind (avoids_poke _ _ _) fun _ => .bind (avoids_poke _ _ _) fun _ =>
      .bind (avoids_poke _ _ _) fun _ => .bind (avoids_poke _ _ _) fun _ =>
      .bind (avoids_poke _ _ _) fun _ => .bind (avoids_poke _ _ _) fun _ =>
      .bind (avoids_poke _ _ _) fun _ => .bind (avoids_peek _ _) fun _ =>
      .bind (avoids_poke _ _ _) fun _ => .bind (avoids_poke _ _ _) fun _ =>
      .bind (avoids_peek _ _) fun _ => .bind (avoids_poke _ _ _) fun _ =>
      .bind (avoids_poke _ _ _) fun _ => .pure _

theorem avoids_alloc_mmap_vma (p : Exec.Proc) (addr sz perm : Nat) (fd : Int) (f_off : Nat) :
    Avoids Foreign (Exec.alloc_mmap_vma limit p addr sz perm fd f_off) :=
  .bind (avoids_find_mmap_vma _ _) fun _ =>
    .bind (.ite (.bind (avoids_peek _ _) fun _ => .pure _) (.pure _)) fun _ =>
    .bind (avoids_alloc_vma _ _ _ _ _ _ _ _) fun _ => .ite (.pure _) <|
    .bind (avoids_poke _ _ _) fun _ => .bind (avoids_poke _ _ _) fun _ => .pure _

theorem avoids_freeArea (pagetable vma : Nat) : Avoids Foreign (Exec.freeArea limit pagetable vma) :=
  .bind (avoids_peek _ _) fun _ => .loop (fun _ => .bind (avoids_peek _ _) fun _ =>
    .ite (.bind (avoids_walk _ _ _) fun _ => .ite (.pure _) <| .bind (avoids_load _) fun _ =>
      .ite (.pure _) <| .bind (avoids_kfree _) fun _ => .bind (avoids_store _ _) fun _ => .pure _)
    (.pure _)) (by decide) _ _

theorem avoids_freeNodes (pagetable vma_head : Nat) :
    Avoids Foreign (Exec.freeNodes limit pagetable vma_head) :=
  .bind (avoids_peek _ _) fun _ => .bind (.loop (fun _ => .ite (.pure _) <|
    .bind (avoids_freeArea _ _ _) fun _ => .bind (avoids_peek _ _) fun _ =>
    .bind (avoids_peek _ _) fun _ => .bind (avoids_kfree _) fun _ => .pure _) (by decide) _ _)
    fun _ => avoids_kfree _

theorem avoids_proc_freepagetable (pagetable sz : Nat) :
    Avoids Foreign (Exec.proc_freepagetable limit pagetable sz) :=
  .bind (avoids_vmunmap _ _ _ _) fun _ => .bind (avoids_vmunmap _ _ _ _) fun _ =>
    avoids_uvmfree _ _ _

theorem avoids_vma_copy (head : Nat) : Avoids Foreign (Exec.vma_copy limit head) :=
  .bind avoids_kalloc fun _ => .ite (.pure _) <| .bind (avoids_poke _ _ _) fun _ =>
    .bind (avoids_poke _ _ _) fun _ => .bind (avoids_poke _ _ _) fun _ =>
    .bind (avoids_peek _ _) fun _ => .loop (fun _ => .ite (.pure _) <| .bind avoids_kalloc fun _ =>
      .ite (.pure _) <| .bind (.bind (avoids_memmove _ _ _) fun _ => .bind (avoids_poke _ _ _) fun _ =>
        .bind (avoids_poke _ _ _) fun _ => .bind (avoids_peek _ _) fun _ =>
        .bind (avoids_poke _ _ _) fun _ => .bind (avoids_poke _ _ _) fun _ =>
        .bind (avoids_peek _ _) fun _ => .bind (avoids_poke _ _ _) fun _ => avoids_poke _ _ _)
        fun _ => .bind (avoids_peek _ _) fun _ => .pure _) (by decide) _ _

theorem avoids_vma_map (old new vma : Nat) : Avoids Foreign (Exec.vma_map old new vma) :=
  .bind (avoids_peek _ _) fun _ => .bind (.loop (fun _ => .bind (avoids_peek _ _) fun _ =>
    .ite (.bind (avoids_copyPage _ _ _ _) fun _ => .ite (.pure _) <|
      .bind (.bind (avoids_peek _ _) fun _ => avoids_vmunmap _ _ _ _) fun _ => .pure _) (.pure _))
    (by decide) _ _) fun _ => .ite (.pure _) <|
    .bind (avoids_peek _ _) fun _ => .bind (avoids_walkaddr _ _) fun _ => .pure _

theorem avoids_mapAreas (old new head : Nat) : Avoids Foreign (mapAreas limit old new head) :=
  .ite (.bind (avoids_peek _ _) fun _ => .loop (fun _ => .ite (.pure _) <|
    .bind (avoids_vma_map _ _ _) fun _ => .ite (.pure _) <|
    .bind (avoids_peek _ _) fun _ => .pure _) (by decide) _ _) (.pure _)

section Task

theorem avoids_modifyProc {F : Type} (f : Exec.Proc → Exec.Proc) :
    Avoids Foreign (Exec.modifyProc (F := F) f) := .modify _

theorem avoids_myproc {F : Type} : Avoids Foreign (Exec.myproc (F := F)) :=
  .bind .get fun _ => .pure _

theorem avoids_free_vma_list : Avoids Foreign (Exec.free_vma_list (F := Unit) limit) :=
  .bind avoids_myproc fun _ => .ite (.pure _) <| .bind (.zoom (avoids_freeNodes _ _ _)) fun _ =>
    .bind (avoids_modifyProc _) fun _ => .pure _

theorem avoids_vma_init : Avoids Foreign (Exec.vma_init (F := Unit) limit) :=
  .bind (.zoom avoids_kalloc) fun _ => .ite (.pure _) <|
    .bind (.zoom (.bind (avoids_memset _ _ _) fun _ => .bind (avoids_poke _ _ _) fun _ =>
      .bind (avoids_poke _ _ _) fun _ => avoids_poke _ _ _)) fun _ =>
    .bind (avoids_modifyProc _) fun _ => .bind avoids_myproc fun _ =>
    .bind (.zoom (avoids_alloc_mmap_vma _ _ _ _ _ _ _)) fun _ =>
    .ite (.bind (.zoom (avoids_kfree _)) fun _ => .pure _) (.pure _)

theorem avoids_proc_pagetable (image : Exec.Image) :
    Avoids Foreign (Exec.proc_pagetable (F := Unit) limit image) := by
  refine .bind (.zoom (.bind avoids_kalloc fun _ => .ite (.pure _) <|
    .bind (avoids_memset _ _ _) fun _ => .pure _)) fun _ => .ite (.pure _) <|
    .bind (avoids_vma_init limit) fun _ => .ite
      (.bind (.zoom (avoids_uvmfree _ _ _)) fun _ => .pure _) <|
    .bind avoids_myproc fun p => .zoom ?_
  exact .bind (avoids_mappages _ _ _ _ _) fun _ =>
    .ite (.bind (avoids_uvmfree _ _ _) fun _ => .pure _) <|
    .bind (avoids_mappages _ _ _ _ _) fun _ => .ite (.bind (avoids_vmunmap _ _ _ _) fun _ =>
      .bind (avoids_uvmfree _ _ _) fun _ => .pure _) <|
    .bind (avoids_mappages _ _ _ _ _) fun _ => .ite (.bind (avoids_vmunmap _ _ _ _) fun _ =>
      .bind (avoids_vmunmap _ _ _ _) fun _ => .bind (avoids_uvmfree _ _ _) fun _ => .pure _) (.pure _)

end Task

/-! ### The locks of the table -/

/-- The locks are as they were. -/
def SameLocks (s t : Shared Kernel) : Prop := t.holder = s.holder ∧ t.stray = s.stray

theorem SameLocks.trans {s t u : Shared Kernel} (first : SameLocks s t) (rest : SameLocks t u) :
    SameLocks s u :=
  ⟨rest.1.trans first.1, rest.2.trans first.2⟩

section Ends

variable {me : Nat} {s : Shared Kernel} {α : Type}

theorem acquire_ends {lk : Nat} (free : s.holder lk ≠ some me) :
    Prog.Ends me (· ≠ Foreign) (acquire lk) s fun _ t => s.holder lk = none ∧
      t = { s with holder := Function.update s.holder lk (some me) } := by
  refine Prog.Ends.holding_bind ?_
  rw [decide_eq_false free]
  exact Prog.Ends.acquire (by decide) fun free => ⟨free, rfl⟩

theorem acquire_free {may : Halt → Prop} {lk : Nat} (free : s.holder lk = none) :
    Prog.Ends me may (acquire lk) s fun _ t =>
      t = { s with holder := Function.update s.holder lk (some me) } := by
  refine Prog.Ends.holding_bind ?_
  rw [free, decide_eq_false (Option.some_ne_none me).symm]
  refine Machine.Ends.of_ok (a := ()) ?_ rfl
  rw [if_neg Bool.false_ne_true, Prog.run_acquire, Prog.takeLock, Machine.bind_of_ok (Machine.get_run s),
    free]
  rfl

theorem release_ends {may : Halt → Prop} {lk : Nat} (held : s.holder lk = some me) :
    Prog.Ends me may (release lk) s fun _ t =>
      t = { s with holder := Function.update s.holder lk none } := by
  refine Prog.Ends.holding_bind ?_
  rw [decide_eq_true held]
  exact Prog.Ends.release held rfl

theorem onState_locks {x : Machine Kernel α} (h : Avoids Foreign x) :
    Prog.Ends me (· ≠ Foreign) (Prog.onState x) s fun _ => SameLocks s :=
  Prog.Ends.onState ((h.ends _).mono fun _ _ _ => ⟨rfl, rfl⟩)

theorem onRam_locks {x : Machine Ram α} (h : Avoids Foreign x) :
    Prog.Ends me (· ≠ Foreign) (onRam x) s fun _ => SameLocks s :=
  onState_locks (.zoom h)

theorem onTask_locks {p : Nat} {x : Machine (Exec.Kernel Unit) α} (h : Avoids Foreign x) :
    Prog.Ends me (· ≠ Foreign) (onTask p x) s fun _ => SameLocks s :=
  onState_locks (.zoom h)

theorem setProc_locks {p : Nat} {f : Task → Task} :
    Prog.Ends me (· ≠ Foreign) (setProc p f) s fun _ => SameLocks s :=
  Prog.Ends.modify ⟨rfl, rfl⟩

variable (limit : Nat) (image : Exec.Image)

theorem freeproc_locks (p : Nat) :
    Prog.Ends me (· ≠ Foreign) (freeproc limit p) s fun _ => SameLocks s := by
  refine Prog.Ends.read_bind (Prog.Ends.bind (R := fun _ => SameLocks s) ?_ ?_)
  · exact Prog.Ends.ite (fun _ => onRam_locks (avoids_kfree _)) fun _ => Prog.Ends.pure ⟨rfl, rfl⟩
  intro _ t₁ same₁
  refine Prog.Ends.bind (onRam_locks (avoids_kfree _)) fun _ t₂ same₂ => ?_
  refine Prog.Ends.bind setProc_locks fun _ t₃ same₃ => ?_
  have same := (same₁.trans same₂).trans same₃
  refine Prog.Ends.bind (R := fun _ => SameLocks s) ?_ ?_
  · refine Prog.Ends.ite (fun _ => ?_) fun _ => Prog.Ends.pure same
    refine Prog.Ends.bind (onTask_locks (avoids_free_vma_list limit)) fun _ t₄ same₄ => ?_
    exact (onRam_locks (avoids_proc_freepagetable limit _ _)).mono fun _ _ same₅ =>
      (same.trans same₄).trans same₅
  · intro _ t₄ same₄
    exact setProc_locks.mono fun _ _ same₅ => same₄.trans same₅

theorem allocFound_locks {p : Nat} (held : s.holder p = some me) :
    Prog.Ends me (· ≠ Foreign) (allocFound limit image p) s fun r t => t.stray = s.stray ∧
      (r = none ∧ t.holder = Function.update s.holder p none ∨ r = some p ∧ t.holder = s.holder) := by
  have give : ∀ {t : Shared Kernel}, SameLocks s t → Prog.Ends me (· ≠ Foreign) (do
      release p
      return none : Call (Option Nat)) t fun r u => u.stray = s.stray ∧
        (r = none ∧ u.holder = Function.update s.holder p none ∨
          r = some p ∧ u.holder = s.holder) := by
    intro t same
    refine Prog.Ends.bind (release_ends (by rw [same.1, held])) ?_
    rintro _ u rfl
    exact Prog.Ends.pure ⟨same.2, .inl ⟨rfl, by rw [same.1]⟩⟩
  refine Prog.Ends.bind (onState_locks (.bind .get fun _ => .bind (.set _) fun _ => .pure _)) ?_
  intro pid t₁ same₁
  refine Prog.Ends.bind setProc_locks fun _ t₂ same₂ => ?_
  refine Prog.Ends.bind (onRam_locks avoids_kalloc) fun trapframe t₃ same₃ => ?_
  refine Prog.Ends.bind setProc_locks fun _ t₄ same₄ => ?_
  have same := ((same₁.trans same₂).trans same₃).trans same₄
  refine Prog.Ends.ite (fun _ => give same) fun _ => ?_
  refine Prog.Ends.bind (onRam_locks (avoids_memset _ _ _)) fun _ t₅ same₅ => ?_
  refine Prog.Ends.bind (onTask_locks (avoids_proc_pagetable limit image)) fun pagetable t₆ same₆ => ?_
  refine Prog.Ends.bind setProc_locks fun _ t₇ same₇ => ?_
  have same := ((same.trans same₅).trans same₆).trans same₇
  refine Prog.Ends.ite (fun _ => ?_) fun _ => ?_
  · refine Prog.Ends.bind (freeproc_locks limit p) fun _ t₈ same₈ => ?_
    exact give (same.trans same₈)
  refine Prog.Ends.bind (onRam_locks avoids_kalloc) fun exec_close t₈ same₈ => ?_
  refine Prog.Ends.bind setProc_locks fun _ t₉ same₉ => ?_
  refine Prog.Ends.ite (fun _ => Prog.Ends.halt (by decide)) fun _ => ?_
  refine Prog.Ends.bind setProc_locks fun _ t same₁₀ => ?_
  have same := ((same.trans same₈).trans same₉).trans same₁₀
  exact Prog.Ends.pure ⟨same.2, .inr ⟨rfl, same.1⟩⟩

/-- A place that is found is locked, and no other lock has changed hands. -/
theorem allocproc_locks (free : ∀ q, s.holder q ≠ some me) :
    Prog.Ends me (· ≠ Foreign) (allocproc limit image) s fun r t => t.stray = s.stray ∧
      match r with
      | none => t.holder = s.holder
      | some np => s.holder np = none ∧ t.holder = Function.update s.holder np (some me) := by
  rw [allocproc]
  generalize List.range NPROC = places
  induction places generalizing s with
  | nil => exact Prog.Ends.pure ⟨rfl, rfl⟩
  | cons p rest ih =>
    refine Prog.Ends.bind (acquire_ends (free p)) ?_
    rintro _ t ⟨unlocked, rfl⟩
    have back : Function.update (Function.update s.holder p (some me)) p none = s.holder := by
      rw [Function.update_idem, ← unlocked, Function.update_eq_self]
    refine Prog.Ends.read_bind (Prog.Ends.ite (fun _ => ?_) fun _ => ?_)
    · refine (allocFound_locks limit image (Function.update_self ..)).mono ?_
      rintro r u ⟨stray, ⟨rfl, holder⟩ | ⟨rfl, holder⟩⟩
      · exact ⟨stray, holder.trans back⟩
      · exact ⟨stray, unlocked, holder⟩
    · refine Prog.Ends.bind (release_ends (Function.update_self ..)) ?_
      rintro _ u rfl
      dsimp only
      rw [back]
      exact ih free

theorem copyHeap_locks (p np : Nat) :
    Prog.Ends me (· ≠ Foreign) (copyHeap p np) s fun _ => SameLocks s :=
  Prog.Ends.read_bind (Prog.Ends.read_bind (onRam_locks (avoids_uvmcopy _ _ _)))

theorem copyAreas_locks (p np : Nat) :
    Prog.Ends me (· ≠ Foreign) (copyAreas limit p np) s fun _ => SameLocks s := by
  refine Prog.Ends.read_bind (Prog.Ends.read_bind ?_)
  refine Prog.Ends.bind (onRam_locks (avoids_vma_copy limit _)) fun head t₁ same₁ => ?_
  refine Prog.Ends.bind setProc_locks fun _ t₂ same₂ => ?_
  exact (onRam_locks (avoids_mapAreas limit _ _ _)).mono fun _ _ same₃ =>
    (same₁.trans same₂).trans same₃

theorem copyFiles_locks (p np : Nat) (fds : List Nat) :
    Prog.Ends me (· ≠ Foreign) (fds.forM (copyFile p np)) s fun _ => SameLocks s := by
  induction fds generalizing s with
  | nil => exact Prog.Ends.pure ⟨rfl, rfl⟩
  | cons i fds ih =>
    refine Prog.Ends.bind (R := fun _ => SameLocks s) ?_ fun _ t same => ih.mono fun _ _ => same.trans
    refine Prog.Ends.read_bind (Prog.Ends.ite (fun _ => ?_) fun _ => Prog.Ends.pure ⟨rfl, rfl⟩)
    refine Prog.Ends.bind (onState_locks (.bind .get fun _ => .ite (.halt (by decide)) (.set _))) ?_
    intro _ t₁ same₁
    exact setProc_locks.mono fun _ _ => same₁.trans

theorem copyProcess_locks {p np : Nat} {registers : Nat → Machine Ram Unit}
    (quiet : ∀ trapframe, Avoids Foreign (registers trapframe)) (held : s.holder np = some me) :
    Prog.Ends me (· ≠ Foreign) (copyProcess p np registers) s fun _ t =>
      t.holder = Function.update s.holder np none ∧ t.stray = s.stray := by
  refine Prog.Ends.read_bind (Prog.Ends.bind setProc_locks fun _ t₁ same₁ => Prog.Ends.read_bind ?_)
  refine Prog.Ends.bind (onRam_locks (.bind (avoids_memmove _ _ _) fun _ => avoids_poke _ _ _)) ?_
  intro _ t₂ same₂
  refine Prog.Ends.bind (copyFiles_locks p np _) fun _ t₃ same₃ => ?_
  refine Prog.Ends.bind (R := fun _ => SameLocks t₃) (Prog.Ends.modify ⟨rfl, rfl⟩) fun _ t₄ same₄ => ?_
  refine Prog.Ends.bind setProc_locks fun _ t₅ same₅ => Prog.Ends.read_bind ?_
  refine Prog.Ends.bind setProc_locks fun _ t₆ same₆ => ?_
  refine Prog.Ends.bind (onRam_locks (quiet _)) fun _ t₇ same₇ => ?_
  have same := (((((same₁.trans same₂).trans same₃).trans same₄).trans same₅).trans same₆).trans same₇
  refine Prog.Ends.bind (release_ends (by rw [same.1, held])) ?_
  rintro _ u rfl
  exact Prog.Ends.pure ⟨by rw [same.1], same.2⟩

end Ends

end AvxKernel.Life
