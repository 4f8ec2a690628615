import AvxKernel.Exec.Exec
import AvxKernel.Vm.Refinement

/-! What a failed `exec` leaves of the calling process. The areas are freed and
listed anew before anything can fail, so the only failure that leaves the
process as it was is one that finds no areas and no free page. -/
namespace AvxKernel.Exec

open Vm

/-- The fields of `struct vma` but for its links. -/
structure Vma where
  type : Nat
  perm : Nat
  addr : Nat
  sz : Nat
  stop : Nat
  flags : Nat
  fd : Nat
  f_off : Nat

def Vma.read (mem : Memory) (a : Nat) : Vma where
  type := mem.fetch a 4
  perm := mem.fetch (a + 4) 4
  addr := mem.fetch (a + 8) 8
  sz := mem.fetch (a + 16) 8
  stop := mem.fetch (a + 24) 8
  flags := mem.fetch (a + 32) 4
  fd := mem.fetch (a + 36) 4
  f_off := mem.fetch (a + 40) 8

/-- The areas from a node round to the head. -/
inductive Areas (mem : Memory) (head : Nat) : Nat → List Vma → Prop where
  | done : Areas mem head head []
  | node {a : Nat} {rest : List Vma} : a ≠ head → Areas mem head (mem.fetch (a + 56) 8) rest →
      Areas mem head a (Vma.read mem a :: rest)

variable {F : Type}

/-- What the process's list of areas is, if it has one. -/
def VmaList (k : Kernel F) : Option (List Vma) → Prop
  | none => k.p.vma = 0
  | some areas => k.p.vma ≠ 0 ∧ Areas k.ram.mem k.p.vma (k.ram.mem.fetch (k.p.vma + 56) 8) areas

/-- The pages of a table, with their levels. -/
inductive TablePage (mem : Memory) (root : Nat) : Nat → Nat → Prop where
  | root : TablePage mem root 3 root
  | child {level page i : Nat} : TablePage mem root (level + 1) page → i < 512 →
      mem.fetch (page + 8 * i) 8 &&& PTE_V ≠ 0 →
      TablePage mem root level (PTE2PA (mem.fetch (page + 8 * i) 8) ||| DMWIN_MASK)

/-- The nodes of the list of areas. -/
inductive VmaNode (mem : Memory) (head : Nat) : Nat → Prop where
  | head : head ≠ 0 → VmaNode mem head head
  | next {a : Nat} : VmaNode mem head a → VmaNode mem head (mem.fetch (a + 56) 8)

/-- The pages that the process's page table and list of areas lead to. -/
inductive Reachable (k : Kernel F) : Nat → Prop where
  | table {level page : Nat} : TablePage k.ram.mem k.p.pagetable level page → Reachable k page
  | mapped {page i : Nat} : TablePage k.ram.mem k.p.pagetable 0 page → i < 512 →
      k.ram.mem.fetch (page + 8 * i) 8 &&& PTE_V ≠ 0 →
      Reachable k (PTE2PA (k.ram.mem.fetch (page + 8 * i) 8))
  | area {a : Nat} : VmaNode k.ram.mem k.p.vma a → Reachable k a

/-- The calling process still has what it had. -/
structure Preserved (s t : Kernel F) : Prop where
  pagetable : t.p.pagetable = s.p.pagetable
  mappings : ∀ va < MAXVA,
    translation t.p.pagetable va t.ram = translation s.p.pagetable va s.ram
  contents : ∀ va < MAXVA, ∀ pa flags, translation s.p.pagetable va s.ram = some (pa, flags) →
    t.ram.mem.window pa PGSIZE = s.ram.mem.window pa PGSIZE
  areas : ∀ l, VmaList t l ↔ VmaList s l
  sz : t.p.sz = s.p.sz
  unfreed : ∀ new, t.ram.freed = new ++ s.ram.freed → ∀ page ∈ new, ¬Reachable s page

/-! ### What no later step takes back -/

/-- Pages freed stay on the record, and a list of areas stays one. -/
def Keeps (s t : Kernel F) : Prop := Freed s.ram t.ram ∧ (s.p.vma ≠ 0 → t.p.vma ≠ 0)

instance : Std.Refl (Keeps (F := F)) := ⟨fun s => ⟨Std.Refl.refl s.ram, id⟩⟩

instance : IsTrans (Kernel F) Keeps :=
  ⟨fun _ _ _ first rest => ⟨Trans.trans first.1 rest.1, fun h => rest.2 (first.2 h)⟩⟩

open Machine (Frame)

section Ram

theorem freed_peek (a w : Nat) : Frame Freed (peek a w) :=
  .bind .get fun _ => .ite (.pure _) (.halt _)

theorem freed_poke (a w v : Nat) : Frame Freed (poke a w v) := by
  refine .get_bind fun s r t h => ?_
  split at h
  · cases h
    exact List.suffix_refl s.freed
  · cases h

theorem freed_deliver (dst : Nat) (bytes : List UInt8) : Frame Freed (deliver dst bytes) := by
  refine .get_bind fun s r t h => ?_
  split at h
  · cases h
    exact List.suffix_refl s.freed
  · cases h

variable (limit : Nat)

theorem freed_find_mmap_vma (head : Nat) : Frame Freed (find_mmap_vma limit head) :=
  .bind (freed_peek _ _) fun _ => .loop (fun _ => .ite (.pure _) <|
    .bind (freed_peek _ _) fun _ => .ite (.pure _) <| .bind (freed_peek _ _) fun _ => .pure _) _ _

theorem freed_findPlace (head start stop : Nat) : Frame Freed (findPlace limit head start stop) :=
  .bind (freed_peek _ _) fun _ => .loop (fun _ => .ite (.pure _) <|
    .bind (freed_peek _ _) fun _ => .ite (.pure _) <|
      .bind (freed_peek _ _) fun _ => .ite (.bind (freed_peek _ _) fun _ => .pure _) <|
        .bind (freed_peek _ _) fun _ => .bind (freed_peek _ _) fun _ =>
          .ite (.pure _) (.pure _)) _ _

theorem freed_alloc_vma (p : Proc) (type addr sz perm : Nat) (alloc : Bool) (pa : Nat) :
    Frame Freed (alloc_vma limit p type addr sz perm alloc pa) := by
  refine .bind (freed_findPlace _ _ _ _) fun place => ?_
  cases place with
  | inside find_vma => exact .pure _
  | overlap => exact .pure _
  | before find_vma =>
    refine .bind freed_kalloc fun vma => .ite (.pure _) <| .bind (freed_memset _ _ _) fun _ =>
      .bind (.ite (.pure _) <| .ite (freed_uvmalloc1 _ _ _ _) <|
        .ite (freed_mappages _ _ _ _ _) (.pure _)) fun _ =>
      .ite (.bind (freed_kfree _) fun _ => .pure _) ?_
    exact .bind (freed_poke _ _ _) fun _ => .bind (freed_poke _ _ _) fun _ =>
      .bind (freed_poke _ _ _) fun _ => .bind (freed_poke _ _ _) fun _ =>
      .bind (freed_poke _ _ _) fun _ => .bind (freed_poke _ _ _) fun _ =>
      .bind (freed_poke _ _ _) fun _ => .bind (freed_peek _ _) fun _ =>
      .bind (freed_poke _ _ _) fun _ => .bind (freed_poke _ _ _) fun _ =>
      .bind (freed_peek _ _) fun _ => .bind (freed_poke _ _ _) fun _ =>
      .bind (freed_poke _ _ _) fun _ => .pure _

theorem freed_alloc_mmap_vma (p : Proc) (addr sz perm : Nat) (fd : Int) (f_off : Nat) :
    Frame Freed (alloc_mmap_vma limit p addr sz perm fd f_off) :=
  .bind (freed_find_mmap_vma _ _) fun _ =>
    .bind (.ite (.bind (freed_peek _ _) fun _ => .pure _) (.pure _)) fun _ =>
    .bind (freed_alloc_vma _ _ _ _ _ _ _ _) fun _ => .ite (.pure _) <|
    .bind (freed_poke _ _ _) fun _ => .bind (freed_poke _ _ _) fun _ => .pure _

theorem freed_alloc_vma_stack (p : Proc) : Frame Freed (alloc_vma_stack limit p) := by
  refine .bind (freed_peek _ _) fun _ => .bind (.loop (fun _ => .ite (.pure _) <|
    .bind (freed_peek _ _) fun _ => .ite (.pure _) (.pure _)) _ _) fun _ =>
    .bind freed_kalloc fun _ => .ite (.pure _) <| .bind (freed_uvmalloc1 _ _ _ _) fun _ =>
    .ite (.bind (freed_kfree _) fun _ => .pure _) ?_
  exact .bind (freed_poke _ _ _) fun _ => .bind (freed_poke _ _ _) fun _ =>
    .bind (freed_poke _ _ _) fun _ => .bind (freed_poke _ _ _) fun _ =>
    .bind (freed_poke _ _ _) fun _ => .bind (freed_poke _ _ _) fun _ =>
    .bind (freed_poke _ _ _) fun _ => .bind (freed_poke _ _ _) fun _ =>
    .bind (freed_poke _ _ _) fun _ => .bind (freed_peek _ _) fun _ =>
    .bind (freed_poke _ _ _) fun _ => .bind (freed_peek _ _) fun _ =>
    .bind (freed_poke _ _ _) fun _ => .bind (freed_poke _ _ _) fun _ => .pure _

theorem freed_get_proc_sp (p : Proc) : Frame Freed (get_proc_sp limit p) :=
  .bind (freed_peek _ _) fun _ => .bind (.loop (fun _ => .ite (.pure _) <|
    .bind (freed_peek _ _) fun _ => .ite (.pure _) <| .bind (freed_peek _ _) fun _ => .pure _) _ _)
    fun _ => .bind (freed_peek _ _) fun _ => .ite (.pure _) (freed_peek _ _)

theorem freed_freeArea (pagetable vma : Nat) : Frame Freed (freeArea limit pagetable vma) :=
  .bind (freed_peek _ _) fun _ => .loop (fun _ => .bind (freed_peek _ _) fun _ =>
    .ite (.bind (freed_walk _ _ _) fun _ => .ite (.pure _) <| .bind (freed_load _) fun _ =>
      .ite (.pure _) <| .bind (freed_kfree _) fun _ => .bind (freed_store _ _) fun _ => .pure _)
    (.pure _)) _ _

theorem freed_proc_freepagetable (pagetable sz : Nat) :
    Frame Freed (proc_freepagetable limit pagetable sz) :=
  .bind (freed_vmunmap _ _ _ _) fun _ => .bind (freed_vmunmap _ _ _ _) fun _ => freed_uvmfree _ _ _

theorem freed_strlen (s : Nat) : Frame Freed (strlen limit s) :=
  .loop (fun _ => .bind (.bind .get fun _ => .ite (.pure _) (.halt _)) fun _ =>
    .ite (.pure _) (.pure _)) _ _

theorem freed_cstring (s : Nat) : Frame Freed (cstring limit s) :=
  .bind (freed_strlen _ _) fun _ => .bind .get fun _ => .pure _

theorem freed_user_stack_push_str (pt ustack str sp stackbase : Nat) :
    Frame Freed (user_stack_push_str limit pt ustack str sp stackbase) :=
  .bind (freed_peek _ _) fun _ => .bind (freed_poke _ _ _) fun _ => .ite (.pure _) <|
    .bind (freed_strlen _ _) fun _ => .ite (.pure _) <| .bind (freed_copyout _ _ _ _) fun _ =>
    .ite (.pure _) <| .bind (freed_poke _ _ _) fun _ => .bind (freed_poke _ _ _) fun _ => .pure _

theorem freed_alloc_aux (aux atid value : Nat) : Frame Freed (alloc_aux aux atid value) :=
  .bind (freed_peek _ _) fun _ => .bind (freed_poke _ _ _) fun _ =>
    .bind (freed_poke _ _ _) fun _ => .bind (freed_poke _ _ _) fun _ =>
    .bind (freed_poke _ _ _) fun _ => .bind (freed_peek _ _) fun _ => freed_poke _ _ _

theorem freed_loadaux (pagetable sp stackbase aux : Nat) :
    Frame Freed (loadaux pagetable sp stackbase aux) :=
  .bind (freed_peek _ _) fun _ => .ite (.pure _) <| .ite (.pure _) <|
    .bind (freed_poke _ _ _) fun _ => .bind (freed_copyout _ _ _ _) fun _ => .ite (.pure _) (.pure _)

variable (image : Image)

theorem freed_pushArgs (pagetable argv sp stackbase : Nat) :
    Frame Freed (pushArgs limit image pagetable argv sp stackbase) :=
  .loop (fun _ => .bind (freed_peek _ _) fun _ => .ite (.pure _) <|
    .bind (freed_cstring _ _) fun _ => .ite (.pure _) <| .ite (.pure _) <| .ite (.pure _) <|
    .ite (.pure _) <| .bind (freed_user_stack_push_str _ _ _ _ _ _) fun _ =>
    .ite (.pure _) (.pure _)) _ _

theorem freed_pushEnv (pagetable env sp stackbase : Nat) :
    Frame Freed (pushEnv limit image pagetable env sp stackbase) :=
  .ite (.pure _) <| .loop (fun _ => .bind (freed_peek _ _) fun _ => .ite (.pure _) <|
    .bind (freed_user_stack_push_str _ _ _ _ _ _) fun _ => .ite (.pure _) (.pure _)) _ _

theorem freed_fillAux (elf : Elfhdr) (ph_vaddr interp_start_addr sp : Nat) :
    Frame Freed (fillAux image elf ph_vaddr interp_start_addr sp) :=
  .bind (freed_memset _ _ _) fun _ => .bind (freed_alloc_aux _ _ _) fun _ =>
    .bind (freed_alloc_aux _ _ _) fun _ => .bind (freed_alloc_aux _ _ _) fun _ =>
    .bind (freed_alloc_aux _ _ _) fun _ => .bind (freed_alloc_aux _ _ _) fun _ =>
    .bind (freed_alloc_aux _ _ _) fun _ => .bind (freed_alloc_aux _ _ _) fun _ =>
    .bind (freed_alloc_aux _ _ _) fun _ => .bind (freed_alloc_aux _ _ _) fun _ =>
    .bind (freed_alloc_aux _ _ _) fun _ => .bind (freed_alloc_aux _ _ _) fun _ =>
    .bind (freed_alloc_aux _ _ _) fun _ => freed_alloc_aux _ _ _

theorem freed_pushVector (alignFirst : Bool) (pagetable sp stackbase src words : Nat) :
    Frame Freed (pushVector alignFirst pagetable sp stackbase src words) :=
  .ite (.pure _) <| .bind (freed_copyout _ _ _ _) fun _ => .ite (.pure _) (.pure _)

theorem freed_buildStack (elf : Elfhdr)
    (ph_vaddr interp_start_addr pagetable argv env sp stackbase : Nat) :
    Frame Freed (buildStack limit image elf ph_vaddr interp_start_addr pagetable argv env sp
      stackbase) := by
  refine .bind (freed_poke _ _ _) fun _ => .bind (freed_user_stack_push_str _ _ _ _ _ _) fun _ =>
    .ite (.pure _) <| .bind (freed_poke _ _ _) fun _ => .bind (freed_poke _ _ _) fun _ =>
    .ite (.pure _) <| .bind (freed_copyout _ _ _ _) fun _ => .ite (.pure _) <|
    .bind (freed_fillAux _ _ _ _ _) fun _ => .bind (freed_poke _ _ _) fun _ =>
    .bind (freed_pushArgs _ _ _ _ _ _) fun args => ?_
  cases args with
  | none => exact .pure _
  | some args =>
    refine .bind (freed_pushEnv _ _ _ _ _ _) fun sp => ?_
    cases sp with
    | none => exact .pure _
    | some sp =>
      refine .bind (freed_loadaux _ _ _ _) fun _ => .ite (.pure _) <|
        .bind (freed_peek _ _) fun _ =>
        .bind (.ite (.pure _) (freed_pushVector _ _ _ _ _ _)) fun sp => ?_
      cases sp with
      | none => exact .pure _
      | some sp =>
        refine .bind (freed_peek _ _) fun _ => .bind (freed_pushVector _ _ _ _ _ _) fun sp => ?_
        cases sp with
        | none => exact .pure _
        | some sp => exact .pure _

end Ram

theorem keeps_onRam {α : Type} {x : Machine Ram α} (h : Frame Freed x) :
    Frame Keeps (onRam (F := F) x) :=
  .zoom h fun _ _ freed => ⟨freed, id⟩

theorem keeps_onFs {α : Type} (x : Machine F α) : Frame Keeps (onFs x) := by
  intro s a t h
  obtain ⟨fs, _, rfl⟩ := Machine.zoom_ok.mp h
  exact ⟨Std.Refl.refl s.ram, id⟩

theorem keeps_modifyProc {f : Proc → Proc} (h : ∀ p : Proc, p.vma ≠ 0 → (f p).vma ≠ 0) :
    Frame Keeps (modifyProc (F := F) f) :=
  .modify _ fun k => ⟨Std.Refl.refl k.ram, h k.p⟩

theorem keeps_myproc : Frame Keeps (myproc (F := F)) := .bind .get fun _ => .pure _

variable (limit : Nat) (image : Image) (fsys : FileSystem F)

theorem keeps_vma_init : Frame Keeps (vma_init (F := F) limit) :=
  .bind (keeps_onRam freed_kalloc) fun _ => .ite_of (fun _ => .pure _) fun found =>
    .bind (keeps_onRam (.bind (freed_memset _ _ _) fun _ => .bind (freed_poke _ _ _) fun _ =>
      .bind (freed_poke _ _ _) fun _ => freed_poke _ _ _)) fun _ =>
    .bind (keeps_modifyProc fun _ _ => found) fun _ => .bind keeps_myproc fun _ =>
    .bind (keeps_onRam (freed_alloc_mmap_vma _ _ _ _ _ _ _)) fun _ =>
    .ite (.bind (keeps_onRam (freed_kfree _)) fun _ => .pure _) (.pure _)

theorem keeps_proc_pagetable : Frame Keeps (proc_pagetable (F := F) limit image) := by
  refine .bind (keeps_onRam (.bind freed_kalloc fun _ => .ite (.pure _) <|
    .bind (freed_memset _ _ _) fun _ => .pure _)) fun _ => .ite (.pure _) <|
    .bind (keeps_vma_init limit) fun _ => .ite
      (.bind (keeps_onRam (freed_uvmfree _ _ _)) fun _ => .pure _) <|
    .bind keeps_myproc fun p => keeps_onRam ?_
  exact .bind (freed_mappages _ _ _ _ _) fun _ =>
    .ite (.bind (freed_uvmfree _ _ _) fun _ => .pure _) <|
    .bind (freed_mappages _ _ _ _ _) fun _ => .ite (.bind (freed_vmunmap _ _ _ _) fun _ =>
      .bind (freed_uvmfree _ _ _) fun _ => .pure _) <|
    .bind (freed_mappages _ _ _ _ _) fun _ => .ite (.bind (freed_vmunmap _ _ _ _) fun _ =>
      .bind (freed_vmunmap _ _ _ _) fun _ => .bind (freed_uvmfree _ _ _) fun _ => .pure _) (.pure _)

theorem keeps_mmap (start len prot flags : Nat) (fd offset : Int) :
    Frame Keeps (mmap limit fsys start len prot flags fd offset) :=
  .ite (.pure _) <| .bind keeps_myproc fun _ => .ite (.pure _) <|
    .bind (keeps_onRam (freed_alloc_mmap_vma _ _ _ _ _ _ _)) fun _ =>
    .bind (.ite (keeps_onRam (freed_peek _ _)) (.pure _)) fun _ => .ite (.pure _) <|
    .ite (.bind (keeps_onFs _) fun _ => .bind (keeps_onFs _) fun _ => .pure _) (.pure _)

theorem keeps_eread (ep dst off n : Nat) : Frame Keeps (eread fsys ep dst off n) :=
  .bind (keeps_onFs _) fun _ => .bind (keeps_onRam (freed_deliver _ _)) fun _ => .pure _

theorem keeps_loadseg (pagetable va ep offset sz : Nat) :
    Frame Keeps (loadseg limit fsys pagetable va ep offset sz) := by
  refine .bind (.ite (.bind (keeps_onRam (freed_walkaddr _ _)) fun _ => .ite (.panic _) <|
    .bind (keeps_eread _ _ _ _ _) fun _ => .ite (.pure _) (.pure _)) (.pure _)) fun first => ?_
  cases first with
  | none => exact .pure _
  | some first =>
    exact .loop (fun _ => .ite (.bind (keeps_onRam (freed_walkaddr _ _)) fun _ =>
      .ite (.panic _) <| .bind (keeps_eread _ _ _ _ _) fun _ => .ite (.pure _) (.pure _))
      (.pure _)) _ _

theorem keeps_readelfhdr (ep : Nat) : Frame Keeps (readelfhdr fsys ep) :=
  .bind (keeps_onFs _) fun _ => .ite (.pure _) (.ite (.pure _) (.pure _))

theorem keeps_readproghdr (ep off : Nat) : Frame Keeps (readproghdr fsys ep off) :=
  .bind (keeps_onFs _) fun _ => .pure _

theorem keeps_loadelf (elf : Elfhdr) (ep pagetable : Nat) :
    Frame Keeps (loadelf limit image fsys elf ep pagetable) := by
  refine .loop (fun l => .ite (.bind (keeps_readproghdr _ _ _) fun ph => ?_) (.pure _)) _ _
  cases ph with
  | none => exact .pure _
  | some ph =>
    exact .ite (.ite (.pure _) <| .ite (.pure _) <| .bind (keeps_onRam (freed_uvmalloc _ _ _ _))
      fun _ => .ite (.pure _) <| .bind (keeps_loadseg _ _ _ _ _ _ _) fun _ =>
      .ite (.pure _) (.pure _)) <| .ite (.pure _) (.ite (.pure _) (.pure _))

theorem keeps_get_total_mapping_size (elf : Elfhdr) (interpreter : Nat) :
    Frame Keeps (get_total_mapping_size limit fsys elf interpreter) := by
  refine .loop (fun l => .ite (.bind (keeps_readproghdr _ _ _) fun ph => ?_) (.pure _)) _ _
  cases ph with
  | none => exact .pure _
  | some ph => exact .ite (.pure _) (.pure _)

theorem keeps_load_elf_interp (pagetable : Nat) (elf : Elfhdr) (interpreter : Nat) :
    Frame Keeps (load_elf_interp limit fsys pagetable elf interpreter) := by
  refine .bind (keeps_get_total_mapping_size _ _ _ _) fun _ => .ite (.pure _) <|
    .bind (keeps_mmap _ _ _ _ _ _ _ _) fun _ => .ite (.pure _) <|
    .loop (fun l => .ite (.bind (keeps_readproghdr _ _ _) fun ph => ?_) (.pure _)) _ _
  cases ph with
  | none => exact .pure _
  | some ph =>
    exact .ite (.ite (.pure _) <| .ite (.pure _) <| .bind (keeps_loadseg _ _ _ _ _ _ _) fun _ =>
      .ite (.pure _) (.pure _)) (.pure _)

theorem keeps_bad (is_shell_script : Bool) (pagetable sz interpreter ep : Nat) :
    Frame Keeps (bad limit fsys is_shell_script pagetable sz interpreter ep) :=
  .bind (.ite (keeps_onRam (freed_proc_freepagetable _ _ _)) (.pure _)) fun _ =>
    .bind (.ite (.bind (keeps_onFs _) fun _ => keeps_onFs _) (.pure _)) fun _ =>
    .bind (.ite (.bind (keeps_onFs _) fun _ => keeps_onFs _) (.pure _)) fun _ =>
    .ite (.halt _) (.pure _)

theorem keeps_closeOnExec : Frame Keeps (closeOnExec fsys) := by
  refine .bind keeps_myproc fun p => .forM (fun fd => ?_) _
  exact .bind keeps_myproc fun _ =>
    .ite (.bind (keeps_onFs _) fun _ => keeps_modifyProc fun _ h => h) (.pure _)

theorem keeps_redirect (redirection : Redir) (redir_file : Nat) :
    Frame Keeps (redirect limit fsys redirection redir_file) :=
  .bind keeps_myproc fun _ => .bind (keeps_onFs _) fun _ => .bind (keeps_modifyProc fun _ h => h)
    fun _ => .bind (keeps_onRam (freed_cstring _ _)) fun _ => .bind keeps_myproc fun _ =>
    .bind (keeps_onFs _) fun _ => .bind (keeps_modifyProc fun _ h => h) fun _ =>
    .ite (.pure _) <| .bind (keeps_modifyProc fun _ h => h) fun _ => .pure _

theorem keeps_commit (path pagetable sz oldpagetable oldsz program_entry : Nat) (args : Args) :
    Frame Keeps (commit limit fsys path pagetable sz oldpagetable oldsz program_entry args) := by
  refine .bind keeps_myproc fun p => .bind (keeps_onRam (.bind (freed_poke _ _ _) fun _ =>
    freed_cstring _ _)) fun _ => .bind (keeps_modifyProc fun _ h => h) fun _ =>
    .bind (keeps_onRam (.bind (freed_poke _ _ _) fun _ => freed_poke _ _ _)) fun _ =>
    .bind (keeps_closeOnExec _) fun _ => .bind ?_ fun _ =>
    .ite (.bind (keeps_onRam (freed_proc_freepagetable _ _ _)) fun _ => .pure _)
      (keeps_bad _ _ _ _ _ _ _)
  cases args.redirection with
  | none => exact .pure _
  | some redirection => exact keeps_redirect _ _ _ _

theorem keeps_loadInterpreter (elf : Elfhdr) (pagetable : Nat) (is_dynamic : Bool) :
    Frame Keeps (loadInterpreter limit fsys elf pagetable is_dynamic) := by
  refine .ite (.bind (keeps_onFs _) fun _ => .ite (.pure _) <| .bind (keeps_onFs _) fun _ =>
    .bind (keeps_readelfhdr _ _) fun interpreter_elf => ?_) (.pure _)
  cases interpreter_elf with
  | none => exact .pure _
  | some interpreter_elf =>
    exact .bind (keeps_load_elf_interp _ _ _ _ _) fun _ => .bind (keeps_onFs _) fun _ =>
      .bind (keeps_onFs _) fun _ => .pure _

theorem keeps_execImage (path argv env ep pagetable oldpagetable : Nat) (elf : Elfhdr) :
    Frame Keeps (execImage limit image fsys path argv env ep pagetable oldpagetable elf) := by
  refine .bind (keeps_modifyProc fun _ h => h) fun _ => .bind (keeps_loadelf _ _ _ _ _ _)
    fun _ => .bind (keeps_loadInterpreter _ _ _ _ _) fun loaded => ?_
  cases loaded with
  | error interpreter => exact keeps_bad _ _ _ _ _ _ _
  | ok loaded =>
    refine .bind (keeps_onFs _) fun _ => .bind (keeps_onFs _) fun _ => .bind keeps_myproc fun _ =>
      .bind (keeps_onRam (freed_alloc_vma_stack _ _)) fun _ =>
      .bind (keeps_onRam (freed_get_proc_sp _ _)) fun _ =>
      .bind (keeps_onRam (freed_buildStack _ _ _ _ _ _ _ _ _ _)) fun args => ?_
    cases args with
    | none => exact keeps_bad _ _ _ _ _ _ _
    | some args => exact keeps_commit _ _ _ _ _ _ _ _ _

theorem keeps_execPath (path argv env : Nat) :
    Frame Keeps (execPath limit image fsys path argv env) := by
  refine .bind keeps_myproc fun _ => .bind (keeps_onRam (freed_cstring _ _)) fun _ =>
    .ite (keeps_bad _ _ _ _ _ _ _) <| .bind (keeps_onFs _) fun _ =>
    .ite (keeps_bad _ _ _ _ _ _ _) <| .bind (keeps_onFs _) fun _ =>
    .bind (keeps_readelfhdr _ _) fun elf => ?_
  cases elf with
  | none => exact keeps_bad _ _ _ _ _ _ _
  | some elf =>
    exact .bind (keeps_proc_pagetable _ _) fun _ => .ite (keeps_bad _ _ _ _ _ _ _)
      (keeps_execImage _ _ _ _ _ _ _ _ _ _)

/-! ### The first two calls -/

variable {limit image fsys} {s t : Kernel F}

theorem kfree_freed {pa : Nat} {k k' : Ram} (h : kfree pa k = .ok ((), k')) :
    k'.freed = pa :: k.freed := by
  rw [kfree, Machine.bind_of_ok (Machine.get_run k)] at h
  split at h
  · cases h
  · cases h
    rfl

/-- The head of the list is freed last. -/
theorem free_vma_list_head {r : Int} (areas : s.p.vma ≠ 0)
    (run : free_vma_list limit s = .ok (r, t)) :
    ∃ new, t.ram.freed = new ++ s.ram.freed ∧ s.p.vma ∈ new := by
  rw [free_vma_list, Machine.bind_of_ok (myproc_run s), if_neg areas] at run
  obtain ⟨⟨⟩, u, free, run⟩ := Machine.bind_ok.mp run
  obtain ⟨ram, nodes, rfl⟩ := Machine.zoom_ok.mp free
  cases run
  obtain ⟨first, v, next, nodes⟩ := Machine.bind_ok.mp nodes
  obtain ⟨last, w, rounds, head⟩ := Machine.bind_ok.mp nodes
  have same : last = s.p.vma := by
    refine Machine.loop_result (P := fun last => last = s.p.vma) (fun vma k last k' round => ?_) rounds
    split at round
    · rename_i done
      cases round
      exact done
    · obtain ⟨⟨⟩, k₁, _, round⟩ := Machine.bind_ok.mp round
      obtain ⟨next, k₂, _, round⟩ := Machine.bind_ok.mp round
      obtain ⟨prev, k₃, _, round⟩ := Machine.bind_ok.mp round
      obtain ⟨⟨⟩, k₄, _, round⟩ := Machine.bind_ok.mp round
      cases round
  have before : Freed s.ram w := by
    refine Trans.trans (freed_peek _ _ _ _ _ next)
      (Frame.loop (R := Freed) ?_ limit first v last w rounds)
    exact fun _ => .ite (.pure _) <| .bind (freed_freeArea _ _ _) fun _ =>
      .bind (freed_peek _ _) fun _ => .bind (freed_peek _ _) fun _ =>
      .bind (freed_kfree _) fun _ => .pure _
  obtain ⟨pre, before⟩ := before
  refine ⟨last :: pre, ?_, by simp [same]⟩
  rw [kfree_freed head, ← before, List.cons_append]

theorem vma_init_areas {r : Nat} (room : s.ram.freelist ≠ 0)
    (run : vma_init limit s = .ok (r, t)) : t.p.vma ≠ 0 := by
  obtain ⟨vma, u, alloc, run⟩ := Machine.bind_ok.mp run
  obtain ⟨ram, page, rfl⟩ := Machine.zoom_ok.mp alloc
  have found : vma ≠ 0 := by
    rw [kalloc, Machine.bind_of_ok (Machine.get_run s.ram), if_neg room] at page
    cases page
    exact room
  rw [if_neg found] at run
  obtain ⟨⟨⟩, v, _, run⟩ := Machine.bind_ok.mp run
  obtain ⟨⟨⟩, w, set, run⟩ := Machine.bind_ok.mp run
  cases set
  refine (Frame.bind keeps_myproc fun _ =>
    .bind (keeps_onRam (freed_alloc_mmap_vma _ _ _ _ _ _ _)) fun _ =>
    .ite (.bind (keeps_onRam (freed_kfree _)) fun _ => .pure _) (.pure _) :
      Frame Keeps _) _ _ _ run |>.2 found

theorem kalloc_empty {k : Ram} (empty : k.freelist = 0) : kalloc k = .ok (0, k) := by
  rw [kalloc, Machine.bind_of_ok (Machine.get_run k), if_pos empty]
  rfl

/-- With no page to be had, `vma_init` does nothing. -/
theorem vma_init_empty (empty : s.ram.freelist = 0) : vma_init limit s = .ok (0, s) := by
  have alloc : onRam kalloc s = .ok (0, s) :=
    Machine.zoom_ok.mpr ⟨s.ram, kalloc_empty empty, rfl⟩
  rw [vma_init, Machine.bind_of_ok alloc, if_pos rfl]
  rfl

theorem proc_pagetable_empty (empty : s.ram.freelist = 0) :
    proc_pagetable limit image s = .ok (0, s) := by
  have create : onRam uvmcreate s = .ok (0, s) := by
    refine Machine.zoom_ok.mpr ⟨s.ram, ?_, rfl⟩
    rw [uvmcreate, Machine.bind_of_ok (kalloc_empty empty), if_pos rfl]
    rfl
  rw [proc_pagetable, Machine.bind_of_ok create, if_pos rfl]
  rfl

/-- Only the file system has moved. -/
def Untouched (s t : Kernel F) : Prop := t.ram = s.ram ∧ t.p = s.p

instance : Std.Refl (Untouched (F := F)) := ⟨fun _ => ⟨rfl, rfl⟩⟩

instance : IsTrans (Kernel F) Untouched :=
  ⟨fun _ _ _ first rest => ⟨rest.1.trans first.1, rest.2.trans first.2⟩⟩

theorem untouched_onFs {α : Type} (x : Machine F α) : Frame Untouched (onFs x) := by
  intro s a t h
  obtain ⟨fs, _, rfl⟩ := Machine.zoom_ok.mp h
  exact ⟨rfl, rfl⟩

theorem untouched_cstring (a : Nat) : Frame Untouched (onRam (F := F) (cstring limit a)) := by
  have read : Frame (fun k k' : Ram => k = k') (cstring limit a) :=
    .bind (.loop (fun _ => .bind (.bind .get fun _ => .ite (.pure _) (.halt _)) fun _ =>
      .ite (.pure _) (.pure _)) _ _) fun _ => .bind .get fun _ => .pure _
  exact .zoom read fun k ram same => ⟨same.symm, rfl⟩

/-- A failure before there is a page table. -/
theorem untouched_bad (is_shell_script : Bool) (sz interpreter ep : Nat) :
    Frame Untouched (bad limit fsys is_shell_script 0 sz interpreter ep) :=
  .bind (.pure _) fun _ =>
    .bind (.ite (.bind (untouched_onFs _) fun _ => untouched_onFs _) (.pure _)) fun _ =>
    .bind (.ite (.bind (untouched_onFs _) fun _ => untouched_onFs _) (.pure _)) fun _ =>
    .ite (.halt _) (.pure _)

theorem execPath_empty {path argv env : Nat} {r : Int} (empty : s.ram.freelist = 0)
    (run : execPath limit image fsys path argv env s = .ok (r, t)) : Untouched s t := by
  rw [execPath, Machine.bind_of_ok (myproc_run s)] at run
  obtain ⟨name, u, read, run⟩ := Machine.bind_ok.mp run
  have toPath := untouched_cstring _ _ _ _ read
  split at run
  · exact Trans.trans toPath (untouched_bad _ _ _ _ _ _ _ run)
  obtain ⟨ep, v, found, run⟩ := Machine.bind_ok.mp run
  have toFile : Untouched s v := Trans.trans toPath (untouched_onFs _ _ _ _ found)
  split at run
  · exact Trans.trans toFile (untouched_bad _ _ _ _ _ _ _ run)
  obtain ⟨⟨⟩, w, lock, run⟩ := Machine.bind_ok.mp run
  obtain ⟨elf, x, header, run⟩ := Machine.bind_ok.mp run
  have toHeader : Untouched s x := by
    have read : Frame Untouched (readelfhdr fsys ep) :=
      .bind (untouched_onFs _) fun _ => .ite (.pure _) (.ite (.pure _) (.pure _))
    exact Trans.trans toFile (Trans.trans (untouched_onFs _ _ _ _ lock) (read _ _ _ header))
  cases elf with
  | none => exact Trans.trans toHeader (untouched_bad false 0 0 ep _ _ _ run)
  | some elf =>
    have empty' : x.ram.freelist = 0 := by rw [toHeader.1, empty]
    dsimp only at run
    rw [Machine.bind_of_ok (proc_pagetable_empty empty'), if_pos rfl] at run
    exact Trans.trans toHeader (untouched_bad _ _ _ _ _ _ _ run)

/-! ### The theorem -/

theorem Untouched.preserved (h : Untouched s t) : Preserved s t := by
  have list : ∀ l, VmaList t l ↔ VmaList s l := by
    intro l
    cases l <;> simp only [VmaList, h.1, h.2]
  constructor
  · rw [h.2]
  · intro va _
    rw [h.1, h.2]
  · intro va _ pa flags _
    rw [h.1]
  · exact list
  · rw [h.2]
  · intro new freed page hp
    have none : new = [] := by
      rw [h.1] at freed
      exact List.self_eq_append_left.mp freed
    rw [none] at hp
    cases hp

/-- The process's areas are freed before anything is looked at. -/
theorem exec_frees_areas {path argv env : Nat} {r : Int} (areas : s.p.vma ≠ 0)
    (run : exec limit image fsys path argv env s = .ok (r, t)) : ¬Preserved s t := by
  obtain ⟨_, u, free, afterFree⟩ := Machine.bind_ok.mp run
  obtain ⟨_, v, init, onPath⟩ := Machine.bind_ok.mp afterFree
  obtain ⟨new, first, freed⟩ := free_vma_list_head areas free
  have later : Keeps u t :=
    Trans.trans (keeps_vma_init _ _ _ _ init) (keeps_execPath _ _ _ _ _ _ _ _ _ onPath)
  obtain ⟨more, rest⟩ := later.1
  intro kept
  refine absurd (.area (.head areas)) (kept.unfreed (more ++ new) ?_ s.p.vma ?_)
  · rw [← rest, first, List.append_assoc]
  · exact List.mem_append_right more freed

/-- Over every file system, every image, every state of the process and every
point of failure: a failed `exec` leaves the process as it was exactly if the
process had no list of areas and there was no free page to make one of. -/
theorem exec_failure_preserves {path argv env : Nat}
    (run : exec limit image fsys path argv env s = .ok (-1, t)) :
    Preserved s t ↔ s.p.vma = 0 ∧ s.ram.freelist = 0 := by
  rcases eq_or_ne s.p.vma 0 with bare | areas
  · have free : free_vma_list limit s = .ok (1, s) := by
      rw [free_vma_list, Machine.bind_of_ok (myproc_run s), if_pos bare]
      rfl
    rw [exec, Machine.bind_of_ok free] at run
    obtain ⟨_, v, init, onPath⟩ := Machine.bind_ok.mp run
    rcases eq_or_ne s.ram.freelist 0 with empty | room
    · rw [vma_init_empty empty] at init
      cases init
      exact ⟨fun _ => ⟨bare, empty⟩, fun _ => (execPath_empty empty onPath).preserved⟩
    · have now : t.p.vma ≠ 0 :=
        (keeps_execPath _ _ _ _ _ _ _ _ _ onPath).2 (vma_init_areas room init)
      exact ⟨fun kept => absurd ((kept.areas none).mpr bare) now, fun h => absurd h.2 room⟩
  · exact ⟨fun kept => absurd kept (exec_frees_areas areas run), fun h => absurd h.1 areas⟩

/-! ### Two failures to find the program -/

/-- A file system with no files. -/
def noFiles : FileSystem Unit where
  ename _ := return 0
  elock _ := return ()
  eunlock _ := return ()
  eput _ := return ()
  eread _ _ _ := return []
  fileclose _ := return ()
  filedup _ := return ()
  seek _ _ := return ()
  file_open _ _ ofile := return (-1, ofile)

def someImage : Image where
  trampoline := RAMBASE
  signalTrampoline := RAMBASE
  ub_bindir := RAMBASE
  ustack := RAMBASE
  envp := RAMBASE
  aux := RAMBASE
  random := RAMBASE
  ph_vaddr := 0

/-- A process whose list of areas starts at the given page, the only page there
is and one that leads back to itself. -/
def processAt (vma : Nat) : Kernel Unit where
  ram :=
    { mem := Memory.store (fun _ => 0) (RAMBASE + 56) 8 RAMBASE
      freelist := 0
      npage := 0
      kernel_end := RAMBASE
      allocated := []
      freed := []
      touched := [] }
  p :=
    { sz := 0
      pagetable := RAMBASE + PGSIZE
      trapframe := 0
      vma
      filelimit := 0
      ofile := fun _ => 0
      exec_close := fun _ => 0
      name := [] }
  fs := ()

theorem exec_failure_preserves_bare : ∃ t,
    exec 4 someImage noFiles (RAMBASE + PGSIZE) 0 0 (processAt 0) = .ok (-1, t) ∧
    Preserved (processAt 0) t := by
  obtain ⟨t, run⟩ := Machine.ok_of_value
    (x := exec 4 someImage noFiles (RAMBASE + PGSIZE) 0 0 (processAt 0)) (a := -1) (by decide)
  exact ⟨t, run, (exec_failure_preserves run).mpr ⟨rfl, rfl⟩⟩

/-- A program that is not there, and a process that has an area list. -/
theorem exec_missing_frees_areas : ∃ t,
    exec 4 someImage noFiles (RAMBASE + PGSIZE) 0 0 (processAt RAMBASE) = .ok (-1, t) ∧
    ¬Preserved (processAt RAMBASE) t := by
  obtain ⟨t, run⟩ := Machine.ok_of_value
    (x := exec 4 someImage noFiles (RAMBASE + PGSIZE) 0 0 (processAt RAMBASE)) (a := -1)
    (by decide)
  exact ⟨t, run, exec_frees_areas (by decide) run⟩

end AvxKernel.Exec
