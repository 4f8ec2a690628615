import AvxKernel.Vm.Pool
import AvxKernel.Vm.Space

/-! What `freewalk` gives back of a page table. `walk` stores the window's bits with the
link to a new table page, and two of `PTE_FLAGS`'s bits are among them, so that `freewalk`
takes every link for a leaf. -/
namespace AvxKernel.Vm

variable {root : Nat} {node : Nodes} {pages : List Nat} {s t : Ram}

/-- The tag of a link. -/
theorem PTE_FLAGS_pde_ne (page : Nat) : PTE_FLAGS (pde page) ≠ PTE_V := by
  intro h
  have : (PTE_FLAGS (pde page)).testBit 63 = PTE_V.testBit 63 := by rw [h]
  rw [PTE_FLAGS, pde, Nat.testBit_and, testBit_flags, Nat.testBit_or, testBit_DMWIN_MASK] at this
  simp only [PTE_V, decide_true, Bool.or_true, or_true] at this
  exact absurd this (by decide)

theorem window_of_lt_bit {va : Nat} (h : va < 2 ^ 60) : va &&& DMWIN_MASK = 0 := by
  apply Nat.eq_of_testBit_eq
  intro i
  rw [Nat.testBit_and, testBit_DMWIN_MASK, Nat.zero_testBit]
  by_cases hi : i = 60 ∨ i = 63
  · rw [testBit_above h (by omega), Bool.false_and]
  · simp [hi]

/-! ### Tables as calls leave them -/

/-- A table, whatever it maps: its pages, and no other entry in its root than links. -/
structure Planted (s : Ram) (root : Nat) (node : Nodes) (pages : List Nat) : Prop where
  tree : Tree s.mem root node
  pages : ∀ page, node.Has page ↔ page ∈ pages
  slots : ∀ i < 512, s.mem.fetch (root + 8 * i) 8 = 0 ∨
    ∃ page, s.mem.fetch (root + 8 * i) 8 = pde page
  top : ∀ {l q a}, node l q = some a → l < 3 ∨ l = 3 ∧ q = 0

theorem Planted.congr (h : Planted s root node pages)
    (same : ∀ page ∈ pages, ∀ i < PGSIZE, t.mem (page + i) = s.mem (page + i)) :
    Planted t root node pages where
  tree := h.tree.congr fun ha => same _ ((h.pages _).mp ⟨_, _, ha⟩)
  pages := h.pages
  slots := by
    intro i hi
    have kept : t.mem.fetch (root + 8 * i) 8 = s.mem.fetch (root + 8 * i) 8 := by
      apply Memory.fetch_congr
      intro k hk
      rw [Nat.add_assoc]
      refine same root ((h.pages root).mp ⟨_, _, h.tree.root⟩) _ ?_
      rw [PGSIZE]
      omega
    rw [kept]
    exact h.slots i hi
  top := h.top

/-- A leaf entry is not in the root. -/
theorem Planted.setLeaf (h : Planted s root node pages) {va b : Nat} (v : Nat)
    (hb : node 0 (above 0 va) = some b) :
    Planted (s.setMem (s.mem.store (b + 8 * PX 0 va) 8 v)) root node pages where
  tree := h.tree.setLeaf v hb
  pages := h.pages
  slots := by
    intro i hi
    have ne : root ≠ b := by
      rintro rfl
      have := (h.tree.apart h.tree.root hb).1
      omega
    rw [Ram.setMem_mem, Memory.fetch_store_other _
      (h.tree.entries_apart hb h.tree.root ne (PX_lt 0 va) hi)]
    exact h.slots i hi
  top := h.top

theorem Planted.walk (h : Planted s root node pages) {va pte : Nat} {new : List Nat}
    (low : va < MAXVA) (run : walk root va true s = .ok (pte, t))
    (log : t.allocated = new ++ s.allocated) (frames : ∀ page ∈ new, Frame page)
    (apart : (new ++ pages).Nodup) :
    ∃ node', Planted t root node' (new ++ pages) ∧
      (pte ≠ 0 → ∃ b, node' 0 (above 0 va) = some b ∧ pte = b + 8 * PX 0 va) := by
  obtain ⟨nodup, -, outside⟩ := List.nodup_append.mp apart
  rw [Vm.walk, if_neg (by simp [window_of_lt low]), if_neg (by omega)] at run
  obtain ⟨node', grown⟩ := walkLevels_grow h.tree (Nat.le_refl 3)
    (by rw [above_top low, h.tree.root]) run log frames nodup
    fun page hp has => outside page hp page ((h.pages page).mp has) rfl
  refine ⟨node', ⟨grown.tree, fun page => ?_, fun i hi => ?_, fun {l q a} ha => ?_⟩, grown.found⟩
  · rw [grown.pages, h.pages, List.mem_append, or_comm]
  · rcases grown.slots i hi with same | linked
    · rw [same]
      exact h.slots i hi
    · exact .inr linked
  · rcases Nat.lt_or_ge l 3 with lower | high
    · exact .inl lower
    · exact h.top (grown.top l q high ▸ ha)

/-- A walk that returns, and does not start in the window, is about a user address. -/
theorem walk_low {va pte : Nat} {alloc : Bool} (user : va &&& DMWIN_MASK = 0)
    (run : walk root va alloc s = .ok (pte, t)) : va < MAXVA := by
  rw [walk, if_neg (by simp [user])] at run
  by_contra high
  rw [if_pos (by omega)] at run
  cases run

theorem next_user {a : Nat} (low : a < MAXVA) : u64 (a + PGSIZE) &&& DMWIN_MASK = 0 := by
  rw [MAXVA_eq] at low
  have small : a + PGSIZE < 2 ^ 60 := by
    rw [PGSIZE]
    omega
  rw [u64, Nat.mod_eq_of_lt (by omega)]
  exact window_of_lt_bit small

/-- `mappages`, whether it succeeds or not. -/
theorem Planted.mappagesFrom {last perm n a pa : Nat} {r : Int} {new : List Nat}
    (h : Planted s root node pages) (user : a &&& DMWIN_MASK = 0)
    (run : mappagesFrom root last perm n a pa s = .ok (r, t))
    (log : t.allocated = new ++ s.allocated) (frames : ∀ page ∈ new, Frame page)
    (apart : (new ++ pages).Nodup) : ∃ node', Planted t root node' (new ++ pages) := by
  induction n generalizing s a pa node pages new with
  | zero => cases run
  | succ n ih =>
    rw [Vm.mappagesFrom] at run
    obtain ⟨pte, u, walked, rest⟩ := Machine.bind_ok.mp run
    have low := walk_low user walked
    split at rest
    · cases rest
      obtain ⟨node', planted, -⟩ := h.walk low walked log frames apart
      exact ⟨node', planted⟩
    next found =>
    rw [Machine.bind_of_ok (load_run _ u)] at rest
    split at rest
    · cases rest
    rw [Machine.bind_of_ok (store_run _ _ u)] at rest
    obtain ⟨first, hfirst⟩ := walk_log walked
    split at rest
    · cases rest
      obtain ⟨node', planted, reached⟩ := h.walk low walked log frames apart
      obtain ⟨b, hb, rfl⟩ := reached found
      exact ⟨node', planted.setLeaf _ hb⟩
    · obtain ⟨later, hlater⟩ := mappagesFrom_log rest
      obtain rfl : new = later ++ first := by
        rw [hlater, Ram.setMem_allocated, hfirst, ← List.append_assoc] at log
        exact (List.append_cancel_right log).symm
      rw [List.append_assoc] at apart ⊢
      obtain ⟨node', planted, reached⟩ := h.walk low walked hfirst
        (fun page hp => frames page (List.mem_append_right _ hp)) (List.nodup_append.mp apart).2.1
      obtain ⟨b, hb, rfl⟩ := reached found
      exact ih (planted.setLeaf _ hb) (next_user low) rest hlater
        (fun page hp => frames page (List.mem_append_left _ hp)) apart

theorem kfree_freed {pa : Nat} (run : kfree pa s = .ok ((), t)) : t.freed = pa :: s.freed := by
  rw [kfree, Machine.bind_of_ok (Machine.get_run s)] at run
  split at run
  · cases run
  · rw [Machine.bind_of_ok (memset_run _ _ _ s), Machine.bind_of_ok (store_run _ _ _)] at run
    cases run
    rfl

theorem freed_vmunmapFrom (stop n a : Nat) (do_free : Bool) :
    Machine.Frame Freed (vmunmapFrom root stop do_free n a) := by
  induction n generalizing a with
  | zero => exact .halt _
  | succ n ih =>
    refine .ite (.bind (freed_walk _ _ _) fun pte => .ite (.panic _) <| .bind (freed_load _) fun entry =>
      .ite (.panic _) <| .ite (.panic _) <| .bind ?_ fun _ => .bind (freed_store _ _) fun _ => ih _)
      (.pure _)
    exact .ite (freed_kfree _) (.pure _)

/-- `vmunmap` frees frames and clears leaf entries. -/
theorem Planted.vmunmapFrom {stop n a : Nat} {do_free : Bool} {gone : List Nat}
    (h : Planted s root node pages) (user : a &&& DMWIN_MASK = 0)
    (run : vmunmapFrom root stop do_free n a s = .ok ((), t))
    (log : t.freed = gone ++ s.freed) (apart : ∀ page ∈ gone, page ∉ pages) :
    Planted t root node pages := by
  induction n generalizing s a gone with
  | zero => cases run
  | succ n ih =>
    rw [Vm.vmunmapFrom] at run
    split at run
    next =>
      obtain ⟨pte, u, walked, rest⟩ := Machine.bind_ok.mp run
      have low := walk_low user walked
      rw [walk_find h.tree low] at walked
      cases walked
      cases hb : node 0 (above 0 a) with
      | none =>
        rw [hb] at rest
        cases rest
      | some b =>
        have pos := (h.tree.frame hb).pos
        rw [hb, Option.elim_some, if_neg (by omega), Machine.bind_of_ok (load_run _ s)] at rest
        split at rest
        · cases rest
        split at rest
        · cases rest
        obtain ⟨⟨⟩, u, freeing, rest⟩ := Machine.bind_ok.mp rest
        rw [Machine.bind_of_ok (store_run _ _ u)] at rest
        obtain ⟨later, hlater⟩ := freed_vmunmapFrom stop n _ do_free _ _ _ rest
        have freed : (u.setMem (u.mem.store (b + 8 * PX 0 a) 8 0)).freed = u.freed := rfl
        split at freeing
        · have logged := kfree_freed freeing
          rw [freed, logged] at hlater
          obtain rfl : gone = later ++ [PTE2PA (s.mem.fetch (b + 8 * PX 0 a) 8) ||| DMWIN_MASK] := by
            rw [← hlater] at log
            exact (List.append_left_inj s.freed).mp (by simpa using log.symm)
          have frame := PTE2PA_frame (s.mem.fetch (b + 8 * PX 0 a) 8)
          rw [frame_window frame] at freeing apart
          have planted : Planted u root node pages := h.congr fun page mem i hi => by
            refine kfree_mem freeing ?_
            have ne : page ≠ PTE2PA (s.mem.fetch (b + 8 * PX 0 a) 8) := by
              rintro rfl
              exact apart _ (by simp) mem
            obtain ⟨l, p, hp⟩ := (h.pages page).mpr mem
            exact (h.tree.frame hp).disjoint frame ne ⟨by omega, by omega⟩
          refine ih (planted.setLeaf 0 hb) (next_user low) rest ?_
            fun page mem => apart page (List.mem_append_left _ mem)
          rw [freed, logged, hlater]
        · cases freeing
          exact ih (h.setLeaf 0 hb) (next_user low) rest log apart
    next =>
      cases run
      exact h

/-- A state, and the pages that `kalloc` gave to the table. -/
structure Grove where
  ram : Ram
  pages : List Nat

/-- Every table that calls on user addresses build up, whether they succeed or not. A new
table page is one that the table does not have yet, and no page of the table is freed as the
frame of a mapping. -/
inductive Lived (root : Nat) : Grove → Prop where
  | uvmcreate {s t : Ram} (run : uvmcreate s = .ok (root, t)) (got : root ≠ 0)
      (frame : Frame root) : Lived root ⟨t, [root]⟩
  | mappages {x : Grove} {va size pa perm : Nat} {r : Int} {t : Ram} {new : List Nat}
      (lived : Lived root x) (user : va &&& DMWIN_MASK = 0)
      (run : mappages root va size pa perm x.ram = .ok (r, t))
      (log : t.allocated = new ++ x.ram.allocated) (frames : ∀ page ∈ new, Frame page)
      (apart : (new ++ x.pages).Nodup) : Lived root ⟨t, new ++ x.pages⟩
  | vmunmap {x : Grove} {va npages : Nat} {do_free : Bool} {t : Ram} {gone : List Nat}
      (lived : Lived root x) (user : va &&& DMWIN_MASK = 0)
      (run : vmunmap root va npages do_free x.ram = .ok ((), t))
      (log : t.freed = gone ++ x.ram.freed) (apart : ∀ page ∈ gone, page ∉ x.pages) :
      Lived root ⟨t, x.pages⟩
  /-- Whatever the rest of the kernel does to memory that is not the table's. -/
  | other {x : Grove} {t : Ram} (lived : Lived root x)
      (same : ∀ page ∈ x.pages, ∀ i < PGSIZE, t.mem (page + i) = x.ram.mem (page + i)) :
      Lived root ⟨t, x.pages⟩

theorem uvmcreate_planted (run : uvmcreate s = .ok (root, t)) (got : root ≠ 0)
    (frame : Frame root) : ∃ node, Planted t root node [root] := by
  have refined := uvmcreate_refines run got frame
  refine ⟨_, refined.tree, refined.pages, fun i hi => .inl ?_, fun {l q a} ha => ?_⟩
  · rw [uvmcreate] at run
    obtain ⟨r, u, -, rest⟩ := Machine.bind_ok.mp run
    split at rest
    · cases rest
      exact absurd rfl got
    · rw [Machine.bind_of_ok (memset_run _ _ _ u)] at rest
      cases rest
      exact Memory.fetch_fill_zero _ (by omega) (by rw [PGSIZE]; omega)
  · split at ha
    next top => exact .inr top
    next => cases ha

theorem Lived.planted {x : Grove} (lived : Lived root x) :
    (∃ node, Planted x.ram root node x.pages) ∧ x.pages.Nodup := by
  induction lived with
  | uvmcreate run got frame => exact ⟨uvmcreate_planted run got frame, by simp⟩
  | mappages lived user run log frames apart ih =>
    obtain ⟨⟨node, planted⟩, -⟩ := ih
    rw [Vm.mappages] at run
    split at run
    · cases run
    · exact ⟨planted.mappagesFrom (by rwa [window_PGROUNDDOWN]) run log frames apart, apart⟩
  | vmunmap lived user run log apart ih =>
    obtain ⟨⟨node, planted⟩, nodup⟩ := ih
    rw [Vm.vmunmap] at run
    split at run
    · cases run
    · exact ⟨⟨node, planted.vmunmapFrom user run log apart⟩, nodup⟩
  | other lived same ih =>
    obtain ⟨⟨node, planted⟩, nodup⟩ := ih
    exact ⟨⟨node, planted.congr same⟩, nodup⟩

/-! ### What is given back -/

theorem forM_skip {α : Type} {body : α → Machine Ram Unit} (l : List α)
    (skip : ∀ a ∈ l, body a s = .ok ((), s)) : l.forM body s = .ok ((), s) := by
  induction l with
  | nil => rfl
  | cons a l ih =>
    refine (Machine.bind_of_ok (skip a (by simp))).trans ?_
    exact ih fun a mem => skip a (List.mem_cons_of_mem _ mem)

/-- `freewalk` takes the links for leaves, and frees the page that it is called with. -/
theorem Planted.freewalk_run (h : Planted s root node pages) (usable : Usable s root)
    (limit : Nat) : freewalk (limit + 1) root s = .ok ((), s.givenBack root) := by
  refine (Machine.bind_of_ok (forM_skip _ fun i hi => ?_)).trans (kfree_run usable)
  rw [Machine.bind_of_ok (load_run _ s)]
  rw [if_neg]
  · rfl
  · rintro ⟨valid, tag⟩
    rcases h.slots i (List.mem_range.mp hi) with zero | ⟨page, link⟩
    · rw [zero] at valid
      exact valid (Nat.zero_and _)
    · rw [link] at tag
      exact PTE_FLAGS_pde_ne page tag

/-- The entries of a table page are empty. -/
def NoLinks (s : Ram) (page : Nat) : Prop :=
  ∀ i < 512, s.mem.fetch (page + 8 * i) 8 &&& PTE_V = 0

theorem Planted.alone_iff (h : Planted s root node pages) (nodup : pages.Nodup) :
    pages = [root] ↔ NoLinks s root := by
  constructor
  · intro alone i hi
    have entry := h.tree.entry (by omega) h.tree.root i hi
    cases hb : node 2 (0 * 512 + i) with
    | none => simpa only [hb] using entry
    | some b =>
      -- the root would be its own child
      have mem := (h.pages b).mp ⟨_, _, hb⟩
      rw [alone, List.mem_singleton] at mem
      have := (h.tree.apart hb (mem ▸ h.tree.root)).1
      omega
  · intro empty
    have two : ∀ q, node 2 q = none := by
      intro q
      cases hb : node 2 q with
      | none => rfl
      | some b =>
        obtain ⟨a, ha⟩ := h.tree.parent (by omega) hb
        obtain ⟨-, low⟩ := (h.top ha).resolve_left (by omega)
        rw [low, h.tree.root] at ha
        cases ha
        have entry := h.tree.entry (by omega) h.tree.root q (by omega)
        rw [Nat.zero_mul, Nat.zero_add, hb] at entry
        exact absurd (empty q (by omega)) entry.1
    have below : ∀ l q, (∀ q, node (l + 1) q = none) → l < 3 → node l q = none := by
      intro l q none hl
      cases hb : node l q with
      | none => rfl
      | some b =>
        obtain ⟨a, ha⟩ := h.tree.parent hl hb
        rw [none] at ha
        cases ha
    have one : ∀ q, node 1 q = none := fun q => below 1 q two (by omega)
    have only : ∀ page ∈ pages, page = root := by
      intro page mem
      obtain ⟨l, q, hp⟩ := (h.pages page).mpr mem
      rcases h.top hp with lower | ⟨rfl, rfl⟩
      · have : l = 0 ∨ l = 1 ∨ l = 2 := by omega
        rcases this with rfl | rfl | rfl
        · rw [below 0 q one (by omega)] at hp
          cases hp
        · rw [one] at hp
          cases hp
        · rw [two] at hp
          cases hp
      · rw [h.tree.root] at hp
        cases hp
        rfl
    have mem := (h.pages root).mp ⟨_, _, h.tree.root⟩
    exact List.perm_singleton.mp <| (List.perm_ext_iff_of_nodup nodup (by simp)).mpr
      fun page => ⟨fun mem => List.mem_singleton.mpr (only page mem),
        fun eq => List.mem_singleton.mp eq ▸ mem⟩

/-- Enough rounds of `freewalk` give back every page of the table, each once. -/
def TornDown (root : Nat) (x : Grove) : Prop :=
  ∃ enough, ∀ limit, enough ≤ limit → ∃ t gone, freewalk limit root x.ram = .ok ((), t) ∧
    t.freed = gone ++ x.ram.freed ∧ gone.Perm x.pages

/-- A table is torn down exactly where it never grew beyond its root: of any other, all
pages but the root are lost. -/
theorem freewalk_returns_iff {x : Grove} (lived : Lived root x) (usable : Usable x.ram root) :
    TornDown root x ↔ NoLinks x.ram root := by
  obtain ⟨⟨node, planted⟩, nodup⟩ := lived.planted
  rw [← planted.alone_iff nodup]
  constructor
  · rintro ⟨enough, torn⟩
    obtain ⟨t, gone, run, log, all⟩ := torn (enough + 1) (Nat.le_succ enough)
    rw [planted.freewalk_run usable] at run
    cases run
    have gone : gone = [root] :=
      (List.append_left_inj x.ram.freed).mp (log.symm.trans rfl)
    rw [gone] at all
    exact List.perm_singleton.mp all.symm
  · intro alone
    refine ⟨1, fun limit more => ?_⟩
    obtain ⟨limit, rfl⟩ := Nat.exists_eq_add_of_le' more
    refine ⟨_, [root], planted.freewalk_run usable limit, rfl, ?_⟩
    rw [alone]

/-! ### A table without a mapping, and one that has had one -/

theorem fourPages_lived : Lived RAMBASE ⟨after uvmcreate fourPages, [RAMBASE]⟩ :=
  .uvmcreate (s := fourPages) rfl (by decide) (frame_RAMBASE_add (k := 0) (by decide) (by decide))

theorem usable_RAMBASE (low : s.kernel_end = RAMBASE) : Usable s RAMBASE :=
  ⟨frame_RAMBASE_add (k := 0) (by decide) (by decide), Nat.le_of_eq low, by decide⟩

theorem freewalk_returns_empty : TornDown RAMBASE ⟨after uvmcreate fourPages, [RAMBASE]⟩ := by
  refine (freewalk_returns_iff fourPages_lived (usable_RAMBASE rfl)).mpr fun i hi => ?_
  have zero : (after uvmcreate fourPages).mem.fetch (RAMBASE + 8 * i) 8 = 0 :=
    Memory.fetch_fill_zero _ (Nat.le_add_right RAMBASE _)
      (show RAMBASE + 8 * i + 8 ≤ RAMBASE + PGSIZE by rw [PGSIZE]; omega)
  rw [zero, Nat.zero_and]

/-- Page 0 was mapped, and is not any more. -/
def unmapped : Ram := after (vmunmap RAMBASE 0 1 false) oneMapping

theorem unmapped_lived : Lived RAMBASE ⟨unmapped, oneMappingPages⟩ := by
  have frames : ∀ page ∈ [RAMBASE + 3 * PGSIZE, RAMBASE + 2 * PGSIZE, RAMBASE + 1 * PGSIZE],
      Frame page := by
    intro page hp
    simp only [List.mem_cons, List.not_mem_nil, or_false] at hp
    rcases hp with rfl | rfl | rfl <;>
      exact frame_RAMBASE_add (by decide) (Nat.dvd_mul_left _ _)
  have user : 0 &&& DMWIN_MASK = 0 := by decide
  have maps : mappages RAMBASE 0 PGSIZE RAMSTOP PTE_PLV3 (after uvmcreate fourPages) =
      .ok (0, oneMapping) := rfl
  have unmaps : vmunmap RAMBASE 0 1 false oneMapping = .ok ((), unmapped) := rfl
  have mapped : Lived RAMBASE ⟨oneMapping, oneMappingPages⟩ :=
    .mappages fourPages_lived user maps rfl frames (by decide)
  have nothing : unmapped.freed = [] ++ oneMapping.freed := rfl
  exact .vmunmap mapped user unmaps nothing nofun

theorem unmapped_empty {va : Nat} (low : va < MAXVA) : translation RAMBASE va unmapped = none := by
  have does : Does RAMBASE (.vmunmap 0 1 false) ⟨oneMapping, oneMappingPages,
      PageMap.mapRange (fun _ => none) 0 1 RAMSTOP PTE_PLV3⟩ ⟨unmapped, oneMappingPages, _⟩ :=
    .vmunmap (by decide) nofun rfl
  obtain ⟨node, refined⟩ := (oneMapping_built.step does).refines
  have gone : ∀ v, (PageMap.mapRange (fun _ => none) 0 1 RAMSTOP PTE_PLV3).unmapRange 0 1 v = none := by
    intro v
    rw [PageMap.unmapRange]
    split
    · rfl
    · next away => rw [PageMap.mapRange, if_neg (by omega)]
  rw [refined.translation low]
  exact congrArg _ (gone (va / PGSIZE))

/-- One page mapped and unmapped again, and three table pages are lost. -/
theorem freewalk_loses_tables : ¬∀ (root : Nat) (x : Grove), Lived root x → Usable x.ram root →
    (∀ va < MAXVA, translation root va x.ram = none) → TornDown root x := by
  intro returns
  obtain ⟨⟨node, planted⟩, nodup⟩ := unmapped_lived.planted
  have usable : Usable unmapped RAMBASE := usable_RAMBASE rfl
  obtain ⟨enough, torn⟩ := returns RAMBASE ⟨unmapped, oneMappingPages⟩ unmapped_lived usable
    fun va low => unmapped_empty low
  obtain ⟨t, gone, run, log, all⟩ := torn (enough + 1) (Nat.le_succ enough)
  rw [planted.freewalk_run usable] at run
  cases run
  have gone : gone = [RAMBASE] :=
    (List.append_left_inj unmapped.freed).mp (log.symm.trans rfl)
  rw [gone] at all
  exact absurd all.length_eq (by decide)

end AvxKernel.Vm
