import AvxKernel.Exec.Inherit

/-! What `fork` copies, as translations of the two tables: each page of the heap and of
the areas is in a frame of the child's own, with the bytes and the flags that the parent
has there. When memory runs out, the pages of the range that was being copied are free. -/
namespace AvxKernel.Exec

open Vm

variable {s t : Ram} {p : Proc} {root limit : Nat} {nodep node node' : Nodes} {mp m m' : PageMap}
  {free free' nodes frames list : List Nat} {ranges : List (Nat × Nat)} {done : Nat → Prop}

/-- The ranges to be copied: the heap, and every area. -/
def inheritance (s : Ram) (p : Proc) (nodes : List Nat) : List (Nat × Nat) :=
  (0, p.sz) :: nodes.map (extent s.mem)

/-- Before: the pages of the ranges are mapped in the parent, and not in the child. -/
structure Forking (s : Ram) (p : Proc) (root : Nat) (nodep node : Nodes) (mp m : PageMap)
    (free nodes : List Nat) : Prop where
  parent : Source s p.pagetable nodep mp fun page => page ∈ free ∨ node.Has page
  listed : Listed s.mem p.vma nodes
  pool : Pool s root node free (p.vma :: nodes)
  maps : Maps s node m
  fresh : ∀ {x pa perm}, m x = some (pa, perm) → pa ∉ free
  present : ∀ x, Covered (inheritance s p nodes) x → x * PGSIZE < MAXVA ∧ mp x ≠ none ∧ m x = none

/-- The table of the parent, its pages and the nodes of its areas are as they were. -/
structure ParentKept (s t : Ram) (p : Proc) (nodep : Nodes) (nodes : List Nat) : Prop where
  table : ∀ page, nodep.Has page → ∀ i < PGSIZE, t.mem (page + i) = s.mem (page + i)
  translation : ∀ va < MAXVA, translation p.pagetable va t = translation p.pagetable va s
  pages : ∀ va < MAXVA, ∀ pa flags, Vm.translation p.pagetable va s = some (pa, flags) →
    ∀ j < PGSIZE, t.mem (pa + j) = s.mem (pa + j)
  areas : ∀ a ∈ p.vma :: nodes, ∀ i < PGSIZE, t.mem (a + i) = s.mem (a + i)

/-- The same bytes under the same flags, in a frame that the parent does not map and the
child maps only here. -/
def Inherits (s t : Ram) (old new va : Nat) : Prop :=
  ∃ pa flags pa', translation old va s = some (pa, flags) ∧ translation new va t = some (pa', flags) ∧
    (∀ j < PGSIZE, t.mem (pa' + j) = s.mem (pa + j)) ∧
    (∀ b < MAXVA, ∀ q flags, translation old b s = some (q, flags) → q ≠ pa') ∧
    ∀ b < MAXVA, ∀ q flags, b / PGSIZE ≠ va / PGSIZE → translation new b t = some (q, flags) → q ≠ pa'

/-- Some ranges are copied, and nothing else: a page that was free is free, or a page of the
child's table, a node of its list or the frame of a page that is copied. -/
structure Inherited (s t : Ram) (p : Proc) (root : Nat) (nodep : Nodes) (free nodes list : List Nat)
    (ranges : List (Nat × Nat)) : Prop where
  parent : ParentKept s t p nodep nodes
  copies : ∀ va, Covered ranges (va / PGSIZE) → Inherits s t p.pagetable root va
  others : ∀ va < MAXVA, ¬Covered ranges (va / PGSIZE) → translation root va t = translation root va s
  pages : ∃ node' free', Tree t.mem root node' ∧ FreeList t.mem t.freelist free' ∧ ∀ page ∈ free,
    page ∈ free' ∨ node'.Has page ∨ page ∈ list ∨
    ∃ va flags, Covered ranges (va / PGSIZE) ∧ translation root va t = some (page, flags)

theorem flags_again (q : Nat) : (q ||| PTE_V ||| PTE_MAT ||| PTE_D) ||| PTE_V ||| PTE_MAT ||| PTE_D =
    q ||| PTE_V ||| PTE_MAT ||| PTE_D := by
  apply Nat.eq_of_testBit_eq
  intro i
  simp only [Nat.testBit_or]
  grind

theorem low_of_page {va : Nat} (low : va / PGSIZE * PGSIZE < MAXVA) : va < MAXVA := by
  have whole : MAXVA = MAXVA / PGSIZE * PGSIZE := by decide
  rw [whole] at low ⊢
  have page := Nat.lt_of_mul_lt_mul_right low
  exact (Nat.div_lt_iff_lt_mul (by decide)).mp page

section Inherited

variable (forking : Forking s p root nodep node mp m free nodes)
include forking

theorem Forking.parent_translation {va : Nat} (low : va < MAXVA) : translation p.pagetable va s =
    (mp (va / PGSIZE)).map fun (pa, perm) => (pa, perm ||| PTE_V ||| PTE_MAT ||| PTE_D) :=
  forking.parent.tree.translation forking.parent.maps.entries forking.parent.maps.frames low

theorem Forking.frame_fresh {va pa flags : Nat} (low : va < MAXVA)
    (here : translation p.pagetable va s = some (pa, flags)) : Frame pa ∧ ¬(pa ∈ free ∨ node.Has pa) := by
  rw [forking.parent_translation low] at here
  obtain ⟨⟨pa', q⟩, some, same⟩ := Option.map_eq_some_iff.mp here
  cases same
  exact ⟨(forking.parent.maps.frames some).1, forking.parent.apart some⟩

variable (copied : Copied s t root node node' free free' (p.vma :: nodes) frames list mp m m' done)
include copied

theorem Forking.kept : ParentKept s t p nodep nodes where
  table page has := copied.within.kept page (by
    obtain ⟨l, q, h⟩ := has
    exact forking.parent.tree.frame h) (forking.parent.table page has)
  translation va low := by
    have after := forking.parent.within copied.within
    rw [forking.parent_translation low, after.tree.translation after.maps.entries after.maps.frames low]
  pages va low pa flags here := by
    obtain ⟨frame, away⟩ := forking.frame_fresh low here
    exact copied.within.kept pa frame away
  areas a ha := parent_same forking.pool copied ha

omit forking in
theorem child_translation {va : Nat} (low : va < MAXVA) : translation root va t =
    (m' (va / PGSIZE)).map fun (pa, perm) => (pa, perm ||| PTE_V ||| PTE_MAT ||| PTE_D) :=
  copied.pool.tree.translation copied.maps.entries copied.maps.frames low

theorem Forking.inherited (all : ∀ x, done x ↔ Covered ranges x)
    (part : ∀ x, Covered ranges x → x * PGSIZE < MAXVA) :
    Inherited s t p root nodep free nodes list ranges where
  parent := forking.kept copied
  copies va cov := by
    have low := low_of_page (part _ cov)
    obtain ⟨pa, q, pa', old, new, mem, bytes⟩ := copied.copy _ ((all _).mpr cov)
    have mine : pa' ∈ free := copied.source pa' (List.mem_append_left _ mem)
    refine ⟨pa, q ||| PTE_V ||| PTE_MAT ||| PTE_D, pa', ?_, ?_, bytes, ?_, ?_⟩
    · rw [forking.parent_translation low, old]
      rfl
    · rw [child_translation copied low, new]
      exact congrArg (fun flags => some (pa', flags)) (flags_again q)
    · rintro b lowb _ flags here rfl
      exact (forking.frame_fresh lowb here).2 (.inl mine)
    · rintro b lowb _ flags other here rfl
      rw [child_translation copied lowb] at here
      obtain ⟨⟨pa2, q2⟩, some, same⟩ := Option.map_eq_some_iff.mp here
      cases same
      by_cases also : done (b / PGSIZE)
      · refine other (copied.once _ _ also ((all _).mpr cov) ?_)
        rw [some, new]
        rfl
      · rw [copied.other _ also] at some
        exact forking.fresh some mine
  others va low away := by
    rw [child_translation copied low, copied.other _ fun h => away ((all _).mp h)]
    exact (forking.pool.tree.translation forking.maps.entries forking.maps.frames low).symm
  pages := by
    refine ⟨node', free', copied.pool.tree, copied.pool.links, fun page mem => ?_⟩
    rcases copied.spent page mem with still | data | has
    · exact .inl still
    · rcases List.mem_append.mp data with frame | node
      · obtain ⟨x, here, first⟩ := copied.used page frame
        obtain ⟨⟨pa, q⟩, some, same⟩ := Option.map_eq_some_iff.mp first
        cases same
        have cov := (all x).mp here
        have index : x * PGSIZE / PGSIZE = x := page_index x
        refine .inr (.inr (.inr ⟨x * PGSIZE, q ||| PTE_V ||| PTE_MAT ||| PTE_D, by rwa [index], ?_⟩))
        rw [child_translation copied (part x cov), index, some]
        rfl
      · exact .inr (.inr (.inl node))
    · exact .inr (.inl has)

end Inherited

/-! ### `copyMemory` -/

theorem covered_heap {x sz : Nat} : Covered [(0, sz)] x ↔ x * PGSIZE < sz := by
  simp [Covered]

theorem covered_heap_or {x sz : Nat} :
    Covered [(0, sz)] x ∨ Covered ranges x ↔ Covered ((0, sz) :: ranges) x := by
  rw [covered_heap, covered_cons]
  simp

/-- How the copying ends. A range whose pages run out of memory is in the child as it was
before, apart from what it has in common with the heap. -/
inductive Copies (s : Ram) (p : Proc) (root : Nat) (nodep : Nodes) (free nodes : List Nat) :
    Except Halt ((Int × Nat) × Ram) → Prop where
  /-- `uvmcopy` fails. -/
  | heap {t : Ram} (inherited : Inherited s t p root nodep free nodes [] [])
      (gone : ∀ va, Covered (inheritance s p nodes) (va / PGSIZE) → translation root va t = none) :
      Copies s p root nodep free nodes (.ok ((-1, 0), t))
  /-- `vma_copy` fails, and no area is looked at. -/
  | list {t : Ram} {list : List Nat} (inherited : Inherited s t p root nodep free nodes list [(0, p.sz)]) :
      Copies s p root nodep free nodes (.ok ((0, 0), t))
  /-- `vma_map` fails for an area. -/
  | area {t : Ram} {head : Nat} {list : List Nat} {before later : List (Nat × Nat)} {e : Nat × Nat}
      (parts : nodes.map (extent s.mem) = before ++ e :: later) (some : head ≠ 0)
      (listed : Listed t.mem head list) (same : list.map (extent t.mem) = nodes.map (extent s.mem))
      (inherited : Inherited s t p root nodep free nodes (head :: list) ((0, p.sz) :: before))
      (gone : ∀ va, Covered (e :: later) (va / PGSIZE) → ¬Covered [(0, p.sz)] (va / PGSIZE) →
        translation root va t = none) :
      Copies s p root nodep free nodes (.ok ((-1, head), t))
  | all {t : Ram} {head : Nat} {list : List Nat} (some : head ≠ 0)
      (listed : Listed t.mem head list) (same : list.map (extent t.mem) = nodes.map (extent s.mem))
      (inherited : Inherited s t p root nodep free nodes (head :: list) (inheritance s p nodes)) :
      Copies s p root nodep free nodes (.ok ((0, head), t))
  /-- An area has a page in common with the heap: `mappages` finds it mapped. -/
  | overlap {x : Nat} {e : Halt} (heap : Covered [(0, p.sz)] x)
      (area : Covered (nodes.map (extent s.mem)) x) : Copies s p root nodep free nodes (.error e)

theorem extents_kept {head : Nat} (kept : ∀ a ∈ head :: list, ∀ i < PGSIZE, t.mem (a + i) = s.mem (a + i)) :
    list.map (extent t.mem) = list.map (extent s.mem) := by
  refine List.map_congr_left fun a ha => ?_
  have bytes := kept a (List.mem_cons_of_mem _ ha)
  exact extent_eq.mpr ⟨fetch_kept bytes (by decide), fetch_kept bytes (by decide)⟩

section Copies

variable (forking : Forking s p root nodep node mp m free nodes)
include forking

theorem Forking.absent {va : Nat} (cov : Covered (inheritance s p nodes) (va / PGSIZE)) :
    va < MAXVA ∧ translation root va s = none := by
  obtain ⟨low, -, none⟩ := forking.present _ cov
  refine ⟨low_of_page low, ?_⟩
  rw [forking.pool.tree.translation forking.maps.entries forking.maps.frames (low_of_page low), none]
  rfl

/-- Areas are apart from each other. -/
theorem Forking.areas_apart {before later : List (Nat × Nat)} {e : Nat × Nat} {x : Nat}
    (parts : nodes.map (extent s.mem) = before ++ e :: later) (cov : Covered (e :: later) x) :
    ¬Covered before x := by
  rintro ⟨f, hf, lef, ltf⟩
  obtain ⟨g, hg, leg, ltg⟩ := cov
  have sorted : (nodes.map (extent s.mem)).Pairwise fun f g => f.2 ≤ g.1 :=
    List.pairwise_map.mpr forking.listed.sorted
  rw [parts] at sorted
  have apart := (List.pairwise_append.mp sorted).2.2 f hf g hg
  omega

theorem copyMemory_copies (more : 2 ^ 20 < limit) :
    Copies s p root nodep free nodes (copyMemory limit p root s) := by
  have heap (x : Nat) (lt : x * PGSIZE < p.sz) : x * PGSIZE < MAXVA ∧ mp x ≠ none := by
    obtain ⟨low, some, -⟩ := forking.present x ⟨_, List.mem_cons_self, Nat.zero_le _, lt⟩
    exact ⟨low, some⟩
  have part (ranges : List (Nat × Nat)) (sub : ranges ⊆ inheritance s p nodes) (x : Nat)
      (cov : Covered ranges x) : x * PGSIZE < MAXVA := by
    obtain ⟨e, mem, inside⟩ := cov
    exact (forking.present x ⟨e, sub mem, inside⟩).1
  have few : nodes.length < limit := by
    have count := length_of_usable (List.nodup_append.mp forking.pool.nodup).2.1 fun page mem =>
      forking.pool.usable page (List.mem_append_right _ mem)
    rw [List.length_cons] at count
    omega
  have start : Copied s s root node node free free (p.vma :: nodes) [] [] mp m m fun _ => False :=
    .start forking.pool forking.maps
  rcases uvmcopy_outcome forking.pool forking.maps forking.parent heap with
    ⟨u, node', free', run, filled⟩ | ⟨-, u, node', free', frames, run, count, filled⟩ | ⟨some, e, -⟩
  · have copied : Copied s u root node node' free free' (p.vma :: nodes) [] [] mp m m fun _ => False := by
      have same := start.filled forking.parent (fun x le lt => absurd lt (by simp)) filled
      rw [PageMap.fill_nil] at same
      exact same.congr fun x => by simp
    have inherited : Inherited s u p root nodep free nodes [] [] :=
      forking.inherited copied (fun x => by simp [Covered]) (part [] nofun)
    rw [copyMemory, Machine.bind_of_ok run, if_pos (by decide), Machine.pure_run]
    refine .heap inherited fun va cov => ?_
    obtain ⟨low, none⟩ := forking.absent cov
    rw [inherited.others va low (by simp [Covered]), none]
  · have pages (x : Nat) (lt : x < 0 + frames.length) : x * PGSIZE < p.sz := by
      rw [Nat.zero_add, count] at lt
      exact lt_heapPages.mp lt
    have done (x : Nat) : Covered [(0, p.sz)] x ↔ False ∨ 0 ≤ x ∧ x < 0 + frames.length := by
      rw [covered_heap, ← lt_heapPages, ← count]
      simp
    have copied := (start.filled forking.parent (fun x _ lt => (heap x (pages x lt)).2) filled).congr done
    rw [copyMemory, Machine.bind_of_ok run, if_neg (by decide)]
    rcases vma_copy_outcome forking.pool forking.listed copied few with
      ⟨u', free'', list, run', copied'⟩ | ⟨u', head, free'', l, run', some, copied', listed', same⟩
    · rw [Machine.bind_of_ok run', if_pos rfl, Machine.pure_run]
      exact .list (forking.inherited copied' (fun x => Iff.rfl) (part _ (by simp [inheritance])))
    · have frame : Frame head := (copied'.pool.usable head (by simp)).frame
      have first := Links.segment_next_head listed'.ring.segment
      have long : l.length < limit := by
        have lengths := congrArg List.length same
        rw [List.length_map, List.length_map] at lengths
        omega
      have areas (x : Nat) (cov : Covered (nodes.map (extent s.mem)) x) :
          x * PGSIZE < MAXVA ∧ mp x ≠ none := by
        obtain ⟨low, mapped, -⟩ := forking.present x (covered_cons.mpr (.inr cov))
        exact ⟨low, mapped⟩
      rw [Machine.bind_of_ok run', if_neg some, Machine.bind_of_ok (vma_next_run frame)]
      rcases mapRounds forking.parent copied' listed' (List.nil_append l).symm first long same areas with
        ⟨t, n2, f2, fr2, m2, run2, kept, final⟩ |
        ⟨t, n2, f2, fr2, m2, before, e, later, parts, run2, kept, final⟩ | ⟨⟨x, cov, mapped⟩, e, run2⟩
      · rw [Machine.bind_of_ok run2, Machine.pure_run]
        exact .all some (listed'.congr kept) ((extents_kept kept).trans same)
          (forking.inherited final (fun x => covered_heap_or) (part _ fun _ h => h))
      · have sub : (0, p.sz) :: before ⊆ inheritance s p nodes := by
          rw [inheritance, parts]
          exact List.cons_subset_cons _ (List.subset_append_left _ _)
        have inherited := forking.inherited final (fun x => covered_heap_or) (part _ sub)
        rw [Machine.bind_of_ok run2, Machine.pure_run]
        refine .area parts some (listed'.congr kept) ((extents_kept kept).trans same) inherited fun va cov away => ?_
        have mine : Covered (inheritance s p nodes) (va / PGSIZE) := by
          obtain ⟨f, hf, inside⟩ := cov
          exact ⟨f, by rw [inheritance, parts]; simp at hf; simp [hf], inside⟩
        obtain ⟨low, none⟩ := forking.absent mine
        rw [inherited.others va low, none]
        rw [← covered_heap_or]
        exact not_or.mpr ⟨away, forking.areas_apart parts cov⟩
      · rw [Machine.bind_of_error run2]
        refine .overlap (by_contra fun away => mapped ?_) cov
        rw [copied'.other x away]
        exact (forking.present x (covered_cons.mpr (.inr cov))).2.2
  · have bad := clearPages_bad (v := 0) (by decide) some
    rw [Nat.zero_add] at bad
    have inside := lt_heapPages.mp some
    obtain ⟨low, -, none⟩ := forking.present _ ⟨_, List.mem_cons_self, Nat.zero_le _, inside⟩
    rcases bad with ⟨-, mapped⟩ | ⟨high, -⟩
    · exact absurd none mapped
    · exact absurd low (Nat.not_lt.mpr high)

end Copies

/-- A table with one page mapped, and an empty one. -/
def twoTables : Ram := oneMapping.setMem (oneMapping.mem.fill (RAMBASE + 4 * PGSIZE) PGSIZE 0)

/-- The same, with a list without areas and five pages that are free. -/
def forkingRam : Ram :=
  let page (k : Nat) := RAMBASE + k * PGSIZE
  { twoTables with
    mem := ((((emptyHead twoTables.mem (page 5)).store (page 6) 8 (page 7)).store (page 7) 8
      (page 8)).store (page 8) 8 (page 9)).store (page 9) 8 (page 10)
    freelist := page 6 }

def forkingProc : Proc where
  sz := 1
  pagetable := RAMBASE
  trapframe := 0
  vma := RAMBASE + 5 * PGSIZE
  filelimit := 0
  ofile := fun _ => 0
  exec_close := fun _ => 0
  name := []

def forkingFree : List Nat :=
  [RAMBASE + 6 * PGSIZE, RAMBASE + 7 * PGSIZE, RAMBASE + 8 * PGSIZE, RAMBASE + 9 * PGSIZE,
    RAMBASE + 10 * PGSIZE]

theorem forkingRam_links : FreeList forkingRam.mem forkingRam.freelist forkingFree := by
  have last : forkingRam.mem.fetch (RAMBASE + 10 * PGSIZE) 8 = 0 := by decide
  exact ⟨rfl, by decide, by decide, by decide, by decide, last⟩

theorem forkingRam_frame {k : Nat} (hk : k ≤ 10) : Frame (RAMBASE + k * PGSIZE) :=
  frame_RAMBASE_add (by rw [PGSIZE]; omega) (Nat.dvd_mul_left _ _)

/-- Only the list and the free pages differ from the tables. -/
theorem forkingRam_within : Within (· ∈ (RAMBASE + 5 * PGSIZE) :: forkingFree) twoTables forkingRam := by
  have head : Within (· ∈ (RAMBASE + 5 * PGSIZE) :: forkingFree) twoTables
      (twoTables.setMem (emptyHead twoTables.mem (RAMBASE + 5 * PGSIZE))) :=
    (Within.setMem (forkingRam_frame (by decide)) fun x out => emptyHead_outside out).mono fun page eq => by
      simp [eq]
  have link {s : Ram} (k : Nat) (hk : k ≤ 10)
      (mem : RAMBASE + k * PGSIZE ∈ (RAMBASE + 5 * PGSIZE) :: forkingFree) :
      Within (· ∈ (RAMBASE + 5 * PGSIZE) :: forkingFree) s
        (s.setMem (s.mem.store (RAMBASE + k * PGSIZE + 0) 8 (RAMBASE + (k + 1) * PGSIZE))) :=
    (Within.store (forkingRam_frame hk) (by decide)).mono fun page eq => by rw [eq]; exact mem
  have all := (((head.trans (link 6 (by decide) (by decide))).trans (link 7 (by decide) (by decide))).trans
    (link 8 (by decide) (by decide))).trans (link 9 (by decide) (by decide))
  exact ⟨all.kept, rfl⟩

/-- The list of areas and the free pages, apart from the two tables. -/
theorem forkingRam_others : ∀ page ∈ forkingFree ++ [RAMBASE + 5 * PGSIZE],
    page ≠ RAMBASE + 4 * PGSIZE ∧ page ∉ oneMappingPages ∧ Usable forkingRam page := by
  have usable (k : Nat) (hk : k ≤ 10) : Usable forkingRam (RAMBASE + k * PGSIZE) :=
    ⟨forkingRam_frame hk, Nat.le_add_right _ _, by
      have : RAMSTOP = RAMBASE + 0x8000000 := by decide
      rw [this, PGSIZE]
      omega⟩
  intro page mem
  simp only [forkingFree, List.cons_append, List.nil_append, List.mem_cons, List.not_mem_nil, or_false] at mem
  rcases mem with rfl | rfl | rfl | rfl | rfl | rfl
  · exact ⟨by decide, by decide, usable 6 (by decide)⟩
  · exact ⟨by decide, by decide, usable 7 (by decide)⟩
  · exact ⟨by decide, by decide, usable 8 (by decide)⟩
  · exact ⟨by decide, by decide, usable 9 (by decide)⟩
  · exact ⟨by decide, by decide, usable 10 (by decide)⟩
  · exact ⟨by decide, by decide, usable 5 (by decide)⟩

theorem forkingRam_parent : ∃ nodep, Source forkingRam RAMBASE nodep
    (PageMap.mapRange (fun _ => none) 0 1 RAMSTOP PTE_PLV3)
    fun page => page ∈ forkingFree ++ [RAMBASE + 5 * PGSIZE] ∨ page = RAMBASE + 4 * PGSIZE := by
  obtain ⟨nodep, refines⟩ := oneMapping_built.refines
  have source : Source oneMapping RAMBASE nodep (PageMap.mapRange (fun _ => none) 0 1 RAMSTOP PTE_PLV3)
      fun page => page ∈ forkingFree ++ [RAMBASE + 5 * PGSIZE] ∨ page = RAMBASE + 4 * PGSIZE := by
    refine ⟨refines.tree, ⟨refines.entries, refines.frames⟩, fun page has taken => ?_, fun here taken => ?_⟩
    · have mine := (refines.pages page).mp has
      rcases taken with other | rfl
      · exact (forkingRam_others page other).2.1 mine
      · revert mine
        decide
    · have low (page : Nat) (mem : page ∈ forkingFree ++ [RAMBASE + 5 * PGSIZE]) : page < RAMSTOP :=
        (forkingRam_others page mem).2.2.high
      rw [PageMap.mapRange] at here
      split at here
      · cases here
        rcases taken with other | eq
        · exact absurd (low _ other) (Nat.not_lt.mpr (Nat.le_add_right _ _))
        · have : RAMBASE + 4 * PGSIZE < RAMSTOP := by decide
          omega
      · cases here
  refine ⟨nodep, source.within ?_⟩
  have filled : Within (· = RAMBASE + 4 * PGSIZE) oneMapping twoTables :=
    .setMem (forkingRam_frame (by decide)) fun x out => Memory.fill_outside _ out
  refine (filled.mono fun page eq => .inr eq).trans (forkingRam_within.mono fun page mem => ?_)
  simp only [List.mem_cons, List.mem_append] at mem ⊢
  tauto

theorem forking : ∃ nodep, Forking forkingRam forkingProc (RAMBASE + 4 * PGSIZE) nodep
    (fun l p => if l = 3 ∧ p = 0 then some (RAMBASE + 4 * PGSIZE) else none)
    (PageMap.mapRange (fun _ => none) 0 1 RAMSTOP PTE_PLV3) (fun _ => none) forkingFree [] := by
  obtain ⟨nodep, parent⟩ := forkingRam_parent
  have child : Refines forkingRam (RAMBASE + 4 * PGSIZE)
      (fun l p => if l = 3 ∧ p = 0 then some (RAMBASE + 4 * PGSIZE) else none)
      [RAMBASE + 4 * PGSIZE] fun _ => none := by
    refine .empty (forkingRam_frame (by decide)) fun i hi => ?_
    have away : RAMBASE + 4 * PGSIZE ∉ (RAMBASE + 5 * PGSIZE) :: forkingFree := by decide
    rw [forkingRam_within.kept _ (forkingRam_frame (by decide)) away i hi]
    exact Memory.fill_inside _ (by omega) (by omega)
  have has (page : Nat) (h : Nodes.Has (fun l p => if l = 3 ∧ p = 0 then some (RAMBASE + 4 * PGSIZE) else none)
      page) : page = RAMBASE + 4 * PGSIZE := List.mem_singleton.mp ((child.pages page).mp h)
  have free {page : Nat} (h : page ∈ forkingFree) : page ∈ forkingFree ++ [RAMBASE + 5 * PGSIZE] :=
    List.mem_append_left _ h
  refine ⟨nodep, parent.mono fun page taken => taken.imp free (has page), ?_, ?_,
    ⟨child.entries, nofun⟩, nofun, ?_⟩
  · exact ⟨⟨⟨by decide, by decide⟩, by simp⟩, nofun, .nil⟩
  · exact ⟨child.tree, forkingRam_links, fun page mem => (forkingRam_others page mem).2.2, by decide,
      fun page mem h => (forkingRam_others page mem).1 (has page h)⟩
  · rintro x ⟨e, mem, -, lt⟩
    obtain rfl := List.mem_singleton.mp mem
    obtain rfl : x = 0 := by
      have below : x * PGSIZE < 1 := lt
      rw [PGSIZE] at below
      omega
    exact ⟨by decide, by simp [PageMap.mapRange], rfl⟩

/-- The page is copied into a frame of the child. -/
theorem copyMemory_copies_page : ∃ nodep, Copies forkingRam forkingProc (RAMBASE + 4 * PGSIZE) nodep
    forkingFree [] (copyMemory (2 ^ 20 + 1) forkingProc (RAMBASE + 4 * PGSIZE) forkingRam) := by
  obtain ⟨nodep, forking⟩ := forking
  exact ⟨nodep, copyMemory_copies forking (by decide)⟩

end AvxKernel.Exec
