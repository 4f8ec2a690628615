import AvxKernel.Vm.Refinement

/-! Who owns which page: the free list, the pages of one table, and the pages
that its owner keeps data in. `kalloc`, `kfree` and `walk` move pages between
the three, and no byte of any other page changes. -/
namespace AvxKernel.Vm

/-- A page that `kfree` takes. -/
structure Usable (s : Ram) (page : Nat) : Prop where
  frame : Frame page
  low : s.kernel_end ≤ page
  high : page < RAMSTOP

/-- The free list, from its first page on. -/
def FreeList (mem : Memory) : Nat → List Nat → Prop
  | r, [] => r = 0
  | r, page :: rest => r = page ∧ FreeList mem (mem.fetch page 8) rest

/-- Of all pages, only some have changed. -/
structure Within (P : Nat → Prop) (s t : Ram) : Prop where
  kept : ∀ page, Frame page → ¬P page → ∀ i < PGSIZE, t.mem (page + i) = s.mem (page + i)
  kernel_end : t.kernel_end = s.kernel_end

structure Pool (s : Ram) (root : Nat) (node : Nodes) (free data : List Nat) : Prop where
  tree : Tree s.mem root node
  links : FreeList s.mem s.freelist free
  usable : ∀ page ∈ free ++ data, Usable s page
  nodup : (free ++ data).Nodup
  apart : ∀ page ∈ free ++ data, ¬node.Has page

variable {root page va : Nat} {node : Nodes} {free data : List Nat} {s t u : Ram}
  {P Q : Nat → Prop}

theorem FreeList.congr {mem mem' : Memory} {r : Nat} (h : FreeList mem r free)
    (same : ∀ page ∈ free, ∀ i < PGSIZE, mem' (page + i) = mem (page + i)) :
    FreeList mem' r free := by
  induction free generalizing r with
  | nil => exact h
  | cons page rest ih =>
    obtain ⟨rfl, links⟩ := h
    have link : mem'.fetch r 8 = mem.fetch r 8 :=
      Memory.fetch_congr fun i hi => same r (by simp) i (by rw [PGSIZE]; omega)
    refine ⟨rfl, ?_⟩
    rw [link]
    exact ih links fun page mem => same page (List.mem_cons_of_mem _ mem)

theorem Within.refl (s : Ram) : Within P s s := ⟨fun _ _ _ _ _ => rfl, rfl⟩

theorem Within.trans (first : Within P s t) (rest : Within P t u) : Within P s u where
  kept page frame away i hi := (rest.kept page frame away i hi).trans (first.kept page frame away i hi)
  kernel_end := rest.kernel_end.trans first.kernel_end

theorem Within.mono (h : Within P s t) (le : ∀ page, P page → Q page) : Within Q s t where
  kept page frame away := h.kept page frame fun hp => away (le page hp)
  kernel_end := h.kernel_end

theorem Usable.within (h : Usable s page) (within : Within P s t) : Usable t page :=
  ⟨h.frame, within.kernel_end ▸ h.low, h.high⟩

/-- A change of bytes inside one page. -/
theorem Within.setMem {mem : Memory} (frame : Frame page)
    (same : ∀ x, x < page ∨ page + PGSIZE ≤ x → mem x = s.mem x) :
    Within (· = page) s (s.setMem mem) where
  kept other hother ne i hi :=
    same _ (hother.disjoint frame ne ⟨Nat.le_add_right _ _, by omega⟩)
  kernel_end := rfl

theorem Within.store {i w v : Nat} (frame : Frame page) (hi : i + w ≤ PGSIZE) :
    Within (· = page) s (s.setMem (s.mem.store (page + i) w v)) :=
  .setMem frame fun _ out => Memory.store_outside _ (by omega)

namespace Pool

variable (pool : Pool s root node free data)
include pool

theorem free_disjoint_data {x : Nat} (mem : x ∈ free) : x ∉ data := fun again =>
  (List.nodup_append.mp pool.nodup).2.2 x mem x again rfl

/-- The owner may write to its own pages. -/
theorem written (within : Within (· ∈ data) s t) (same : t.freelist = s.freelist) :
    Pool t root node free data where
  tree := pool.tree.congr fun h => within.kept _ (pool.tree.frame h) fun mem =>
    pool.apart _ (List.mem_append_right _ mem) ⟨_, _, h⟩
  links := by
    rw [same]
    refine pool.links.congr fun page mem => within.kept page ?_ (pool.free_disjoint_data mem)
    exact (pool.usable page (List.mem_append_left _ mem)).frame
  usable page mem := (pool.usable page mem).within within
  nodup := pool.nodup
  apart := pool.apart

theorem entryAt_written (within : Within (· ∈ data) s t) (x : Nat) :
    entryAt t.mem node x = entryAt s.mem node x :=
  entryAt_congr x fun h => within.kept _ (pool.tree.frame h) fun mem =>
    pool.apart _ (List.mem_append_right _ mem) ⟨_, _, h⟩

theorem perm {data' : List Nat} (same : data.Perm data') : Pool s root node free data' where
  tree := pool.tree
  links := pool.links
  usable page mem := pool.usable page ((List.Perm.append_left free same).mem_iff.mpr mem)
  nodup := (List.Perm.append_left free same).nodup_iff.mp pool.nodup
  apart page mem := pool.apart page ((List.Perm.append_left free same).mem_iff.mpr mem)

theorem sublist {data' : List Nat} (sub : data'.Sublist data) : Pool s root node free data' where
  tree := pool.tree
  links := pool.links
  usable page mem := pool.usable page ((List.Sublist.append_left sub free).subset mem)
  nodup := pool.nodup.sublist (List.Sublist.append_left sub free)
  apart page mem := pool.apart page ((List.Sublist.append_left sub free).subset mem)

end Pool

theorem kalloc_empty (pool : Pool s root node [] data) : kalloc s = .ok (0, s) := by
  have empty : s.freelist = 0 := pool.links
  rw [kalloc, Machine.bind_of_ok (Machine.get_run s), if_pos empty, Machine.pure_run]

/-- Memory once the first free page has been handed out. -/
def Ram.handedOut (s : Ram) : Ram :=
  { s with
    mem := s.mem.fill s.freelist PGSIZE 5
    freelist := s.mem.fetch s.freelist 8
    npage := u64 (s.npage + (2 ^ 64 - 1))
    allocated := s.freelist :: s.allocated }

theorem kalloc_run (some : s.freelist ≠ 0) : kalloc s = .ok (s.freelist, s.handedOut) := by
  rw [kalloc, Machine.bind_of_ok (Machine.get_run s), if_neg some,
    Machine.bind_of_ok (load_run _ s), Machine.bind_of_ok (Machine.modify_run _ s),
    Machine.bind_of_ok (memset_run _ _ _ _), Machine.pure_run]
  rfl

/-- Memory once a page has been given back. -/
def Ram.givenBack (s : Ram) (pa : Nat) : Ram :=
  { s with
    mem := (s.mem.fill pa PGSIZE (UInt8.ofNat 1)).store pa 8 s.freelist
    freelist := pa
    npage := u64 (s.npage + 1)
    freed := pa :: s.freed }

theorem kfree_run {pa : Nat} (usable : Usable s pa) : kfree pa s = .ok ((), s.givenBack pa) := by
  have aligned : pa % PGSIZE = 0 := Nat.mod_eq_zero_of_dvd usable.frame.dvd
  have low := usable.low
  have high := usable.high
  rw [kfree, Machine.bind_of_ok (Machine.get_run s), if_neg (by omega),
    Machine.bind_of_ok (memset_run _ _ _ _), Machine.bind_of_ok (store_run _ _ _)]
  rfl

theorem within_givenBack (usable : Usable s page) : Within (· = page) s (s.givenBack page) :=
  ⟨(Within.setMem (s := s) usable.frame fun x outside => by
    rw [Memory.store_outside _ (by rw [PGSIZE] at outside; omega),
      Memory.fill_outside _ outside]).kept, rfl⟩

theorem FreeList.lt {mem : Memory} {r : Nat} (links : FreeList mem r free)
    (frames : ∀ page ∈ free, Frame page) : r < 2 ^ 64 := by
  cases free with
  | nil =>
    rw [show r = 0 from links]
    decide
  | cons first rest =>
    rw [links.1]
    exact (frames first (by simp)).lt

theorem FreeList.givenBack (links : FreeList s.mem s.freelist free)
    (usable : ∀ other ∈ page :: free, Usable s other) (fresh : page ∉ free) :
    FreeList (s.givenBack page).mem page (page :: free) := by
  have small := links.lt fun other mem => (usable other (List.mem_cons_of_mem _ mem)).frame
  have link : (s.givenBack page).mem.fetch page 8 = s.freelist := Memory.fetch_store_same _ small
  refine ⟨rfl, ?_⟩
  rw [link]
  have within := within_givenBack (usable page List.mem_cons_self)
  exact links.congr fun other mem => within.kept other
    (usable other (List.mem_cons_of_mem _ mem)).frame fun same => fresh (same ▸ mem)

/-- The first free page becomes a page of the caller's. -/
theorem Pool.kalloc (pool : Pool s root node (page :: free) data) : ∃ t,
    Vm.kalloc s = .ok (page, t) ∧ Pool t root node free (page :: data) ∧
      Within (· = page) s t := by
  obtain ⟨rfl, links⟩ := pool.links
  have frame := (pool.usable s.freelist (by simp)).frame
  have filled : Within (· = s.freelist) s (s.setMem (s.mem.fill s.freelist PGSIZE 5)) :=
    Within.setMem frame fun x outside => Memory.fill_outside s.mem outside
  have within : Within (· = s.freelist) s s.handedOut := ⟨filled.kept, filled.kernel_end⟩
  have moved : (free ++ s.freelist :: data).Perm (s.freelist :: free ++ data) := List.perm_middle
  have fresh : s.freelist ∉ free := fun again =>
    (List.nodup_cons.mp pool.nodup).1 (List.mem_append_left _ again)
  refine ⟨s.handedOut, kalloc_run (Nat.ne_of_gt frame.pos), ?_, within⟩
  exact {
    tree := pool.tree.congr fun h => within.kept _ (pool.tree.frame h) fun same =>
      pool.apart s.freelist (by simp) (same ▸ ⟨_, _, h⟩)
    links := links.congr fun other mem => within.kept other
      (pool.usable other (by simp [mem])).frame fun same => fresh (same ▸ mem)
    usable := fun other mem => (pool.usable other (moved.mem_iff.mp mem)).within within
    nodup := moved.nodup_iff.mpr pool.nodup
    apart := fun other mem => pool.apart other (moved.mem_iff.mp mem) }

/-- A page goes back to the front of the list. -/
theorem Pool.kfree (pool : Pool s root node free (page :: data)) : ∃ t,
    Vm.kfree page s = .ok ((), t) ∧ Pool t root node (page :: free) data ∧
      Within (· = page) s t := by
  have usable := pool.usable page (by simp)
  have within := within_givenBack usable
  have moved : (free ++ page :: data).Perm (page :: free ++ data) := List.perm_middle
  have fresh : page ∉ free := fun again =>
    (List.nodup_cons.mp (moved.nodup_iff.mp pool.nodup)).1 (List.mem_append_left _ again)
  refine ⟨s.givenBack page, kfree_run usable, ?_, within⟩
  exact {
    tree := pool.tree.congr fun h => within.kept _ (pool.tree.frame h) fun same =>
      pool.apart page (by simp) (same ▸ ⟨_, _, h⟩)
    links := pool.links.givenBack (fun other mem => pool.usable other (moved.mem_iff.mpr
      (List.mem_append_left _ mem))) fresh
    usable := fun other mem => (pool.usable other (moved.mem_iff.mpr mem)).within within
    nodup := moved.nodup_iff.mp pool.nodup
    apart := fun other mem => pool.apart other (moved.mem_iff.mpr mem) }

/-! ### Walking with allocation -/

/-- The table may have taken some of the free pages; it translates as before. -/
structure Expands (s t : Ram) (root : Nat) (node node' : Nodes) (free free' data : List Nat) :
    Prop where
  pool : Pool t root node' free' data
  same : ∀ x, entryAt t.mem node' x = entryAt s.mem node x
  has : ∀ page, node'.Has page → node.Has page ∨ page ∈ free
  old : ∀ page, node.Has page → node'.Has page
  spent : ∀ page ∈ free, page ∈ free' ∨ node'.Has page
  left : ∀ page ∈ free', page ∈ free
  within : Within (fun page => page ∈ free ∨ node.Has page) s t

theorem Expands.refl (pool : Pool s root node free data) : Expands s s root node node free free data where
  pool := pool
  same _ := rfl
  has _ := .inl
  old _ := id
  spent _ := .inl
  left _ := id
  within := .refl s

theorem Expands.trans {node₁ node₂ : Nodes} {free₁ free₂ : List Nat}
    (first : Expands s t root node node₁ free free₁ data)
    (rest : Expands t u root node₁ node₂ free₁ free₂ data) :
    Expands s u root node node₂ free free₂ data where
  pool := rest.pool
  same x := (rest.same x).trans (first.same x)
  has page h := (rest.has page h).elim (first.has page) fun mem => .inr (first.left page mem)
  old page h := rest.old page (first.old page h)
  spent page mem := (first.spent page mem).elim (rest.spent page) fun h => .inr (rest.old page h)
  left page mem := first.left page (rest.left page mem)
  within := first.within.trans <| rest.within.mono fun page h =>
    h.elim (fun mem => .inl (first.left page mem)) fun h => (first.has page h).symm

/-- A zeroed page from the free list hung under an empty entry. -/
theorem Pool.graft (pool : Pool s root node (page :: free) data) {l a : Nat} (hl : l < 3)
    (h : node (l + 1) (above (l + 1) va) = some a) (gap : node l (above l va) = none) :
    ∃ u, Vm.kalloc s = .ok (page, u) ∧
      Expands s (u.setMem ((u.mem.fill page PGSIZE 0).store (a + 8 * PX (l + 1) va) 8 (pde page)))
        root node (node.graft l (above l va) page) (page :: free) free data := by
  obtain ⟨u, run, handed, within⟩ := pool.kalloc
  refine ⟨u, run, ?_⟩
  have frame := (pool.usable page (by simp)).frame
  have ha := pool.tree.frame h
  have hpx := PX_lt (l + 1) va
  have new : ¬node.Has page := pool.apart page (by simp)
  have fresh : ∀ l q, node l q ≠ some page := fun l q hq => new ⟨l, q, hq⟩
  have ne : page ≠ a := fun same => new (same ▸ ⟨_, _, h⟩)
  have gap' : node l (above (l + 1) va * 512 + PX (l + 1) va) = none := by rw [← above_succ, gap]
  have zero : ∀ j < 512, ((u.mem.fill page PGSIZE 0).store (a + 8 * PX (l + 1) va) 8
      (pde page)).fetch (page + 8 * j) 8 = 0 := by
    intro j hj
    rw [Memory.fetch_store_other _ (ha.entries_apart frame ne hpx hj),
      Memory.fetch_fill_zero _ (by omega) (by rw [PGSIZE]; omega)]
  have link : ((u.mem.fill page PGSIZE 0).store (a + 8 * PX (l + 1) va) 8
      (pde page)).fetch (a + 8 * PX (l + 1) va) 8 = pde page := Memory.fetch_store_same _ (pde_lt _)
  have rest : ∀ x, (x < page ∨ page + PGSIZE ≤ x) →
      (x < a + 8 * PX (l + 1) va ∨ a + 8 * PX (l + 1) va + 8 ≤ x) →
      ((u.mem.fill page PGSIZE 0).store (a + 8 * PX (l + 1) va) 8 (pde page)) x = u.mem x := by
    intro x out out'
    rw [Memory.store_outside _ out', Memory.fill_outside _ out]
  have tree := handed.tree.graft hl h hpx gap' frame fresh zero link rest
  have same := handed.tree.graft_entryAt hl h hpx gap' frame fresh zero link rest
  rw [← above_succ] at tree same
  have has (other : Nat) : (node.graft l (above l va) page).Has other ↔ _ := Nodes.graft_has gap
  have hung : Within (fun other => other = page ∨ other = a) u
      (u.setMem ((u.mem.fill page PGSIZE 0).store (a + 8 * PX (l + 1) va) 8 (pde page))) := by
    refine ⟨fun other hother away i hi => ?_, rfl⟩
    obtain ⟨ne₁, ne₂⟩ := not_or.mp away
    have out := hother.disjoint frame ne₁ (i := other + i) ⟨by omega, by omega⟩
    have out' := hother.disjoint ha ne₂ (i := other + i) ⟨by omega, by omega⟩
    exact rest _ out (by rw [PGSIZE] at out'; omega)
  have outside : ∀ other ∈ free ++ data, other ≠ page ∧ other ≠ a := by
    intro other mem
    refine ⟨?_, ?_⟩
    · rintro rfl
      exact (List.nodup_cons.mp pool.nodup).1 mem
    · rintro rfl
      exact pool.apart other (List.mem_cons_of_mem _ mem) ⟨_, _, h⟩
  exact {
    pool := {
      tree := tree
      links := handed.links.congr fun other mem => hung.kept other
        (handed.usable other (by simp [mem])).frame
        (not_or.mpr (outside other (List.mem_append_left _ mem)))
      usable := fun other mem =>
        ((pool.usable other (List.mem_cons_of_mem _ mem)).within within).within hung
      nodup := (List.nodup_cons.mp pool.nodup).2
      apart := fun other mem hhas => ((has other).mp hhas).elim
        (pool.apart other (List.mem_cons_of_mem _ mem)) (outside other mem).1 }
    same := fun x => (same x).trans (entryAt_congr x fun hq => within.kept _ (pool.tree.frame hq)
      fun eq => fresh _ _ (eq ▸ hq))
    has := fun other hhas => ((has other).mp hhas).imp_right fun eq => by simp [eq]
    old := fun other hhas => (has other).mpr (.inl hhas)
    spent := fun other mem => (List.mem_cons.mp mem).symm.imp_right fun eq => (has other).mpr (.inr eq)
    left := fun other mem => List.mem_cons_of_mem _ mem
    within := (within.mono fun other eq => .inl (by simp [eq])).trans <|
      hung.mono fun other => Or.imp (fun eq => by simp [eq]) fun eq => ⟨_, _, eq ▸ h⟩ }

/-- The table pages that the path to an address lacks, below a level. -/
def missing (node : Nodes) (va : Nat) : Nat → Nat
  | 0 => 0
  | l + 1 => missing node va l + if node l (above l va) = none then 1 else 0

/-- Where there is no table page, there is none below. -/
theorem Tree.missing_all {mem : Memory} (tree : Tree mem root node) {l : Nat} (hl : l ≤ 3)
    (h : node l (above l va) = none) : missing node va l = l := by
  induction l with
  | zero => rfl
  | succ l ih =>
    have below := tree.above_none (by omega) h
    rw [missing, if_pos below, ih (by omega) below]

theorem missing_graft {l q r : Nat} {j : Nat} (below : j ≤ l) :
    missing (node.graft l q r) va j = missing node va j := by
  induction j with
  | zero => rfl
  | succ j ih =>
    have ne : ¬(j = l ∧ above j va = q) := by omega
    rw [missing, missing, ih (by omega), Nodes.graft, if_neg ne]

/-- `walk` takes the pages that the path lacks, or all that there are and fails. -/
theorem Pool.walkLevels (pool : Pool s root node free data) {l a : Nat} (hl : l ≤ 3)
    (h : node l (above l va) = some a) : ∃ pte t node' free',
      Vm.walkLevels true va l a s = .ok (pte, t) ∧ Expands s t root node node' free free' data ∧
      (missing node va l ≤ free.length → free'.length + missing node va l = free.length ∧
        (∃ b, node' 0 (above 0 va) = some b ∧ pte = b + 8 * PX 0 va) ∧
        ∀ l' q, node' l' q ≠ none ↔ node l' q ≠ none ∨ l' < l ∧ q = above l' va) ∧
      (free.length < missing node va l → pte = 0 ∧ free' = []) := by
  induction l generalizing s a node free with
  | zero =>
    refine ⟨_, s, node, free, rfl, .refl pool, fun _ => ⟨rfl, ⟨a, h, rfl⟩, ?_⟩, fun lt => absurd lt (Nat.not_lt_zero _)⟩
    simp
  | succ l ih =>
    have step := pool.tree.step (by omega) h
    rw [Vm.walkLevels, Machine.bind_of_ok (load_run _ s)]
    cases hn : node l (above l va) with
    | some b =>
      simp only [hn] at step
      obtain ⟨pte, t, node', free', run, grows, enough, short⟩ := ih pool (by omega) hn
      have count : missing node va (l + 1) = missing node va l := by simp [missing, hn]
      rw [if_pos step.1, step.2, frame_window (pool.tree.frame hn), count]
      refine ⟨pte, t, node', free', run, grows, fun le => ?_, short⟩
      obtain ⟨left, found, present⟩ := enough le
      refine ⟨left, found, fun l' q => (present l' q).trans ⟨?_, ?_⟩⟩
      · rintro (old | ⟨lt, rfl⟩)
        · exact .inl old
        · exact .inr ⟨by omega, rfl⟩
      · rintro (old | ⟨lt, rfl⟩)
        · exact .inl old
        · rcases Nat.lt_succ_iff_lt_or_eq.1 lt with lower | rfl
          · exact .inr ⟨lower, rfl⟩
          · exact .inl (by simp [hn])
    | none =>
      simp only [hn] at step
      rw [if_neg (by simpa using step), if_neg (by decide)]
      have count : missing node va (l + 1) = l + 1 := by
        rw [missing, if_pos hn, pool.tree.missing_all (by omega) hn]
      cases free with
      | nil =>
        rw [Machine.bind_of_ok (kalloc_empty pool), if_pos rfl]
        exact ⟨0, s, node, [], rfl, .refl pool, by simp [count], fun _ => ⟨rfl, rfl⟩⟩
      | cons page free =>
        obtain ⟨u, run, hung⟩ := pool.graft (by omega) h hn
        have pos := (pool.usable page (by simp)).frame.pos
        have here : node.graft l (above l va) page l (above l va) = some page := by simp [Nodes.graft]
        obtain ⟨pte, t, node', free', rest, grows, enough, short⟩ := ih hung.pool (by omega) here
        have lower : missing (node.graft l (above l va) page) va l = l := by
          rw [missing_graft (Nat.le_refl l), pool.tree.missing_all (by omega) hn]
        rw [Machine.bind_of_ok run, if_neg (by omega), Machine.bind_of_ok (memset_run _ _ _ _),
          Machine.bind_of_ok (store_run _ _ _)]
        refine ⟨pte, t, node', free', rest, hung.trans grows, fun le => ?_, fun lt => ?_⟩
        · rw [count, List.length_cons] at le
          obtain ⟨left, found, present⟩ := enough (by omega)
          refine ⟨by rw [count, List.length_cons]; omega, found, fun l' q => (present l' q).trans ?_⟩
          rw [Nodes.graft]
          constructor
          · rintro (old | ⟨lt, rfl⟩)
            · split at old
              · rename_i eq
                exact .inr ⟨by omega, eq.2.trans (by rw [eq.1])⟩
              · exact .inl old
            · exact .inr ⟨by omega, rfl⟩
          · rintro (old | ⟨lt, rfl⟩)
            · split
              · exact .inl (Option.some_ne_none _)
              · exact .inl old
            · rcases Nat.lt_succ_iff_lt_or_eq.1 lt with lower | rfl
              · exact .inr ⟨lower, rfl⟩
              · exact .inl (by simp)
        · rw [count, List.length_cons] at lt
          exact short (by omega)

end AvxKernel.Vm
