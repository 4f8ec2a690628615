import AvxKernel.Exec.Fork

/-! What a child gets from `fork`: the pages of the heap and of every area, each in a
frame of its own. The loops of `fork` run over the list that `vma_copy` has made, whose
nodes are those of the parent's list one by one. -/
namespace AvxKernel.Exec

open Vm

variable {s t u : Ram} {p : Proc} {root page v w n a new limit : Nat} {node node' nodep : Nodes}
  {m m' mp : PageMap} {free free' nodes front back kept frames list l : List Nat} {done : Nat → Prop}

/-- Where an area is. -/
def extent (mem : Memory) (vma : Nat) : Nat × Nat := (areaAddr mem vma, areaEnd mem vma)

theorem extent_eq {mem mem' : Memory} {b : Nat} : extent mem a = extent mem' b ↔
    areaAddr mem a = areaAddr mem' b ∧ areaEnd mem a = areaEnd mem' b :=
  Prod.mk_inj

/-! ### `vma_copy` -/

/-- A node with the fields of another, not yet in a list. -/
def copyNode (mem : Memory) (nvma pre_vma : Nat) : Memory :=
  ((mem.copy nvma pre_vma VMA).store (nvma + 48) 8 0).store (nvma + 56) 8 0

def emptyHead (mem : Memory) (head : Nat) : Memory :=
  ((mem.store (head + 48) 8 head).store (head + 56) 8 head).store head 4 NONE

section Nodes

variable {mem : Memory} {x pre : Nat} (ha : Frame a)

theorem copyNode_outside {i : Nat} (out : i < a ∨ a + PGSIZE ≤ i) : copyNode mem a pre i = mem i := by
  have size : VMA ≤ PGSIZE := by decide
  have page : 64 ≤ PGSIZE := by decide
  rw [copyNode, Memory.store_outside _ (by omega), Memory.store_outside _ (by omega),
    Memory.copy_outside _ (by omega)]

theorem copyNode_fields : extent (copyNode mem a pre) a = extent mem pre := by
  have field (i : Nat) (hi : i + 8 ≤ 48) :
      (copyNode mem a pre).fetch (a + i) 8 = mem.fetch (pre + i) 8 := by
    rw [copyNode, Memory.fetch_store_other _ (by omega), Memory.fetch_store_other _ (by omega)]
    have bytes : (mem.copy a pre VMA).window (a + i) 8 = mem.window (pre + i) 8 := by
      refine List.map_congr_left fun k hk => ?_
      have lt := List.mem_range.mp hk
      rw [Memory.copy, if_pos ⟨by omega, by rw [VMA]; omega⟩]
      congr 1
      omega
    rw [Memory.fetch, Memory.fetch, bytes]
  exact extent_eq.mpr ⟨field 8 (by decide), field 24 (by decide)⟩

theorem emptyHead_outside {i : Nat} (out : i < a ∨ a + PGSIZE ≤ i) : emptyHead mem a i = mem i := by
  have page : 64 ≤ PGSIZE := by decide
  rw [emptyHead, Memory.store_outside _ (by omega), Memory.store_outside _ (by omega),
    Memory.store_outside _ (by omega)]

include ha

theorem emptyHead_listed : Listed (emptyHead mem a) a [] := by
  have field (i : Nat) (low : 4 ≤ i) (high : i + 8 ≤ PGSIZE) : (emptyHead mem a).fetch (a + i) 8 =
      ((mem.store (a + 48) 8 a).store (a + 56) 8 a).fetch (a + i) 8 :=
    Memory.fetch_store_other _ (.inr (by omega))
  refine ⟨⟨⟨?_, ?_⟩, by simp⟩, nofun, .nil⟩
  · exact (field 56 (by decide) (by decide)).trans ((next_store_next ha ha ha.lt).trans (if_pos rfl))
  · refine (field 48 (by decide) (by decide)).trans ((prev_store_next ha ha).trans ?_)
    rw [prev_store_prev ha ha ha.lt, if_pos rfl]

theorem emptyHead_run {α : Type} (k : Machine Ram α) :
    (do
      poke (a + 48) 8 a
      poke (a + 56) 8 a
      poke a 4 NONE
      k : Machine Ram α) u = k (u.setMem (emptyHead u.mem a)) := by
  have first (u : Ram) : poke a 4 NONE u = .ok ((), u.setMem (u.mem.store a 4 NONE)) :=
    poke_run ha (i := 0) (by decide)
  rw [Machine.bind_of_ok (poke_run ha (by decide)), Machine.bind_of_ok (poke_run ha (by decide)),
    Machine.bind_of_ok (first _)]
  rfl

theorem appendCopy_run (hnew : Frame new) (hpre : Frame pre)
    (hprev : Frame ((links (copyNode u.mem a pre)).prev new)) (ne : new ≠ a) :
    appendCopy new pre a u = .ok ((), u.setMem (linkBefore (copyNode u.mem a pre) a new)) := by
  have linked := linkBefore_run (s := u.setMem (copyNode u.mem a pre)) ha hnew hprev ne (pure ())
  simp only [bind_pure_unit] at linked
  rw [appendCopy, Machine.bind_of_ok (memmove_frames ha hpre (by decide)),
    Machine.bind_of_ok (poke_run ha (by decide)), Machine.bind_of_ok (poke_run ha (by decide))]
  exact linked

end Nodes

section Copy

variable {head : Nat} (pool : Pool s root node free (head :: nodes)) (listed : Listed s.mem head nodes)
include pool

/-- The parent's list is as it was. -/
theorem parent_same (copied : Copied s t root node node' free free' (head :: nodes) frames list mp m m'
    done) (ha : a ∈ head :: nodes) (i : Nat) (hi : i < PGSIZE) : t.mem (a + i) = s.mem (a + i) := by
  refine copied.within.kept a (pool.usable a (List.mem_append_right _ ha)).frame ?_ i hi
  rintro (mem | has)
  · exact pool.free_disjoint_data mem ha
  · exact pool.apart a (List.mem_append_right _ ha) has

include listed

/-- One more node, at the end. -/
theorem append_step {pre : Nat} {rest free'' : List Nat} (split : nodes = front ++ pre :: rest)
    (copied : Copied s u root node node' free (page :: free'') (head :: nodes) frames (new :: l) mp m m'
      done)
    (mine : Listed u.mem new l) (same : l.map (extent u.mem) = front.map (extent s.mem)) : ∃ t u',
    kalloc u = .ok (page, t) ∧ page ≠ 0 ∧ appendCopy new pre page t = .ok ((), u') ∧
      Copied s u' root node node' free free'' (head :: nodes) frames (new :: (l ++ [page])) mp m m' done ∧
      Listed u'.mem new (l ++ [page]) ∧
      (l ++ [page]).map (extent u'.mem) = (front ++ [pre]).map (extent s.mem) := by
  obtain ⟨t, run, within, handed⟩ := copied.handed rfl
  have mem_pre : pre ∈ head :: nodes := by simp [split]
  have frame (x : Nat) (hx : x ∈ new :: l) : Frame x :=
    (copied.pool.usable x (by
      refine List.mem_append_right _ (List.mem_append_right _ (List.mem_append_left _ hx)))).frame
  have hpage : Frame page := (copied.pool.usable page (by simp)).frame
  have hpre : Frame pre := (pool.usable pre (List.mem_append_right _ mem_pre)).frame
  have fresh : page ∉ new :: l := fun again => copied.pool.free_disjoint_data (x := page) (by simp)
    (List.mem_append_right _ (List.mem_append_left _ again))
  have other (x : Nat) (hx : x ∈ new :: l) : x ≠ page := fun eq => fresh (eq ▸ hx)
  -- the new node, before it is linked
  obtain ⟨mem, made⟩ : ∃ mem, copyNode t.mem page pre = mem := ⟨_, rfl⟩
  have bytes (x : Nat) (hx : x ∈ new :: l) (i : Nat) (hi : i < PGSIZE) : mem (x + i) = u.mem (x + i) := by
    rw [← made, copyNode_outside ((frame x hx).disjoint hpage (other x hx) ⟨by omega, by omega⟩)]
    exact within.kept x (frame x hx) (other x hx) i hi
  have listed' : Listed mem new l := mine.congr bytes
  have hprev := frame _ (listed'.ring.prev_mem (x := new) (by simp))
  have hnew := frame new (by simp)
  have ne := other new (by simp)
  have run' := appendCopy_run hpage hnew hpre (u := t) (by rw [made]; exact hprev) ne
  rw [made] at run'
  have here : extent mem page = extent s.mem pre := by
    rw [← made, copyNode_fields]
    exact extent_eq.mpr ⟨fetch_kept (parent_same pool handed mem_pre) (by decide),
      fetch_kept (parent_same pool handed mem_pre) (by decide)⟩
  have old (x : Nat) (hx : x ∈ l) : extent mem x = extent u.mem x :=
    extent_eq.mpr ⟨fetch_kept (bytes x (by simp [hx])) (by decide),
      fetch_kept (bytes x (by simp [hx])) (by decide)⟩
  have linked (x : Nat) (hx : Frame x) : extent (linkBefore mem page new) x = extent mem x :=
    extent_eq.mpr ⟨fetch_linkBefore hpage hnew hprev ne hx (by decide),
      fetch_linkBefore hpage hnew hprev ne hx (by decide)⟩
  obtain ⟨addr, stop⟩ := extent_eq.mp here
  have extended : Listed (linkBefore mem page new) new (l ++ [page]) := by
    have whole : Listed mem new (l ++ []) := by rwa [List.append_nil]
    have apart : page ∉ new :: (l ++ []) := by rwa [List.append_nil]
    have frames : ∀ x ∈ new :: (l ++ []), Frame x := by rwa [List.append_nil]
    refine whole.linkBefore rfl apart frames hpage ?_ (fun b hb => ?_) nofun
    · rw [addr, stop]
      exact listed.aligned pre (by simp [split])
    · have also : extent mem b ∈ front.map (extent s.mem) := by
        rw [old b hb, ← same]
        exact List.mem_map_of_mem hb
      obtain ⟨c, hc, eq⟩ := List.mem_map.mp also
      have stop' := (extent_eq.mp eq).2
      have sorted := listed.sorted
      rw [split] at sorted
      rw [addr, ← stop']
      exact (List.pairwise_append.mp sorted).2.2 c hc pre (by simp)
  have written : Within (· ∈ page :: new :: l) t (t.setMem (linkBefore mem page new)) := by
    refine ⟨fun x hx away i hi => ?_, rfl⟩
    have out (z : Nat) (hz : z ∈ page :: new :: l) (fz : Frame z) : x + i < z ∨ z + PGSIZE ≤ x + i :=
      hx.disjoint fz (fun eq => away (eq ▸ hz)) ⟨by omega, by omega⟩
    have first := out page (by simp) hpage
    rw [Ram.setMem_mem, linkBefore_outside hpage hnew hprev ne first
      (out _ (List.mem_cons_of_mem _ (listed'.ring.prev_mem (by simp))) hprev) (out new (by simp) hnew)]
    rw [← made]
    exact copyNode_outside first
  have order : (page :: new :: l).Perm (new :: (l ++ [page])) :=
    (List.Perm.swap _ _ _).trans (List.Perm.cons _ (List.perm_append_singleton page l).symm)
  have final := (handed.written written rfl).reorder order
  have olds : l.map (extent (linkBefore mem page new)) = l.map (extent u.mem) :=
    List.map_congr_left fun x hx => (linked x (frame x (by simp [hx]))).trans (old x hx)
  refine ⟨t, _, run, Nat.ne_of_gt hpage.pos, run', final, extended, ?_⟩
  rw [List.map_append, List.map_append, List.map_singleton, List.map_singleton, Ram.setMem_mem, olds, same,
    linked page hpage, here]

theorem parent_listed
    (copied : Copied s t root node node' free free' (head :: nodes) frames list mp m m' done) :
    Listed t.mem head nodes := listed.congr fun _ ha => parent_same pool copied ha

theorem copyRounds {rest : List Nat} {pre : Nat} (split : nodes = front ++ rest)
    (here : (rest ++ [head]).head? = some pre) (enough : rest.length < limit)
    (copied : Copied s u root node node' free free' (head :: nodes) frames (new :: l) mp m m' done)
    (mine : Listed u.mem new l) (same : l.map (extent u.mem) = front.map (extent s.mem)) :
    (∃ u' free'' list, Machine.loop (copyRound head new) limit pre u = .ok (0, u') ∧
      Copied s u' root node node' free free'' (head :: nodes) frames list mp m m' done) ∨
    ∃ u' free'' l, Machine.loop (copyRound head new) limit pre u = .ok (new, u') ∧
      Copied s u' root node node' free free'' (head :: nodes) frames (new :: l) mp m m' done ∧
      Listed u'.mem new l ∧ l.map (extent u'.mem) = nodes.map (extent s.mem) := by
  induction rest generalizing front l free' u limit pre with
  | nil =>
    obtain rfl : head = pre := by simpa using here
    obtain ⟨limit, rfl⟩ := Nat.exists_eq_succ_of_ne_zero (Nat.ne_of_gt enough)
    rw [List.append_nil] at split
    refine .inr ⟨u, free', l, ?_, copied, mine, split ▸ same⟩
    simp only [Machine.loop, copyRound, if_true, pure_bind]
    rfl
  | cons x rest ih =>
    obtain rfl : x = pre := by simpa using here
    obtain ⟨limit, rfl⟩ := Nat.exists_eq_succ_of_ne_zero (Nat.ne_of_gt (Nat.zero_lt_of_lt enough))
    have ne : x ≠ head := by
      rintro rfl
      exact (List.nodup_cons.mp listed.ring.nodup).1 (by simp [split])
    cases free' with
    | nil =>
      refine .inl ⟨u, [], new :: l, ?_, copied⟩
      simp only [Machine.loop, copyRound, if_neg ne, bind_assoc,
        Machine.bind_of_ok (Vm.kalloc_empty copied.pool), if_true, pure_bind]
      rfl
    | cons page free'' =>
      obtain ⟨t, u', run, some, run', copied', mine', same'⟩ :=
        append_step pool listed split copied mine same
      have member : x ∈ head :: nodes := by simp [split]
      have frame := (pool.usable x (List.mem_append_right _ member)).frame
      have segment := (parent_listed pool listed copied').ring.segment
      rw [split] at segment
      have next := Links.segment_next_head ((Links.segment_append _ _ _ _ _ _).mp segment).2
      have tail := ih (by simp [split]) next (by simpa using enough) copied' mine'
        same'
      simp only [Machine.loop, copyRound, if_neg ne, bind_assoc, Machine.bind_of_ok run, if_neg some,
        Machine.bind_of_ok run', Machine.bind_of_ok (vma_next_run frame), pure_bind]
      exact tail

/-- The list of the child, or none when memory has run out. -/
theorem vma_copy_outcome
    (copied : Copied s t root node node' free free' (head :: nodes) frames [] mp m m' done)
    (enough : nodes.length < limit) :
    (∃ u free'' list, vma_copy limit head t = .ok (0, u) ∧
      Copied s u root node node' free free'' (head :: nodes) frames list mp m m' done) ∨
    ∃ u new free'' l, vma_copy limit head t = .ok (new, u) ∧ new ≠ 0 ∧
      Copied s u root node node' free free'' (head :: nodes) frames (new :: l) mp m m' done ∧
      Listed u.mem new l ∧ l.map (extent u.mem) = nodes.map (extent s.mem) := by
  cases free' with
  | nil =>
    refine .inl ⟨t, [], [], ?_, copied⟩
    rw [vma_copy, Machine.bind_of_ok (Vm.kalloc_empty copied.pool), if_pos rfl]
    rfl
  | cons new free' =>
    obtain ⟨u, run, within, handed⟩ := copied.handed rfl
    have frame : Frame new := (copied.pool.usable new (by simp)).frame
    have written : Within (· ∈ [new]) u (u.setMem (emptyHead u.mem new)) :=
      (Within.setMem frame fun x out => emptyHead_outside out).mono fun x eq => by simp [eq]
    have start := handed.written written rfl
    have parent : Frame head := (pool.usable head (by simp)).frame
    have first := Links.segment_next_head (parent_listed pool listed start).ring.segment
    have mine : Listed (u.setMem (emptyHead u.mem new)).mem new [] := emptyHead_listed frame
    have none : ([] : List Nat).map (extent (u.setMem (emptyHead u.mem new)).mem) =
        ([] : List Nat).map (extent s.mem) := by rw [List.map_nil, List.map_nil]
    have outcome := copyRounds pool listed (List.nil_append nodes).symm first enough start mine none
    rw [vma_copy, Machine.bind_of_ok run, if_neg (Nat.ne_of_gt frame.pos), emptyHead_run frame,
      Machine.bind_of_ok (vma_next_run parent)]
    rcases outcome with ⟨u', free'', list, run', copied'⟩ | ⟨u', free'', l, run', copied', mine, same⟩
    · exact .inl ⟨u', free'', list, run', copied'⟩
    · exact .inr ⟨u', new, free'', l, run', Nat.ne_of_gt frame.pos, copied', mine, same⟩

end Copy

/-! ### `vma_map` -/

theorem walkaddr_total (tree : Tree s.mem root node) (va : Nat) : ∃ pa, walkaddr root va s = .ok (pa, s) := by
  rw [walkaddr]
  split
  · exact ⟨va, rfl⟩
  · split
    · exact ⟨0, rfl⟩
    · rw [Machine.bind_of_ok (walk_find tree (by omega))]
      split
      · exact ⟨0, rfl⟩
      · rw [Machine.bind_of_ok (load_run _ s)]
        split
        · exact ⟨0, rfl⟩
        · split
          · exact ⟨0, rfl⟩
          · exact ⟨_, rfl⟩

/-- The list of the child stays while pages are mapped. -/
theorem list_same {kept : List Nat}
    (copied : Copied s t root node node' free free' kept frames list mp m m' done)
    (within : Within (fun page => page ∈ free' ∨ node'.Has page) t u) (ha : a ∈ list) (i : Nat)
    (hi : i < PGSIZE) : u.mem (a + i) = t.mem (a + i) := by
  have data : a ∈ frames ++ (list ++ kept) := List.mem_append_right _ (List.mem_append_left _ ha)
  refine within.kept a (copied.pool.usable a (List.mem_append_right _ data)).frame ?_ i hi
  rintro (mem | has)
  · exact copied.pool.free_disjoint_data mem data
  · exact copied.pool.apart a (List.mem_append_right _ data) has

section Map

variable {old : Nat} {kept : List Nat}
  (source : Source s old nodep mp fun page => page ∈ free ∨ node.Has page)
include source

/-- The pages of an area are copied as those of the heap are. -/
theorem vma_map_outcome {vma : Nat}
    (copied : Copied s t root node node' free free' kept frames list mp m m' done) (member : vma ∈ list)
    (addr : areaAddr t.mem vma = v * PGSIZE) (stop : areaEnd t.mem vma = (v + n) * PGSIZE)
    (present : ∀ x, v ≤ x → x < v + n → x * PGSIZE < MAXVA ∧ mp x ≠ none) :
    CopyOutcome t root node' free' (frames ++ (list ++ kept)) m' mp v n (vma_map old root vma t) := by
  have data : vma ∈ frames ++ (list ++ kept) :=
    List.mem_append_right _ (List.mem_append_left _ member)
  have frame : Frame vma := (copied.pool.usable vma (List.mem_append_right _ data)).frame
  have same (u : Ram) (within : Within (fun page => page ∈ free' ∨ node'.Has page) t u) :
      areaAddr u.mem vma = v * PGSIZE ∧ areaEnd u.mem vma = (v + n) * PGSIZE := by
    have bytes := list_same copied within member
    exact ⟨(fetch_kept bytes (by decide)).trans addr, (fetch_kept bytes (by decide)).trans stop⟩
  have below {x : Nat} (lt : x < v + n) : x * PGSIZE < (v + n) * PGSIZE :=
    Nat.mul_lt_mul_of_pos_right lt (by decide)
  -- the loop itself
  have outcome : CopyOutcome t root node' free' (frames ++ (list ++ kept)) m' mp v n
      (Machine.loop (areaRound old root vma) (PAGES + 1) (v * PGSIZE) t) := by
    have last (u : Ram) (within : Within (fun page => page ∈ free' ∨ node'.Has page) t u) :
        areaRound old root vma ((v + n) * PGSIZE) u = .ok (.inr 0, u) := by
      rw [areaRound, Machine.bind_of_ok (vma_end_run frame), (same u within).2,
        if_neg (Nat.lt_irrefl _), Machine.pure_run]
    by_cases none : n = 0
    · subst none
      refine .inr (.inl ⟨rfl, t, node', free', [], ?_, rfl, .start copied.pool copied.maps⟩)
      have empty := last t (.refl t)
      rw [Nat.add_zero] at empty
      rw [Machine.loop, Machine.bind_of_ok empty]
      rfl
    · refine copy_outcome copied.pool copied.maps id (fun _ _ => rfl)
        (copied.source_after source) present none _ (unmapArea root vma) ?_ ?_ last
      · intro x u le lt within
        rw [areaRound, Machine.bind_of_ok (vma_end_run frame), (same u within).2, if_pos (below lt)]
      · intro a u within
        rw [unmapArea, Machine.bind_of_ok (vma_addr_run frame), (same u within).1]
  rw [vma_map, Machine.bind_of_ok (vma_addr_run frame), addr]
  rcases outcome with ⟨u, node'', free'', run, filled⟩ | ⟨all, u, node'', free'', frames', run, count, filled⟩ |
    ⟨some, e, run⟩
  · refine .inl ⟨u, node'', free'', ?_, filled⟩
    rw [Machine.bind_of_ok run, if_pos (by decide), Machine.pure_run]
  · obtain ⟨pa, walked⟩ := walkaddr_total filled.pool.tree (areaAddr u.mem vma)
    refine .inr (.inl ⟨all, u, node'', free'', frames', ?_, count, filled⟩)
    rw [Machine.bind_of_ok run, if_neg (by decide), Machine.bind_of_ok (vma_addr_run frame),
      Machine.bind_of_ok walked, Machine.pure_run]
  · exact .inr (.inr ⟨some, e, Machine.bind_of_error run⟩)

/-- The pages of some ranges. -/
def Covered (ranges : List (Nat × Nat)) (x : Nat) : Prop :=
  ∃ e ∈ ranges, e.1 ≤ x * PGSIZE ∧ x * PGSIZE < e.2

omit source in
theorem covered_cons {e : Nat × Nat} {ranges : List (Nat × Nat)} {x : Nat} :
    Covered (e :: ranges) x ↔ (e.1 ≤ x * PGSIZE ∧ x * PGSIZE < e.2) ∨ Covered ranges x := by
  simp [Covered]

omit source in
theorem Listed.range {mem : Memory} {head : Nat} (listed : Listed mem head l) (ha : a ∈ l) :
    ∃ v n, areaAddr mem a = v * PGSIZE ∧ areaEnd mem a = (v + n) * PGSIZE := by
  obtain ⟨⟨v, addr⟩, ⟨w, stop⟩, le⟩ := listed.aligned a ha
  refine ⟨v, w - v, by rw [addr, Nat.mul_comm], ?_⟩
  rw [addr, stop] at le
  rw [stop, Nat.add_sub_of_le (Nat.le_of_mul_le_mul_left le (by decide)), Nat.mul_comm]

/-- The areas of the child are mapped one by one, until one cannot be. -/
theorem mapRounds {rest : List Nat} {nvma : Nat} {ranges : List (Nat × Nat)}
    (copied : Copied s t root node node' free free' kept frames (new :: l) mp m m' done)
    (mine : Listed t.mem new l) (split : l = front ++ rest) (here : (rest ++ [new]).head? = some nvma)
    (enough : rest.length < limit) (extents : rest.map (extent t.mem) = ranges)
    (present : ∀ x, Covered ranges x → x * PGSIZE < MAXVA ∧ mp x ≠ none) :
    (∃ u node'' free'' frames' m'', Machine.loop (mapRound old root new) limit nvma t = .ok (0, u) ∧
      (∀ a ∈ new :: l, ∀ i < PGSIZE, u.mem (a + i) = t.mem (a + i)) ∧
      Copied s u root node node'' free free'' kept frames' (new :: l) mp m m''
        fun x => done x ∨ Covered ranges x) ∨
    (∃ u node'' free'' frames' m'' before e later, ranges = before ++ e :: later ∧
      Machine.loop (mapRound old root new) limit nvma t = .ok (-1, u) ∧
      (∀ a ∈ new :: l, ∀ i < PGSIZE, u.mem (a + i) = t.mem (a + i)) ∧
      Copied s u root node node'' free free'' kept frames' (new :: l) mp m m''
        fun x => done x ∨ Covered before x) ∨
    (∃ x, Covered ranges x ∧ m' x ≠ none) ∧
      ∃ e, Machine.loop (mapRound old root new) limit nvma t = .error e := by
  induction rest generalizing front nvma limit t node' free' frames m' done ranges with
  | nil =>
    obtain rfl : new = nvma := by simpa using here
    obtain ⟨limit, rfl⟩ := Nat.exists_eq_succ_of_ne_zero (Nat.ne_of_gt enough)
    subst extents
    refine .inl ⟨t, node', free', frames, m', ?_, fun _ _ _ _ => rfl,
      copied.congr fun x => by simp [Covered]⟩
    simp only [Machine.loop, mapRound, if_true, pure_bind]
    rfl
  | cons a rest ih =>
    obtain rfl : a = nvma := by simpa using here
    obtain ⟨limit, rfl⟩ := Nat.exists_eq_succ_of_ne_zero (Nat.ne_of_gt (Nat.zero_lt_of_lt enough))
    have member : a ∈ l := by simp [split]
    have ne : a ≠ new := fun eq => (List.nodup_cons.mp mine.ring.nodup).1 (eq ▸ member)
    obtain ⟨v, n, addr, stop⟩ := mine.range member
    subst extents
    have inside (x : Nat) (le : v ≤ x) (lt : x < v + n) :
        (extent t.mem a).1 ≤ x * PGSIZE ∧ x * PGSIZE < (extent t.mem a).2 := by
      rw [extent, addr, stop]
      exact ⟨Nat.mul_le_mul_right _ le, Nat.mul_lt_mul_of_pos_right lt (by decide)⟩
    have within_range (x : Nat) : (extent t.mem a).1 ≤ x * PGSIZE ∧ x * PGSIZE < (extent t.mem a).2 ↔
        v ≤ x ∧ x < v + n := by
      refine ⟨fun h => ?_, fun h => inside x h.1 h.2⟩
      rw [extent, addr, stop] at h
      exact ⟨Nat.le_of_mul_le_mul_right h.1 (by decide), Nat.lt_of_mul_lt_mul_right h.2⟩
    have pages (x : Nat) (le : v ≤ x) (lt : x < v + n) : x * PGSIZE < MAXVA ∧ mp x ≠ none :=
      present x (covered_cons.mpr (.inl (inside x le lt)))
    rcases vma_map_outcome source copied (List.mem_cons_of_mem new member) addr stop pages with
      ⟨u, node'', free'', run, filled⟩ | ⟨all, u, node'', free'', frames', run, rfl, filled⟩ | ⟨some, e, run⟩
    · refine .inr (.inl ⟨u, node'', free'', frames, m', [], extent t.mem a,
        rest.map (extent t.mem), rfl, ?_,
        fun b hb i hi => list_same copied filled.within hb i hi, ?_⟩)
      · simp only [Machine.loop, mapRound, if_neg ne, bind_assoc, Machine.bind_of_ok run]
        rfl
      · have same := copied.filled source (fun x le lt => absurd lt (by simpa using le)) filled
        rw [PageMap.fill_nil] at same
        exact same.congr fun x => by simp [Covered]
    · have copied' := copied.filled source (fun x le lt => (pages x le lt).2) filled
      have bytes (b : Nat) (hb : b ∈ new :: l) := fun i hi => list_same copied filled.within hb i hi
      have mine' : Listed u.mem new l := mine.congr bytes
      have frame : Frame a := (copied.pool.usable a (by simp [member])).frame
      have segment := mine'.ring.segment
      rw [split] at segment
      have next := Links.segment_next_head ((Links.segment_append _ _ _ _ _ _).mp segment).2
      have extents' : rest.map (extent u.mem) = rest.map (extent t.mem) := by
        refine List.map_congr_left fun b hb => ?_
        have mem : b ∈ new :: l := by simp [split, hb]
        exact extent_eq.mpr ⟨fetch_kept (bytes b mem) (by decide), fetch_kept (bytes b mem) (by decide)⟩
      have round : Machine.loop (mapRound old root new) (limit + 1) a t =
          Machine.loop (mapRound old root new) limit ((links u.mem).next a) u := by
        simp only [Machine.loop, mapRound, if_neg ne, bind_assoc, Machine.bind_of_ok run]
        rw [if_neg (by decide)]
        simp only [bind_assoc, Machine.bind_of_ok (vma_next_run frame), pure_bind]
      have onward : l = (front ++ [a]) ++ rest := by simp [split]
      have tail := ih copied' mine' onward next (by simpa using enough) extents'
        fun x cov => present x (covered_cons.mpr (.inr cov))
      rw [round]
      rcases tail with ⟨u', n2, f2, fr2, m2, run', kept', final⟩ |
        ⟨u', n2, f2, fr2, m2, before, e, later, parts, run', kept', final⟩ | ⟨⟨x, cov, mapped⟩, e, run'⟩
      · refine .inl ⟨u', n2, f2, fr2, m2, run', fun b hb i hi => (kept' b hb i hi).trans (bytes b hb i hi),
          final.congr fun x => ?_⟩
        rw [List.map_cons, covered_cons, within_range, or_assoc]
      · refine .inr (.inl ⟨u', n2, f2, fr2, m2, extent t.mem a :: before, e, later, ?_, run',
          fun b hb i hi => (kept' b hb i hi).trans (bytes b hb i hi), final.congr fun x => ?_⟩)
        · rw [List.map_cons, parts, List.cons_append]
        · rw [covered_cons, within_range, or_assoc]
      · refine .inr (.inr ⟨⟨x, covered_cons.mpr (.inr cov), ?_⟩, e, run'⟩)
        -- the areas are apart
        obtain ⟨_, among, le, lt⟩ := cov
        obtain ⟨b, hb, rfl⟩ := List.mem_map.mp among
        have sorted := mine.sorted
        rw [split] at sorted
        have later := (List.pairwise_cons.mp (List.pairwise_append.mp sorted).2.1).1 b hb
        rw [stop] at later
        have out : v + frames'.length ≤ x := Nat.le_of_mul_le_mul_right (le_trans later le) (by decide)
        rwa [PageMap.fill, if_neg (by omega)] at mapped
    · refine .inr (.inr ⟨?_, e, ?_⟩)
      · have low := pages v (Nat.le_refl v) (by omega)
        have bad := clearPages_bad (window_of_lt low.1) some
        have here := inside (v + clearPages m' v n) (by omega) (by omega)
        refine ⟨_, covered_cons.mpr (.inl here), ?_⟩
        rcases bad with ⟨-, mapped⟩ | ⟨high, -⟩
        · exact mapped
        · exact absurd (pages _ (by omega) (by omega)).1 (Nat.not_lt.mpr high)
      · simp only [Machine.loop, mapRound, if_neg ne, bind_assoc, Machine.bind_of_error run]

end Map

end AvxKernel.Exec
