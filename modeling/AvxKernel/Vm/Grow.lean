import AvxKernel.Vm.Clone

/-! Growing and shrinking a heap: what `uvmalloc` and `uvmdealloc` come to on
sizes up to that of the table, and that the filling of a range of pages that are
free to be mapped is all or nothing. -/
namespace AvxKernel.Vm

variable {s t u : Ram} {root v n oldsz newsz p : Nat} {node node' : Nodes}
  {free free' data frames : List Nat} {m : PageMap} {perm : Nat → Nat}
  {content : Nat → Nat → UInt8}

theorem PGROUNDUP_eq (small : n ≤ MAXVA) : PGROUNDUP n = heapPages n * PGSIZE := by
  have bound : MAXVA + PGSIZE ≤ 2 ^ 64 := by decide
  have pos : 0 < PGSIZE := by decide
  rw [PGROUNDUP, u64, heapPages, Nat.mod_eq_of_lt (by omega)]

theorem heapPages_le (small : n ≤ MAXVA) : heapPages n * PGSIZE ≤ MAXVA := by
  have whole : MAXVA = MAXVA / PGSIZE * PGSIZE := by decide
  rw [whole] at small ⊢
  apply Nat.mul_le_mul_right
  rw [heapPages]
  rw [PGSIZE] at *
  omega

theorem heapPages_mono (le : oldsz ≤ newsz) : heapPages oldsz ≤ heapPages newsz :=
  Nat.div_le_div_right (by omega)

/-- Shrinking from a page's start by whole pages. -/
theorem Filled.uvmdealloc
    (filled : Filled s t root node node' free free' data m v frames perm content)
    (low : frames ≠ [] → (v + frames.length) * PGSIZE ≤ MAXVA) : ∃ r u free'',
      uvmdealloc root ((v + frames.length) * PGSIZE) (v * PGSIZE) t = .ok (r, u) ∧
      Filled s u root node node' free free'' data m v [] perm content := by
  have count := filled.page_count
  cases frames with
  | nil => exact ⟨_, t, free', by rw [Vm.uvmdealloc, if_pos (by simp)]; rfl, filled⟩
  | cons page rest =>
    have bound : MAXVA + PGSIZE ≤ 2 ^ 64 := by decide
    have low := low nofun
    obtain ⟨u, free'', run, restored⟩ := filled.restore low
    refine ⟨v * PGSIZE, u, free'', ?_, restored⟩
    have more : v * PGSIZE < (v + (page :: rest).length) * PGSIZE := by
      have longer : v < v + (page :: rest).length := by simp
      exact Nat.mul_lt_mul_of_pos_right longer (by decide)
    rw [Vm.uvmdealloc, if_neg (by omega), PGROUNDUP_page (by omega), PGROUNDUP_page (by omega),
      if_pos more, count, Machine.bind_of_ok run]
    rfl

/-- The pages that are added. -/
def addedPages (oldsz newsz : Nat) : Nat := heapPages newsz - heapPages oldsz

/-- No memory for the pages before one that is in the way. -/
def Short (node : Nodes) (free : List Nat) (m : PageMap) (oldsz newsz : Nat) : Prop :=
  let clear := clearPages m (heapPages oldsz) (addedPages oldsz newsz)
  free.length < need node (heapPages oldsz) clear + if clear < addedPages oldsz newsz then 1 else 0

/-- Memory for all the pages, and none of them in the way. -/
def Roomy (node : Nodes) (free : List Nat) (m : PageMap) (oldsz newsz : Nat) : Prop :=
  clearPages m (heapPages oldsz) (addedPages oldsz newsz) = addedPages oldsz newsz ∧
    need node (heapPages oldsz) (addedPages oldsz newsz) ≤ free.length

theorem lt_newsz (le : oldsz ≤ newsz) {x : Nat} :
    x < heapPages oldsz + addedPages oldsz newsz ↔ x * PGSIZE < newsz := by
  have grows := heapPages_mono le
  rw [addedPages, Nat.add_sub_cancel' grows, lt_heapPages]

/-- A round of `uvmalloc`, with the results of the loops that fill a range. -/
def growRound (root start newsz p a : Nat) : Machine Ram (Nat ⊕ Int) :=
  if a < newsz then do
    if ← mapFresh root a p then
      return .inl (u64 (a + PGSIZE))
    else
      let _ ← uvmdealloc root a start
      return .inr (-1)
  else
    return .inr 0

theorem uvmalloc_filling (le : oldsz ≤ newsz) (small : newsz ≤ MAXVA) (flags : p < 2 ^ 9) :
    Filling s root node free data m (heapPages oldsz) (addedPages oldsz newsz) (fun _ => p)
      (fun _ _ => 0)
      (growRound root (heapPages oldsz * PGSIZE) newsz p)
      (fun _ mem => memset mem 0 PGSIZE)
      (fun a => do
        let _ ← uvmdealloc root a (heapPages oldsz * PGSIZE)
        return ()) where
  more x t _ lt _ := by
    rw [growRound, if_pos ((lt_newsz le).mp lt), mapFresh_eq]
    simp only [bind_assoc, pure_bind]
  done t _ := by
    rw [growRound, if_neg fun lt => absurd ((lt_newsz le).mpr lt) (Nat.lt_irrefl _)]
    rfl
  writes x t page _ _ _ _ :=
    ⟨t.mem.fill page PGSIZE 0, rfl, fun y outside => Memory.fill_outside _ outside,
      fun j hj => Memory.fill_inside _ (by omega) (by omega)⟩
  undoes t node' free' frames filled _ low := by
    obtain ⟨r, u, free'', run, restored⟩ := filled.uvmdealloc low
    exact ⟨u, free'', Machine.bind_of_ok run, restored⟩
  flags _ _ _ := flags
  small := by
    rw [addedPages, Nat.add_sub_cancel' (heapPages_mono le)]
    exact lt_of_le_of_lt (heapPages_le small) (by decide)

theorem uvmalloc_eq (le : oldsz ≤ newsz) (small : newsz ≤ MAXVA) : uvmalloc root oldsz newsz p = (do
    return if (← Machine.loop (growRound root (heapPages oldsz * PGSIZE) newsz (p ||| PTE_PLV3))
      (PAGES + 1) (heapPages oldsz * PGSIZE)) = (0 : Int) then newsz else 0) := by
  rw [uvmalloc, if_neg (by omega), PGROUNDUP_eq (by omega)]
  refine Machine.loop_map (fun r : Int => if r = 0 then newsz else 0) (fun a => ?_) _ _
  rw [growRound]
  split
  · rw [bind_assoc]
    congr 1
    funext mapped
    cases mapped with
    | true => rfl
    | false =>
      simp only [Bool.false_eq_true, if_false, bind_assoc]
      congr 1
  · rfl

/-- `uvmalloc` fails and leaves things as they were, grows the heap, or meets a
page that is mapped already. -/
theorem uvmalloc_outcome (pool : Pool s root node free data) (maps : Maps s node m)
    (le : oldsz ≤ newsz) (small : newsz ≤ MAXVA) (flags : p ||| PTE_PLV3 < 2 ^ 9) :
    (Short node free m oldsz newsz → ∃ u node' free',
      uvmalloc root oldsz newsz p s = .ok (0, u) ∧
      Filled s u root node node' free free' data m (heapPages oldsz) []
        (fun _ => p ||| PTE_PLV3) fun _ _ => 0) ∧
    (Roomy node free m oldsz newsz → ∃ u node' free' frames,
      uvmalloc root oldsz newsz p s = .ok (newsz, u) ∧ frames.length = addedPages oldsz newsz ∧
      Filled s u root node node' free free' data m (heapPages oldsz) frames
        (fun _ => p ||| PTE_PLV3) fun _ _ => 0) ∧
    (¬Short node free m oldsz newsz → ¬Roomy node free m oldsz newsz →
      ∃ e, uvmalloc root oldsz newsz p s = .error e) := by
  have filling := @uvmalloc_filling s root oldsz newsz (p ||| PTE_PLV3) node free data m le small flags
  have low (x : Nat) (_ : heapPages oldsz ≤ x) (lt : x < heapPages oldsz + addedPages oldsz newsz) :
      x * PGSIZE < MAXVA :=
    lt_of_lt_of_le ((lt_newsz le).mp lt) small
  have rounds : addedPages oldsz newsz ≤ ([] : List Nat).length + PAGES := by
    rw [List.length_nil, Nat.zero_add]
    exact rounds_le filling.small
  obtain ⟨short, full, bad⟩ := filling.loop (.start pool maps)
    (k := clearPages m (heapPages oldsz) (addedPages oldsz newsz)) (by simpa using clearPages_le)
    (by simp) (by simpa using fun x => clearPages_good) rounds
  simp only [List.length_nil, Nat.zero_add, Nat.add_zero] at short full bad
  rw [uvmalloc_eq le small]
  refine ⟨fun none => ?_, fun ⟨clear, enough⟩ => ?_, fun some blocked => ?_⟩
  · obtain ⟨u, node', free', run, filled⟩ := short none
    exact ⟨u, node', free', Machine.bind_of_ok run, filled⟩
  · obtain ⟨u, node', free', frames, run, count, filled⟩ := full clear (by rw [clear]; exact enough)
    exact ⟨u, node', free', frames, Machine.bind_of_ok run, count, filled⟩
  · have stock := Nat.le_of_not_lt some
    rcases Nat.eq_or_lt_of_le (clearPages_le (m := m) (v := heapPages oldsz)
      (n := addedPages oldsz newsz)) with all | less
    · rw [all, if_neg (Nat.lt_irrefl _)] at stock
      exact absurd ⟨all, stock⟩ blocked
    · have window := window_of_lt (low (heapPages oldsz) (Nat.le_refl _) (by omega))
      rw [if_pos less] at stock
      obtain ⟨e, failed⟩ := bad less (clearPages_bad window less) stock
      exact ⟨e, Machine.bind_of_error failed⟩

/-- A heap with frames of its own is shortened. -/
theorem uvmdealloc_heap {rest : List Nat} (pool : Pool s root node free (frames ++ rest))
    (maps : Maps s node m) (owned : ∀ i (h : i < frames.length), ∃ q, m i = some (frames[i], q))
    (count : frames.length = heapPages oldsz) (le : newsz ≤ oldsz) (small : oldsz < 2 ^ 32) :
    ∃ t free', uvmdealloc root oldsz newsz s = .ok (newsz, t) ∧
      Pool t root node free' (frames.take (heapPages newsz) ++ rest) ∧
      Maps t node (m.unmapRange (heapPages newsz) (heapPages oldsz - heapPages newsz)) ∧
      Within (fun page => page ∈ frames ∨ node.Has page) s t := by
  have fewer := heapPages_mono le
  have inside : oldsz ≤ MAXVA := le_trans small.le (by decide)
  rcases Nat.eq_or_lt_of_le fewer with same | shorter
  · -- no page is given back
    have whole : frames.take (heapPages newsz) = frames := List.take_of_length_le (by omega)
    have none : m.unmapRange (heapPages newsz) (heapPages oldsz - heapPages newsz) = m := by
      funext x
      rw [PageMap.unmapRange, if_neg (by omega)]
    refine ⟨s, free, ?_, by rwa [whole], by rwa [none], .refl s⟩
    rw [uvmdealloc]
    split
    next stop =>
      rw [Nat.le_antisymm le stop]
      rfl
    next =>
      rw [PGROUNDUP_eq inside, PGROUNDUP_eq (by omega), same, if_neg (Nat.lt_irrefl _)]
      rfl
  · have split : frames.take (heapPages newsz) ++ frames.drop (heapPages newsz) = frames :=
      List.take_append_drop _ _
    have order : (frames ++ rest).Perm
        (frames.drop (heapPages newsz) ++ (frames.take (heapPages newsz) ++ rest)) := by
      rw [← List.append_assoc]
      refine List.Perm.append_right rest ?_
      conv_lhs => rw [← split]
      exact List.perm_append_comm
    have length : (frames.drop (heapPages newsz)).length = heapPages oldsz - heapPages newsz := by
      rw [List.length_drop, count]
    have last : heapPages oldsz * PGSIZE < 2 ^ 32 + PGSIZE := by
      rw [heapPages, PGSIZE]
      omega
    have top : 2 ^ 32 + PGSIZE ≤ MAXVA := by decide
    have stop : heapPages newsz + (frames.drop (heapPages newsz)).length = heapPages oldsz := by omega
    have rounds : (frames.drop (heapPages newsz)).length < PAGES + 1 := by
      have many : 2 ^ 31 ≤ PAGES := by decide
      rw [PGSIZE] at last
      omega
    obtain ⟨t, run, pool', maps', within⟩ := (pool.perm order).unmap maps (v := heapPages newsz)
      (by rw [stop]; omega) (fun i hi => by
        obtain ⟨q, here⟩ := owned (heapPages newsz + i) (by omega)
        exact ⟨q, by rw [here, List.getElem_drop]⟩) rounds
    have pages : (heapPages oldsz * PGSIZE - heapPages newsz * PGSIZE) / PGSIZE =
        heapPages oldsz - heapPages newsz := by
      rw [← Nat.sub_mul, page_index]
    have narrow : heapPages oldsz < 2 ^ 31 := by
      rw [heapPages, PGSIZE]
      omega
    have range : u64 (heapPages newsz * PGSIZE +
        u64 ((heapPages oldsz - heapPages newsz) * PGSIZE)) = heapPages oldsz * PGSIZE := by
      have below : (heapPages oldsz - heapPages newsz) * PGSIZE ≤ heapPages oldsz * PGSIZE :=
        Nat.mul_le_mul_right _ (Nat.sub_le _ _)
      have sum : heapPages newsz * PGSIZE + (heapPages oldsz - heapPages newsz) * PGSIZE =
          heapPages oldsz * PGSIZE := by
        rw [← Nat.add_mul, Nat.add_sub_cancel' fewer]
      have fits : heapPages oldsz * PGSIZE < 2 ^ 64 := lt_trans last (by decide)
      rw [u64, u64, Nat.mod_eq_of_lt (lt_of_le_of_lt below fits), sum, Nat.mod_eq_of_lt fits]
    rw [stop] at run
    rw [length] at maps'
    refine ⟨t, _, ?_, pool', maps', within.mono fun page h => h.imp_left List.mem_of_mem_drop⟩
    have less : heapPages newsz * PGSIZE < heapPages oldsz * PGSIZE :=
      Nat.mul_lt_mul_of_pos_right shorter (by decide)
    have strict : ¬oldsz ≤ newsz := fun back => by
      have := heapPages_mono back
      omega
    have unmapped : vmunmap root (heapPages newsz * PGSIZE)
        (s32 ((heapPages oldsz * PGSIZE - heapPages newsz * PGSIZE) / PGSIZE)) true s = .ok ((), t) := by
      rw [vmunmap, if_neg (by simp [Nat.mul_mod_left]), pages, s32, u32,
        Nat.mod_eq_of_lt (by omega), if_pos (by omega), range]
      exact run
    rw [uvmdealloc, if_neg strict, PGROUNDUP_eq inside, PGROUNDUP_eq (by omega), if_pos less,
      Machine.bind_of_ok unmapped]
    rfl

/-! ### All or nothing -/

/-- A call that is to fill `n` pages from page `v` on. With memory for them it maps each,
and no other, to a new page of zeros; without, it maps none, and what it has taken from
the free list is free again or has become part of the table. -/
structure AllOrNothing {α : Type} (s : Ram) (root : Nat) (node : Nodes) (free data : List Nat)
    (m : PageMap) (v n p : Nat) (call : Machine Ram α) (done failed : α) : Prop where
  all : need node v n ≤ free.length → ∃ u node' free' frames, call s = .ok (done, u) ∧
    frames.length = n ∧ Filled s u root node node' free free' data m v frames (fun _ => p) fun _ _ => 0
  nothing : free.length < need node v n → ∃ u node' free', call s = .ok (failed, u) ∧
    Filled s u root node node' free free' data m v [] (fun _ => p) fun _ _ => 0

theorem clearPages_all (clear : ∀ x, v ≤ x → x < v + n → x * PGSIZE < MAXVA ∧ m x = none) :
    clearPages m v n = n := by
  by_contra ne
  have less := lt_of_le_of_ne clearPages_le ne
  induction n generalizing v with
  | zero => exact absurd less (Nat.not_lt_zero _)
  | succ n ih =>
    obtain ⟨low, gap⟩ := clear v (Nat.le_refl v) (by omega)
    have rest (x : Nat) (le : v + 1 ≤ x) (lt : x < v + 1 + n) := clear x (by omega) (by omega)
    rw [clearPages, if_pos ⟨low, by simp [gap]⟩] at ne less
    exact ih rest (fun same => ne (by rw [same])) (Nat.lt_of_succ_lt_succ less)

/-- On pages of the table that are not mapped, `uvmalloc` and `uvmalloc1` are all or
nothing, wherever memory runs out. -/
theorem uvmalloc_all_or_nothing (pool : Pool s root node free data) (maps : Maps s node m)
    (flags : p ||| PTE_PLV3 < 2 ^ 9) {start stop : Nat} (low : stop ≤ MAXVA)
    (clear : ∀ x, start ≤ x * PGSIZE → x * PGSIZE < stop → m x = none) :
    (start ≤ stop → AllOrNothing s root node free data m (heapPages start) (addedPages start stop)
      (p ||| PTE_PLV3) (uvmalloc root start stop p) stop 0) ∧
    (stop < start → uvmalloc root start stop p s = .ok (start, s)) ∧
    (PGSIZE ∣ start → start < stop → AllOrNothing s root node free data m (heapPages start)
      (addedPages start stop) p (uvmalloc1 root start stop p) 0 (-1)) ∧
    (stop ≤ start → uvmalloc1 root start stop p s = .ok (-1, s)) := by
  have good (le : start ≤ stop) (x : Nat) (from_ : heapPages start ≤ x)
      (lt : x < heapPages start + addedPages start stop) : x * PGSIZE < MAXVA ∧ m x = none := by
    have below := (lt_newsz le).mp lt
    have above : start ≤ x * PGSIZE := by
      by_contra before
      exact absurd (lt_heapPages.mpr (Nat.not_le.mp before)) (Nat.not_lt.mpr from_)
    exact ⟨lt_of_lt_of_le below low, clear x above below⟩
  refine ⟨fun le => ?_, fun lt => ?_, fun aligned lt => ?_, fun le => ?_⟩
  · have whole := clearPages_all (good le)
    obtain ⟨short, full, -⟩ := uvmalloc_outcome pool maps le low flags
    constructor
    · intro enough
      exact full ⟨whole, enough⟩
    · intro less
      apply short
      rw [Short, whole, if_neg (Nat.lt_irrefl _)]
      exact less
  · rw [uvmalloc, if_pos lt]
    rfl
  · have page : heapPages start * PGSIZE = start := by
      obtain ⟨k, rfl⟩ := aligned
      rw [heapPages, PGSIZE]
      omega
    have stops : heapPages start + addedPages start stop = heapPages stop :=
      Nat.add_sub_cancel' (heapPages_mono lt.le)
    have small : (heapPages start + addedPages start stop) * PGSIZE < 2 ^ 64 := by
      rw [stops]
      exact lt_of_le_of_lt (heapPages_le low) (by decide)
    have own : p ≤ p ||| PTE_PLV3 := Nat.left_le_or
    have filling : Filling s root node free data m (heapPages start) (addedPages start stop)
        (fun _ => p) (fun _ _ => 0) _ _ _ :=
      uvmalloc1_filling (lt_of_le_of_lt own flags) small fun x _ => (lt_newsz lt.le).symm
    obtain ⟨short, full, -⟩ := filling.loop (.start pool maps) (k := addedPages start stop) (by simp)
      (by simp) (by simpa using good lt.le) (by simpa using rounds_le small)
    simp only [List.length_nil, Nat.zero_add, Nat.add_zero, page, Nat.lt_irrefl, if_false] at short full
    constructor
    · intro enough
      rw [uvmalloc1, if_neg (Nat.not_le.mpr lt)]
      exact full trivial enough
    · intro less
      rw [uvmalloc1, if_neg (Nat.not_le.mpr lt)]
      exact short less
  · rw [uvmalloc1, if_pos le]
    rfl

/-- Three pages are too few for a page and for the table pages above it. -/
theorem uvmalloc_all_or_nothing_short : ∃ u node' free',
    uvmalloc RAMBASE 0 PGSIZE PTE_W (after uvmcreate fourPages) = .ok (0, u) ∧
      Filled (after uvmcreate fourPages) u RAMBASE (rootOnly RAMBASE) node'
        [RAMBASE + 1 * PGSIZE, RAMBASE + 2 * PGSIZE, RAMBASE + 3 * PGSIZE] free' [] (fun _ => none)
        0 [] (fun _ => PTE_W ||| PTE_PLV3) fun _ _ => 0 := by
  obtain ⟨pool, maps⟩ := fourPages_pool
  have grown := (uvmalloc_all_or_nothing pool maps (p := PTE_W) (by decide)
    (show PGSIZE ≤ MAXVA by decide) fun x (_ : 0 ≤ x * PGSIZE) _ => rfl).1 (Nat.zero_le _)
  exact grown.nothing (by decide)

end AvxKernel.Vm
