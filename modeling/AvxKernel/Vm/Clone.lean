import AvxKernel.Vm.Fill
import AvxKernel.Vm.Copy

/-! Copying the pages of one table into another, page by page: the loop of
`uvmcopy`, which `vma_map` repeats for an area. -/
namespace AvxKernel.Vm

/-- A round of the loop: a new page with the bytes of the old one and its flags. The
`flags` are a `uint` here and a `long` in `vma_map`, and an `int` in `mappages`. -/
def copyPage (address : Nat → Nat) (old new a : Nat) : Machine Ram Bool := do
  let pte ← walk old a false
  if pte = 0 then
    Machine.panic "uvmcopy: pte should exist"
  else
    let entry ← load pte
    if entry &&& PTE_V = 0 then
      Machine.panic "uvmcopy: page not present"
    else
      mapWith (fun mem => memmove mem (address (PTE2PA entry)) PGSIZE) new a (u32 (PTE_FLAGS entry))

def uvmcopy (old new sz : Nat) : Machine Ram Int :=
  Machine.loop (fun i => do
    if i < sz then
      if ← copyPage (fun pa => pa ||| DMWIN_MASK) old new i then
        return .inl (u64 (i + PGSIZE))
      else
        vmunmap new 0 (i / PGSIZE) true
        return .inr (-1)
    else
      return .inr 0) (PAGES + 1) 0

variable {s t u : Ram} {root old v n page : Nat} {node node' nodep : Nodes} {m mp : PageMap}
  {free free' data frames : List Nat} {perm : Nat → Nat} {content : Nat → Nat → UInt8}

/-- A table and its frames, apart from the pages that another one may take. -/
structure Source (s : Ram) (old : Nat) (nodep : Nodes) (mp : PageMap) (taken : Nat → Prop) : Prop where
  tree : Tree s.mem old nodep
  maps : Maps s nodep mp
  table : ∀ page, nodep.Has page → ¬taken page
  apart : ∀ {x pa perm}, mp x = some (pa, perm) → ¬taken pa

/-- The flags of a copy. -/
def copiedFlags (mp : PageMap) (x : Nat) : Nat :=
  ((mp x).map fun (_, perm) => perm ||| PTE_V ||| PTE_MAT ||| PTE_D).getD 0

/-- The bytes of a page. -/
def bytesAt (s : Ram) (mp : PageMap) (x j : Nat) : UInt8 :=
  s.mem (((mp x).map Prod.fst).getD 0 + j)

theorem copiedFlags_lt {taken : Nat → Prop} (source : Source s old nodep mp taken) (x : Nat) :
    copiedFlags mp x < 2 ^ 9 := by
  rw [copiedFlags]
  cases here : mp x with
  | none => decide
  | some q => exact flags_lt (source.maps.frames here).2

theorem Source.within {taken : Nat → Prop} (source : Source s old nodep mp taken)
    (within : Within taken s t) : Source t old nodep mp taken where
  tree := source.tree.congr fun h => within.kept _ (source.tree.frame h) (source.table _ ⟨_, _, h⟩)
  maps := source.maps.congr fun x => entryAt_congr x fun h =>
    within.kept _ (source.tree.frame h) (source.table _ ⟨_, _, h⟩)
  table := source.table
  apart := source.apart

theorem Source.copyPage_run {taken : Nat → Prop} (source : Source t old nodep mp taken)
    {address : Nat → Nat} (same : ∀ pa, Frame pa → address pa = pa) {x pa q : Nat}
    (low : x * PGSIZE < MAXVA) (here : mp x = some (pa, q)) :
    copyPage address old root (x * PGSIZE) t =
      mapWith (fun mem => memmove mem pa PGSIZE) root (x * PGSIZE) (copiedFlags mp x) t := by
  obtain ⟨frame, small⟩ := source.maps.frames here
  obtain ⟨pte, walked, found, entry⟩ := source.maps.walk source.tree low (by rw [page_index]; exact here)
  have flags : copiedFlags mp x = q ||| PTE_V ||| PTE_MAT ||| PTE_D := by rw [copiedFlags, here]; rfl
  have whole : u32 (PTE_FLAGS (leaf pa q)) = copiedFlags mp x := by
    rw [PTE_FLAGS_leaf pa small, flags, u32]
    exact Nat.mod_eq_of_lt (lt_trans (flags_lt small) (by decide))
  rw [copyPage, Machine.bind_of_ok walked, if_neg found, Machine.bind_of_ok (load_run _ t), entry,
    if_neg (leaf_valid pa q), PTE2PA_leaf frame small, same pa frame, whole]

/-- The loop fills the range with copies of the pages that it has in the other table. -/
theorem copyFilling {body : Nat → Machine Ram (Nat ⊕ Int)} {undo : Nat → Machine Ram Unit}
    {address : Nat → Nat}
    (same : ∀ pa, Frame pa → address pa = pa)
    (source : Source s old nodep mp fun page => page ∈ free ∨ node.Has page)
    (usable : ∀ page ∈ free, Usable s page)
    (present : ∀ x, v ≤ x → x < v + n → x * PGSIZE < MAXVA ∧ mp x ≠ none) (more : n ≠ 0)
    (round : ∀ x t, v ≤ x → x < v + n → Within (fun page => page ∈ free ∨ node.Has page) s t →
      body (x * PGSIZE) t = (do
        if ← copyPage address old root (x * PGSIZE) then
          return .inl (u64 (x * PGSIZE + PGSIZE))
        else
          undo (x * PGSIZE)
          return .inr (-1) : Machine Ram (Nat ⊕ Int)) t)
    (undoing : ∀ a t, Within (fun page => page ∈ free ∨ node.Has page) s t →
      undo a t = vmunmap root (v * PGSIZE) ((a - v * PGSIZE) / PGSIZE) true t)
    (done : ∀ t, Within (fun page => page ∈ free ∨ node.Has page) s t →
      body ((v + n) * PGSIZE) t = .ok (.inr 0, t)) :
    Filling s root node free data m v n (copiedFlags mp) (bytesAt s mp) body
      (fun x mem => memmove mem (((mp x).map Prod.fst).getD 0) PGSIZE) undo where
  more x t le lt within := by
    obtain ⟨low, some⟩ := present x le lt
    obtain ⟨⟨pa, q⟩, here⟩ := Option.ne_none_iff_exists'.mp some
    rw [round x t le lt within]
    refine Machine.bind_congr_run ?_
    rw [(source.within within).copyPage_run same low here, here]
    rfl
  done := done
  writes x t page le lt mem within := by
    obtain ⟨low, some⟩ := present x le lt
    obtain ⟨⟨pa, q⟩, here⟩ := Option.ne_none_iff_exists'.mp some
    have frame := (usable page mem).frame
    have from_frame := (source.maps.frames here).1
    rw [here]
    refine ⟨_, memmove_frames frame from_frame (Nat.le_refl _), fun y outside => Memory.copy_outside _ outside, ?_⟩
    intro j hj
    rw [Memory.copy, if_pos ⟨by omega, by omega⟩, Nat.add_sub_cancel_left, bytesAt, here]
    exact within.kept pa from_frame (source.apart here) j hj
  undoes t node' free' frames filled lt _ := by
    have low := (present (v + frames.length) (by omega) (by omega)).1
    obtain ⟨u, free'', run, restored⟩ := filled.restore (Nat.le_of_lt low)
    refine ⟨u, free'', ?_, restored⟩
    have count : ((v + frames.length) * PGSIZE - v * PGSIZE) / PGSIZE = frames.length := by
      rw [Nat.add_mul, Nat.add_sub_cancel_left, page_index]
    rw [undoing _ _ filled.within, count]
    exact run
  flags x _ _ := copiedFlags_lt source x
  small := by
    obtain ⟨low, -⟩ := present (v + n - 1) (by omega) (by omega)
    have last : (v + n) * PGSIZE = (v + n - 1) * PGSIZE + PGSIZE := by
      rw [← Nat.succ_mul]
      congr 1
      omega
    have room : MAXVA + PGSIZE < 2 ^ 64 := by decide
    omega

/-- What comes of copying a range: all of it, nothing, or a page in the way. -/
def CopyOutcome (s : Ram) (root : Nat) (node : Nodes) (free data : List Nat) (m mp : PageMap)
    (v n : Nat) (run : Except Halt (Int × Ram)) : Prop :=
  (∃ u node' free', run = .ok (-1, u) ∧
    Filled s u root node node' free free' data m v [] (copiedFlags mp) (bytesAt s mp)) ∨
  (clearPages m v n = n ∧ ∃ u node' free' frames, run = .ok (0, u) ∧ frames.length = n ∧
    Filled s u root node node' free free' data m v frames (copiedFlags mp) (bytesAt s mp)) ∨
  clearPages m v n < n ∧ ∃ e, run = .error e

theorem copy_outcome (pool : Pool s root node free data) (maps : Maps s node m) (address : Nat → Nat)
    (same : ∀ pa, Frame pa → address pa = pa)
    (source : Source s old nodep mp fun page => page ∈ free ∨ node.Has page)
    (present : ∀ x, v ≤ x → x < v + n → x * PGSIZE < MAXVA ∧ mp x ≠ none) (more : n ≠ 0)
    (body : Nat → Machine Ram (Nat ⊕ Int)) (undo : Nat → Machine Ram Unit)
    (round : ∀ x t, v ≤ x → x < v + n → Within (fun page => page ∈ free ∨ node.Has page) s t →
      body (x * PGSIZE) t = (do
        if ← copyPage address old root (x * PGSIZE) then
          return .inl (u64 (x * PGSIZE + PGSIZE))
        else
          undo (x * PGSIZE)
          return .inr (-1) : Machine Ram (Nat ⊕ Int)) t)
    (undoing : ∀ a t, Within (fun page => page ∈ free ∨ node.Has page) s t →
      undo a t = vmunmap root (v * PGSIZE) ((a - v * PGSIZE) / PGSIZE) true t)
    (done : ∀ t, Within (fun page => page ∈ free ∨ node.Has page) s t →
      body ((v + n) * PGSIZE) t = .ok (.inr 0, t)) :
    CopyOutcome s root node free data m mp v n (Machine.loop body (PAGES + 1) (v * PGSIZE) s) := by
  have filling : Filling s root node free data m v n (copiedFlags mp) (bytesAt s mp) body _ _ :=
    copyFilling same source (fun page mem => pool.usable page (List.mem_append_left _ mem)) present more
      round undoing done
  exact filling.outcome pool maps fun x le lt => (present x le lt).1

/-- The pages of the first `sz` bytes. -/
def heapPages (sz : Nat) : Nat := (sz + PGSIZE - 1) / PGSIZE

theorem lt_heapPages {sz x : Nat} : x < heapPages sz ↔ x * PGSIZE < sz := by
  rw [heapPages, PGSIZE]
  omega

theorem uvmcopy_outcome (pool : Pool s root node free data) (maps : Maps s node m) {sz : Nat}
    (source : Source s old nodep mp fun page => page ∈ free ∨ node.Has page)
    (present : ∀ x, x * PGSIZE < sz → x * PGSIZE < MAXVA ∧ mp x ≠ none) :
    CopyOutcome s root node free data m mp 0 (heapPages sz) (uvmcopy old root sz s) := by
  have inside (x : Nat) (lt : x < 0 + heapPages sz) : x * PGSIZE < sz := by
    rw [Nat.zero_add] at lt
    exact lt_heapPages.mp lt
  have stop : ¬(0 + heapPages sz) * PGSIZE < sz := by
    rw [Nat.zero_add, ← lt_heapPages]
    exact Nat.lt_irrefl _
  by_cases none : heapPages sz = 0
  · rw [none] at stop ⊢
    refine .inr (.inl ⟨rfl, s, node, free, [], ?_, rfl, .start pool maps⟩)
    have last : ¬0 < sz := by simpa using stop
    simp only [uvmcopy, Machine.loop, if_neg last, pure_bind, Machine.pure_run]
  · rw [uvmcopy]
    have outcome := copy_outcome pool maps (v := 0) (fun pa => pa ||| DMWIN_MASK)
      (fun pa frame => frame_window frame) source
      (fun x _ lt => present x (inside x lt)) none (fun i => do
        if i < sz then
          if ← copyPage (fun pa => pa ||| DMWIN_MASK) old root i then
            return .inl (u64 (i + PGSIZE))
          else
            vmunmap root 0 (i / PGSIZE) true
            return .inr (-1)
        else
          return .inr 0)
      (fun i => vmunmap root 0 (i / PGSIZE) true)
      (fun x t _ lt _ => by rw [if_pos (inside x lt)])
      (fun a t _ => by rw [Nat.zero_mul, Nat.sub_zero])
      (fun t _ => by rw [if_neg stop, Machine.pure_run])
    rw [Nat.zero_mul] at outcome
    exact outcome

/-! ### Several ranges -/

theorem Source.mono {taken taken' : Nat → Prop} (source : Source s old nodep mp taken)
    (less : ∀ page, taken' page → taken page) : Source s old nodep mp taken' where
  tree := source.tree
  maps := source.maps
  table page has mem := source.table page has (less page mem)
  apart here mem := source.apart here (less _ mem)

/-- Between `s` and `t`, pages have been copied, and others taken for the list of areas. -/
structure Copied (s t : Ram) (root : Nat) (node node' : Nodes) (free free' kept frames list : List Nat)
    (mp m m' : PageMap) (done : Nat → Prop) : Prop where
  pool : Pool t root node' free' (frames ++ (list ++ kept))
  maps : Maps t node' m'
  copy : ∀ x, done x → ∃ pa q pa', mp x = some (pa, q) ∧
    m' x = some (pa', q ||| PTE_V ||| PTE_MAT ||| PTE_D) ∧ pa' ∈ frames ∧
    ∀ j < PGSIZE, t.mem (pa' + j) = s.mem (pa + j)
  once : ∀ x y, done x → done y → (m' x).map Prod.fst = (m' y).map Prod.fst → x = y
  used : ∀ page ∈ frames, ∃ x, done x ∧ (m' x).map Prod.fst = some page
  other : ∀ x, ¬done x → m' x = m x
  source : ∀ page ∈ frames ++ list, page ∈ free
  has : ∀ page, node'.Has page → node.Has page ∨ page ∈ free
  spent : ∀ page ∈ free, page ∈ free' ∨ page ∈ frames ++ list ∨ node'.Has page
  left : ∀ page ∈ free', page ∈ free
  within : Within (fun page => page ∈ free ∨ node.Has page) s t

section Copied

variable {kept list frames' free'' : List Nat} {m' : PageMap} {done : Nat → Prop} {node'' : Nodes}

theorem Copied.start (pool : Pool s root node free kept) (maps : Maps s node m) :
    Copied s s root node node free free kept [] [] mp m m fun _ => False where
  pool := pool
  maps := maps
  copy _ h := h.elim
  once _ _ h := h.elim
  used := nofun
  other _ _ := rfl
  source := nofun
  has _ := .inl
  spent _ := .inl
  left _ := id
  within := .refl s

variable (copied : Copied s t root node node' free free' kept frames list mp m m' done)
include copied

theorem Copied.congr {done' : Nat → Prop} (same : ∀ x, done' x ↔ done x) :
    Copied s t root node node' free free' kept frames list mp m m' done' := by
  have eq : done' = done := funext fun x => propext (same x)
  rwa [eq]

theorem Copied.taken (page : Nat) (h : page ∈ free' ∨ node'.Has page) : page ∈ free ∨ node.Has page :=
  h.elim (fun mem => .inl (copied.left page mem)) fun has => (copied.has page has).symm

/-- The other table stands. -/
theorem Copied.source_after
    (source : Source s old nodep mp fun page => page ∈ free ∨ node.Has page) :
    Source t old nodep mp fun page => page ∈ free' ∨ node'.Has page :=
  (source.within copied.within).mono copied.taken

/-- The next range is copied. -/
theorem Copied.filled
    (source : Source s old nodep mp fun page => page ∈ free ∨ node.Has page)
    (present : ∀ x, v ≤ x → x < v + frames'.length → mp x ≠ none)
    (filled : Filled t u root node' node'' free' free'' (frames ++ (list ++ kept)) m' v frames'
      (copiedFlags mp) (bytesAt t mp)) :
    Copied s u root node node'' free free'' kept (frames' ++ frames) list mp m
      (m'.fill v frames' (copiedFlags mp)) fun x => done x ∨ v ≤ x ∧ x < v + frames'.length := by
  have nodup := (List.nodup_append.mp filled.pool.nodup).2.1
  have apart := (List.nodup_append.mp nodup).2.2
  have new (x : Nat) (h : v ≤ x ∧ x < v + frames'.length) : ∃ hi : x - v < frames'.length,
      m'.fill v frames' (copiedFlags mp) x = some (frames'[x - v], copiedFlags mp x) := by
    refine ⟨by omega, ?_⟩
    rw [PageMap.fill, if_pos h, List.getD_eq_getElem _ _ (by omega)]
  have former (x : Nat) (h : done x) : ¬(v ≤ x ∧ x < v + frames'.length) := by
    rintro ⟨le, lt⟩
    obtain ⟨pa, q, pa', -, here, -⟩ := copied.copy x h
    rw [filled.clear x le lt] at here
    cases here
  have keep (x : Nat) (h : done x) : m'.fill v frames' (copiedFlags mp) x = m' x := by
    rw [PageMap.fill, if_neg (former x h)]
  have unchanged (page : Nat) (mem : page ∈ frames) (j : Nat) (hj : j < PGSIZE) :
      u.mem (page + j) = t.mem (page + j) := by
    have member : page ∈ frames ++ (list ++ kept) := List.mem_append_left _ mem
    refine filled.within.kept page (copied.pool.usable page (List.mem_append_right _ member)).frame ?_ j hj
    rintro (again | has)
    · exact copied.pool.free_disjoint_data again member
    · exact copied.pool.apart page (List.mem_append_right _ member) has
  exact {
    pool := by
      rw [List.append_assoc]
      exact filled.pool
    maps := filled.maps
    copy := by
      rintro x (old | range)
      · obtain ⟨pa, q, pa', here, copy, mem, bytes⟩ := copied.copy x old
        refine ⟨pa, q, pa', here, (keep x old).trans copy, List.mem_append_right _ mem, fun j hj => ?_⟩
        rw [unchanged pa' mem j hj, bytes j hj]
      · obtain ⟨hi, copy⟩ := new x range
        obtain ⟨⟨pa, q⟩, here⟩ := Option.ne_none_iff_exists'.mp (present x range.1 range.2)
        have flags : copiedFlags mp x = q ||| PTE_V ||| PTE_MAT ||| PTE_D := by
          rw [copiedFlags, here]
          rfl
        refine ⟨pa, q, frames'[x - v], here, flags ▸ copy, List.mem_append_left _ (List.getElem_mem hi),
          fun j hj => ?_⟩
        have index : v + (x - v) = x := by omega
        rw [filled.content (x - v) hi j hj, index, bytesAt, here]
        exact copied.within.kept pa (source.maps.frames here).1 (source.apart here) j hj
    once := by
      rintro x y (oldx | rangex) (oldy | rangey) same
      · rw [keep x oldx, keep y oldy] at same
        exact copied.once x y oldx oldy same
      · obtain ⟨pa, q, pa', -, here, mem, -⟩ := copied.copy x oldx
        obtain ⟨hi, copy⟩ := new y rangey
        rw [keep x oldx, here, copy] at same
        have eq : pa' = frames'[y - v] := Option.some.inj same
        exact absurd eq.symm (apart _ (List.getElem_mem hi) pa' (List.mem_append_left _ mem))
      · obtain ⟨pa, q, pa', -, here, mem, -⟩ := copied.copy y oldy
        obtain ⟨hi, copy⟩ := new x rangex
        rw [keep y oldy, here, copy] at same
        have eq : frames'[x - v] = pa' := Option.some.inj same
        exact absurd eq (apart _ (List.getElem_mem hi) pa' (List.mem_append_left _ mem))
      · obtain ⟨hi, copy⟩ := new x rangex
        obtain ⟨hk, copy'⟩ := new y rangey
        rw [copy, copy'] at same
        have index := (List.Nodup.getElem_inj_iff (List.nodup_append.mp nodup).1).mp (Option.some.inj same)
        omega
    used := fun page mem => by
      rcases List.mem_append.mp mem with h | h
      · obtain ⟨i, hi, rfl⟩ := List.getElem_of_mem h
        obtain ⟨hk, copy⟩ := new (v + i) ⟨by omega, by omega⟩
        refine ⟨v + i, .inr ⟨by omega, by omega⟩, ?_⟩
        simp only [copy, Option.map_some, Nat.add_sub_cancel_left]
      · obtain ⟨x, old, here⟩ := copied.used page h
        exact ⟨x, .inl old, by rw [keep x old, here]⟩
    other := fun x away => by
      obtain ⟨old, range⟩ := not_or.mp away
      rw [PageMap.fill, if_neg range, copied.other x old]
    source := fun page mem => by
      rw [List.append_assoc] at mem
      exact (List.mem_append.mp mem).elim (fun h => copied.left page (filled.source page h))
        (copied.source page)
    has := fun page h => (filled.has page h).elim (copied.has page)
      fun mem => .inr (copied.left page mem)
    spent := fun page mem => by
      rw [List.append_assoc]
      rcases copied.spent page mem with h | h | h
      · exact (filled.spent page h).imp_right fun h => h.imp_left fun h => List.mem_append_left _ h
      · exact .inr (.inl (List.mem_append_right _ h))
      · exact .inr (.inr (filled.old page h))
    left := fun page mem => copied.left page (filled.left page mem)
    within := copied.within.trans (filled.within.mono copied.taken) }

/-- A page is taken for the list. -/
theorem Copied.handed {rest : List Nat} (some : free' = page :: rest) : ∃ u,
    kalloc t = .ok (page, u) ∧ Within (· = page) t u ∧
      Copied s u root node node' free rest kept frames (page :: list) mp m m' done := by
  subst some
  obtain ⟨u, run, pool, within⟩ := copied.pool.kalloc
  have mine : page ∈ free := copied.left page (by simp)
  have order : (page :: (frames ++ (list ++ kept))).Perm (frames ++ (page :: list ++ kept)) :=
    List.perm_middle.symm
  refine ⟨u, run, within, ?_⟩
  exact {
    pool := pool.perm order
    maps := copied.maps.congr fun x => entryAt_congr x fun h => within.kept _ (copied.pool.tree.frame h)
      fun eq => copied.pool.apart page (by simp) (eq ▸ ⟨_, _, h⟩)
    copy := fun x h => by
      obtain ⟨pa, q, pa', here, copy, mem, bytes⟩ := copied.copy x h
      refine ⟨pa, q, pa', here, copy, mem, fun j hj => ?_⟩
      have member : pa' ∈ frames ++ (list ++ kept) := List.mem_append_left _ mem
      rw [← bytes j hj]
      refine within.kept pa' (copied.pool.usable pa' (List.mem_append_right _ member)).frame ?_ j hj
      rintro rfl
      exact copied.pool.free_disjoint_data (by simp) member
    once := copied.once
    used := copied.used
    other := copied.other
    source := fun p mem => by
      rcases List.mem_cons.mp (List.perm_middle.mem_iff.mp mem) with rfl | h
      · exact mine
      · exact copied.source p h
    has := copied.has
    spent := fun p mem => by
      rcases copied.spent p mem with h | h | h
      · rcases List.mem_cons.mp h with rfl | h
        · exact .inr (.inl (List.perm_middle.mem_iff.mpr List.mem_cons_self))
        · exact .inl h
      · exact .inr (.inl (List.perm_middle.mem_iff.mpr (List.mem_cons_of_mem _ h)))
      · exact .inr (.inr h)
    left := fun p mem => copied.left p (List.mem_cons_of_mem _ mem)
    within := copied.within.trans (within.mono fun p eq => .inl (eq ▸ mine)) }

theorem Copied.reorder {list' : List Nat} (same : list.Perm list') :
    Copied s t root node node' free free' kept frames list' mp m m' done where
  pool := copied.pool.perm (List.Perm.append_left frames (List.Perm.append_right kept same))
  maps := copied.maps
  copy := copied.copy
  once := copied.once
  used := copied.used
  other := copied.other
  source page mem := copied.source page ((List.Perm.append_left frames same).mem_iff.mpr mem)
  has := copied.has
  spent page mem := (copied.spent page mem).imp_right fun h => h.imp_left fun h =>
    (List.Perm.append_left frames same).mem_iff.mp h
  left := copied.left
  within := copied.within

/-- The pages of the list may be written to. -/
theorem Copied.written (within : Within (· ∈ list) t u) (same : u.freelist = t.freelist) :
    Copied s u root node node' free free' kept frames list mp m m' done := by
  have own : Within (· ∈ frames ++ (list ++ kept)) t u := within.mono fun p mem =>
    List.mem_append_right _ (List.mem_append_left _ mem)
  exact {
    pool := copied.pool.written own same
    maps := copied.maps.congr fun x => copied.pool.entryAt_written own x
    copy := fun x h => by
      obtain ⟨pa, q, pa', here, copy, mem, bytes⟩ := copied.copy x h
      refine ⟨pa, q, pa', here, copy, mem, fun j hj => ?_⟩
      have member : pa' ∈ frames ++ (list ++ kept) := List.mem_append_left _ mem
      have nodup := (List.nodup_append.mp copied.pool.nodup).2.1
      rw [← bytes j hj]
      refine within.kept pa' (copied.pool.usable pa' (List.mem_append_right _ member)).frame ?_ j hj
      exact fun again => (List.nodup_append.mp nodup).2.2 pa' mem pa' (List.mem_append_left _ again) rfl
    once := copied.once
    used := copied.used
    other := copied.other
    source := copied.source
    has := copied.has
    spent := copied.spent
    left := copied.left
    within := copied.within.trans (within.mono fun p mem =>
      .inl (copied.source p (List.mem_append_right _ mem))) }

end Copied

end AvxKernel.Vm
