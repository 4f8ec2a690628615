import AvxKernel.Vm.Pool
import AvxKernel.Vm.Space
import Mathlib.Data.Finset.Card
import Mathlib.Order.Interval.Finset.Nat

/-! Filling a range of a table with new pages: the loop that `uvmalloc1`,
`uvmcopy` and `vma_map` share. It succeeds when there is memory for the pages and
for the table pages they need; when there is not, it takes back what it has
mapped; and it panics at a page that is mapped already. -/
namespace AvxKernel.Vm

/-- The entries of a table are those of a map. -/
structure Maps (s : Ram) (node : Nodes) (m : PageMap) : Prop where
  entries : ∀ va < MAXVA, entryAt s.mem node va = entryOf (m (va / PGSIZE))
  frames : ∀ {v pa perm}, m v = some (pa, perm) → Frame pa ∧ perm < 2 ^ 9

/-- The map with new frames from page `v` on. -/
def PageMap.fill (m : PageMap) (v : Nat) (frames : List Nat) (perm : Nat → Nat) : PageMap :=
  fun x => if v ≤ x ∧ x < v + frames.length then some (frames.getD (x - v) 0, perm x) else m x

/-- The table pages of a level that `n` pages from `v` on lack. -/
def lacking (node : Nodes) (l v n : Nat) : Nat :=
  (((Finset.Ico v (v + n)).image fun x => above l (x * PGSIZE)).filter fun q => node l q = none).card

/-- The pages of memory that `n` pages from `v` on take: their own, and those of
the table that are not there yet. -/
def need (node : Nodes) (v n : Nat) : Nat :=
  n + (lacking node 0 v n + lacking node 1 v n + lacking node 2 v n)

/-- A round of the loop: a page of memory, what goes into it, and its entry. -/
def mapWith (fill : Nat → Machine Ram Unit) (pagetable a perm : Nat) : Machine Ram Bool := do
  let mem ← kalloc
  if mem = 0 then
    return false
  else
    fill mem
    let r ← mappages pagetable a PGSIZE mem perm
    if r ≠ 0 then
      kfree mem
      return false
    else
      return true

theorem mapFresh_eq (pagetable a perm : Nat) :
    mapFresh pagetable a perm = mapWith (fun mem => memset mem 0 PGSIZE) pagetable a perm := rfl

variable {root page v n k : Nat} {node node' : Nodes} {free free' data frames : List Nat}
  {m : PageMap} {s t u : Ram}

theorem lacking_succ {l : Nat} (present : ∀ q, node' l q ≠ none ↔ node l q ≠ none ∨
    q = above l (v * PGSIZE)) : lacking node l v (n + 1) =
      (if node l (above l (v * PGSIZE)) = none then 1 else 0) + lacking node' l (v + 1) n := by
  have range : Finset.Ico v (v + (n + 1)) = insert v (Finset.Ico (v + 1) (v + 1 + n)) := by
    ext x
    simp only [Finset.mem_insert, Finset.mem_Ico]
    omega
  have gone (q : Nat) : node' l q = none ↔ node l q = none ∧ q ≠ above l (v * PGSIZE) := by
    have := present q
    grind
  rw [lacking, range, Finset.image_insert, Finset.filter_insert]
  split
  · -- the first page lacks this table page, which later pages then have
    rename_i gap
    have rest : insert (above l (v * PGSIZE)) (((Finset.Ico (v + 1) (v + 1 + n)).image
          fun x => above l (x * PGSIZE)).filter fun q => node l q = none) =
        insert (above l (v * PGSIZE)) (((Finset.Ico (v + 1) (v + 1 + n)).image
          fun x => above l (x * PGSIZE)).filter fun q => node' l q = none) := by
      ext q
      simp only [Finset.mem_insert, Finset.mem_filter, gone]
      grind
    rw [rest, Finset.card_insert_of_notMem (by simp [gone]), Nat.add_comm]
    rfl
  · rename_i some
    rw [Nat.zero_add, lacking]
    congr 1
    ext q
    simp only [Finset.mem_filter, gone]
    grind

theorem need_succ (present : ∀ l q, node' l q ≠ none ↔ node l q ≠ none ∨ l < 3 ∧
    q = above l (v * PGSIZE)) :
    need node v (n + 1) = 1 + missing node (v * PGSIZE) 3 + need node' (v + 1) n := by
  have level (l : Nat) (hl : l < 3) : lacking node l v (n + 1) =
      (if node l (above l (v * PGSIZE)) = none then 1 else 0) + lacking node' l (v + 1) n :=
    lacking_succ fun q => by simpa [hl] using present l q
  simp only [need, missing, level 0 (by omega), level 1 (by omega), level 2 (by omega)]
  omega

theorem need_ge : 1 + missing node (v * PGSIZE) 3 ≤ need node v (n + 1) := by
  have grown : ∀ l q, (if l < 3 ∧ q = above l (v * PGSIZE) then some 0 else node l q) ≠ none ↔
      node l q ≠ none ∨ l < 3 ∧ q = above l (v * PGSIZE) := by grind
  rw [need_succ grown]
  omega

@[simp] theorem need_zero : need node v 0 = 0 := by simp [need, lacking]

/-! ### One page -/

theorem Maps.congr (maps : Maps s node m)
    (same : ∀ x, entryAt t.mem node' x = entryAt s.mem node x) : Maps t node' m where
  entries va low := (same va).trans (maps.entries va low)
  frames := maps.frames

/-- What `walk` finds for a page of the map. -/
theorem Maps.walk {va pa perm : Nat} (maps : Maps s node m) (tree : Tree s.mem root node)
    (low : va < MAXVA) (here : m (va / PGSIZE) = some (pa, perm)) : ∃ pte,
      Vm.walk root va false s = .ok (pte, s) ∧ pte ≠ 0 ∧ s.mem.fetch pte 8 = leaf pa perm := by
  have entry := maps.entries va low
  rw [here, entryOf, entryAt] at entry
  have walked := walk_find tree low
  cases hb : node 0 (above 0 va) with
  | none =>
    have valid := leaf_valid pa perm
    rw [hb] at entry
    rw [← entry] at valid
    simp at valid
  | some b =>
    rw [hb] at entry walked
    have pos := (tree.frame hb).pos
    exact ⟨_, walked, by simp only [Option.elim_some]; omega, entry⟩

theorem Maps.present {va : Nat} (maps : Maps s node m) (tree : Tree s.mem root node)
    (low : va < MAXVA) (some : m (va / PGSIZE) ≠ none) : ∃ pte,
      Vm.walk root va false s = .ok (pte, s) ∧ pte ≠ 0 ∧ s.mem.fetch pte 8 &&& PTE_V ≠ 0 := by
  obtain ⟨⟨pa, perm⟩, here⟩ := Option.ne_none_iff_exists'.mp some
  obtain ⟨pte, walked, found, entry⟩ := maps.walk tree low here
  exact ⟨pte, walked, found, entry ▸ leaf_valid pa perm⟩

/-- A new value for the leaf entry of a page. -/
theorem Pool.setLeaf (pool : Pool s root node free data) {va b : Nat} (value : Nat)
    (hb : node 0 (above 0 va) = some b) :
    Pool (s.setMem (s.mem.store (b + 8 * PX 0 va) 8 value)) root node free data ∧
      Within node.Has s (s.setMem (s.mem.store (b + 8 * PX 0 va) 8 value)) := by
  have frame := pool.tree.frame hb
  have hpx := PX_lt 0 va
  have within : Within (· = b) s (s.setMem (s.mem.store (b + 8 * PX 0 va) 8 value)) :=
    .setMem frame fun x outside => Memory.store_outside _ (by rw [PGSIZE] at outside; omega)
  have has : node.Has b := ⟨_, _, hb⟩
  refine ⟨?_, within.mono fun page eq => eq ▸ has⟩
  exact {
    tree := pool.tree.setLeaf value hb
    links := pool.links.congr fun page mem => within.kept page
      (pool.usable page (List.mem_append_left _ mem)).frame
      fun eq => pool.apart page (List.mem_append_left _ mem) (eq ▸ has)
    usable := fun page mem => (pool.usable page mem).within within
    nodup := pool.nodup
    apart := pool.apart }

/-- A new frame in the map. -/
theorem Maps.setLeaf (maps : Maps s node m) (tree : Tree s.mem root node) {va b pa perm : Nat}
    (frame : Frame pa) (flags : perm < 2 ^ 9) (hb : node 0 (above 0 va) = some b) :
    Maps (s.setMem (s.mem.store (b + 8 * PX 0 va) 8 (leaf pa perm))) node
      fun x => if x = va / PGSIZE then some (pa, perm) else m x where
  entries x low := by
    rw [Ram.setMem_mem, tree.setLeaf_entryAt (leaf_lt pa flags) hb, maps.entries x low]
    split
    · rfl
    · rfl
  frames := by
    intro x pa' perm' hx
    split at hx
    · cases hx
      exact ⟨frame, flags⟩
    · exact maps.frames hx

/-- No entry for a page. -/
theorem Maps.clearLeaf (maps : Maps s node m) (tree : Tree s.mem root node) {va b : Nat}
    (hb : node 0 (above 0 va) = some b) :
    Maps (s.setMem (s.mem.store (b + 8 * PX 0 va) 8 0)) node
      fun x => if x = va / PGSIZE then none else m x where
  entries x low := by
    rw [Ram.setMem_mem, tree.setLeaf_entryAt (by decide) hb, maps.entries x low]
    split
    · rfl
    · rfl
  frames := by
    intro x pa perm hx
    split at hx
    · cases hx
    · exact maps.frames hx

theorem page_index (v : Nat) : v * PGSIZE / PGSIZE = v := Nat.mul_div_cancel v (by decide)

theorem mappages_page (small : v * PGSIZE + PGSIZE ≤ 2 ^ 64) (pa perm : Nat) :
    mappages root (v * PGSIZE) PGSIZE pa perm s = (do
      let pte ← walk root (v * PGSIZE) true
      if pte = 0 then
        return -1
      else
        let entry ← load pte
        if entry &&& PTE_V ≠ 0 then
          Machine.panic "remap"
        else
          store pte (leaf pa perm)
          return 0 : Machine Ram Int) s := by
  have last : PGROUNDDOWN (u64 (v * PGSIZE + PGSIZE - 1)) = v * PGSIZE := by
    rw [u64, Nat.mod_eq_of_lt (by rw [PGSIZE] at *; omega), PGROUNDDOWN]
    congr 1
    rw [PGSIZE]
    omega
  have first : PGROUNDDOWN (v * PGSIZE) = v * PGSIZE := by rw [PGROUNDDOWN, page_index]
  rw [mappages, if_neg (by decide), last, first, show PAGES = PAGES - 1 + 1 by decide, mappagesFrom]
  simp only [if_true]

/-- What `mappages` does to a table at one page: it adds the entry, or, where the
walk fails, nothing but table pages. -/
theorem Pool.mapPage (pool : Pool s root node free data) (maps : Maps s node m) {pa perm : Nat}
    (low : v * PGSIZE < MAXVA) (gap : m v = none) (frame : Frame pa) (flags : perm < 2 ^ 9) :
    ∃ r t node' free', mappages root (v * PGSIZE) PGSIZE pa perm s = .ok (r, t) ∧
      Pool t root node' free' data ∧
      (∀ page, node'.Has page → node.Has page ∨ page ∈ free) ∧
      (∀ page, node.Has page → node'.Has page) ∧
      (∀ page ∈ free, page ∈ free' ∨ node'.Has page) ∧ (∀ page ∈ free', page ∈ free) ∧
      Within (fun page => page ∈ free ∨ node.Has page) s t ∧
      (missing node (v * PGSIZE) 3 ≤ free.length → r = 0 ∧
        Maps t node' (fun x => if x = v then some (pa, perm) else m x) ∧
        free'.length + missing node (v * PGSIZE) 3 = free.length ∧
        ∀ l q, node' l q ≠ none ↔ node l q ≠ none ∨ l < 3 ∧ q = above l (v * PGSIZE)) ∧
      (free.length < missing node (v * PGSIZE) 3 → r = -1 ∧ Maps t node' m) := by
  have low' : v * PGSIZE < 2 ^ 46 := low
  have small : v * PGSIZE + PGSIZE ≤ 2 ^ 64 := by
    rw [PGSIZE] at *
    omega
  obtain ⟨pte, u, node', free', walked, grows, enough, short⟩ := pool.walkLevels (Nat.le_refl 3)
    (show node 3 (above 3 (v * PGSIZE)) = some root by rw [above_top low, pool.tree.root])
  have walk : walk root (v * PGSIZE) true s = .ok (pte, u) := by
    rw [Vm.walk, if_neg (by simp [window_of_lt low]), if_neg (by omega), walked]
  have maps' := maps.congr grows.same
  rw [mappages_page small, Machine.bind_of_ok walk]
  rcases Nat.lt_or_ge free.length (missing node (v * PGSIZE) 3) with lt | le
  · obtain ⟨rfl, rfl⟩ := short lt
    rw [if_pos rfl]
    exact ⟨-1, u, node', [], rfl, grows.pool, grows.has, grows.old, grows.spent, grows.left,
      grows.within, fun le => absurd lt (Nat.not_lt.mpr le), fun _ => ⟨rfl, maps'⟩⟩
  · obtain ⟨count, ⟨b, hb, rfl⟩, present⟩ := enough le
    have pos := (grows.pool.tree.frame hb).pos
    have entry := maps'.entries (v * PGSIZE) low
    rw [page_index, gap] at entry
    simp only [entryAt, hb, entryOf] at entry
    obtain ⟨pool', within⟩ := grows.pool.setLeaf (leaf pa perm) hb
    have mapped := maps'.setLeaf grows.pool.tree frame flags hb
    rw [page_index] at mapped
    rw [if_neg (by omega), Machine.bind_of_ok (load_run _ u), entry, Nat.zero_and, if_neg (by simp),
      Machine.bind_of_ok (store_run _ _ u)]
    exact ⟨0, _, node', free', rfl, pool', grows.has, grows.old, grows.spent, grows.left,
      grows.within.trans (within.mono fun page has => (grows.has page has).symm),
      fun _ => ⟨rfl, mapped, count, present⟩, fun lt => absurd lt (Nat.not_lt.mpr le)⟩

/-- A page that is mapped, or that is above the table. -/
def Bad (m : PageMap) (v : Nat) : Prop :=
  v * PGSIZE < MAXVA ∧ m v ≠ none ∨ MAXVA ≤ v * PGSIZE ∧ v * PGSIZE &&& DMWIN_MASK = 0

theorem Pool.mapPage_bad (pool : Pool s root node free data) (maps : Maps s node m) {pa perm : Nat}
    (small : v * PGSIZE + PGSIZE ≤ 2 ^ 64) (bad : Bad m v) :
    ∃ e, mappages root (v * PGSIZE) PGSIZE pa perm s = .error e := by
  rw [mappages_page small]
  obtain ⟨low, mapped⟩ | ⟨high, window⟩ := bad
  · obtain ⟨pte, u, node', free', walked, grows, enough, -⟩ := pool.walkLevels (Nat.le_refl 3)
      (show node 3 (above 3 (v * PGSIZE)) = some root by rw [above_top low, pool.tree.root])
    have walk : walk root (v * PGSIZE) true s = .ok (pte, u) := by
      rw [Vm.walk, if_neg (by simp [window_of_lt low]), if_neg (by omega), walked]
    have entry := maps.entries (v * PGSIZE) low
    rw [page_index] at entry
    obtain ⟨⟨pa', perm'⟩, hm⟩ := Option.ne_none_iff_exists'.1 mapped
    rw [hm, entryOf] at entry
    -- a mapped page lacks no table page
    have found : node 0 (above 0 (v * PGSIZE)) ≠ none := by
      intro gap
      simp only [entryAt, gap] at entry
      have valid := leaf_valid pa' perm'
      rw [← entry, Nat.zero_and] at valid
      exact valid rfl
    have present : ∀ l ≤ 3, node l (above l (v * PGSIZE)) ≠ none := fun l hl gap =>
      found (pool.tree.leaf_none hl gap)
    have none_missing : missing node (v * PGSIZE) 3 = 0 := by
      simp [missing, present 0, present 1, present 2]
    obtain ⟨-, ⟨b, hb, rfl⟩, -⟩ := enough (by omega)
    have pos := (grows.pool.tree.frame hb).pos
    have entry' := grows.same (v * PGSIZE)
    rw [entry] at entry'
    simp only [entryAt, hb] at entry'
    rw [Machine.bind_of_ok walk, if_neg (by omega), Machine.bind_of_ok (load_run _ u), entry',
      if_pos (leaf_valid pa' perm')]
    exact ⟨_, rfl⟩
  · have walk : walk root (v * PGSIZE) true s = .error (.panic "walk") := by
      rw [Vm.walk, if_neg (by simp [window]), if_pos high]
      rfl
    exact ⟨_, Machine.bind_of_error walk⟩

/-! ### A range of pages -/

/-- Between `s` and `t`, the pages from `v` on have been given new frames. -/
structure Filled (s t : Ram) (root : Nat) (node node' : Nodes) (free free' data : List Nat)
    (m : PageMap) (v : Nat) (frames : List Nat) (perm : Nat → Nat) (content : Nat → Nat → UInt8) :
    Prop where
  pool : Pool t root node' free' (frames ++ data)
  maps : Maps t node' (m.fill v frames perm)
  content : ∀ i (h : i < frames.length), ∀ j < PGSIZE, t.mem (frames[i] + j) = content (v + i) j
  clear : ∀ x, v ≤ x → x < v + frames.length → m x = none
  source : ∀ page ∈ frames, page ∈ free
  has : ∀ page, node'.Has page → node.Has page ∨ page ∈ free
  old : ∀ page, node.Has page → node'.Has page
  spent : ∀ page ∈ free, page ∈ free' ∨ page ∈ frames ∨ node'.Has page
  left : ∀ page ∈ free', page ∈ free
  within : Within (fun page => page ∈ free ∨ node.Has page) s t

variable {perm : Nat → Nat} {content : Nat → Nat → UInt8}

theorem PageMap.fill_nil (m : PageMap) (v : Nat) : m.fill v [] perm = m := by
  funext x
  rw [PageMap.fill, if_neg (by simp)]

theorem PageMap.fill_snoc (m : PageMap) (v : Nat) (frames : List Nat) (page : Nat) :
    m.fill v (frames ++ [page]) perm =
      fun x => if x = v + frames.length then some (page, perm x) else m.fill v frames perm x := by
  funext x
  simp only [PageMap.fill, List.length_append, List.length_singleton]
  by_cases last : x = v + frames.length
  · subst last
    rw [if_pos (by omega), if_pos rfl, List.getD_append_right _ _ _ _ (by omega)]
    simp
  · by_cases before : v ≤ x ∧ x < v + frames.length
    · rw [if_pos (by omega), if_neg last, if_pos before, List.getD_append _ _ _ _ (by omega)]
    · rw [if_neg (by omega), if_neg last, if_neg before]

theorem Filled.start (pool : Pool s root node free data) (maps : Maps s node m) :
    Filled s s root node node free free data m v [] perm content where
  pool := pool
  maps := by rwa [PageMap.fill_nil]
  content := nofun
  clear x le lt := absurd lt (by simpa using le)
  source := nofun
  has _ := .inl
  old _ := id
  spent _ := .inl
  left _ := id
  within := .refl s

/-- Writes a page, with the bytes that are meant for a place. -/
def Writes (write : Nat → Machine Ram Unit) (s : Ram) (page : Nat) (bytes : Nat → UInt8) : Prop :=
  ∃ mem, write page s = .ok ((), s.setMem mem) ∧
    (∀ x, x < page ∨ page + PGSIZE ≤ x → mem x = s.mem x) ∧
    ∀ j < PGSIZE, mem (page + j) = bytes j

section Round

variable (filled : Filled s t root node node' free free' data m v frames perm content)
  {write : Nat → Machine Ram Unit}
include filled

theorem Filled.round_empty (none : free' = []) {a p : Nat} :
    mapWith write root a p t = .ok (false, t) := by
  subst none
  rw [mapWith, Machine.bind_of_ok (kalloc_empty filled.pool), if_pos rfl, Machine.pure_run]

theorem Filled.round_bad (stock : free' ≠ [])
    (small : (v + frames.length) * PGSIZE + PGSIZE ≤ 2 ^ 64) (bad : Bad m (v + frames.length))
    (writes : ∀ u page, page ∈ free → Within (fun page => page ∈ free ∨ node.Has page) s u →
      Writes write u page (content (v + frames.length))) {p : Nat} :
    ∃ e, mapWith write root ((v + frames.length) * PGSIZE) p t = .error e := by
  obtain ⟨page, rest, rfl⟩ := List.exists_cons_of_ne_nil stock
  obtain ⟨u, run, pool, within⟩ := filled.pool.kalloc
  have mem : page ∈ free := filled.left page (by simp)
  have pos := (filled.pool.usable page (by simp)).frame.pos
  obtain ⟨bytes, wrote, outside, -⟩ := writes u page mem
    (filled.within.trans (within.mono fun other eq => .inl (eq ▸ mem)))
  have inside : Within (· ∈ page :: (frames ++ data)) u (u.setMem bytes) :=
    (Within.setMem (pool.usable page (by simp)).frame outside).mono fun other eq => by simp [eq]
  have pool' := pool.written inside rfl
  have maps' : Maps (u.setMem bytes) node' (m.fill v frames perm) :=
    (filled.maps.congr fun x => entryAt_congr x fun h => within.kept _ (pool.tree.frame h) fun eq =>
      filled.pool.apart page (by simp) (eq ▸ ⟨_, _, h⟩)).congr fun x => pool.entryAt_written inside x
  have bad' : Bad (m.fill v frames perm) (v + frames.length) := by
    rw [Bad, PageMap.fill, if_neg (by omega)]
    exact bad
  have failing : ∃ e, mappages root ((v + frames.length) * PGSIZE) PGSIZE page p (u.setMem bytes) =
      .error e := pool'.mapPage_bad maps' small bad'
  obtain ⟨e, failed⟩ := failing
  refine ⟨e, ?_⟩
  rw [mapWith, Machine.bind_of_ok run, if_neg (by omega), Machine.bind_of_ok wrote,
    Machine.bind_of_error failed]

/-- A round at a page that is free to be mapped. -/
theorem Filled.round (stock : free' ≠ []) (low : (v + frames.length) * PGSIZE < MAXVA)
    (gap : m (v + frames.length) = none) (flags : perm (v + frames.length) < 2 ^ 9)
    (writes : ∀ u page, page ∈ free → Within (fun page => page ∈ free ∨ node.Has page) s u →
      Writes write u page (content (v + frames.length))) :
    (1 + missing node' ((v + frames.length) * PGSIZE) 3 ≤ free'.length →
      ∃ page t' node'' free'', mapWith write root ((v + frames.length) * PGSIZE)
          (perm (v + frames.length)) t = .ok (true, t') ∧
        Filled s t' root node node'' free free'' data m v (frames ++ [page]) perm content ∧
        free''.length + (1 + missing node' ((v + frames.length) * PGSIZE) 3) = free'.length ∧
        ∀ l q, node'' l q ≠ none ↔ node' l q ≠ none ∨
          l < 3 ∧ q = above l ((v + frames.length) * PGSIZE)) ∧
    (free'.length < 1 + missing node' ((v + frames.length) * PGSIZE) 3 →
      ∃ t' node'' free'', mapWith write root ((v + frames.length) * PGSIZE)
          (perm (v + frames.length)) t = .ok (false, t') ∧
        Filled s t' root node node'' free free'' data m v frames perm content) := by
  obtain ⟨page, rest, rfl⟩ := List.exists_cons_of_ne_nil stock
  obtain ⟨u, run, pool, within⟩ := filled.pool.kalloc
  have mem : page ∈ free := filled.left page (by simp)
  have frame := (filled.pool.usable page (by simp)).frame
  have pos := frame.pos
  obtain ⟨bytes, wrote, outside, filled_page⟩ := writes u page mem
    (filled.within.trans (within.mono fun other eq => .inl (eq ▸ mem)))
  have inside : Within (· = page) u (u.setMem bytes) := .setMem frame outside
  have own : Within (· ∈ page :: (frames ++ data)) u (u.setMem bytes) :=
    inside.mono fun other eq => by simp [eq]
  have pool' := pool.written own rfl
  have maps' : Maps (u.setMem bytes) node' (m.fill v frames perm) :=
    (filled.maps.congr fun x => entryAt_congr x fun h => within.kept _ (pool.tree.frame h) fun eq =>
      filled.pool.apart page (by simp) (eq ▸ ⟨_, _, h⟩)).congr fun x => pool.entryAt_written own x
  have gap' : m.fill v frames perm (v + frames.length) = none := by
    rw [PageMap.fill, if_neg (by omega), gap]
  obtain ⟨r, w, node'', free'', mapped, pool'', has, old, spent, left, kept, enough, short⟩ :=
    pool'.mapPage maps' low gap' frame flags
  -- of the pages that hold data, only the new one has changed
  have changed : Within (fun x => x = page ∨ x ∈ rest ∨ node'.Has x) t w :=
    (within.mono fun _ => .inl).trans <| (inside.mono fun _ => .inl).trans <|
      kept.mono fun _ => .inr
  have seen : Within (fun page => page ∈ free ∨ node.Has page) s w :=
    filled.within.trans <| changed.mono fun x h => by
      rcases h with rfl | h | h
      · exact .inl mem
      · exact .inl (filled.left x (by simp [h]))
      · exact (filled.has x h).symm
  have has' (x : Nat) (h : node''.Has x) : node.Has x ∨ x ∈ free :=
    (has x h).elim (filled.has x) fun h => .inr (filled.left x (by simp [h]))
  have old' (x : Nat) (h : node.Has x) : node''.Has x := old x (filled.old x h)
  have left' (x : Nat) (h : x ∈ free'') : x ∈ free := filled.left x (by simp [left x h])
  have spent' (x : Nat) (h : x ∈ free) : x ∈ free'' ∨ x = page ∨ x ∈ frames ∨ node''.Has x := by
    rcases filled.spent x h with h | h | h
    · rcases List.mem_cons.mp h with h | h
      · exact .inr (.inl h)
      · exact (spent x h).imp_right fun h => .inr (.inr h)
    · exact .inr (.inr (.inl h))
    · exact .inr (.inr (.inr (old x h)))
  have kept_frame (x : Nat) (h : x ∈ frames) (j : Nat) (hj : j < PGSIZE) :
      w.mem (x + j) = t.mem (x + j) := by
    have owned : x ∈ page :: rest ++ (frames ++ data) := by simp [h]
    refine changed.kept x (filled.pool.usable x owned).frame (fun away => ?_) j hj
    have apart := filled.pool.free_disjoint_data (x := x)
    rcases away with rfl | h' | h'
    · exact apart (by simp) (by simp [h])
    · exact apart (by simp [h']) (by simp [h])
    · exact filled.pool.apart x owned h'
  rw [mapWith, Machine.bind_of_ok run, if_neg (by omega), Machine.bind_of_ok wrote,
    Machine.bind_of_ok mapped]
  constructor
  · intro le
    rw [List.length_cons] at le
    obtain ⟨rfl, maps'', count, present⟩ := enough (by omega)
    have order : (page :: (frames ++ data)).Perm (frames ++ [page] ++ data) := by
      rw [List.append_assoc]
      exact List.perm_middle.symm
    rw [if_neg (by simp)]
    refine ⟨page, w, node'', free'', rfl, ?_, by rw [List.length_cons]; omega, present⟩
    exact {
      pool := pool''.perm order
      maps := by
        rw [PageMap.fill_snoc]
        have same : (fun x => if x = v + frames.length then some (page, perm (v + frames.length))
            else m.fill v frames perm x) =
            fun x => if x = v + frames.length then some (page, perm x)
              else m.fill v frames perm x := by
          funext x
          split
          · rename_i eq
            rw [eq]
          · rfl
        rwa [same] at maps''
      content := fun i hi j hj => by
        rw [List.length_append, List.length_singleton] at hi
        rcases Nat.lt_succ_iff_lt_or_eq.1 hi with before | rfl
        · rw [List.getElem_append_left before, kept_frame _ (List.getElem_mem before) j hj,
            filled.content i before j hj]
        · rw [List.getElem_concat_length rfl]
          have away : ¬(page ∈ rest ∨ node'.Has page) := by
            rintro (again | h)
            · exact (List.nodup_cons.mp filled.pool.nodup).1 (List.mem_append_left _ again)
            · exact filled.pool.apart page (by simp) h
          rw [kept.kept page frame away j hj]
          exact filled_page j hj
      clear := fun x le lt => by
        rw [List.length_append, List.length_singleton] at lt
        by_cases last : x = v + frames.length
        · exact last ▸ gap
        · exact filled.clear x le (by omega)
      source := fun x h => by
        rcases List.mem_append.mp h with h | h
        · exact filled.source x h
        · exact List.mem_singleton.mp h ▸ mem
      has := has'
      old := old'
      spent := fun x h => by
        rcases spent' x h with h | rfl | h | h
        · exact .inl h
        · exact .inr (.inl (by simp))
        · exact .inr (.inl (by simp [h]))
        · exact .inr (.inr h)
      left := left'
      within := seen }
  · intro lt
    rw [List.length_cons] at lt
    obtain ⟨rfl, maps''⟩ := short (by omega)
    obtain ⟨t', freed, pool₃, within₃⟩ := pool''.kfree
    rw [if_pos (by decide), Machine.bind_of_ok freed]
    refine ⟨t', node'', page :: free'', rfl, ?_⟩
    exact {
      pool := pool₃
      maps := maps''.congr fun x => entryAt_congr x fun h =>
        within₃.kept _ (pool''.tree.frame h) fun eq => pool''.apart page (by simp) (eq ▸ ⟨_, _, h⟩)
      content := fun i hi j hj => by
        have ne : frames[i] ≠ page := fun eq => filled.pool.free_disjoint_data (x := page) (by simp)
          (by rw [← eq]; simp)
        have usable := filled.pool.usable frames[i] (by simp)
        rw [within₃.kept _ usable.frame ne j hj, kept_frame _ (List.getElem_mem hi) j hj,
          filled.content i hi j hj]
      clear := filled.clear
      source := filled.source
      has := has'
      old := old'
      spent := fun x h => by
        rcases spent' x h with h | rfl | h
        · exact .inl (List.mem_cons_of_mem _ h)
        · exact .inl (by simp)
        · exact .inr h
      left := fun x h => by
        rcases List.mem_cons.mp h with rfl | h
        · exact mem
        · exact left' x h
      within := seen.trans (within₃.mono fun x eq => .inl (eq ▸ mem)) }

end Round

/-! ### Taking the pages back -/

/-- Each of the pages is unmapped, and its frame is free again. -/
theorem Pool.unmap (pool : Pool s root node free (frames ++ data)) (maps : Maps s node m)
    (low : (v + frames.length) * PGSIZE ≤ MAXVA)
    (mapped : ∀ i (h : i < frames.length), ∃ p, m (v + i) = some (frames[i], p))
    {rounds : Nat} (more : frames.length < rounds) :
    ∃ t, vmunmapFrom root ((v + frames.length) * PGSIZE) true rounds (v * PGSIZE) s = .ok ((), t) ∧
      Pool t root node (frames.reverse ++ free) data ∧
      Maps t node (m.unmapRange v frames.length) ∧
      Within (fun page => page ∈ frames ∨ node.Has page) s t := by
  induction frames generalizing s v m free rounds with
  | nil =>
    obtain ⟨rounds, rfl⟩ : ∃ r, rounds = r + 1 := ⟨rounds - 1, by simp at more; omega⟩
    have none : m.unmapRange v 0 = m := by
      funext x
      rw [PageMap.unmapRange, if_neg (by omega)]
    refine ⟨s, ?_, pool, by rwa [List.length_nil, none], .refl s⟩
    rw [vmunmapFrom, if_neg (by simp)]
    rfl
  | cons page frames ih =>
    rw [List.length_cons] at low more
    obtain ⟨rounds, rfl⟩ : ∃ r, rounds = r + 1 := ⟨rounds - 1, by omega⟩
    have here : v * PGSIZE < MAXVA :=
      lt_of_lt_of_le (Nat.mul_lt_mul_of_pos_right (by omega) (by decide)) low
    obtain ⟨p, hm⟩ := mapped 0 (by simp)
    rw [Nat.add_zero, List.getElem_cons_zero] at hm
    obtain ⟨frame, flags⟩ := maps.frames hm
    have entry := maps.entries _ here
    rw [page_index, hm, entryOf] at entry
    have valid := leaf_valid page p
    obtain ⟨b, hb⟩ : ∃ b, node 0 (above 0 (v * PGSIZE)) = some b := by
      cases hb : node 0 (above 0 (v * PGSIZE)) with
      | some b => exact ⟨b, rfl⟩
      | none =>
        simp only [entryAt, hb] at entry
        rw [← entry, Nat.zero_and] at valid
        exact absurd rfl valid
    simp only [entryAt, hb] at entry
    have pos := (pool.tree.frame hb).pos
    obtain ⟨u, freed, pool₁, within₁⟩ := pool.kfree
    have maps₁ : Maps u node m := maps.congr fun x => entryAt_congr x fun h =>
      within₁.kept _ (pool.tree.frame h) fun eq => pool.apart page (by simp) (eq ▸ ⟨_, _, h⟩)
    obtain ⟨pool₂, within₂⟩ := pool₁.setLeaf 0 hb
    have maps₂ := maps₁.clearLeaf pool₁.tree hb
    rw [page_index] at maps₂
    have shift (i : Nat) : v + 1 + i = v + (i + 1) := by omega
    have mapped' (i : Nat) (hi : i < frames.length) :
        ∃ p', (if v + 1 + i = v then none else m (v + 1 + i)) = some (frames[i], p') := by
      obtain ⟨p', hp⟩ := mapped (i + 1) (by simpa using hi)
      rw [List.getElem_cons_succ] at hp
      exact ⟨p', by rw [if_neg (by omega), shift, hp]⟩
    obtain ⟨t, run, pool₃, maps₃, within₃⟩ := ih (v := v + 1) pool₂ maps₂
      (by rw [shift]; exact low) mapped' (show frames.length < rounds by omega)
    have next : u64 (v * PGSIZE + PGSIZE) = (v + 1) * PGSIZE := by
      have below : (v + 1) * PGSIZE ≤ MAXVA := le_trans (Nat.mul_le_mul_right _ (by omega)) low
      rw [Nat.succ_mul] at below ⊢
      exact Nat.mod_eq_of_lt (lt_of_le_of_lt below (by decide))
    refine ⟨t, ?_, ?_, ?_, ?_⟩
    · have before : v * PGSIZE < (v + (page :: frames).length) * PGSIZE := by
        have longer : v < v + (page :: frames).length := by simp
        exact Nat.mul_lt_mul_of_pos_right longer (by decide)
      rw [vmunmapFrom, if_pos before,
        Machine.bind_of_ok (walk_find pool.tree here), hb, Option.elim_some, if_neg (by omega),
        Machine.bind_of_ok (load_run _ s), entry, if_neg valid, if_neg (PTE_FLAGS_leaf_ne _ flags),
        if_pos rfl, PTE2PA_leaf frame flags, frame_window frame, Machine.bind_of_ok freed,
        Machine.bind_of_ok (store_run _ _ u), next, List.length_cons, ← shift]
      exact run
    · simpa using pool₃
    · have same : m.unmapRange v (frames.length + 1) =
          PageMap.unmapRange (fun x => if x = v then none else m x) (v + 1) frames.length := by
        funext x
        simp only [PageMap.unmapRange]
        grind
      rwa [List.length_cons, same]
    · exact (within₁.mono fun x eq => .inl (by simp [eq])).trans <|
        (within₂.mono fun _ => .inr).trans <| within₃.mono fun x h => h.imp_left fun h => by simp [h]

theorem Filled.restore (filled : Filled s t root node node' free free' data m v frames perm content)
    (low : (v + frames.length) * PGSIZE ≤ MAXVA) : ∃ u free'',
      vmunmap root (v * PGSIZE) frames.length true t = .ok ((), u) ∧
      Filled s u root node node' free free'' data m v [] perm content := by
  have sum : (v + frames.length) * PGSIZE = v * PGSIZE + frames.length * PGSIZE := Nat.add_mul _ _ _
  have small : MAXVA < 2 ^ 64 := by decide
  have stop : u64 (v * PGSIZE + u64 (frames.length * PGSIZE)) = (v + frames.length) * PGSIZE := by
    rw [u64, u64, Nat.mod_eq_of_lt (show frames.length * PGSIZE < 2 ^ 64 by omega),
      Nat.mod_eq_of_lt (by omega), sum]
  have mapped (i : Nat) (h : i < frames.length) :
      ∃ p, m.fill v frames perm (v + i) = some (frames[i], p) := by
    refine ⟨perm (v + i), ?_⟩
    rw [PageMap.fill, if_pos (by omega), Nat.add_sub_cancel_left, List.getD_eq_getElem _ _ h]
  have rounds : frames.length < PAGES + 1 := by
    have le : frames.length * PGSIZE ≤ MAXVA := by omega
    have : MAXVA ≤ PAGES * PGSIZE := by decide
    exact Nat.lt_succ_of_le (Nat.le_of_mul_le_mul_right (le_trans le this) (by decide))
  obtain ⟨u, run, pool, maps, within⟩ := filled.pool.unmap filled.maps low mapped rounds
  have same : (m.fill v frames perm).unmapRange v frames.length = m.fill v [] perm := by
    rw [PageMap.fill_nil]
    funext x
    rw [PageMap.unmapRange]
    split
    · rename_i inside
      exact (filled.clear x inside.1 inside.2).symm
    · rename_i outside
      rw [PageMap.fill, if_neg outside]
  refine ⟨u, frames.reverse ++ free', ?_, ?_⟩
  · rw [vmunmap, if_neg (by simp [Nat.mul_mod_left]), stop]
    exact run
  · exact {
      pool := pool
      maps := same ▸ maps
      content := fun _ lt => absurd lt (Nat.not_lt_zero _)
      clear := fun x le lt => absurd lt (by simpa using le)
      source := List.forall_mem_nil _
      has := filled.has
      old := filled.old
      spent := fun page mem => by
        rcases filled.spent page mem with h | h | h
        · exact .inl (by simp [h])
        · exact .inl (by simp [h])
        · exact .inr (.inr h)
      left := fun page mem => by
        rcases List.mem_append.mp mem with h | h
        · exact filled.source page (by simpa using h)
        · exact filled.left page h
      within := filled.within.trans <| within.mono fun page h => by
        rcases h with h | h
        · exact .inl (filled.source page h)
        · exact (filled.has page h).symm }

/-- There are not many pages of memory. -/
theorem length_lt_of_usable {pages : List Nat} (nodup : pages.Nodup)
    (usable : ∀ page ∈ pages, Usable s page) : pages.length < 2 ^ 20 := by
  have inside : (pages.map fun page => (page - DMWIN_MASK) / PGSIZE).toFinset ⊆
      Finset.range (2 ^ 20 - 1) := by
    intro k hk
    simp only [List.mem_toFinset, List.mem_map] at hk
    obtain ⟨page, mem, rfl⟩ := hk
    obtain ⟨k, -, rfl⟩ := (usable page mem).frame.eq_add
    have high := (usable _ mem).high
    have stop : RAMSTOP = DMWIN_MASK + 0x98000000 := by decide
    rw [Finset.mem_range, Nat.add_sub_cancel_left, PGSIZE]
    rw [stop, PGSIZE] at high
    omega
  have distinct : (pages.map fun page => (page - DMWIN_MASK) / PGSIZE).Nodup := by
    refine List.Nodup.map_on (fun x hx y hy same => ?_) nodup
    obtain ⟨k, -, rfl⟩ := (usable x hx).frame.eq_add
    obtain ⟨l, -, rfl⟩ := (usable y hy).frame.eq_add
    rw [Nat.add_sub_cancel_left, Nat.add_sub_cancel_left, Nat.mul_div_cancel_left _ (by decide),
      Nat.mul_div_cancel_left _ (by decide)] at same
    rw [same]
  have count := Finset.card_le_card inside
  rw [List.toFinset_card_of_nodup distinct, List.length_map, Finset.card_range] at count
  omega

theorem length_of_usable {pages : List Nat} (nodup : pages.Nodup)
    (usable : ∀ page ∈ pages, Usable s page) : pages.length ≤ 2 ^ 20 :=
  (length_lt_of_usable nodup usable).le

/-! ### The loop -/

/-- A loop that fills the pages from `v` on, `n` of them: what a round does, what is
written to a page, and how the pages are taken back when memory runs out. -/
structure Filling (s : Ram) (root : Nat) (node : Nodes) (free data : List Nat) (m : PageMap)
    (v n : Nat) (perm : Nat → Nat) (content : Nat → Nat → UInt8)
    (body : Nat → Machine Ram (Nat ⊕ Int)) (write : Nat → Nat → Machine Ram Unit)
    (undo : Nat → Machine Ram Unit) : Prop where
  more : ∀ x t, v ≤ x → x < v + n → Within (fun page => page ∈ free ∨ node.Has page) s t →
    body (x * PGSIZE) t = (do
      if ← mapWith (write x) root (x * PGSIZE) (perm x) then
        return .inl (u64 (x * PGSIZE + PGSIZE))
      else
        undo (x * PGSIZE)
        return .inr (-1) : Machine Ram (Nat ⊕ Int)) t
  done : ∀ t, Within (fun page => page ∈ free ∨ node.Has page) s t →
    body ((v + n) * PGSIZE) t = .ok (.inr 0, t)
  writes : ∀ x t page, v ≤ x → x < v + n → page ∈ free →
    Within (fun page => page ∈ free ∨ node.Has page) s t → Writes (write x) t page (content x)
  undoes : ∀ t node' free' frames,
    Filled s t root node node' free free' data m v frames perm content → frames.length < n →
      (frames ≠ [] → (v + frames.length) * PGSIZE ≤ MAXVA) → ∃ u free'',
        undo ((v + frames.length) * PGSIZE) t = .ok ((), u) ∧
        Filled s u root node node' free free'' data m v [] perm content
  flags : ∀ x, v ≤ x → x < v + n → perm x < 2 ^ 9
  small : (v + n) * PGSIZE < 2 ^ 64

section Loop

variable {body : Nat → Machine Ram (Nat ⊕ Int)} {write : Nat → Nat → Machine Ram Unit}
  {undo : Nat → Machine Ram Unit} {limit : Nat}
  (filling : Filling s root node free data m v n perm content body write undo)
  (filled : Filled s t root node node' free free' data m v frames perm content)
include filling filled

theorem Filling.round_true (page limit : Nat) (inside : frames.length < n) (run : mapWith (write (v + frames.length)) root
    ((v + frames.length) * PGSIZE) (perm (v + frames.length)) t = .ok (true, u)) :
    Machine.loop body (limit + 1) ((v + frames.length) * PGSIZE) t =
      Machine.loop body limit ((v + (frames ++ [page]).length) * PGSIZE) u := by
  have below : (v + frames.length + 1) * PGSIZE ≤ (v + n) * PGSIZE :=
    Nat.mul_le_mul_right _ (by omega)
  have next : u64 ((v + frames.length) * PGSIZE + PGSIZE) =
      (v + (frames ++ [page]).length) * PGSIZE := by
    rw [← Nat.succ_mul, List.length_append, List.length_singleton, ← Nat.add_assoc]
    exact Nat.mod_eq_of_lt (lt_of_le_of_lt below filling.small)
  have round : body ((v + frames.length) * PGSIZE) t =
      .ok (.inl ((v + (frames ++ [page]).length) * PGSIZE), u) := by
    rw [filling.more _ t (by omega) (by omega) filled.within, Machine.bind_of_ok run, if_pos rfl, next]
    rfl
  rw [Machine.loop, Machine.bind_of_ok round]

theorem Filling.round_false (limit : Nat) (inside : frames.length < n)
    (low : frames ≠ [] → (v + frames.length) * PGSIZE ≤ MAXVA) {node'' : Nodes} {free'' : List Nat}
    (run : mapWith (write (v + frames.length)) root ((v + frames.length) * PGSIZE)
      (perm (v + frames.length)) t = .ok (false, u))
    (failed : Filled s u root node node'' free free'' data m v frames perm content) :
    ∃ w node₁ free₁, Machine.loop body (limit + 1) ((v + frames.length) * PGSIZE) t = .ok (-1, w) ∧
      Filled s w root node node₁ free free₁ data m v [] perm content := by
  obtain ⟨w, free₁, undone, restored⟩ := filling.undoes u node'' free'' frames failed inside low
  have round : body ((v + frames.length) * PGSIZE) t = .ok (.inr (-1), w) := by
    rw [filling.more _ t (by omega) (by omega) filled.within, Machine.bind_of_ok run,
      if_neg (by simp), Machine.bind_of_ok undone]
    rfl
  exact ⟨w, node'', free₁, by rw [Machine.loop, Machine.bind_of_ok round]; rfl, restored⟩

/-- With `k` pages to go before the end of the range, or before a page that may be in
the way. -/
theorem Filling.loop (fits : frames.length + k ≤ n)
    (low : frames ≠ [] → (v + frames.length) * PGSIZE ≤ MAXVA)
    (good : ∀ x, v + frames.length ≤ x → x < v + frames.length + k →
      x * PGSIZE < MAXVA ∧ m x = none)
    (rounds : n ≤ frames.length + limit) :
    (free'.length < need node' (v + frames.length) k + (if frames.length + k < n then 1 else 0) →
      ∃ u node'' free'', Machine.loop body (limit + 1) ((v + frames.length) * PGSIZE) t = .ok (-1, u) ∧
        Filled s u root node node'' free free'' data m v [] perm content) ∧
    (frames.length + k = n → need node' (v + frames.length) k ≤ free'.length →
      ∃ u node'' free'' all, Machine.loop body (limit + 1) ((v + frames.length) * PGSIZE) t = .ok (0, u) ∧
        all.length = n ∧ Filled s u root node node'' free free'' data m v all perm content) ∧
    (frames.length + k < n → Bad m (v + frames.length + k) →
      need node' (v + frames.length) k < free'.length →
      ∃ e, Machine.loop body (limit + 1) ((v + frames.length) * PGSIZE) t = .error e) := by
  induction k generalizing t node' free' frames limit with
  | zero =>
    rw [need_zero, Nat.add_zero, Nat.zero_add]
    rcases Nat.eq_or_lt_of_le fits with all | inside
    · rw [Nat.add_zero] at all
      refine ⟨by rw [if_neg (by omega)]; nofun, fun _ _ => ?_, fun lt => absurd lt (by omega)⟩
      have round := filling.done t filled.within
      rw [← all] at round
      exact ⟨t, node', free', frames, by rw [Machine.loop, Machine.bind_of_ok round]; rfl, all, filled⟩
    · rw [Nat.add_zero] at inside
      rw [if_pos inside]
      have below : (v + frames.length + 1) * PGSIZE ≤ (v + n) * PGSIZE :=
        Nat.mul_le_mul_right _ (by omega)
      have small := filling.small
      refine ⟨fun lt => ?_, fun eq => absurd eq (by omega), fun _ bad pos => ?_⟩
      · have none : free' = [] := List.length_eq_zero_iff.mp (by omega)
        exact filling.round_false filled limit inside low (filled.round_empty none) filled
      · obtain ⟨e, failed⟩ := filled.round_bad (List.ne_nil_of_length_pos pos)
          (p := perm (v + frames.length)) (by rw [Nat.succ_mul] at below; omega) bad fun u page mem =>
            filling.writes _ u page (by omega) (by omega) mem
        refine ⟨e, ?_⟩
        rw [Machine.loop, Machine.bind_of_error]
        rw [filling.more _ t (by omega) (by omega) filled.within]
        exact Machine.bind_of_error failed
  | succ k ih =>
    have inside : frames.length < n := by omega
    obtain ⟨here, gap⟩ := good (v + frames.length) (Nat.le_refl _) (by omega)
    by_cases none : free' = []
    · have failed := filling.round_false filled limit inside low
        (filled.round_empty none) filled
      subst none
      refine ⟨fun _ => failed, fun _ le => ?_, fun _ _ lt => ?_⟩
      · simp [need] at le
      · simp at lt
    · obtain ⟨enough, short⟩ := filled.round none here gap (filling.flags _ (by omega) (by omega))
        fun u page mem => filling.writes _ u page (by omega) (by omega) mem
      have least : 1 + missing node' ((v + frames.length) * PGSIZE) 3 ≤
          need node' (v + frames.length) (k + 1) := need_ge
      rcases Nat.lt_or_ge free'.length (1 + missing node' ((v + frames.length) * PGSIZE) 3) with lt | le
      · obtain ⟨t', node'', free'', run, failed⟩ := short lt
        exact ⟨fun _ => filling.round_false filled limit inside low run failed,
          fun _ le => absurd le (by omega), fun _ _ lt => absurd lt (by omega)⟩
      · obtain ⟨page, t', node'', free'', run, filled', count, present⟩ := enough le
        have length : (frames ++ [page]).length = frames.length + 1 := by simp
        have pos : limit ≠ 0 := by omega
        obtain ⟨limit, rfl⟩ := Nat.exists_eq_succ_of_ne_zero pos
        have shift : v + (frames ++ [page]).length = v + frames.length + 1 := by omega
        have low' : (v + (frames ++ [page]).length) * PGSIZE ≤ MAXVA := by
          have whole : MAXVA = MAXVA / PGSIZE * PGSIZE := by decide
          rw [whole] at here ⊢
          rw [shift]
          exact Nat.mul_le_mul_right _ (Nat.lt_of_mul_lt_mul_right here)
        have rest := ih filled' (by omega) (fun _ => low')
          (fun x le lt => good x (by omega) (by omega)) (show n ≤ (frames ++ [page]).length + limit by omega)
        rw [filling.round_true filled page _ inside run, need_succ present,
          ← Nat.add_assoc frames.length]
        rw [shift, length, Nat.add_right_comm frames.length, Nat.add_right_comm (v + frames.length)] at rest
        rw [shift]
        obtain ⟨short', full', bad'⟩ := rest
        exact ⟨fun lt => short' (by omega), fun eq le => full' eq (by omega),
          fun lt bad less => bad' lt bad (by omega)⟩

end Loop

/-! ### The first page in the way -/

/-- The pages that can be mapped, up to the first that cannot. -/
def clearPages (m : PageMap) (v : Nat) : Nat → Nat
  | 0 => 0
  | n + 1 => if v * PGSIZE < MAXVA ∧ (m v).isNone then clearPages m (v + 1) n + 1 else 0

theorem clearPages_le : clearPages m v n ≤ n := by
  induction n generalizing v with
  | zero => exact Nat.le_refl 0
  | succ n ih =>
    rw [clearPages]
    split
    · exact Nat.succ_le_succ ih
    · exact Nat.zero_le _

theorem clearPages_good {x : Nat} (le : v ≤ x) (lt : x < v + clearPages m v n) :
    x * PGSIZE < MAXVA ∧ m x = none := by
  induction n generalizing v with
  | zero => exact absurd lt (by simpa [clearPages] using le)
  | succ n ih =>
    rw [clearPages] at lt
    split at lt
    · rename_i good
      rcases Nat.eq_or_lt_of_le le with rfl | more
      · simpa using good
      · exact ih (v := v + 1) more (by omega)
    · exact absurd lt (by omega)

theorem clearPages_bad (window : v * PGSIZE &&& DMWIN_MASK = 0) (lt : clearPages m v n < n) :
    Bad m (v + clearPages m v n) := by
  induction n generalizing v with
  | zero => exact absurd lt (Nat.not_lt_zero _)
  | succ n ih =>
    rw [clearPages] at lt ⊢
    split
    · rename_i good
      rw [if_pos good] at lt
      -- the page after one that the table has starts at `MAXVA` at most
      have whole : MAXVA = MAXVA / PGSIZE * PGSIZE := by decide
      have next : (v + 1) * PGSIZE ≤ MAXVA := by
        rw [whole] at good ⊢
        exact Nat.mul_le_mul_right _ (Nat.lt_of_mul_lt_mul_right good.1)
      have window' : (v + 1) * PGSIZE &&& DMWIN_MASK = 0 := by
        rcases Nat.eq_or_lt_of_le next with same | lower
        · rw [same]
          decide
        · exact window_of_lt lower
      have rest := ih window' (by omega)
      rwa [Nat.add_right_comm, Nat.add_assoc] at rest
    · rename_i bad
      rw [Nat.add_zero]
      rcases Nat.lt_or_ge (v * PGSIZE) MAXVA with low | high
      · exact .inl ⟨low, fun gap => bad ⟨low, by simp [gap]⟩⟩
      · exact .inr ⟨high, window⟩

theorem rounds_le (small : (v + n) * PGSIZE < 2 ^ 64) : n ≤ PAGES := by
  have all : 2 ^ 64 = PAGES * PGSIZE := by decide
  rw [all] at small
  have := Nat.lt_of_mul_lt_mul_right small
  omega

/-- What a loop over pages of the table comes to. -/
theorem Filling.outcome {body : Nat → Machine Ram (Nat ⊕ Int)} {write : Nat → Nat → Machine Ram Unit}
    {undo : Nat → Machine Ram Unit}
    (filling : Filling s root node free data m v n perm content body write undo)
    (pool : Pool s root node free data) (maps : Maps s node m)
    (low : ∀ x, v ≤ x → x < v + n → x * PGSIZE < MAXVA) :
    (∃ u node' free', Machine.loop body (PAGES + 1) (v * PGSIZE) s = .ok (-1, u) ∧
      Filled s u root node node' free free' data m v [] perm content) ∨
    (clearPages m v n = n ∧ ∃ u node' free' frames,
      Machine.loop body (PAGES + 1) (v * PGSIZE) s = .ok (0, u) ∧ frames.length = n ∧
      Filled s u root node node' free free' data m v frames perm content) ∨
    clearPages m v n < n ∧ ∃ e, Machine.loop body (PAGES + 1) (v * PGSIZE) s = .error e := by
  have rounds := rounds_le filling.small
  obtain ⟨short, full, bad⟩ := filling.loop (.start pool maps) (k := clearPages m v n)
    (by simpa using clearPages_le) (by simp) (by simpa using fun x => clearPages_good)
    (by simpa using rounds : n ≤ ([] : List Nat).length + PAGES)
  simp only [List.length_nil, Nat.zero_add, Nat.add_zero] at short full bad
  rcases Nat.eq_or_lt_of_le (clearPages_le (m := m) (v := v) (n := n)) with all | some
  · rcases Nat.lt_or_ge free.length (need node v (clearPages m v n)) with lt | le
    · exact .inl (short (by omega))
    · exact .inr (.inl ⟨all, full all le⟩)
  · rw [if_pos some] at short
    rcases Nat.lt_or_ge free.length (need node v (clearPages m v n) + 1) with lt | le
    · exact .inl (short lt)
    · have window := window_of_lt (low v (Nat.le_refl v) (by omega))
      exact .inr (.inr ⟨some, bad some (clearPages_bad window some) (by omega)⟩)

/-! ### `uvmalloc1` -/

theorem PGROUNDUP_page (small : v * PGSIZE + PGSIZE ≤ 2 ^ 64) : PGROUNDUP (v * PGSIZE) = v * PGSIZE := by
  rw [PGROUNDUP, u64, Nat.mod_eq_of_lt (by rw [PGSIZE] at *; omega)]
  congr 1
  rw [PGSIZE]
  omega

/-- The pages that have been given out are few enough for an `int`. -/
theorem Filled.page_count
    (filled : Filled s t root node node' free free' data m v frames perm content) :
    s32 (((v + frames.length) * PGSIZE - v * PGSIZE) / PGSIZE) = frames.length := by
  have few := length_of_usable (List.nodup_append.mp (List.nodup_append.mp filled.pool.nodup).2.1).1
    fun page mem => filled.pool.usable page (List.mem_append_right _ (List.mem_append_left _ mem))
  rw [← Nat.sub_mul, Nat.add_sub_cancel_left, page_index, s32, u32, Nat.mod_eq_of_lt (by omega),
    if_pos (by omega)]

theorem Filled.uvmdealloc1
    (filled : Filled s t root node node' free free' data m v frames perm content)
    (low : frames ≠ [] → (v + frames.length) * PGSIZE ≤ MAXVA) : ∃ r u free'',
      uvmdealloc1 root (v * PGSIZE) ((v + frames.length) * PGSIZE) t = .ok (r, u) ∧
      Filled s u root node node' free free'' data m v [] perm content := by
  have count := filled.page_count
  cases frames with
  | nil =>
    exact ⟨-1, t, free', by rw [Vm.uvmdealloc1, if_pos (by simp)]; rfl, filled⟩
  | cons page rest =>
    obtain ⟨u, free'', run, restored⟩ := filled.restore (low nofun)
    refine ⟨0, u, free'', ?_, restored⟩
    have more : v * PGSIZE < (v + (page :: rest).length) * PGSIZE := by
      have longer : v < v + (page :: rest).length := by simp
      exact Nat.mul_lt_mul_of_pos_right longer (by decide)
    have bound : MAXVA + PGSIZE ≤ 2 ^ 64 := by decide
    have low := low nofun
    rw [Vm.uvmdealloc1, if_neg (by omega), PGROUNDUP_page (by omega), PGROUNDUP_page (by omega),
      if_pos (by omega), count, Machine.bind_of_ok run]
    rfl

theorem uvmalloc1_filling {p stop : Nat} (flags : p < 2 ^ 9) (small : (v + n) * PGSIZE < 2 ^ 64)
    (ends : ∀ x, v ≤ x → (x * PGSIZE < stop ↔ x < v + n)) :
    Filling s root node free data m v n (fun _ => p) (fun _ _ => 0)
      (fun a => if a < stop then do
          if ← mapFresh root a p then
            return .inl (u64 (a + PGSIZE))
          else
            let _ ← uvmdealloc1 root (v * PGSIZE) a
            return .inr (-1)
        else
          return .inr 0)
      (fun _ mem => memset mem 0 PGSIZE)
      (fun a => do
        let _ ← uvmdealloc1 root (v * PGSIZE) a
        return ()) where
  more x t le lt _ := by
    rw [if_pos ((ends x le).mpr lt), mapFresh_eq]
    simp only [bind_assoc, pure_bind]
  done t _ := by
    rw [if_neg fun lt => absurd ((ends _ (Nat.le_add_right v n)).mp lt) (Nat.lt_irrefl _)]
    rfl
  writes x t page _ _ _ _ :=
    ⟨t.mem.fill page PGSIZE 0, rfl, fun y outside => Memory.fill_outside _ outside,
      fun j hj => Memory.fill_inside _ (by omega) (by omega)⟩
  undoes t node' free' frames filled _ low := by
    obtain ⟨r, u, free'', run, restored⟩ := filled.uvmdealloc1 low
    exact ⟨u, free'', Machine.bind_of_ok run, restored⟩
  flags _ _ _ := flags
  small := small

/-- `uvmalloc1` where the first `k` pages are free to be mapped. -/
theorem uvmalloc1_outcome (pool : Pool s root node free data) (maps : Maps s node m) {p : Nat}
    (flags : p < 2 ^ 9) (pos : 0 < n) (small : (v + n) * PGSIZE < 2 ^ 64)
    (fits : k ≤ n) (good : ∀ x, v ≤ x → x < v + k → x * PGSIZE < MAXVA ∧ m x = none) :
    (free.length < need node v k + (if k < n then 1 else 0) → ∃ u node' free',
      uvmalloc1 root (v * PGSIZE) ((v + n) * PGSIZE) p s = .ok (-1, u) ∧
      Filled s u root node node' free free' data m v [] (fun _ => p) fun _ _ => 0) ∧
    (k = n → need node v k ≤ free.length → ∃ u node' free' frames,
      uvmalloc1 root (v * PGSIZE) ((v + n) * PGSIZE) p s = .ok (0, u) ∧ frames.length = n ∧
      Filled s u root node node' free free' data m v frames (fun _ => p) fun _ _ => 0) ∧
    (k < n → Bad m (v + k) → need node v k < free.length → ∃ e,
      uvmalloc1 root (v * PGSIZE) ((v + n) * PGSIZE) p s = .error e) := by
  have more : ¬(v + n) * PGSIZE ≤ v * PGSIZE := by
    have : v * PGSIZE < (v + n) * PGSIZE := Nat.mul_lt_mul_of_pos_right (by omega) (by decide)
    omega
  have rounds := rounds_le small
  rw [uvmalloc1, if_neg more]
  have start : Filled s s root node node free free data m v [] (fun _ => p) fun _ _ => 0 :=
    .start pool maps
  have ends (x : Nat) (_ : v ≤ x) : x * PGSIZE < (v + n) * PGSIZE ↔ x < v + n :=
    Nat.mul_lt_mul_right (by decide)
  have outcome := (uvmalloc1_filling flags small ends).loop start (k := k) (by simpa using fits)
    (by simp) (by simpa using good)
    (show n ≤ ([] : List Nat).length + PAGES by simpa using rounds)
  simpa using outcome

/-! ### An empty table -/

/-- The page of an empty table. -/
def rootOnly (root : Nat) : Nodes := fun l p => if l = 3 ∧ p = 0 then some root else none

/-- The first free page becomes an empty table. -/
theorem uvmcreate_pool (s : Ram) (root : Nat) (free : List Nat) (links : FreeList s.mem s.freelist (root :: free))
    (usable : ∀ page ∈ root :: free, Usable s page) (nodup : (root :: free).Nodup) : ∃ t,
      uvmcreate s = .ok (root, t) ∧ Pool t root (rootOnly root) free [] ∧
      Maps t (rootOnly root) fun _ => none := by
  obtain ⟨rfl, links⟩ := links
  have frame := (usable s.freelist List.mem_cons_self).frame
  have run : uvmcreate s = .ok (s.freelist,
      s.handedOut.setMem (s.handedOut.mem.fill s.freelist PGSIZE (UInt8.ofNat 0))) := by
    rw [uvmcreate, Machine.bind_of_ok (kalloc_run (Nat.ne_of_gt frame.pos)),
      if_neg (Nat.ne_of_gt frame.pos), Machine.bind_of_ok (memset_run _ _ _ _), Machine.pure_run]
  have made := uvmcreate_refines run (Nat.ne_of_gt frame.pos) frame
  have within : Within (· = s.freelist) s
      (s.handedOut.setMem (s.handedOut.mem.fill s.freelist PGSIZE (UInt8.ofNat 0))) := by
    have set : Within (· = s.freelist) s (s.setMem ((s.mem.fill s.freelist PGSIZE 5).fill s.freelist PGSIZE
        (UInt8.ofNat 0))) := .setMem frame fun x outside => by
      rw [Memory.fill_outside _ outside, Memory.fill_outside _ outside]
    exact ⟨set.kept, rfl⟩
  have rest (page : Nat) (mem : page ∈ free) : Usable s page := usable page (List.mem_cons_of_mem _ mem)
  have fresh := (List.nodup_cons.mp nodup).1
  refine ⟨_, run, ⟨made.tree, ?_, ?_, ?_, ?_⟩, made.entries, fun no => absurd no (Option.some_ne_none _).symm⟩
  · exact links.congr fun page mem => within.kept page (rest page mem).frame fun same => fresh (same ▸ mem)
  · intro page mem
    rw [List.append_nil] at mem
    exact (rest page mem).within within
  · rw [List.append_nil]
    exact (List.nodup_cons.mp nodup).2
  · intro page mem has
    rw [List.append_nil] at mem
    obtain rfl : page = s.freelist := by simpa using (made.pages page).mp has
    exact fresh mem

theorem usable_RAMBASE_add {i : Nat} (kernel_end : s.kernel_end = RAMBASE) (hi : i < 2 ^ 15) :
    Usable s (RAMBASE + i * PGSIZE) :=
  ⟨frame_RAMBASE_add (by rw [PGSIZE]; omega) (Nat.dvd_mul_left _ _), by rw [kernel_end]; omega, by
    have stop : RAMSTOP = RAMBASE + 0x8000000 := by decide
    rw [stop, PGSIZE]
    omega⟩

/-- A table without mappings, and three pages to spare. -/
theorem fourPages_pool : Pool (after uvmcreate fourPages) RAMBASE (rootOnly RAMBASE)
    [RAMBASE + 1 * PGSIZE, RAMBASE + 2 * PGSIZE, RAMBASE + 3 * PGSIZE] [] ∧
    Maps (after uvmcreate fourPages) (rootOnly RAMBASE) fun _ => none := by
  have last : fourPages.mem.fetch (RAMBASE + 3 * PGSIZE) 8 = 0 := by decide
  obtain ⟨t, run, made⟩ := uvmcreate_pool fourPages RAMBASE
    [RAMBASE + 1 * PGSIZE, RAMBASE + 2 * PGSIZE, RAMBASE + 3 * PGSIZE]
    ⟨by decide, by decide, by decide, by decide, last⟩ (by
      intro page mem
      simp only [List.mem_cons, List.not_mem_nil, or_false] at mem
      rcases mem with rfl | rfl | rfl | rfl
      · exact usable_RAMBASE_add (i := 0) rfl (by decide)
      · exact usable_RAMBASE_add rfl (by decide)
      · exact usable_RAMBASE_add rfl (by decide)
      · exact usable_RAMBASE_add rfl (by decide)) (by decide)
  have same : after uvmcreate fourPages = t := by rw [after, run]
  rw [same]
  exact made

end AvxKernel.Vm
