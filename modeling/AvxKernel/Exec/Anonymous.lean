import AvxKernel.Exec.Mapped

/-! Requests for memory without a file: what the process gets, and when it is what
it asked for. -/
namespace AvxKernel.Exec

open Vm

variable {s t u : Ram} {p : Proc} {node node' : Nodes} {m : PageMap} {limit page v w n a r len : Nat}
  {free free' nodes nodes' frames : List Nat}

/-- The pages that the bytes from `r` on are in. -/
def Covers (r len x : Nat) : Prop := ∃ b, r ≤ b ∧ b < r + len ∧ b / PGSIZE = x

/-- Exactly the pages of a range are newly mapped, each to a zeroed frame of its own
that was not mapped before. -/
structure NewRange (s t : Ram) (root r len : Nat) : Prop where
  new : ∀ x, Covers r len x → x * PGSIZE < MAXVA ∧ translation root (x * PGSIZE) s = none ∧
    ∃ pa flags, translation root (x * PGSIZE) t = some (pa, flags) ∧
      (∀ j < PGSIZE, t.mem (pa + j) = 0) ∧
      (∀ va < MAXVA, ∀ pa' flags', translation root va s = some (pa', flags') → pa' ≠ pa) ∧
      ∀ y pa' flags', Covers r len y → y ≠ x → translation root (y * PGSIZE) t = some (pa', flags') →
        pa' ≠ pa
  rest : ∀ va < MAXVA, ¬Covers r len (va / PGSIZE) → translation root va t = translation root va s

/-- The translation is the same, and every byte of the list of areas. -/
structure Unchanged (s t : Ram) (p : Proc) : Prop where
  table : ∀ va < MAXVA, translation p.pagetable va t = translation p.pagetable va s
  list : ∀ nodes, (links s.mem).Ring p.vma nodes → ∀ a ∈ p.vma :: nodes, ∀ i < PGSIZE,
    t.mem (a + i) = s.mem (a + i)

/-- A request for anonymous memory returns -1 and changes nothing, or maps the range that
it returns. -/
def Serves {F : Type} (k : Kernel F) (len : Nat) (outcome : Except Halt (Nat × Kernel F)) : Prop :=
  ∃ r k', outcome = .ok (r, k') ∧ k'.p = k.p ∧
    (r = 2 ^ 64 - 1 ∧ Unchanged k.ram k'.ram k.p ∨ NewRange k.ram k'.ram k.p.pagetable r len)

/-- When it does: a request is not served when it is in an area that exists, when it is
refused without `MAP_FIXED`, when a page of it is mapped already, and when the range that
is mapped is not the one that is returned. -/
def Served (s : Ram) (p : Proc) (node : Nodes) (free nodes : List Nat) (m : PageMap)
    (start len flags : Nat) : Prop :=
  let addr := placedAddr s.mem nodes start len
  match answer s p node free nodes m addr len with
  | .inside _ => len = 0
  | .refused => flags &&& MAP_FIXED ≠ 0
  | .entered =>
    let r := if flags &&& MAP_FIXED = 0 then firstPage addr * PGSIZE else start
    len = 0 ∨ r / PGSIZE = firstPage addr ∧ (r + len + PGSIZE - 1) / PGSIZE = endPage addr len
  | .stuck => False

theorem covers_zero {x : Nat} : ¬Covers r 0 x := by
  rintro ⟨b, le, lt, -⟩
  omega

theorem covers_iff (more : len ≠ 0) {x : Nat} :
    Covers r len x ↔ r / PGSIZE ≤ x ∧ x < (r + len + PGSIZE - 1) / PGSIZE := by
  constructor
  · rintro ⟨b, le, lt, rfl⟩
    rw [PGSIZE]
    omega
  · rintro ⟨le, lt⟩
    refine ⟨max r (x * PGSIZE), Nat.le_max_left _ _, ?_, ?_⟩
    · rw [PGSIZE] at *
      omega
    · rw [PGSIZE] at *
      omega

theorem Space.translation (space : Space s p node free nodes m) {va : Nat} (low : va < MAXVA) :
    translation p.pagetable va s =
      (m (va / PGSIZE)).map fun (pa, perm) => (pa, perm ||| PTE_V ||| PTE_MAT ||| PTE_D) :=
  space.pool.tree.translation space.maps.entries space.maps.frames low

section Entered

variable {type perm : Nat} (space : Space s p node free nodes m)
  (entered : Entered s t p node' free free' nodes nodes' m v w page type perm frames)
include space entered

omit space in
theorem Entered.after {va : Nat} (low : va < MAXVA) : translation p.pagetable va t =
    (m.fill v frames (fun _ => perm) (va / PGSIZE)).map fun (pa, perm) =>
      (pa, perm ||| PTE_V ||| PTE_MAT ||| PTE_D) :=
  entered.pool.tree.translation entered.maps.entries entered.maps.frames low

omit space in
theorem Entered.frame_at {x : Nat} (le : v ≤ x) (lt : x < v + frames.length) :
    ∃ h : x - v < frames.length, translation p.pagetable (x * PGSIZE) t =
      some (frames[x - v], perm ||| PTE_V ||| PTE_MAT ||| PTE_D) := by
  have low := (entered.clear x le lt).1
  refine ⟨by omega, ?_⟩
  rw [entered.after low, page_index, PageMap.fill, if_pos ⟨le, lt⟩, List.getD_eq_getElem _ _ (by omega)]
  rfl

/-- The pages of the area are the range, if they are its pages. -/
theorem Entered.newRange (exact : ∀ x, Covers r len x ↔ v ≤ x ∧ x < v + frames.length) :
    NewRange s t p.pagetable r len where
  new x hx := by
    obtain ⟨le, lt⟩ := (exact x).mp hx
    obtain ⟨low, gap⟩ := entered.clear x le lt
    obtain ⟨inside, here⟩ := entered.frame_at le lt
    refine ⟨low, ?_, frames[x - v], _, here, entered.zero _ (List.getElem_mem inside), ?_, ?_⟩
    · rw [space.translation low, page_index, gap]
      rfl
    · rintro va below pa' flags' was rfl
      rw [space.translation below] at was
      obtain ⟨⟨pa, perm'⟩, old, same⟩ := Option.map_eq_some_iff.mp was
      cases same
      exact space.fresh old (entered.source _ (List.getElem_mem inside))
    · rintro y pa' flags' hy ne is rfl
      obtain ⟨le', lt'⟩ := (exact y).mp hy
      obtain ⟨inside', here'⟩ := entered.frame_at le' lt'
      rw [here'] at is
      have same : frames[y - v] = frames[x - v] := (Prod.mk.inj (Option.some.inj is)).1
      have index := (List.Nodup.getElem_inj_iff entered.nodup).mp same
      omega
  rest va low away := by
    rw [space.translation low, entered.after low, PageMap.fill, if_neg fun h => away ((exact _).mpr h)]

/-- A range that is newly mapped is that of the area. -/
theorem Entered.range_eq (more : len ≠ 0) (long : v < w) (count : frames.length = w - v)
    (range : NewRange s t p.pagetable r len) :
    r / PGSIZE = v ∧ (r + len + PGSIZE - 1) / PGSIZE = w := by
  -- a page of the area has changed, so it is in the range
  have inside (x : Nat) (le : v ≤ x) (lt : x < w) : Covers r len x := by
    by_contra away
    obtain ⟨low, gap⟩ := entered.clear x le (by omega)
    have same := range.rest (x * PGSIZE) low (by rwa [page_index])
    obtain ⟨_, here⟩ := entered.frame_at le (by omega)
    rw [here, space.translation low, page_index, gap] at same
    cases same
  -- and a page of the range is newly mapped, so it is in the area
  have only (x : Nat) (hx : Covers r len x) : v ≤ x ∧ x < w := by
    by_contra away
    obtain ⟨low, none, pa, flags, some, -⟩ := range.new x hx
    rw [entered.after low, page_index, PageMap.fill, if_neg (by omega)] at some
    rw [space.translation low, page_index] at none
    rw [none] at some
    cases some
  have first := (covers_iff more).mp (inside v (Nat.le_refl v) long)
  have last := (covers_iff more).mp (inside (w - 1) (by omega) (by omega))
  have start := only (r / PGSIZE) ((covers_iff more).mpr ⟨Nat.le_refl _, by omega⟩)
  have stop := only ((r + len + PGSIZE - 1) / PGSIZE - 1) ((covers_iff more).mpr ⟨by omega, by omega⟩)
  omega

end Entered

theorem Unmoved.unchanged (space : Space s p node free nodes m)
    (same : Unmoved s t p node node' free free' nodes m) : Unchanged s t p where
  table va low := by rw [same.space.translation low, space.translation low]
  list others ring a ha i hi := by
    rw [ring.unique space.listed.ring] at ha
    refine same.within.kept a (space.node_frame ha) ?_ i hi
    rintro (mem | has)
    · exact space.pool.free_disjoint_data mem ha
    · exact space.pool.apart a (List.mem_append_right _ ha) has

section Serves

variable {F : Type} {k : Kernel F} {fsys : FileSystem F} {start prot flags : Nat}
  (anchored : Anchored k.ram k.p node free nodes m) (more : 2 ^ 20 < limit)
include anchored more

theorem mmap_inside
    (gives : answer k.ram k.p node free nodes m (placedAddr k.ram.mem nodes start len) len = .inside a) :
    (len = 0 → Serves k len (mmap limit fsys start len prot flags (-1) 0 k)) ∧
    (start &&& DMWIN_MASK = 0 → Serves k len (mmap limit fsys start len prot flags (-1) 0 k) →
      len = 0) := by
  obtain ⟨alloc, member⟩ := anchored.space.alloc_mmap_inside (mmapPerm prot) 0 (-1)
    (fun _ => anchored.first.1) more gives
  have frame := anchored.space.node_frame (List.mem_cons_of_mem _ member)
  have after := anchored.space.setFile 0 (-1) member
  have fields := areas_setFile k.ram.mem (-1) 0 frame frame
  have same (va : Nat) (low : va < MAXVA) : translation k.p.pagetable va
      (k.ram.setMem (setFile k.ram.mem a (-1) 0)) = translation k.p.pagetable va k.ram := by
    rw [after.translation low, anchored.space.translation low]
  rw [mmap_anonymous frame alloc, Ram.setMem_mem, fields.2.1]
  refine ⟨?_, fun window serves => ?_⟩
  · rintro rfl
    exact ⟨_, _, rfl, rfl, .inr ⟨fun x hx => absurd hx covers_zero, fun va low _ => same va low⟩⟩
  · by_contra long
    obtain ⟨r, k', run, -, served⟩ := serves
    cases run
    rcases served with ⟨failed, -⟩ | range
    · split at failed
      · have aligned := (anchored.space.listed.aligned a member).1
        rw [failed] at aligned
        exact absurd aligned (by decide)
      · rw [failed] at window
        exact absurd window (by decide)
    · obtain ⟨low, none, pa, fl, some, -⟩ := range.new _ ⟨_, Nat.le_refl _, by omega, rfl⟩
      rw [same _ low, none] at some
      cases some

theorem mmap_refused
    (gives : answer k.ram k.p node free nodes m (placedAddr k.ram.mem nodes start len) len = .refused) :
    Serves k len (mmap limit fsys start len prot flags (-1) 0 k) ↔ flags &&& MAP_FIXED ≠ 0 := by
  obtain ⟨t, node', free', alloc, same⟩ := anchored.space.alloc_mmap_refused 0 (-1)
    (fun _ => anchored.first.1) more (mmapPerm_lt prot) gives
  rw [mmap_anonymous_refused alloc]
  constructor
  · rintro ⟨r, k', run, -⟩ fixed
    rw [if_pos fixed] at run
    cases run
  · intro fixed
    rw [if_neg fixed]
    exact ⟨_, _, rfl, rfl, .inl ⟨rfl, same.unchanged anchored.space⟩⟩

variable (small : start < 2 ^ 64)
include small

theorem mmap_entered
    (gives : answer k.ram k.p node free nodes m (placedAddr k.ram.mem nodes start len) len = .entered) :
    let addr := placedAddr k.ram.mem nodes start len
    let r := if flags &&& MAP_FIXED = 0 then firstPage addr * PGSIZE else start
    let exact := len = 0 ∨ r / PGSIZE = firstPage addr ∧ (r + len + PGSIZE - 1) / PGSIZE = endPage addr len
    (exact → Serves k len (mmap limit fsys start len prot flags (-1) 0 k)) ∧
    (start &&& DMWIN_MASK = 0 → Serves k len (mmap limit fsys start len prot flags (-1) 0 k) → exact) := by
  obtain ⟨page, t, node', free', nodes', frames, alloc, entered, empty, whole⟩ :=
    anchored.space.alloc_mmap_entered 0 (-1) (fun _ => anchored.first.1) more
      (mmapPerm_lt prot) (anchored.placed_small small) gives
  rw [mmap_anonymous entered.new alloc, entered.addr]
  refine ⟨fun exact => ?_, fun window serves => ?_⟩
  · refine ⟨_, _, rfl, rfl, .inr (entered.newRange anchored.space fun x => ?_)⟩
    by_cases zero : len = 0
    · rw [(empty zero).1, List.length_nil, zero]
      exact ⟨fun hx => absurd hx covers_zero, fun h => absurd h.2 (Nat.not_lt.mpr h.1)⟩
    · obtain ⟨first, last⟩ := exact.resolve_left zero
      obtain ⟨long, count⟩ := whole zero
      rw [covers_iff zero, first, last, count]
      omega
  · by_contra inexact
    obtain ⟨zero, inexact⟩ := not_or.mp inexact
    obtain ⟨long, count⟩ := whole zero
    obtain ⟨r, k', run, -, served⟩ := serves
    cases run
    rcases served with ⟨failed, -⟩ | range
    · split at failed
      · have aligned : PGSIZE ∣ firstPage (placedAddr k.ram.mem nodes start len) * PGSIZE :=
          Nat.dvd_mul_left _ _
        rw [failed] at aligned
        exact absurd aligned (by decide)
      · rw [failed] at window
        exact absurd window (by decide)
    · exact inexact (entered.range_eq anchored.space zero long count range)

omit small in
theorem mmap_stuck (window : start &&& DMWIN_MASK = 0)
    (gives : answer k.ram k.p node free nodes m (placedAddr k.ram.mem nodes start len) len = .stuck) :
    ¬Serves k len (mmap limit fsys start len prot flags (-1) 0 k) := by
  obtain ⟨e, alloc⟩ := anchored.space.alloc_mmap_stuck 0 (-1)
    (fun _ => anchored.first.1) more (mmapPerm_lt prot) (anchored.placed_window window) gives
  rw [mmap_anonymous_error alloc]
  rintro ⟨r, k', run, -⟩
  cases run

/-- A request for anonymous memory does what it should if the condition holds, and only
then where it starts outside the direct window. -/
theorem mmap_serves_iff :
    (Served k.ram k.p node free nodes m start len flags →
      Serves k len (mmap limit fsys start len prot flags (-1) 0 k)) ∧
    (start &&& DMWIN_MASK = 0 → Serves k len (mmap limit fsys start len prot flags (-1) 0 k) →
      Served k.ram k.p node free nodes m start len flags) := by
  rw [Served]
  simp only
  cases gives : answer k.ram k.p node free nodes m (placedAddr k.ram.mem nodes start len) len with
  | inside a => exact mmap_inside anchored more gives
  | refused =>
    have served : Serves k len (mmap limit fsys start len prot flags (-1) 0 k) ↔ flags &&& MAP_FIXED ≠ 0 :=
      mmap_refused anchored more gives
    exact ⟨served.mpr, fun _ => served.mp⟩
  | entered => exact mmap_entered anchored more small gives
  | stuck => exact ⟨nofun, fun window => mmap_stuck anchored more window gives⟩

end Serves

/-- A range across the one area that there is. -/
theorem startedProcess_overlap : ∃ nodes, Anchored startedProcess.ram startedProcess.p (rootOnly RAMBASE)
    [RAMBASE + 3 * PGSIZE] nodes (fun _ => none) ∧
    answer startedProcess.ram startedProcess.p (rootOnly RAMBASE) [RAMBASE + 3 * PGSIZE] nodes
      (fun _ => none) (placedAddr startedProcess.ram.mem nodes (USER_MMAP_START - PGSIZE) (2 * PGSIZE))
      (2 * PGSIZE) = .refused := by
  obtain ⟨nodes, backed, only⟩ := startedProcess_backed
  refine ⟨nodes, backed.toAnchored, ?_⟩
  obtain ⟨b, member, -⟩ := backed.anchor
  obtain ⟨a, rest, rfl⟩ := List.exists_cons_of_ne_nil (List.ne_nil_of_mem member)
  obtain ⟨addr, stop⟩ := only a (by simp)
  have placed : placedAddr startedProcess.ram.mem (a :: rest) (USER_MMAP_START - PGSIZE) (2 * PGSIZE) =
      USER_MMAP_START - PGSIZE := if_neg fun h => absurd h.1 (by decide)
  have place : placeOf startedProcess.ram.mem startedProcess.p.vma
      (firstPage (USER_MMAP_START - PGSIZE) * PGSIZE)
      (endPage (USER_MMAP_START - PGSIZE) (2 * PGSIZE) * PGSIZE) (a :: rest) = .overlap := by
    rw [placeOf, addr, stop, if_neg (by decide), if_neg (by decide), if_neg (by decide)]
  rw [placed, answer]
  simp only [place]

theorem mmap_serves_iff_fixed : Serves startedProcess (2 * PGSIZE) (mmap (2 ^ 20 + 1) noFiles
    (USER_MMAP_START - PGSIZE) (2 * PGSIZE) 0 MAP_FIXED (-1) 0 startedProcess) := by
  obtain ⟨nodes, anchored, gives⟩ := startedProcess_overlap
  refine (mmap_serves_iff anchored (by decide) (by decide)).1 ?_
  rw [Served]
  simp only [gives]
  decide

/-- Without `MAP_FIXED`, the pointer to an area that there is not is followed. -/
theorem mmap_null_area :
    mmap (2 ^ 20 + 1) noFiles (USER_MMAP_START - PGSIZE) (2 * PGSIZE) 0 0 (-1) 0 startedProcess =
      .error .fault ∧
    ¬Serves startedProcess (2 * PGSIZE) (mmap (2 ^ 20 + 1) noFiles (USER_MMAP_START - PGSIZE)
      (2 * PGSIZE) 0 0 (-1) 0 startedProcess) := by
  obtain ⟨nodes, anchored, gives⟩ := startedProcess_overlap
  obtain ⟨t, -, -, alloc, -⟩ := anchored.space.alloc_mmap_refused 0 (-1)
    (fun _ => anchored.first.1) (by decide : 2 ^ 20 < 2 ^ 20 + 1) (mmapPerm_lt 0) gives
  have run : mmap (2 ^ 20 + 1) noFiles (USER_MMAP_START - PGSIZE) (2 * PGSIZE) 0 0 (-1) 0 startedProcess =
      .error .fault := by
    rw [mmap_anonymous_refused (k := startedProcess) alloc, if_pos (by decide)]
  refine ⟨run, ?_⟩
  rw [run]
  rintro ⟨r, k', h, -⟩
  cases h

end AvxKernel.Exec
