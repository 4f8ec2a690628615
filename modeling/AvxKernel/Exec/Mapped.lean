import AvxKernel.Exec.Mmap
import AvxKernel.Exec.Failure

/-! What a process may rely on after `mmap`: that its areas are in order and all
their pages mapped, as `fork` needs it, and what an anonymous request gives. -/
namespace AvxKernel.Exec

open Vm

variable {s t u : Ram} {p : Proc} {node node' : Nodes} {m : PageMap} {limit page v w n a : Nat}
  {free free' nodes nodes' frames : List Nat}

/-- The areas of a process, as a fork needs them: in order, and with every page of
theirs in the table. -/
structure Proper (s : Ram) (p : Proc) (nodes : List Nat) : Prop where
  listed : Listed s.mem p.vma nodes
  present : ∀ a ∈ nodes, ∀ va, PGSIZE ∣ va → areaAddr s.mem a ≤ va → va < areaEnd s.mem a →
    ∃ pte, walk p.pagetable va false s = .ok (pte, s) ∧ pte ≠ 0 ∧ s.mem.fetch pte 8 &&& PTE_V ≠ 0

/-- The same, with the table as a map. -/
structure Backed (s : Ram) (p : Proc) (node : Nodes) (free nodes : List Nat) (m : PageMap) : Prop
    extends Anchored s p node free nodes m where
  backed : ∀ a ∈ nodes, ∀ x, areaAddr s.mem a ≤ x * PGSIZE → x * PGSIZE < areaEnd s.mem a →
    x * PGSIZE < MAXVA ∧ m x ≠ none

theorem Backed.proper (backed : Backed s p node free nodes m) : Proper s p nodes where
  listed := backed.space.listed
  present a ha va aligned low high := by
    have whole : va / PGSIZE * PGSIZE = va := Nat.div_mul_cancel aligned
    obtain ⟨below, some⟩ := backed.backed a ha (va / PGSIZE) (by rw [whole]; exact low)
      (by rw [whole]; exact high)
    rw [whole] at below
    exact backed.space.maps.present backed.space.pool.tree below some

/-! ### A new process -/

theorem Listed.empty {mem : Memory} {head : Nat} (next : (links mem).next head = head)
    (prev : (links mem).prev head = head) : Listed mem head [] where
  ring := ⟨⟨next, prev⟩, by simp⟩
  aligned := nofun
  sorted := .nil

/-- A page made the head of an empty list. -/
def headNode (mem : Memory) (head : Nat) : Memory :=
  (((mem.fill head PGSIZE (UInt8.ofNat 0)).store head 4 NONE).store (head + 56) 8 head).store
    (head + 48) 8 head

section HeadNode

variable {mem : Memory} {head : Nat} (frame : Frame head)
include frame

theorem headNode_listed : Listed (headNode mem head) head [] := by
  refine .empty ?_ ?_
  · rw [headNode, next_store_prev frame frame, next_store_next frame frame frame.lt, if_pos rfl]
  · rw [headNode, prev_store_prev frame frame frame.lt, if_pos rfl]

theorem headNode_within : Within (· = head) u (u.setMem (headNode u.mem head)) := by
  refine .setMem frame fun x outside => ?_
  have page : 64 ≤ PGSIZE := by decide
  rw [headNode, Memory.store_outside _ (by omega), Memory.store_outside _ (by omega),
    Memory.store_outside _ (by omega), Memory.fill_outside _ outside]

theorem headNode_run : (do
      memset head 0 PGSIZE
      poke head 4 NONE
      poke (head + 56) 8 head
      poke (head + 48) 8 head : Machine Ram Unit) u = .ok ((), u.setMem (headNode u.mem head)) := by
  have first (u : Ram) : poke head 4 NONE u = .ok ((), u.setMem (u.mem.store head 4 NONE)) :=
    poke_run frame (i := 0) (by decide)
  rw [Machine.bind_of_ok (memset_run _ _ _ _), Machine.bind_of_ok (first _),
    Machine.bind_of_ok (poke_run frame (by decide)), poke_run frame (by decide)]
  rfl

end HeadNode

/-- The list that `vma_init` makes has one area, an empty one. -/
theorem vma_init_backed {F : Type} {k : Kernel F} {head vma : Nat} (more : 2 ^ 20 < limit)
    (pool : Pool k.ram k.p.pagetable node (head :: vma :: free) []) (maps : Maps k.ram node m)
    (fresh : ∀ {v pa perm}, m v = some (pa, perm) → pa ∉ head :: vma :: free) :
    ∃ k' nodes, vma_init limit k = .ok (head, k') ∧ k'.p = { k.p with vma := head } ∧
      Backed k'.ram k'.p node free nodes m ∧
      ∀ a ∈ nodes, areaAddr k'.ram.mem a = USER_MMAP_START ∧ areaEnd k'.ram.mem a = USER_MMAP_START := by
  obtain ⟨u, run, pool', within⟩ := pool.kalloc
  have frame := (pool.usable head (by simp)).frame
  have own : Within (· ∈ [head]) u (u.setMem (headNode u.mem head)) :=
    (headNode_within frame).mono fun x eq => by simp [eq]
  have maps' : Maps u node m := maps.congr fun x => entryAt_congr x fun h =>
    within.kept _ (pool.tree.frame h) fun eq => pool.apart head (by simp) (eq ▸ ⟨_, _, h⟩)
  have space : Space (u.setMem (headNode u.mem head)) { k.p with vma := head } node (vma :: free) [] m :=
    ⟨pool'.written own rfl, maps'.congr fun x => pool'.entryAt_written own x,
      fun hx mem => fresh hx (List.mem_cons_of_mem _ mem), headNode_listed frame⟩
  have placed : placedAddr (headNode u.mem head) [] USER_MMAP_START 0 = USER_MMAP_START :=
    if_neg fun h => absurd h.1 (by decide)
  have gives : answer (u.setMem (headNode u.mem head)) { k.p with vma := head } node (vma :: free) [] m
      (placedAddr (headNode u.mem head) [] USER_MMAP_START 0) 0 = .entered := by simp [answer, placeOf]
  obtain ⟨page, t, node', free', nodes', frames, alloc, entered, empty, -⟩ :=
    space.alloc_mmap_entered 0 0
      (fun zero => absurd zero (by decide)) more (by decide : 0 < 2 ^ 9)
      (by rw [Ram.setMem_mem, placed]; decide) gives
  obtain ⟨rfl, rfl, rest⟩ := empty rfl
  obtain ⟨rfl, rfl⟩ := List.cons.inj rest
  rw [Ram.setMem_mem, placed] at entered
  have aligned : PGSIZE ∣ USER_MMAP_START := by decide
  have whole : firstPage USER_MMAP_START * PGSIZE = USER_MMAP_START := Nat.div_mul_cancel aligned
  have range : endPage USER_MMAP_START 0 = firstPage USER_MMAP_START :=
    endPage_zero aligned (by decide)
  have member : vma ∈ nodes' := (entered.member vma).mpr (.inl rfl)
  have only (a : Nat) (ha : a ∈ nodes') : areaAddr t.mem a = USER_MMAP_START ∧
      areaEnd t.mem a = USER_MMAP_START := by
    obtain rfl : a = vma := by simpa using (entered.member a).mp ha
    rw [entered.addr, entered.stop, range, whole]
    exact ⟨rfl, rfl⟩
  have final := entered.space (Nat.le_of_eq range.symm)
  rw [PageMap.fill_nil] at final
  refine ⟨{ k with ram := t, p := { k.p with vma := head } }, nodes', ?_, rfl,
    ⟨⟨final, vma, member, entered.type, ?_⟩, fun a ha x le lt => ?_⟩, only⟩
  · rw [vma_init, Machine.bind_of_ok (onRam_of_ok run), if_neg (Nat.ne_of_gt frame.pos),
      Machine.bind_of_ok (onRam_of_ok (k := { k with ram := u }) (headNode_run frame))]
    have mine (k : Kernel F) : (modifyProc fun p => { p with vma := head } : Machine (Kernel F) Unit) k =
        .ok ((), { k with p := { k.p with vma := head } }) := rfl
    have me (k : Kernel F) : (myproc : Machine (Kernel F) Proc) k = .ok (k.p, k) := rfl
    rw [Machine.bind_of_ok (mine _), Machine.bind_of_ok (me _), Machine.bind_of_ok (onRam_of_ok alloc),
      if_neg (Nat.ne_of_gt entered.new.pos)]
    rfl
  · rw [(only vma member).1]
    decide
  · rw [(only a ha).1] at le
    rw [(only a ha).2] at lt
    omega

/-- A process with an empty table, on a machine of four pages. -/
def bareProcess : Kernel Unit where
  ram := after uvmcreate fourPages
  p :=
    { sz := 0
      pagetable := RAMBASE
      trapframe := 0
      vma := 0
      filelimit := 0
      ofile := fun _ => 0
      exec_close := fun _ => 0
      name := [] }
  fs := ()

/-- The same process once `vma_init` has made its list. -/
def startedProcess : Kernel Unit :=
  match vma_init (2 ^ 20 + 1) bareProcess with
  | .ok (_, k) => k
  | .error _ => bareProcess

theorem bareProcess_pool : Pool bareProcess.ram RAMBASE (rootOnly RAMBASE)
    [RAMBASE + 1 * PGSIZE, RAMBASE + 2 * PGSIZE, RAMBASE + 3 * PGSIZE] [] ∧
    Maps bareProcess.ram (rootOnly RAMBASE) fun _ => none := fourPages_pool

theorem startedProcess_backed : ∃ nodes, Backed startedProcess.ram startedProcess.p (rootOnly RAMBASE)
    [RAMBASE + 3 * PGSIZE] nodes (fun _ => none) ∧
    ∀ a ∈ nodes, areaAddr startedProcess.ram.mem a = USER_MMAP_START ∧
      areaEnd startedProcess.ram.mem a = USER_MMAP_START := by
  obtain ⟨pool, maps⟩ := bareProcess_pool
  obtain ⟨k', nodes, run, -, backed, only⟩ := vma_init_backed (k := bareProcess)
    (by decide : 2 ^ 20 < 2 ^ 20 + 1) pool maps nofun
  have same : startedProcess = k' := by rw [startedProcess, run]
  exact ⟨nodes, same ▸ backed, same ▸ only⟩

/-- Eight free pages. -/
def eightPages : Ram where
  mem := (List.range 7).foldl (fun mem i => mem.store (RAMBASE + i * PGSIZE) 8 (RAMBASE + (i + 1) * PGSIZE))
    fun _ => 0
  freelist := RAMBASE
  npage := 8
  kernel_end := RAMBASE
  allocated := []
  freed := []
  touched := []

/-- A process with an empty list of areas, and five pages left. -/
def roomyProcess : Kernel Unit :=
  match vma_init (2 ^ 20 + 1) { bareProcess with ram := after uvmcreate eightPages } with
  | .ok (_, k) => k
  | .error _ => bareProcess

theorem roomyProcess_backed : ∃ nodes, Backed roomyProcess.ram roomyProcess.p (rootOnly RAMBASE)
    ([3, 4, 5, 6, 7].map fun i => RAMBASE + i * PGSIZE) nodes (fun _ => none) ∧
    (∀ a ∈ nodes, areaAddr roomyProcess.ram.mem a = USER_MMAP_START) ∧ roomyProcess.p.sz = 0 := by
  have last : eightPages.mem.fetch (RAMBASE + 7 * PGSIZE) 8 = 0 := by decide
  obtain ⟨t, run, pool, maps⟩ := uvmcreate_pool eightPages RAMBASE
    ([1, 2, 3, 4, 5, 6, 7].map fun i => RAMBASE + i * PGSIZE)
    ⟨by decide, by decide, by decide, by decide, by decide, by decide, by decide, by decide, last⟩ (by
      intro page mem
      have among : page ∈ [0, 1, 2, 3, 4, 5, 6, 7].map fun i => RAMBASE + i * PGSIZE := mem
      obtain ⟨i, hi, rfl⟩ := List.mem_map.mp among
      have small : ∀ i ∈ [0, 1, 2, 3, 4, 5, 6, 7], i < 2 ^ 15 := by decide
      exact usable_RAMBASE_add rfl (small i hi)) (by decide)
  have same : after uvmcreate eightPages = t := by rw [after, run]
  obtain ⟨k', nodes, run', kept, backed, only⟩ := vma_init_backed (k := { bareProcess with ram := t })
    (by decide : 2 ^ 20 < 2 ^ 20 + 1) pool maps fun no => absurd no.symm (Option.some_ne_none _)
  have made : roomyProcess = k' := by rw [roomyProcess, same, run']
  exact ⟨nodes, made ▸ backed, fun a ha => made ▸ (only a ha).1, by rw [made, kept]; rfl⟩

theorem roomyProcess_anchored : ∃ nodes, Anchored roomyProcess.ram roomyProcess.p (rootOnly RAMBASE)
    ([3, 4, 5, 6, 7].map fun i => RAMBASE + i * PGSIZE) nodes (fun _ => none) ∧
    (∀ a ∈ nodes, areaAddr roomyProcess.ram.mem a = USER_MMAP_START) ∧ roomyProcess.p.sz = 0 := by
  obtain ⟨nodes, backed, only, zero⟩ := roomyProcess_backed
  exact ⟨nodes, backed.toAnchored, only, zero⟩

/-! ### Runs of calls -/

/-- The arguments of a call of `mmap`. -/
structure Request where
  start : Nat
  len : Nat
  prot : Nat
  flags : Nat
  fd : Int
  offset : Int

/-- A request of length 0 starts at a page, and any other outside the direct window. -/
def Request.Sound (q : Request) : Prop :=
  if q.len = 0 then PGSIZE ∣ q.start else q.start &&& DMWIN_MASK = 0

instance (q : Request) : Decidable q.Sound :=
  inferInstanceAs (Decidable (if q.len = 0 then PGSIZE ∣ q.start else q.start &&& DMWIN_MASK = 0))

/-- Calls of `mmap` one after the other. -/
inductive Calls {F : Type} (limit : Nat) (fsys : FileSystem F) (ok : Request → Prop)
    (k : Kernel F) : Kernel F → Prop where
  | refl : Calls limit fsys ok k k
  | call {k' k'' : Kernel F} {q : Request} {r : Nat} (before : Calls limit fsys ok k k')
      (good : ok q) (small : q.start < 2 ^ 64)
      (run : mmap limit fsys q.start q.len q.prot q.flags q.fd q.offset k' = .ok (r, k'')) :
      Calls limit fsys ok k k''

section Step

variable (backed : Backed s p node free nodes m) (more : 2 ^ 20 < limit) {q : Request} {fd : Int}
  {f_off : Nat}
include backed more

/-- A call keeps the areas in order and their pages mapped. -/
theorem Backed.step (sound : q.Sound) (small : q.start < 2 ^ 64) {r : Nat} {perm : Nat}
    (flags : perm < 2 ^ 9)
    (run : alloc_mmap_vma limit p q.start q.len perm fd f_off s = .ok (r, t)) :
    ∃ node' free' nodes' m', Backed t p node' free' nodes' m' := by
  have space := backed.space
  have first : q.start = 0 → firstMmap s.mem nodes ∈ nodes := fun _ => backed.toAnchored.first.1
  obtain ⟨anchor, member, kind, low⟩ := backed.anchor
  cases gives : answer s p node free nodes m (placedAddr s.mem nodes q.start q.len) q.len with
  | inside a =>
    obtain ⟨run', inside⟩ := space.alloc_mmap_inside perm f_off fd first
      more gives
    cases run.symm.trans run'
    have frame := space.node_frame (List.mem_cons_of_mem _ inside)
    have fields (x : Nat) (hx : x ∈ nodes) := areas_setFile s.mem fd f_off
      frame (space.node_frame (List.mem_cons_of_mem _ hx))
    refine ⟨node, free, nodes, m, ⟨⟨space.setFile f_off fd inside, anchor, member, ?_⟩, fun b hb x => ?_⟩⟩
    · rw [Ram.setMem_mem, (fields anchor member).1, (fields anchor member).2.1]
      exact ⟨kind, low⟩
    · rw [Ram.setMem_mem, (fields b hb).2.1, (fields b hb).2.2]
      exact backed.backed b hb x
  | refused =>
    obtain ⟨t', node', free', run', same⟩ := space.alloc_mmap_refused f_off fd first
      more flags gives
    cases run.symm.trans run'
    have fields (x : Nat) (hx : x ∈ nodes) {i k : Nat} (hi : i + k ≤ PGSIZE) :
        t.mem.fetch (x + i) k = s.mem.fetch (x + i) k := by
      have hx' : x ∈ p.vma :: nodes := List.mem_cons_of_mem _ hx
      refine fetch_kept (same.within.kept x (space.node_frame hx') ?_) hi
      rintro (mem | has)
      · exact space.pool.free_disjoint_data mem hx'
      · exact space.pool.apart x (List.mem_append_right _ hx') has
    have addr (x : Nat) (hx : x ∈ nodes) : areaAddr t.mem x = areaAddr s.mem x := fields x hx (by decide)
    have stop (x : Nat) (hx : x ∈ nodes) : areaEnd t.mem x = areaEnd s.mem x := fields x hx (by decide)
    have kind' : t.mem.fetch (anchor + 0) 4 = s.mem.fetch (anchor + 0) 4 := fields anchor member (by decide)
    refine ⟨node', free', nodes, m, ⟨⟨same.space, anchor, member, kind'.trans kind, ?_⟩,
      fun b hb x => ?_⟩⟩
    · rw [addr anchor member]
      exact low
    · rw [addr b hb, stop b hb]
      exact backed.backed b hb x
  | stuck =>
    have long := answer_stuck gives
    rw [Request.Sound, if_neg long] at sound
    obtain ⟨e, failed⟩ := space.alloc_mmap_stuck f_off fd first more flags
      (backed.toAnchored.placed_window sound) gives
    rw [failed] at run
    cases run
  | entered =>
    obtain ⟨page, t', node', free', nodes', frames, run', entered, empty, whole⟩ :=
      space.alloc_mmap_entered f_off fd first more flags
        (backed.toAnchored.placed_small small) gives
    cases run.symm.trans run'
    have range : firstPage (placedAddr s.mem nodes q.start q.len) +
        frames.length = endPage (placedAddr s.mem nodes q.start q.len) q.len := by
      by_cases zero : q.len = 0
      · rw [Request.Sound, if_pos zero] at sound
        rw [(empty zero).1, zero, endPage_zero (placedAddr_aligned sound)
          (backed.toAnchored.placed_small small)]
        rfl
      · obtain ⟨lt, count⟩ := whole zero
        rw [count]
        omega
    have fill (x : Nat) (some : m x ≠ none) : m.fill (firstPage (placedAddr s.mem nodes q.start q.len))
        frames (fun _ => perm) x ≠ none := by
      rw [PageMap.fill]
      split
      · exact Option.some_ne_none _
      · exact some
    refine ⟨node', free', nodes', _, ⟨⟨entered.space (by omega), anchor,
      (entered.member anchor).mpr (.inr member), ?_⟩, fun b hb x => ?_⟩⟩
    · rw [(entered.others anchor member).1, (entered.others anchor member).2.1]
      exact ⟨kind, low⟩
    · rcases (entered.member b).mp hb with rfl | old
      · rw [entered.addr, entered.stop]
        intro le lt
        have inside : firstPage (placedAddr s.mem nodes q.start q.len) ≤ x ∧
            x < firstPage (placedAddr s.mem nodes q.start q.len) + frames.length :=
          ⟨Nat.le_of_mul_le_mul_right le (by decide), by rw [range]; exact Nat.lt_of_mul_lt_mul_right lt⟩
        refine ⟨(entered.clear x inside.1 inside.2).1, ?_⟩
        rw [PageMap.fill, if_pos inside]
        exact Option.some_ne_none _
      · rw [(entered.others b old).2.1, (entered.others b old).2.2]
        intro le lt
        obtain ⟨below, some⟩ := backed.backed b old x le lt
        exact ⟨below, fill x some⟩

end Step

section Runs

variable {F : Type} {fsys : FileSystem F} {k k' : Kernel F}

theorem Calls.backed (more : 2 ^ 20 < limit) (calls : Calls limit fsys Request.Sound k k')
    (backed : Backed k.ram k.p node free nodes m) :
    k'.p = k.p ∧ ∃ node' free' nodes' m', Backed k'.ram k.p node' free' nodes' m' := by
  induction calls with
  | refl => exact ⟨rfl, node, free, nodes, m, backed⟩
  | @call k' k'' q r _ sound small run ih =>
    obtain ⟨same, node', free', nodes', m', now⟩ := ih
    obtain ⟨kept, ram | ⟨vma, alloc⟩⟩ := mmap_ram run
    · exact ⟨kept.trans same, node', free', nodes', m', ram ▸ now⟩
    · rw [same] at alloc
      exact ⟨kept.trans same, now.step more sound small (mmapPerm_lt _) alloc⟩

/-- After any calls of `mmap` that are sound, the areas are in order and all their
pages are mapped. -/
theorem mmap_keeps_areas (more : 2 ^ 20 < limit) (backed : Backed k.ram k.p node free nodes m)
    (calls : Calls limit fsys Request.Sound k k') : ∃ nodes', Proper k'.ram k'.p nodes' := by
  obtain ⟨same, node', free', nodes', m', now⟩ := calls.backed more backed
  rw [same]
  exact ⟨nodes', now.proper⟩

end Runs

theorem placeOf_below {mem : Memory} (head start : Nat) {stop : Nat}
    (above : ∀ a ∈ nodes, stop ≤ areaAddr mem a) : ∃ y, placeOf mem head start stop nodes = .before y := by
  cases nodes with
  | nil => exact ⟨head, rfl⟩
  | cons a rest => exact ⟨a, if_pos (above a (by simp))⟩

/-- A request of length 0, below all there is. -/
theorem startedProcess_empty (start : Nat) (pos : start ≠ 0) (small : start < 2 ^ 64)
    (below : endPage start 0 * PGSIZE ≤ USER_MMAP_START) : ∃ k' page nodes nodes' node' free free',
      mmap (2 ^ 20 + 1) noFiles start 0 0 0 (-1) 0 startedProcess = .ok (firstPage start * PGSIZE, k') ∧
      k'.p = startedProcess.p ∧
      Entered startedProcess.ram k'.ram startedProcess.p node' free free' nodes nodes' (fun _ => none)
        (firstPage start) (endPage start 0) page MMAP (mmapPerm 0) [] := by
  obtain ⟨nodes, backed, only⟩ := startedProcess_backed
  have placed : placedAddr startedProcess.ram.mem nodes start 0 = start := if_neg fun h => pos h.1
  have above (a : Nat) (ha : a ∈ nodes) : endPage start 0 * PGSIZE ≤ areaAddr startedProcess.ram.mem a := by
    rw [(only a ha).1]
    exact below
  obtain ⟨y, place⟩ := placeOf_below startedProcess.p.vma (firstPage start * PGSIZE) above
  have gives : answer startedProcess.ram startedProcess.p (rootOnly RAMBASE) [RAMBASE + 3 * PGSIZE] nodes
      (fun _ => none) (placedAddr startedProcess.ram.mem nodes start 0) 0 = .entered := by
    rw [placed]
    simp [answer, place]
  obtain ⟨page, t, node', free', nodes', frames, alloc, entered, empty, -⟩ :=
    backed.space.alloc_mmap_entered 0 (-1) (fun zero => absurd zero pos)
      (by decide : 2 ^ 20 < 2 ^ 20 + 1) (mmapPerm_lt 0) (by rwa [placed]) gives
  obtain ⟨rfl, -, -⟩ := empty rfl
  rw [placed] at entered
  refine ⟨{ startedProcess with ram := t }, page, nodes, nodes', node', _, free', ?_, rfl, entered⟩
  rw [mmap_anonymous (k := startedProcess) entered.new alloc, if_pos (by decide), entered.addr]

/-- A request for the page at `PGSIZE`. -/
theorem roomyProcess_request (prot : Nat) : ∃ k' nodes, Anchored roomyProcess.ram roomyProcess.p
      (rootOnly RAMBASE) ([3, 4, 5, 6, 7].map fun i => RAMBASE + i * PGSIZE) nodes (fun _ => none) ∧
    mmap (2 ^ 20 + 1) noFiles PGSIZE PGSIZE prot 0 (-1) 0 roomyProcess = .ok (PGSIZE, k') ∧
    placedAddr roomyProcess.ram.mem nodes PGSIZE PGSIZE = PGSIZE ∧
    answer roomyProcess.ram roomyProcess.p (rootOnly RAMBASE)
      ([3, 4, 5, 6, 7].map fun i => RAMBASE + i * PGSIZE) nodes (fun _ => none) PGSIZE PGSIZE =
        .entered := by
  obtain ⟨nodes, anchored, only, -⟩ := roomyProcess_anchored
  have placed : placedAddr roomyProcess.ram.mem nodes PGSIZE PGSIZE = PGSIZE :=
    if_neg fun h => absurd h.1 (by decide)
  obtain ⟨y, place⟩ := placeOf_below roomyProcess.p.vma (firstPage PGSIZE * PGSIZE)
    (show ∀ a ∈ nodes, endPage PGSIZE PGSIZE * PGSIZE ≤ areaAddr roomyProcess.ram.mem a by
      intro a ha
      rw [only a ha]
      decide)
  have gives : answer roomyProcess.ram roomyProcess.p (rootOnly RAMBASE)
      ([3, 4, 5, 6, 7].map fun i => RAMBASE + i * PGSIZE) nodes (fun _ => none) PGSIZE PGSIZE =
        .entered := by
    have clear : clearPages (fun _ => none) (firstPage PGSIZE) (endPage PGSIZE PGSIZE - firstPage PGSIZE) = 1 := by
      decide
    have pages : need (rootOnly RAMBASE) (firstPage PGSIZE) 1 = 4 := by decide
    rw [answer]
    simp only [place, clear, pages]
    rw [if_neg (by decide), if_neg (by decide), if_neg (by decide), if_neg (by decide), if_neg (by decide)]
  obtain ⟨page, t, node', free', nodes', frames, alloc, entered, -, -⟩ :=
    anchored.space.alloc_mmap_entered 0 (-1) (fun _ => anchored.first.1) (by decide : 2 ^ 20 < 2 ^ 20 + 1)
      (mmapPerm_lt prot) (by rw [placed]; decide) (by rw [placed]; exact gives)
  refine ⟨{ roomyProcess with ram := t }, nodes, anchored, ?_, placed, gives⟩
  rw [mmap_anonymous (k := roomyProcess) entered.new alloc, if_pos (by decide), entered.addr, placed]
  rfl

/-- An area of one page, which is mapped. -/
theorem mmap_keeps_areas_page : ∃ k' nodes,
    mmap (2 ^ 20 + 1) noFiles PGSIZE PGSIZE 7 0 (-1) 0 roomyProcess = .ok (PGSIZE, k') ∧
    Proper k'.ram k'.p nodes := by
  obtain ⟨nodes, backed, -⟩ := roomyProcess_backed
  obtain ⟨k', -, -, run, -⟩ := roomyProcess_request 7
  have calls : Calls (2 ^ 20 + 1) noFiles Request.Sound roomyProcess k' :=
    .call (q := ⟨PGSIZE, PGSIZE, 7, 0, -1, 0⟩) .refl (by decide) (by decide) run
  obtain ⟨nodes', proper⟩ := mmap_keeps_areas (by decide) backed calls
  exact ⟨k', nodes', run, proper⟩

/-- A request of length 0 that starts inside a page makes an area of one page, and maps
none. -/
theorem mmap_empty_unaligned : ∃ k', Calls (2 ^ 20 + 1) noFiles (fun _ => True) startedProcess k' ∧
    (∃ nodes, Proper startedProcess.ram startedProcess.p nodes) ∧ ∀ nodes, ¬Proper k'.ram k'.p nodes := by
  obtain ⟨nodes, backed, only⟩ := startedProcess_backed
  obtain ⟨k', page, nodes, nodes', node', free, free', run, same, entered⟩ :=
    startedProcess_empty (PGSIZE + 1) (by decide) (by decide) (by decide)
  refine ⟨k', .call (q := ⟨PGSIZE + 1, 0, 0, 0, -1, 0⟩) .refl trivial (by decide) run,
    ⟨_, backed.proper⟩, fun others proper => ?_⟩
  have listed := proper.listed
  rw [same] at listed
  obtain rfl := (entered.listed (by decide)).ring.unique listed.ring
  have member := (entered.member page).mpr (.inl rfl)
  obtain ⟨pte, walked, some, valid⟩ := proper.present page member PGSIZE ⟨1, rfl⟩
    (by rw [entered.addr]; decide) (by rw [entered.stop]; decide)
  have empty := entered.pool.tree.translation entered.maps.entries entered.maps.frames
    (show PGSIZE < MAXVA by decide)
  rw [same] at walked
  simp only [translation, walked, PageMap.fill_nil, Option.map_none, decode,
    if_neg (not_or.mpr ⟨some, valid⟩)] at empty
  cases empty

end AvxKernel.Exec
