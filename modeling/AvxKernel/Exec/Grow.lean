import AvxKernel.Exec.Protect
import AvxKernel.Vm.Grow

/-! The heap of a process: `growproc` and `sys_brk`. `growproc` works on sizes of
32 bits, so it goes wrong where the new size is negative or does not fit them,
and where the heap would run into an area. -/
namespace AvxKernel.Exec

open Vm

variable {F : Type}

def growproc (n : Int) : Machine (Kernel F) Int := do
  let p ← myproc
  let sz := u32 p.sz
  if 0 < n then
    let sz := u32 (← onRam (uvmalloc p.pagetable sz (intBits (sz + n)) (PTE_P ||| PTE_W)))
    if sz = 0 then
      return -1
    else
      modifyProc fun p => { p with sz }
      return 0
  else if n < 0 then
    let sz := u32 (← onRam (uvmdealloc p.pagetable sz (intBits (sz + n))))
    modifyProc fun p => { p with sz }
    return 0
  else
    modifyProc fun p => { p with sz }
    return 0

def sys_brk (n : Nat) : Machine (Kernel F) Nat := do
  let addr := (← myproc).sz
  if n = 0 then
    return addr
  else if addr ≤ n then
    if (← growproc (lowInt (n - addr))) < 0 then
      return 2 ^ 64 - 1
    else
      return (← myproc).sz
  else
    return 0

/-! ### A heap below the areas -/

/-- Where the first area begins. -/
def lowest (mem : Memory) (nodes : List Nat) : Nat := (nodes.map (areaAddr mem)).foldr min MAXVA

/-- Below the areas, exactly the pages of the first `sz` bytes are mapped. -/
def HeapMapped (k : Kernel F) (nodes : List Nat) (sz : Nat) : Prop :=
  ∀ x, (x * PGSIZE < lowest k.ram.mem nodes ∧ translation k.p.pagetable (x * PGSIZE) k.ram ≠ none) ↔
    x < heapPages sz

/-- A process whose heap is mapped below its areas, each page to a frame of its
own. -/
structure Heap (k : Kernel F) (node : Nodes) (free frames rest nodes : List Nat) (m : PageMap) :
    Prop where
  pool : Pool k.ram k.p.pagetable node free (frames ++ rest)
  maps : Maps k.ram node m
  listed : Listed k.ram.mem k.p.vma nodes
  kept : ∀ a ∈ nodes, a ∈ rest
  mapped : HeapMapped k nodes k.p.sz
  count : frames.length = heapPages k.p.sz
  owned : ∀ i (h : i < frames.length), ∃ q, m i = some (frames[i], q)

/-- The outcomes that `growproc` may have: the heap has grown by `n` bytes, or
nothing has changed. -/
def GrowsRight (nodes : List Nat) (k : Kernel F) (n : Int) : Prop :=
  ∃ r k', growproc n k = .ok (r, k') ∧
    (r = 0 ∧ (k'.p.sz : Int) = k.p.sz + n ∧ HeapMapped k' nodes k'.p.sz ∨
      r = -1 ∧ k'.p.sz = k.p.sz ∧
        ∀ va < MAXVA, translation k'.p.pagetable va k'.ram = translation k.p.pagetable va k.ram)

/-- `sys_brk` fails, or the break is where it was asked for. -/
def BrkRight (k : Kernel F) (addr : Nat) : Prop :=
  ∀ r k', sys_brk addr k = .ok (r, k') → r ≠ 2 ^ 64 - 1 → k'.p.sz = addr

/-- When `growproc` goes right. -/
def GrowsWhen (k : Kernel F) (node : Nodes) (free nodes : List Nat) (m : PageMap) (n : Int) : Prop :=
  if 0 < n then
    k.p.sz + n < 2 ^ 32 ∧ (k.p.sz + n ≤ lowest k.ram.mem nodes ∨
      Short node free m k.p.sz (k.p.sz + n).toNat)
  else
    0 ≤ k.p.sz + n

/-- When `sys_brk` does: far above the break it has to fail. -/
def BrkWhen (k : Kernel F) (node : Nodes) (free : List Nat) (m : PageMap) (addr : Nat) : Prop :=
  let n := lowInt (addr - k.p.sz)
  if addr - k.p.sz < 2 ^ 31 then
    addr < 2 ^ 32
  else
    0 < n ∧ k.p.sz + n < 2 ^ 32 ∧ ¬Roomy node free m k.p.sz (k.p.sz + n).toNat

variable {k k' : Kernel F} {node node' : Nodes} {free free' frames new rest nodes : List Nat}
  {m : PageMap} {t : Ram} {n : Int} {newsz : Nat}

section Heap

variable (heap : Heap k node free frames rest nodes m)
include heap

theorem Heap.sz_lt : k.p.sz < 2 ^ 32 := by
  have nodup := (List.nodup_append.mp (List.nodup_append.mp heap.pool.nodup).2.1).1
  have few := length_lt_of_usable nodup fun page mem =>
    heap.pool.usable page (by simp [mem])
  rw [heap.count, heapPages, PGSIZE] at few
  omega

theorem Heap.translation {va : Nat} (low : va < MAXVA) : translation k.p.pagetable va k.ram =
    (m (va / PGSIZE)).map fun (pa, perm) => (pa, perm ||| PTE_V ||| PTE_MAT ||| PTE_D) :=
  heap.pool.tree.translation heap.maps.entries heap.maps.frames low

omit heap in
theorem lowest_cons (mem : Memory) (a : Nat) (nodes : List Nat) :
    lowest mem (a :: nodes) = min (areaAddr mem a) (lowest mem nodes) := by
  rw [lowest, lowest, List.map_cons, List.foldr_cons]

omit heap in
theorem lowest_le (mem : Memory) (nodes : List Nat) : lowest mem nodes ≤ MAXVA := by
  induction nodes with
  | nil =>
    rw [lowest, List.map_nil, List.foldr_nil]
  | cons a nodes ih =>
    rw [lowest_cons]
    exact le_trans (Nat.min_le_right _ _) ih

omit heap in
theorem le_lowest {mem : Memory} {b : Nat} (room : b ≤ MAXVA) (above : ∀ a ∈ nodes, b ≤ areaAddr mem a) :
    b ≤ lowest mem nodes := by
  induction nodes with
  | nil =>
    rw [lowest, List.map_nil, List.foldr_nil]
    exact room
  | cons a nodes ih =>
    rw [lowest_cons]
    exact Nat.le_min.mpr ⟨above a List.mem_cons_self,
      ih fun b hb => above b (List.mem_cons_of_mem _ hb)⟩

omit heap in
theorem lowest_dvd {mem : Memory} (aligned : ∀ a ∈ nodes, PGSIZE ∣ areaAddr mem a) :
    PGSIZE ∣ lowest mem nodes := by
  induction nodes with
  | nil =>
    rw [lowest, List.map_nil, List.foldr_nil, MAXVA_eq]
    exact ⟨2 ^ 34, by decide⟩
  | cons a nodes ih =>
    have rest := ih fun b hb => aligned b (List.mem_cons_of_mem _ hb)
    have first := aligned a List.mem_cons_self
    rw [lowest_cons]
    rcases Nat.le_total (areaAddr mem a) (lowest mem nodes) with le | le
    · rw [Nat.min_eq_left le]
      exact first
    · rw [Nat.min_eq_right le]
      exact rest

/-- A size fits below the areas if its pages do. -/
theorem Heap.pages_below {sz : Nat} : (∀ x < heapPages sz, x * PGSIZE < lowest k.ram.mem nodes) ↔
    sz ≤ lowest k.ram.mem nodes := by
  obtain ⟨l, whole⟩ := lowest_dvd fun a ha => (heap.listed.aligned a ha).1
  constructor
  · intro below
    by_contra more
    have past : l < heapPages sz := lt_heapPages.mpr (by rw [Nat.mul_comm, ← whole]; omega)
    have := below l past
    rw [Nat.mul_comm, ← whole] at this
    omega
  · exact fun le x lt => lt_of_lt_of_le (lt_heapPages.mp lt) le

theorem Heap.mapped_iff (x : Nat) (below : x * PGSIZE < lowest k.ram.mem nodes) :
    m x ≠ none ↔ x < heapPages k.p.sz := by
  rw [← heap.mapped x, heap.translation (below.trans_le (lowest_le _ _)), page_index]
  simp [below]

/-- The areas stay where they are. -/
theorem Heap.lowest_kept {P : Nat → Prop} (within : Within P k.ram t) (away : ∀ a ∈ rest, ¬P a) :
    lowest t.mem nodes = lowest k.ram.mem nodes := by
  have same : ∀ a ∈ nodes, areaAddr t.mem a = areaAddr k.ram.mem a := fun a ha =>
    fetch_kept (within.kept a (heap.pool.usable a (by simp [heap.kept a ha])).frame
      (away a (heap.kept a ha))) (by decide)
  rw [lowest, lowest, List.map_congr_left same]

/-- The pages of the areas' nodes are not those that a growing heap takes. -/
theorem Heap.rest_away (a : Nat) (ha : a ∈ rest) : ¬(a ∈ free ∨ node.Has a) := by
  rintro (again | has)
  · exact heap.pool.free_disjoint_data again (by simp [ha])
  · exact heap.pool.apart a (by simp [ha]) has

/-- What is mapped after a change of the map. -/
theorem Heap.mapped_after {m' : PageMap} {data : List Nat} {sz : Nat}
    (pool : Pool t k.p.pagetable node' free' data) (maps : Maps t node' m')
    (same : lowest t.mem nodes = lowest k.ram.mem nodes)
    (here : ∀ x, x * PGSIZE < lowest k.ram.mem nodes → (m' x ≠ none ↔ x < heapPages sz)) :
    HeapMapped { k with ram := t, p := { k.p with sz } } nodes sz ↔ sz ≤ lowest k.ram.mem nodes := by
  have seen (x : Nat) : (x * PGSIZE < lowest t.mem nodes ∧
      Vm.translation k.p.pagetable (x * PGSIZE) t ≠ none) ↔
      x * PGSIZE < lowest k.ram.mem nodes ∧ x < heapPages sz := by
    rw [same]
    refine and_congr_right fun below => ?_
    rw [← here x below, pool.tree.translation maps.entries maps.frames
      (below.trans_le (lowest_le _ _)), page_index]
    simp
  rw [← heap.pages_below]
  constructor
  · intro mapped x lt
    exact ((seen x).mp ((mapped x).mpr lt)).1
  · intro below x
    exact (seen x).trans ⟨fun h => h.2, fun lt => ⟨below x lt, lt⟩⟩

/-! ### Growing -/

omit heap in
theorem heap_flags : (PTE_P ||| PTE_W) ||| PTE_PLV3 < 2 ^ 9 := by decide

theorem Heap.u32_sz : u32 k.p.sz = k.p.sz := Nat.mod_eq_of_lt heap.sz_lt

theorem Heap.growproc_alloc (pos : 0 < n) {r : Nat}
    (run : uvmalloc k.p.pagetable k.p.sz (intBits (k.p.sz + n)) (PTE_P ||| PTE_W) k.ram = .ok (r, t)) :
    growproc n k = if u32 r = 0 then .ok (-1, { k with ram := t })
      else .ok (0, { k with ram := t, p := { k.p with sz := u32 r } }) := by
  rw [growproc, Machine.bind_of_ok (myproc_run k)]
  dsimp only
  rw [if_pos pos, heap.u32_sz, Machine.bind_of_ok (onRam_of_ok run), Machine.ite_run]
  rfl

theorem Heap.growproc_alloc_error (pos : 0 < n) {e : Halt}
    (run : uvmalloc k.p.pagetable k.p.sz (intBits (k.p.sz + n)) (PTE_P ||| PTE_W) k.ram = .error e) :
    growproc n k = .error e := by
  rw [growproc, Machine.bind_of_ok (myproc_run k)]
  dsimp only
  rw [if_pos pos, heap.u32_sz, Machine.bind_of_error (onRam_of_error run)]

/-- Where the sum does not fit 32 bits, `uvmalloc` takes it for a smaller size. -/
theorem Heap.grow_wraps (pos : 0 < n) (range : n < 2 ^ 31) (wraps : 2 ^ 32 ≤ k.p.sz + n) :
    growproc n k = .ok (0, k) := by
  have small := heap.sz_lt
  have less : intBits (k.p.sz + n) < k.p.sz := by
    rw [intBits]
    omega
  have run : uvmalloc k.p.pagetable k.p.sz (intBits (k.p.sz + n)) (PTE_P ||| PTE_W) k.ram =
      .ok (k.p.sz, k.ram) := by
    rw [uvmalloc, if_pos less]
    rfl
  rw [heap.growproc_alloc pos run, heap.u32_sz, if_neg (by omega)]

section Fits

variable (pos : 0 < n) (fits : k.p.sz + n < 2 ^ 32)
include pos fits

omit heap in
theorem new_size : intBits (k.p.sz + n) = (k.p.sz + n).toNat ∧
    u32 (k.p.sz + n).toNat = (k.p.sz + n).toNat ∧ (k.p.sz + n).toNat ≠ 0 ∧
    k.p.sz ≤ (k.p.sz + n).toNat ∧ (k.p.sz + n).toNat < 2 ^ 32 := by
  rw [intBits, u32]
  omega

theorem Heap.grow_short (short : Short node free m k.p.sz (k.p.sz + n).toNat) :
    ∃ t, growproc n k = .ok (-1, { k with ram := t }) ∧
      ∀ va < MAXVA, Vm.translation k.p.pagetable va t = Vm.translation k.p.pagetable va k.ram := by
  obtain ⟨bits, -, -, le, small⟩ := new_size pos fits
  obtain ⟨u, node', free', run, filled⟩ :=
    (uvmalloc_outcome heap.pool heap.maps le (le_trans small.le (by decide)) heap_flags).1 short
  rw [← bits] at run
  refine ⟨u, by rw [heap.growproc_alloc pos run]; rfl, fun va low => ?_⟩
  have maps := filled.maps
  rw [PageMap.fill_nil] at maps
  rw [filled.pool.tree.translation maps.entries maps.frames low, heap.translation low]

/-- The pages that a growth adds. -/
theorem Heap.grow_filled (roomy : Roomy node free m k.p.sz (k.p.sz + n).toNat) :
    ∃ t node' free' new,
      growproc n k = .ok (0, { k with ram := t, p := { k.p with sz := (k.p.sz + n).toNat } }) ∧
      new.length = addedPages k.p.sz (k.p.sz + n).toNat ∧
      Filled k.ram t k.p.pagetable node node' free free' (frames ++ rest) m (heapPages k.p.sz) new
        (fun _ => (PTE_P ||| PTE_W) ||| PTE_PLV3) fun _ _ => 0 := by
  obtain ⟨bits, whole, ne, le, small⟩ := new_size pos fits
  obtain ⟨t, node', free', new, run, count, filled⟩ :=
    (uvmalloc_outcome heap.pool heap.maps le (le_trans small.le (by decide)) heap_flags).2.1 roomy
  rw [← bits] at run
  have ran := heap.growproc_alloc pos run
  rw [bits, whole, if_neg ne] at ran
  exact ⟨t, node', free', new, ran, count, filled⟩

theorem Heap.filled_mapped {new : List Nat} {perm : Nat → Nat} {content : Nat → Nat → UInt8}
    (count : new.length = addedPages k.p.sz (k.p.sz + n).toNat)
    (filled : Filled k.ram t k.p.pagetable node node' free free' (frames ++ rest) m (heapPages k.p.sz)
      new perm content) :
    HeapMapped { k with ram := t, p := { k.p with sz := (k.p.sz + n).toNat } } nodes
      (k.p.sz + n).toNat ↔ (k.p.sz + n).toNat ≤ lowest k.ram.mem nodes := by
  obtain ⟨-, -, -, le, -⟩ := new_size pos fits
  refine heap.mapped_after filled.pool filled.maps
    (heap.lowest_kept filled.within heap.rest_away) fun x below => ?_
  have grows := heapPages_mono le
  rw [PageMap.fill, count, addedPages, Nat.add_sub_cancel' grows]
  split
  next inside => simpa using inside.2
  next outside =>
    rw [heap.mapped_iff x below]
    omega

theorem Heap.grow_roomy (roomy : Roomy node free m k.p.sz (k.p.sz + n).toNat) :
    ∃ t, growproc n k = .ok (0, { k with ram := t, p := { k.p with sz := (k.p.sz + n).toNat } }) ∧
      (HeapMapped { k with ram := t, p := { k.p with sz := (k.p.sz + n).toNat } } nodes
        (k.p.sz + n).toNat ↔ (k.p.sz + n).toNat ≤ lowest k.ram.mem nodes) := by
  obtain ⟨t, node', free', new, run, count, filled⟩ := heap.grow_filled pos fits roomy
  exact ⟨t, run, heap.filled_mapped pos fits count filled⟩

/-- Below the areas, a heap that has grown is a heap again. -/
theorem Heap.grown (head : k.p.vma ∈ rest) (roomy : Roomy node free m k.p.sz (k.p.sz + n).toNat)
    (below : (k.p.sz + n).toNat ≤ lowest k.ram.mem nodes) : ∃ k' node' free' new m',
    growproc n k = .ok (0, k') ∧ k'.p.sz = (k.p.sz + n).toNat ∧
      Heap k' node' free' (frames ++ new) rest nodes m' := by
  obtain ⟨t, node', free', new, run, count, filled⟩ := heap.grow_filled pos fits roomy
  obtain ⟨-, -, -, le, -⟩ := new_size pos fits
  have grows := heapPages_mono le
  have total : (frames ++ new).length = heapPages (k.p.sz + n).toNat := by
    rw [List.length_append, heap.count, count, addedPages, Nat.add_sub_cancel' grows]
  refine ⟨_, node', free', new, _, run, rfl, ?_, filled.maps, ?_, heap.kept,
    (heap.filled_mapped pos fits count filled).mpr below, total, fun i hi => ?_⟩
  · rw [List.append_assoc]
    refine filled.pool.perm ?_
    rw [← List.append_assoc, ← List.append_assoc]
    exact List.perm_append_comm.append_right rest
  · refine heap.listed.congr fun a ha => ?_
    have inRest : a ∈ rest := by
      rcases List.mem_cons.mp ha with rfl | member
      · exact head
      · exact heap.kept a member
    exact filled.within.kept a (heap.pool.usable a (by simp [inRest])).frame (heap.rest_away a inRest)
  · rw [total] at hi
    by_cases old : i < heapPages k.p.sz
    · obtain ⟨q, here⟩ := heap.owned i (heap.count ▸ old)
      refine ⟨q, ?_⟩
      rw [PageMap.fill, if_neg (by omega), here, List.getElem_append_left (heap.count ▸ old)]
    · have added : i - frames.length < new.length := by
        rw [heap.count, count, addedPages]
        omega
      refine ⟨(PTE_P ||| PTE_W) ||| PTE_PLV3, ?_⟩
      rw [PageMap.fill, if_pos (by rw [count, addedPages]; omega), ← heap.count,
        List.getD_eq_getElem _ _ added, List.getElem_append_right (by rw [heap.count]; omega)]

theorem Heap.grow_blocked (some : ¬Short node free m k.p.sz (k.p.sz + n).toNat)
    (blocked : ¬Roomy node free m k.p.sz (k.p.sz + n).toNat) : ∃ e, growproc n k = .error e := by
  obtain ⟨bits, -, -, le, small⟩ := new_size pos fits
  obtain ⟨e, run⟩ :=
    (uvmalloc_outcome heap.pool heap.maps le (le_trans small.le (by decide)) heap_flags).2.2 some blocked
  rw [← bits] at run
  exact ⟨e, heap.growproc_alloc_error pos run⟩

/-- Below the areas nothing is in the way. -/
theorem Heap.clear_below (le : (k.p.sz + n).toNat ≤ lowest k.ram.mem nodes) :
    clearPages m (heapPages k.p.sz) (addedPages k.p.sz (k.p.sz + n).toNat) =
      addedPages k.p.sz (k.p.sz + n).toNat := by
  obtain ⟨-, -, -, more, small⟩ := new_size pos fits
  by_contra ne
  have less : clearPages m (heapPages k.p.sz) (addedPages k.p.sz (k.p.sz + n).toNat) <
      addedPages k.p.sz (k.p.sz + n).toNat := lt_of_le_of_ne clearPages_le ne
  have below := (lt_newsz more).mp (Nat.add_lt_add_left less (heapPages k.p.sz))
  have low : (heapPages k.p.sz + clearPages m (heapPages k.p.sz)
      (addedPages k.p.sz (k.p.sz + n).toNat)) * PGSIZE < MAXVA :=
    lt_trans below (lt_of_lt_of_le small (by decide))
  have window : heapPages k.p.sz * PGSIZE &&& DMWIN_MASK = 0 :=
    window_of_lt (lt_of_le_of_lt (Nat.mul_le_mul_right _ (Nat.le_add_right _ _)) low)
  rcases clearPages_bad window less with ⟨-, mapped⟩ | ⟨high, -⟩
  · have inside := (heap.mapped_iff _ (lt_of_lt_of_le below le)).mp mapped
    omega
  · omega

end Fits

/-! ### Shrinking -/

theorem Heap.growproc_dealloc (neg : n < 0) {r : Nat}
    (run : uvmdealloc k.p.pagetable k.p.sz (intBits (k.p.sz + n)) k.ram = .ok (r, t)) :
    growproc n k = .ok (0, { k with ram := t, p := { k.p with sz := u32 r } }) := by
  rw [growproc, Machine.bind_of_ok (myproc_run k)]
  dsimp only
  rw [if_neg (by omega), if_pos neg, heap.u32_sz, Machine.bind_of_ok (onRam_of_ok run)]
  rfl

theorem Heap.shrink (neg : n < 0) (enough : 0 ≤ k.p.sz + n) : ∃ t,
    growproc n k = .ok (0, { k with ram := t, p := { k.p with sz := (k.p.sz + n).toNat } }) ∧
      HeapMapped { k with ram := t, p := { k.p with sz := (k.p.sz + n).toNat } } nodes
        (k.p.sz + n).toNat := by
  have small := heap.sz_lt
  have bits : intBits (k.p.sz + n) = (k.p.sz + n).toNat := by
    rw [intBits]
    omega
  have whole : u32 (k.p.sz + n).toNat = (k.p.sz + n).toNat := Nat.mod_eq_of_lt (by omega)
  have le : (k.p.sz + n).toNat ≤ k.p.sz := by omega
  obtain ⟨t, free', run, pool, maps, within⟩ :=
    uvmdealloc_heap heap.pool heap.maps heap.owned heap.count le small
  rw [← bits] at run
  have ran := heap.growproc_dealloc neg run
  rw [bits, whole] at ran
  have away (a : Nat) (ha : a ∈ rest) : ¬(a ∈ frames ∨ node.Has a) := by
    rintro (again | has)
    · exact (List.nodup_append.mp (List.nodup_append.mp heap.pool.nodup).2.1).2.2 a again a ha rfl
    · exact heap.pool.apart a (by simp [ha]) has
  have fewer := heapPages_mono le
  have below : (k.p.sz + n).toNat ≤ lowest k.ram.mem nodes :=
    heap.pages_below.mp fun x lt => ((heap.mapped x).mpr (lt_of_lt_of_le lt fewer)).1
  refine ⟨t, ran, (heap.mapped_after pool maps (heap.lowest_kept within away) fun x low => ?_).mpr below⟩
  rw [PageMap.unmapRange]
  split
  next gone => simpa using gone.1
  next stays =>
    rw [heap.mapped_iff x low]
    omega

/-- A sum below zero is taken for a larger size. -/
theorem Heap.shrink_wraps (neg : n < 0) (range : -2 ^ 31 ≤ n) (under : k.p.sz + n < 0) :
    growproc n k = .ok (0, k) := by
  have small := heap.sz_lt
  have more : k.p.sz ≤ intBits (k.p.sz + n) := by
    rw [intBits]
    omega
  have run : uvmdealloc k.p.pagetable k.p.sz (intBits (k.p.sz + n)) k.ram = .ok (k.p.sz, k.ram) := by
    rw [uvmdealloc, if_pos more]
    rfl
  rw [heap.growproc_dealloc neg run, heap.u32_sz]

theorem Heap.growproc_zero : growproc 0 k = .ok (0, k) := by
  rw [growproc, Machine.bind_of_ok (myproc_run k)]
  dsimp only
  rw [if_neg (by omega), if_neg (by omega), heap.u32_sz]
  rfl

/-! ### When the calls go right -/

omit heap in
/-- A size that stays as it was is no growth by anything. -/
theorem not_grown (run : growproc n k = .ok (0, k)) (some : n ≠ 0) : ¬GrowsRight nodes k n := by
  rintro ⟨r, k', ran, right⟩
  rw [run] at ran
  cases ran
  rcases right with ⟨-, size, -⟩ | ⟨failed, -⟩
  · omega
  · cases failed

theorem Heap.grows_iff (low : -2 ^ 31 ≤ n) (high : n < 2 ^ 31) :
    GrowsRight nodes k n ↔ GrowsWhen k node free nodes m n := by
  rw [GrowsWhen]
  by_cases pos : 0 < n
  · rw [if_pos pos]
    by_cases fits : k.p.sz + n < 2 ^ 32
    · obtain ⟨-, -, -, le, -⟩ := new_size pos fits
      have size : ((k.p.sz + n).toNat : Int) = k.p.sz + n := by omega
      rw [and_iff_right fits]
      by_cases short : Short node free m k.p.sz (k.p.sz + n).toNat
      · obtain ⟨t, run, same⟩ := heap.grow_short pos fits short
        exact iff_of_true ⟨-1, _, run, .inr ⟨rfl, rfl, same⟩⟩ (.inr short)
      · rw [or_iff_left short]
        by_cases roomy : Roomy node free m k.p.sz (k.p.sz + n).toNat
        · obtain ⟨t, run, mapped⟩ := heap.grow_roomy pos fits roomy
          have target : (k.p.sz + n).toNat ≤ lowest k.ram.mem nodes ↔
              k.p.sz + n ≤ lowest k.ram.mem nodes := by omega
          rw [← target, ← mapped]
          constructor
          · rintro ⟨r, k', ran, right⟩
            rw [run] at ran
            cases ran
            rcases right with ⟨-, -, right⟩ | ⟨failed, -⟩
            · exact right
            · cases failed
          · exact fun right => ⟨0, _, run, .inl ⟨rfl, size, right⟩⟩
        · obtain ⟨e, run⟩ := heap.grow_blocked pos fits short roomy
          refine iff_of_false ?_ fun below => ?_
          · rintro ⟨r, k', ran, -⟩
            rw [run] at ran
            cases ran
          · -- below the areas, memory would have to be short
            have clear := heap.clear_below pos fits (by omega)
            refine roomy ⟨clear, ?_⟩
            have stock := Nat.le_of_not_lt short
            rw [clear, if_neg (Nat.lt_irrefl _)] at stock
            exact stock
    · have run := heap.grow_wraps pos high (by omega)
      exact iff_of_false (not_grown run pos.ne') fun right => fits right.1
  · rw [if_neg pos]
    rcases Int.lt_or_eq_of_le (Int.not_lt.mp pos) with neg | rfl
    · by_cases enough : 0 ≤ k.p.sz + n
      · obtain ⟨t, run, mapped⟩ := heap.shrink neg enough
        exact iff_of_true ⟨0, _, run, .inl ⟨rfl, Int.toNat_of_nonneg enough, mapped⟩⟩ enough
      · have run := heap.shrink_wraps neg low (by omega)
        exact iff_of_false (not_grown run neg.ne) enough
    · exact iff_of_true ⟨0, _, heap.growproc_zero, .inl ⟨rfl, (Int.add_zero _).symm, heap.mapped⟩⟩ (by omega)

section Brk

variable {addr : Nat} (some : addr ≠ 0) (le : k.p.sz ≤ addr)
include some le

omit heap in
theorem brk_grown {n : Int} (same : lowInt (addr - k.p.sz) = n) (run : growproc n k = .ok (0, k'))
    (small : k'.p.sz < 2 ^ 32) : BrkRight k addr ↔ k'.p.sz = addr := by
  have brk : sys_brk addr k = .ok (k'.p.sz, k') := by
    rw [sys_brk, Machine.bind_of_ok (myproc_run k)]
    rw [if_neg some, if_pos le, same, Machine.bind_of_ok run]
    rfl
  constructor
  · exact fun right => right _ _ brk (by omega)
  · intro moved r k'' ran _
    rw [brk] at ran
    cases ran
    exact moved

omit heap in
theorem brk_failed {n : Int} (same : lowInt (addr - k.p.sz) = n)
    (run : (∃ k', growproc n k = .ok (-1, k')) ∨ ∃ e, growproc n k = .error e) :
    BrkRight k addr := by
  have brk : sys_brk addr k = (do
      if (← growproc n) < 0 then
        return 2 ^ 64 - 1
      else
        return (← myproc).sz : Machine (Kernel F) Nat) k := by
    rw [sys_brk, Machine.bind_of_ok (myproc_run k)]
    rw [if_neg some, if_pos le, same]
  intro r k'' ran success
  rw [brk] at ran
  rcases run with ⟨k', run⟩ | ⟨e, run⟩
  · rw [Machine.bind_of_ok run] at ran
    cases ran
    exact absurd rfl success
  · rw [Machine.bind_of_error run] at ran
    cases ran

omit heap some le in
theorem delta_range {n : Int} (delta : lowInt (addr - k.p.sz) = n) :
    -2 ^ 31 ≤ n ∧ n < 2 ^ 31 ∧ (addr - k.p.sz < 2 ^ 31 ↔ n = ((addr - k.p.sz : Nat) : Int)) := by
  rw [← delta, lowInt, u32]
  split <;> omega

omit heap some le in
/-- A break far above is not where the break is. -/
theorem far_apart (far : ¬addr - k.p.sz < 2 ^ 31) : k.p.sz ≠ addr := by
  intro same
  rw [same, Nat.sub_self] at far
  exact far (by decide)

theorem Heap.brk_shrinks (neg : n < 0) (low : -2 ^ 31 ≤ n) (delta : lowInt (addr - k.p.sz) = n)
    (far : ¬addr - k.p.sz < 2 ^ 31) : ¬BrkRight k addr := by
  have small := heap.sz_lt
  by_cases enough : 0 ≤ k.p.sz + n
  · obtain ⟨t, run, -⟩ := heap.shrink neg enough
    rw [brk_grown some le delta run (by dsimp only; omega)]
    dsimp only
    omega
  · rw [brk_grown some le delta (heap.shrink_wraps neg low (by omega)) small]
    exact far_apart far

theorem Heap.brk_grows (pos : 0 < n) (fits : k.p.sz + n < 2 ^ 32)
    (delta : lowInt (addr - k.p.sz) = n)
    (near : addr - k.p.sz < 2 ^ 31 ↔ n = ((addr - k.p.sz : Nat) : Int)) :
    BrkRight k addr ↔
      (addr - k.p.sz < 2 ^ 31 ∨ ¬Roomy node free m k.p.sz (k.p.sz + n).toNat) := by
  by_cases roomy : Roomy node free m k.p.sz (k.p.sz + n).toNat
  · obtain ⟨t, run, -⟩ := heap.grow_roomy pos fits roomy
    rw [brk_grown some le delta run (by dsimp only; omega), near]
    simp only [roomy, not_true_eq_false, or_false]
    omega
  · refine iff_of_true (brk_failed some le delta ?_) (.inr roomy)
    by_cases short : Short node free m k.p.sz (k.p.sz + n).toNat
    · obtain ⟨t, run, -⟩ := heap.grow_short pos fits short
      exact .inl ⟨_, run⟩
    · exact .inr (heap.grow_blocked pos fits short roomy)

theorem Heap.brk_iff : BrkRight k addr ↔ BrkWhen k node free m addr := by
  have small := heap.sz_lt
  rw [BrkWhen]
  generalize delta : lowInt (addr - k.p.sz) = n
  obtain ⟨low, high, near⟩ := delta_range delta
  rcases lt_trichotomy n 0 with neg | rfl | pos
  · have far : ¬addr - k.p.sz < 2 ^ 31 := fun lt => by
      have := near.mp lt
      omega
    rw [if_neg far]
    exact iff_of_false (heap.brk_shrinks some le neg low delta far) fun h => by omega
  · rw [brk_grown some le delta heap.growproc_zero small]
    split
    next lt =>
      have := near.mp lt
      omega
    next far => exact iff_of_false (far_apart far) fun h => by omega
  · by_cases fits : k.p.sz + n < 2 ^ 32
    · rw [heap.brk_grows some le pos fits delta near]
      split
      next lt =>
        have := near.mp lt
        exact iff_of_true (.inl lt) (by omega)
      next far => simp only [far, pos, fits, false_or, true_and]
    · rw [brk_grown some le delta (heap.grow_wraps pos high (by omega)) small]
      split
      next lt =>
        have := near.mp lt
        omega
      next far => exact iff_of_false (far_apart far) fun h => fits h.2.1

end Brk

end Heap

/-- `growproc` goes right where the new size is not negative, fits 32 bits and
stays below the areas, or memory runs out first; `sys_brk` where it does not ask
for more than an `int` can say. -/
theorem growproc_right_iff (heap : Heap k node free frames rest nodes m) :
    (∀ n : Int, -2 ^ 31 ≤ n → n < 2 ^ 31 →
      (GrowsRight nodes k n ↔ GrowsWhen k node free nodes m n)) ∧
    ∀ addr < 2 ^ 64, k.p.sz ≤ addr → (BrkRight k addr ↔ BrkWhen k node free m addr) := by
  refine ⟨fun n low high => heap.grows_iff low high, fun addr _ le => ?_⟩
  by_cases some : addr = 0
  · -- the break is asked for
    subst some
    have zero : k.p.sz = 0 := Nat.le_zero.mp le
    refine iff_of_true (fun r k' ran _ => ?_) ?_
    · cases ran
      exact zero
    · rw [BrkWhen]
      rw [zero, if_pos (by decide)]
      decide
  · exact heap.brk_iff some le

/-- A process without a heap. -/
theorem roomyProcess_heap : ∃ nodes, Heap roomyProcess (rootOnly RAMBASE)
    ([3, 4, 5, 6, 7].map fun i => RAMBASE + i * PGSIZE) [] (roomyProcess.p.vma :: nodes) nodes
    (fun _ => none) ∧ USER_MMAP_START ≤ lowest roomyProcess.ram.mem nodes ∧
      roomyProcess.p.sz = 0 := by
  obtain ⟨nodes, anchored, only, zero⟩ := roomyProcess_anchored
  have empty : heapPages roomyProcess.p.sz = 0 := by
    rw [zero]
    decide
  refine ⟨nodes, ⟨anchored.space.pool, anchored.space.maps, anchored.space.listed,
    fun a ha => List.mem_cons_of_mem _ ha, fun x => ?_, empty.symm, nofun⟩,
    le_lowest (by decide) fun a ha => (only a ha).ge, zero⟩
  rw [empty]
  refine iff_of_false ?_ (Nat.not_lt_zero x)
  rintro ⟨below, mapped⟩
  rw [anchored.space.translation (below.trans_le (lowest_le _ _))] at mapped
  exact mapped rfl

/-- It grows by two pages, the second in part, and gives the second back. -/
theorem growproc_right_pages : ∃ nodes k, GrowsRight nodes roomyProcess (PGSIZE + 5) ∧
    growproc (PGSIZE + 5) roomyProcess = .ok (0, k) ∧ k.p.sz = PGSIZE + 5 ∧
    GrowsRight nodes k (-PGSIZE) ∧ BrkRight k (2 * PGSIZE) := by
  obtain ⟨nodes, heap, above, zero⟩ := roomyProcess_heap
  have size : ((roomyProcess.p.sz : Int) + (PGSIZE + 5)).toNat = PGSIZE + 5 := by
    rw [zero]
    rfl
  have low : PGSIZE + 5 ≤ lowest roomyProcess.ram.mem nodes := le_trans (by decide) above
  have roomy : Roomy (rootOnly RAMBASE) ([3, 4, 5, 6, 7].map fun i => RAMBASE + i * PGSIZE)
      (fun _ => none) 0 (PGSIZE + 5) :=
    ⟨by decide, by decide⟩
  have fits : (roomyProcess.p.sz : Int) + (PGSIZE + 5) < 2 ^ 32 := by
    rw [zero]
    decide
  obtain ⟨k, node, free, new, m, run, now, grown⟩ := heap.grown (n := PGSIZE + 5) (by decide) fits
    List.mem_cons_self (by rw [size, zero]; exact roomy) (by rw [size]; exact low)
  rw [size] at now
  refine ⟨nodes, k, ((growproc_right_iff heap).1 _ (by decide) (by decide)).mpr ?_, run, now,
    ((growproc_right_iff grown).1 _ (by decide) (by decide)).mpr ?_,
    ((growproc_right_iff grown).2 _ (by decide) (by rw [now]; decide)).mpr ?_⟩
  · rw [GrowsWhen, if_pos (by decide)]
    exact ⟨fits, .inl (by rw [zero]; exact_mod_cast low)⟩
  · rw [GrowsWhen, if_neg (by decide), now]
    decide
  · rw [BrkWhen, now, if_pos (by decide)]
    decide

/-- Shrinking a heap of no bytes by one byte succeeds. -/
theorem growproc_below_zero : ∃ nodes, (∃ node free frames rest m,
      Heap roomyProcess node free frames rest nodes m) ∧
    growproc (-1) roomyProcess = .ok (0, roomyProcess) ∧ ¬GrowsRight nodes roomyProcess (-1) := by
  obtain ⟨nodes, heap, -, zero⟩ := roomyProcess_heap
  have run := heap.shrink_wraps (n := -1) (by decide) (by decide) (by rw [zero]; decide)
  exact ⟨nodes, ⟨_, _, _, _, _, heap⟩, run, not_grown run (by decide)⟩

end AvxKernel.Exec
