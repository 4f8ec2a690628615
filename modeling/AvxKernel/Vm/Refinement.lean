import AvxKernel.Vm.Table

/-! What a page table is for: a finite map from page numbers to a frame and its
permissions. Every table that `mappages` and `vmunmap` build from `uvmcreate`
translates exactly as such a map, whatever else happens to memory that is not
one of the table's own pages. -/
namespace AvxKernel.Vm

/-- Page number to frame and permission bits. -/
abbrev PageMap := Nat → Option (Nat × Nat)

def PageMap.mapRange (m : PageMap) (first count pa perm : Nat) : PageMap := fun v =>
  if first ≤ v ∧ v < first + count then some (pa + (v - first) * PGSIZE, perm) else m v

def PageMap.unmapRange (m : PageMap) (first count : Nat) : PageMap := fun v =>
  if first ≤ v ∧ v < first + count then none else m v

/-- What an entry says: the frame and the flags, if it is there and valid. -/
def decode (pte entry : Nat) : Option (Nat × Nat) :=
  if pte = 0 ∨ entry &&& PTE_V = 0 then none else some (PTE2PA entry, PTE_FLAGS entry)

/-- The frame and the flags under which a page is mapped, as `walk` finds them. -/
def translation (pagetable va : Nat) (s : Ram) : Option (Nat × Nat) :=
  match walk pagetable va false s with
  | .ok (pte, _) => decode pte (s.mem.fetch pte 8)
  | .error _ => none

/-- What one entry says of one page of the map. -/
def entryOf : Option (Nat × Nat) → Nat
  | some (pa, perm) => leaf pa perm
  | none => 0

structure Refines (s : Ram) (root : Nat) (node : Nodes) (pages : List Nat) (m : PageMap) : Prop where
  tree : Tree s.mem root node
  pages : ∀ page, node.Has page ↔ page ∈ pages
  entries : ∀ va < MAXVA, entryAt s.mem node va = entryOf (m (va / PGSIZE))
  frames : ∀ {v pa perm}, m v = some (pa, perm) → Frame pa ∧ perm < 2 ^ 9

variable {root : Nat} {node : Nodes} {pages : List Nat} {m : PageMap} {s t : Ram}

/-- A tree whose entries are those of a map translates as the map. -/
theorem Tree.translation (tree : Tree s.mem root node)
    (entries : ∀ va < MAXVA, entryAt s.mem node va = entryOf (m (va / PGSIZE)))
    (frames : ∀ {v pa perm}, m v = some (pa, perm) → Frame pa ∧ perm < 2 ^ 9) {va : Nat}
    (low : va < MAXVA) :
    translation root va s =
      (m (va / PGSIZE)).map fun (pa, perm) => (pa, perm ||| PTE_V ||| PTE_MAT ||| PTE_D) := by
  have entry := entries va low
  simp only [Vm.translation, walk_find tree low]
  simp only [entryAt] at entry
  cases hb : node 0 (above 0 va) with
  | none =>
    simp only [hb] at entry
    cases hm : m (va / PGSIZE) with
    | none => simp [decode]
    | some q =>
      obtain ⟨pa, perm⟩ := q
      rw [hm, entryOf] at entry
      have valid := leaf_valid pa perm
      rw [← entry, Nat.zero_and] at valid
      exact absurd rfl valid
  | some b =>
    simp only [hb] at entry
    have pos := (tree.frame hb).pos
    simp only [Option.elim_some, entry]
    cases hm : m (va / PGSIZE) with
    | none => simp [decode, entryOf]
    | some q =>
      obtain ⟨pa, perm⟩ := q
      obtain ⟨frame, low⟩ := frames hm
      have valid := leaf_valid pa perm
      rw [decode, if_neg (by simp only [entryOf]; omega)]
      simp only [entryOf, Option.map_some, PTE2PA_leaf frame low, PTE_FLAGS_leaf pa low]

/-- The translation of a refined table is the map. -/
theorem Refines.translation (h : Refines s root node pages m) {va : Nat} (low : va < MAXVA) :
    translation root va s =
      (m (va / PGSIZE)).map fun (pa, perm) => (pa, perm ||| PTE_V ||| PTE_MAT ||| PTE_D) :=
  h.tree.translation h.entries h.frames low

/-! ### Mapping -/

theorem walk_log {alloc : Bool} {va pte : Nat} (h : walk root va alloc s = .ok (pte, t)) :
    ∃ new, t.allocated = new ++ s.allocated := by
  rw [walk] at h
  split at h
  · cases h
    exact ⟨[], rfl⟩
  · split at h
    · cases h
    · exact walkLevels_log h

theorem mappagesFrom_log {last perm n a pa : Nat} {r : Int}
    (h : mappagesFrom root last perm n a pa s = .ok (r, t)) :
    ∃ new, t.allocated = new ++ s.allocated := by
  induction n generalizing s a pa with
  | zero => cases h
  | succ n ih =>
    rw [mappagesFrom] at h
    obtain ⟨pte, u, hwalk, rest⟩ := Machine.bind_ok.mp h
    obtain ⟨new, hnew⟩ := walk_log hwalk
    split at rest
    · cases rest
      exact ⟨new, hnew⟩
    · rw [Machine.bind_of_ok (load_run _ u)] at rest
      split at rest
      · cases rest
      · rw [Machine.bind_of_ok (store_run _ _ u)] at rest
        split at rest
        · cases rest
          exact ⟨new, hnew⟩
        · obtain ⟨later, hlater⟩ := ih rest
          exact ⟨later ++ new, by rw [hlater, Ram.setMem_allocated, hnew, List.append_assoc]⟩

theorem mapRange_cons (m : PageMap) (first count pa perm : Nat) :
    (m.mapRange first 1 pa perm).mapRange (first + 1) count (pa + PGSIZE) perm =
      m.mapRange first (count + 1) pa perm := by
  funext v
  simp only [PageMap.mapRange]
  by_cases later : first + 1 ≤ v ∧ v < first + 1 + count
  · have here : first ≤ v ∧ v < first + (count + 1) := by omega
    have offset : v - first = v - (first + 1) + 1 := by omega
    rw [if_pos later, if_pos here, offset, PGSIZE]
    congr 2
    omega
  · rw [if_neg later]
    by_cases now : v = first
    · subst v
      have one : first ≤ first ∧ first < first + 1 := by omega
      have here : first ≤ first ∧ first < first + (count + 1) := by omega
      rw [if_pos one, if_pos here]
    · have one : ¬(first ≤ v ∧ v < first + 1) := by omega
      have here : ¬(first ≤ v ∧ v < first + (count + 1)) := by omega
      rw [if_neg one, if_neg here]

/-- One round of `mappages`: the walk, then the entry it stores. -/
theorem Refines.mapPage (h : Refines s root node pages m) {va pa perm pte : Nat} {new : List Nat}
    (low : va < MAXVA) (frame : Frame pa) (flags : perm < 2 ^ 9)
    (run : walk root va true s = .ok (pte, t)) (ne : pte ≠ 0)
    (log : t.allocated = new ++ s.allocated) (frames : ∀ page ∈ new, Frame page)
    (apart : (new ++ pages).Nodup) :
    ∃ node', Refines (t.setMem (t.mem.store pte 8 (leaf pa perm))) root node' (new ++ pages)
      (m.mapRange (va / PGSIZE) 1 pa perm) := by
  obtain ⟨nodup, _, outside⟩ := List.nodup_append.mp apart
  rw [walk, if_neg (by simp [window_of_lt low]), if_neg (by omega)] at run
  obtain ⟨node', grown⟩ := walkLevels_grow h.tree (Nat.le_refl 3)
    (by rw [above_top low, h.tree.root]) run log frames nodup
    fun page hp has => outside page hp page ((h.pages page).mp has) rfl
  obtain ⟨b, hb, rfl⟩ := grown.found ne
  refine ⟨node', grown.tree.setLeaf _ hb, fun page => ?_, fun x hx => ?_, fun {v q perm'} hv => ?_⟩
  · rw [grown.pages, h.pages, List.mem_append, or_comm]
  · rw [Ram.setMem_mem, grown.tree.setLeaf_entryAt (leaf_lt pa flags) hb, grown.same, h.entries x hx,
      PageMap.mapRange]
    by_cases here : x / PGSIZE = va / PGSIZE
    · rw [if_pos here, if_pos (by omega), here, Nat.sub_self, Nat.zero_mul, Nat.add_zero, entryOf]
    · rw [if_neg here, if_neg (by omega)]
  · rw [PageMap.mapRange] at hv
    split at hv
    · rename_i here
      have offset : v - va / PGSIZE = 0 := by omega
      rw [offset, Nat.zero_mul, Nat.add_zero] at hv
      cases hv
      exact ⟨frame, flags⟩
    · exact h.frames hv

theorem Refines.mapFrom {n v w pa perm : Nat} {new : List Nat} (h : Refines s root node pages m)
    (le : v ≤ w) (fuel : w - v < n) (low : w * PGSIZE < MAXVA) (flags : perm < 2 ^ 9)
    (frame : ∀ k ≤ w - v, Frame (pa + k * PGSIZE))
    (run : mappagesFrom root (w * PGSIZE) perm n (v * PGSIZE) pa s = .ok (0, t))
    (log : t.allocated = new ++ s.allocated) (frames : ∀ page ∈ new, Frame page)
    (apart : (new ++ pages).Nodup) :
    ∃ node', Refines t root node' (new ++ pages) (m.mapRange v (w - v + 1) pa perm) := by
  induction n generalizing s v pa node pages m new with
  | zero => omega
  | succ n ih =>
    have here : v * PGSIZE < MAXVA := lt_of_le_of_lt (Nat.mul_le_mul_right _ le) low
    have index : v * PGSIZE / PGSIZE = v := Nat.mul_div_cancel v (by decide)
    have frame₀ : Frame pa := by simpa using frame 0 (Nat.zero_le _)
    rw [mappagesFrom] at run
    obtain ⟨pte, u, hwalk, rest⟩ := Machine.bind_ok.mp run
    split at rest
    · cases rest
    · rename_i ne
      rw [Machine.bind_of_ok (load_run _ u)] at rest
      split at rest
      · cases rest
      · rw [Machine.bind_of_ok (store_run _ _ u)] at rest
        obtain ⟨first, hfirst⟩ := walk_log hwalk
        split at rest
        · rename_i stop
          cases rest
          obtain rfl : v = w := Nat.eq_of_mul_eq_mul_right (by decide) stop
          obtain ⟨node', refined⟩ := h.mapPage here frame₀ flags hwalk ne log frames apart
          rw [index] at refined
          exact ⟨node', by rwa [Nat.sub_self]⟩
        · rename_i more
          have lt : v < w := by
            rcases Nat.lt_or_eq_of_le le with lt | rfl
            · exact lt
            · exact absurd rfl more
          obtain ⟨later, hlater⟩ := mappagesFrom_log rest
          obtain rfl : new = later ++ first := by
            rw [hlater, Ram.setMem_allocated, hfirst, ← List.append_assoc] at log
            exact (List.append_cancel_right log).symm
          rw [List.append_assoc] at apart
          obtain ⟨node₁, refined⟩ := h.mapPage here frame₀ flags hwalk ne hfirst
            (fun page hp => frames page (List.mem_append_right _ hp)) (List.nodup_append.mp apart).2.1
          rw [index] at refined
          have next : u64 (v * PGSIZE + PGSIZE) = (v + 1) * PGSIZE := by
            have below : (v + 1) * PGSIZE < 2 ^ 46 :=
              lt_of_le_of_lt (Nat.mul_le_mul_right _ lt) low
            rw [Nat.succ_mul] at below ⊢
            exact Nat.mod_eq_of_lt (lt_trans below (by decide))
          have next' : u64 (pa + PGSIZE) = pa + PGSIZE :=
            Nat.mod_eq_of_lt (by simpa using (frame 1 (by omega)).lt)
          rw [next, next'] at rest
          obtain ⟨node₂, refined⟩ := ih refined lt (by omega)
            (fun k hk => by
              have := frame (k + 1) (by omega)
              rwa [Nat.succ_mul, Nat.add_comm (k * PGSIZE), ← Nat.add_assoc] at this)
            rest hlater (fun page hp => frames page (List.mem_append_left _ hp)) apart
          have count : w - (v + 1) + 1 = w - v := by omega
          rw [mapRange_cons, count] at refined
          exact ⟨node₂, by rwa [List.append_assoc]⟩

/-! ### Unmapping -/

theorem kfree_mem {pa : Nat} (h : kfree pa s = .ok ((), t)) {x : Nat}
    (outside : x < pa ∨ pa + PGSIZE ≤ x) : t.mem x = s.mem x := by
  rw [kfree, Machine.bind_of_ok (Machine.get_run s)] at h
  split at h
  · cases h
  · rw [Machine.bind_of_ok (memset_run _ _ _ s), Machine.bind_of_ok (store_run _ _ _)] at h
    cases h
    have link : x < pa ∨ pa + 8 ≤ x := by
      rw [PGSIZE] at outside
      omega
    simp only [Ram.setMem_mem]
    rw [Memory.store_outside _ link, Memory.fill_outside _ outside]

/-- Memory outside the table's own pages does not matter. -/
theorem Refines.congr (h : Refines s root node pages m)
    (same : ∀ page ∈ pages, ∀ i < PGSIZE, t.mem (page + i) = s.mem (page + i)) :
    Refines t root node pages m where
  tree := h.tree.congr fun ha => same _ ((h.pages _).mp ⟨_, _, ha⟩)
  pages := h.pages
  entries := by
    intro va low
    rw [← h.entries va low]
    exact entryAt_congr va fun ha => same _ ((h.pages _).mp ⟨_, _, ha⟩)
  frames := h.frames

/-- Taking one entry away. -/
theorem Refines.unmapPage (h : Refines s root node pages m) {va b : Nat}
    (hb : node 0 (above 0 va) = some b) :
    Refines (s.setMem (s.mem.store (b + 8 * PX 0 va) 8 0)) root node pages
      (m.unmapRange (va / PGSIZE) 1) where
  tree := h.tree.setLeaf 0 hb
  pages := h.pages
  entries := by
    intro x low
    rw [Ram.setMem_mem, h.tree.setLeaf_entryAt (by decide) hb, h.entries x low, PageMap.unmapRange]
    by_cases here : x / PGSIZE = va / PGSIZE
    · rw [if_pos here, if_pos (by omega), entryOf]
    · rw [if_neg here, if_neg (by omega)]
  frames := by
    intro v pa perm hv
    rw [PageMap.unmapRange] at hv
    split at hv
    · cases hv
    · exact h.frames hv

theorem unmapRange_cons (m : PageMap) (first count : Nat) :
    (m.unmapRange first 1).unmapRange (first + 1) count = m.unmapRange first (count + 1) := by
  funext v
  simp only [PageMap.unmapRange]
  by_cases later : first + 1 ≤ v ∧ v < first + 1 + count
  · rw [if_pos later, if_pos (by omega)]
  · rw [if_neg later]
    by_cases now : v = first
    · rw [if_pos (by omega), if_pos (by omega)]
    · rw [if_neg (by omega), if_neg (by omega)]

theorem Refines.unmapFrom {n v w : Nat} {do_free : Bool} (h : Refines s root node pages m)
    (le : v ≤ w) (fuel : w - v < n) (low : w * PGSIZE ≤ MAXVA)
    (free : do_free = true → ∀ x pa perm, v ≤ x → x < w → m x = some (pa, perm) → pa ∉ pages)
    (run : vmunmapFrom root (w * PGSIZE) do_free n (v * PGSIZE) s = .ok ((), t)) :
    Refines t root node pages (m.unmapRange v (w - v)) := by
  induction n generalizing s v m with
  | zero => omega
  | succ n ih =>
    rw [vmunmapFrom] at run
    split at run
    · rename_i more
      have lt : v < w := Nat.lt_of_mul_lt_mul_right more
      have here : v * PGSIZE < MAXVA := lt_of_lt_of_le more low
      have index : v * PGSIZE / PGSIZE = v := Nat.mul_div_cancel v (by decide)
      have entry := h.entries _ here
      rw [Machine.bind_of_ok (walk_find h.tree here)] at run
      simp only [entryAt, index] at entry
      cases hb : node 0 (above 0 (v * PGSIZE)) with
      | none =>
        rw [hb] at run
        cases run
      | some b =>
        simp only [hb] at entry
        have pos := (h.tree.frame hb).pos
        rw [hb, Option.elim_some, if_neg (by omega), Machine.bind_of_ok (load_run _ s), entry] at run
        split at run
        · cases run
        · split at run
          · cases run
          · obtain ⟨⟨⟩, u, hfree, rest⟩ := Machine.bind_ok.mp run
            rw [Machine.bind_of_ok (store_run _ _ u)] at rest
            -- freeing the frame touches no table page
            have kept : Refines u root node pages m := by
              split at hfree
              · rename_i freed
                cases hm : m v with
                | none =>
                  rename_i invalid _
                  rw [hm] at invalid
                  exact absurd (by simp [entryOf]) invalid
                | some q =>
                  obtain ⟨pa, perm⟩ := q
                  obtain ⟨frame, flags⟩ := h.frames hm
                  rw [hm, entryOf, PTE2PA_leaf frame flags, frame_window frame] at hfree
                  refine h.congr fun page hpage i hi => kfree_mem hfree ?_
                  have ne : page ≠ pa := by
                    rintro rfl
                    exact free freed v page perm (Nat.le_refl v) lt hm hpage
                  obtain ⟨l, p, hp⟩ := (h.pages page).mpr hpage
                  exact (h.tree.frame hp).disjoint frame ne ⟨by omega, by omega⟩
              · cases hfree
                exact h
            have refined := kept.unmapPage hb
            have next : u64 (v * PGSIZE + PGSIZE) = (v + 1) * PGSIZE := by
              have below : (v + 1) * PGSIZE ≤ 2 ^ 46 := le_trans (Nat.mul_le_mul_right _ lt) low
              rw [Nat.succ_mul] at below ⊢
              exact Nat.mod_eq_of_lt (lt_of_le_of_lt below (by decide))
            rw [index] at refined
            rw [next] at rest
            have done := ih refined lt (by omega) (fun freed x pa perm hx hw hm => by
              rw [PageMap.unmapRange, if_neg (by omega)] at hm
              exact free freed x pa perm (by omega) hw hm) rest
            have count : w - (v + 1) + 1 = w - v := by omega
            rwa [unmapRange_cons, count] at done
    · rename_i stop
      cases run
      obtain rfl : v = w := Nat.le_antisymm le
        (Nat.le_of_mul_le_mul_right (Nat.le_of_not_lt stop) (by decide))
      have none : m.unmapRange v (v - v) = m := by
        funext x
        rw [PageMap.unmapRange, if_neg (by omega)]
      rwa [none]

/-! ### Every table that is built -/

/-- A state, the pages `kalloc` gave to the table, and the map it should be. -/
structure Shadow where
  ram : Ram
  pages : List Nat
  map : PageMap

inductive Op where
  | mappages (va size pa perm : Nat)
  | vmunmap (va npages : Nat) (do_free : Bool)
  /-- Whatever the rest of the kernel does to memory it does own. -/
  | other

/-- The page numbers an operation is about. -/
def Op.About : Op → Nat → Prop
  | .mappages va size _ _, v => va / PGSIZE ≤ v ∧ v ≤ (va + size - 1) / PGSIZE
  | .vmunmap va npages _, v => va / PGSIZE ≤ v ∧ v < va / PGSIZE + npages
  | .other, _ => False

/-- One successful operation. A new table page is a page that the table does not
have yet, and only a frame that is not one of its pages is ever freed. -/
inductive Does (root : Nat) : Op → Shadow → Shadow → Prop where
  | mappages {x : Shadow} {va size pa perm : Nat} {t : Ram} {new : List Nat} (pos : 0 < size) (low : va + size ≤ MAXVA)
      (flags : perm < 2 ^ 9)
      (frame : ∀ k ≤ (va + size - 1) / PGSIZE - va / PGSIZE, Frame (pa + k * PGSIZE))
      (run : mappages root va size pa perm x.ram = .ok (0, t))
      (log : t.allocated = new ++ x.ram.allocated) (frames : ∀ page ∈ new, Frame page)
      (apart : (new ++ x.pages).Nodup) :
      Does root (.mappages va size pa perm) x ⟨t, new ++ x.pages,
        x.map.mapRange (va / PGSIZE) ((va + size - 1) / PGSIZE - va / PGSIZE + 1) pa perm⟩
  | vmunmap {x : Shadow} {va npages : Nat} {do_free : Bool} {t : Ram} (low : va + npages * PGSIZE ≤ MAXVA)
      (free : do_free = true → ∀ v pa perm, va / PGSIZE ≤ v → v < va / PGSIZE + npages →
        x.map v = some (pa, perm) → pa ∉ x.pages)
      (run : vmunmap root va npages do_free x.ram = .ok ((), t)) :
      Does root (.vmunmap va npages do_free) x ⟨t, x.pages, x.map.unmapRange (va / PGSIZE) npages⟩
  | other {x : Shadow} {t : Ram} (same : ∀ page ∈ x.pages, ∀ i < PGSIZE, t.mem (page + i) = x.ram.mem (page + i)) :
      Does root .other x ⟨t, x.pages, x.map⟩

inductive Built (root : Nat) : Shadow → Prop where
  | uvmcreate {s t : Ram} (run : uvmcreate s = .ok (root, t)) (got : root ≠ 0) (frame : Frame root) :
      Built root ⟨t, [root], fun _ => none⟩
  | step {o : Op} {x y : Shadow} (built : Built root x) (does : Does root o x y) : Built root y

/-- A page of zeroes is a table without entries. -/
theorem Refines.empty (frame : Frame root) (zero : ∀ i < PGSIZE, s.mem (root + i) = 0) :
    Refines s root (fun l p => if l = 3 ∧ p = 0 then some root else none) [root] fun _ => none := by
  refine ⟨⟨by simp, ?_, ?_, ?_, ?_⟩, ?_, ?_, ?_⟩
  · intro l p a ha
    split at ha
    · cases ha
      exact frame
    · cases ha
  · intro l p l' p' a ha hb
    split at ha <;> split at hb
    · omega
    · cases hb
    · cases ha
    · cases ha
  · intro l p a hl ha i hi
    split at ha
    · cases ha
      rw [if_neg (by omega)]
      have none : s.mem.fetch (root + 8 * i) 8 = 0 := Memory.fetch_zero fun j hj => by
        rw [Nat.add_assoc]
        exact zero _ (by rw [PGSIZE]; omega)
      simp only [none, Nat.zero_and]
    · cases ha
  · intro l q b hl hb
    rw [if_neg (by omega)] at hb
    cases hb
  · intro page
    rw [List.mem_singleton]
    constructor
    · rintro ⟨l, p, hp⟩
      simp only at hp
      split at hp
      · exact (Option.some.inj hp).symm
      · cases hp
    · rintro rfl
      exact ⟨3, 0, by simp⟩
  · intro va low
    simp [entryAt, entryOf]
  · intro v pa perm hv
    cases hv

/-- The empty table that `uvmcreate` makes. -/
theorem uvmcreate_refines (run : uvmcreate s = .ok (root, t)) (got : root ≠ 0)
    (frame : Frame root) :
    Refines t root (fun l p => if l = 3 ∧ p = 0 then some root else none) [root] fun _ => none := by
  rw [uvmcreate] at run
  obtain ⟨r, u, hr, rest⟩ := Machine.bind_ok.mp run
  split at rest
  · cases rest
    exact absurd rfl got
  · rw [Machine.bind_of_ok (memset_run _ _ _ u)] at rest
    cases rest
    refine .empty frame fun i hi => ?_
    rw [Ram.setMem_mem, Memory.fill, if_pos ⟨by omega, by omega⟩]
    rfl

theorem Does.refines {o : Op} {x y : Shadow} (does : Does root o x y)
    (h : Refines x.ram root node x.pages x.map) :
    ∃ node', Refines y.ram root node' y.pages y.map := by
  cases does with
  | @mappages _ va size pa perm t new pos low flags frame run log frames apart =>
    rw [MAXVA_eq] at low
    have small : u64 (va + size - 1) = va + size - 1 := by
      rw [u64, Nat.mod_eq_of_lt (by omega)]
    have last : (va + size - 1) / PGSIZE * PGSIZE < MAXVA := by
      rw [MAXVA_eq]
      exact lt_of_le_of_lt (Nat.div_mul_le_self _ _) (by omega)
    rw [Vm.mappages, if_neg (by omega), small] at run
    refine h.mapFrom (Nat.div_le_div_right (by omega)) ?_ last flags frame run log frames apart
    rw [PAGES, PGSIZE]
    omega
  | @vmunmap _ va npages do_free t low free run =>
    rw [Vm.vmunmap] at run
    split at run
    · cases run
    · rename_i aligned
      obtain ⟨v, rfl⟩ : ∃ v, va = v * PGSIZE :=
        ⟨va / PGSIZE, (Nat.div_mul_cancel (Nat.dvd_of_mod_eq_zero (by simpa using aligned))).symm⟩
      have index : v * PGSIZE / PGSIZE = v := Nat.mul_div_cancel v (by decide)
      rw [← Nat.add_mul] at low
      have low' : (v + npages) * PGSIZE ≤ 2 ^ 46 := low
      have stop : u64 (v * PGSIZE + u64 (npages * PGSIZE)) = (v + npages) * PGSIZE := by
        have sum : (v + npages) * PGSIZE = v * PGSIZE + npages * PGSIZE := Nat.add_mul _ _ _
        rw [u64, u64, Nat.mod_eq_of_lt (show npages * PGSIZE < 2 ^ 64 by omega),
          Nat.mod_eq_of_lt (by omega), sum]
      have count : v + npages - v = npages := by omega
      rw [stop] at run
      rw [index] at free
      have done := h.unmapFrom (Nat.le_add_right v npages) (by
        rw [count, PAGES]
        rw [PGSIZE] at low'
        omega) low (fun freed x pa perm hx hw => free freed x pa perm hx hw) run
      rw [count] at done
      exact ⟨node, by simpa only [index] using done⟩
  | other same => exact ⟨node, h.congr same⟩

theorem Built.refines {x : Shadow} (built : Built root x) :
    ∃ node, Refines x.ram root node x.pages x.map := by
  induction built with
  | uvmcreate run got frame => exact ⟨_, uvmcreate_refines run got frame⟩
  | step built does ih =>
    obtain ⟨node, h⟩ := ih
    exact does.refines h

theorem Does.map_same {o : Op} {x y : Shadow} (does : Does root o x y) {v : Nat}
    (away : ¬o.About v) : y.map v = x.map v := by
  cases does with
  | @mappages _ va size pa perm t new pos =>
    have : va / PGSIZE ≤ (va + size - 1) / PGSIZE := Nat.div_le_div_right (by omega)
    rw [Op.About] at away
    exact if_neg (by omega)
  | vmunmap =>
    rw [Op.About] at away
    exact if_neg (by omega)
  | other => rfl

/-- The four-level table is the map from page numbers to frames and flags that
its history says it is, and an operation on some pages leaves the translation
of every other page alone. -/
theorem pagetable_refines_map {x : Shadow} (built : Built root x) :
    (∀ va < MAXVA, (∃ pte, walk root va false x.ram = .ok (pte, x.ram)) ∧
      translation root va x.ram =
        (x.map (va / PGSIZE)).map fun (pa, perm) => (pa, perm ||| PTE_V ||| PTE_MAT ||| PTE_D)) ∧
    ∀ o y, Does root o x y → ∀ va < MAXVA, ¬o.About (va / PGSIZE) →
      translation root va y.ram = translation root va x.ram := by
  obtain ⟨node, h⟩ := built.refines
  refine ⟨fun va low => ⟨⟨_, walk_find h.tree low⟩, h.translation low⟩, ?_⟩
  intro o y does va low away
  obtain ⟨node', h'⟩ := (built.step does).refines
  rw [h'.translation low, h.translation low, does.map_same away]

/-- Four free pages. -/
def fourPages : Ram where
  mem := Memory.store (Memory.store (Memory.store (fun _ => 0) RAMBASE 8 (RAMBASE + PGSIZE))
    (RAMBASE + PGSIZE) 8 (RAMBASE + 2 * PGSIZE)) (RAMBASE + 2 * PGSIZE) 8 (RAMBASE + 3 * PGSIZE)
  freelist := RAMBASE
  npage := 4
  kernel_end := RAMBASE
  allocated := []
  freed := []
  touched := []

/-- What a successful call leaves. -/
def after {α : Type} (call : Machine Ram α) (s : Ram) : Ram :=
  match call s with
  | .ok (_, t) => t
  | .error _ => s

theorem frame_RAMBASE_add {k : Nat} (h : k < 2 ^ 40) (dvd : PGSIZE ∣ k) : Frame (RAMBASE + k) := by
  have base : RAMBASE = DMWIN_MASK + 0x90000000 := by decide
  refine ⟨0x90000000 + k, by omega, Nat.dvd_add (by decide) dvd, ?_⟩
  rw [DMWIN_MASK_or (by omega), base, Nat.add_assoc]

/-- The table that the four pages make, with its page 0 mapped at `RAMSTOP`. -/
def oneMapping : Ram :=
  after (mappages RAMBASE 0 PGSIZE RAMSTOP PTE_PLV3) (after uvmcreate fourPages)

def oneMappingPages : List Nat :=
  [RAMBASE + 3 * PGSIZE, RAMBASE + 2 * PGSIZE, RAMBASE + 1 * PGSIZE, RAMBASE]

theorem oneMapping_built :
    Built RAMBASE ⟨oneMapping, oneMappingPages,
      PageMap.mapRange (fun _ => none) 0 1 RAMSTOP PTE_PLV3⟩ := by
  have empty : Built RAMBASE ⟨after uvmcreate fourPages, [RAMBASE], fun _ => none⟩ :=
    .uvmcreate (s := fourPages) rfl (by decide) (frame_RAMBASE_add (k := 0) (by decide) (by decide))
  have pages : ∀ page ∈ [RAMBASE + 3 * PGSIZE, RAMBASE + 2 * PGSIZE, RAMBASE + 1 * PGSIZE],
      Frame page := by
    intro page hp
    simp only [List.mem_cons, List.not_mem_nil, or_false] at hp
    rcases hp with rfl | rfl | rfl <;>
      exact frame_RAMBASE_add (by decide) (Nat.dvd_mul_left _ _)
  have frame : ∀ k ≤ (0 + PGSIZE - 1) / PGSIZE - 0 / PGSIZE, Frame (RAMSTOP + k * PGSIZE) := by
    intro k hk
    have : k = 0 := by
      rw [PGSIZE] at hk
      omega
    subst k
    exact ⟨0x98000000, by decide, by decide, by decide⟩
  have does : Does RAMBASE (.mappages 0 PGSIZE RAMSTOP PTE_PLV3)
      ⟨after uvmcreate fourPages, [RAMBASE], fun _ => none⟩ _ :=
    .mappages (by decide) (by decide) (by decide) frame rfl rfl pages (by decide)
  exact empty.step does

theorem pagetable_refines_map_oneMapping :
    translation RAMBASE 0 oneMapping = some (RAMSTOP, PTE_PLV3 ||| PTE_V ||| PTE_MAT ||| PTE_D) ∧
    translation RAMBASE PGSIZE oneMapping = none := by
  have facts := (pagetable_refines_map oneMapping_built).1
  exact ⟨(facts 0 (by decide)).2, (facts PGSIZE (by decide)).2⟩

end AvxKernel.Vm
