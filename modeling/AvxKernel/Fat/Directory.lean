import AvxKernel.Fat.Entry

/-! A file as its cluster chain, and a directory as the list of its slots: what
`reloc_clus` and `rw_clus` do to a file whose chain is sound. -/
namespace AvxKernel.Fat

variable {fat : Geometry} {d d' : Disk} {cs : List Nat} {e : Dirent}

/-- The successor of a cluster in the table, as the loops over a chain read it. -/
def Geometry.next (fat : Geometry) (d : Disk) (c : Nat) : Option Nat :=
  let clus := d.fetch (fat.entryAt c) 4
  if isEnd clus then none else some clus

/-- The clusters of a file. -/
structure Clusters (fat : Geometry) (d : Disk) (cs : List Nat) : Prop where
  chain : Chain (fat.next d) cs
  range : ∀ c ∈ cs, fat.InRange c

/-- The entry's cursor is on the chain. -/
structure Cursor (e : Dirent) (cs : List Nat) : Prop where
  first : cs[0]? = some e.first_clus
  here : cs[e.clus_cnt]? = some e.cur_clus

theorem Cursor.lt (h : Cursor e cs) : e.clus_cnt < cs.length :=
  (List.getElem?_eq_some_iff.mp h.here).1

theorem Cursor.rewind (h : Cursor e cs) : Cursor e.rewind cs where
  first := h.first
  here := h.first

/-- The entry with its cursor at cluster `i` of the chain. -/
def Dirent.seek (e : Dirent) (cs : List Nat) (i : Nat) : Dirent :=
  { e with cur_clus := cs.getD i 0, clus_cnt := i }

theorem Cursor.seek (h : Cursor e cs) {i : Nat} (hi : i < cs.length) : Cursor (e.seek cs i) cs where
  first := h.first
  here := by simp [Dirent.seek, hi]

@[simp] theorem Dirent.seek_seek (i j : Nat) : (e.seek cs i).seek cs j = e.seek cs j := rfl

@[simp] theorem Dirent.seek_rewind (i : Nat) : e.rewind.seek cs i = e.seek cs i := rfl

@[simp] theorem Dirent.rewind_seek (i : Nat) : (e.seek cs i).rewind = e.rewind := rfl

theorem Cursor.seek_self (h : Cursor e cs) : e.seek cs e.clus_cnt = e := by
  have := h.here
  cases e
  simp_all [Dirent.seek]

theorem Cursor.rewind_eq (h : Cursor e cs) : e.rewind = e.seek cs 0 := by
  have := h.first
  cases e
  simp_all [Dirent.seek, Dirent.rewind]

theorem Clusters.read_next (h : Clusters fat d cs) {i : Nat} (hi : i + 1 < cs.length) :
    read_fat fat cs[i] d = .ok (cs[i + 1], d) ∧ fat.InRange cs[i + 1] := by
  have next := h.chain.next_getElem hi
  have range := h.range cs[i + 1] (List.getElem_mem _)
  rw [read_fat_run (h.range _ (List.getElem_mem _))]
  rw [Geometry.next] at next
  split at next
  · cases next
  · exact ⟨by rw [Option.some.inj next], range⟩

theorem Clusters.read_last (h : Clusters fat d cs) {i : Nat} (hi : i + 1 = cs.length) :
    ∃ clus, read_fat fat cs[i] d = .ok (clus, d) ∧ isEnd clus := by
  have next := h.chain.next_last hi
  refine ⟨_, read_fat_run (h.range _ (List.getElem_mem _)), ?_⟩
  rw [Geometry.next] at next
  split at next
  · assumption
  · cases next

theorem InRange.not_end {c : Nat} (h : fat.InRange c) : ¬isEnd c := fun hend =>
  absurd h.lt_EOC (Nat.not_lt.mpr hend.1)

/-- The place of a cursor on the chain. -/
theorem Dirent.seek_cur (e : Dirent) {i : Nat} (hi : i < cs.length) : (e.seek cs i).cur_clus = cs[i] :=
  List.getD_eq_getElem _ _ hi

theorem Dirent.seek_advance (e : Dirent) {i : Nat} (hi : i + 1 < cs.length) :
    (e.seek cs i).advance cs[i + 1] = e.seek cs (i + 1) := by
  simp [Dirent.seek, Dirent.advance, hi]

/-- Within the chain the first loop steps along it. -/
theorem relocForward_along (h : Clusters fat d cs) (alloc : Bool) {more i : Nat} (rest : Nat)
    (hi : i + more < cs.length) :
    relocForward fat alloc (more + rest) (e.seek cs i) d =
      relocForward fat alloc rest (e.seek cs (i + more)) d := by
  induction more generalizing i with
  | zero => rw [Nat.zero_add, Nat.add_zero]
  | succ more ih =>
    have inside : i + 1 < cs.length := by omega
    obtain ⟨read, range⟩ := h.read_next inside
    have good : cs[i + 1] ≠ FAT32_BAD := Nat.ne_of_lt range.lt
    rw [Nat.add_right_comm, relocForward, e.seek_cur (Nat.lt_of_succ_lt inside), Machine.bind_of_ok read,
      if_neg (InRange.not_end range), if_neg good, e.seek_advance inside, ih (by omega),
      Nat.add_right_comm i, Nat.add_assoc i]

theorem relocForward_inside (h : Clusters fat d cs) (alloc : Bool) {more i : Nat}
    (hi : i + more < cs.length) :
    relocForward fat alloc more (e.seek cs i) d = .ok ((true, e.seek cs (i + more)), d) :=
  relocForward_along h alloc 0 hi

/-- Past the end of the chain it gives up. -/
theorem relocForward_outside (h : Clusters fat d cs) {more i : Nat} (hi : i < cs.length)
    (out : cs.length ≤ i + more) :
    relocForward fat false more (e.seek cs i) d = .ok ((false, e.rewind), d) := by
  obtain ⟨ahead, length⟩ := Nat.exists_eq_add_of_lt hi
  obtain ⟨rest, rfl⟩ := Nat.exists_eq_add_of_le (show ahead + 1 ≤ more by omega)
  obtain ⟨clus, read, done⟩ := h.read_last length.symm
  rw [Nat.add_assoc, Nat.add_comm 1, relocForward_along h false (rest + 1) (by omega), relocForward,
    e.seek_cur (by omega), Machine.bind_of_ok read, if_pos done, if_neg (by simp)]
  rfl

theorem relocFromStart_run (h : Clusters fat d cs) {more i : Nat} (hi : i + more < cs.length) :
    relocFromStart fat more (e.seek cs i) d = .ok (e.seek cs (i + more), d) := by
  induction more generalizing i with
  | zero => rfl
  | succ more ih =>
    have inside : i + 1 < cs.length := by omega
    obtain ⟨read, range⟩ := h.read_next inside
    rw [relocFromStart, e.seek_cur (Nat.lt_of_succ_lt inside), Machine.bind_of_ok read,
      if_neg (Nat.not_le.mpr range.lt_EOC), e.seek_advance inside, ih (by omega), Nat.add_right_comm,
      Nat.add_assoc]

/-- `reloc_clus` to an offset in the chain. -/
theorem reloc_clus_inside (h : Clusters fat d cs) (cursor : Cursor e cs) (alloc : Bool) {off : Nat}
    (hoff : off < cs.length * fat.byts_per_clus) :
    reloc_clus fat e off alloc d =
      .ok ((some (off % fat.byts_per_clus), e.seek cs (off / fat.byts_per_clus)), d) := by
  have target : off / fat.byts_per_clus < cs.length :=
    (Nat.div_lt_iff_lt_mul Geometry.byts_per_clus_pos).mpr hoff
  have lt := cursor.lt
  have forward : relocForward fat alloc (off / fat.byts_per_clus - e.clus_cnt)
      (e.seek cs e.clus_cnt) d = _ := relocForward_inside h alloc (by omega)
  rw [cursor.seek_self] at forward
  rw [reloc_clus, Machine.bind_of_ok forward]
  dsimp only
  rw [if_neg (by simp)]
  rcases Nat.lt_or_ge (off / fat.byts_per_clus) e.clus_cnt with back | front
  · have stay : off / fat.byts_per_clus - e.clus_cnt = 0 := by omega
    have again : relocFromStart fat (off / fat.byts_per_clus) (e.seek cs 0) d = _ :=
      relocFromStart_run h (by omega)
    rw [stay, Nat.add_zero, cursor.seek_self, if_pos back, cursor.rewind_eq,
      Machine.bind_of_ok again, Nat.zero_add]
    rfl
  · have exact_ : e.clus_cnt + (off / fat.byts_per_clus - e.clus_cnt) =
        off / fat.byts_per_clus := by omega
    rw [exact_, if_neg (by simp [Dirent.seek])]
    rfl

/-- `reloc_clus` to an offset behind the chain, without allocating. -/
theorem reloc_clus_outside (h : Clusters fat d cs) (cursor : Cursor e cs) {off : Nat}
    (hoff : cs.length * fat.byts_per_clus ≤ off) :
    reloc_clus fat e off false d = .ok ((none, e.rewind), d) := by
  have target : cs.length ≤ off / fat.byts_per_clus :=
    (Nat.le_div_iff_mul_le Geometry.byts_per_clus_pos).mpr hoff
  have lt := cursor.lt
  have forward : relocForward fat false (off / fat.byts_per_clus - e.clus_cnt)
      (e.seek cs e.clus_cnt) d = _ := relocForward_outside h lt (by omega)
  rw [cursor.seek_self] at forward
  rw [reloc_clus, Machine.bind_of_ok forward]
  rfl

/-! ### The slots of a directory -/

def Geometry.slots (fat : Geometry) : Nat := fat.sec_per_clus * (BSIZE / 32)

theorem Geometry.byts_per_clus_eq : fat.byts_per_clus = 32 * fat.slots := by
  rw [Geometry.byts_per_clus, Geometry.slots, BSIZE]
  omega

theorem Geometry.slots_pos (fat : Geometry) : 0 < fat.slots := Nat.mul_pos fat.sectors (by decide)

/-- How many slots the chain has room for. -/
def capacity (fat : Geometry) (cs : List Nat) : Nat := cs.length * fat.slots

/-- The address of slot `i`. -/
def Geometry.slotAt (fat : Geometry) (cs : List Nat) (i : Nat) : Nat :=
  fat.clusterAt (cs.getD (i / fat.slots) 0) + 32 * (i % fat.slots)

def slotsOf (fat : Geometry) (d : Disk) (cs : List Nat) : List Slot :=
  (List.range (capacity fat cs)).map fun i => d.window (fat.slotAt cs i) 32

@[simp] theorem slotsOf_length : (slotsOf fat d cs).length = capacity fat cs := by
  simp [slotsOf]

theorem slotsOf_getElem? {i : Nat} (hi : i < capacity fat cs) :
    (slotsOf fat d cs)[i]? = some (d.window (fat.slotAt cs i) 32) := by
  simp [slotsOf, hi]

theorem slotsOf_drop {i : Nat} (hi : i < capacity fat cs) :
    (slotsOf fat d cs).drop i =
      d.window (fat.slotAt cs i) 32 :: (slotsOf fat d cs).drop (i + 1) := by
  have lt : i < (slotsOf fat d cs).length := by rwa [slotsOf_length]
  rw [List.drop_eq_getElem_cons lt]
  congr 1
  simp [slotsOf]

/-- Cluster and offset of a slot, as `reloc_clus` finds them. -/
theorem slot_place (fat : Geometry) (i : Nat) : 32 * i / fat.byts_per_clus = i / fat.slots ∧
    32 * i % fat.byts_per_clus = 32 * (i % fat.slots) := by
  rw [Geometry.byts_per_clus_eq]
  exact ⟨Nat.mul_div_mul_left _ _ (by decide), Nat.mul_mod_mul_left _ _ _⟩

theorem capacity_bytes : cs.length * fat.byts_per_clus = 32 * capacity fat cs := by
  rw [capacity, Geometry.byts_per_clus_eq, Nat.mul_left_comm]

theorem cluster_lt {i : Nat} (hi : i < capacity fat cs) : i / fat.slots < cs.length :=
  (Nat.div_lt_iff_lt_mul fat.slots_pos).mpr hi

theorem slot_in_cluster (fat : Geometry) (i : Nat) :
    32 * (i % fat.slots) + 32 ≤ fat.byts_per_clus := by
  have := Nat.mod_lt i fat.slots_pos
  rw [Geometry.byts_per_clus_eq]
  omega

theorem Clusters.slot_range (h : Clusters fat d cs) {i : Nat} (hi : i < capacity fat cs) :
    fat.InRange (cs.getD (i / fat.slots) 0) := by
  have lt := cluster_lt hi
  rw [List.getD_eq_getElem _ _ lt]
  exact h.range _ (List.getElem_mem _)

/-- Different slots lie apart. -/
theorem Clusters.slots_apart (h : Clusters fat d cs) {i j : Nat} (hi : i < capacity fat cs)
    (hj : j < capacity fat cs) (ne : i ≠ j) :
    fat.slotAt cs i + 32 ≤ fat.slotAt cs j ∨ fat.slotAt cs j + 32 ≤ fat.slotAt cs i := by
  have := slot_in_cluster fat i
  have := slot_in_cluster fat j
  rw [Geometry.slotAt, Geometry.slotAt]
  rcases eq_or_ne (i / fat.slots) (j / fat.slots) with same | differ
  · have : i % fat.slots ≠ j % fat.slots := fun mod => ne <| by
      rw [← Nat.div_add_mod i fat.slots, ← Nat.div_add_mod j fat.slots, same, mod]
    rw [same]
    omega
  · have clusters : cs.getD (i / fat.slots) 0 ≠ cs.getD (j / fat.slots) 0 := by
      rw [List.getD_eq_getElem _ _ (cluster_lt hi), List.getD_eq_getElem _ _ (cluster_lt hj)]
      exact fun eq => differ ((h.chain.nodup.getElem_inj_iff).mp eq)
    rcases Geometry.clusterAt_disjoint (h.slot_range hi) (h.slot_range hj) clusters with a | b
    · exact .inl (by omega)
    · exact .inr (by omega)

/-- The table lies before every slot. -/
theorem Geometry.entryAt_lt_slotAt (cs : List Nat) {c : Nat} (h : fat.InRange c) (i : Nat) :
    fat.entryAt c + 4 ≤ fat.slotAt cs i :=
  (Geometry.entryAt_lt_clusterAt h).trans (Nat.le_add_right _ _)

/-- Chains do not depend on what the clusters hold. -/
theorem Clusters.congr (h : Clusters fat d cs)
    (same : ∀ c ∈ cs, d'.fetch (fat.entryAt c) 4 = d.fetch (fat.entryAt c) 4) :
    Clusters fat d' cs where
  chain := h.chain.congr fun c hc => by rw [Geometry.next, Geometry.next, same c hc]
  range := h.range

theorem Clusters.blit (h : Clusters fat d cs) {cs' : List Nat} (i : Nat) (bytes : List UInt8) :
    Clusters fat (d.blit (fat.slotAt cs' i) bytes) cs :=
  h.congr fun _ hc => Memory.fetch_congr fun k hk =>
    d.blit_outside (.inl (by have := Geometry.entryAt_lt_slotAt cs' (h.range _ hc) i; omega))

/-- `reloc_clus` to a slot. -/
theorem reloc_slot (h : Clusters fat d cs) (cursor : Cursor e cs) (alloc : Bool) {i : Nat}
    (hi : i < capacity fat cs) : reloc_clus fat e (32 * i) alloc d =
      .ok ((some (32 * (i % fat.slots)), e.seek cs (i / fat.slots)), d) := by
  obtain ⟨quot, rem⟩ := slot_place fat i
  have moved : reloc_clus fat e (32 * i) alloc d = _ :=
    reloc_clus_inside h cursor alloc (by rw [capacity_bytes]; omega)
  rw [quot, rem] at moved
  exact moved

theorem read_slot (h : Clusters fat d cs) {i : Nat} (hi : i < capacity fat cs) :
    rw_clus_read fat (e.seek cs (i / fat.slots)).cur_clus (32 * (i % fat.slots)) 32 d =
      .ok (d.window (fat.slotAt cs i) 32, d) :=
  rw_clus_read_run (h.slot_range hi) (by decide) (slot_in_cluster fat i)

theorem write_slot (h : Clusters fat d cs) {i : Nat} (hi : i < capacity fat cs) {de : Slot}
    (len : de.length = 32) :
    rw_clus_write fat (e.seek cs (i / fat.slots)).cur_clus (.ofBytes de) (32 * (i % fat.slots)) 32 d =
      .ok (32, d.blit (fat.slotAt cs i) de) := by
  have written : rw_clus_write fat (cs.getD (i / fat.slots) 0) (.ofBytes de)
      (32 * (i % fat.slots)) de.length d = _ :=
    rw_clus_write_run (h.slot_range hi) (by omega) (by rw [len]; exact slot_in_cluster fat i)
  rw [len] at written
  exact written

theorem putSlot_run (h : Clusters fat d cs) (cursor : Cursor e cs) {i : Nat}
    (hi : i < capacity fat cs) {de : Slot} (len : de.length = 32) :
    putSlot fat e (32 * i) de d =
      .ok (e.seek cs (i / fat.slots), d.blit (fat.slotAt cs i) de) := by
  rw [putSlot, Machine.bind_of_ok (reloc_slot h cursor true hi)]
  exact Machine.bind_of_ok (write_slot h hi len)

/-- Slots written one after the other, from slot `i` on. -/
def Geometry.put (fat : Geometry) (cs : List Nat) : Disk → Nat → List Slot → Disk
  | d, _, [] => d
  | d, i, de :: rest => fat.put cs (d.blit (fat.slotAt cs i) de) (i + 1) rest

theorem Clusters.put (h : Clusters fat d cs) (cs' : List Nat) (i : Nat) (slots : List Slot) :
    Clusters fat (fat.put cs' d i slots) cs := by
  induction slots generalizing d i with
  | nil => exact h
  | cons de rest ih => exact ih (h.blit i de) (i + 1)

theorem put_append (i : Nat) (slots more : List Slot) :
    fat.put cs d i (slots ++ more) = fat.put cs (fat.put cs d i slots) (i + slots.length) more := by
  induction slots generalizing d i with
  | nil => rfl
  | cons de rest ih =>
    have shift : i + (de :: rest).length = i + 1 + rest.length := by
      rw [List.length_cons]
      omega
    rw [shift]
    exact ih (i + 1)

theorem put_outside {i x : Nat} {slots : List Slot} (len : ∀ s ∈ slots, s.length = 32)
    (out : ∀ k, i ≤ k → k < i + slots.length → x < fat.slotAt cs k ∨ fat.slotAt cs k + 32 ≤ x) :
    fat.put cs d i slots x = d x := by
  induction slots generalizing d i with
  | nil => rfl
  | cons de rest ih =>
    rw [List.length_cons] at out
    rw [Geometry.put, ih (fun s hs => len s (List.mem_cons_of_mem _ hs))
      fun k low high => out k (by omega) (by omega)]
    refine d.blit_outside ?_
    rw [len de List.mem_cons_self]
    exact out i (Nat.le_refl i) (by omega)

theorem slotsOf_blit (h : Clusters fat d cs) {i : Nat} (hi : i < capacity fat cs) {de : Slot}
    (len : de.length = 32) :
    slotsOf fat (d.blit (fat.slotAt cs i) de) cs = (slotsOf fat d cs).set i de := by
  apply List.ext_getElem
  · simp
  · intro j hj _
    rw [slotsOf_length] at hj
    rcases eq_or_ne i j with rfl | ne
    · have same := Memory.window_blit_same d (fat.slotAt cs i) de
      rw [len] at same
      simpa [slotsOf] using same
    · rw [List.getElem_set_ne ne]
      simp only [slotsOf, List.getElem_map, List.getElem_range]
      have apart := h.slots_apart hi hj ne
      exact Memory.window_blit_outside _ (by omega)

theorem slotsOf_put (h : Clusters fat d cs) {i : Nat} {slots : List Slot}
    (fit : i + slots.length ≤ capacity fat cs) (len : ∀ s ∈ slots, s.length = 32) :
    slotsOf fat (fat.put cs d i slots) cs =
      (slotsOf fat d cs).take i ++ slots ++ (slotsOf fat d cs).drop (i + slots.length) := by
  induction slots generalizing d i with
  | nil => simp [Geometry.put]
  | cons de rest ih =>
    rw [List.length_cons] at fit ⊢
    have hi : i < capacity fat cs := by omega
    have shift : i + (rest.length + 1) = i + 1 + rest.length := by omega
    rw [Geometry.put, ih (h.blit i de) (by omega) fun s hs => len s (List.mem_cons_of_mem _ hs),
      slotsOf_blit h hi (len de List.mem_cons_self), shift, List.drop_set, if_pos (by omega),
      List.take_set, List.take_add_one, List.set_append_right _ _ (by simp)]
    simp [Nat.min_eq_left (Nat.le_of_lt hi), slotsOf_getElem? hi]

/-! ### Reading a directory slot by slot -/

/-- The loop of `enext` over the slots that are left. -/
def scan : List Slot → Scan → Except Halt (Int × Scan)
  | [], s => .ok (-1, s)
  | de :: rest, s =>
    match s.slot de with
    | .error h => .error h
    | .ok (some type, s) => .ok (type, s)
    | .ok (none, s) => scan rest s

/-- One round of `enext`, at a slot of the chain. -/
theorem enextFrom_step (h : Clusters fat d cs) (cursor : Cursor e cs) {i : Nat}
    (inside : i < capacity fat cs) {limit : Nat} {s : Scan} {result : Option Int × Scan}
    (step : s.slot (d.window (fat.slotAt cs i) 32) = .ok result) :
    enextFrom fat (limit + 1) e (32 * i) s d =
      match result with
      | (some type, s') => .ok ((type, e.seek cs (i / fat.slots), s'), d)
      | (none, s') => enextFrom fat limit (e.seek cs (i / fat.slots)) (u32 (32 * i + 32)) s' d := by
  have moved := reloc_slot h cursor false inside
  have read := read_slot h (e := e) inside
  rw [enextFrom, Machine.bind_of_ok moved]
  dsimp only
  rw [Machine.bind_of_ok read, Machine.bind_of_ok (Machine.lift_run step _)]
  obtain ⟨type, s'⟩ := result
  cases type <;> rfl

/-- Where the slots from `i` on decide within the 32-bit offsets. -/
theorem enextFrom_within (h : Clusters fat d cs) (cursor : Cursor e cs) {pre rest : List Slot}
    {limit i : Nat} (here : (slotsOf fat d cs).drop i = pre ++ rest)
    (small : 32 * (i + pre.length) ≤ 2 ^ 32) (enough : pre.length ≤ limit) {s s' : Scan}
    {type : Int} (found : scan pre s = .ok (type, s')) (file : type ≠ -1) :
    ∃ k < cs.length, enextFrom fat limit e (32 * i) s d = .ok ((type, e.seek cs k, s'), d) := by
  induction pre generalizing i e s limit with
  | nil =>
    cases found
    exact absurd rfl file
  | cons de pre ih =>
    rw [List.length_cons] at small enough
    obtain ⟨limit, rfl⟩ : ∃ l, limit = l + 1 := ⟨limit - 1, by omega⟩
    have inside : i < capacity fat cs := by
      rcases Nat.lt_or_ge i (capacity fat cs) with lt | ge
      · exact lt
      · rw [List.drop_eq_nil_of_le (by rwa [slotsOf_length])] at here
        simp at here
    rw [slotsOf_drop inside, List.cons_append] at here
    obtain ⟨same, tail⟩ := List.cons.inj here
    rw [scan] at found
    cases step : s.slot de with
    | error halt => simp [step] at found
    | ok result =>
      obtain ⟨type', s₁⟩ := result
      rw [enextFrom_step h cursor inside (same ▸ step)]
      cases type' with
      | some type' =>
        simp only [step, Except.ok.injEq, Prod.mk.injEq] at found
        obtain ⟨rfl, rfl⟩ := found
        exact ⟨_, cluster_lt inside, rfl⟩
      | none =>
        simp only [step] at found
        -- a slot that does not decide is not the last of them
        have more : pre ≠ [] := by
          rintro rfl
          cases found
          exact file rfl
        have := List.length_pos_iff.mpr more
        have off : u32 (32 * i + 32) = 32 * (i + 1) := by
          rw [u32, Nat.mod_eq_of_lt (by omega)]
          omega
        obtain ⟨k, hk, run⟩ := ih (cursor.seek (cluster_lt inside)) (i := i + 1) tail (by omega)
          (show pre.length ≤ limit by omega) found
        refine ⟨k, hk, ?_⟩
        dsimp only
        rw [off]
        exact run

theorem enextFrom_run (h : Clusters fat d cs) (cursor : Cursor e cs)
    (small : 32 * capacity fat cs < 2 ^ 32) {limit i : Nat} (hi : i ≤ capacity fat cs)
    (enough : capacity fat cs - i < limit) {s s' : Scan} {type : Int}
    (found : scan ((slotsOf fat d cs).drop i) s = .ok (type, s')) :
    ∃ k < cs.length, enextFrom fat limit e (32 * i) s d = .ok ((type, e.seek cs k, s'), d) := by
  induction limit generalizing i e s with
  | zero => omega
  | succ limit ih =>
    rcases Nat.lt_or_ge i (capacity fat cs) with inside | last
    · rw [slotsOf_drop inside, scan] at found
      cases step : s.slot (d.window (fat.slotAt cs i) 32) with
      | error halt => simp [step] at found
      | ok result =>
        obtain ⟨type', s₁⟩ := result
        rw [enextFrom_step h cursor inside step]
        cases type' with
        | some type' =>
          simp only [step, Except.ok.injEq, Prod.mk.injEq] at found
          obtain ⟨rfl, rfl⟩ := found
          exact ⟨_, cluster_lt inside, rfl⟩
        | none =>
          simp only [step] at found
          have off : u32 (32 * i + 32) = 32 * (i + 1) := by
            rw [u32, Nat.mod_eq_of_lt (by omega)]
            omega
          obtain ⟨k, hk, run⟩ := ih (cursor.seek (cluster_lt inside)) (i := i + 1) (by omega)
            (by omega) found
          refine ⟨k, hk, ?_⟩
          dsimp only
          rw [off]
          exact run
    · have nothing : (slotsOf fat d cs).drop i = [] := by
        apply List.drop_eq_nil_of_le
        rw [slotsOf_length]
        exact last
      rw [nothing, scan] at found
      cases found
      have lost : reloc_clus fat e (32 * i) false d = _ :=
        reloc_clus_outside h cursor (by rw [capacity_bytes]; omega)
      rw [enextFrom, Machine.bind_of_ok lost]
      exact ⟨0, Nat.lt_of_le_of_lt (Nat.zero_le _) cursor.lt, by rw [cursor.rewind_eq]; rfl⟩

/-- The start of a call of `enext`. -/
def Scan.start (ep : Dirent) (count : Nat) : Scan :=
  ⟨{ ep with filename := ep.filename.clear (FAT32_MAX_FILENAME + 1) }, 0, count, true⟩

theorem enext_run (h : Clusters fat d cs) (cursor : Cursor e cs) (dir : e.isDir = true)
    (valid : e.valid = 1) (small : 32 * capacity fat cs < 2 ^ 32) {i : Nat}
    (hi : i ≤ capacity fat cs) {ep : Dirent} {count : Nat} {s' : Scan} {type : Int}
    (found : scan ((slotsOf fat d cs).drop i) (.start ep count) = .ok (type, s')) :
    ∃ k < cs.length,
      enext fat e ep (32 * i) count d = .ok ((type, e.seek cs k, s'.ep, s'.count), d) := by
  have enough : capacity fat cs - i < SLOTS + 1 := by
    rw [SLOTS]
    omega
  obtain ⟨k, hk, run⟩ := enextFrom_run h cursor small hi enough found
  refine ⟨k, hk, ?_⟩
  rw [enext, if_neg (by simp [dir]), if_neg (by omega), if_neg (by simp [valid])]
  exact Machine.bind_of_ok run

theorem enext_within (h : Clusters fat d cs) (cursor : Cursor e cs) (dir : e.isDir = true)
    (valid : e.valid = 1) {pre rest : List Slot} {i : Nat}
    (here : (slotsOf fat d cs).drop i = pre ++ rest) (small : 32 * (i + pre.length) ≤ 2 ^ 32)
    {ep : Dirent} {count : Nat} {s' : Scan} {type : Int}
    (found : scan pre (.start ep count) = .ok (type, s')) (file : type ≠ -1) :
    ∃ k < cs.length,
      enext fat e ep (32 * i) count d = .ok ((type, e.seek cs k, s'.ep, s'.count), d) := by
  have enough : pre.length ≤ SLOTS + 1 := by
    rw [SLOTS]
    omega
  obtain ⟨k, hk, run⟩ := enextFrom_within h cursor here small enough found file
  refine ⟨k, hk, ?_⟩
  rw [enext, if_neg (by simp [dir]), if_neg (by omega), if_neg (by simp [valid])]
  exact Machine.bind_of_ok run

end AvxKernel.Fat
