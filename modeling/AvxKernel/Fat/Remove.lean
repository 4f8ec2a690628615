import AvxKernel.Fat.Listing

/-! Removing an entry from its directory, and writing its size back: `eremove` and
`eupdate`. Both take the number of its slots from the first byte of the first, which
says so only in a long-name slot. -/
namespace AvxKernel.Fat

section Program

variable (fat : Geometry)

/-- `order & ~LAST_LONG_ENTRY`, or what the first byte of another slot comes to. -/
def entryCount (order : Nat) : Nat := order &&& 0xBF

/-- The loop of `eremove`: `n` slots still to mark, the first at `off`, which is at
`off2` of the current cluster. -/
def eraseSlots : Nat → Dirent → Nat → Option Nat → Machine Disk Dirent
  | 0, dp, _, _ => return dp
  | n + 1, dp, off, off2 => do
    let _ ← rw_clus_write fat dp.cur_clus (.ofBytes [UInt8.ofNat EMPTY_ENTRY]) (unsignedOff off2) 1
    let off := u32 (off + 32)
    let (off2, dp) ← reloc_clus fat dp off false
    eraseSlots n dp off off2

/-- The parent and the entry. -/
def eremove (dp entry : Dirent) : Machine Disk (Dirent × Dirent) :=
  if entry.valid ≠ 1 then
    return (dp, entry)
  else do
    let (off2, dp) ← reloc_clus fat dp entry.off false
    let order ← rw_clus_read fat dp.cur_clus (unsignedOff off2) 1
    let dp ← eraseSlots fat (entryCount (field order 0 1) + 1) dp entry.off off2
    return (dp, { entry with valid := -1 })

/-- The slot with another first cluster and another size. -/
def Slot.update (de : Slot) (first_clus file_size : Nat) : Slot :=
  de.take 20 ++ bytesOf (first_clus / 2 ^ 16) 2 ++ (de.drop 22).take 4 ++
    bytesOf (first_clus % 2 ^ 16) 2 ++ bytesOf file_size 4

/-- The parent and the entry. -/
def eupdate (dp entry : Dirent) : Machine Disk (Dirent × Dirent) :=
  if entry.dirty = false ∨ entry.valid ≠ 1 then
    return (dp, entry)
  else do
    let (off, dp) ← reloc_clus fat dp entry.off false
    let order ← rw_clus_read fat dp.cur_clus (unsignedOff off) 1
    let (off, dp) ← reloc_clus fat dp (u32 (entry.off + entryCount (field order 0 1) <<< 5)) false
    let de ← rw_clus_read fat dp.cur_clus (unsignedOff off) 32
    let _ ← rw_clus_write fat dp.cur_clus (.ofBytes (Slot.update de entry.first_clus entry.file_size))
      (unsignedOff off) 32
    return (dp, { entry with dirty := false })

/-! ### What they should do -/

/-- The disk with `n` slots of a directory marked as deleted, from slot `i` on. -/
def Geometry.erased (cs : List Nat) (d : Disk) (i n : Nat) : Disk := fun x =>
  if ∃ k < n, x = fat.slotAt cs (i + k) then UInt8.ofNat EMPTY_ENTRY else d x

/-- The disk with another first cluster and size in slot `i` of a directory. -/
def Geometry.updated (cs : List Nat) (d : Disk) (i first_clus file_size : Nat) : Disk :=
  d.blit (fat.slotAt cs i) (Slot.update (d.window (fat.slotAt cs i) 32) first_clus file_size)

/-- A file of `k` long-name slots and a short-name slot begins at slot `i`. -/
def FileAt (slots : List Slot) (i k : Nat) : Prop :=
  ∃ pieces short, (Item.file pieces short).Sound ∧ pieces.length = k ∧
    (Item.file pieces short).slots <+: slots.drop i

/-- `eremove` marks the slots of the file, and no others; `eupdate` writes the first
cluster and the size, whatever they are, to its short-name slot, and nothing else. -/
structure Exact (d : Disk) (cs : List Nat) (dp e : Dirent) (i k : Nat) : Prop where
  removed : ∃ dp', eremove fat dp e d =
    .ok ((dp', { e with valid := -1 }), fat.erased cs d i (k + 1))
  updated : ∀ first_clus < 2 ^ 32, ∀ file_size < 2 ^ 32, ∃ dp',
    eupdate fat dp { e with first_clus, file_size, dirty := true } d =
      .ok ((dp', { e with first_clus, file_size, dirty := false }),
        fat.updated cs d (i + k) first_clus file_size)

end Program

variable {fat : Geometry} {d : Disk} {cs : List Nat} {dp e : Dirent} {slots : List Slot}
  {i k n : Nat}

/-! ### Single bytes and slots -/

theorem Directory.order_read (dir : Directory fat d cs dp) (hi : i < capacity fat cs) :
    rw_clus_read fat (dp.seek cs (i / fat.slots)).cur_clus (32 * (i % fat.slots)) 1 d =
      .ok ([d (fat.slotAt cs i)], d) := by
  have inside := slot_in_cluster fat i
  have byte : d.window (fat.slotAt cs i) 1 = [d (fat.slotAt cs i)] := by
    rw [Memory.window, List.range_one, List.map_singleton, Nat.add_zero]
  rw [← byte]
  exact rw_clus_read_run (dir.clusters.slot_range hi) Nat.one_pos (by omega)

theorem Directory.blit (dir : Directory fat d cs dp) (i : Nat) (bytes : List UInt8) :
    Directory fat (d.blit (fat.slotAt cs i) bytes) cs dp :=
  { dir with clusters := dir.clusters.blit i bytes }

theorem erased_zero (cs : List Nat) (d : Disk) (i : Nat) : fat.erased cs d i 0 = d := by
  funext x
  exact if_neg fun ⟨k, lt, _⟩ => absurd lt (Nat.not_lt_zero k)

theorem erased_succ (cs : List Nat) (d : Disk) (i n : Nat) :
    fat.erased cs (d.blit (fat.slotAt cs i) [UInt8.ofNat EMPTY_ENTRY]) (i + 1) n =
      fat.erased cs d i (n + 1) := by
  funext x
  by_cases first : x = fat.slotAt cs i
  · have marked : d.blit (fat.slotAt cs i) [UInt8.ofNat EMPTY_ENTRY] x =
        UInt8.ofNat EMPTY_ENTRY := by
      simp [first, Memory.blit]
    have here : ∃ k < n + 1, x = fat.slotAt cs (i + k) := ⟨0, Nat.succ_pos n, first⟩
    rw [Geometry.erased, Geometry.erased, marked, ite_self, if_pos here]
  · have kept : d.blit (fat.slotAt cs i) [UInt8.ofNat EMPTY_ENTRY] x = d x :=
      d.blit_outside (by rw [List.length_singleton]; omega)
    have same : (∃ k < n, x = fat.slotAt cs (i + 1 + k)) ↔ ∃ k < n + 1, x = fat.slotAt cs (i + k) := by
      constructor
      · rintro ⟨k, lt, eq⟩
        exact ⟨k + 1, Nat.succ_lt_succ lt, by rw [eq, Nat.add_assoc, Nat.add_comm 1]⟩
      · rintro ⟨k, lt, eq⟩
        cases k with
        | zero => exact absurd eq first
        | succ k =>
          exact ⟨k, Nat.lt_of_succ_lt_succ lt, by rw [eq, Nat.add_assoc, Nat.add_comm 1]⟩
    simp only [Geometry.erased, kept, same]

theorem Directory.order_erase (dir : Directory fat d cs dp) (hi : i < capacity fat cs) :
    rw_clus_write fat (dp.seek cs (i / fat.slots)).cur_clus (.ofBytes [UInt8.ofNat EMPTY_ENTRY])
      (32 * (i % fat.slots)) 1 d =
      .ok (1, d.blit (fat.slotAt cs i) [UInt8.ofNat EMPTY_ENTRY]) := by
  have inside := slot_in_cluster fat i
  exact rw_clus_write_run (dir.clusters.slot_range hi) Nat.one_pos
    (show 32 * (i % fat.slots) + 1 ≤ _ by omega)

theorem Directory.next_off (dir : Directory fat d cs dp) (hi : i < capacity fat cs) :
    u32 (32 * i + 32) = 32 * (i + 1) := by
  have small := dir.small
  rw [u32, Nat.mod_eq_of_lt (by omega)]
  omega

/-- The loop of `eremove`, where the slots to mark are all there. -/
theorem eraseSlots_run (dir : Directory fat d cs dp) (fit : i + n < capacity fat cs) :
    ∃ k < cs.length, eraseSlots fat (n + 1) (dp.seek cs (i / fat.slots)) (32 * i)
      (some (32 * (i % fat.slots))) d = .ok (dp.seek cs k, fat.erased cs d i (n + 1)) := by
  induction n generalizing dp d i with
  | zero =>
    have inside : i < capacity fat cs := fit
    have after := (dir.seek (cluster_lt inside)).blit i [UInt8.ofNat EMPTY_ENTRY]
    rw [← erased_succ, erased_zero, eraseSlots, unsignedOff, Option.getD_some,
      Machine.bind_of_ok (dir.order_erase inside), dir.next_off inside]
    rcases Nat.lt_or_ge (i + 1) (capacity fat cs) with more | last
    · have moved := reloc_slot after.clusters after.cursor false more
      exact ⟨_, cluster_lt more, Machine.bind_of_ok moved⟩
    · have moved := reloc_clus_outside after.clusters after.cursor
        (show _ ≤ 32 * (i + 1) by rw [capacity_bytes]; omega)
      rw [after.cursor.rewind_eq] at moved
      exact ⟨0, Nat.lt_of_le_of_lt (Nat.zero_le _) dir.cursor.lt, Machine.bind_of_ok moved⟩
  | succ n ih =>
    have inside : i < capacity fat cs := by omega
    have after := (dir.seek (cluster_lt inside)).blit i [UInt8.ofNat EMPTY_ENTRY]
    have moved := reloc_slot (i := i + 1) after.clusters after.cursor false (by omega)
    obtain ⟨k, hk, run⟩ := ih (i := i + 1) after (by omega)
    refine ⟨k, hk, ?_⟩
    rw [← erased_succ, eraseSlots, unsignedOff, Option.getD_some,
      Machine.bind_of_ok (dir.order_erase inside), dir.next_off inside, Machine.bind_of_ok moved]
    exact run

theorem order_field (b : UInt8) : field [b] 0 1 = b.toNat := field_one [b] 0

theorem eremove_run (dir : Directory fat d cs dp) (valid : e.valid = 1) (off : e.off = 32 * i)
    (count : entryCount (d (fat.slotAt cs i)).toNat = n) (fit : i + n < capacity fat cs) :
    ∃ k < cs.length, eremove fat dp e d =
      .ok ((dp.seek cs k, { e with valid := -1 }), fat.erased cs d i (n + 1)) := by
  have inside : i < capacity fat cs := by omega
  obtain ⟨k, hk, run⟩ := eraseSlots_run dir fit
  refine ⟨k, hk, ?_⟩
  rw [eremove, if_neg (not_not.mpr valid), off,
    Machine.bind_of_ok (reloc_slot dir.clusters dir.cursor false inside)]
  dsimp only
  rw [unsignedOff, Option.getD_some, Machine.bind_of_ok (dir.order_read inside), order_field, count,
    Machine.bind_of_ok run]
  rfl

/-! ### Writing an entry back -/

theorem Slot.update_length {de : Slot} (len : de.length = 32) (first_clus file_size : Nat) :
    (Slot.update de first_clus file_size).length = 32 := by
  simp [Slot.update, len]

/-- `eupdate`, by the slot that it finds. -/
theorem eupdate_of (dir : Directory fat d cs dp) (valid : e.valid = 1) (dirty : e.dirty = true)
    (off : e.off = 32 * i) (count : entryCount (d (fat.slotAt cs i)).toNat = n)
    (inside : i < capacity fat cs) {off2 : Option Nat} {dp' : Dirent} {de : Slot} {m : Nat}
    {d' : Disk}
    (moved : reloc_clus fat (dp.seek cs (i / fat.slots)) (u32 (32 * i + n <<< 5)) false d =
      .ok ((off2, dp'), d))
    (read : rw_clus_read fat dp'.cur_clus (unsignedOff off2) 32 d = .ok (de, d))
    (wrote : rw_clus_write fat dp'.cur_clus (.ofBytes (Slot.update de e.first_clus e.file_size))
      (unsignedOff off2) 32 d = .ok (m, d')) :
    eupdate fat dp e d = .ok ((dp', { e with dirty := false }), d') := by
  rw [eupdate, if_neg (by simp [dirty, valid]), off,
    Machine.bind_of_ok (reloc_slot dir.clusters dir.cursor false inside)]
  dsimp only
  rw [unsignedOff, Option.getD_some, Machine.bind_of_ok (dir.order_read inside), order_field, count,
    Machine.bind_of_ok moved]
  dsimp only
  rw [Machine.bind_of_ok read, Machine.bind_of_ok wrote]
  rfl

theorem eupdate_slot (dir : Directory fat d cs dp) (valid : e.valid = 1) (dirty : e.dirty = true)
    (off : e.off = 32 * i) (count : entryCount (d (fat.slotAt cs i)).toNat = n)
    (inside : i < capacity fat cs) {j : Nat} (target : u32 (32 * i + n <<< 5) = 32 * j)
    (found : j < capacity fat cs) : eupdate fat dp e d =
      .ok ((dp.seek cs (j / fat.slots), { e with dirty := false }),
        fat.updated cs d j e.first_clus e.file_size) := by
  have there := dir.seek (cluster_lt inside)
  have moved := reloc_slot there.clusters there.cursor false found
  rw [← target, Dirent.seek_seek] at moved
  exact eupdate_of dir valid dirty off count inside moved (read_slot dir.clusters found)
    (write_slot dir.clusters found (Slot.update_length (d.window_length _ 32) _ _))

theorem eupdate_run (dir : Directory fat d cs dp) (valid : e.valid = 1) (dirty : e.dirty = true)
    (off : e.off = 32 * i) (count : entryCount (d (fat.slotAt cs i)).toNat = n)
    (fit : i + n < capacity fat cs) : ∃ dp', eupdate fat dp e d =
      .ok ((dp', { e with dirty := false }), fat.updated cs d (i + n) e.first_clus e.file_size) := by
  have small := dir.small
  have target : u32 (32 * i + n <<< 5) = 32 * (i + n) := by
    rw [Nat.shiftLeft_eq, u32, Nat.mod_eq_of_lt (by omega)]
    omega
  exact ⟨_, eupdate_slot dir valid dirty off count (by omega) target fit⟩

/-! ### Past the end of the directory -/

/-- Where 32 bytes go at the offset that stands for -1: to two sectors. -/
theorem rounds_lost (sec : Nat) :
    rounds 32 32 sec 511 0 = [(sec * BSIZE + 511, 0, 1), (u32 (sec + 1) * BSIZE, 1, 31)] := by
  have first : min (BSIZE - 511 % BSIZE) (32 - 0) = 1 ∧ 511 % BSIZE = 511 := by decide
  have second : min (BSIZE - (511 + 1) % BSIZE) (32 - (0 + 1)) = 31 ∧ (511 + 1) % BSIZE = 0 := by
    decide
  rw [rounds, if_pos (by decide)]
  dsimp only
  rw [first.1, first.2, rounds, if_pos (by decide)]
  dsimp only
  rw [second.1, second.2, rounds, if_neg (by decide)]
  simp only [Nat.add_zero, Nat.zero_add]

theorem lost_check : ¬fat.byts_per_clus < u32 (unsignedOff none + 32) := by
  have pos := Nat.mul_le_mul_right BSIZE fat.sectors
  have wrapped : u32 (unsignedOff none + 32) = 31 := by decide
  rw [wrapped, Geometry.byts_per_clus]
  rw [BSIZE] at pos ⊢
  omega

theorem Slot.update_first {de : Slot} {b : UInt8} {more : List UInt8} (parts : de = b :: more)
    (first_clus file_size : Nat) : (Slot.update de first_clus file_size).take 1 = [b] := by
  rw [parts]
  rfl

/-- What is read and written back there leaves the last byte of every slot alone. -/
theorem update_lost {c : Nat} (range : fat.InRange c) (first_clus file_size : Nat) : ∃ de d' m,
    rw_clus_read fat c (unsignedOff none) 32 d = .ok (de, d) ∧
      rw_clus_write fat c (.ofBytes (Slot.update de first_clus file_size)) (unsignedOff none) 32 d =
        .ok (m, d') ∧
      ∀ x, x % 32 = 31 → d' x = d x := by
  have off : unsignedOff none % BSIZE = 511 := by decide
  generalize far : u32 ((c - 2) * fat.sec_per_clus + fat.first_data_sec + unsignedOff none / BSIZE) = sec
  have read : rw_clus_read fat c (unsignedOff none) 32 d =
      .ok (d (sec * BSIZE + 511) :: d.window (u32 (sec + 1) * BSIZE) 31, d) := by
    rw [rw_clus_read, if_neg lost_check, Machine.bind_of_ok (first_sec_of_clus_run range),
      Machine.bind_of_ok (Machine.get_run d), off, far, rounds_lost]
    simp only [List.flatMap_cons, List.flatMap_nil, List.append_nil]
    rfl
  generalize parts : d (sec * BSIZE + 511) :: d.window (u32 (sec + 1) * BSIZE) 31 = de at read
  have first := Slot.update_first parts.symm first_clus file_size
  refine ⟨de, (d.blit (sec * BSIZE + 511) [d (sec * BSIZE + 511)]).blit (u32 (sec + 1) * BSIZE)
    (((Slot.update de first_clus file_size).drop 1).take 31), 32, read, ?_, ?_⟩
  · rw [rw_clus_write, if_neg lost_check, Machine.bind_of_ok (first_sec_of_clus_run range), off, far,
      rounds_lost]
    generalize Slot.update de first_clus file_size = bytes at first ⊢
    have moved : (do
        modify fun b : Disk => b.blit (sec * BSIZE + 511) ((Source.ofBytes bytes).copy 0 1).1
        return ((Source.ofBytes bytes).copy 0 1).2 : Machine Disk Bool) d =
        .ok (true, d.blit (sec * BSIZE + 511) [d (sec * BSIZE + 511)]) := by
      rw [← first]
      rfl
    rw [transfer]
    refine (Machine.bind_of_ok moved).trans ?_
    rw [if_pos rfl]
    rfl
  · intro x last
    have later : x < u32 (sec + 1) * BSIZE ∨
        u32 (sec + 1) * BSIZE + (((Slot.update de first_clus file_size).drop 1).take 31).length ≤ x := by
      have few := List.length_take_le 31 ((Slot.update de first_clus file_size).drop 1)
      rw [BSIZE]
      omega
    rw [Memory.blit_outside _ later]
    by_cases same : x = sec * BSIZE + 511
    · simp [same, Memory.blit]
    · exact Memory.blit_outside _ (by rw [List.length_singleton]; omega)

/-- Where the first byte leads past the slot itself, the slot keeps its last byte. -/
theorem eupdate_missed (dir : Directory fat d cs dp) (valid : e.valid = 1) (dirty : e.dirty = true)
    (off : e.off = 32 * i) (inside : i < capacity fat cs)
    (some : 0 < entryCount (d (fat.slotAt cs i)).toNat) : ∃ r d',
    eupdate fat dp e d = .ok (r, d') ∧ d' (fat.slotAt cs i + 31) = d (fat.slotAt cs i + 31) := by
  generalize count : entryCount (d (fat.slotAt cs i)).toNat = n at some
  have few : n ≤ 0xBF := count ▸ Nat.and_le_right
  have small := dir.small
  have target : u32 (32 * i + n <<< 5) = 32 * ((i + n) % 2 ^ 27) := by
    rw [Nat.shiftLeft_eq, u32]
    omega
  have other : (i + n) % 2 ^ 27 ≠ i := by omega
  have there := dir.seek (cluster_lt inside)
  generalize (i + n) % 2 ^ 27 = j at target other
  rcases Nat.lt_or_ge j (capacity fat cs) with found | lost
  · refine ⟨_, _, eupdate_slot dir valid dirty off count inside target found, ?_⟩
    have apart := dir.clusters.slots_apart inside found (Ne.symm other)
    have len := Slot.update_length (d.window_length (fat.slotAt cs j) 32) e.first_clus e.file_size
    exact Memory.blit_outside _ (by rw [len]; omega)
  · have first : fat.InRange (dp.seek cs (i / fat.slots)).first_clus :=
      there.clusters.range _ (List.mem_of_getElem? there.cursor.first)
    have moved := reloc_clus_outside there.clusters there.cursor
      (show _ ≤ 32 * j by rw [capacity_bytes]; omega)
    rw [← target] at moved
    obtain ⟨de, d', m, read, wrote, kept⟩ := update_lost (d := d) first e.first_clus e.file_size
    refine ⟨_, d', eupdate_of dir valid dirty off count inside moved read wrote, kept _ ?_⟩
    rw [Geometry.slotAt, Geometry.clusterAt, BSIZE]
    omega

/-! ### The first byte of a file -/

/-- The first byte of a file's slots tells their number if there is a piece of a name;
otherwise it is a character. -/
theorem FileAt.first (file : FileAt (slotsOf fat d cs) i k) : i + k < capacity fat cs ∧
    (0 < k → entryCount (d (fat.slotAt cs i)).toNat = k) ∧
    (k = 0 → (entryCount (d (fat.slotAt cs i)).toNat = 0 ↔ d (fat.slotAt cs i) = 0x40)) := by
  obtain ⟨pieces, short, sound, rfl, front⟩ := file
  have fit := front.length_le
  rw [Item.slots, List.length_append, List.length_singleton, List.length_drop, slotsOf_length] at fit
  have inside : i < capacity fat cs := by omega
  obtain ⟨de, more, parts, here, -⟩ := file_first sound
  rw [parts, slotsOf_drop inside, List.cons_prefix_cons] at front
  have order : de.order = (d (fat.slotAt cs i)).toNat := by
    rw [front.1, order_window]
  refine ⟨by omega, fun some => ?_, fun none => ?_⟩
  · obtain ⟨whole, -⟩ := sound
    cases pieces with
    | nil => cases some
    | cons first pieces =>
      obtain ⟨small, -, marked, -⟩ := whole
      have bits : ∀ n < 20, entryCount ((n + 1) ||| LAST_LONG_ENTRY) = n + 1 := by decide
      rw [Item.slots, List.cons_append] at parts
      rw [← order, ← (List.cons.inj parts).1, marked, bits _ small, List.length_cons]
  · have bits : ∀ n < 256, n ≠ 0 → (entryCount n = 0 ↔ n = 0x40) := by
      decide +kernel
    rw [← UInt8.toNat_inj]
    exact bits _ (UInt8.toNat_lt _) (order ▸ here)

theorem Slot.update_last {de : Slot} (len : de.length = 32) (first_clus file_size : Nat) :
    (Slot.update de first_clus file_size).getD 31 0 = UInt8.ofNat (file_size / 256 / 256 / 256) := by
  rw [Slot.update, List.getD_append_right _ _ _ _ (by simp [len])]
  simp [len, bytesOf]

/-- The last byte of a slot is that of the size. -/
theorem updated_last (cs : List Nat) (d : Disk) (i first_clus file_size : Nat) :
    fat.updated cs d i first_clus file_size (fat.slotAt cs i + 31) =
      UInt8.ofNat (file_size / 256 / 256 / 256) := by
  have size := Slot.update_length (d.window_length (fat.slotAt cs i) 32) first_clus file_size
  rw [Geometry.updated, Memory.blit, if_pos ⟨Nat.le_add_right _ _, by omega⟩, Nat.add_sub_cancel_left,
    Slot.update_last (d.window_length _ 32)]

theorem Exact.iff (dir : Directory fat d cs dp) (valid : e.valid = 1) (off : e.off = 32 * i)
    (file : FileAt (slotsOf fat d cs) i k) :
    Exact fat d cs dp e i k ↔ 0 < k ∨ d (fat.slotAt cs i) = 0x40 := by
  obtain ⟨fit, long, short⟩ := file.first
  constructor
  · intro exact
    by_contra other
    rw [not_or, Nat.not_lt, Nat.le_zero] at other
    obtain ⟨rfl, char⟩ := other
    have some : 0 < entryCount (d (fat.slotAt cs i)).toNat :=
      Nat.pos_of_ne_zero fun none => char ((short rfl).mp none)
    have missed : ∀ file_size < 2 ^ 32,
        UInt8.ofNat (file_size / 256 / 256 / 256) = d (fat.slotAt cs i + 31) := by
      intro file_size small
      obtain ⟨dp', run⟩ := exact.updated 0 (by decide) file_size small
      obtain ⟨r, d', run', kept⟩ := eupdate_missed (e := { e with first_clus := 0, file_size, dirty := true })
        dir valid rfl off fit some
      cases run.symm.trans run'
      rw [← kept, Nat.add_zero, updated_last]
    have zero := missed 0 (by decide)
    have one := missed (2 ^ 24) (by decide)
    rw [← zero] at one
    exact absurd one (by decide)
  · intro aimed
    have count : entryCount (d (fat.slotAt cs i)).toNat = k := by
      rcases aimed with some | char
      · exact long some
      · rcases Nat.eq_zero_or_pos k with none | some
        · exact ((short none).mpr char).trans none.symm
        · exact long some
    obtain ⟨last, -, removed⟩ := eremove_run dir valid off count fit
    exact ⟨⟨_, removed⟩, fun first_clus _ file_size _ =>
      eupdate_run (e := { e with first_clus, file_size, dirty := true }) dir valid rfl off count fit⟩

/-- An entry that `dirlookup` has found is removed and written back exactly where its
file has a long-name slot, or its short name begins with "@". -/
theorem remove_update_exact_iff {ep dp' : Dirent} {filename : List UInt8} {items : List Item}
    {tail : List Slot} {poff : Option Nat} {d' : Disk} (dir : Directory fat d cs dp)
    (lists : Lists (slotsOf fat d cs) items tail)
    (cached : ep.valid = 1 → filename ≠ [] →
      ∃ i k, ep.off = 32 * i ∧ FileAt (slotsOf fat d cs) i k)
    (look : dirlookup fat dp ep filename d = .ok ((some e, dp', poff), d')) :
    (filename ≠ [] → ∃ i k, e.off = 32 * i ∧ FileAt (slotsOf fat d cs) i k) ∧
      ((∃ i k, e.off = 32 * i ∧ FileAt (slotsOf fat d cs) i k ∧ Exact fat d' cs dp' e i k) ↔
        ∃ i k, e.off = 32 * i ∧ FileAt (slotsOf fat d cs) i k ∧
          (0 < k ∨ d (fat.slotAt cs i) = 0x40)) := by
  have found : Directory fat d' cs dp' ∧ d' = d ∧ e.valid = 1 ∧
      (filename ≠ [] → ∃ i k, e.off = 32 * i ∧ FileAt (slotsOf fat d cs) i k) := by
    by_cases hit : ep.valid = 1
    · rw [dirlookup, if_neg (by simp [dir.dir]), if_neg (by simp [dir.valid]), if_pos hit] at look
      cases look
      exact ⟨dir, rfl, hit, cached hit⟩
    · obtain ⟨k, hk, ⟨found, last⟩, search, run⟩ := dirlookup_run dir lists hit filename
      cases look.symm.trans run
      obtain ⟨off, valid, front, items', split, place, file⟩ := searchFrom_found
        (show Lists (List.drop 0 _) items tail from lists) search
      refine ⟨dir.seek hk, rfl, valid, fun named => ?_⟩
      obtain ⟨pieces, short, more, rfl⟩ := file named
      refine ⟨last, pieces.length, off, pieces, short, ?_, rfl, ?_⟩
      · exact lists.sound _ (split ▸ List.mem_append_right _ List.mem_cons_self)
      · rw [split] at lists
        have parts := lists.drop.parts
        rw [place, Nat.zero_add, parts, List.flatMap_cons, List.append_assoc]
        exact List.prefix_append _ _
  obtain ⟨dir', rfl, valid, file⟩ := found
  refine ⟨file, ?_⟩
  constructor
  · rintro ⟨i, k, off, at_slot, exact⟩
    exact ⟨i, k, off, at_slot, (Exact.iff dir' valid off at_slot).mp exact⟩
  · rintro ⟨i, k, off, at_slot, aimed⟩
    exact ⟨i, k, off, at_slot, (Exact.iff dir' valid off at_slot).mpr aimed⟩

/-! ### A directory of one file -/

theorem rootHolds_file {pieces : List Slot} {short : Slot} (sound : (Item.file pieces short).Sound)
    (few : pieces.length < 15) (long : ∀ de ∈ (Item.file pieces short).slots, de.length = 32) :
    Lists (slotsOf bareVolume (rootHolds (Item.file pieces short).slots) [2])
      [.file pieces short] ((slotsOf bareVolume bareDisk [2]).drop (pieces.length + 1)) := by
  have count : (Item.file pieces short).slots.length = pieces.length + 1 := by
    rw [Item.slots, List.length_append, List.length_singleton]
  have one : ([.file pieces short] : List Item).flatMap Item.slots = (Item.file pieces short).slots :=
    List.flatMap_singleton _ _
  have lists := @rootHolds_lists [.file pieces short]
    (fun item mem => List.mem_singleton.mp mem ▸ sound) (by rw [one]; omega) (by rwa [one])
  rwa [one, count] at lists

theorem rootHolds_lookup {pieces : List Slot} {short : Slot} {filename : List UInt8} {s : Scan}
    (sound : (Item.file pieces short).Sound) (few : pieces.length < 15)
    (long : ∀ de ∈ (Item.file pieces short).slots, de.length = 32)
    (read : scan (Item.file pieces short).slots (.start blankEntry 0) = .ok (1, s))
    (same : sameName filename s.ep.filename) : ∃ e dp',
    dirlookup bareVolume bareRoot blankEntry filename (rootHolds (Item.file pieces short).slots) =
        .ok ((some e, dp', none), rootHolds (Item.file pieces short).slots) ∧
      Directory bareVolume (rootHolds (Item.file pieces short).slots) [2] dp' ∧ e.valid = 1 ∧
      e.off = 32 * 0 ∧
      FileAt (slotsOf bareVolume (rootHolds (Item.file pieces short).slots) [2]) 0 pieces.length := by
  have lists := rootHolds_file sound few long
  obtain ⟨k, hk, r, search, run⟩ := dirlookup_run (rootHolds_directory _) lists
    (show blankEntry.valid ≠ 1 by decide) filename
  have parts := lists.parts
  rw [List.flatMap_singleton] at parts
  rw [searchFrom, List.drop_zero, parts, scan_append read (by decide)] at search
  dsimp only at search
  rw [if_neg (by decide), if_pos same] at search
  cases search
  refine ⟨_, _, run, (rootHolds_directory _).seek hk, rfl, rfl, pieces, short, sound, rfl, ?_⟩
  rw [List.drop_zero, parts]
  exact List.prefix_append _ _

/-- With a long-name slot in front of it, the file is called "a". -/
def longA : Slot := longSlot (1 ||| LAST_LONG_ENTRY) (cal_checksum (65 :: List.replicate 10 32))
  (nameUnits bareFile.filename CHAR_LONG_NAME 0 false)

theorem remove_update_exact_long : ∃ e dp' d',
    dirlookup bareVolume bareRoot blankEntry [97] (rootHolds [longA, shortA]) =
        .ok ((some e, dp', none), d') ∧
      ∃ i k, e.off = 32 * i ∧ FileAt (slotsOf bareVolume (rootHolds [longA, shortA]) [2]) i k ∧
        Exact bareVolume d' [2] dp' e i k := by
  have sound : (Item.file [longA] shortA).Sound := by decide
  have long : ∀ de ∈ (Item.file [longA] shortA).slots, de.length = 32 := by decide
  obtain ⟨e, dp', look, -, -, off, file⟩ : ∃ e dp', dirlookup _ _ _ [97] _ = _ ∧ _ :=
    rootHolds_lookup sound (by decide) long rfl (by decide)
  refine ⟨e, dp', _, look, ((remove_update_exact_iff (rootHolds_directory _)
    (rootHolds_file sound (by decide) long) (fun hit => absurd hit (by decide)) look).2).mpr ?_⟩
  exact ⟨0, 1, off, file, .inl Nat.one_pos⟩

/-- A file with a short name only: another slot gets its size. -/
theorem update_misses_short : ∃ e dp' d',
    dirlookup bareVolume bareRoot blankEntry [65] (rootHolds [shortA]) =
        .ok ((some e, dp', none), d') ∧
      e.off = 32 * 0 ∧ FileAt (slotsOf bareVolume (rootHolds [shortA]) [2]) 0 0 ∧
        ¬Exact bareVolume d' [2] dp' e 0 0 := by
  have sound : (Item.file [] shortA).Sound := by decide
  have long : ∀ de ∈ (Item.file [] shortA).slots, de.length = 32 := by decide
  obtain ⟨e, dp', look, dir, valid, off, file⟩ : ∃ e dp', dirlookup _ _ _ [65] _ = _ ∧ _ :=
    rootHolds_lookup sound (by decide) long rfl (by decide)
  refine ⟨e, dp', _, look, off, file, fun exact => ?_⟩
  have first : rootHolds [shortA] (bareVolume.slotAt [2] 0) = 65 := by
    rw [rootHolds, Geometry.put, Geometry.put, Memory.blit, if_pos ⟨Nat.le_refl _, by decide⟩,
      Nat.sub_self]
    rfl
  rcases (Exact.iff dir valid off file).mp exact with some | char
  · cases some
  · exact absurd (first.symm.trans char) (by decide)

end AvxKernel.Fat
