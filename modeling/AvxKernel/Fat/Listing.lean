import AvxKernel.Fat.Codec

/-! What a directory lists: deleted slots, and files, each with the pieces of its
name and a short-name slot. `dirlookup` goes from one to the next. -/
namespace AvxKernel.Fat

/-- Pieces of a name down to the first, none of them marked as the last. -/
def Chunks : List Slot → Prop
  | [] => True
  | de :: rest => de.attr = ATTR_LONG_NAME ∧ de.order = rest.length + 1 ∧ Chunks rest

instance decChunks : ∀ pieces, Decidable (Chunks pieces)
  | [] => isTrue trivial
  | _ :: rest =>
    have := decChunks rest
    inferInstanceAs (Decidable (_ ∧ _ ∧ _))

/-- All pieces of a name. -/
def Pieces : List Slot → Prop
  | [] => True
  | de :: rest => rest.length < 20 ∧ de.attr = ATTR_LONG_NAME ∧
      de.order = (rest.length + 1) ||| LAST_LONG_ENTRY ∧ Chunks rest

instance : ∀ pieces, Decidable (Pieces pieces)
  | [] => isTrue trivial
  | _ :: _ => inferInstanceAs (Decidable (_ ∧ _ ∧ _ ∧ _))

inductive Item where
  | deleted (de : Slot)
  | file (pieces : List Slot) (short : Slot)

def Item.slots : Item → List Slot
  | .deleted de => [de]
  | .file pieces short => pieces ++ [short]

def Item.Sound : Item → Prop
  | .deleted de => de.order = EMPTY_ENTRY
  | .file pieces short =>
    Pieces pieces ∧ short.order ∉ [END_OF_ENTRY, EMPTY_ENTRY] ∧ short.attr ≠ ATTR_LONG_NAME

instance : ∀ item : Item, Decidable item.Sound
  | .deleted _ => inferInstanceAs (Decidable (_ = _))
  | .file _ _ => inferInstanceAs (Decidable (_ ∧ _ ∧ _))

/-- A directory of some items, which ends with its slots or with a slot that says so. -/
structure Lists (slots : List Slot) (items : List Item) (tail : List Slot) : Prop where
  parts : slots = items.flatMap Item.slots ++ tail
  sound : ∀ item ∈ items, item.Sound
  ends : ∀ de ∈ tail.head?, de.order = END_OF_ENTRY

section Program

variable (fat : Geometry)

/-- `strncmp` of a name and a filename. -/
def sameName (filename : List UInt8) (buf : Buffer) : Bool :=
  buf.chars FAT32_MAX_FILENAME = filename.take FAT32_MAX_FILENAME

/-- The loop of `dirlookup`: the entry, the directory, and the offset. `type` is the
result of a comparison, so no run of empty slots is taken for the new entry. -/
def lookupFrom (filename : List UInt8) :
    Nat → Dirent → Dirent → Nat → Nat → Machine Disk (Option Dirent × Dirent × Nat)
  | 0, _, _, _, _ => Machine.halt .diverge
  | limit + 1, dp, ep, off, count => do
    let (type, dp, ep, count) ← enext fat dp ep off count
    if type = -1 then
      return (none, dp, off)
    else if sameName filename ep.filename then
      return (some { ep with off, valid := 1 }, dp, off)
    else
      lookupFrom filename limit dp ep (u32 (off + count <<< 5)) count

/-- The same over the slots of a directory: the entry, and where the loop ends. -/
def searchFrom (filename : List UInt8) (slots : List Slot) :
    Nat → Dirent → Nat → Nat → Except Halt (Option Dirent × Nat)
  | 0, _, _, _ => .error .diverge
  | limit + 1, ep, i, count =>
    match scan (slots.drop i) (.start ep count) with
    | .error h => .error h
    | .ok (type, s) =>
      if type = -1 then
        .ok (none, i)
      else if sameName filename s.ep.filename then
        .ok (some { s.ep with off := 32 * i, valid := 1 }, i)
      else
        searchFrom filename slots limit s.ep (i + s.count) s.count

/-- `dirlookup` of a name other than "." and "..", where `ep` is what `eget` has
returned: the entry, the directory, and what is stored through `poff`. -/
def dirlookup (dp ep : Dirent) (filename : List UInt8) :
    Machine Disk (Option Dirent × Dirent × Option Nat) :=
  if dp.isDir = false then
    Machine.panic "dirlookup not DIR"
  else if dp.valid ≠ 1 then
    return (none, dp, none)
  else if ep.valid = 1 then
    return (some ep, dp, none)
  else do
    let (_, dp) ← reloc_clus fat dp 0 false
    let (found, dp, off) ← lookupFrom fat filename (SLOTS + 1) dp ep 0 0
    return (found, dp, if found.isNone then some off else none)

end Program

variable {slots rest tail : List Slot} {items : List Item} {de : Slot} {s : Scan} {n : Nat}

/-! ### One item -/

/-- What decides is not changed by what follows. -/
theorem scan_append {s' : Scan} {type : Int} (found : scan slots s = .ok (type, s'))
    (file : type ≠ -1) : scan (slots ++ rest) s = .ok (type, s') := by
  induction slots generalizing s with
  | nil =>
    cases found
    exact absurd rfl file
  | cons de slots ih =>
    rw [scan] at found
    rw [List.cons_append, scan]
    cases step : s.slot de with
    | error halt =>
      rw [step] at found
      cases found
    | ok result =>
      obtain ⟨decided, s₁⟩ := result
      rw [step] at found
      cases decided with
      | some type' => exact found
      | none => exact ih found

theorem scan_deleted (gone : List Slot) (deleted : ∀ de ∈ gone, de.order = EMPTY_ENTRY) :
    scan (gone ++ rest) s = scan rest { s with cnt := s.cnt + gone.length } := by
  induction gone generalizing s with
  | nil => rfl
  | cons de gone ih =>
    have here := deleted de List.mem_cons_self
    have step : s.slot de = .ok (none, { s with cnt := s.cnt + 1 }) := by
      rw [Scan.slot, if_neg (by rw [here]; decide), if_pos here]
    rw [List.cons_append, scan, step]
    dsimp only
    rw [ih fun de' mem => deleted de' (List.mem_cons_of_mem _ mem), List.length_cons,
      Nat.add_assoc, Nat.add_comm 1]

theorem scan_ends (ends : ∀ de ∈ tail.head?, de.order = END_OF_ENTRY) :
    scan tail s = .ok (-1, s) := by
  cases tail with
  | nil => rfl
  | cons de tail =>
    have here := ends de rfl
    rw [scan, Scan.slot, if_pos here]

/-- What `enext` makes of the pieces of a name. -/
def Scan.reads (s : Scan) : List Slot → Scan
  | [] => s
  | de :: rest => (s.read rest.length de).reads rest

theorem Scan.reads_same (s : Scan) (pieces : List Slot) : (s.reads pieces).cnt = s.cnt ∧
    (s.reads pieces).count = s.count ∧ (s.reads pieces).counting = s.counting := by
  induction pieces generalizing s with
  | nil => exact ⟨rfl, rfl, rfl⟩
  | cons de pieces ih => exact ih (s.read pieces.length de)

theorem scan_pieces {pieces : List Slot} (chunks : Chunks pieces) (small : pieces.length ≤ 20)
    (fresh : s.cnt = 0) : scan (pieces ++ rest) s = scan rest (s.reads pieces) := by
  induction pieces generalizing s with
  | nil => rfl
  | cons de pieces ih =>
    obtain ⟨long, order, chunks⟩ := chunks
    rw [List.length_cons] at small
    rw [List.cons_append, scan, Scan.slot_piece small fresh long order]
    exact ih chunks (Nat.le_of_succ_le small) fresh

/-- The entry of a file. -/
theorem scan_file {pieces : List Slot} {short : Slot} (sound : (Item.file pieces short).Sound)
    (ep : Dirent) (count : Nat) : ∃ s,
    scan ((Item.file pieces short).slots ++ rest) (.start ep count) = .ok (1, s) ∧
      s.count = (Item.file pieces short).slots.length := by
  obtain ⟨whole, order, file⟩ := sound
  have order' := order
  simp only [List.mem_cons, List.not_mem_nil, or_false, not_or] at order'
  cases pieces with
  | nil =>
    have counting : (Scan.start ep count).counting = true := rfl
    have run : scan ((Item.file [] short).slots ++ rest) (.start ep count) =
        .ok (1, { Scan.start ep count with
          ep := read_entry_info { (Scan.start ep count).ep with
            filename := read_entry_name (Scan.start ep count).ep.filename 0 short } short
          count := 1 }) := by
      rw [Item.slots, List.nil_append, List.cons_append, scan, Scan.slot, if_neg order'.1,
        if_neg order'.2, if_neg (by simp [Scan.start]), if_neg file, if_pos counting]
    exact ⟨_, run, rfl⟩
  | cons de pieces =>
    obtain ⟨small, long, marked, chunks⟩ := whole
    generalize after : ((Scan.start ep count).read pieces.length de).counted (pieces.length + 2) = s
    have fresh : s.cnt = 0 ∧ s.count = pieces.length + 2 ∧ s.counting = false := by
      rw [← after]
      exact ⟨rfl, rfl, rfl⟩
    obtain ⟨cnt, counted, counting⟩ := s.reads_same pieces
    have run : scan ((Item.file (de :: pieces) short).slots ++ rest) (.start ep count) =
        .ok (1, { s.reads pieces with ep := read_entry_info (s.reads pieces).ep short }) := by
      rw [Item.slots, List.cons_append, List.cons_append, List.append_assoc, scan,
        Scan.slot_marked small rfl rfl long marked, after]
      dsimp only
      rw [scan_pieces chunks (Nat.le_of_lt small) fresh.1, List.cons_append, scan,
        Scan.slot_short (cnt.trans fresh.1) (counting.trans fresh.2.2) order file]
    refine ⟨_, run, ?_⟩
    rw [Item.slots, List.length_append, List.length_cons]
    exact counted.trans fresh.2.1

/-- The first slot of a file is neither empty nor the end. -/
theorem file_first {pieces : List Slot} {short : Slot} (sound : (Item.file pieces short).Sound) :
    ∃ de more, (Item.file pieces short).slots = de :: more ∧
      de.order ≠ END_OF_ENTRY ∧ de.order ≠ EMPTY_ENTRY := by
  obtain ⟨whole, order, -⟩ := sound
  cases pieces with
  | nil =>
    simp only [List.mem_cons, List.not_mem_nil, or_false, not_or] at order
    exact ⟨short, [], rfl, order⟩
  | cons de pieces =>
    obtain ⟨small, -, marked, -⟩ := whole
    have bits : ∀ n < 20, (n + 1) ||| LAST_LONG_ENTRY ≠ END_OF_ENTRY ∧
        (n + 1) ||| LAST_LONG_ENTRY ≠ EMPTY_ENTRY := by decide
    exact ⟨de, pieces ++ [short], rfl, marked ▸ bits _ small⟩

/-- Deleted slots in front of a file are reported as a run. -/
theorem scan_gap {gone : List Slot} {pieces : List Slot} {short : Slot}
    (deleted : ∀ de ∈ gone, de.order = EMPTY_ENTRY) (some : gone ≠ [])
    (sound : (Item.file pieces short).Sound) (ep : Dirent) (count : Nat) : ∃ s,
    scan (gone ++ ((Item.file pieces short).slots ++ rest)) (.start ep count) = .ok (0, s) ∧
      s.count = gone.length ∧ s.ep = (Scan.start ep count).ep := by
  obtain ⟨de, more, first, here, full⟩ := file_first sound
  have seen : 0 + gone.length ≠ 0 := by
    rw [Nat.zero_add]
    exact (List.length_pos_iff.mpr some).ne'
  have cnt : (Scan.start ep count).cnt = 0 := rfl
  have counting : (Scan.start ep count).counting = true := rfl
  have run : scan (gone ++ ((Item.file pieces short).slots ++ rest)) (.start ep count) =
      .ok (0, { Scan.start ep count with cnt := 0 + gone.length, count := 0 + gone.length }) := by
    rw [scan_deleted gone deleted, first, List.cons_append, scan, Scan.slot, if_neg here,
      if_neg full, cnt, if_pos seen, if_pos counting]
  exact ⟨_, run, Nat.zero_add _, rfl⟩

/-! ### From one item to the next -/

def Item.isDeleted : Item → Bool
  | .deleted _ => true
  | .file _ _ => false

theorem Item.slots_pos (item : Item) : 0 < item.slots.length := by
  cases item with
  | deleted de => exact Nat.one_pos
  | file pieces short =>
    rw [Item.slots, List.length_append]
    exact Nat.succ_pos _

theorem Lists.drop {front : List Item} (lists : Lists slots (front ++ items) tail) :
    Lists (slots.drop (front.flatMap Item.slots).length) items tail where
  parts := by
    rw [lists.parts, List.flatMap_append, List.append_assoc, List.drop_left]
  sound item mem := lists.sound item (List.mem_append_right _ mem)
  ends := lists.ends

/-- What a call of `enext` comes to where items begin: their end, a file, or a run of
deleted ones in front of a file. -/
inductive Item.Goes (ep : Dirent) (count : Nat) (type : Int) (s : Scan) : List Item → Prop
  | ends {items : List Item} (last : type = -1)
      (deleted : ∀ de ∈ items.flatMap Item.slots, de.order = EMPTY_ENTRY) : Goes ep count type s items
  | file {pieces : List Slot} {short : Slot} {items' : List Item} (first : type = 1)
      (reads : scan (Item.file pieces short).slots (.start ep count) = .ok (1, s))
      (counted : s.count = (Item.file pieces short).slots.length) :
      Goes ep count type s (.file pieces short :: items')
  | gap {gone : List Item} {pieces : List Slot} {short : Slot} {items' : List Item}
      (run : type = 0) (some : gone ≠ [])
      (deleted : ∀ de ∈ gone.flatMap Item.slots, de.order = EMPTY_ENTRY)
      (counted : s.count = (gone.flatMap Item.slots).length)
      (unnamed : s.ep.filename = ep.filename.clear (FAT32_MAX_FILENAME + 1)) :
      Goes ep count type s (gone ++ .file pieces short :: items')

theorem Lists.goes (lists : Lists slots items tail) (ep : Dirent) (count : Nat) : ∃ type s,
    scan slots (.start ep count) = .ok (type, s) ∧ Item.Goes ep count type s items := by
  have deleted : ∀ de ∈ (items.takeWhile Item.isDeleted).flatMap Item.slots,
      de.order = EMPTY_ENTRY := by
    intro de mem
    obtain ⟨item, member, here⟩ := List.mem_flatMap.mp mem
    have sound := lists.sound item ((List.takeWhile_sublist _).mem member)
    have gone := List.mem_takeWhile_imp member
    cases item with
    | deleted de' =>
      rw [List.mem_singleton.mp here]
      exact sound
    | file pieces short => cases gone
  have split := (List.takeWhile_append_dropWhile (p := Item.isDeleted) (l := items)).symm
  have parts := lists.parts
  rw [split, List.flatMap_append, List.append_assoc] at parts
  cases more : items.dropWhile Item.isDeleted with
  | nil =>
    rw [more, List.flatMap_nil, List.nil_append] at parts
    have run := (congrArg (scan · (.start ep count)) parts).trans
      ((scan_deleted _ deleted).trans (scan_ends lists.ends))
    rw [more, List.append_nil] at split
    exact ⟨-1, _, run, .ends rfl (split ▸ deleted)⟩
  | cons item items' =>
    have stop := List.head?_dropWhile_not Item.isDeleted items
    rw [more] at stop
    have sound : item.Sound := lists.sound item ((List.dropWhile_sublist _).mem (more ▸ List.mem_cons_self))
    cases item with
    | deleted de => cases stop
    | file pieces short =>
      rw [more, List.flatMap_cons, List.append_assoc] at parts
      cases gone : items.takeWhile Item.isDeleted with
      | nil =>
        obtain ⟨s, reads, counted⟩ := @scan_file [] _ _ sound ep count
        rw [List.append_nil] at reads
        rw [gone, List.flatMap_nil, List.nil_append] at parts
        rw [split, gone, more]
        exact ⟨1, s, parts ▸ scan_append reads (by decide), .file rfl reads counted⟩
      | cons first gone' =>
        have some : (items.takeWhile Item.isDeleted).flatMap Item.slots ≠ [] := by
          rw [gone, List.flatMap_cons]
          exact List.append_ne_nil_of_left_ne_nil (List.length_pos_iff.mp first.slots_pos) _
        obtain ⟨s, run, counted, unnamed⟩ :=
          @scan_gap (items'.flatMap Item.slots ++ tail) _ _ _ deleted some sound ep count
        have here : Item.Goes ep count 0 s
            (items.takeWhile Item.isDeleted ++ .file pieces short :: items') :=
          .gap rfl (gone ▸ List.cons_ne_nil _ _) deleted counted (by rw [unnamed]; rfl)
        rw [← more, ← split] at here
        exact ⟨0, s, parts ▸ run, here⟩

/-- It goes past a file, or past all of the deleted ones without a name. -/
theorem Item.Goes.front {type : Int} {ep : Dirent} {count : Nat}
    (goes : Item.Goes ep count type s items) (more : type ≠ -1) : ∃ front items', front ≠ [] ∧
      items = front ++ items' ∧ s.count = (front.flatMap Item.slots).length ∧
      ((∃ pieces short, front = [.file pieces short]) ∨
        s.ep.filename = ep.filename.clear (FAT32_MAX_FILENAME + 1)) := by
  cases goes with
  | ends last => exact absurd last more
  | @file pieces short items' first reads counted =>
    exact ⟨[.file pieces short], items', List.cons_ne_nil _ _, rfl,
      by rw [counted, List.flatMap_singleton], .inl ⟨pieces, short, rfl⟩⟩
  | gap run some deleted counted unnamed => exact ⟨_, _, some, rfl, counted, .inr unnamed⟩

/-! ### `dirlookup` -/

/-- A directory of which every slot has a 32-bit offset. -/
structure Directory (fat : Geometry) (d : Disk) (cs : List Nat) (dp : Dirent) : Prop where
  clusters : Clusters fat d cs
  cursor : Cursor dp cs
  dir : dp.isDir = true
  valid : dp.valid = 1
  small : 32 * capacity fat cs < 2 ^ 32

variable {fat : Geometry} {d : Disk} {cs : List Nat} {dp ep e : Dirent} {filename : List UInt8}
  {limit i count : Nat}

theorem Directory.seek (dir : Directory fat d cs dp) {k : Nat} (hk : k < cs.length) :
    Directory fat d cs (dp.seek cs k) :=
  { dir with cursor := dir.cursor.seek hk }

theorem Lists.count_le {s : Scan} {front items' : List Item}
    (lists : Lists (slots.drop i) items tail) (split : items = front ++ items')
    (counted : s.count = (front.flatMap Item.slots).length) : i + s.count ≤ max i slots.length := by
  have := congrArg List.length lists.parts
  rw [split, List.flatMap_append, List.length_append, List.length_append, List.length_drop] at this
  omega

/-- Where items are listed, the loop goes from one to the next. -/
theorem lookupFrom_run (dir : Directory fat d cs dp) (filename : List UInt8) (ep : Dirent) (count : Nat)
    (lists : Lists ((slotsOf fat d cs).drop i) items tail) (hi : i ≤ capacity fat cs)
    (enough : items.length < limit) : ∃ k < cs.length, ∃ r,
      searchFrom filename (slotsOf fat d cs) limit ep i count = .ok r ∧
      lookupFrom fat filename limit dp ep (32 * i) count d =
        .ok ((r.1, dp.seek cs k, 32 * r.2), d) := by
  induction limit generalizing dp ep i count items with
  | zero => omega
  | succ limit ih =>
    obtain ⟨type, s, run, goes⟩ := lists.goes ep count
    obtain ⟨k, hk, next⟩ := enext_run dir.clusters dir.cursor dir.dir dir.valid dir.small hi run
    rw [searchFrom, run, lookupFrom, Machine.bind_of_ok next]
    dsimp only
    by_cases done : type = -1
    · rw [if_pos done, if_pos done]
      exact ⟨k, hk, _, rfl, rfl⟩
    · rw [if_neg done, if_neg done]
      by_cases same : sameName filename s.ep.filename
      · rw [if_pos same, if_pos same]
        exact ⟨k, hk, _, rfl, rfl⟩
      · rw [if_neg same, if_neg same]
        obtain ⟨front, items', some, split, counted, -⟩ := goes.front done
        have inside := lists.count_le split counted
        rw [slotsOf_length] at inside
        have small := dir.small
        have off : u32 (32 * i + s.count <<< 5) = 32 * (i + s.count) := by
          rw [Nat.shiftLeft_eq, u32, Nat.mod_eq_of_lt (by omega)]
          omega
        have lists' : Lists ((slotsOf fat d cs).drop (i + s.count)) items' tail := by
          rw [← List.drop_drop, counted]
          rw [split] at lists
          exact lists.drop
        have fewer : items'.length < limit := by
          have := List.length_pos_iff.mpr some
          rw [split, List.length_append] at enough
          omega
        obtain ⟨k', hk', r, found, looked⟩ :=
          ih (dir.seek hk) s.ep s.count lists' (by omega) fewer
        refine ⟨k', hk', r, found, ?_⟩
        rw [off]
        exact looked

theorem sameName_clear (buf : Buffer) :
    sameName filename (buf.clear (FAT32_MAX_FILENAME + 1)) ↔ filename = [] := by
  have blank : (buf.clear (FAT32_MAX_FILENAME + 1)).chars FAT32_MAX_FILENAME = [] := rfl
  rw [sameName, blank, decide_eq_true_eq, eq_comm, List.take_eq_nil_iff]
  exact or_iff_right (by decide)

/-- An entry is found where a file begins; without a name, where any item does. -/
theorem searchFrom_found (lists : Lists (slots.drop i) items tail) {last : Nat}
    (found : searchFrom filename slots limit ep i count = .ok (some e, last)) :
    e.off = 32 * last ∧ e.valid = 1 ∧ ∃ front items', items = front ++ items' ∧
      last = i + (front.flatMap Item.slots).length ∧
      (filename ≠ [] → ∃ pieces short more, items' = .file pieces short :: more) := by
  induction limit generalizing ep i count items with
  | zero => cases found
  | succ limit ih =>
    obtain ⟨type, s, run, goes⟩ := lists.goes ep count
    rw [searchFrom, run] at found
    dsimp only at found
    by_cases done : type = -1
    · rw [if_pos done] at found
      cases found
    · rw [if_neg done] at found
      obtain ⟨front, items', some, split, counted, what⟩ := goes.front done
      by_cases same : sameName filename s.ep.filename
      · rw [if_pos same] at found
        cases found
        refine ⟨rfl, rfl, [], items, rfl, rfl, fun named => ?_⟩
        rcases what with ⟨pieces, short, file⟩ | unnamed
        · exact ⟨pieces, short, items', by rw [split, file]; rfl⟩
        · rw [unnamed, sameName_clear] at same
          exact absurd same named
      · rw [if_neg same] at found
        have lists' : Lists (slots.drop (i + s.count)) items' tail := by
          rw [← List.drop_drop, counted]
          rw [split] at lists
          exact lists.drop
        obtain ⟨off, valid, front', items'', split', place, file⟩ := ih lists' found
        refine ⟨off, valid, front ++ front', items'', ?_, ?_, file⟩
        · rw [split, split', List.append_assoc]
        · rw [place, counted, List.flatMap_append, List.length_append, Nat.add_assoc]

theorem length_le_slots (items : List Item) :
    items.length ≤ (items.flatMap Item.slots).length := by
  induction items with
  | nil => exact Nat.le_refl _
  | cons item items ih =>
    have := item.slots_pos
    rw [List.length_cons, List.flatMap_cons, List.length_append]
    omega

theorem dirlookup_run (dir : Directory fat d cs dp) (lists : Lists (slotsOf fat d cs) items tail)
    (fresh : ep.valid ≠ 1) (filename : List UInt8) : ∃ k < cs.length, ∃ r,
    searchFrom filename (slotsOf fat d cs) (SLOTS + 1) ep 0 0 = .ok r ∧
      dirlookup fat dp ep filename d =
        .ok ((r.1, dp.seek cs k, if r.1.isNone then some (32 * r.2) else none), d) := by
  have first : 0 < cs.length := Nat.lt_of_le_of_lt (Nat.zero_le _) dir.cursor.lt
  have moved := reloc_clus_inside dir.clusters dir.cursor false
    (Nat.mul_pos first Geometry.byts_per_clus_pos)
  have few : items.length < SLOTS + 1 := by
    have all := congrArg List.length lists.parts
    have each := length_le_slots items
    have small := dir.small
    rw [slotsOf_length, List.length_append] at all
    rw [SLOTS]
    omega
  rw [Nat.zero_div] at moved
  obtain ⟨k, hk, r, found, looked⟩ :=
    lookupFrom_run (dir.seek first) filename ep 0 (show Lists (List.drop 0 _) items tail from lists)
      (Nat.zero_le _) few
  refine ⟨k, hk, r, found, ?_⟩
  rw [dirlookup, if_neg (by simp [dir.dir]), if_neg (by simp [dir.valid]), if_neg fresh,
    Machine.bind_of_ok moved]
  exact Machine.bind_of_ok looked

/-! ### A root directory -/

/-- The disk of a volume whose root directory holds the slots. -/
def rootHolds (slots : List Slot) : Disk := bareVolume.put [2] bareDisk 0 slots

theorem rootHolds_directory (slots : List Slot) :
    Directory bareVolume (rootHolds slots) [2] bareRoot where
  clusters := bareRoot_clusters.put [2] 0 slots
  cursor := ⟨rfl, rfl⟩
  dir := rfl
  valid := rfl
  small := by decide

theorem order_window (d : Disk) (a : Nat) : Slot.order (d.window a 32) = (d a).toNat := by
  rw [Slot.order, field_one]
  simp [Memory.window]

theorem rootHolds_lists (sound : ∀ item ∈ items, item.Sound)
    (few : (items.flatMap Item.slots).length < 16)
    (long : ∀ de ∈ items.flatMap Item.slots, de.length = 32) :
    Lists (slotsOf bareVolume (rootHolds (items.flatMap Item.slots)) [2]) items
      ((slotsOf bareVolume bareDisk [2]).drop (items.flatMap Item.slots).length) where
  parts := by
    have room : capacity bareVolume [2] = 16 := by decide
    rw [rootHolds, slotsOf_put bareRoot_clusters (by omega) long, List.take_zero, List.nil_append,
      Nat.zero_add]
  sound := sound
  ends de mem := by
    have room : capacity bareVolume [2] = 16 := by decide
    rw [slotsOf_drop (by omega)] at mem
    cases mem
    rw [order_window, bareDisk, Memory.store_outside]
    · rfl
    · exact .inr (Geometry.entryAt_lt_slotAt [2] (by decide) _)

/-- What is not in the cache yet. -/
def blankEntry : Dirent := { bareRoot with attr := 0, valid := 0 }

/-- The short-name slot of a file "A". -/
def shortA : Slot := shortSlot (65 :: List.replicate 10 32) ATTR_ARCHIVE 0 0

end AvxKernel.Fat
