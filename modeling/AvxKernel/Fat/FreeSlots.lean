import AvxKernel.Fat.Listing
import Mathlib.Order.Bounds.Basic

/-! The offset that `dirlookup` leaves for a new entry. It should be that of the first
run of deleted slots in which the entry fits; it is that of the free tail, since the
loop compares what it has got from `enext` before it takes it for a type. -/
namespace AvxKernel.Fat

/-! ### Free slots -/

/-- Nothing lives from slot `i` on. -/
def Free (front : List Slot) (i : Nat) : Prop := ∀ de ∈ front.drop i, de.order = EMPTY_ENTRY

/-- There are `n` deleted slots from slot `i` on. -/
def Run (front : List Slot) (n i : Nat) : Prop :=
  i + n ≤ front.length ∧ ∀ de ∈ (front.drop i).take n, de.order = EMPTY_ENTRY

/-- The first run of `n` deleted slots; or else the free tail. -/
def Place (front : List Slot) (n i : Nat) : Prop :=
  IsLeast {j | Run front n j} i ∨ (∀ j, ¬Run front n j) ∧ IsLeast {j | Free front j} i

/-- The slots of an entry of this name, which `dirlookup` looks for. -/
def entcnt (filename : List UInt8) : Nat :=
  (filename.length + CHAR_LONG_NAME - 1) / CHAR_LONG_NAME + 1

variable {front a b : List Slot} {i j n t : Nat}

theorem Free.mono (free : Free front i) (le : i ≤ j) : Free front j := by
  intro de mem
  obtain ⟨k, rfl⟩ := Nat.exists_eq_add_of_le le
  rw [← List.drop_drop] at mem
  exact free de (List.mem_of_mem_drop mem)

/-- Where nothing lives behind a run, the free tail begins with one. -/
theorem Run.tail (run : Run front n j) (free : Free front t) (le : t ≤ j) : Run front n t :=
  ⟨(Nat.add_le_add_right le n).trans run.1, fun de mem => free de (List.mem_of_mem_take mem)⟩

/-- The free tail is the place exactly where nothing lives behind any run. -/
theorem place_tail_iff (tail : IsLeast {j | Free front j} t) :
    Place front n t ↔ ∀ j, Run front n j → Free front j := by
  constructor
  · rintro (first | ⟨none, -⟩) j run
    · exact tail.1.mono (first.2 run)
    · exact absurd run (none j)
  · intro free
    by_cases some : ∃ j, Run front n j
    · obtain ⟨j, run⟩ := some
      exact .inl ⟨run.tail tail.1 (tail.2 (free j run)), fun k run => tail.2 (free k run)⟩
    · exact .inr ⟨not_exists.mp some, tail⟩

/-- Nothing lives in the slots of the new entry. -/
theorem Place.free (place : Place front n i) :
    ∀ de ∈ (front.drop i).take n, de.order = EMPTY_ENTRY := by
  rcases place with first | ⟨-, tail⟩
  · exact first.1.2
  · exact fun de mem => tail.1 de (List.mem_of_mem_take mem)

theorem free_tail_append (tail : IsLeast {j | Free b j} t)
    (live : ∀ j < a.length, ¬Free (a ++ b) j) : IsLeast {j | Free (a ++ b) j} (a.length + t) := by
  constructor
  · intro de mem
    rw [List.drop_append, List.drop_eq_nil_of_le (Nat.le_add_right _ _), Nat.add_sub_cancel_left]
      at mem
    exact tail.1 de mem
  · intro j free
    have le : a.length ≤ j := Nat.le_of_not_lt fun lt => live j lt free
    obtain ⟨k, rfl⟩ := Nat.exists_eq_add_of_le le
    have behind : Free b k := by
      intro de mem
      apply free de
      rw [List.drop_append, List.drop_eq_nil_of_le (Nat.le_add_right _ _), Nat.add_sub_cancel_left]
      exact mem
    exact Nat.add_le_add_left (tail.2 behind) _

/-! ### Names -/

/-- The entry of `eget` before anything has been read into it. -/
def blank : Dirent := ⟨fun _ => 0, 0, 0, 0, 0, 0, false, 0, 0⟩

/-- The name that `enext` reads from the slots. -/
def Item.name (item : Item) : List UInt8 :=
  match scan item.slots (.start blank 0) with
  | .ok (_, s) => s.ep.filename.chars FAT32_MAX_FILENAME
  | .error _ => []

/-- No file has this name; "." and ".." are not looked for. -/
def Absent (items : List Item) (filename : List UInt8) : Prop :=
  filename ∉ [[46], [46, 46]] ∧
    ∀ pieces short, .file pieces short ∈ items →
      (Item.file pieces short).name ≠ filename.take FAT32_MAX_FILENAME

/-- Two buffers with the same array of characters. -/
def Like (buf buf' : Buffer) : Prop := ∀ k < FAT32_MAX_FILENAME + 1, buf k = buf' k

/-- Two calls of `enext` that read the same name. -/
def Scan.Like (s s' : Scan) : Prop :=
  Fat.Like s.ep.filename s'.ep.filename ∧ s.cnt = s'.cnt ∧ s.counting = s'.counting

theorem Like.chars {buf buf' : Buffer} (like : Like buf buf') :
    buf.chars FAT32_MAX_FILENAME = buf'.chars FAT32_MAX_FILENAME := by
  have same : (List.range FAT32_MAX_FILENAME).map buf = (List.range FAT32_MAX_FILENAME).map buf' := by
    apply List.map_congr_left
    intro k mem
    exact like k (Nat.lt_succ_of_lt (List.mem_range.mp mem))
  rw [Buffer.chars, Buffer.chars, same]

theorem Like.snstr {dst dst' : Buffer} (like : Like dst dst') (i : Nat) (us : List Nat) :
    Like (snstr dst i us) (snstr dst' i us) := by
  induction us generalizing dst dst' i with
  | nil => exact like
  | cons u rest ih =>
    rw [Fat.snstr, Fat.snstr]
    split
    · intro k hk
      dsimp only
      rw [like k hk]
    · apply ih
      intro k hk
      rw [Buffer.set, Buffer.set, Function.update_apply, Function.update_apply, like k hk]

theorem Like.read_entry_name {buf buf' : Buffer} (like : Like buf buf') (i : Nat) (de : Slot) :
    Like (read_entry_name buf i de) (read_entry_name buf' i de) := by
  rw [Fat.read_entry_name, Fat.read_entry_name]
  split
  · exact ((like.snstr _ _).snstr _ _).snstr _ _
  · intro k hk
    dsimp only
    rw [like k hk]

/-- A slot is read in both alike. -/
theorem Scan.Like.slot {s s' r : Scan} {result : Option Int} {de : Slot} (like : s.Like s')
    (step : s.slot de = .ok (result, r)) : ∃ r', s'.slot de = .ok (result, r') ∧ r.Like r' := by
  obtain ⟨ep, cnt, count, counting⟩ := s
  obtain ⟨ep', cnt', count', counting'⟩ := s'
  obtain ⟨name, same, also⟩ := like
  dsimp only at name same also
  subst same also
  rw [Scan.slot] at step ⊢
  dsimp only at step ⊢
  split at step
  · next ends =>
    cases step
    rw [if_pos ends]
    exact ⟨_, rfl, name, rfl, rfl⟩
  · next ends =>
    rw [if_neg ends]
    split at step
    · next empty =>
      cases step
      rw [if_pos empty]
      exact ⟨_, rfl, name, rfl, rfl⟩
    · next empty =>
      rw [if_neg empty]
      split at step
      · next seen =>
        rw [if_pos seen]
        split at step
        · next on =>
          cases step
          rw [if_pos on]
          exact ⟨_, rfl, name, rfl, rfl⟩
        · cases step
      · next seen =>
        rw [if_neg seen]
        split at step
        · next long =>
          rw [if_pos long]
          split at step
          · cases step
          · next set =>
            rw [if_neg set]
            split at step
            · cases step
            · next inside =>
              rw [if_neg inside]
              split at step
              · next last =>
                cases step
                rw [if_pos last]
                exact ⟨_, rfl, name.read_entry_name _ _, rfl, rfl⟩
              · next last =>
                cases step
                rw [if_neg last]
                exact ⟨_, rfl, name.read_entry_name _ _, rfl, rfl⟩
        · next long =>
          rw [if_neg long]
          split at step
          · next on =>
            cases step
            rw [if_pos on]
            exact ⟨_, rfl, name.read_entry_name _ _, rfl, rfl⟩
          · next on =>
            cases step
            rw [if_neg on]
            exact ⟨_, rfl, name, rfl, rfl⟩

theorem Scan.Like.scan {s s' r : Scan} {type : Int} {slots : List Slot} (like : s.Like s')
    (run : scan slots s = .ok (type, r)) : ∃ r', scan slots s' = .ok (type, r') ∧ r.Like r' := by
  induction slots generalizing s s' with
  | nil =>
    cases run
    exact ⟨s', rfl, like⟩
  | cons de rest ih =>
    rw [Fat.scan] at run ⊢
    cases step : s.slot de with
    | error halt =>
      rw [step] at run
      cases run
    | ok result =>
      obtain ⟨decided, s₁⟩ := result
      obtain ⟨s₁', step', like'⟩ := like.slot step
      rw [step] at run
      rw [step']
      cases decided with
      | some type' =>
        cases run
        exact ⟨s₁', rfl, like'⟩
      | none => exact ih like' run

/-- The name does not depend on the entry it is read into. -/
theorem Item.name_read {item : Item} {ep : Dirent} {count : Nat} {type : Int} {s : Scan}
    (reads : scan item.slots (.start ep count) = .ok (type, s)) :
    s.ep.filename.chars FAT32_MAX_FILENAME = item.name := by
  have like : (Scan.start ep count).Like (.start blank 0) := by
    refine ⟨fun k hk => ?_, rfl, rfl⟩
    exact (if_pos hk).trans (if_pos hk).symm
  obtain ⟨s', read, like'⟩ := like.scan reads
  rw [Item.name, read]
  exact like'.1.chars

/-! ### `dirlookup` of a name that is not there -/

variable {slots tail : List Slot} {items : List Item} {ep : Dirent} {filename : List UInt8}
  {limit count last : Nat} {found : Option Dirent}

theorem Absent.behind {front items' : List Item} (absent : Absent (front ++ items') filename) :
    Absent items' filename :=
  ⟨absent.1, fun pieces short mem => absent.2 pieces short (List.mem_append_right _ mem)⟩

/-- The short-name slot of a file lives. -/
theorem file_lives {pieces : List Slot} {short : Slot} (sound : (Item.file pieces short).Sound)
    (hj : j < (a ++ (Item.file pieces short).slots).length) :
    ¬Free (a ++ (Item.file pieces short).slots ++ b) j := by
  intro free
  rw [Item.slots, ← List.append_assoc, List.length_append, List.length_singleton] at hj
  have mem : short ∈ (a ++ (Item.file pieces short).slots ++ b).drop j := by
    rw [Item.slots, ← List.append_assoc, List.append_assoc,
      List.drop_append_of_le_length (Nat.le_of_lt_succ hj)]
    exact List.mem_append_right _ List.mem_cons_self
  have empty := free short mem
  exact sound.2.1 (empty ▸ List.mem_cons_of_mem _ List.mem_cons_self)

/-- How the loop ends from slot `i` on where no file has the name: at the free tail, or
with an entry, where it looks for an empty name and comes to a run of deleted slots. -/
def Ends (items : List Item) (filename : List UInt8) (i last : Nat) (found : Option Dirent) : Prop :=
  found = none ∧ (∃ t, last = i + t ∧ IsLeast {j | Free (items.flatMap Item.slots) j} t) ∨
    found ≠ none ∧ filename = [] ∧
      ∃ j, Run (items.flatMap Item.slots) 1 j ∧ ¬Free (items.flatMap Item.slots) j

theorem Ends.append {front items' : List Item}
    (ends : Ends items' filename (i + (front.flatMap Item.slots).length) last found)
    (live : ∀ j < (front.flatMap Item.slots).length,
      ¬Free (front.flatMap Item.slots ++ items'.flatMap Item.slots) j) :
    Ends (front ++ items') filename i last found := by
  rw [Ends, List.flatMap_append]
  rcases ends with ⟨none, t, place, tail⟩ | ⟨found, unnamed, j, run, lives⟩
  · exact .inl ⟨none, _, place.trans (Nat.add_assoc _ _ _), free_tail_append tail live⟩
  · have behind : (front.flatMap Item.slots ++ items'.flatMap Item.slots).drop
        ((front.flatMap Item.slots).length + j) = (items'.flatMap Item.slots).drop j := by
      rw [List.drop_append, List.drop_eq_nil_of_le (Nat.le_add_right _ _), Nat.add_sub_cancel_left]
      rfl
    refine .inr ⟨found, unnamed, (front.flatMap Item.slots).length + j, ⟨?_, ?_⟩, ?_⟩
    · rw [List.length_append, Nat.add_assoc]
      exact Nat.add_le_add_left run.1 _
    · rw [behind]
      exact run.2
    · rw [Free, behind]
      exact lives

theorem searchFrom_absent (lists : Lists (slots.drop i) items tail) (absent : Absent items filename)
    (ends : searchFrom filename slots limit ep i count = .ok (found, last)) :
    Ends items filename i last found := by
  induction limit generalizing ep i count items with
  | zero => cases ends
  | succ limit ih =>
    obtain ⟨type, s, run, goes⟩ := lists.goes ep count
    rw [searchFrom, run] at ends
    dsimp only at ends
    have past : ∀ front items', items = front ++ items' →
        s.count = (front.flatMap Item.slots).length →
        searchFrom filename slots limit s.ep (i + s.count) s.count = .ok (found, last) →
        (∀ j < (front.flatMap Item.slots).length,
          ¬Free (front.flatMap Item.slots ++ items'.flatMap Item.slots) j) →
        Ends items filename i last found := by
      intro front items' split counted ends live
      rw [split] at lists absent
      have lists' := lists.drop
      rw [List.drop_drop, ← counted] at lists'
      have behind := ih lists' absent.behind ends
      rw [counted] at behind
      rw [split]
      exact behind.append live
    cases goes with
    | ends done deleted =>
      rw [if_pos done] at ends
      cases ends
      exact .inl ⟨rfl, 0, rfl, deleted, fun j _ => Nat.zero_le j⟩
    | @file pieces short items' first reads counted =>
      have other : ¬sameName filename s.ep.filename := by
        rw [sameName, decide_eq_true_eq, Item.name_read reads]
        exact absent.2 pieces short List.mem_cons_self
      rw [if_neg (by rw [first]; decide), if_neg other] at ends
      apply past [.file pieces short] items' rfl (by rwa [List.flatMap_singleton]) ends
      rw [List.flatMap_singleton]
      intro j hj
      exact @file_lives [] _ j pieces short (lists.sound _ List.mem_cons_self) hj
    | @gap gone pieces short items' type0 some deleted counted unnamed =>
      have sound := lists.sound (.file pieces short) (List.mem_append_right _ List.mem_cons_self)
      have live : ∀ j < (gone.flatMap Item.slots).length, ¬Free (gone.flatMap Item.slots ++
          (Item.file pieces short :: items').flatMap Item.slots) j := by
        intro j hj
        rw [List.flatMap_cons, ← List.append_assoc]
        apply file_lives sound
        rw [List.length_append]
        exact Nat.lt_add_right _ hj
      have front : 0 < (gone.flatMap Item.slots).length :=
        Nat.lt_of_lt_of_le (List.length_pos_iff.mpr some) (length_le_slots gone)
      rw [if_neg (by rw [type0]; decide), unnamed] at ends
      by_cases named : filename = []
      · rw [if_pos ((sameName_clear _).mpr named)] at ends
        cases ends
        refine .inr ⟨Option.some_ne_none _, named, 0, ⟨?_, ?_⟩, ?_⟩
        · rw [List.flatMap_append, List.length_append]
          omega
        · rw [List.flatMap_append, List.drop_zero, List.take_append_of_le_length front]
          exact fun de mem => deleted de (List.mem_of_mem_take mem)
        · rw [List.flatMap_append]
          exact live 0 front
      · rw [if_neg (mt (sameName_clear _).mp named)] at ends
        exact past gone _ rfl counted ends live

variable {fat : Geometry} {d : Disk} {cs : List Nat} {dp : Dirent}

theorem dirlookup_absent (dir : Directory fat d cs dp) (lists : Lists (slotsOf fat d cs) items tail)
    (fresh : ep.valid ≠ 1) (absent : Absent items filename) : ∃ dp' found last,
    dirlookup fat dp ep filename d =
        .ok ((found, dp', if found.isNone then some (32 * last) else none), d) ∧
      Ends items filename 0 last found := by
  obtain ⟨k, hk, ⟨found, last⟩, search, run⟩ := dirlookup_run dir lists fresh filename
  have all : Lists ((slotsOf fat d cs).drop 0) items tail := lists
  exact ⟨_, found, last, run, searchFrom_absent all absent search⟩

/-- `dirlookup` finds nothing and leaves the place of a new entry, of which no slot is
alive. -/
def LeavesPlace (fat : Geometry) (d : Disk) (dp ep : Dirent) (front : List Slot)
    (filename : List UInt8) : Prop :=
  ∃ dp' i, dirlookup fat dp ep filename d = .ok ((none, dp', some (32 * i)), d) ∧
    Place front (entcnt filename) i ∧
    ∀ de ∈ (front.drop i).take (entcnt filename), de.order = EMPTY_ENTRY

theorem LeavesPlace.at_tail {dp' : Dirent}
    (run : dirlookup fat dp ep filename d = .ok ((none, dp', some (32 * t)), d))
    (leaves : LeavesPlace fat d dp ep front filename) : Place front (entcnt filename) t := by
  obtain ⟨dp₂, i, looked, place, -⟩ := leaves
  rw [run] at looked
  have same : 32 * t = 32 * i := Option.some.inj (congrArg (·.1.2.2) (Except.ok.inj looked))
  have here : t = i := by omega
  rw [here]
  exact place

/-- That is so exactly where no run in which the entry fits has anything alive behind it. -/
theorem dirlookup_place_iff (dir : Directory fat d cs dp) (lists : Lists (slotsOf fat d cs) items tail)
    (fresh : ep.valid ≠ 1) (absent : Absent items filename) :
    LeavesPlace fat d dp ep (items.flatMap Item.slots) filename ↔
      ∀ j, Run (items.flatMap Item.slots) (entcnt filename) j →
        Free (items.flatMap Item.slots) j := by
  obtain ⟨dp', found, last, run, ends⟩ := dirlookup_absent dir lists fresh absent
  rcases ends with ⟨rfl, t, place, tail⟩ | ⟨some, unnamed, j, gap, lives⟩
  · rw [Nat.zero_add] at place
    subst place
    constructor
    · intro leaves
      exact (place_tail_iff tail).mp (leaves.at_tail run)
    · intro free
      have place := (place_tail_iff tail).mpr free
      exact ⟨dp', last, run, place, place.free⟩
  · have one : entcnt filename = 1 := by
      rw [unnamed]
      rfl
    constructor
    · rintro ⟨dp₂, i, looked, -⟩
      rw [run] at looked
      exact absurd (congrArg (·.1.1) (Except.ok.inj looked)) some
    · intro free
      exact absurd (free j (one ▸ gap)) lives

/-- A directory of one file: the new entry goes behind it. -/
theorem dirlookup_place_one : LeavesPlace bareVolume (rootHolds [shortA]) bareRoot blankEntry
    [shortA] [98] := by
  have sound : ∀ item ∈ [Item.file [] shortA], item.Sound := by decide
  refine (dirlookup_place_iff (rootHolds_directory _)
    (rootHolds_lists sound (by decide) (by decide)) (by decide) ⟨by decide, ?_⟩).mpr ?_
  · intro pieces short mem
    cases List.mem_singleton.mp mem
    decide
  · rintro j ⟨fit, -⟩
    have two : entcnt [98] = 2 := rfl
    rw [two] at fit
    exact absurd fit (by simp [Item.slots])

def gone : Slot := UInt8.ofNat EMPTY_ENTRY :: List.replicate 31 0

/-- Two deleted slots in front of a file are room for the entry, which goes behind it. -/
theorem dirlookup_misses_run : ¬LeavesPlace bareVolume (rootHolds [gone, gone, shortA]) bareRoot
    blankEntry [gone, gone, shortA] [98] := by
  intro leaves
  have sound : ∀ item ∈ [Item.deleted gone, .deleted gone, .file [] shortA], item.Sound := by decide
  have absent : Absent [Item.deleted gone, .deleted gone, .file [] shortA] [98] := by
    refine ⟨by decide, fun pieces short mem => ?_⟩
    cases List.mem_singleton.mp ((List.mem_cons.mp ((List.mem_cons.mp mem).resolve_left
      Item.noConfusion)).resolve_left Item.noConfusion)
    decide
  obtain ⟨dp', found, last, run, ends⟩ := dirlookup_absent (rootHolds_directory _)
    (rootHolds_lists sound (by decide) (by decide)) (show blankEntry.valid ≠ 1 by decide) absent
  rcases ends with ⟨rfl, t, place, tail⟩ | ⟨-, unnamed, -⟩
  · rw [Nat.zero_add] at place
    subst place
    have room : Run [gone, gone, shortA] 2 0 := ⟨by decide, by decide⟩
    exact absurd ((place_tail_iff tail).mp (leaves.at_tail run) 0 room)
      fun free => absurd (free shortA (by decide)) (by decide)
  · cases unnamed

end AvxKernel.Fat
