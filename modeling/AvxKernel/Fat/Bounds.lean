import AvxKernel.Fat.Codec

/-! The stores of `enext` that the bytes of a directory decide: where a slot's
name goes in the entry's array, and what is stored through `count`. A list of
slots is tame if none of them goes wrong. -/
namespace AvxKernel.Fat

/-! ### The stores -/

inductive Store where
  /-- To position `i` of the array `filename`. -/
  | name (i : Int)
  /-- Through `count`, and whether it points to something. -/
  | count (set : Bool)
deriving DecidableEq

def Store.Safe : Store → Prop
  | .name i => 0 ≤ i ∧ i < FAT32_MAX_FILENAME + 1
  | .count set => set = true

/-- The stores of `memset`. -/
def fillStores (i : Int) (n : Nat) : List Store :=
  (List.range n).map fun (k : Nat) => .name (i + k)

/-- The stores of `snstr`, from position `i` on. -/
def snstrStores (i : Int) : List Nat → List Store
  | [] => []
  | u :: rest =>
    if u = 0 then fillStores i rest.length else .name i :: snstrStores (i + 1) rest

/-- The stores of `read_entry_name`. -/
def nameStores (i : Int) (de : Slot) : List Store :=
  if de.attr = ATTR_LONG_NAME then
    snstrStores i (de.wchars 1 5) ++ snstrStores (i + 5) (de.wchars 14 6) ++
      snstrStores (i + 11) (de.wchars 28 2)
  else
    fillStores i (CHAR_SHORT_NAME + 2) ++ fillStores i (shortChars de).length

/-- Which piece of the name a long-name slot says it has. -/
def Slot.lcnt (de : Slot) : Nat := de.order &&& 0xBF

def Slot.isLast (de : Slot) : Bool := de.order &&& LAST_LONG_ENTRY ≠ 0

/-- The stores of one round of `enext`. -/
def Scan.stores (s : Scan) (de : Slot) : List Store :=
  if de.order = END_OF_ENTRY then
    []
  else if de.order = EMPTY_ENTRY then
    []
  else if s.cnt ≠ 0 then
    [.count s.counting]
  else if de.attr = ATTR_LONG_NAME then
    (if de.isLast then [.count s.counting] else []) ++
      nameStores (((de.lcnt : Int) - 1) * CHAR_LONG_NAME) de
  else if s.counting then
    .count true :: nameStores 0 de
  else
    []

/-- The stores of the loop over the slots that are left. -/
def scanStores : List Slot → Scan → List Store
  | [], _ => []
  | de :: rest, s => s.stores de ++
    match s.slot de with
    | .ok (none, s) => scanStores rest s
    | _ => []

variable (fat : Geometry)

/-- The slots that a directory holds from an offset on, the first `limit` of
them: `enext` reads them in this order, and the offset wraps around. -/
def slotsFrom : Nat → Dirent → Nat → Disk → List Slot
  | 0, _, _, _ => []
  | limit + 1, dp, off, d =>
    match reloc_clus fat dp off false d with
    | .ok ((some off2, dp), d) =>
      match rw_clus_read fat dp.cur_clus off2 32 d with
      | .ok (de, d) => de :: slotsFrom limit dp (u32 (off + 32)) d
      | .error _ => []
    | _ => []

/-- The stores of `enext`, those of its first `limit` rounds. -/
def enextStores (limit : Nat) (dp ep : Dirent) (off count : Nat) (d : Disk) : List Store :=
  if dp.valid ≠ 1 then
    []
  else
    fillStores 0 (FAT32_MAX_FILENAME + 1) ++ scanStores (slotsFrom fat limit dp off d) (.start ep count)

/-! ### Where a name goes -/

variable {fat} {de : Slot} {i : Int} {s : Scan}

theorem mem_fillStores {n : Nat} {store : Store} :
    store ∈ fillStores i n ↔ ∃ k < n, store = .name (i + (k : Nat)) := by
  simp [fillStores, eq_comm]

theorem snstrStores_within {us : List Nat} {store : Store} (h : store ∈ snstrStores i us) :
    ∃ k < us.length, store = .name (i + (k : Nat)) := by
  induction us generalizing i with
  | nil => cases h
  | cons u rest ih =>
    rw [snstrStores] at h
    split at h
    · obtain ⟨k, lt, rfl⟩ := mem_fillStores.mp h
      exact ⟨k, by rw [List.length_cons]; omega, rfl⟩
    · rcases List.mem_cons.mp h with rfl | later
      · exact ⟨0, by simp, by simp⟩
      · obtain ⟨k, lt, rfl⟩ := ih later
        refine ⟨k + 1, by rw [List.length_cons]; omega, ?_⟩
        congr 1
        push_cast
        ring

/-- What `snstr` does not store to stays. -/
theorem snstr_same {dst : Buffer} {start k : Nat} {us : List Nat}
    (h : .name k ∉ snstrStores start us) : snstr dst start us k = dst k := by
  induction us generalizing dst start with
  | nil => rfl
  | cons u rest ih =>
    rw [snstrStores] at h
    rw [snstr]
    by_cases zero : u = 0
    · rw [if_pos zero, mem_fillStores] at h
      rw [if_pos zero]
      refine if_neg fun inside => h ⟨k - start, by omega, ?_⟩
      congr 1
      omega
    · rw [if_neg zero, List.mem_cons, not_or] at h
      have ne : k ≠ start := fun same => h.1 (by rw [same])
      rw [if_neg zero, ih h.2]
      exact Function.update_of_ne ne _ _

theorem wchars_length (de : Slot) (off n : Nat) : (de.wchars off n).length = n := by
  simp [Slot.wchars]

theorem shortChars_length (de : Slot) : (shortChars de).length ≤ CHAR_SHORT_NAME + 1 := by
  have base := (List.takeWhile_sublist (l := de.take 8) (· ≠ 32)).length_le
  have ext := (List.takeWhile_sublist (l := (de.drop 8).take 3) (· ≠ 32)).length_le
  rw [List.length_take] at base ext
  rw [shortChars, List.length_append, List.length_append, CHAR_SHORT_NAME]
  split <;> simp only [List.length_cons, List.length_nil] <;> omega

/-- What `read_entry_name` does not store to stays. -/
theorem read_entry_name_same {buffer : Buffer} {start k : Nat}
    (h : .name k ∉ nameStores start de) : read_entry_name buffer start de k = buffer k := by
  rw [nameStores] at h
  rw [read_entry_name]
  by_cases long : de.attr = ATTR_LONG_NAME
  · rw [if_pos long, List.mem_append, List.mem_append, not_or, not_or] at h
    rw [if_pos long, snstr_same h.2, snstr_same h.1.2, snstr_same h.1.1]
  · rw [if_neg long, List.mem_append, mem_fillStores, not_or] at h
    rw [if_neg long]
    refine if_neg fun inside => h.1 ⟨k - start, by omega, ?_⟩
    congr 1
    omega

/-- A long-name slot stores to thirteen places, and to the twelfth of them. -/
theorem nameStores_long (long : de.attr = ATTR_LONG_NAME) :
    (∀ store ∈ nameStores i de, ∃ k < CHAR_LONG_NAME, store = .name (i + (k : Nat))) ∧
      .name (i + 11) ∈ nameStores i de := by
  rw [nameStores, if_pos long]
  constructor
  · intro store h
    rcases List.mem_append.mp h with h | third
    · rcases List.mem_append.mp h with first | second
      · obtain ⟨k, lt, rfl⟩ := snstrStores_within first
        rw [wchars_length] at lt
        exact ⟨k, by rw [CHAR_LONG_NAME]; omega, rfl⟩
      · obtain ⟨k, lt, rfl⟩ := snstrStores_within second
        rw [wchars_length] at lt
        exact ⟨5 + k, by rw [CHAR_LONG_NAME]; omega, by congr 1; push_cast; ring⟩
    · obtain ⟨k, lt, rfl⟩ := snstrStores_within third
      rw [wchars_length] at lt
      exact ⟨11 + k, by rw [CHAR_LONG_NAME]; omega, by congr 1; push_cast; ring⟩
  · apply List.mem_append_right
    show _ ∈ snstrStores (i + 11) [_, _]
    rw [snstrStores]
    split
    · exact mem_fillStores.mpr ⟨0, Nat.one_pos, by simp⟩
    · exact List.mem_cons_self

theorem nameStores_short (short : de.attr ≠ ATTR_LONG_NAME) :
    ∀ store ∈ nameStores 0 de, store.Safe := by
  rw [nameStores, if_neg short]
  intro store h
  have small := shortChars_length de
  rw [CHAR_SHORT_NAME] at small
  rcases List.mem_append.mp h with blank | char
  · obtain ⟨k, lt, rfl⟩ := mem_fillStores.mp blank
    rw [CHAR_SHORT_NAME] at lt
    simp only [Store.Safe, FAT32_MAX_FILENAME]
    omega
  · obtain ⟨k, lt, rfl⟩ := mem_fillStores.mp char
    simp only [Store.Safe, FAT32_MAX_FILENAME]
    omega

/-- The piece has its place in the array. -/
def Slot.Fits (de : Slot) : Prop := 1 ≤ de.lcnt ∧ de.lcnt ≤ 19

theorem nameStores_fits (long : de.attr = ATTR_LONG_NAME) :
    (∀ store ∈ nameStores (((de.lcnt : Int) - 1) * CHAR_LONG_NAME) de, store.Safe) ↔ de.Fits := by
  obtain ⟨within, twelfth⟩ := nameStores_long (i := ((de.lcnt : Int) - 1) * CHAR_LONG_NAME) long
  rw [CHAR_LONG_NAME] at *
  constructor
  · intro safe
    obtain ⟨low, high⟩ := safe _ twelfth
    rw [FAT32_MAX_FILENAME] at high
    constructor <;> omega
  · rintro ⟨low, high⟩ store h
    obtain ⟨k, lt, rfl⟩ := within store h
    simp only [Store.Safe, FAT32_MAX_FILENAME]
    omega

/-! ### Tame lists of slots -/

def Slot.isEmpty (de : Slot) : Bool := de.order = EMPTY_ENTRY

/-- A piece of a name. -/
def Slot.isLong (de : Slot) : Bool :=
  de.order ≠ END_OF_ENTRY ∧ de.order ≠ EMPTY_ENTRY ∧ de.attr = ATTR_LONG_NAME

/-- Nothing follows the empty slots that a list begins with but the end. -/
def EmptyToEnd (slots : List Slot) : Prop :=
  ∀ de ∈ (slots.dropWhile Slot.isEmpty).head?, de.order = END_OF_ENTRY

/-- Where pieces of a name come first, each fits the array, at most one is
marked as the last, and with one so marked no empty slot follows the pieces,
unless the directory ends behind it. -/
structure Tame (slots : List Slot) : Prop where
  fits : ∀ de ∈ slots.takeWhile Slot.isLong, de.Fits
  once : (slots.takeWhile Slot.isLong).countP Slot.isLast ≤ 1
  gap : (∃ de ∈ slots.takeWhile Slot.isLong, de.isLast) →
    ∀ de ∈ (slots.dropWhile Slot.isLong).head?, de.isEmpty →
      EmptyToEnd (slots.dropWhile Slot.isLong)

section Round

variable {rest : List Slot}

@[simp] theorem scanStores_nil (s : Scan) : scanStores [] s = [] := rfl

/-- The stores of a round, and of what comes after it if it goes on. -/
theorem scanStores_cons (de : Slot) (rest : List Slot) (s : Scan) :
    scanStores (de :: rest) s = s.stores de ++
      match s.slot de with
      | .ok (none, s) => scanStores rest s
      | _ => [] := rfl

theorem scanStores_end (ends : de.order = END_OF_ENTRY) : scanStores (de :: rest) s = [] := by
  simp [scanStores_cons, Scan.stores, Scan.slot, ends]

theorem scanStores_skip (empty : de.isEmpty) :
    scanStores (de :: rest) s = scanStores rest { s with cnt := s.cnt + 1 } := by
  have empty : de.order = EMPTY_ENTRY := of_decide_eq_true empty
  simp [scanStores_cons, Scan.stores, Scan.slot, empty, EMPTY_ENTRY, END_OF_ENTRY]

theorem scanStores_found (more : de.order ≠ END_OF_ENTRY) (full : de.isEmpty = false)
    (seen : s.cnt ≠ 0) : scanStores (de :: rest) s = [.count s.counting] := by
  have full : de.order ≠ EMPTY_ENTRY := of_decide_eq_false full
  cases counting : s.counting <;>
    simp [scanStores_cons, Scan.stores, Scan.slot, more, full, seen, counting]

theorem scanStores_short (more : de.order ≠ END_OF_ENTRY) (full : de.isEmpty = false)
    (short : de.isLong = false) (fresh : s.cnt = 0) :
    ∀ store ∈ scanStores (de :: rest) s, store.Safe := by
  have full : de.order ≠ EMPTY_ENTRY := of_decide_eq_false full
  have short : de.attr ≠ ATTR_LONG_NAME := by simpa [Slot.isLong, more, full] using short
  intro store h
  cases counting : s.counting with
  | true =>
    have all : scanStores (de :: rest) s = .count true :: nameStores 0 de := by
      simp [scanStores_cons, Scan.stores, Scan.slot, more, full, short, fresh, counting]
    rw [all] at h
    rcases List.mem_cons.mp h with rfl | name
    · rfl
    · exact nameStores_short short store name
  | false =>
    have all : scanStores (de :: rest) s = [] := by
      simp [scanStores_cons, Scan.stores, Scan.slot, more, full, short, fresh, counting]
    rw [all] at h
    cases h

/-- A piece of a name: marked as the last it clears `count`. -/
theorem scanStores_long (long : de.isLong) (fresh : s.cnt = 0) :
    ∃ s' : Scan, s'.cnt = 0 ∧ s'.counting = (s.counting && !de.isLast) ∧
      ((∀ store ∈ scanStores (de :: rest) s, store.Safe) ↔
        (de.isLast → s.counting) ∧ de.Fits ∧ ∀ store ∈ scanStores rest s', store.Safe) := by
  obtain ⟨more, full, attr⟩ := of_decide_eq_true long
  have stored : s.stores de = (if de.isLast then [.count s.counting] else []) ++
      nameStores (((de.lcnt : Int) - 1) * CHAR_LONG_NAME) de := by
    simp [Scan.stores, more, full, fresh, attr]
  have here : (∀ store ∈ s.stores de, store.Safe) ↔ (de.isLast → s.counting) ∧ de.Fits := by
    rw [stored, ← nameStores_fits attr, List.forall_mem_append]
    cases de.isLast <;> simp [Store.Safe]
  rcases Decidable.em ((de.isLast ∧ s.counting = false) ∨ de.lcnt = 0 ∨ 20 < de.lcnt) with bad | good
  · -- the round itself goes wrong
    have wrong : ¬((de.isLast → s.counting) ∧ de.Fits) := by
      rintro ⟨once, low, high⟩
      rcases bad with ⟨last, cleared⟩ | bad
      · simp [once last] at cleared
      · omega
    have faults : s.slot de = .error .fault := by
      simp only [Slot.isLast, decide_eq_true_eq, Slot.lcnt] at bad
      rw [Scan.slot, if_neg more, if_neg full, if_neg (not_not.mpr fresh), if_pos attr]
      rcases bad with marked | bad
      · exact if_pos marked
      · dsimp only
        rw [if_pos bad, ite_self]
    refine ⟨{ s with counting := s.counting && !de.isLast }, fresh, rfl, ?_⟩
    rw [scanStores_cons, faults, List.append_nil, here]
    tauto
  · have goes : ∃ s' : Scan, s.slot de = .ok (none, s') ∧ s'.cnt = 0 ∧
        s'.counting = (s.counting && !de.isLast) := by
      simp only [not_or, Slot.isLast, decide_eq_true_eq, Slot.lcnt] at good
      rw [Scan.slot, if_neg more, if_neg full, if_neg (not_not.mpr fresh), if_pos attr]
      dsimp only
      rw [if_neg good.1, if_neg (not_or.mpr good.2)]
      by_cases last : de.order &&& LAST_LONG_ENTRY ≠ 0
      · rw [if_pos last]
        exact ⟨_, rfl, fresh, by simp [Slot.isLast, last]⟩
      · rw [if_neg last]
        exact ⟨_, rfl, fresh, by simp [Slot.isLast, last]⟩
    obtain ⟨s', step, fresh', counting'⟩ := goes
    refine ⟨s', fresh', counting', ?_⟩
    rw [scanStores_cons, step, List.forall_mem_append, here, and_assoc]

end Round

/-- After an empty slot, the next one with something in it is reported through
`count`. -/
theorem scanStores_empty {slots : List Slot} (seen : s.cnt ≠ 0) :
    (∀ store ∈ scanStores slots s, store.Safe) ↔ (s.counting = false → EmptyToEnd slots) := by
  induction slots generalizing s with
  | nil => simp [EmptyToEnd]
  | cons de rest ih =>
    cases empty : de.isEmpty with
    | true =>
      have drop : EmptyToEnd (de :: rest) = EmptyToEnd rest := by simp [EmptyToEnd, empty]
      rw [scanStores_skip empty, drop]
      exact ih (Nat.succ_ne_zero _)
    | false =>
      by_cases ends : de.order = END_OF_ENTRY
      · simp [scanStores_end ends, EmptyToEnd, empty, ends]
      · simp [scanStores_found ends empty seen, EmptyToEnd, empty, ends, Store.Safe]

/-- Once `count` is cleared, no piece may be marked as the last. -/
theorem scanStores_cleared {slots : List Slot} (fresh : s.cnt = 0) (cleared : s.counting = false) :
    (∀ store ∈ scanStores slots s, store.Safe) ↔
      (∀ de ∈ slots.takeWhile Slot.isLong, de.Fits ∧ de.isLast = false) ∧
      ∀ de ∈ (slots.dropWhile Slot.isLong).head?, de.isEmpty →
        EmptyToEnd (slots.dropWhile Slot.isLong) := by
  induction slots generalizing s with
  | nil => simp
  | cons de rest ih =>
    cases long : de.isLong with
    | true =>
      obtain ⟨s', fresh', counting', safe⟩ := @scanStores_long _ _ rest long fresh
      rw [cleared, Bool.false_and] at counting'
      rw [safe, ih fresh' counting', cleared, List.takeWhile_cons_of_pos long,
        List.dropWhile_cons_of_pos long, List.forall_mem_cons]
      simp only [Bool.false_eq_true, imp_false, Bool.not_eq_true]
      tauto
    | false =>
      rw [List.takeWhile_cons_of_neg (by simp [long]), List.dropWhile_cons_of_neg (by simp [long])]
      cases empty : de.isEmpty with
      | true =>
        have drop : EmptyToEnd (de :: rest) = EmptyToEnd rest := by simp [EmptyToEnd, empty]
        rw [scanStores_skip empty, scanStores_empty (Nat.succ_ne_zero _), drop]
        simp [cleared, empty]
      | false =>
        by_cases ends : de.order = END_OF_ENTRY
        · simp [scanStores_end ends, empty]
        · simpa [empty] using scanStores_short ends empty long fresh

/-- From the start, the pieces up to one marked as the last are read with
`count` still set. -/
theorem scanStores_tame {slots : List Slot} (fresh : s.cnt = 0) (counting : s.counting = true) :
    (∀ store ∈ scanStores slots s, store.Safe) ↔ Tame slots := by
  induction slots generalizing s with
  | nil => exact ⟨fun _ => ⟨by simp, by simp, by simp⟩, fun _ => by simp⟩
  | cons de rest ih =>
    cases long : de.isLong with
    | true =>
      obtain ⟨s', fresh', counting', safe⟩ := @scanStores_long _ _ rest long fresh
      have take : (de :: rest).takeWhile Slot.isLong = de :: rest.takeWhile Slot.isLong :=
        List.takeWhile_cons_of_pos long
      have drop : (de :: rest).dropWhile Slot.isLong = rest.dropWhile Slot.isLong :=
        List.dropWhile_cons_of_pos long
      rw [safe]
      cases last : de.isLast with
      | true =>
        rw [counting, last] at counting'
        rw [scanStores_cleared fresh' counting']
        constructor
        · rintro ⟨-, here, later, gap⟩
          refine ⟨?_, ?_, ?_⟩
          · rw [take, List.forall_mem_cons]
            exact ⟨here, fun x hx => (later x hx).1⟩
          · have none : (rest.takeWhile Slot.isLong).countP Slot.isLast = 0 :=
              List.countP_eq_zero.mpr fun x hx => by simp [(later x hx).2]
            rw [take, List.countP_cons_of_pos last, none]
          · rw [drop]
            exact fun _ => gap
        · intro tame
          have once := tame.once
          have fits := tame.fits
          have gap := tame.gap
          rw [take] at once fits gap
          rw [drop] at gap
          rw [List.countP_cons_of_pos last] at once
          have none := List.countP_eq_zero.mp (show (rest.takeWhile Slot.isLong).countP Slot.isLast = 0 by omega)
          exact ⟨fun _ => counting, fits de List.mem_cons_self,
            fun x hx => ⟨fits x (List.mem_cons_of_mem _ hx), by simpa using none x hx⟩,
            gap ⟨de, List.mem_cons_self, last⟩⟩
      | false =>
        rw [counting, last] at counting'
        rw [ih fresh' counting']
        constructor
        · rintro ⟨-, here, tame⟩
          refine ⟨?_, ?_, ?_⟩
          · rw [take, List.forall_mem_cons]
            exact ⟨here, tame.fits⟩
          · rw [take, List.countP_cons_of_neg (by simp [last])]
            exact tame.once
          · rw [take, drop]
            rintro ⟨x, hx, marked⟩
            rcases List.mem_cons.mp hx with rfl | later
            · simp [last] at marked
            · exact tame.gap ⟨x, later, marked⟩
        · intro tame
          have once := tame.once
          have fits := tame.fits
          have gap := tame.gap
          rw [take] at once fits gap
          rw [drop] at gap
          rw [List.countP_cons_of_neg (by simp [last])] at once
          exact ⟨fun _ => counting, fits de List.mem_cons_self,
            ⟨fun x hx => fits x (List.mem_cons_of_mem _ hx), once,
              fun ⟨x, hx, marked⟩ => gap ⟨x, List.mem_cons_of_mem _ hx, marked⟩⟩⟩
    | false =>
      have none : (de :: rest).takeWhile Slot.isLong = [] :=
        List.takeWhile_cons_of_neg (by simp [long])
      have tame : Tame (de :: rest) := ⟨by simp [none], by simp [none], by simp [none]⟩
      apply iff_of_true ?_ tame
      cases empty : de.isEmpty with
      | true =>
        rw [scanStores_skip empty, scanStores_empty (Nat.succ_ne_zero _)]
        simp [counting]
      | false =>
        by_cases ends : de.order = END_OF_ENTRY
        · simp [scanStores_end ends]
        · exact scanStores_short ends empty long fresh

/-! ### Whether the loop ends -/

/-- No slot of the list ends the loop: first pieces of a name, then empty slots. -/
def Undecided (slots : List Slot) : Prop := ∀ de ∈ slots.dropWhile Slot.isLong, de.isEmpty

/-- The same once `cnt` empty slots have been seen. -/
def UndecidedFrom (cnt : Nat) (slots : List Slot) : Prop :=
  if cnt = 0 then Undecided slots else ∀ de ∈ slots, de.isEmpty

variable {s' : Scan} {rest : List Slot}

/-- A round that faults has made a bad store. -/
theorem Scan.slot_error {e : Halt} (h : s.slot de = .error e) :
    ∃ store ∈ s.stores de, ¬store.Safe := by
  by_contra none
  have safe : ∀ store ∈ scanStores [de] s, store.Safe := by
    intro store made
    rw [scanStores_cons, h, List.append_nil] at made
    by_contra bad
    exact none ⟨store, made, bad⟩
  rw [Scan.slot] at h
  split at h
  next => cases h
  next more =>
    split at h
    next => cases h
    next full =>
      split at h
      next seen =>
        have empty : de.isEmpty = false := decide_eq_false full
        rw [scanStores_found more empty seen] at safe
        have counting : s.counting = true := safe _ List.mem_cons_self
        rw [if_pos counting] at h
        cases h
      next fresh =>
        have fresh : s.cnt = 0 := not_not.mp fresh
        split at h
        next attr =>
          have long : de.isLong = true := decide_eq_true ⟨more, full, attr⟩
          obtain ⟨_, -, -, safe_iff⟩ := @scanStores_long _ _ [] long fresh
          obtain ⟨once, fits, -⟩ := safe_iff.mp safe
          have marked : ¬(de.order &&& LAST_LONG_ENTRY ≠ 0 ∧ s.counting = false) := by
            rintro ⟨last, cleared⟩
            have := once (decide_eq_true last)
            simp [cleared] at this
          dsimp only at h
          have low := fits.1
          have high := fits.2
          rw [Slot.lcnt] at low high
          rw [if_neg marked, if_neg (by omega)] at h
          split at h <;> cases h
        next => split at h <;> cases h

theorem Scan.slot_goes (h : s.slot de = .ok (none, s')) :
    UndecidedFrom s.cnt (de :: rest) ↔ UndecidedFrom s'.cnt rest := by
  rw [Scan.slot] at h
  split at h
  next => cases h
  next more =>
    split at h
    next empty =>
      have empty : de.isEmpty = true := decide_eq_true empty
      have short : ¬de.isLong = true := by
        simp only [Slot.isEmpty, decide_eq_true_eq] at empty
        simp [Slot.isLong, empty]
      cases h
      rw [UndecidedFrom, UndecidedFrom, if_neg (Nat.succ_ne_zero _), Undecided,
        List.dropWhile_cons_of_neg short, ite_self, List.forall_mem_cons]
      exact and_iff_right empty
    next full =>
      split at h
      next => split at h <;> cases h
      next fresh =>
        have fresh : s.cnt = 0 := not_not.mp fresh
        split at h
        next attr =>
          have long : de.isLong = true := decide_eq_true ⟨more, full, attr⟩
          dsimp only at h
          split at h
          · cases h
          split at h
          · cases h
          have same : s'.cnt = s.cnt := by
            split at h <;> (cases h; rfl)
          rw [same, UndecidedFrom, UndecidedFrom, if_pos fresh, if_pos fresh, Undecided,
            List.dropWhile_cons_of_pos long, Undecided]
        next => split at h <;> cases h

theorem Scan.slot_stops {type : Int} (h : s.slot de = .ok (some type, s')) :
    ¬UndecidedFrom s.cnt (de :: rest) := by
  have stays : de.isEmpty = false ∧ (s.cnt = 0 → de.isLong = false) := by
    rw [Scan.slot] at h
    split at h
    next ends => simp [Slot.isEmpty, Slot.isLong, ends, END_OF_ENTRY, EMPTY_ENTRY]
    next more =>
      split at h
      next => cases h
      next full =>
        refine ⟨decide_eq_false full, fun fresh => ?_⟩
        rw [if_neg (not_not.mpr fresh)] at h
        split at h
        next attr =>
          dsimp only at h
          split at h
          · cases h
          split at h
          · cases h
          split at h <;> cases h
        next attr => simp [Slot.isLong, attr]
  obtain ⟨full, short⟩ := stays
  rw [UndecidedFrom]
  split
  next fresh =>
    rw [Undecided, List.dropWhile_cons_of_neg (by simp [short fresh])]
    simp [full]
  next => simp [full]

variable {d : Disk} {cs : List Nat} {e : Dirent} {limit : Nat}

theorem slotsFrom_inside (h : Clusters fat d cs) (cursor : Cursor e cs) {i : Nat}
    (inside : i < capacity fat cs) :
    slotsFrom fat (limit + 1) e (32 * i) d = d.window (fat.slotAt cs i) 32 ::
      slotsFrom fat limit (e.seek cs (i / fat.slots)) (u32 (32 * i + 32)) d := by
  rw [slotsFrom, reloc_slot h cursor false inside]
  dsimp only
  rw [read_slot h (e := e) inside]

theorem slotsFrom_outside (h : Clusters fat d cs) (cursor : Cursor e cs) {i : Nat}
    (outside : capacity fat cs ≤ i) : slotsFrom fat limit e (32 * i) d = [] := by
  cases limit with
  | zero => rfl
  | succ limit =>
    have lost : reloc_clus fat e (32 * i) false d = _ :=
      reloc_clus_outside h cursor (by rw [capacity_bytes]; omega)
    rw [slotsFrom, lost]

/-- The number of the next slot: offsets have 32 bits. -/
theorem next_slot (i : Nat) : u32 (32 * i + 32) = 32 * ((i + 1) % SLOTS) := by
  rw [u32, SLOTS]
  omega

theorem slotsFrom_short (h : Clusters fat d cs) (cursor : Cursor e cs)
    (small : capacity fat cs < SLOTS) (i : Nat) :
    (slotsFrom fat limit e (32 * i) d).length ≤ capacity fat cs - i := by
  induction limit generalizing i e with
  | zero => exact Nat.zero_le _
  | succ limit ih =>
    rcases Nat.lt_or_ge i (capacity fat cs) with inside | outside
    · have next := ih (cursor.seek (cluster_lt inside)) (i + 1)
      rw [slotsFrom_inside h cursor inside, next_slot, Nat.mod_eq_of_lt (by omega),
        List.length_cons]
      omega
    · rw [slotsFrom_outside h cursor outside]
      exact Nat.zero_le _

theorem slotsFrom_long (h : Clusters fat d cs) (cursor : Cursor e cs)
    (large : SLOTS ≤ capacity fat cs) {i : Nat} (hi : i < SLOTS) :
    (slotsFrom fat limit e (32 * i) d).length = limit := by
  induction limit generalizing i e with
  | zero => rfl
  | succ limit ih =>
    have inside : i < capacity fat cs := by omega
    have next := ih (cursor.seek (cluster_lt inside)) (Nat.mod_lt (i + 1) (by decide))
    rw [slotsFrom_inside h cursor inside, next_slot, List.length_cons, next]

/-- A loop that makes no bad store ends where the chain does or a slot decides. -/
theorem enextFrom_returns (h : Clusters fat d cs) (cursor : Cursor e cs) {i : Nat}
    (safe : ∀ store ∈ scanStores (slotsFrom fat limit e (32 * i) d) s, store.Safe) :
    (∃ r, enextFrom fat limit e (32 * i) s d = .ok (r, d)) ↔
      (slotsFrom fat limit e (32 * i) d).length < limit ∨
        ¬UndecidedFrom s.cnt (slotsFrom fat limit e (32 * i) d) := by
  induction limit generalizing i e s with
  | zero =>
    refine iff_of_false ?_ ?_
    · rintro ⟨r, run⟩
      cases run
    · simp [slotsFrom, UndecidedFrom, Undecided]
  | succ limit ih =>
    rcases Nat.lt_or_ge i (capacity fat cs) with inside | outside
    · rw [slotsFrom_inside h cursor inside] at safe ⊢
      rw [scanStores_cons] at safe
      cases step : s.slot (d.window (fat.slotAt cs i) 32) with
      | error e =>
        obtain ⟨store, made, bad⟩ := Scan.slot_error step
        exact absurd (safe store (List.mem_append_left _ made)) bad
      | ok result =>
        obtain ⟨type, s'⟩ := result
        rw [enextFrom_step h cursor inside step]
        cases type with
        | some type =>
          exact iff_of_true ⟨_, rfl⟩ (.inr (Scan.slot_stops step))
        | none =>
          rw [step] at safe
          dsimp only at safe ⊢
          rw [next_slot] at safe ⊢
          rw [ih (cursor.seek (cluster_lt inside)) fun store made =>
            safe store (List.mem_append_right _ made), List.length_cons,
            Nat.add_lt_add_iff_right, Scan.slot_goes step]
    · have lost : reloc_clus fat e (32 * i) false d = _ :=
        reloc_clus_outside h cursor (by rw [capacity_bytes]; omega)
      rw [slotsFrom_outside h cursor outside, enextFrom, Machine.bind_of_ok lost]
      exact iff_of_true ⟨_, rfl⟩ (.inl (Nat.succ_pos _))

/-! ### Calls of `enext` -/

/-- A call that keeps within the entry's name, stores through `count` only while
it is set, and returns if the directory's chain is finite. -/
structure EnextRight (fat : Geometry) (dp ep : Dirent) (off count : Nat) (d : Disk) : Prop where
  stores : ∀ limit, ∀ store ∈ enextStores fat limit dp ep off count d, store.Safe
  returns : ∀ cs, Clusters fat d cs → Cursor dp cs →
    ∃ r, enext fat dp ep off count d = .ok (r, d)

variable {dp ep : Dirent} {off count : Nat}

theorem enextStores_safe (valid : dp.valid = 1) :
    (∀ store ∈ enextStores fat limit dp ep off count d, store.Safe) ↔
      Tame (slotsFrom fat limit dp off d) := by
  have cleared : ∀ store ∈ fillStores 0 (FAT32_MAX_FILENAME + 1), store.Safe := by
    intro store made
    obtain ⟨k, lt, rfl⟩ := mem_fillStores.mp made
    simp only [Store.Safe]
    omega
  rw [enextStores, if_neg (not_not.mpr valid), List.forall_mem_append,
    scanStores_tame (show (Scan.start ep count).cnt = 0 from rfl) rfl]
  exact and_iff_right cleared

/-- Of a valid entry, `enext` is its loop from a fresh round. -/
theorem enext_eq (dir : dp.isDir = true) (aligned : off % 32 = 0) :
    enext fat dp ep off count = if dp.valid ≠ 1 then
      pure (-1, dp, ep, count) else (do
        let (type, dp, s) ← enextFrom fat (SLOTS + 1) dp off (.start ep count)
        return (type, dp, s.ep, s.count)) := by
  rw [enext, if_neg (by simp [dir]), if_neg (by omega)]
  rfl

/-- `enext` goes right exactly on tame directories of less than 2 ^ 27 slots, or
with a slot that decides before the offset has wrapped around. -/
theorem enext_right_iff (dir : dp.isDir = true) (aligned : off % 32 = 0) (range : off < 2 ^ 32) :
    EnextRight fat dp ep off count d ↔
      (dp.valid = 1 → (∀ limit, Tame (slotsFrom fat limit dp off d)) ∧
        ∀ cs, Clusters fat d cs → Cursor dp cs →
          capacity fat cs < SLOTS ∨ ¬Undecided (slotsFrom fat (SLOTS + 1) dp off d)) := by
  obtain ⟨i, rfl⟩ : ∃ i, off = 32 * i := ⟨off / 32, by omega⟩
  have unfolded := @enext_eq fat dp ep (32 * i) count dir aligned
  by_cases valid : dp.valid = 1
  · have returns : ∀ cs, Clusters fat d cs → Cursor dp cs →
        (∀ limit, Tame (slotsFrom fat limit dp (32 * i) d)) →
        ((∃ r, enext fat dp ep (32 * i) count d = .ok (r, d)) ↔
          capacity fat cs < SLOTS ∨ ¬Undecided (slotsFrom fat (SLOTS + 1) dp (32 * i) d)) := by
      intro cs h cursor tame
      have safe : ∀ store ∈ scanStores (slotsFrom fat (SLOTS + 1) dp (32 * i) d) (.start ep count),
          store.Safe := (scanStores_tame rfl rfl).mpr (tame _)
      have ended : (slotsFrom fat (SLOTS + 1) dp (32 * i) d).length < SLOTS + 1 ↔
          capacity fat cs < SLOTS := by
        rcases Nat.lt_or_ge (capacity fat cs) SLOTS with small | large
        · have := @slotsFrom_short _ _ _ _ (SLOTS + 1) h cursor small i
          omega
        · have := @slotsFrom_long _ _ _ _ (SLOTS + 1) h cursor large i (by rw [SLOTS]; omega)
          omega
      have loop := enextFrom_returns h cursor safe
      rw [ended] at loop
      rw [unfolded, if_neg (not_not.mpr valid)]
      refine Iff.trans ⟨?_, ?_⟩ loop
      · rintro ⟨r, run⟩
        obtain ⟨result, d₁, inner, last⟩ := Machine.bind_ok.mp run
        cases last
        exact ⟨result, inner⟩
      · rintro ⟨⟨type, dp', s'⟩, run⟩
        exact ⟨_, Machine.bind_of_ok run⟩
    constructor
    · intro right _
      have tame := fun limit => (enextStores_safe valid).mp (right.stores limit)
      exact ⟨tame, fun cs h cursor => (returns cs h cursor tame).mp (right.returns cs h cursor)⟩
    · intro cond
      obtain ⟨tame, ends⟩ := cond valid
      exact ⟨fun limit => (enextStores_safe valid).mpr (tame limit),
        fun cs h cursor => (returns cs h cursor tame).mpr (ends cs h cursor)⟩
  · refine iff_of_true ⟨fun limit store made => ?_, fun cs _ _ => ?_⟩ fun h => absurd h valid
    · rw [enextStores, if_pos valid] at made
      cases made
    · rw [unfolded, if_pos valid]
      exact ⟨_, rfl⟩

/-- A directory with the one name `aaaaaaaaaaaaa`. -/
def namedDisk : Disk :=
  bareDisk.blit (bareVolume.slotAt [2] 0)
    (longSlot 0x41 0 ((List.replicate 13 [97, 0]).flatten) ++ shortSlot (List.replicate 11 65) ATTR_ARCHIVE 0 0)

def namedSlot (i : Nat) : Slot := namedDisk.window (bareVolume.slotAt [2] i) 32

/-- A piece of the name comes first, and then the entry itself. -/
theorem namedDisk_slots (limit : Nat) : slotsFrom bareVolume (limit + 1) bareRoot (32 * 0) namedDisk =
    namedSlot 0 :: slotsFrom bareVolume limit (bareRoot.seek [2] (0 / bareVolume.slots)) 32 namedDisk ∧
    ∃ rest, slotsFrom bareVolume (limit + 1) (bareRoot.seek [2] (0 / bareVolume.slots)) 32 namedDisk =
      namedSlot 1 :: rest := by
  have clusters : Clusters bareVolume namedDisk [2] := bareRoot_clusters.blit 0 _
  have cursor : Cursor bareRoot [2] := ⟨rfl, rfl⟩
  exact ⟨slotsFrom_inside clusters cursor (by decide), _,
    slotsFrom_inside (i := 1) clusters (cursor.seek (by decide)) (by decide)⟩

/-- A piece of a name that an entry follows. -/
theorem tame_piece {de : Slot} {slots : List Slot} (piece : de.isLong = true) (fits : de.Fits)
    (entry : ∀ next ∈ slots.head?, next.isLong = false ∧ ¬next.isEmpty) : Tame (de :: slots) := by
  have only : (de :: slots).takeWhile Slot.isLong = [de] := by
    rw [List.takeWhile_cons_of_pos piece]
    cases slots with
    | nil => rfl
    | cons next rest => rw [List.takeWhile_cons_of_neg (by simp [(entry next rfl).1])]
  have after : (de :: slots).dropWhile Slot.isLong = slots := by
    rw [List.dropWhile_cons_of_pos piece]
    cases slots with
    | nil => rfl
    | cons next rest => rw [List.dropWhile_cons_of_neg (by simp [(entry next rfl).1])]
  refine ⟨?_, ?_, fun _ next first empty => ?_⟩
  · rw [only]
    exact List.forall_mem_singleton.mpr fits
  · rw [only]
    exact List.countP_le_length
  · rw [after] at first
    exact absurd empty (entry next first).2

theorem enext_right_named : EnextRight bareVolume bareRoot bareRoot 0 0 namedDisk := by
  have piece : Slot.isLong (namedSlot 0) = true := by decide
  have entry : Slot.isLong (namedSlot 1) = false := by decide
  refine (enext_right_iff rfl (by decide) (by decide)).mpr fun _ => ⟨fun limit => ?_, fun _ _ _ => .inr ?_⟩
  · cases limit with
    | zero => exact ⟨by simp [slotsFrom], by simp [slotsFrom], by simp [slotsFrom]⟩
    | succ limit =>
      rw [show slotsFrom bareVolume (limit + 1) bareRoot 0 namedDisk = _ from (namedDisk_slots limit).1]
      refine tame_piece piece ⟨by decide, by decide⟩ fun de first => ?_
      cases limit with
      | zero => cases first
      | succ limit =>
        obtain ⟨rest, next⟩ := (namedDisk_slots limit).2
        rw [next] at first
        cases first
        exact ⟨entry, by decide⟩
  · obtain ⟨rest, next⟩ := (namedDisk_slots (SLOTS - 1)).2
    have slots : slotsFrom bareVolume (SLOTS + 1) bareRoot 0 namedDisk = namedSlot 0 :: namedSlot 1 :: rest :=
      (namedDisk_slots SLOTS).1.trans (congrArg _ next)
    rw [slots, Undecided, List.dropWhile_cons_of_pos piece, List.dropWhile_cons_of_neg (by rw [entry]; decide)]
    intro empty
    exact absurd (empty _ List.mem_cons_self) (by decide)

/-- A directory that begins with two pieces marked as the last, the second of
them numbered 0. -/
def brokenDisk : Disk :=
  bareDisk.blit (bareVolume.slotAt [2] 0)
    (longSlot 0x41 0 (List.replicate 26 97) ++ longSlot 0x40 0 (List.replicate 26 97))

theorem enext_stores_outside :
    .name (-13) ∈ enextStores bareVolume 2 bareRoot bareRoot 0 0 brokenDisk ∧
    .count false ∈ enextStores bareVolume 2 bareRoot bareRoot 0 0 brokenDisk ∧
    ¬EnextRight bareVolume bareRoot bareRoot 0 0 brokenDisk := by
  have clusters : Clusters bareVolume brokenDisk [2] := bareRoot_clusters.blit 0 _
  have cursor : Cursor bareRoot [2] := ⟨rfl, rfl⟩
  have slots : slotsFrom bareVolume 2 bareRoot (32 * 0) brokenDisk =
      [brokenDisk.window (bareVolume.slotAt [2] 0) 32,
        brokenDisk.window (bareVolume.slotAt [2] 1) 32] := by
    rw [slotsFrom_inside clusters cursor (by decide), next_slot,
      slotsFrom_inside clusters (cursor.seek (by decide)) (by decide)]
    rfl
  have before : .name (-13) ∈ enextStores bareVolume 2 bareRoot bareRoot 0 0 brokenDisk := by
    rw [enextStores, if_neg (by decide), slots]
    exact List.mem_append_right _ (by decide)
  refine ⟨before, ?_, fun right => ?_⟩
  · rw [enextStores, if_neg (by decide), slots]
    exact List.mem_append_right _ (by decide)
  · exact absurd (right.stores 2 _ before).1 (by decide)

end AvxKernel.Fat
