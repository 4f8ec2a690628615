import AvxKernel.Fat.Alloc
import AvxKernel.Fat.Directory

/-! The long-name codec: `enext` reads back what `emake` has written. A slot
carries thirteen two-byte characters in three fields, a chunk of the name; the
chunks stand in the directory from the last to the first. -/
namespace AvxKernel.Fat

/-! ### One field -/

section Snstr

variable {dst : Buffer} {i : Nat} {us : List Nat}

theorem snstr_outside {k : Nat} (out : k < i ∨ i + us.length ≤ k) : snstr dst i us k = dst k := by
  induction us generalizing dst i with
  | nil => rfl
  | cons u rest ih =>
    rw [List.length_cons] at out
    rw [snstr]
    split
    · exact if_neg (by omega)
    · rw [ih (by omega)]
      exact Function.update_of_ne (by omega) _ _

/-- Up to the first NUL the characters are copied. -/
theorem snstr_char {j : Nat} (hj : j < us.length) (nonzero : ∀ k (h : k ≤ j), us[k] ≠ 0) :
    snstr dst i us (i + j) = UInt8.ofNat us[j] := by
  induction us generalizing dst i j with
  | nil => simp at hj
  | cons u rest ih =>
    have here : u ≠ 0 := nonzero 0 (Nat.zero_le _)
    rw [snstr, if_neg here]
    cases j with
    | zero =>
      rw [snstr_outside (by omega)]
      exact Function.update_self _ _ _
    | succ j =>
      have shift : i + (j + 1) = i + 1 + j := by omega
      rw [shift, ih (by simpa using hj) fun k hk => nonzero (k + 1) (by omega)]
      rfl

/-- The last place is not filled, but has been cleared before. -/
theorem snstr_nul {j : Nat} (hj : j < us.length) (nonzero : ∀ k (h : k < j), us[k] ≠ 0)
    (nul : us[j] = 0) (clear : dst (i + j) = 0) : snstr dst i us (i + j) = 0 := by
  induction us generalizing dst i j with
  | nil => simp at hj
  | cons u rest ih =>
    cases j with
    | zero =>
      have here : u = 0 := nul
      rw [snstr, if_pos here]
      split
      · rfl
      · exact clear
    | succ j =>
      have shift : i + (j + 1) = i + 1 + j := by omega
      rw [shift] at clear ⊢
      have here : u ≠ 0 := nonzero 0 (Nat.succ_pos _)
      rw [snstr, if_neg here]
      refine ih (by simpa using hj) (fun k hk => nonzero (k + 1) (by omega)) nul ?_
      rw [Buffer.set, Function.update_of_ne (by omega)]
      exact clear

end Snstr

/-! ### One slot -/

section LongSlot

variable {order : Nat} {checksum : UInt8} {units : List UInt8}

theorem longSlot_length (len : units.length = 26) :
    (longSlot order checksum units).length = 32 := by
  simp [longSlot, len]

theorem longSlot_order (small : order < 256) : (longSlot order checksum units).order = order := by
  simp [Slot.order, field_one, longSlot, small]

theorem longSlot_attr (len : units.length = 26) :
    (longSlot order checksum units).attr = ATTR_LONG_NAME := by
  rw [Slot.attr, longSlot, field_append_left (by simp [len]), field_append_left (by simp [len]),
    field_append_left (by simp [len]), field_append_right (by simp [len])]
  simp [len]
  rfl

theorem longSlot_name1 (len : units.length = 26) :
    (longSlot order checksum units).wchars 1 5 =
      (List.range 5).map fun i => field units (2 * i) 2 := by
  apply List.map_congr_left
  intro i hi
  rw [List.mem_range] at hi
  rw [longSlot, field_append_left (by simp [len]; omega), field_append_left (by simp [len]; omega),
    field_append_left (by simp [len]; omega), field_append_left (by simp [len]; omega),
    field_append_right (by simp), List.length_singleton, Nat.add_sub_cancel_left,
    field_take (by omega)]

theorem longSlot_name2 (len : units.length = 26) :
    (longSlot order checksum units).wchars 14 6 =
      (List.range 6).map fun i => field units (2 * (5 + i)) 2 := by
  apply List.map_congr_left
  intro i hi
  rw [List.mem_range] at hi
  rw [longSlot, field_append_left (by simp [len]; omega), field_append_left (by simp [len]; omega),
    field_append_right (by simp [len]), field_take (by simp [len]; omega), field_drop]
  congr 1
  simp [len]
  omega

theorem longSlot_name3 (len : units.length = 26) :
    (longSlot order checksum units).wchars 28 2 =
      (List.range 2).map fun i => field units (2 * (11 + i)) 2 := by
  apply List.map_congr_left
  intro i hi
  rw [longSlot, field_append_right (by simp [len]), field_drop]
  congr 1
  simp [len]
  omega

end LongSlot

section Units

variable {filename : Buffer} {m p j : Nat}

theorem nameUnits_length (nul : Bool) : (nameUnits filename m p nul).length = 2 * m := by
  induction m generalizing p nul with
  | zero => rfl
  | succ m ih =>
    cases nul with
    | false =>
      rw [nameUnits, List.length_cons, List.length_cons, ih]
      omega
    | true =>
      rw [nameUnits, List.length_cons, List.length_cons, ih]
      omega

/-- Up to the NUL the characters of the name. -/
theorem nameUnits_field (hj : j < m) (nonzero : ∀ k < j, filename (p + k) ≠ 0) :
    field (nameUnits filename m p false) (2 * j) 2 = (filename (p + j)).toNat := by
  induction m generalizing p j with
  | zero => omega
  | succ m ih =>
    cases j with
    | zero => simp [nameUnits, field, valueOf]
    | succ j =>
      have here : (filename p == 0) = false := beq_false_of_ne (nonzero 0 (Nat.succ_pos _))
      have shift : 2 * (j + 1) = 2 + 2 * j := by omega
      have rest := ih (p := p + 1) (j := j) (by omega) fun k hk => by
        have := nonzero (k + 1) (by omega)
        rwa [Nat.add_assoc, Nat.add_comm 1 k]
      rw [nameUnits, here, shift, ← field_drop]
      rw [Nat.add_assoc, Nat.add_comm 1 j] at rest
      exact rest

end Units

theorem toNat_ne_zero {b : UInt8} (h : b ≠ 0) : b.toNat ≠ 0 := fun zero =>
  h (UInt8.toNat_inj.mp zero)

section Chunk

variable {filename buffer : Buffer} {order p i : Nat} {checksum : UInt8}

/-- The slot that carries the chunk of a name from `p` on. -/
def chunkSlot (filename : Buffer) (order : Nat) (checksum : UInt8) (p : Nat) : Slot :=
  longSlot order checksum (nameUnits filename CHAR_LONG_NAME p false)

theorem chunkSlot_length (filename : Buffer) (order : Nat) (checksum : UInt8) (p : Nat) :
    (chunkSlot filename order checksum p).length = 32 :=
  longSlot_length (nameUnits_length _)

theorem chunkSlot_attr : (chunkSlot filename order checksum p).attr = ATTR_LONG_NAME :=
  longSlot_attr (nameUnits_length _)

/-- A field of a chunk, as a function of the characters it carries. -/
theorem chunkField_char {b n j : Nat} (hj : j < n) (fit : b + n ≤ CHAR_LONG_NAME)
    (nonzero : ∀ k ≤ b + j, filename (p + k) ≠ 0) (dst : Buffer) :
    snstr dst (i + b) ((List.range n).map fun k =>
      field (nameUnits filename CHAR_LONG_NAME p false) (2 * (b + k)) 2) (i + (b + j)) =
      filename (p + (b + j)) := by
  have value : ∀ k ≤ j, field (nameUnits filename CHAR_LONG_NAME p false) (2 * (b + k)) 2 =
      (filename (p + (b + k))).toNat := fun k hk =>
    nameUnits_field (by omega) fun k' hk' => nonzero k' (by omega)
  rw [← Nat.add_assoc, snstr_char (by simpa using hj) fun k hk => by
    simp only [List.getElem_map, List.getElem_range]
    rw [value k hk]
    exact toNat_ne_zero (nonzero _ (by omega))]
  simp only [List.getElem_map, List.getElem_range]
  rw [value j (Nat.le_refl j)]
  simp

theorem chunkField_nul {b n j : Nat} (hj : j < n) (fit : b + n ≤ CHAR_LONG_NAME)
    (nonzero : ∀ k < b + j, filename (p + k) ≠ 0) (nul : filename (p + (b + j)) = 0)
    (dst : Buffer) (clear : dst (i + (b + j)) = 0) :
    snstr dst (i + b) ((List.range n).map fun k =>
      field (nameUnits filename CHAR_LONG_NAME p false) (2 * (b + k)) 2) (i + (b + j)) = 0 := by
  have value : ∀ k ≤ j, field (nameUnits filename CHAR_LONG_NAME p false) (2 * (b + k)) 2 =
      (filename (p + (b + k))).toNat := fun k hk =>
    nameUnits_field (by omega) fun k' hk' => nonzero k' (by omega)
  rw [← Nat.add_assoc] at clear ⊢
  refine snstr_nul (by simpa using hj) (fun k hk => ?_) ?_ clear
  · simp only [List.getElem_map, List.getElem_range]
    rw [value k (by omega)]
    exact toNat_ne_zero (nonzero _ (by omega))
  · simp only [List.getElem_map, List.getElem_range]
    rw [value j (Nat.le_refl j), nul]
    rfl

theorem read_chunk : read_entry_name buffer i (chunkSlot filename order checksum p) =
    snstr (snstr (snstr buffer (i + 0) ((List.range 5).map fun k =>
        field (nameUnits filename CHAR_LONG_NAME p false) (2 * (0 + k)) 2))
      (i + 5) ((List.range 6).map fun k =>
        field (nameUnits filename CHAR_LONG_NAME p false) (2 * (5 + k)) 2))
      (i + 11) ((List.range 2).map fun k =>
        field (nameUnits filename CHAR_LONG_NAME p false) (2 * (11 + k)) 2) := by
  have len : (nameUnits filename CHAR_LONG_NAME p false).length = 26 := nameUnits_length _
  rw [read_entry_name, if_pos chunkSlot_attr]
  dsimp only
  rw [chunkSlot, longSlot_name1 len, longSlot_name2 len, longSlot_name3 len]
  simp only [Nat.zero_add, Nat.add_zero]

theorem read_chunk_outside {k : Nat} (out : k < i ∨ i + CHAR_LONG_NAME ≤ k) :
    read_entry_name buffer i (chunkSlot filename order checksum p) k = buffer k := by
  rw [CHAR_LONG_NAME] at out
  rw [read_chunk, snstr_outside (by simp; omega), snstr_outside (by simp; omega),
    snstr_outside (by simp; omega)]

theorem read_chunk_char {j : Nat} (hj : j < CHAR_LONG_NAME)
    (nonzero : ∀ k ≤ j, filename (p + k) ≠ 0) :
    read_entry_name buffer i (chunkSlot filename order checksum p) (i + j) = filename (p + j) := by
  rw [CHAR_LONG_NAME] at hj
  rw [read_chunk]
  rcases Nat.lt_or_ge j 11 with second | third
  · rw [snstr_outside (by simp; omega)]
    rcases Nat.lt_or_ge j 5 with first | second'
    · rw [snstr_outside (by simp; omega)]
      have := chunkField_char (b := 0) (n := 5) (i := i) first (by decide)
        (by simpa using nonzero) buffer
      simpa using this
    · obtain ⟨k, rfl⟩ : ∃ k, j = 5 + k := ⟨j - 5, by omega⟩
      exact chunkField_char (by omega) (by decide) nonzero _
  · obtain ⟨k, rfl⟩ : ∃ k, j = 11 + k := ⟨j - 11, by omega⟩
    exact chunkField_char (by omega) (by decide) nonzero _

theorem read_chunk_nul {j : Nat} (hj : j < CHAR_LONG_NAME)
    (nonzero : ∀ k < j, filename (p + k) ≠ 0) (nul : filename (p + j) = 0)
    (clear : buffer (i + j) = 0) :
    read_entry_name buffer i (chunkSlot filename order checksum p) (i + j) = 0 := by
  rw [CHAR_LONG_NAME] at hj
  rw [read_chunk]
  rcases Nat.lt_or_ge j 11 with second | third
  · rw [snstr_outside (by simp; omega)]
    rcases Nat.lt_or_ge j 5 with first | second'
    · rw [snstr_outside (by simp; omega)]
      have := chunkField_nul (b := 0) (n := 5) (j := j) (i := i) first (by decide)
        (by simpa using nonzero) (by simpa using nul) buffer (by simpa using clear)
      simpa using this
    · obtain ⟨k, rfl⟩ : ∃ k, j = 5 + k := ⟨j - 5, by omega⟩
      refine chunkField_nul (by omega) (by decide) nonzero nul _ ?_
      rwa [snstr_outside (by simp)]
  · obtain ⟨k, rfl⟩ : ∃ k, j = 11 + k := ⟨j - 11, by omega⟩
    refine chunkField_nul (by omega) (by decide) nonzero nul _ ?_
    rw [snstr_outside (by simp; omega), snstr_outside (by simp; omega)]
    exact clear

end Chunk

/-! ### A name in chunks -/

section Name

variable {filename buf : Buffer} {name : List UInt8} {entcnt n : Nat} {checksum : UInt8}

theorem Buffer.Holds.nonzero (h : buf.Holds name) {q : Nat} (hq : q < name.length) : buf q ≠ 0 := by
  rw [h.1 q hq]
  exact fun zero => h.2.2 (zero ▸ List.getElem_mem hq)

theorem Buffer.Holds.chars (h : buf.Holds name) {size : Nat} (fit : name.length < size) :
    buf.chars size = name := by
  have split : (List.range size).map buf =
      name ++ (0 :: (List.range (size - name.length - 1)).map fun k =>
        buf (name.length + 1 + k)) := by
    apply List.ext_getElem
    · simp
      omega
    · intro q hq _
      simp only [List.length_map, List.length_range] at hq
      rw [List.getElem_map, List.getElem_range]
      rcases Nat.lt_trichotomy q name.length with inside | rfl | behind
      · rw [List.getElem_append_left inside, h.1 q inside]
      · simp [h.2.1]
      · obtain ⟨k, rfl⟩ : ∃ k, q = name.length + 1 + k := ⟨q - name.length - 1, by omega⟩
        simp [List.getElem_append_right, Nat.add_assoc, Nat.add_comm 1 k]
  rw [Buffer.chars, split, List.takeWhile_append_of_pos]
  · simp
  · intro c hc
    rw [decide_eq_true_iff]
    rintro rfl
    exact h.2.2 hc

theorem Buffer.Holds.strlen (h : buf.Holds name) (short : name.length ≤ FAT32_MAX_FILENAME) :
    buf.strlen = name.length := by
  rw [Buffer.strlen, h.chars (Nat.lt_succ_of_le short)]

/-- The slots of a name, `n` of them still to come: the last chunk first. -/
def longSlots (filename : Buffer) (entcnt : Nat) (checksum : UInt8) : Nat → List Slot
  | 0 => []
  | i + 1 =>
    chunkSlot filename (if i + 1 = entcnt then (i + 1) ||| LAST_LONG_ENTRY else i + 1) checksum
      (i * CHAR_LONG_NAME) :: longSlots filename entcnt checksum i

@[simp] theorem longSlots_length : (longSlots filename entcnt checksum n).length = n := by
  induction n with
  | zero => rfl
  | succ n ih => rw [longSlots, List.length_cons, ih]

theorem longSlots_slot {s : Slot} (hs : s ∈ longSlots filename entcnt checksum n) :
    s.length = 32 := by
  induction n with
  | zero => cases hs
  | succ n ih =>
    rcases List.mem_cons.mp hs with rfl | tail
    · exact chunkSlot_length _ _ _ _
    · exact ih tail

theorem emakeLong_run {fat : Geometry} {d : Disk} {cs : List Nat} {e : Dirent} {i : Nat}
    (ep : Dirent) (entcnt : Nat) (checksum : UInt8) (h : Clusters fat d cs) (cursor : Cursor e cs) (fit : i + n ≤ capacity fat cs)
    (small : 32 * (i + n) < 2 ^ 32) :
    ∃ e', Cursor e' cs ∧ (∀ k, e'.seek cs k = e.seek cs k) ∧
      emakeLong fat ep entcnt checksum n e (32 * i) d =
        .ok ((e', 32 * (i + n)), fat.put cs d i (longSlots ep.filename entcnt checksum n)) := by
  induction n generalizing i e d with
  | zero => exact ⟨e, cursor, fun _ => rfl, rfl⟩
  | succ n ih =>
    have hi : i < capacity fat cs := by omega
    have off : u32 (32 * i + 32) = 32 * (i + 1) := by
      rw [u32, Nat.mod_eq_of_lt (by omega)]
      omega
    have first := putSlot_run h cursor hi (chunkSlot_length ep.filename
      (if n + 1 = entcnt then (n + 1) ||| LAST_LONG_ENTRY else n + 1) checksum
      (n * CHAR_LONG_NAME))
    obtain ⟨e', cursor', same, rest⟩ := ih (h.blit i _) (cursor.seek (cluster_lt hi))
      (i := i + 1) (by omega) (by omega)
    refine ⟨e', cursor', same, ?_⟩
    rw [emakeLong]
    refine (Machine.bind_of_ok first).trans ?_
    rw [off, rest, Nat.add_assoc, Nat.add_comm 1 n]
    rfl

/-- The buffer holds the chunks of the name from `n` on, and its NUL. -/
def Spelled (name : List UInt8) (n : Nat) (buf : Buffer) : Prop :=
  (∀ q (h : q < name.length), n * CHAR_LONG_NAME ≤ q → buf q = name[q]) ∧ buf name.length = 0

/-- Reading one more chunk. -/
theorem Spelled.read {order : Nat} (holds : filename.Holds name) (h : Spelled name (n + 1) buf) :
    Spelled name n (read_entry_name buf (n * CHAR_LONG_NAME)
      (chunkSlot filename order checksum (n * CHAR_LONG_NAME))) := by
  have wide : (n + 1) * CHAR_LONG_NAME = n * CHAR_LONG_NAME + CHAR_LONG_NAME := Nat.succ_mul _ _
  constructor
  · intro q hq low
    rcases Nat.lt_or_ge q ((n + 1) * CHAR_LONG_NAME) with here | above
    · obtain ⟨j, rfl⟩ : ∃ j, q = n * CHAR_LONG_NAME + j := ⟨q - n * CHAR_LONG_NAME, by omega⟩
      rw [read_chunk_char (by omega) fun k hk => holds.nonzero (by omega)]
      exact holds.1 _ hq
    · rw [read_chunk_outside (by omega)]
      exact h.1 q hq above
  · rcases Nat.lt_or_ge name.length (n * CHAR_LONG_NAME) with below | low
    · rw [read_chunk_outside (.inl below)]
      exact h.2
    · rcases Nat.lt_or_ge name.length ((n + 1) * CHAR_LONG_NAME) with here | above
      · obtain ⟨j, hj⟩ : ∃ j, name.length = n * CHAR_LONG_NAME + j :=
          ⟨name.length - n * CHAR_LONG_NAME, by omega⟩
        have nul := holds.2.1
        have clear := h.2
        rw [hj] at nul clear ⊢
        exact read_chunk_nul (by omega) (fun k hk => holds.nonzero (by omega)) nul clear
      · rw [read_chunk_outside (by omega)]
        exact h.2

theorem Spelled.holds (h : Spelled name 0 buf) (nonzero : 0 ∉ name) : buf.Holds name :=
  ⟨fun q hq => h.1 q hq (by simp), h.2, nonzero⟩

end Name

/-! ### The slots of an entry -/

section ShortSlot

variable {shortname : List UInt8} {attr first_clus file_size : Nat}

theorem shortSlot_length (len : shortname.length = CHAR_SHORT_NAME)
    (attr first_clus file_size : Nat) :
    (shortSlot shortname attr first_clus file_size).length = 32 := by
  rw [CHAR_SHORT_NAME] at len
  simp [shortSlot, len]

theorem shortSlot_order (len : shortname.length = CHAR_SHORT_NAME)
    (attr first_clus file_size : Nat) :
    (shortSlot shortname attr first_clus file_size).order = (shortname.getD 0 0).toNat := by
  rw [CHAR_SHORT_NAME] at len
  rw [Slot.order, field_one, shortSlot]
  simp only [List.append_assoc]
  rw [List.getD_append _ _ _ _ (by omega)]

theorem shortSlot_attr (len : shortname.length = CHAR_SHORT_NAME) (small : attr < 256) :
    (shortSlot shortname attr first_clus file_size).attr = attr := by
  rw [CHAR_SHORT_NAME] at len
  rw [Slot.attr, field_one, shortSlot]
  simp only [List.append_assoc]
  rw [List.getD_append_right _ _ _ _ (by omega), len]
  simp [small]

theorem shortSlot_first_clus (len : shortname.length = CHAR_SHORT_NAME)
    (small : first_clus < 2 ^ 32) :
    field (shortSlot shortname attr first_clus file_size) 20 2 * 2 ^ 16 +
      field (shortSlot shortname attr first_clus file_size) 26 2 = first_clus := by
  rw [CHAR_SHORT_NAME] at len
  have high : field (shortSlot shortname attr first_clus file_size) 20 2 =
      first_clus / 2 ^ 16 := by
    rw [shortSlot, field_append_left (by simp [len]), field_append_left (by simp [len]),
      field_append_left (by simp [len]), field_append_right (by simp [len])]
    simp only [List.length_append, List.length_replicate, List.length_singleton, len]
    exact field_bytesOf (by omega)
  have low : field (shortSlot shortname attr first_clus file_size) 26 2 =
      first_clus % 2 ^ 16 := by
    rw [shortSlot, field_append_left (by simp [len]), field_append_right (by simp [len])]
    simp only [List.length_append, List.length_replicate, List.length_singleton, len,
      bytesOf_length]
    exact field_bytesOf (by omega)
  rw [high, low]
  omega

theorem shortSlot_file_size (len : shortname.length = CHAR_SHORT_NAME)
    (small : file_size < 2 ^ 32) :
    field (shortSlot shortname attr first_clus file_size) 28 4 = file_size := by
  rw [CHAR_SHORT_NAME] at len
  rw [shortSlot, field_append_right (by simp [len])]
  simp only [List.length_append, List.length_replicate, List.length_singleton, len,
    bytesOf_length]
  exact field_bytesOf (by omega)

end ShortSlot

section ShortName

variable {name shortname : List UInt8}

theorem shortnameFrom_length (name shortname : List UInt8) (limit i : Nat) (p : Option Nat)
    (short : shortname.length ≤ CHAR_SHORT_NAME) :
    (shortnameFrom name limit i p shortname).length ≤ CHAR_SHORT_NAME := by
  fun_induction shortnameFrom name limit i p shortname with
  | case1 | case2 | case3 | case4 => exact short
  | case5 | case6 | case8 => exact ‹_ → _› short
  | case7 =>
    rename_i ih
    apply ih
    rw [CHAR_SHORT_NAME] at *
    rw [List.length_append, List.length_replicate]
    omega
  | case9 =>
    rename_i ih
    apply ih
    rw [List.length_append, List.length_singleton]
    omega

/-- What is there is kept. -/
theorem shortnameFrom_head {limit i : Nat} {p : Option Nat} {c : UInt8}
    (head : shortname[0]? = some c) : (shortnameFrom name limit i p shortname)[0]? = some c := by
  have keep : ∀ more : List UInt8, (shortname ++ more)[0]? = some c := fun more => by
    rw [List.getElem?_append_left (List.getElem?_eq_some_iff.mp head).1]
    exact head
  fun_induction shortnameFrom name limit i p shortname with
  | case1 | case2 | case3 | case4 => exact head
  | case5 | case6 | case8 =>
    rename_i ih
    exact ih head keep
  | case7 | case9 =>
    rename_i ih
    refine ih (keep _) fun more => ?_
    rw [List.append_assoc]
    exact keep _

theorem generate_shortname_length (name : List UInt8) :
    (generate_shortname name).length = CHAR_SHORT_NAME := by
  have := shortnameFrom_length name [] name.length 0 (some (lastDot name)) (Nat.zero_le _)
  rw [generate_shortname, List.length_append, List.length_replicate]
  omega

theorem shortChar_toNat {c : UInt8} (low : 0x20 ≤ c.toNat) (high : c.toNat < 0x80) (h : c ≠ 32) :
    (shortChar c).toNat ∉ [END_OF_ENTRY, EMPTY_ENTRY] := by
  have ne : c.toNat ≠ 32 := fun eq => h (UInt8.toNat_inj.mp eq)
  simp only [END_OF_ENTRY, EMPTY_ENTRY, List.mem_cons, List.not_mem_nil, or_false]
  rw [shortChar]
  split
  · rename_i letter
    rw [Bool.and_eq_true, decide_eq_true_iff, UInt8.le_iff_toNat_le] at letter
    rw [UInt8.toNat_sub_of_le _ _ (UInt8.le_iff_toNat_le.mpr (by simp at letter ⊢; omega))]
    simp at letter ⊢
    omega
  · split
    · decide
    · omega

/-- A name that `formatname` leaves as it is begins with a visible character. -/
theorem formatname_head {c : UInt8} {rest : List UInt8}
    (same : formatname (c :: rest) = some (c :: rest)) :
    0x20 ≤ c.toNat ∧ c.toNat < 0x80 ∧ c ≠ 32 ∧ c ≠ 46 := by
  rw [formatname] at same
  split at same
  · cases same
  · rename_i legal
    -- nothing can have been dropped in front, or the result would be shorter
    have whole : (c :: rest).dropWhile (fun c => c == 32 || c == 46) = c :: rest := by
      refine (List.dropWhile_suffix _).eq_of_length_le ?_
      have back := (List.dropWhile_suffix (· == 32) (l :=
        ((c :: rest).dropWhile fun c => c == 32 || c == 46).reverse)).length_le
      have := congrArg List.length (Option.some.inj same)
      rw [List.length_reverse] at this back
      omega
    rw [whole] at legal
    have front : (c == 32 || c == 46) = false := by
      by_contra blank
      rw [Bool.not_eq_false] at blank
      rw [List.dropWhile_cons, if_pos blank] at whole
      have := (List.dropWhile_suffix (fun c : UInt8 => c == 32 || c == 46) (l := rest)).length_le
      have := congrArg List.length whole
      simp only [List.length_cons] at this
      omega
    simp only [List.any_cons, Bool.or_eq_true, not_or, decide_eq_true_eq] at legal
    simp only [Bool.or_eq_false_iff, beq_eq_false_iff_ne] at front
    obtain ⟨⟨⟨low, high⟩, -⟩, -⟩ := legal
    rw [UInt8.lt_iff_toNat_lt] at low
    rw [UInt8.le_iff_toNat_le] at high
    exact ⟨Nat.not_lt.mp low, Nat.not_le.mp high, front⟩

theorem generate_shortname_head (same : formatname name = some name) (nonempty : name ≠ []) :
    ((generate_shortname name).getD 0 0).toNat ∉ [END_OF_ENTRY, EMPTY_ENTRY] := by
  obtain ⟨c, rest, rfl⟩ := List.exists_cons_of_ne_nil nonempty
  obtain ⟨low, high, blank, dot⟩ := formatname_head same
  have head : (shortnameFrom (c :: rest) (c :: rest).length 0
      (some (lastDot (c :: rest))) [])[0]? = some (shortChar c) := by
    rw [List.length_cons, shortnameFrom, if_neg (by decide)]
    simp only [List.getElem?_cons_zero, List.length_nil]
    rw [if_neg (by simp), if_neg blank, if_neg dot]
    exact shortnameFrom_head rfl
  rw [generate_shortname, List.getD_eq_getElem?_getD,
    List.getElem?_append_left (List.getElem?_eq_some_iff.mp head).1, head]
  exact shortChar_toNat low high blank

end ShortName

/-! ### The codec -/

section Codec

variable {filename : Buffer} {name : List UInt8} {entcnt n : Nat} {checksum : UInt8}

def Scan.named (s : Scan) (filename : Buffer) : Scan :=
  { s with ep := { s.ep with filename } }

@[simp] theorem Scan.named_named (s : Scan) (b b' : Buffer) : (s.named b).named b' = s.named b' :=
  rfl

@[simp] theorem Scan.named_cnt (s : Scan) (b : Buffer) : (s.named b).cnt = s.cnt := rfl

@[simp] theorem Scan.named_filename (s : Scan) (b : Buffer) : (s.named b).ep.filename = b := rfl

/-- The number of slots has been stored. -/
def Scan.counted (s : Scan) (count : Nat) : Scan := { s with count, counting := false }

@[simp] theorem Scan.named_counted (s : Scan) (b b' : Buffer) (count : Nat) :
    ((s.named b).counted count).named b' = (s.named b').counted count := rfl

@[simp] theorem Scan.counted_cnt (s : Scan) (count : Nat) : (s.counted count).cnt = s.cnt := rfl

@[simp] theorem Scan.counted_filename (s : Scan) (count : Nat) :
    (s.counted count).ep.filename = s.ep.filename := rfl

/-- The chunk of a slot is read into the entry. -/
def Scan.read (s : Scan) (n : Nat) (de : Slot) : Scan :=
  s.named (read_entry_name s.ep.filename (n * CHAR_LONG_NAME) de)

theorem Scan.read_spelled {s : Scan} {order : Nat} (holds : filename.Holds name)
    (spelled : Spelled name (n + 1) s.ep.filename) :
    Spelled name n (s.read n
      (chunkSlot filename order checksum (n * CHAR_LONG_NAME))).ep.filename := by
  rw [Scan.read, Scan.named_filename]
  exact spelled.read holds

/-- A piece of a name that is not marked as the last. -/
theorem Scan.slot_piece {s : Scan} (small : n < 20) (cnt : s.cnt = 0) {de : Slot}
    (long : de.attr = ATTR_LONG_NAME) (order : de.order = n + 1) :
    s.slot de = .ok (none, s.read n de) := by
  have bits : ∀ n < 20, (n + 1) &&& 0xBF = n + 1 ∧ (n + 1) &&& LAST_LONG_ENTRY = 0 ∧
      n + 1 ≠ EMPTY_ENTRY := by decide
  obtain ⟨lcnt, last, empty⟩ := bits n small
  have here : n + 1 ≠ END_OF_ENTRY := Nat.succ_ne_zero n
  rw [Scan.slot, order, if_neg here, if_neg empty, if_neg (by simp [cnt]), if_pos long]
  dsimp only
  rw [last, lcnt, if_neg (by simp), if_neg (by omega), if_neg (by simp), Nat.add_sub_cancel,
    Scan.read, Scan.named]

/-- The last piece, which comes first, gives the number of slots as well. -/
theorem Scan.slot_marked {s : Scan} (small : n < 20) (cnt : s.cnt = 0)
    (counting : s.counting = true) {de : Slot} (long : de.attr = ATTR_LONG_NAME)
    (order : de.order = (n + 1) ||| LAST_LONG_ENTRY) :
    s.slot de = .ok (none, (s.read n de).counted (n + 2)) := by
  have bits : ∀ n < 20, ((n + 1) ||| LAST_LONG_ENTRY) &&& 0xBF = n + 1 ∧
      ((n + 1) ||| LAST_LONG_ENTRY) &&& LAST_LONG_ENTRY ≠ 0 ∧
      (n + 1) ||| LAST_LONG_ENTRY ≠ END_OF_ENTRY ∧
      (n + 1) ||| LAST_LONG_ENTRY ≠ EMPTY_ENTRY := by decide
  obtain ⟨lcnt, last, here, empty⟩ := bits n small
  rw [Scan.slot, order, if_neg here, if_neg empty, if_neg (by simp [cnt]), if_pos long]
  dsimp only
  rw [lcnt, if_neg (by simp [counting]), if_neg (by omega), if_pos last, Nat.add_sub_cancel,
    Scan.read, Scan.named, Scan.counted]

/-- The chunks behind the last one spell the rest of the name. -/
theorem scan_chunks (checksum : UInt8) (holds : filename.Holds name) (small : entcnt ≤ 20) (lt : n < entcnt)
    {s : Scan} (cnt : s.cnt = 0) (spelled : Spelled name n s.ep.filename) (rest : List Slot) :
    ∃ buf, Spelled name 0 buf ∧ scan (longSlots filename entcnt checksum n ++ rest) s =
      scan rest (s.named buf) := by
  induction n generalizing s with
  | zero => exact ⟨s.ep.filename, spelled, rfl⟩
  | succ n ih =>
    obtain ⟨buf, done, run⟩ := ih
      (s := s.read n (chunkSlot filename (n + 1) checksum (n * CHAR_LONG_NAME)))
      (by omega) (by rwa [Scan.read, Scan.named_cnt]) (Scan.read_spelled holds spelled)
    have order : (if n + 1 = entcnt then (n + 1) ||| LAST_LONG_ENTRY else n + 1) = n + 1 :=
      if_neg (Nat.ne_of_lt lt)
    refine ⟨buf, done, ?_⟩
    rw [Scan.read, Scan.named_named] at run
    rw [longSlots, order, List.cons_append, scan,
      Scan.slot_piece (by omega) cnt chunkSlot_attr (longSlot_order (by omega))]
    exact run

/-- All the chunks of a name, read into a cleared entry. -/
theorem scan_longSlots (checksum : UInt8) (holds : filename.Holds name) (small : n < 20)
    (whole : name.length ≤ (n + 1) * CHAR_LONG_NAME) {s : Scan} (cnt : s.cnt = 0)
    (counting : s.counting = true) (clear : s.ep.filename name.length = 0) (rest : List Slot) :
    ∃ buf : Buffer, buf.Holds name ∧
      scan (longSlots filename (n + 1) checksum (n + 1) ++ rest) s =
        scan rest ((s.named buf).counted (n + 2)) := by
  have none_yet : Spelled name (n + 1) s.ep.filename := ⟨fun q hq low => by omega, clear⟩
  obtain ⟨buf, done, run⟩ := scan_chunks checksum
    (s := (s.read n (chunkSlot filename ((n + 1) ||| LAST_LONG_ENTRY) checksum
      (n * CHAR_LONG_NAME))).counted (n + 2))
    holds (Nat.succ_le_of_lt small) (Nat.lt_succ_self n)
    (by rwa [Scan.counted_cnt, Scan.read, Scan.named_cnt])
    (by rw [Scan.counted_filename]; exact Scan.read_spelled holds none_yet) rest
  refine ⟨buf, done.holds holds.2.2, ?_⟩
  rw [Scan.read, Scan.named_counted] at run
  have byte : ∀ n < 20, (n + 1) ||| LAST_LONG_ENTRY < 256 := by decide
  rw [longSlots, if_pos rfl, List.cons_append, scan,
    Scan.slot_marked small cnt counting chunkSlot_attr (longSlot_order (byte n small))]
  exact run

/-- The short-name slot behind them ends the entry. -/
theorem Scan.slot_short {s : Scan} (cnt : s.cnt = 0) (counting : s.counting = false) {de : Slot}
    (order : de.order ∉ [END_OF_ENTRY, EMPTY_ENTRY]) (file : de.attr ≠ ATTR_LONG_NAME) :
    s.slot de = .ok (some 1, { s with ep := read_entry_info s.ep de }) := by
  simp only [List.mem_cons, List.not_mem_nil, or_false, not_or] at order
  rw [Scan.slot, if_neg order.1, if_neg order.2, if_neg (by simp [cnt]), if_neg file,
    if_neg (by simp [counting])]

/-- The slots that `emake` writes for an entry. -/
def encode (ep : Dirent) : List Slot :=
  let entcnt := (ep.filename.strlen + CHAR_LONG_NAME - 1) / CHAR_LONG_NAME
  let shortname := generate_shortname (ep.filename.chars (FAT32_MAX_FILENAME + 1))
  longSlots ep.filename entcnt (cal_checksum shortname) entcnt ++
    [shortSlot shortname ep.attr ep.first_clus ep.file_size]

theorem encode_slot {ep : Dirent} {s : Slot} (hs : s ∈ encode ep) : s.length = 32 := by
  rcases List.mem_append.mp hs with long | short
  · exact longSlots_slot long
  · rw [List.mem_singleton.mp short]
    exact shortSlot_length (generate_shortname_length _) _ _ _

@[simp] theorem encode_length (ep : Dirent) : (encode ep).length =
    (ep.filename.strlen + CHAR_LONG_NAME - 1) / CHAR_LONG_NAME + 1 := by
  simp [encode]

theorem emake_run {fat : Geometry} {d : Disk} {cs : List Nat} {e : Dirent} {i : Nat}
    (ep : Dirent) (h : Clusters fat d cs) (cursor : Cursor e cs) (dir : e.isDir = true) (behind : 2 ≤ i)
    (fit : i + (encode ep).length ≤ capacity fat cs)
    (small : 32 * (i + (encode ep).length) ≤ 2 ^ 32) :
    ∃ k < cs.length,
      emake fat e ep (32 * i) d = .ok (e.seek cs k, fat.put cs d i (encode ep)) := by
  rw [encode_length] at fit small
  obtain ⟨e', cursor', same, long⟩ := emakeLong_run (i := i)
    (n := (ep.filename.strlen + CHAR_LONG_NAME - 1) / CHAR_LONG_NAME) ep
    ((ep.filename.strlen + CHAR_LONG_NAME - 1) / CHAR_LONG_NAME)
    (cal_checksum (generate_shortname (ep.filename.chars (FAT32_MAX_FILENAME + 1))))
    h cursor (by omega) (by omega)
  have inside : i + (ep.filename.strlen + CHAR_LONG_NAME - 1) / CHAR_LONG_NAME <
      capacity fat cs := by omega
  have short := putSlot_run (h.put cs i (longSlots ep.filename
      ((ep.filename.strlen + CHAR_LONG_NAME - 1) / CHAR_LONG_NAME)
      (cal_checksum (generate_shortname (ep.filename.chars (FAT32_MAX_FILENAME + 1))))
      ((ep.filename.strlen + CHAR_LONG_NAME - 1) / CHAR_LONG_NAME))) cursor' inside
    (shortSlot_length (generate_shortname_length (ep.filename.chars (FAT32_MAX_FILENAME + 1)))
      ep.attr ep.first_clus ep.file_size)
  refine ⟨_, cluster_lt inside, ?_⟩
  rw [emake, if_neg (by simp [dir]), if_neg (by omega), if_neg (by omega)]
  refine (Machine.bind_of_ok long).trans (short.trans ?_)
  rw [same, encode, put_append, longSlots_length]
  rfl

/-- `enext` decodes what `emake` encodes. -/
theorem scan_encode {ep : Dirent} (ep' : Dirent) (count : Nat) (holds : ep.filename.Holds name)
    (legal : formatname name = some name) (nonempty : name ≠ [])
    (short : name.length ≤ FAT32_MAX_FILENAME) (attr : ep.attr < 256)
    (file : ep.attr ≠ ATTR_LONG_NAME) (clus : ep.first_clus < 2 ^ 32)
    (size : ep.file_size < 2 ^ 32) :
    ∃ s, scan (encode ep) (.start ep' count) = .ok (1, s) ∧
      s.count = (encode ep).length ∧ s.ep.filename.Holds name ∧
      s.ep.attr = ep.attr ∧ s.ep.first_clus = ep.first_clus ∧ s.ep.file_size = ep.file_size := by
  have long := List.length_pos_iff.mpr nonempty
  rw [encode_length, holds.strlen short]
  obtain ⟨n, hn⟩ : ∃ n, (name.length + CHAR_LONG_NAME - 1) / CHAR_LONG_NAME = n + 1 :=
    Nat.exists_eq_succ_of_ne_zero (by rw [CHAR_LONG_NAME]; omega)
  have small : n < 20 := by
    rw [FAT32_MAX_FILENAME] at short
    rw [CHAR_LONG_NAME] at hn
    omega
  have last : name.length ≤ (n + 1) * CHAR_LONG_NAME := by
    rw [CHAR_LONG_NAME] at *
    omega
  have clear : (Scan.start ep' count).ep.filename name.length = 0 :=
    if_pos (Nat.lt_succ_of_le short)
  have len := generate_shortname_length name
  have order := generate_shortname_head legal nonempty
  rw [← shortSlot_order len ep.attr ep.first_clus ep.file_size] at order
  obtain ⟨buf, spelled, run⟩ := scan_longSlots
    (cal_checksum (generate_shortname name)) holds small last rfl rfl clear
    [shortSlot (generate_shortname name) ep.attr ep.first_clus ep.file_size]
  rw [encode, holds.strlen short, hn, holds.chars (Nat.lt_succ_of_le short)]
  refine ⟨⟨read_entry_info ((Scan.start ep' count).named buf).ep
    (shortSlot (generate_shortname name) ep.attr ep.first_clus ep.file_size), 0, n + 2, false⟩,
    run.trans ?_, rfl, spelled, shortSlot_attr len attr, shortSlot_first_clus len clus,
    shortSlot_file_size len size⟩
  rw [scan, Scan.slot_short rfl rfl order (by rwa [shortSlot_attr len attr])]
  rfl

variable {fat : Geometry} {d : Disk} {cs : List Nat} {e ep : Dirent}

/-- What `emake` writes at `off`, `enext` reads back, and nothing else changes. -/
theorem emake_enext (h : Clusters fat d cs) (cursor : Cursor e cs) (dir : e.isDir = true)
    (valid : e.valid = 1) (holds : ep.filename.Holds name) (legal : formatname name = some name)
    (nonempty : name ≠ []) (short : name.length ≤ FAT32_MAX_FILENAME) (attr : ep.attr < 256)
    (file : ep.attr ≠ ATTR_LONG_NAME) (clus : ep.first_clus < 2 ^ 32)
    (size : ep.file_size < 2 ^ 32) {off : Nat} (aligned : off % 32 = 0) (behind : 64 ≤ off)
    (fit : off + 32 * ((name.length + 12) / 13 + 1) ≤ cs.length * fat.byts_per_clus)
    (small : off + 32 * ((name.length + 12) / 13 + 1) ≤ 2 ^ 32) (ep₂ : Dirent) (count : Nat) :
    ∃ dp d', emake fat e ep off d = .ok (dp, d') ∧
      (∃ dp' ep',
        enext fat dp ep₂ off count d' = .ok ((1, dp', ep', (name.length + 12) / 13 + 1), d') ∧
        ep'.filename.Holds name ∧ ep'.attr = ep.attr ∧ ep'.first_clus = ep.first_clus ∧
        ep'.file_size = ep.file_size) ∧
      (∀ j < capacity fat cs, (j < off / 32 ∨ off / 32 + ((name.length + 12) / 13 + 1) ≤ j) →
        (slotsOf fat d' cs)[j]? = (slotsOf fat d cs)[j]?) ∧
      ∀ x, (∀ k < (name.length + 12) / 13 + 1,
        x < fat.slotAt cs (off / 32 + k) ∨ fat.slotAt cs (off / 32 + k) + 32 ≤ x) → d' x = d x := by
  obtain ⟨i, rfl⟩ : ∃ i, off = 32 * i := ⟨off / 32, by omega⟩
  have index : 32 * i / 32 = i := Nat.mul_div_cancel_left i (by decide)
  have length : (encode ep).length = (name.length + 12) / 13 + 1 := by
    rw [encode_length, holds.strlen short]
    rfl
  rw [capacity_bytes] at fit
  rw [index]
  rw [← length] at fit small ⊢
  obtain ⟨k, hk, made⟩ := emake_run (i := i) ep h cursor dir (by omega) (by omega) (by omega)
  have slots : slotsOf fat (fat.put cs d i (encode ep)) cs = _ :=
    slotsOf_put h (by omega) fun _ => encode_slot
  have here : (slotsOf fat (fat.put cs d i (encode ep)) cs).drop i =
      encode ep ++ (slotsOf fat d cs).drop (i + (encode ep).length) := by
    rw [slots, List.append_assoc, List.drop_left']
    rw [List.length_take, slotsOf_length]
    omega
  obtain ⟨s, found, counted, spelled, fields⟩ :=
    scan_encode ep₂ count holds legal nonempty short attr file clus size
  obtain ⟨k', -, next⟩ := enext_within (h.put cs i (encode ep)) (cursor.seek hk) dir valid here
    (by omega) found (by decide)
  rw [counted] at next
  refine ⟨_, _, made, ⟨_, _, next, spelled, fields⟩, fun j hj out => ?_, fun x out => ?_⟩
  · have taken : ((slotsOf fat d cs).take i).length = i := by
      rw [List.length_take, slotsOf_length]
      omega
    rw [slots, List.append_assoc]
    rcases out with before | after
    · rw [List.getElem?_append_left (by omega), List.getElem?_take_of_lt before]
    · rw [List.getElem?_append_right (by omega), List.getElem?_append_right (by omega),
        List.getElem?_drop, taken]
      congr 1
      omega
  · refine put_outside (fun _ => encode_slot) fun k low high => ?_
    have := out (k - i) (by omega)
    rwa [Nat.add_sub_cancel' low] at this

/-- A volume of one cluster, the root directory's. -/
def bareVolume : Geometry where
  first_data_sec := 2
  data_clus_cnt := 1
  sec_per_clus := 1
  rsvd_sec_cnt := 1
  fat_cnt := 1
  fat_sz := 1
  root_clus := 2
  sectors := smallVolume.sectors
  narrow := smallVolume.narrow
  tables := smallVolume.tables
  before := smallVolume.before
  covers := by decide
  fits := by decide
  unmarked := by decide

def bareDisk : Disk := Memory.store (fun _ => 0) (bareVolume.entryAt 2) 4 FAT32_EOF

def bareRoot : Dirent where
  filename := fun _ => 0
  attr := ATTR_DIRECTORY
  first_clus := 2
  file_size := 0
  cur_clus := 2
  clus_cnt := 0
  dirty := false
  valid := 1
  off := 0

theorem bareRoot_clusters : Clusters bareVolume bareDisk [2] where
  chain := by
    show Geometry.next _ _ _ = none
    rw [Geometry.next, bareDisk, Memory.fetch_store_same _ (by decide)]
    rfl
  range := by decide

/-- A file named "a". -/
def bareFile : Dirent :=
  { bareRoot with
    filename := Buffer.ofName (fun _ => 0) [97]
    attr := ATTR_ARCHIVE
    first_clus := 0
    cur_clus := 0 }

theorem emake_enext_bare :
    ∃ dp d', emake bareVolume bareRoot bareFile 64 bareDisk = .ok (dp, d') ∧
      ∃ dp' ep', enext bareVolume dp bareRoot 64 0 d' = .ok ((1, dp', ep', 2), d') ∧
        ep'.filename.Holds [97] := by
  have legal : formatname [97] = some [97] := by decide
  have fields : bareFile.attr < 256 ∧ bareFile.attr ≠ ATTR_LONG_NAME ∧ bareFile.first_clus < 2 ^ 32 ∧
      bareFile.file_size < 2 ^ 32 := by decide
  have room : [(97 : UInt8)].length ≤ FAT32_MAX_FILENAME ∧
      64 + 32 * (([(97 : UInt8)].length + 12) / 13 + 1) ≤ [2].length * bareVolume.byts_per_clus ∧
      64 + 32 * (([(97 : UInt8)].length + 12) / 13 + 1) ≤ 2 ^ 32 := by decide
  have spelled : bareFile.filename.Holds [97] := ⟨by decide, rfl, by decide⟩
  obtain ⟨attr, file, clus, size⟩ := fields
  obtain ⟨short, fit, small⟩ := room
  obtain ⟨dp, d', made, ⟨dp', ep', next, holds, -⟩, -⟩ := emake_enext bareRoot_clusters
    (show Cursor bareRoot [2] from ⟨rfl, rfl⟩) rfl rfl spelled legal (List.cons_ne_nil 97 []) short attr file
    clus size (show 64 % 32 = 0 from rfl) (Nat.le_refl 64) fit small bareRoot 0
  exact ⟨dp, d', made, dp', ep', next, holds⟩

end Codec

end AvxKernel.Fat
