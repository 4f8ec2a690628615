import AvxKernel.Fat.Name

/-! Short names. The loop of `generate_shortname` is shown to spell the 8.3 form of
every name: eight characters of what stands before the last dot, and three of what
stands behind it. -/
namespace AvxKernel.Fat

/-! ### The last dot -/

section LastOf

variable {α : Type} {a : α} {front back xs : List α}

/-- A list with an `a` is cut at the last. -/
theorem eq_append_last (mem : a ∈ xs) : ∃ front back, xs = front ++ a :: back ∧ a ∉ back := by
  obtain ⟨back, front, split, none⟩ := List.eq_append_cons_of_mem (List.mem_reverse.mpr mem)
  refine ⟨front.reverse, back.reverse, ?_, mt List.mem_reverse.mp none⟩
  rw [← List.reverse_reverse xs, split, List.reverse_append, List.reverse_cons, List.append_assoc,
    List.singleton_append]

theorem reverse_cut : (front ++ a :: back).reverse = back.reverse ++ a :: front.reverse := by
  rw [List.reverse_append, List.reverse_cons, List.append_assoc, List.singleton_append]

variable [DecidableEq α]

/-- What stands before the last `a`, or all there is. -/
def beforeLast (a : α) (xs : List α) : List α :=
  if a ∈ xs then ((xs.reverse.dropWhile (· ≠ a)).drop 1).reverse else xs

/-- What stands behind the last `a`, if there is one. -/
def behindLast (a : α) (xs : List α) : List α :=
  if a ∈ xs then (xs.reverse.takeWhile (· ≠ a)).reverse else []

theorem ne_of_reverse (none : a ∉ back) : ∀ b ∈ back.reverse, decide (b ≠ a) = true := by
  intro b mem
  apply decide_eq_true
  rintro rfl
  exact none (List.mem_reverse.mp mem)

theorem beforeLast_append (none : a ∉ back) : beforeLast a (front ++ a :: back) = front := by
  rw [beforeLast, if_pos (List.mem_append_right _ List.mem_cons_self), reverse_cut,
    List.dropWhile_append_of_pos (ne_of_reverse none), List.dropWhile_cons_of_neg (by simp)]
  exact List.reverse_reverse front

theorem behindLast_append (none : a ∉ back) : behindLast a (front ++ a :: back) = back := by
  rw [behindLast, if_pos (List.mem_append_right _ List.mem_cons_self), reverse_cut,
    List.takeWhile_append_of_pos (ne_of_reverse none), List.takeWhile_cons_of_neg (by simp),
    List.append_nil, List.reverse_reverse]

end LastOf

theorem lastDot_append {front back : List UInt8} (none : 46 ∉ back) :
    lastDot (front ++ 46 :: back) = front.length := by
  have range : (List.range (front ++ 46 :: back).length).reverse =
      ((List.range back.length).map (front.length + 1 + ·)).reverse ++
        front.length :: (List.range front.length).reverse := by
    rw [List.length_append, List.length_cons, Nat.add_comm back.length, ← Nat.add_assoc, List.range_add,
      List.range_succ, List.reverse_append, List.reverse_append]
    rfl
  have found : (List.range (front ++ 46 :: back).length).reverse.find?
      (fun j => (front ++ 46 :: back).getD j 0 == 46) = some front.length := by
    apply List.find?_eq_some_iff_append.mpr
    constructor
    · rw [List.getD_append_right _ _ _ _ (Nat.le_refl _), Nat.sub_self]
      rfl
    · refine ⟨_, _, range, ?_⟩
      intro j mem
      obtain ⟨k, hk, rfl⟩ := List.mem_map.mp (List.mem_reverse.mp mem)
      have inside := List.mem_range.mp hk
      have index : front.length + 1 + k - front.length = k + 1 := by omega
      rw [List.getD_append_right _ _ _ _ (by omega), index, List.getD_cons_succ,
        List.getD_eq_getElem _ _ inside, Bool.not_eq_true', beq_eq_false_iff_ne]
      intro dot
      exact none (dot ▸ List.getElem_mem inside)
  rw [lastDot, found]
  rfl

theorem lastDot_none {name : List UInt8} (none : 46 ∉ name) : lastDot name = 0 := by
  have found : (List.range name.length).reverse.find? (fun j => name.getD j 0 == 46) = Option.none := by
    apply List.find?_eq_none.mpr
    intro j mem dot
    have inside := List.mem_range.mp (List.mem_reverse.mp mem)
    rw [List.getD_eq_getElem _ _ inside, beq_iff_eq] at dot
    exact none (dot ▸ List.getElem_mem inside)
  rw [lastDot, found]
  rfl

/-! ### The reference -/

/-- `+ , ; = [ ]` are legal in long names only. -/
def onlyLong (c : UInt8) : Bool := c == 43 || c == 44 || c == 59 || c == 61 || c == 91 || c == 93

def upper (c : UInt8) : UInt8 := if 97 ≤ c ∧ c ≤ 122 then c - 32 else c

/-- The characters of a short name that some characters give: without blanks and dots,
in upper case, and with `_` for those that are legal in long names only. -/
def shortened (chars : List UInt8) : List UInt8 :=
  (chars.filter fun c => c != 32 && c != 46).map fun c => if onlyLong c then 95 else upper c

/-- The first `n` characters, with blanks behind them if there are fewer. -/
def padded (n : Nat) (chars : List UInt8) : List UInt8 :=
  chars.take n ++ List.replicate (n - chars.length) 32

/-- The 8.3 form of a name. -/
def shortForm (name : List UInt8) : List UInt8 :=
  padded 8 (shortened (beforeLast 46 name)) ++ padded 3 (shortened (behindLast 46 name))

variable {name pre rest mid back acc xs : List UInt8} {limit n : Nat} {c : UInt8}

@[simp] theorem padded_length (n : Nat) (chars : List UInt8) : (padded n chars).length = n := by
  rw [padded, List.length_append, List.length_take, List.length_replicate]
  omega

theorem padded_full (full : acc.length = n) (xs : List UInt8) : padded n (acc ++ xs) = acc := by
  rw [padded, ← full, List.take_left, List.length_append, Nat.sub_eq_zero_of_le (Nat.le_add_right _ _)]
  exact List.append_nil acc

/-- Blanks up to where `n` characters would end. -/
theorem append_take_padded (front xs : List UInt8) (n : Nat) :
    front ++ xs.take n ++ List.replicate (front.length + n - (front ++ xs.take n).length) 32 =
      front ++ padded n xs := by
  have left : front.length + n - (front ++ xs.take n).length = n - xs.length := by
    rw [List.length_append, List.length_take]
    omega
  rw [left, List.append_assoc, padded]

theorem take_padded (xs : List UInt8) (n k : Nat) :
    xs.take n ++ List.replicate (n + k - (xs.take n).length) 32 = padded n xs ++ padded k [] := by
  have left : n + k - (xs.take n).length = n - xs.length + k := by
    rw [List.length_take]
    omega
  rw [left, padded, padded, List.take_nil, List.nil_append, List.append_assoc, List.length_nil,
    Nat.sub_zero, List.replicate_append_replicate]

theorem shortForm_length (name : List UInt8) : (shortForm name).length = CHAR_SHORT_NAME := by
  rw [shortForm, List.length_append, padded_length, padded_length]
  rfl

theorem shortChar_eq (c : UInt8) : shortChar c = if onlyLong c then 95 else upper c := by
  have apart : onlyLong c = true → ¬(97 ≤ c ∧ c ≤ 122) := by
    simp only [onlyLong, Bool.or_eq_true, beq_iff_eq]
    rintro (((((rfl | rfl) | rfl) | rfl) | rfl) | rfl) <;> decide
  have same : illegalShort.contains c = onlyLong c := by
    simp [illegalShort, onlyLong, Bool.or_assoc, beq_eq_decide]
  rw [shortChar, same, upper]
  cases long : onlyLong c with
  | true => simp [apart long]
  | false => simp

theorem shortened_nil : shortened [] = [] := rfl

theorem shortened_dropped (drop : c = 32 ∨ c = 46) : shortened (c :: rest) = shortened rest := by
  rw [shortened, List.filter_cons_of_neg]
  · rfl
  · rcases drop with rfl | rfl <;> decide

theorem shortened_kept (blank : c ≠ 32) (dot : c ≠ 46) :
    shortened (c :: rest) = shortChar c :: shortened rest := by
  rw [shortened, List.filter_cons_of_pos (by simp [blank, dot]), List.map_cons, ← shortChar_eq]
  rfl

/-! ### The loop -/

/-- A round, at the character `c`. -/
theorem shortnameFrom_round (pre rest : List UInt8) (c : UInt8) (p : Option Nat)
    (room : acc.length < CHAR_SHORT_NAME) :
    shortnameFrom (pre ++ c :: rest) (limit + 1) pre.length p acc =
      if acc.length = 8 ∧ p.isSome then
        if p.getD 0 + 1 < pre.length + 1 then
          acc
        else
          shortnameFrom (pre ++ c :: rest) limit (p.getD 0 + 1) none acc
      else if c = 32 then
        shortnameFrom (pre ++ [c] ++ rest) limit (pre ++ [c]).length p acc
      else if c = 46 then
        if p.elim true (· < pre.length + 1) then
          shortnameFrom (pre ++ [c] ++ rest) limit (pre ++ [c]).length none
            (acc ++ List.replicate (8 - acc.length) 32)
        else
          shortnameFrom (pre ++ [c] ++ rest) limit (pre ++ [c]).length p acc
      else
        shortnameFrom (pre ++ [c] ++ rest) limit (pre ++ [c]).length p (acc ++ [shortChar c]) := by
  have here : (pre ++ c :: rest)[pre.length]? = some c := by
    rw [List.getElem?_append_right (Nat.le_refl _), Nat.sub_self, List.getElem?_cons_zero]
  rw [shortnameFrom, if_neg (Nat.not_le_of_lt room), here, List.append_assoc, List.length_append]
  rfl

theorem shortnameFrom_end (limit : Nat) (p : Option Nat) (name acc : List UInt8) :
    shortnameFrom name limit name.length p acc = acc := by
  cases limit with
  | zero => rfl
  | succ limit =>
    rw [shortnameFrom, List.getElem?_eq_none (Nat.le_refl _)]
    exact ite_self _

theorem shortnameFrom_full (limit i : Nat) (p : Option Nat) (name : List UInt8)
    (full : CHAR_SHORT_NAME ≤ acc.length) : shortnameFrom name limit i p acc = acc := by
  cases limit with
  | zero => rfl
  | succ limit => rw [shortnameFrom, if_pos full]

/-- Behind the last dot, characters go in until the eleventh. -/
theorem shortnameFrom_extension (none : 46 ∉ rest) (enough : rest.length ≤ limit) :
    shortnameFrom (pre ++ rest) limit pre.length Option.none acc =
      acc ++ (shortened rest).take (CHAR_SHORT_NAME - acc.length) := by
  induction rest generalizing pre limit acc with
  | nil =>
    rw [List.append_nil, shortnameFrom_end, shortened_nil, List.take_nil, List.append_nil]
  | cons c rest ih =>
    obtain ⟨limit, rfl⟩ := Nat.exists_eq_add_of_le' (Nat.lt_of_lt_of_le (Nat.succ_pos _) enough)
    have dot : c ≠ 46 := fun same => none (same ▸ List.mem_cons_self)
    have none : 46 ∉ rest := fun mem => none (List.mem_cons_of_mem _ mem)
    have enough : rest.length ≤ limit := Nat.le_of_succ_le_succ enough
    by_cases full : CHAR_SHORT_NAME ≤ acc.length
    · rw [shortnameFrom_full _ _ _ _ full, Nat.sub_eq_zero_of_le full, List.take_zero, List.append_nil]
    · have room := Nat.lt_of_not_le full
      rw [shortnameFrom_round _ _ _ _ room, if_neg (by simp)]
      by_cases blank : c = 32
      · rw [if_pos blank, ih none enough, shortened_dropped (.inl blank)]
      · rw [if_neg blank, if_neg dot, ih none enough, shortened_kept blank dot, List.length_append,
          List.length_singleton, List.append_assoc]
        obtain ⟨more, left⟩ := Nat.exists_eq_add_of_lt room
        have count : CHAR_SHORT_NAME - acc.length = more + 1 := by omega
        have less : CHAR_SHORT_NAME - (acc.length + 1) = more := by omega
        rw [count, less, List.take_succ_cons]
        rfl

theorem shortnameFrom_behind {front : List UInt8} (none : 46 ∉ back) (eight : acc.length = 8)
    (enough : back.length ≤ limit) :
    shortnameFrom (front ++ 46 :: back) limit (front.length + 1) Option.none acc =
      acc ++ (shortened back).take 3 := by
  have extension := @shortnameFrom_extension (front ++ [46]) back acc limit none enough
  rw [List.append_assoc, List.singleton_append, List.length_append, eight] at extension
  exact extension

/-- Up to the last dot, at most eight characters go in. -/
theorem shortnameFrom_base (none : 46 ∉ back) (short : acc.length ≤ 8)
    (enough : mid.length + 1 + back.length ≤ limit) :
    shortnameFrom (pre ++ mid ++ 46 :: back) limit pre.length (some (pre ++ mid).length) acc =
      padded 8 (acc ++ shortened mid) ++ (shortened back).take 3 := by
  induction mid generalizing pre limit acc with
  | nil =>
    obtain ⟨limit, rfl⟩ := Nat.exists_eq_add_of_le' (show 1 ≤ limit by omega)
    have enough : back.length ≤ limit := by
      rw [List.length_nil] at enough
      omega
    have room : acc.length < CHAR_SHORT_NAME := Nat.lt_of_le_of_lt short (by decide)
    rw [List.append_nil, shortnameFrom_round _ _ _ _ room]
    by_cases eight : acc.length = 8
    · rw [if_pos ⟨eight, rfl⟩, if_neg (by simp), Option.getD_some, shortnameFrom_behind none eight enough,
        padded_full eight]
    · have whole : (acc ++ List.replicate (8 - acc.length) 32).length = 8 := by
        rw [List.length_append, List.length_replicate]
        omega
      rw [if_neg (by simp [eight]), if_neg (by decide), if_pos rfl, if_pos (by simp),
        List.append_assoc pre, List.singleton_append, List.length_append, List.length_singleton,
        shortnameFrom_behind none whole enough, shortened_nil, List.append_nil, padded, List.take_of_length_le short]
  | cons c mid ih =>
    obtain ⟨limit, rfl⟩ := Nat.exists_eq_add_of_le' (show 1 ≤ limit by omega)
    rw [List.length_cons] at enough
    have room : acc.length < CHAR_SHORT_NAME := Nat.lt_of_le_of_lt short (by decide)
    have cut : pre ++ c :: mid = pre ++ [c] ++ mid := by rw [List.append_assoc, List.singleton_append]
    have before : pre.length < (pre ++ [c] ++ mid).length := by
      rw [List.length_append, List.length_append, List.length_singleton]
      omega
    have next (xs : List UInt8) (short : xs.length ≤ 8) :
        shortnameFrom (pre ++ [c] ++ (mid ++ 46 :: back)) limit (pre ++ [c]).length
          (some (pre ++ [c] ++ mid).length) xs = padded 8 (xs ++ shortened mid) ++ (shortened back).take 3 := by
      rw [← List.append_assoc]
      exact ih short (by omega)
    rw [cut, List.append_assoc (pre ++ [c]), List.append_assoc pre, List.singleton_append,
      shortnameFrom_round _ _ _ _ room]
    by_cases eight : acc.length = 8
    · rw [if_pos ⟨eight, rfl⟩, if_neg (by rw [Option.getD_some]; omega), Option.getD_some,
        padded_full eight]
      have whole : pre ++ c :: (mid ++ 46 :: back) = pre ++ [c] ++ mid ++ 46 :: back := by
        simp only [List.append_assoc, List.cons_append, List.nil_append]
      rw [whole]
      exact shortnameFrom_behind none eight (by omega)
    · rw [if_neg (by simp [eight])]
      by_cases blank : c = 32
      · rw [if_pos blank, next acc short, shortened_dropped (.inl blank)]
      · by_cases dot : c = 46
        · rw [if_neg blank, if_pos dot, if_neg (by simp), next acc short,
            shortened_dropped (.inr dot)]
        · rw [if_neg blank, if_neg dot, next _ (by rw [List.length_append, List.length_singleton]; omega),
            shortened_kept blank dot, List.append_assoc acc, List.singleton_append]

/-- A name without a dot. Its start stands for the last dot, and has been passed once
there are eight characters. -/
theorem shortnameFrom_dotless (none : 46 ∉ rest) (short : acc.length ≤ 8) (passed : acc.length ≤ pre.length)
    (enough : rest.length ≤ limit) :
    shortnameFrom (pre ++ rest) limit pre.length (some 0) acc = (acc ++ shortened rest).take 8 := by
  induction rest generalizing pre limit acc with
  | nil =>
    rw [List.append_nil, shortnameFrom_end, shortened_nil, List.append_nil, List.take_of_length_le short]
  | cons c rest ih =>
    obtain ⟨limit, rfl⟩ := Nat.exists_eq_add_of_le' (Nat.lt_of_lt_of_le (Nat.succ_pos _) enough)
    have dot : c ≠ 46 := fun same => none (same ▸ List.mem_cons_self)
    have none : 46 ∉ rest := fun mem => none (List.mem_cons_of_mem _ mem)
    have enough : rest.length ≤ limit := Nat.le_of_succ_le_succ enough
    have room : acc.length < CHAR_SHORT_NAME := Nat.lt_of_le_of_lt short (by decide)
    have further : (pre ++ [c]).length = pre.length + 1 := List.length_append
    rw [shortnameFrom_round _ _ _ _ room]
    by_cases eight : acc.length = 8
    · rw [if_pos ⟨eight, rfl⟩, if_pos (by rw [Option.getD_some]; omega), ← eight, List.take_left]
    · rw [if_neg (by simp [eight])]
      by_cases blank : c = 32
      · rw [if_pos blank, ih none short (by omega) enough, shortened_dropped (.inl blank)]
      · have longer : (acc ++ [shortChar c]).length = acc.length + 1 := List.length_append
        rw [if_neg blank, if_neg dot, ih none (by omega) (by omega) enough, shortened_kept blank dot,
          List.append_assoc, List.singleton_append]

/-- What the loop leaves is the 8.3 form, when blanks are put behind it. -/
theorem generate_shortname_eq (name : List UInt8) : generate_shortname name = shortForm name := by
  rw [generate_shortname, shortForm]
  by_cases dot : (46 : UInt8) ∈ name
  · obtain ⟨front, back, rfl, none⟩ := eq_append_last dot
    have loop := @shortnameFrom_base [] front back [] (front ++ 46 :: back).length none (Nat.zero_le _) (by
      rw [List.length_append, List.length_cons]
      omega)
    rw [List.nil_append, List.nil_append, List.length_nil] at loop
    have filled := append_take_padded (padded 8 (shortened front)) (shortened back) 3
    rw [padded_length] at filled
    rw [lastDot_append none, beforeLast_append none, behindLast_append none, loop]
    exact filled
  · have loop := @shortnameFrom_dotless [] name [] name.length dot (Nat.zero_le _) (Nat.le_refl _) (Nat.le_refl _)
    rw [List.nil_append, List.nil_append, List.length_nil] at loop
    rw [lastDot_none dot, loop, beforeLast, if_neg dot, behindLast, if_neg dot]
    exact take_padded (shortened name) 8 3

/-! ### The array -/

/-- The loop with its stores, `i` characters of the short name being there. The length
that `memset` is given is unsigned. -/
def shortnameStores (name : List UInt8) (shortname : Nat) :
    Nat → Nat → Option Nat → Nat → Memory → Nat × Memory
  | 0, _, _, i, m => (i, m)
  | limit + 1, j, p, i, m =>
    if CHAR_SHORT_NAME ≤ i then
      (i, m)
    else
      match name[j]? with
      | none => (i, m)
      | some c =>
        if i = 8 ∧ p.isSome then
          if p.getD 0 + 1 < j + 1 then
            (i, m)
          else
            shortnameStores name shortname limit (p.getD 0 + 1) none i m
        else if c = 32 then
          shortnameStores name shortname limit (j + 1) p i m
        else if c = 46 then
          if p.elim true (· < j + 1) then
            shortnameStores name shortname limit (j + 1) none 8
              (m.fill (shortname + i) (u32 (8 + (2 ^ 32 - i))) 32)
          else
            shortnameStores name shortname limit (j + 1) p i m
        else
          shortnameStores name shortname limit (j + 1) p (i + 1) (m.blit (shortname + i) [shortChar c])

/-- `generate_shortname`, as what it leaves of the memory that `shortname` points into. -/
def storeShortname (name : List UInt8) (shortname : Nat) (m : Memory) : Memory :=
  let (i, m) := shortnameStores name shortname name.length 0 (some (lastDot name)) 0 m
  m.fill (shortname + i) (CHAR_SHORT_NAME - i) 32

/-- What is known of `p` at a position: until the last dot has been passed, there are
at most eight characters, and afterwards there is no other dot. -/
structure Tracks (name : List UInt8) (j : Nat) (p : Option Nat) (i : Nat) : Prop where
  short : p.isSome → i ≤ 8
  last : ∀ d, p = some d → 46 ∉ name.drop (d + 1)
  passed : p = none → 46 ∉ name.drop j

variable {m : Memory} {a j i : Nat} {p : Option Nat}

theorem Tracks.next (h : Tracks name j p i) (short : p.isSome → n ≤ 8) : Tracks name (j + 1) p n where
  short := short
  last := h.last
  passed := by
    intro none mem
    rw [← List.drop_drop] at mem
    exact h.passed none (List.mem_of_mem_drop mem)

theorem Tracks.behind {d : Nat} (h : Tracks name j (some d) i) (k : Nat) (n : Nat) :
    Tracks name (d + 1 + k) none n where
  short := by simp
  last := by simp
  passed := by
    intro _ mem
    rw [← List.drop_drop] at mem
    exact h.last d rfl (List.mem_of_mem_drop mem)

theorem fill_eq_blit (m : Memory) (a n : Nat) (b : UInt8) : m.fill a n b = m.blit a (List.replicate n b) := by
  funext x
  rw [Memory.fill, Memory.blit, List.length_replicate]
  split
  · next inside =>
    rw [List.getD_eq_getElem _ _ (by rw [List.length_replicate]; omega), List.getElem_replicate]
  · rfl

theorem shortnameStores_eq (h : Tracks name j p acc.length) :
    shortnameStores name a limit j p acc.length (m.blit a acc) =
      ((shortnameFrom name limit j p acc).length, m.blit a (shortnameFrom name limit j p acc)) := by
  induction limit generalizing j p acc with
  | zero => rfl
  | succ limit ih =>
    rw [shortnameStores, shortnameFrom]
    by_cases full : CHAR_SHORT_NAME ≤ acc.length
    · rw [if_pos full, if_pos full]
    · rw [if_neg full, if_neg full]
      cases here : name[j]? with
      | none => rfl
      | some c =>
        dsimp only
        by_cases eight : acc.length = 8 ∧ p.isSome
        · rw [if_pos eight, if_pos eight]
          obtain ⟨d, rfl⟩ := Option.isSome_iff_exists.mp eight.2
          by_cases beyond : d + 1 < j + 1
          · rw [Option.getD_some, if_pos beyond, if_pos beyond]
          · rw [Option.getD_some, if_neg beyond, if_neg beyond]
            exact ih (h.behind 0 _)
        · rw [if_neg eight, if_neg eight]
          by_cases blank : c = 32
          · rw [if_pos blank, if_pos blank]
            exact ih (h.next h.short)
          · rw [if_neg blank, if_neg blank]
            by_cases dot : c = 46
            · rw [if_pos dot, if_pos dot]
              cases p with
              | none =>
                obtain ⟨inside, is⟩ := List.getElem?_eq_some_iff.mp here
                refine absurd ?_ (h.passed rfl)
                rw [List.drop_eq_getElem_cons inside, is, dot]
                exact List.mem_cons_self
              | some d =>
                rw [Option.elim_some]
                by_cases last : d < j + 1
                · obtain ⟨k, rfl⟩ := Nat.exists_eq_add_of_le (Nat.le_of_lt_succ last)
                  have short := h.short rfl
                  have whole : (acc ++ List.replicate (8 - acc.length) 32).length = 8 := by
                    rw [List.length_append, List.length_replicate]
                    omega
                  -- the length does not wrap around
                  have count : u32 (8 + (2 ^ 32 - acc.length)) = 8 - acc.length := by
                    rw [u32]
                    omega
                  have rest := ih (h.behind k (acc ++ List.replicate (8 - acc.length) 32).length)
                  rw [whole, Nat.add_right_comm] at rest
                  rw [if_pos (decide_eq_true last), if_pos (decide_eq_true last), count, fill_eq_blit,
                    Memory.blit_append]
                  exact rest
                · rw [if_neg (by simpa using last), if_neg (by simpa using last)]
                  exact ih (h.next h.short)
            · have longer : (acc ++ [shortChar c]).length = acc.length + 1 := List.length_append
              rw [if_neg dot, if_neg dot, Memory.blit_append, ← longer]
              apply ih
              apply h.next
              intro some
              have short := h.short some
              have most : acc.length ≠ 8 := fun same => eight ⟨same, some⟩
              omega

theorem tracks_lastDot (name : List UInt8) : Tracks name 0 (some (lastDot name)) 0 where
  short _ := Nat.zero_le 8
  passed := by simp
  last := by
    rintro d ⟨⟩
    by_cases dot : (46 : UInt8) ∈ name
    · obtain ⟨front, back, rfl, none⟩ := eq_append_last dot
      rw [lastDot_append none, List.drop_append, List.drop_eq_nil_of_le (Nat.le_succ _),
        Nat.add_sub_cancel_left]
      exact none
    · exact mt List.mem_of_mem_drop dot

theorem storeShortname_eq (name : List UInt8) (a : Nat) (m : Memory) :
    storeShortname name a m = m.blit a (generate_shortname name) := by
  have stores := @shortnameStores_eq name [] name.length m a 0 _ (tracks_lastDot name)
  rw [Memory.blit_nil] at stores
  rw [storeShortname, generate_shortname, ← Memory.blit_append, ← fill_eq_blit]
  simp only [List.length_nil] at stores
  rw [stores]

/-- `generate_shortname` stores the eleven bytes of the 8.3 form, and no others. -/
theorem generate_shortname_reference (name : List UInt8) :
    (shortForm name).length = CHAR_SHORT_NAME ∧ generate_shortname name = shortForm name ∧
      ∀ (m : Memory) (shortname : Nat),
        storeShortname name shortname m = m.blit shortname (shortForm name) := by
  have same := generate_shortname_eq name
  refine ⟨shortForm_length name, same, fun m shortname => ?_⟩
  rw [storeShortname_eq, same]

/-- `a.b [c].text` -/
example : generate_shortname [97, 46, 98, 32, 91, 99, 93, 46, 116, 101, 120, 116] =
    [65, 66, 95, 67, 95, 32, 32, 32, 84, 69, 88] := by
  decide

end AvxKernel.Fat
