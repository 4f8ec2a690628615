import AvxKernel.Dirs.Tree
import Mathlib.Algebra.BigOperators.Group.List.Basic
import Mathlib.Data.List.TakeWhile

/-! Paths as lists of what is between their slashes: what `skipelem` takes off the
front and `get_parent_name` off the end, and the look-ups as walks down a tree. -/
namespace AvxKernel.Dirs

open Fs (Name skipelem)
open Fd (Path get_parent_name)

/-- What is between the slashes, empty where two slashes meet. -/
def pieces (path : Path) : List Name := path.splitOn 47

def components (path : Path) : List Name := (pieces path).filter (· ≠ [])

theorem pieces_append (front rest : Path) :
    pieces (front ++ 47 :: rest) = pieces front ++ pieces rest :=
  List.splitOn_append_cons_self front rest

theorem pieces_of_not_mem {name : Name} (plain : (47 : UInt8) ∉ name) : pieces name = [name] :=
  List.splitOn_eq_singleton plain

@[simp] theorem components_nil : components [] = [] := rfl

theorem components_append (front rest : Path) :
    components (front ++ 47 :: rest) = components front ++ components rest := by
  rw [components, pieces_append, List.filter_append, components, components]

@[simp] theorem components_slash (path : Path) : components (47 :: path) = components path :=
  components_append [] path

theorem components_of_not_mem {name : Name} (plain : (47 : UInt8) ∉ name) (named : name ≠ []) :
    components name = [name] := by
  rw [components, pieces_of_not_mem plain, List.filter_cons_of_pos (by simpa using named),
    List.filter_nil]

/-! ### `skipelem` -/

theorem components_dropWhile (path : Path) :
    components (path.dropWhile (· == 47)) = components path := by
  induction path with
  | nil => rfl
  | cons c path ih =>
    by_cases slash : c = 47
    · subst slash
      rw [components_slash, ← ih, List.dropWhile_cons_of_pos rfl]
    · rw [List.dropWhile_cons_of_neg (by simpa using slash)]

/-- A path that does not begin with a slash is its first component and the rest. -/
theorem components_cons {path : Path} (named : path ≠ []) (front : path.head? ≠ some 47) :
    components path = path.takeWhile (· ≠ 47) :: components (path.dropWhile (· ≠ 47)) := by
  have plain : (47 : UInt8) ∉ path.takeWhile (· ≠ 47) := by
    intro slash
    simpa using List.mem_takeWhile_imp slash
  have first : path.takeWhile (· ≠ 47) ≠ [] := by
    cases path with
    | nil => exact absurd rfl named
    | cons c path =>
      rw [List.takeWhile_cons_of_pos (by simpa using front)]
      exact List.cons_ne_nil _ _
  conv_lhs => rw [← List.takeWhile_append_dropWhile (p := (· ≠ 47)) (l := path)]
  cases rest : path.dropWhile (· ≠ 47) with
  | nil => rw [List.append_nil, components_of_not_mem plain first, components_nil]
  | cons c after =>
    have slash : c = 47 := by
      have := List.head_dropWhile_not (fun x : UInt8 => decide (x ≠ 47)) (l := path)
        (by rw [rest]; exact List.cons_ne_nil _ _)
      simpa only [rest, List.head_cons, decide_eq_false_iff_not, ne_eq, not_not] using this
    subst slash
    rw [components_append, components_of_not_mem plain first, components_slash]
    rfl

theorem eq_nil_of_components {path : Path} (front : path.head? ≠ some 47)
    (empty : components path = []) : path = [] := by
  by_contra named
  rw [components_cons named front] at empty
  cases empty

theorem head_dropWhile_slash (path : Path) :
    (path.dropWhile (· == 47)).head? ≠ some 47 := by
  intro slash
  obtain ⟨rest, split⟩ := List.head?_eq_some_iff.mp slash
  have := List.head_dropWhile_not (· == (47 : UInt8)) (l := path)
    (by rw [split]; exact List.cons_ne_nil _ _)
  simp [split] at this

theorem skipelem_none {path : Path} (empty : components path = []) : skipelem path = none := by
  have gone := eq_nil_of_components (head_dropWhile_slash path)
    ((components_dropWhile path).trans empty)
  rw [skipelem]
  simp [gone]

theorem length_dropWhile_le (p : UInt8 → Bool) (path : Path) :
    (path.dropWhile p).length ≤ path.length :=
  (List.dropWhile_sublist p).length_le

/-- `skipelem` takes the first component off a path. -/
theorem skipelem_some {path : Path} {name : Name} {names : List Name}
    (split : components path = name :: names) :
    ∃ rest, skipelem path = some (name.take Fat.FAT32_MAX_FILENAME, rest) ∧
      components rest = names ∧ (rest = [] ↔ names = []) ∧ rest.length < path.length := by
  have front := head_dropWhile_slash path
  have same := components_dropWhile path
  have shorter := length_dropWhile_le (· == 47) path
  rw [skipelem]
  generalize path.dropWhile (· == 47) = path' at front same shorter ⊢
  rw [split] at same
  have named : path' ≠ [] := by
    rintro rfl
    cases same
  rw [components_cons named front, List.cons.injEq] at same
  obtain ⟨first, others⟩ := same
  refine ⟨(path'.dropWhile (· ≠ 47)).dropWhile (· == 47), ?_, ?_, ?_, ?_⟩
  · simp only [List.isEmpty_iff, named, if_false, first]
  · rw [components_dropWhile, others]
  · constructor
    · intro gone
      rw [← others, ← components_dropWhile, gone, components_nil]
    · intro none
      exact eq_nil_of_components (head_dropWhile_slash _) (by rw [components_dropWhile, others, none])
  · have rest := length_dropWhile_le (· == 47) (path'.dropWhile (· ≠ 47))
    have removed := congrArg List.length (List.takeWhile_append_dropWhile (p := (· ≠ 47)) (l := path'))
    have nonempty : 0 < (path'.takeWhile (· ≠ 47)).length := by
      cases path' with
      | nil => exact absurd rfl named
      | cons c path' =>
        rw [List.takeWhile_cons_of_pos (by simpa using front)]
        exact Nat.succ_pos _
    rw [List.length_append] at removed
    omega

/-- The components as the look-ups see them: a name has room for 255 characters. -/
def elems (path : Path) : List Name :=
  (components path).map (List.take Fat.FAT32_MAX_FILENAME)

theorem elems_eq_nil {path : Path} : elems path = [] ↔ components path = [] := List.map_eq_nil_iff

theorem skipelem_cons {path : Path} {first : Name} {others : List Name}
    (split : elems path = first :: others) :
    ∃ rest, skipelem path = some (first, rest) ∧ elems rest = others ∧
      (rest = [] ↔ others = []) ∧ rest.length < path.length := by
  obtain ⟨name, names, comps, rfl, rfl⟩ := List.map_eq_cons_iff.mp split
  obtain ⟨rest, taken, same, ended, shorter⟩ := skipelem_some comps
  exact ⟨rest, taken, by rw [elems, same], ended.trans List.map_eq_nil_iff.symm, shorter⟩

theorem length_of_mem_components {path : Path} {name : Name} (member : name ∈ components path) :
    name.length ≤ path.length := by
  have inside : name ∈ pieces path := List.mem_of_mem_filter member
  clear member
  induction path generalizing name with
  | nil =>
    rw [List.mem_singleton.mp inside]
    exact Nat.le_refl _
  | cons c path ih =>
    rw [pieces, List.splitOn_cons_eq_if_modifyHead] at inside
    rw [List.length_cons]
    split at inside
    · rcases List.mem_cons.mp inside with rfl | later
      · exact Nat.zero_le _
      · exact (ih later).trans (Nat.le_succ _)
    · change name ∈ (pieces path).modifyHead (List.cons c) at inside
      cases split : pieces path with
      | nil => exact absurd split (List.splitOn_ne_nil _ _)
      | cons first others =>
        rw [split] at inside ih
        rcases List.mem_cons.mp inside with rfl | later
        · exact Nat.succ_le_succ (ih List.mem_cons_self)
        · exact (ih (List.mem_cons_of_mem _ later)).trans (Nat.le_succ _)

theorem elems_of_short {path : Path} (short : path.length ≤ Fat.FAT32_MAX_FILENAME) :
    elems path = components path := by
  refine (List.map_congr_left fun name member => ?_).trans (List.map_id _)
  exact List.take_of_length_le ((length_of_mem_components member).trans short)

/-! ### `get_parent_name` -/

theorem find_last {p : Nat → Bool} {n i : Nat} (inside : i < n) (here : p i = true)
    (behind : ∀ j, i < j → j < n → p j = false) : (List.range n).reverse.find? p = some i := by
  induction n with
  | zero => cases inside
  | succ n ih =>
    rw [List.range_succ, List.reverse_append, List.reverse_singleton, List.singleton_append]
    rcases Nat.lt_succ_iff_lt_or_eq.mp inside with earlier | rfl
    · rw [List.find?_cons_of_neg (by simp [behind n earlier (Nat.lt_succ_self n)])]
      exact ih earlier fun j after before => behind j after (before.trans (Nat.lt_succ_self n))
    · exact List.find?_cons_of_pos here

theorem find_slash (front : Path) {name : Path} (after : Path) (plain : (47 : UInt8) ∉ name) :
    (List.range (front.length + 1 + name.length)).reverse.find?
      (fun i => (front ++ 47 :: (name ++ after))[i]? == some 47) = some front.length := by
  refine find_last (by omega) (by simp) ?_
  intro j behind inside
  obtain ⟨i, rfl⟩ := Nat.exists_eq_add_of_lt behind
  have within : i < name.length := by omega
  rw [List.getElem?_append_right (by omega), show front.length + i + 1 - front.length = i + 1 by omega,
    List.getElem?_cons_succ, List.getElem?_append_left within, List.getElem?_eq_getElem within]
  have other : name[i] ≠ 47 := fun slash => plain (slash ▸ List.getElem_mem within)
  simpa using other

/-- A path ends with a component behind its last slash. -/
theorem get_parent_name_component {front name : Path} (plain : (47 : UInt8) ∉ name)
    (named : name ≠ []) : get_parent_name (front ++ 47 :: name) = (front, name) := by
  have last : (front ++ 47 :: name).getLast? ≠ some 47 := by
    rw [List.getLast?_append_of_ne_nil _ (List.cons_ne_nil _ _), List.getLast?_cons_of_ne_nil named]
    exact fun slash => plain (List.mem_of_getLast? slash)
  have found := find_slash front [] plain
  rw [List.append_nil] at found
  rw [get_parent_name, if_neg last, List.length_append, List.length_cons,
    show front.length + (name.length + 1) = front.length + 1 + name.length by omega, found]
  simp

/-- A path ends with a slash, which is left with the name in front of it. -/
theorem get_parent_name_slash {front name : Path} (plain : (47 : UInt8) ∉ name) :
    get_parent_name (front ++ 47 :: (name ++ [47])) = (front, name ++ [47]) := by
  have last : (front ++ 47 :: (name ++ [47])).getLast? = some 47 := by
    rw [← List.cons_append, ← List.append_assoc, List.getLast?_concat]
  have found := find_slash front [47] plain
  rw [get_parent_name, if_pos last, List.length_append, List.length_cons, List.length_append,
    List.length_singleton,
    show front.length + (name.length + 1 + 1) - 1 = front.length + 1 + name.length by omega, found]
  simp

/-- The parent's path is the path itself, or what is in front of one of its slashes. -/
theorem get_parent_name_front (path : Path) :
    (get_parent_name path).1 = path ∨
      ∃ front name, path = front ++ 47 :: name ∧ get_parent_name path = (front, name) := by
  rw [get_parent_name]
  generalize (if path.getLast? = some 47 then path.length - 1 else path.length) = len
  cases found : (List.range len).reverse.find? fun i => path[i]? == some 47 with
  | none => exact .inl rfl
  | some i =>
    have slash : path[i]? = some 47 := by simpa using List.find?_some found
    obtain ⟨inside, slash⟩ := List.getElem?_eq_some_iff.mp slash
    refine .inr ⟨path.take i, path.drop (i + 1), ?_, ?_⟩
    · rw [← slash, ← List.drop_eq_getElem_cons, List.take_append_drop]
    · simp only [List.length_take, Nat.min_eq_left inside.le]

/-- What is behind the last slash. -/
theorem last_slash {path : Path} (slash : (47 : UInt8) ∈ path) :
    ∃ front name, path = front ++ 47 :: name ∧ (47 : UInt8) ∉ name := by
  obtain ⟨after, before, split, plain⟩ :=
    List.eq_append_cons_of_mem (List.mem_reverse.mpr slash)
  refine ⟨before.reverse, after.reverse, ?_, ?_⟩
  · rw [← List.reverse_reverse path, split]
    simp
  · rwa [List.mem_reverse]

/-! ### Walks -/

/-- Where the names lead; the last need not be a directory. -/
def walk (t : Tree) : Node → List Name → Option Node
  | dp, [] => some dp
  | dp, name :: names =>
    if t.isDir dp then (dirlookup t dp name).bind fun next => walk t next names else none

/-- The directory that the names lead to. -/
def descend (t : Tree) (dp : Node) (names : List Name) : Option Node :=
  (walk t dp names).filter t.isDir

/-- How many of the names in front lead to directories. -/
def found (t : Tree) : Node → List Name → Nat
  | _, [] => 0
  | dp, name :: names =>
    match (dirlookup t dp name).filter t.isDir with
    | some next => found t next names + 1
    | none => 0

variable {t : Tree} {dp : Node} {names : List Name}

theorem walk_nil (t : Tree) (dp : Node) : walk t dp [] = some dp := rfl

theorem walk_cons (t : Tree) (dp : Node) (name : Name) (names : List Name) : walk t dp (name :: names) =
    if t.isDir dp then (dirlookup t dp name).bind fun next => walk t next names else none := rfl

theorem found_cons (t : Tree) (dp : Node) (name : Name) (names : List Name) : found t dp (name :: names) =
    match (dirlookup t dp name).filter t.isDir with
    | some next => found t next names + 1
    | none => 0 := rfl

theorem walk_cons_iff {name : Name} {ep : Node} : walk t dp (name :: names) = some ep ↔
    t.isDir dp = true ∧ ∃ next, dirlookup t dp name = some next ∧ walk t next names = some ep := by
  rw [walk_cons]
  by_cases dir : t.isDir dp = true
  · rw [if_pos dir, Option.bind_eq_some_iff, and_iff_right dir]
  · simp [dir]

theorem walk_append (front names : List Name) :
    walk t dp (front ++ names) = (walk t dp front).bind fun next => walk t next names := by
  induction front generalizing dp with
  | nil => rfl
  | cons name front ih =>
    rw [List.cons_append, walk_cons, walk_cons]
    split
    · rw [Option.bind_assoc]
      congr 1
      funext next
      exact ih
    · rfl

theorem found_le : found t dp names ≤ names.length := by
  induction names generalizing dp with
  | nil => exact Nat.le_refl _
  | cons name names ih =>
    rw [found_cons]
    split
    · exact Nat.succ_le_succ ih
    · exact Nat.zero_le _

theorem found_append (less : found t dp names < names.length) (more : List Name) :
    found t dp (names ++ more) = found t dp names := by
  induction names generalizing dp with
  | nil => cases less
  | cons name names ih =>
    rw [List.cons_append, found_cons, found_cons]
    rw [found_cons] at less
    split
    · next next there =>
      rw [there] at less
      rw [ih (Nat.lt_of_succ_lt_succ less)]
    · rfl

theorem found_le_append (names more : List Name) : found t dp names ≤ found t dp (names ++ more) := by
  induction names generalizing dp with
  | nil => exact Nat.zero_le _
  | cons name names ih =>
    rw [List.cons_append, found_cons, found_cons]
    split
    · exact Nat.succ_le_succ ih
    · exact Nat.le_refl _

/-- The names that are found lead to a directory. -/
theorem descend_take (dir : t.isDir dp = true) {n : Nat} (within : n ≤ found t dp names) :
    ∃ next, descend t dp (names.take n) = some next := by
  induction names generalizing dp n with
  | nil => exact ⟨dp, by rw [List.take_nil, descend, walk_nil, Option.filter_some, if_pos dir]⟩
  | cons name names ih =>
    cases n with
    | zero => exact ⟨dp, by rw [List.take_zero, descend, walk_nil, Option.filter_some, if_pos dir]⟩
    | succ n =>
      rw [found_cons] at within
      split at within
      · next next there =>
        obtain ⟨there, dir'⟩ := Option.filter_eq_some_iff.mp there
        obtain ⟨last, reached⟩ := ih dir' (Nat.le_of_succ_le_succ within)
        refine ⟨last, ?_⟩
        rw [List.take_succ_cons, descend, walk_cons, if_pos dir, there]
        exact reached
      · cases within

theorem descend_of_file (file : ¬t.isDir dp = true) (names : List Name) :
    descend t dp names = none := by
  cases names with
  | nil => rw [descend, walk_nil, Option.filter_some, if_neg file]
  | cons name names => rw [descend, walk_cons, if_neg file, Option.filter_none]

theorem descend_some_iff (dir : t.isDir dp = true) :
    (descend t dp names).isSome ↔ found t dp names = names.length := by
  constructor
  · intro reached
    induction names generalizing dp with
    | nil => rfl
    | cons name names ih =>
      rw [descend, walk_cons, if_pos dir] at reached
      cases there : dirlookup t dp name with
      | none =>
        rw [there] at reached
        cases reached
      | some next =>
        rw [there] at reached
        have dir' : t.isDir next = true := by
          cases names with
          | nil =>
            change ((some next).filter t.isDir).isSome at reached
            rw [Option.filter_some] at reached
            by_contra file
            rw [if_neg file] at reached
            cases reached
          | cons name names =>
            by_contra file
            change ((walk t next (name :: names)).filter t.isDir).isSome at reached
            rw [walk_cons, if_neg file] at reached
            cases reached
        rw [found_cons, there, Option.filter_some, if_pos dir', List.length_cons]
        exact congrArg (· + 1) (ih dir' reached)
  · intro all
    obtain ⟨next, reached⟩ := descend_take dir (Nat.le_of_eq all.symm)
    rw [List.take_length] at reached
    rw [reached]
    rfl

/-! ### The look-ups as walks -/

theorem lookupFrom_walk {rounds : Nat} {path : Path} (enough : path.length < rounds)
    (name : Name) :
    ∃ name', lookupFrom t false rounds dp path name = .ok (walk t dp (elems path), name') := by
  induction rounds generalizing dp path name with
  | zero => cases enough
  | succ rounds ih =>
    rw [lookupFrom]
    cases split : elems path with
    | nil =>
      rw [skipelem_none (elems_eq_nil.mp split)]
      exact ⟨name, rfl⟩
    | cons first others =>
      obtain ⟨rest, taken, same, -, shorter⟩ := skipelem_cons split
      rw [taken, walk_cons]
      by_cases dir : t.isDir dp = true
      · simp only [dir, Bool.true_eq_false, if_false, if_true, Bool.false_eq_true, false_and]
        cases dirlookup t dp first with
        | none => exact ⟨first, rfl⟩
        | some next =>
          rw [← same]
          exact ih (by omega) first
      · rw [Bool.not_eq_true] at dir
        simp only [dir, if_true, Bool.false_eq_true, if_false]
        exact ⟨first, rfl⟩

theorem lookupFrom_descend {rounds : Nat} {path : Path} (enough : path.length < rounds)
    (name : Name) {front : List Name} {last : Name} (split : elems path = front ++ [last]) :
    ∃ name', lookupFrom t true rounds dp path name = .ok (descend t dp front, name') ∧
      ((descend t dp front).isSome → name' = last) := by
  induction rounds generalizing dp path name front with
  | zero => cases enough
  | succ rounds ih =>
    rw [lookupFrom]
    obtain ⟨first, others, split'⟩ : ∃ first others, elems path = first :: others := by
      cases front with
      | nil => exact ⟨_, _, split⟩
      | cons first front => exact ⟨_, _, split⟩
    obtain ⟨rest, taken, same, ended, shorter⟩ := skipelem_cons split'
    rw [taken]
    by_cases dir : t.isDir dp = true
    · simp only [dir, Bool.true_eq_false, if_false, true_and, ended]
      cases front with
      | nil =>
        obtain ⟨rfl, rfl⟩ := List.cons.inj (split'.symm.trans split)
        refine ⟨first, ?_, fun _ => rfl⟩
        rw [if_pos rfl, descend, walk_nil, Option.filter_some, if_pos dir]
      | cons first' front =>
        obtain ⟨rfl, split''⟩ := List.cons.inj (split'.symm.trans split)
        rw [if_neg (by rw [split'']; simp), descend, walk_cons, if_pos dir]
        cases dirlookup t dp first with
        | none => exact ⟨first, rfl, fun reached => by cases reached⟩
        | some next => exact ih (by omega) first (same.trans split'')
    · have nowhere := descend_of_file dir front
      rw [Bool.not_eq_true] at dir
      simp only [dir, if_true, nowhere]
      exact ⟨first, rfl, fun reached => by cases reached⟩

theorem lookupFrom_empty {rounds : Nat} {path : Path} (empty : components path = []) (name : Name) :
    lookupFrom t true (rounds + 1) dp path name = .ok (none, name) := by
  rw [lookupFrom, skipelem_none empty]
  rfl

/-- Where the look-up of a path begins. -/
def start (env : Option Node) (cwd : Node) (path : Path) : Node :=
  if path.head? = some 47 then [] else env.getD cwd

variable {env : Option Node} {cwd : Node} {path : Path}

theorem start_append {pname tail : Path} (named : pname ≠ []) :
    start env cwd (pname ++ tail) = start env cwd pname := by
  rw [start, start, List.head?_append_of_ne_nil _ named]

/-- A look-up is its loop from the start, unless the path is empty. -/
theorem new_lookup_path_run (parent : Bool) (named : path ≠ []) :
    new_lookup_path env (some cwd) path parent t =
      Machine.lift (lookupFrom t parent (path.length + 1) (start env cwd path) path []) t := by
  rw [new_lookup_path, start]
  by_cases slash : path.head? = some 47
  · simp only [slash, if_true]
    rfl
  · simp only [slash, if_false, named]
    cases env <;> rfl

theorem new_ename_run (named : path ≠ []) :
    new_ename env (some cwd) path t = .ok (walk t (start env cwd path) (elems path), t) := by
  obtain ⟨name, result⟩ : ∃ name, lookupFrom t false (path.length + 1) (start env cwd path) path [] =
      .ok (walk t (start env cwd path) (elems path), name) :=
    lookupFrom_walk (Nat.lt_succ_self path.length) []
  have run : new_lookup_path env (some cwd) path false t = _ := new_lookup_path_run false named
  rw [Machine.lift_run result] at run
  exact Machine.bind_of_ok run

theorem new_enameparent_run {front : List Name} {last : Name}
    (split : elems path = front ++ [last]) :
    ∃ name, new_lookup_path env (some cwd) path true t =
        .ok ((descend t (start env cwd path) front, name), t) ∧
      ((descend t (start env cwd path) front).isSome → name = last) := by
  have named : path ≠ [] := by
    rintro rfl
    have none := List.append_eq_nil_iff.mp split.symm
    cases none.2
  obtain ⟨name, result, same⟩ : ∃ name, lookupFrom t true (path.length + 1) (start env cwd path)
      path [] = .ok (descend t (start env cwd path) front, name) ∧ _ :=
    lookupFrom_descend (Nat.lt_succ_self path.length) [] split
  refine ⟨name, ?_, same⟩
  rw [new_lookup_path_run true named, Machine.lift_run result]

theorem new_enameparent_empty (empty : components path = []) :
    new_lookup_path env (some cwd) path true t = .ok ((none, []), t) := by
  by_cases named : path = []
  · subst named
    cases env <;> rfl
  · rw [new_lookup_path_run true named, Machine.lift_run (lookupFrom_empty empty [])]

end AvxKernel.Dirs
