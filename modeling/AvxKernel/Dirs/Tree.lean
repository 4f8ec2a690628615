import AvxKernel.Fd.Calls
import AvxKernel.Fs.Ecache

/-! The directory tree as the calls of `fat32.c` on paths see it, with the cache
of entries left out: an entry is where it is in the tree. The calls are put below
the descriptors, so that `create` and `new_create` run on a tree. -/
namespace AvxKernel.Dirs

open Fat (ATTR_DIRECTORY ATTR_ARCHIVE formatname)
open Fs (Name skipelem)
open Fd (Path)

inductive Kind where
  | file
  | dir
deriving DecidableEq

/-- The names that lead from the root to an entry. -/
abbrev Node := List Name

/-- What is where, and the names in each directory. A directory with deleted slots
has an entry without a name: `enext` clears the name before it stops behind them,
and `dirlookup` goes by the name alone. -/
structure Tree where
  kind : Node → Option Kind
  names : Node → List Name
  root_dir : kind [] = some .dir
  parent_dir : ∀ {dp : Node} {name : Name}, kind (dp ++ [name]) ≠ none → kind dp = some .dir
  listed : ∀ {dp : Node} {name : Name}, name ∈ names dp ↔ kind (dp ++ [name]) ≠ none
  bounded : ∃ depth, ∀ ep : Node, kind ep ≠ none → ep.length ≤ depth

def Tree.isDir (t : Tree) (ep : Node) : Bool := t.kind ep = some .dir

theorem Tree.isDir_iff {t : Tree} {ep : Node} : t.isDir ep = true ↔ t.kind ep = some .dir := by
  rw [Tree.isDir, decide_eq_true_eq]

/-- Everything above an entry is a directory. -/
theorem Tree.dir_above (t : Tree) {dp : Node} {names : List Name} (used : t.kind (dp ++ names) ≠ none)
    (above : names ≠ []) : t.kind dp = some .dir := by
  induction names generalizing dp with
  | nil => exact absurd rfl above
  | cons name names ih =>
    rw [List.append_cons] at used
    cases names with
    | nil => exact t.parent_dir (by rwa [List.append_nil] at used)
    | cons name' names =>
      have dir := ih used (List.cons_ne_nil _ _)
      exact t.parent_dir (by rw [dir]; exact Option.some_ne_none _)

theorem Tree.used_above (t : Tree) {dp : Node} {names : List Name}
    (used : t.kind (dp ++ names) ≠ none) : t.kind dp ≠ none := by
  cases names with
  | nil => rwa [List.append_nil] at used
  | cons name names =>
    rw [t.dir_above used (List.cons_ne_nil _ _)]
    exact Option.some_ne_none _

theorem Tree.nothing_below (t : Tree) {dp rest : Node} (empty : t.names dp = [])
    (more : rest ≠ []) : t.kind (dp ++ rest) = none := by
  cases rest with
  | nil => exact absurd rfl more
  | cons first rest =>
    by_contra used
    rw [List.append_cons] at used
    have listed := t.listed.mpr (t.used_above used)
    rw [empty] at listed
    cases listed

/-- A tree with one more entry in a directory. -/
def Tree.insert (t : Tree) (dp : Node) (name : Name) (kind : Kind) (dir : t.kind dp = some .dir)
    (vacant : t.kind (dp ++ [name]) = none) : Tree where
  kind := Function.update t.kind (dp ++ [name]) (some kind)
  names := Function.update t.names dp (name :: t.names dp)
  root_dir := by
    rw [Function.update_of_ne (by simp)]
    exact t.root_dir
  parent_dir := by
    intro dp' name' used
    by_cases same : dp' ++ [name'] = dp ++ [name]
    · obtain ⟨rfl, -⟩ := List.append_inj' same rfl
      rw [Function.update_of_ne (by simp)]
      exact dir
    · rw [Function.update_of_ne same] at used
      have dir' := t.parent_dir used
      rw [Function.update_of_ne]
      · exact dir'
      · rintro rfl
        rw [vacant] at dir'
        cases dir'
  listed := by
    intro dp' name'
    by_cases here : dp' = dp
    · subst here
      rw [Function.update_self, List.mem_cons]
      by_cases same : name' = name
      · subst same
        simp
      · rw [Function.update_of_ne (by simpa using same), or_iff_right same]
        exact t.listed
    · have apart : dp' ++ [name'] ≠ dp ++ [name] := fun same => here (List.append_inj' same rfl).1
      rw [Function.update_of_ne here, Function.update_of_ne apart]
      exact t.listed
  bounded := by
    obtain ⟨depth, deep⟩ := t.bounded
    refine ⟨max depth (dp ++ [name]).length, fun ep used => ?_⟩
    by_cases same : ep = dp ++ [name]
    · exact same ▸ Nat.le_max_right _ _
    · rw [Function.update_of_ne same] at used
      exact (deep ep used).trans (Nat.le_max_left _ _)

/-! ### Looking up -/

/-- `dirlookup` in a directory. -/
def dirlookup (t : Tree) (dp : Node) (filename : Name) : Option Node :=
  if filename = [46] then
    some dp
  else if filename = [46, 46] then
    some dp.dropLast
  else if (t.kind (dp ++ [filename])).isSome then
    some (dp ++ [filename])
  else
    none

theorem dirlookup_iff {t : Tree} {dp ep : Node} {name : Name} : dirlookup t dp name = some ep ↔
    name = [46] ∧ dp = ep ∨ name = [46, 46] ∧ dp.dropLast = ep ∨
      name ≠ [46] ∧ name ≠ [46, 46] ∧ t.kind (dp ++ [name]) ≠ none ∧ dp ++ [name] = ep := by
  rw [dirlookup]
  by_cases self : name = [46]
  · simp [self]
  · by_cases parent : name = [46, 46]
    · simp [parent]
    · simp [self, parent, Option.isSome_iff_ne_none]

/-- The loop of `new_lookup_path`. Each round takes an element off the path, so
the path's length bounds the rounds. -/
def lookupFrom (t : Tree) (parent : Bool) :
    Nat → Node → Path → Name → Except Halt (Option Node × Name)
  | 0, _, _, _ => .error .diverge
  | rounds + 1, entry, path, name =>
    match skipelem path with
    | none => .ok (if parent then none else some entry, name)
    | some (name, path) =>
      if t.isDir entry = false then
        .ok (none, name)
      else if parent = true ∧ path = [] then
        .ok (some entry, name)
      else
        match dirlookup t entry name with
        | none => .ok (none, name)
        | some next => lookupFrom t parent rounds next path name

/-- `new_lookup_path` for a process with the working directory `cwd`, and
`lookup_path` where there is no `env`. -/
def new_lookup_path (env cwd : Option Node) (path : Path) (parent : Bool) :
    Machine Tree (Option Node × Name) := do
  let t ← get
  if path.head? = some 47 then
    Machine.lift (lookupFrom t parent (path.length + 1) [] path [])
  else
    match env with
    | some env => Machine.lift (lookupFrom t parent (path.length + 1) env path [])
    | none =>
      if path = [] then
        return (none, [])
      else
        match cwd with
        | none => Machine.panic "elock"
        | some cwd => Machine.lift (lookupFrom t parent (path.length + 1) cwd path [])

def new_ename (env cwd : Option Node) (path : Path) : Machine Tree (Option Node) := do
  return (← new_lookup_path env cwd path false).1

/-! ### Making entries -/

theorem vacant_of_dirlookup {t : Tree} {dp : Node} {name : Name}
    (missing : dirlookup t dp name = none) : t.kind (dp ++ [name]) = none := by
  rw [dirlookup] at missing
  split at missing
  · cases missing
  · split at missing
    · cases missing
    · split at missing
      · cases missing
      · next absent => exact Option.not_isSome_iff_eq_none.mp absent

/-- `ealloc` on a volume with room for the entry. -/
def ealloc (dp : Node) (name : Name) (attr : Nat) : Machine Tree (Option Node) := do
  let t ← get
  if dir : t.kind dp = some .dir then
    match formatname name with
    | none => return none
    | some name =>
      if missing : dirlookup t dp name = none then do
        let kind := if attr = ATTR_DIRECTORY then .dir else .file
        set (t.insert dp name kind dir (vacant_of_dirlookup missing))
        return some (dp ++ [name])
      else
        return dirlookup t dp name
  else
    Machine.panic "ealloc not dir"

/-- The tree as what lies below the descriptors. The locks and counts of entries,
what files hold, pipes and memory are no part of it. -/
def below : Fd.Below Tree Node Empty where
  attr t ep :=
    match t.kind ep with
    | some .dir => ATTR_DIRECTORY
    | some .file => ATTR_ARCHIVE
    | none => 0
  file_size _ _ := 0
  new_ename := new_ename
  new_enameparent env cwd path := new_lookup_path env cwd path true
  ealloc := ealloc
  elock _ := return
  eunlock _ := return
  eput _ := return
  edup := pure
  etrunc _ := return
  setZero _ := return
  kallocPipe := return none
  kfreePipe := nofun
  pipeclose := nofun
  copyout _ _ _ := return false
  allocproc _ := return false
  forkCopy _ _ := return .uvmcopy
  freeproc _ := return

/-- The descriptors over a tree. -/
abbrev Kernel := Fd.Kernel Tree Node Empty

abbrev Call (α : Type) := Fd.Call Tree Node Empty α

theorem attr_dir (t : Tree) (ep : Node) :
    decide (below.attr t ep &&& ATTR_DIRECTORY ≠ 0) = t.isDir ep := by
  rw [Tree.isDir]
  change decide ((match t.kind ep with
    | some .dir => ATTR_DIRECTORY
    | some .file => ATTR_ARCHIVE
    | none => 0) &&& ATTR_DIRECTORY ≠ 0) = _
  cases t.kind ep with
  | none => rfl
  | some kind => cases kind <;> rfl

end AvxKernel.Dirs
