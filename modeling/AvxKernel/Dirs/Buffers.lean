import AvxKernel.Dirs.Create
import AvxKernel.Lib.Logged

/-! The arrays that the calls on paths keep on their stacks: `path` (`pathname` in
`sys_fstatat`) of the system calls, `name` of the look-ups, `name` and `pname` of
`create` and `new_create`. A store is logged with the size that its array was
declared with; one that ends behind that size goes over what lies next to it. -/
namespace AvxKernel.Dirs.Buffers

open Fat (FAT32_MAX_FILENAME)
open Fs (Name)
open Fd (Path has cstr created O_CREATE O_RDWR)
open Logged (emit Always)

def FAT32_MAX_PATH : Nat := 260

/-- The first `stop` bytes of an array, or the last of them, are stored to. -/
structure Store where
  size : Nat
  stop : Nat
deriving DecidableEq, Repr

def Store.Inside (s : Store) : Prop := s.stop ≤ s.size

def store (size stop : Nat) : Logged Store Unit := emit ⟨size, stop⟩

/-! ### The calls on paths -/

/-- The NUL is stored before the characters. -/
def skipelem (path : Path) : Logged Store (Option (Name × Path)) := do
  match Fs.skipelem path with
  | none => return none
  | some (name, rest) =>
    store (FAT32_MAX_FILENAME + 1) (name.length + 1)
    return some (name, rest)

section Tree

variable (t : Tree) (made : Path → Bool)

def lookupFrom (parent : Bool) : Nat → Node → Path → Name → Logged Store (Option Node × Name)
  | 0, _, _, name => return (none, name)
  | rounds + 1, entry, path, name => do
    match ← skipelem path with
    | none => return (if parent then none else some entry, name)
    | some (name, path) =>
      if t.isDir entry = false then
        return (none, name)
      else if parent = true ∧ path = [] then
        return (some entry, name)
      else
        match dirlookup t entry name with
        | none => return (none, name)
        | some next => lookupFrom parent rounds next path name

/-- `new_lookup_path`, and `lookup_path` where there is no `env`. -/
def new_lookup_path (env : Option Node) (cwd : Node) (path : Path) (parent : Bool) :
    Logged Store (Option Node × Name) :=
  if path.head? = some 47 then
    lookupFrom t parent (path.length + 1) [] path []
  else
    match env with
    | some env => lookupFrom t parent (path.length + 1) env path []
    | none =>
      if path = [] then
        return (none, [])
      else
        lookupFrom t parent (path.length + 1) cwd path []

/-- `strncpy` stores its whole count: the string, and zeros after it. -/
def strncpy (size count : Nat) : Logged Store Unit := store size count

/-- `sysfile.c` and `fat32.c` each have one. -/
def get_parent_name (path : Path) : Logged Store (Path × Path) := do
  strncpy (FAT32_MAX_FILENAME + 1) (path.length + 1)
  let pname := (Fd.get_parent_name path).1
  -- the slash behind `pname` becomes its NUL
  (if pname.length < path.length then
    store (FAT32_MAX_FILENAME + 1) (pname.length + 1)
  else
    return ())
  strncpy (FAT32_MAX_FILENAME + 1) (path.length - pname.length + 1)
  return Fd.get_parent_name path

/-- `ealloc` has the name trimmed where it lies: a NUL goes behind its last
character, if any is left. -/
def formatname (name : Name) : Logged Store (Option Name) := do
  let front := name.takeWhile fun c => c == 32 || c == 46
  match Fat.formatname name with
  | none => return none
  | some trimmed =>
    (if trimmed = [] then
      return ()
    else
      store (FAT32_MAX_FILENAME + 1) (front.length + trimmed.length + 1))
    return some trimmed

/-- `new_create`, and `create` where there is no `env`, down to a parent that is
there or to a depth. `made` tells which of the missing parents could be made. -/
def new_create (env : Option Node) (cwd : Node) : Nat → Path → Logged Store Unit
  | 0, _ => return ()
  | calls + 1, path => do
    match ← new_lookup_path t env cwd path true with
    | (some _, name) =>
      let _ ← formatname name
    | (none, _) =>
      let (pname, name) ← get_parent_name path
      new_create env cwd calls pname
      if made pname then
        let _ ← formatname name
      else
        return ()

/-! ### The system calls -/

/-- A string of the user's, taken into an array under a limit: up to its NUL, or as
much as the limit lets in. -/
def argstr (size max : Nat) (string : Path) : Logged Store (Option Path) := do
  store size (min (string.length + 1) max)
  return if string.length < max then some string else none

/-- From the path on, with the directory that the descriptor stands for. -/
def sys_openat (dp : Option Node) (cwd : Node) (calls : Nat) (flags : UInt32) (string : Path) :
    Logged Store Unit := do
  match ← argstr FAT32_MAX_FILENAME FAT32_MAX_PATH string with
  | none => return ()
  | some path =>
    if (cstr "/dev/null").isPrefixOf path then
      return ()
    else
      match ← new_lookup_path t dp cwd path false with
      | (some _, _) => return ()
      | (none, _) =>
        if has (flags ||| O_RDWR) O_CREATE ∨ (created.any fun name => name.isPrefixOf path) then
          new_create t made dp cwd calls path
        else
          return ()

def sys_fstatat (dp : Option Node) (cwd : Node) (string : Path) : Logged Store Unit := do
  match ← argstr FAT32_MAX_FILENAME (FAT32_MAX_FILENAME + 1) string with
  | none => return ()
  | some path =>
    if dp.any fun dp => !t.isDir dp then
      return ()
    else
      let _ ← new_lookup_path t dp cwd path false

/-- `dp` is the entry of the descriptor, if it is one. -/
def sys_faccessat (dp : Option Node) (cwd : Node) (string : Path) : Logged Store Unit := do
  match ← argstr FAT32_MAX_FILENAME (FAT32_MAX_FILENAME + 1) string with
  | none => return ()
  | some path =>
    let dp := if path.head? = some 47 then none else some (dp.getD cwd)
    let _ ← new_lookup_path t dp cwd path false

def sys_mkdirat (cwd : Node) (calls : Nat) (string : Path) : Logged Store Unit := do
  match ← argstr FAT32_MAX_PATH FAT32_MAX_PATH string with
  | none => return ()
  | some path =>
    if path.length = 1 then
      return ()
    else
      new_create t made none cwd calls path

def sys_open (cwd : Node) (calls : Nat) (omode : UInt32) (string : Path) : Logged Store Unit := do
  match ← argstr FAT32_MAX_PATH FAT32_MAX_PATH string with
  | none => return ()
  | some path =>
    if has omode O_CREATE then
      new_create t made none cwd calls path
    else
      let _ ← new_lookup_path t none cwd path false

def sys_mkdir (cwd : Node) (calls : Nat) (string : Path) : Logged Store Unit := do
  match ← argstr FAT32_MAX_PATH FAT32_MAX_PATH string with
  | none => return ()
  | some path => new_create t made none cwd calls path

end Tree

variable {t : Tree} {made : Path → Bool} {env dp : Option Node} {cwd : Node} {path : Path}

theorem store_inside {size stop : Nat} : Always Store.Inside (store size stop) ↔ stop ≤ size :=
  Logged.always_emit

theorem strncpy_inside {size count : Nat} : Always Store.Inside (strncpy size count) ↔ count ≤ size :=
  Logged.always_emit

/-! ### The look-ups -/

theorem skipelem_value (path : Path) : (skipelem path).value = Fs.skipelem path := by
  rw [skipelem]
  cases Fs.skipelem path <;> rfl

theorem skipelem_short {path rest : Path} {name : Name}
    (split : Fs.skipelem path = some (name, rest)) : name.length ≤ FAT32_MAX_FILENAME := by
  rw [Fs.skipelem] at split
  dsimp only at split
  split at split
  · cases split
  · cases split
    exact List.length_take_le _ _

theorem skipelem_inside (path : Path) : Always Store.Inside (skipelem path) := by
  rw [skipelem]
  cases split : Fs.skipelem path with
  | none => exact Logged.always_pure _
  | some taken =>
    obtain ⟨name, rest⟩ := taken
    apply Logged.Always.bind
    · exact store_inside.mpr (Nat.succ_le_succ (skipelem_short split))
    · exact fun _ => Logged.always_pure _

theorem lookupFrom_inside (parent : Bool) (rounds : Nat) (entry : Node) (path : Path) (name : Name) :
    Always Store.Inside (lookupFrom t parent rounds entry path name) := by
  induction rounds generalizing entry path name with
  | zero => exact Logged.always_pure _
  | succ rounds ih =>
    rw [lookupFrom]
    apply (skipelem_inside path).bind
    intro taken
    cases taken with
    | none => exact Logged.always_pure _
    | some taken =>
      obtain ⟨name, path⟩ := taken
      dsimp only
      split
      · exact Logged.always_pure _
      · split
        · exact Logged.always_pure _
        · cases dirlookup t entry name with
          | none => exact Logged.always_pure _
          | some next => exact ih next path name

/-- What is left in `name` fits there. -/
theorem lookupFrom_short {parent : Bool} {rounds : Nat} {entry : Node} {path : Path} {name : Name}
    (short : name.length ≤ FAT32_MAX_FILENAME) :
    (lookupFrom t parent rounds entry path name).value.2.length ≤ FAT32_MAX_FILENAME := by
  induction rounds generalizing entry path name with
  | zero => exact short
  | succ rounds ih =>
    rw [lookupFrom, Logged.value_bind, skipelem_value]
    cases split : Fs.skipelem path with
    | none => exact short
    | some taken =>
      obtain ⟨name, path⟩ := taken
      have taken_short := skipelem_short split
      dsimp only
      split
      · exact taken_short
      · split
        · exact taken_short
        · cases dirlookup t entry name with
          | none => exact taken_short
          | some next => exact ih taken_short

theorem new_lookup_path_named {parent : Bool} (named : path ≠ []) :
    new_lookup_path t env cwd path parent =
      lookupFrom t parent (path.length + 1) (start env cwd path) path [] := by
  rw [new_lookup_path.eq_def, start]
  by_cases slash : path.head? = some 47
  · rw [if_pos slash, if_pos slash]
  · rw [if_neg slash, if_neg slash]
    cases env with
    | some env => rfl
    | none => exact if_neg named

theorem new_lookup_path_inside (parent : Bool) :
    Always Store.Inside (new_lookup_path t env cwd path parent) := by
  by_cases named : path = []
  · subst named
    cases env with
    | some env => exact lookupFrom_inside parent _ _ _ _
    | none => exact Logged.always_pure _
  · rw [new_lookup_path_named named]
    exact lookupFrom_inside parent _ _ _ _

theorem new_lookup_path_short (parent : Bool) :
    (new_lookup_path t env cwd path parent).value.2.length ≤ FAT32_MAX_FILENAME := by
  by_cases named : path = []
  · subst named
    cases env with
    | some env => exact lookupFrom_short (Nat.zero_le _)
    | none => exact Nat.zero_le _
  · rw [new_lookup_path_named named]
    exact lookupFrom_short (Nat.zero_le _)

/-- The loop finds what the one on the tree finds. -/
theorem lookupFrom_value {parent : Bool} {rounds : Nat} {entry : Node} {path : Path} {name : Name}
    {r : Option Node × Name} (run : Dirs.lookupFrom t parent rounds entry path name = .ok r) :
    (lookupFrom t parent rounds entry path name).value = r := by
  induction rounds generalizing entry path name with
  | zero => cases run
  | succ rounds ih =>
    rw [Dirs.lookupFrom] at run
    rw [lookupFrom, Logged.value_bind, skipelem_value]
    cases split : Fs.skipelem path with
    | none =>
      rw [split] at run
      exact Except.ok.inj run
    | some taken =>
      obtain ⟨name, path⟩ := taken
      rw [split] at run
      dsimp only at run ⊢
      by_cases file : t.isDir entry = false
      · rw [if_pos file] at run ⊢
        exact Except.ok.inj run
      · rw [if_neg file] at run ⊢
        by_cases last : parent = true ∧ path = []
        · rw [if_pos last] at run ⊢
          exact Except.ok.inj run
        · rw [if_neg last] at run ⊢
          cases found : dirlookup t entry name with
          | none =>
            rw [found] at run
            exact Except.ok.inj run
          | some next =>
            rw [found] at run
            exact ih run

theorem new_lookup_path_value {parent : Bool} {r : Option Node × Name}
    (run : Dirs.new_lookup_path env (some cwd) path parent t = .ok (r, t)) :
    (new_lookup_path t env cwd path parent).value = r := by
  by_cases named : path = []
  · subst named
    cases env with
    | some env =>
      have lifted : Dirs.new_lookup_path (some env) (some cwd) [] parent t =
          Machine.lift (Dirs.lookupFrom t parent 1 env [] []) t := rfl
      rw [lifted] at run
      exact lookupFrom_value (Machine.lift_ok run)
    | none =>
      cases run
      rfl
  · rw [Dirs.new_lookup_path_run parent named] at run
    rw [new_lookup_path_named named]
    exact lookupFrom_value (Machine.lift_ok run)

/-- All but the last component of a path lead to a directory. -/
def ParentThere (t : Tree) (env : Option Node) (cwd : Node) (path : Path) : Prop :=
  components path ≠ [] ∧ (descend t (start env cwd path) (elems path).dropLast).isSome

theorem parent_found_iff :
    (new_lookup_path t env cwd path true).value.1.isSome ↔ ParentThere t env cwd path := by
  by_cases empty : components path = []
  · rw [new_lookup_path_value (Dirs.new_enameparent_empty empty)]
    constructor
    · intro found
      cases found
    · intro there
      exact absurd empty there.1
  · have named : elems path ≠ [] := fun none => empty (elems_eq_nil.mp none)
    obtain ⟨name, run, -⟩ : ∃ name, Dirs.new_lookup_path env (some cwd) path true t =
        .ok ((descend t (start env cwd path) (elems path).dropLast, name), t) ∧ _ :=
      Dirs.new_enameparent_run (List.dropLast_append_getLast named).symm
    rw [new_lookup_path_value run, ParentThere]
    exact (and_iff_right empty).symm

/-! ### `get_parent_name`, `create` and `new_create` -/

theorem get_parent_name_shorter (path : Path) : (Fd.get_parent_name path).1.length ≤ path.length := by
  rcases get_parent_name_front path with whole | ⟨front, name, split, taken⟩
  · rw [whole]
  · rw [taken, split, List.length_append]
    exact Nat.le_add_right _ _

theorem get_parent_name_inside_iff :
    Always Store.Inside (get_parent_name path) ↔ path.length ≤ FAT32_MAX_FILENAME := by
  have shorter := get_parent_name_shorter path
  rw [get_parent_name]
  dsimp only
  generalize (Fd.get_parent_name path).1 = pname at shorter ⊢
  constructor
  · intro inside
    have copied := strncpy_inside.mp (Logged.always_bind.mp inside).1
    omega
  · intro fits
    apply Logged.Always.bind
    · exact strncpy_inside.mpr (Nat.succ_le_succ fits)
    · intro _
      apply Logged.Always.bind
      · split
        · exact store_inside.mpr (by omega)
        · exact Logged.always_pure _
      · intro _
        apply Logged.Always.bind
        · exact strncpy_inside.mpr (by omega)
        · exact fun _ => Logged.always_pure _

theorem formatname_shorter {name trimmed : Name} (legal : Fat.formatname name = some trimmed) :
    (name.takeWhile fun c => c == 32 || c == 46).length + trimmed.length ≤ name.length := by
  have parts := congrArg List.length
    (@List.takeWhile_append_dropWhile _ (fun c : UInt8 => c == 32 || c == 46) name)
  rw [List.length_append] at parts
  rw [Fat.formatname] at legal
  split at legal
  · cases legal
  · have cut := Option.some.inj legal
    have kept : trimmed.length ≤ (name.dropWhile fun c => c == 32 || c == 46).length := by
      rw [← cut, List.length_reverse]
      exact (List.length_dropWhile_le _ _).trans List.length_reverse.le
    omega

theorem formatname_inside {name : Name} (short : name.length ≤ FAT32_MAX_FILENAME) :
    Always Store.Inside (formatname name) := by
  rw [formatname]
  cases legal : Fat.formatname name with
  | none => exact Logged.always_pure _
  | some trimmed =>
    have shorter := formatname_shorter legal
    apply Logged.Always.bind
    · split
      · exact Logged.always_pure _
      · exact store_inside.mpr (by omega)
    · exact fun _ => Logged.always_pure _

theorem new_create_inside (calls : Nat)
    (fits : path.length ≤ FAT32_MAX_FILENAME ∨ ParentThere t env cwd path) :
    Always Store.Inside (new_create t made env cwd calls path) := by
  induction calls generalizing path with
  | zero => exact Logged.always_pure _
  | succ calls ih =>
    rw [new_create, Logged.always_bind]
    refine ⟨new_lookup_path_inside true, ?_⟩
    have found := @parent_found_iff t env cwd path
    have name_short := @new_lookup_path_short t env cwd path true
    generalize (new_lookup_path t env cwd path true).value = r at found name_short ⊢
    obtain ⟨dp, name⟩ := r
    cases dp with
    | some dp => exact (formatname_inside name_short).bind fun _ => Logged.always_pure _
    | none =>
      have missing : ¬ParentThere t env cwd path := fun there => by
        cases found.mpr there
      have short := fits.resolve_right missing
      have shorter := get_parent_name_shorter path
      dsimp only
      rw [Logged.always_bind]
      refine ⟨get_parent_name_inside_iff.mpr short, ?_⟩
      apply Logged.Always.bind
      · exact ih (.inl (shorter.trans short))
      · intro _
        split
        · apply Logged.Always.bind
          · apply formatname_inside
            have last : (get_parent_name path).value.2 = path.drop ((Fd.get_parent_name path).1.length + 1) :=
              rfl
            rw [last, List.length_drop]
            omega
          · exact fun _ => Logged.always_pure _
        · exact Logged.always_pure _

/-- A missing parent has the whole path copied for the call that makes it. -/
theorem new_create_inside_iff :
    (∀ calls, Always Store.Inside (new_create t made env cwd calls path)) ↔
      path.length ≤ FAT32_MAX_FILENAME ∨ ParentThere t env cwd path := by
  constructor
  · intro inside
    by_contra neither
    obtain ⟨long, missing⟩ := not_or.mp neither
    have first := inside 1
    rw [new_create, Logged.always_bind] at first
    have found := @parent_found_iff t env cwd path
    generalize (new_lookup_path t env cwd path true).value = r at found first
    obtain ⟨dp, name⟩ := r
    cases dp with
    | some dp => exact missing (found.mp rfl)
    | none =>
      dsimp only at first
      rw [Logged.always_bind] at first
      exact long (get_parent_name_inside_iff.mp first.2.1)
  · exact fun fits calls => new_create_inside calls fits

/-! ### The system calls -/

theorem argstr_inside_iff {size max : Nat} {string : Path} :
    Always Store.Inside (argstr size max string) ↔ min (string.length + 1) max ≤ size := by
  rw [argstr, Logged.always_bind]
  constructor
  · exact fun inside => store_inside.mp inside.1
  · exact fun fits => ⟨store_inside.mpr fits, Logged.always_pure _⟩

theorem argstr_value (size max : Nat) (string : Path) :
    (argstr size max string).value = if string.length < max then some string else none := rfl

/-- A call takes its path and goes on with it if the limit lets the whole of it in. -/
theorem after_argstr {size max : Nat} {string : Path} {rest : Option Path → Logged Store Unit}
    (refused : rest none = pure ()) :
    Always Store.Inside (argstr size max string >>= rest) ↔
      min (string.length + 1) max ≤ size ∧
        (string.length < max → Always Store.Inside (rest (some string))) := by
  rw [Logged.always_bind, argstr_inside_iff, argstr_value]
  apply and_congr_right
  intro _
  by_cases short : string.length < max
  · rw [if_pos short]
    exact ⟨fun inside _ => inside, fun inside => inside short⟩
  · rw [if_neg short, refused]
    exact ⟨fun _ long => absurd long short, fun _ => Logged.always_pure _⟩

theorem sys_openat_inside_iff (flags : UInt32) :
    (∀ calls, Always Store.Inside (sys_openat t made dp cwd calls flags path)) ↔
      path.length < FAT32_MAX_FILENAME := by
  constructor
  · intro inside
    have first := inside 0
    rw [sys_openat, after_argstr rfl, FAT32_MAX_PATH, FAT32_MAX_FILENAME] at first
    rw [FAT32_MAX_FILENAME]
    omega
  · intro short calls
    rw [sys_openat, after_argstr rfl]
    refine ⟨by omega, fun _ => ?_⟩
    dsimp only
    split
    · exact Logged.always_pure _
    · apply (new_lookup_path_inside false).bind
      rintro ⟨ep, name⟩
      cases ep with
      | some ep => exact Logged.always_pure _
      | none =>
        dsimp only
        split
        · exact new_create_inside calls (.inl short.le)
        · exact Logged.always_pure _

theorem sys_fstatat_inside_iff :
    Always Store.Inside (sys_fstatat t dp cwd path) ↔ path.length < FAT32_MAX_FILENAME := by
  rw [sys_fstatat, after_argstr rfl]
  constructor
  · rintro ⟨fits, -⟩
    omega
  · intro short
    refine ⟨by omega, fun _ => ?_⟩
    dsimp only
    split
    · exact Logged.always_pure _
    · exact (new_lookup_path_inside false).bind fun _ => Logged.always_pure _

theorem sys_faccessat_inside_iff :
    Always Store.Inside (sys_faccessat t dp cwd path) ↔ path.length < FAT32_MAX_FILENAME := by
  rw [sys_faccessat, after_argstr rfl]
  constructor
  · rintro ⟨fits, -⟩
    omega
  · intro short
    refine ⟨by omega, fun _ => ?_⟩
    exact (new_lookup_path_inside false).bind fun _ => Logged.always_pure _

/-- The limit refuses the path, or `name` and `pname` have room for it, or nothing is
missing above its last component. -/
def CreateFits (t : Tree) (cwd : Node) (path : Path) : Prop :=
  FAT32_MAX_PATH ≤ path.length ∨ path.length ≤ FAT32_MAX_FILENAME ∨ ParentThere t none cwd path

theorem sys_mkdir_inside_iff :
    (∀ calls, Always Store.Inside (sys_mkdir t made cwd calls path)) ↔ CreateFits t cwd path := by
  rw [CreateFits, ← new_create_inside_iff]
  constructor
  · intro inside
    by_cases short : path.length < FAT32_MAX_PATH
    · refine .inr fun calls => ?_
      have made := inside calls
      rw [sys_mkdir, after_argstr rfl] at made
      exact made.2 short
    · exact .inl (by omega)
  · intro fits calls
    rw [sys_mkdir, after_argstr rfl]
    refine ⟨Nat.min_le_right _ _, fun short => ?_⟩
    exact (fits.resolve_left (by omega)) calls

theorem sys_mkdirat_inside_iff :
    (∀ calls, Always Store.Inside (sys_mkdirat t made cwd calls path)) ↔ CreateFits t cwd path := by
  by_cases one : path.length = 1
  · refine iff_of_true (fun calls => ?_) (.inr (.inl (by rw [one]; decide)))
    rw [sys_mkdirat, after_argstr rfl]
    refine ⟨Nat.min_le_right _ _, fun _ => ?_⟩
    dsimp only
    rw [if_pos one]
    exact Logged.always_pure _
  · have same : ∀ calls, Always Store.Inside (sys_mkdirat t made cwd calls path) ↔
        Always Store.Inside (sys_mkdir t made cwd calls path) := by
      intro calls
      rw [sys_mkdirat, sys_mkdir, after_argstr rfl, after_argstr rfl]
      dsimp only
      rw [if_neg one]
    simp only [same, sys_mkdir_inside_iff]

theorem sys_open_inside_iff (omode : UInt32) :
    (∀ calls, Always Store.Inside (sys_open t made cwd calls omode path)) ↔
      has omode O_CREATE = false ∨ CreateFits t cwd path := by
  cases creates : has omode O_CREATE with
  | false =>
    refine iff_of_true (fun calls => ?_) (.inl rfl)
    rw [sys_open, after_argstr rfl]
    refine ⟨Nat.min_le_right _ _, fun _ => ?_⟩
    dsimp only
    rw [creates, if_neg Bool.false_ne_true]
    exact (new_lookup_path_inside false).bind fun _ => Logged.always_pure _
  | true =>
    have same : ∀ calls, Always Store.Inside (sys_open t made cwd calls omode path) ↔
        Always Store.Inside (sys_mkdir t made cwd calls path) := by
      intro calls
      rw [sys_open, sys_mkdir, after_argstr rfl, after_argstr rfl]
      dsimp only
      rw [creates, if_pos rfl]
    simp only [same, sys_mkdir_inside_iff, Bool.true_eq_false, false_or]

/-- When the calls keep to their arrays, over every tree and every string, whichever
of the missing parents can be made. The first three take a longer path than theirs
holds; the other three take any path that theirs holds to `create`, which has less
room. -/
theorem path_arrays_hold_iff (t : Tree) (made : Path → Bool) (dp : Option Node) (cwd : Node) (path : Path) :
    (∀ flags, (∀ calls, Always Store.Inside (sys_openat t made dp cwd calls flags path)) ↔
      path.length < FAT32_MAX_FILENAME) ∧
    (Always Store.Inside (sys_fstatat t dp cwd path) ↔ path.length < FAT32_MAX_FILENAME) ∧
    (Always Store.Inside (sys_faccessat t dp cwd path) ↔ path.length < FAT32_MAX_FILENAME) ∧
    ((∀ calls, Always Store.Inside (sys_mkdirat t made cwd calls path)) ↔ CreateFits t cwd path) ∧
    (∀ omode, (∀ calls, Always Store.Inside (sys_open t made cwd calls omode path)) ↔
      has omode O_CREATE = false ∨ CreateFits t cwd path) ∧
    ((∀ calls, Always Store.Inside (sys_mkdir t made cwd calls path)) ↔ CreateFits t cwd path) :=
  ⟨sys_openat_inside_iff, sys_fstatat_inside_iff, sys_faccessat_inside_iff, sys_mkdirat_inside_iff,
    sys_open_inside_iff, sys_mkdir_inside_iff⟩

/-- No parent can be made. -/
def unmade : Path → Bool := fun _ => false

def longName : Name := List.replicate FAT32_MAX_FILENAME 97

theorem longName_components : components longName = [longName] := by
  apply components_of_not_mem
  · intro slash
    cases List.eq_of_mem_replicate slash
  · exact List.cons_ne_nil _ _

theorem longPath_length : (120 :: 47 :: longName).length = 257 := by
  rw [List.length_cons, List.length_cons, longName, List.length_replicate]
  rfl

theorem longPath_missing : ¬ParentThere bare none [] (120 :: 47 :: longName) := by
  have split : components (120 :: 47 :: longName) = [[120], longName] := by
    rw [show 120 :: 47 :: longName = [120] ++ 47 :: longName from rfl, components_append,
      longName_components]
    rfl
  have front : (elems (120 :: 47 :: longName)).dropLast = [[120]] := by
    rw [elems, split]
    rfl
  rintro ⟨-, there⟩
  rw [front] at there
  revert there
  decide

/-- A name of 255 characters passes the limits of the first three calls, and one below
a directory that is not there those of the others. -/
theorem path_arrays_overrun :
    longName.length < FAT32_MAX_FILENAME + 1 ∧
    (¬∀ calls, Always Store.Inside (sys_openat bare unmade none [] calls 0 longName)) ∧
    ¬Always Store.Inside (sys_fstatat bare none [] longName) ∧
    ¬Always Store.Inside (sys_faccessat bare none [] longName) ∧
    (120 :: 47 :: longName).length < FAT32_MAX_PATH ∧
    (¬∀ calls, Always Store.Inside (sys_mkdirat bare unmade [] calls (120 :: 47 :: longName))) ∧
    (¬∀ calls, Always Store.Inside (sys_open bare unmade [] calls O_CREATE (120 :: 47 :: longName))) ∧
    ¬∀ calls, Always Store.Inside (sys_mkdir bare unmade [] calls (120 :: 47 :: longName)) := by
  have long : ¬longName.length < FAT32_MAX_FILENAME := by
    rw [longName, List.length_replicate]
    exact Nat.lt_irrefl _
  have overrun : ¬CreateFits bare [] (120 :: 47 :: longName) := by
    rintro (refused | short | there)
    · rw [longPath_length] at refused
      exact absurd refused (by decide)
    · rw [longPath_length] at short
      exact absurd short (by decide)
    · exact longPath_missing there
  refine ⟨?_, ?_, ?_, ?_, ?_, ?_, ?_, ?_⟩
  · rw [longName, List.length_replicate]
    exact Nat.lt_succ_self _
  · exact fun inside => long ((sys_openat_inside_iff 0).mp inside)
  · exact fun inside => long (sys_fstatat_inside_iff.mp inside)
  · exact fun inside => long (sys_faccessat_inside_iff.mp inside)
  · rw [longPath_length]
    decide
  · exact fun inside => overrun (sys_mkdirat_inside_iff.mp inside)
  · intro inside
    rcases (sys_open_inside_iff O_CREATE).mp inside with plain | fits
    · exact absurd plain (by decide)
    · exact overrun fits
  · exact fun inside => overrun (sys_mkdir_inside_iff.mp inside)

end AvxKernel.Dirs.Buffers
