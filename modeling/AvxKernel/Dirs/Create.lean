import AvxKernel.Dirs.Paths

/-! `create` and `new_create` on a tree. A missing parent is made by the same call
on the path that `get_parent_name` leaves; how deep these calls go depends on the
slashes of the path and on what of it is there. -/
namespace AvxKernel.Dirs

open Fat (ATTR_DIRECTORY formatname formatname_front formatname_slash)
open Fs (Name)
open Fd (Path get_parent_name new_create onBelow isDir)

/-- Nothing has gone. -/
def Tree.Extends (t t' : Tree) : Prop :=
  ∀ ep kind, t.kind ep = some kind → t'.kind ep = some kind

theorem Tree.Extends.refl (t : Tree) : t.Extends t := fun _ _ there => there

theorem Tree.Extends.trans {t u v : Tree} (first : t.Extends u) (second : u.Extends v) :
    t.Extends v := fun ep kind there => second ep kind (first ep kind there)

theorem Tree.insert_extends (t : Tree) {dp : Node} {name : Name} {kind : Kind}
    (dir : t.kind dp = some .dir) (vacant : t.kind (dp ++ [name]) = none) :
    t.Extends (t.insert dp name kind dir vacant) := by
  intro ep kind' there
  change Function.update t.kind (dp ++ [name]) (some kind) ep = some kind'
  rw [Function.update_of_ne]
  · exact there
  · rintro rfl
    rw [vacant] at there
    cases there

/-! ### In the parent -/

/-- What `new_create` does in the parent's directory. -/
def createIn (dp : Node) (name : Name) (dir : Bool) : Call (Option Node) := do
  match ← onBelow (below.ealloc dp name (if dir then ATTR_DIRECTORY else 0)) with
  | none => do
    onBelow (below.eunlock dp)
    onBelow (below.eput dp)
    return none
  | some ep => do
    if dir ≠ (← isDir below ep) then
      onBelow (below.eunlock dp)
      onBelow (below.eput ep)
      onBelow (below.eput dp)
      return none
    else
      onBelow (below.eunlock dp)
      onBelow (below.eput dp)
      onBelow (below.elock ep)
      return some ep

variable {t : Tree} {dp : Node} {name : Name}

/-- A name that `formatname` returns is no name for the directory or its parent. -/
theorem dirlookup_formatted {name' : Name} (legal : formatname name = some name') :
    dirlookup t dp name' =
      if (t.kind (dp ++ [name'])).isSome then some (dp ++ [name']) else none := by
  have front := formatname_front legal
  rw [dirlookup, if_neg, if_neg]
  · rintro rfl
    exact front rfl
  · rintro rfl
    exact front rfl

theorem ealloc_illegal (dir : t.kind dp = some .dir) (illegal : formatname name = none)
    (attr : Nat) : ealloc dp name attr t = .ok (none, t) := by
  refine (Machine.bind_of_ok (Machine.get_run t)).trans ?_
  rw [dif_pos dir, illegal]
  rfl

/-- `ealloc` finds or makes the entry of the name that `formatname` returns. -/
theorem ealloc_legal (dir : t.kind dp = some .dir) {name' : Name}
    (legal : formatname name = some name') (attr : Nat) :
    ∃ t', ealloc dp name attr t = .ok (some (dp ++ [name']), t') ∧ t.Extends t' ∧
      t'.kind (dp ++ [name']) ≠ none := by
  have look : dirlookup t dp name' = _ := dirlookup_formatted legal
  have run : ealloc dp name attr t = _ := Machine.bind_of_ok (Machine.get_run t)
  rw [dif_pos dir, legal] at run
  dsimp only at run
  by_cases missing : dirlookup t dp name' = none
  · rw [dif_pos missing] at run
    refine ⟨_, run, Tree.insert_extends t dir (vacant_of_dirlookup missing), ?_⟩
    change Function.update t.kind (dp ++ [name']) _ (dp ++ [name']) ≠ none
    rw [Function.update_self]
    exact Option.some_ne_none _
  · have used : (t.kind (dp ++ [name'])).isSome := by
      by_contra vacant
      rw [look, if_neg vacant] at missing
      exact missing rfl
    rw [dif_neg missing, look, if_pos used] at run
    exact ⟨t, run, Tree.Extends.refl t, Option.isSome_iff_ne_none.mp used⟩

variable {k : Kernel}

/-- The entry's place, and what it is. -/
structure Made (dp : Node) (name : Name) (dir : Bool) (t t' : Tree) (ep : Node) : Prop where
  place : ∃ name', formatname name = some name' ∧ ep = dp ++ [name']
  kept : t.Extends t'
  kind : t'.kind ep = some (if dir then .dir else .file)

theorem createIn_run (dp_dir : k.below.kind dp = some .dir) (dir : Bool) :
    ∃ r k', createIn dp name dir k = .ok (r, k') ∧
      ∀ ep, r = some ep → Made dp name dir k.below k'.below ep := by
  cases legal : formatname name with
  | none =>
    refine ⟨none, k, ?_, nofun⟩
    have run : onBelow (below.ealloc dp name (if dir then ATTR_DIRECTORY else 0)) k = .ok (none, k) :=
      Machine.zoom_ok.mpr ⟨_, ealloc_illegal dp_dir legal _, rfl⟩
    exact Machine.bind_of_ok run
  | some name' =>
    obtain ⟨t', done, more, there⟩ := ealloc_legal dp_dir legal (if dir then ATTR_DIRECTORY else 0)
    have run : onBelow (below.ealloc dp name (if dir then ATTR_DIRECTORY else 0)) k =
        .ok (some (dp ++ [name']), { k with below := t' }) :=
      Machine.zoom_ok.mpr ⟨_, done, rfl⟩
    have is_dir : isDir below (dp ++ [name']) { k with below := t' } =
        .ok (t'.isDir (dp ++ [name']), { k with below := t' }) := by
      rw [← attr_dir]
      rfl
    rw [createIn, Machine.bind_of_ok run]
    dsimp only
    rw [Machine.bind_of_ok is_dir]
    by_cases same : dir = t'.isDir (dp ++ [name'])
    · rw [if_neg (not_not.mpr same)]
      refine ⟨_, _, rfl, ?_⟩
      rintro ep ⟨⟩
      refine ⟨⟨name', legal, rfl⟩, more, ?_⟩
      obtain ⟨kind, is⟩ := Option.ne_none_iff_exists'.mp there
      rw [Tree.isDir, is] at same
      change t'.kind (dp ++ [name']) = _
      rw [is, same]
      cases kind <;> rfl
    · rw [if_pos same]
      exact ⟨_, _, rfl, nofun⟩

/-! ### Cutting the path -/

def spareStep (counts : List Nat) (piece : Name) : List Nat :=
  if piece = [] then
    match counts with
    | [] => []
    | n :: counts => (n + 1) :: counts
  else
    0 :: counts

theorem spareStep_named (counts : List Nat) {piece : Name} (named : piece ≠ []) :
    spareStep counts piece = 0 :: counts := by
  unfold spareStep
  exact if_neg named

theorem spareStep_length (counts : List Nat) (piece : Name) :
    (spareStep counts piece).length = counts.length + ([piece].filter (· ≠ [])).length := by
  by_cases empty : piece = []
  · subst empty
    cases counts <;> rfl
  · rw [spareStep_named counts empty, List.filter_cons_of_pos (by simpa using empty)]
    rfl

/-- The slashes behind each component, without the one that ends it where another
component follows. The last component is the first in the list. -/
def spare (path : Path) : List Nat := (pieces path).foldl spareStep []

theorem spare_append (front rest : Path) :
    spare (front ++ 47 :: rest) = (pieces rest).foldl spareStep (spare front) := by
  rw [spare, pieces_append, List.foldl_append, spare]

theorem spare_length (path : Path) : (spare path).length = (components path).length := by
  have counted : ∀ (parts : List Name) (counts : List Nat),
      (parts.foldl spareStep counts).length = counts.length + (parts.filter (· ≠ [])).length := by
    intro parts
    induction parts with
    | nil => exact fun _ => rfl
    | cons part parts ih =>
      intro counts
      rw [List.foldl_cons, ih, spareStep_length, Nat.add_assoc, ← List.length_append,
        ← List.filter_append, List.singleton_append]
  exact (counted (pieces path) []).trans (Nat.zero_add _)

theorem slash_of_components {path : Path} (many : 2 ≤ (components path).length) :
    (47 : UInt8) ∈ path := by
  by_contra plain
  by_cases named : path = []
  · rw [named] at many
    cases many
  · rw [components_of_not_mem plain named, List.length_singleton] at many
    cases Nat.le_of_succ_le_succ many

/-- How `get_parent_name` cuts a path with more than one component: a component
goes, with the one slash behind it if there is one, or two slashes go. -/
inductive Cut (path pname name : Path) : Prop where
  | component (comps : components path = components pname ++ [name])
      (counts : spare path = 0 :: spare pname)
  | slash {last : Name} (comps : components path = components pname ++ [last])
      (counts : spare path = 1 :: spare pname) (illegal : (47 : UInt8) ∈ name)
  | slashes {n : Nat} {others : List Nat} (comps : components path = components pname)
      (before : spare pname = n :: others) (counts : spare path = (n + 2) :: others)
      (illegal : (47 : UInt8) ∈ name)

/-- A path that ends with two slashes. -/
theorem cut_slashes {front : Path} (more : components front ≠ []) :
    Cut (front ++ 47 :: [47]) front [47] := by
  have comps : components (front ++ 47 :: [47]) = components front := by
    rw [components_append, components_slash, components_nil, List.append_nil]
  cases before : spare front with
  | nil =>
    have none := spare_length front
    rw [before] at none
    exact absurd (List.length_eq_zero_iff.mp none.symm) more
  | cons n others =>
    refine .slashes comps before ?_ (by simp)
    rw [spare_append, before]
    rfl

theorem get_parent_name_cut {path : Path} (many : 2 ≤ (components path).length) :
    ∃ pname name tail, get_parent_name path = (pname, name) ∧ path = pname ++ tail ∧
      Cut path pname name := by
  obtain ⟨front, name, rfl, plain⟩ := last_slash (slash_of_components many)
  by_cases named : name = []
  · subst named
    -- the path ends with a slash: the one before it is the one that counts
    rw [components_append, components_nil, List.append_nil] at many
    obtain ⟨front, name, rfl, plain'⟩ := last_slash (slash_of_components many)
    have same : front ++ 47 :: name ++ [47] = front ++ 47 :: (name ++ [47]) := by simp
    rw [same]
    refine ⟨front, name ++ [47], _, get_parent_name_slash plain', rfl, ?_⟩
    by_cases named' : name = []
    · subst named'
      refine cut_slashes fun none => ?_
      rw [components_append, none] at many
      cases many
    · have after : components (name ++ [47]) = [name] := by
        rw [components_append, components_of_not_mem plain' named', components_nil, List.append_nil]
      refine .slash (by rw [components_append, after]) ?_ (by simp)
      rw [spare_append, pieces_append, pieces_of_not_mem plain']
      change spareStep (spareStep (spare front) name) [] = _
      rw [spareStep_named _ named']
      rfl
  · refine ⟨front, name, _, get_parent_name_component plain named, rfl, .component ?_ ?_⟩
    · rw [components_append, components_of_not_mem plain named]
    · rw [spare_append, pieces_of_not_mem plain]
      exact spareStep_named _ named

/-! ### The calls for the parents -/

variable {env : Option Node} {cwd : Node} {path : Path}

/-- The look-up of the parent does not change the tree. -/
theorem onBelow_lookup {r : Option Node × Name}
    (look : new_lookup_path env (some cwd) path true k.below = .ok (r, k.below)) :
    onBelow (below.new_enameparent env (some cwd) path) k = .ok (r, k) :=
  Machine.zoom_ok.mpr ⟨k.below, look, rfl⟩

theorem new_create_hit (limit : Nat) (dir : Bool)
    (look : new_lookup_path env (some cwd) path true k.below = .ok ((some dp, name), k.below)) :
    new_create below env (some cwd) (limit + 1) path dir k = createIn dp name dir k := by
  have locked : onBelow (below.elock dp) k = .ok ((), k) := rfl
  rw [new_create, Machine.bind_of_ok (onBelow_lookup look)]
  dsimp only
  rw [bind_assoc, Machine.bind_of_ok locked, pure_bind]
  refine congrFun (congrArg (onBelow (below.ealloc dp name _) >>= ·) ?_) k
  funext ep
  cases ep <;> rfl

theorem new_create_miss (limit : Nat) (dir : Bool)
    (look : new_lookup_path env (some cwd) path true k.below = .ok ((none, name), k.below)) :
    new_create below env (some cwd) (limit + 1) path dir k = (do
      match ← new_create below env (some cwd) limit (get_parent_name path).1 true with
      | none => return none
      | some dp => createIn dp (get_parent_name path).2 dir) k := by
  rw [new_create, Machine.bind_of_ok (onBelow_lookup look)]
  dsimp only
  rw [bind_assoc]
  refine congrFun (congrArg (new_create below env (some cwd) limit _ true >>= ·) ?_) k
  funext dp
  rw [pure_bind]
  cases dp with
  | none => rfl
  | some dp =>
    refine congrArg (onBelow (below.ealloc dp _ _) >>= ·) ?_
    funext ep
    cases ep <;> rfl

/-- The calls that find no parent, where so many of the components in front are
there: one for each component behind the next, and one more for each two slashes
to spare behind it. -/
def misses (there : Nat) (counts : List Nat) : Nat :=
  ((counts.take (counts.length - (there + 1))).map fun n => n / 2 + 1).sum

theorem Cut.misses {pname : Path} (cut : Cut path pname name) {there : Nat}
    (missing : there + 2 ≤ (components path).length) :
    misses there (spare path) = misses there (spare pname) + 1 := by
  rw [← spare_length] at missing
  have shift : ∀ (n : Nat) (others : List Nat), there + 2 ≤ (n :: others).length →
      Dirs.misses there (n :: others) = n / 2 + 1 + Dirs.misses there others := by
    intro n others more
    rw [List.length_cons] at more
    rw [Dirs.misses, List.length_cons,
      show others.length + 1 - (there + 1) = others.length - (there + 1) + 1 by omega,
      List.take_succ_cons, List.map_cons, List.sum_cons, Dirs.misses]
  cases cut with
  | component comps counts =>
    rw [counts] at missing ⊢
    rw [shift 0 _ missing, Nat.add_comm]
  | slash comps counts =>
    rw [counts] at missing ⊢
    rw [shift 1 _ missing, Nat.add_comm]
  | @slashes n others comps before counts =>
    rw [counts] at missing ⊢
    rw [before, shift (n + 2) others missing, shift n others missing]
    omega

theorem Cut.components {pname : Path} (cut : Cut path pname name) :
    ∃ more, Dirs.components path = Dirs.components pname ++ more ∧ more.length ≤ 1 := by
  cases cut with
  | component comps => exact ⟨_, comps, Nat.le_refl 1⟩
  | slash comps => exact ⟨_, comps, Nat.le_refl 1⟩
  | slashes comps => exact ⟨[], by rw [comps, List.append_nil], Nat.zero_le 1⟩

/-- The path names something, and its look-up begins in a directory. -/
structure Rooted (t : Tree) (env : Option Node) (cwd : Node) (path : Path) : Prop where
  named : components path ≠ []
  dir : t.isDir (start env cwd path) = true

/-- The parent is not there, and the path is cut. -/
structure Missed (t : Tree) (env : Option Node) (cwd : Node) (path pname name : Path) : Prop where
  parent : get_parent_name path = (pname, name)
  cut : Cut path pname name
  missing : found t (start env cwd path) (components path) + 2 ≤ (components path).length
  rooted : Rooted t env cwd pname
  shorter : pname.length ≤ path.length
  start : start env cwd pname = start env cwd path
  found : found t (Dirs.start env cwd pname) (components pname) =
    found t (Dirs.start env cwd path) (components path)

/-- A look-up finds the parent, and with it all components but the last, or the
path is cut in front of what is there. -/
theorem parent_cases (rooted : Rooted k.below env cwd path)
    (short : path.length ≤ Fat.FAT32_MAX_FILENAME) :
    (∃ front last dp, components path = front ++ [last] ∧
      front.length ≤ found k.below (start env cwd path) (components path) ∧
      descend k.below (start env cwd path) front = some dp ∧
      new_lookup_path env (some cwd) path true k.below = .ok ((some dp, last), k.below)) ∨
    ∃ name, new_lookup_path env (some cwd) path true k.below = .ok ((none, name), k.below) ∧
      ∃ pname name, Missed k.below env cwd path pname name := by
  obtain none | ⟨front, last, split⟩ := (components path).eq_nil_or_concat
  · exact absurd none rooted.named
  rw [List.concat_eq_append] at split
  obtain ⟨name, look, same⟩ : ∃ name, new_lookup_path env (some cwd) path true k.below =
      .ok ((descend k.below (start env cwd path) front, name), k.below) ∧ _ :=
    new_enameparent_run ((elems_of_short short).trans split)
  cases reached : descend k.below (start env cwd path) front with
  | some dp =>
    rw [reached] at look same
    rw [same rfl] at look
    refine .inl ⟨front, last, dp, split, ?_, reached, look⟩
    rw [split, ← (descend_some_iff rooted.dir).mp (by rw [reached]; rfl)]
    exact found_le_append front [last]
  | none =>
    rw [reached] at look
    refine .inr ⟨name, look, ?_⟩
    have less : found k.below (start env cwd path) front < front.length := by
      refine Nat.lt_of_le_of_ne found_le fun all => ?_
      have := (descend_some_iff rooted.dir).mpr all
      rw [reached] at this
      cases this
    have there := found_append less [last]
    rw [← split] at there
    have missing : found k.below (start env cwd path) (components path) + 2 ≤
        (components path).length := by
      rw [there, split, List.length_append, List.length_singleton]
      omega
    obtain ⟨pname, name, tail, parent, whole, cut⟩ :=
      get_parent_name_cut (Nat.le_trans (Nat.le_add_left 2 _) missing)
    obtain ⟨more, comps, one⟩ := cut.components
    have left : found k.below (start env cwd path) (components path) <
        (components pname).length := by
      have lengths := congrArg List.length comps
      rw [List.length_append] at lengths
      omega
    have named : components pname ≠ [] := List.ne_nil_of_length_pos (Nat.zero_lt_of_lt left)
    have nonempty : pname ≠ [] := by
      rintro rfl
      exact named rfl
    have start : start env cwd pname = start env cwd path := by
      rw [whole, start_append nonempty]
    refine ⟨pname, name, parent, cut, missing, ⟨named, start ▸ rooted.dir⟩, ?_, start, ?_⟩
    · rw [whole, List.length_append]
      exact Nat.le_add_right _ _
    · rw [start]
      have more' : found k.below (Dirs.start env cwd path) (components pname) ≤
          found k.below (Dirs.start env cwd path) (components path) := by
        rw [comps]
        exact found_le_append _ _
      rw [comps, found_append (Nat.lt_of_le_of_lt more' left)]

/-- `new_create` returns once there are more nested calls than find no parent. -/
theorem new_create_returns (rooted : Rooted k.below env cwd path)
    (short : path.length ≤ Fat.FAT32_MAX_FILENAME) {calls : Nat}
    (enough : misses (found k.below (start env cwd path) (components path)) (spare path) < calls)
    (dir : Bool) :
    ∃ r k', new_create below env (some cwd) calls path dir k = .ok (r, k') ∧
      ∀ ep, r = some ep → k'.below.kind ep = some (if dir then .dir else .file) := by
  induction calls generalizing path dir with
  | zero => cases enough
  | succ calls ih =>
    rcases parent_cases rooted short with ⟨front, last, dp, -, -, reached, look⟩ |
      ⟨name, look, pname, name', missed⟩
    · rw [new_create_hit calls dir look]
      have dp_dir := Tree.isDir_iff.mp (Option.filter_eq_some_iff.mp reached).2
      obtain ⟨r, k', run, made⟩ := createIn_run dp_dir dir
      exact ⟨r, k', run, fun ep eq => (made ep eq).kind⟩
    · rw [new_create_miss calls dir look, missed.parent]
      have fewer := missed.cut.misses missed.missing
      obtain ⟨r, k', run, made⟩ := ih missed.rooted (missed.shorter.trans short)
        (by rw [missed.found]; omega) true
      rw [Machine.bind_of_ok run]
      cases r with
      | none => exact ⟨none, k', rfl, nofun⟩
      | some dp =>
        obtain ⟨r, k'', run, made⟩ := createIn_run (made dp rfl) dir
        exact ⟨r, k'', run, fun ep eq => (made ep eq).kind⟩

/-- With no more nested calls than that it is still in them. -/
theorem new_create_deeper (rooted : Rooted k.below env cwd path)
    (short : path.length ≤ Fat.FAT32_MAX_FILENAME) {calls : Nat}
    (few : calls ≤ misses (found k.below (start env cwd path) (components path)) (spare path))
    (dir : Bool) : new_create below env (some cwd) calls path dir k = .error .diverge := by
  induction calls generalizing path dir with
  | zero => rfl
  | succ calls ih =>
    rcases parent_cases rooted short with ⟨front, last, dp, split, there, reached, look⟩ |
      ⟨name, look, pname, name', missed⟩
    · have counted := (spare_length path).trans (congrArg List.length split)
      rw [List.length_append, List.length_singleton] at counted
      rw [misses, counted, Nat.sub_eq_zero_of_le (Nat.succ_le_succ there), List.take_zero] at few
      cases few
    · have fewer := missed.cut.misses missed.missing
      have deeper := ih missed.rooted (missed.shorter.trans short)
        (by rw [missed.found]; omega) true
      rw [new_create_miss calls dir look, missed.parent, Machine.bind_of_error deeper]

/-- A path without a component, or one that begins where there is no directory:
the parent's path is one, too. -/
theorem new_create_unrooted (unrooted : ¬Rooted k.below env cwd path)
    (short : path.length ≤ Fat.FAT32_MAX_FILENAME) (calls : Nat) (dir : Bool) :
    new_create below env (some cwd) calls path dir k = .error .diverge := by
  induction calls generalizing path dir with
  | zero => rfl
  | succ calls ih =>
    obtain ⟨name, look⟩ : ∃ name, new_lookup_path env (some cwd) path true k.below =
        .ok ((none, name), k.below) := by
      obtain empty | ⟨front, last, split⟩ := (components path).eq_nil_or_concat
      · exact ⟨[], new_enameparent_empty empty⟩
      · rw [List.concat_eq_append] at split
        obtain ⟨name, look, -⟩ : ∃ name, new_lookup_path env (some cwd) path true k.below =
            .ok ((descend k.below (start env cwd path) front, name), k.below) ∧ _ :=
          new_enameparent_run ((elems_of_short short).trans split)
        refine ⟨name, look.trans ?_⟩
        have file : ¬k.below.isDir (start env cwd path) := fun dir =>
          unrooted ⟨by rw [split]; simp, dir⟩
        rw [descend_of_file file]
    have deeper : new_create below env (some cwd) calls (get_parent_name path).1 true k =
        .error .diverge := by
      rcases get_parent_name_front path with same | ⟨front, name, whole, parent⟩
      · rw [same]
        exact ih unrooted short true
      · rw [parent]
        rw [whole, List.length_append] at short
        refine ih (fun rooted => unrooted ?_) (Nat.le_trans (Nat.le_add_right _ _) short) true
        have nonempty : front ≠ [] := by
          rintro rfl
          exact rooted.named rfl
        refine ⟨fun none => rooted.named ?_, ?_⟩
        · rw [whole, components_append] at none
          exact (List.append_eq_nil_iff.mp none).1
        · rw [whole, start_append nonempty]
          exact rooted.dir
    rw [new_create_miss calls dir look, Machine.bind_of_error deeper]

theorem new_create_terminates_iff (k : Kernel) (env : Option Node) (cwd : Node) (path : Path)
    (dir : Bool) (short : path.length ≤ Fat.FAT32_MAX_FILENAME) :
    (∃ calls r k', new_create below env (some cwd) calls path dir k = .ok (r, k')) ↔
      Rooted k.below env cwd path := by
  constructor
  · rintro ⟨calls, r, k', run⟩
    by_contra unrooted
    rw [new_create_unrooted unrooted short calls dir] at run
    cases run
  · intro rooted
    obtain ⟨r, k', run, -⟩ := new_create_returns rooted short (Nat.lt_succ_self _) dir
    exact ⟨_, r, k', run⟩

/-- Behind the first component that is not there, the slashes to spare are no more
pairs than there are components that are there. -/
def FewSlashes (there : Nat) (path : Path) : Prop :=
  (((spare path).take ((components path).length - (there + 1))).map (· / 2)).sum ≤ there

instance (there : Nat) (path : Path) : Decidable (FewSlashes there path) :=
  inferInstanceAs (Decidable (_ ≤ _))

theorem sum_map_succ (counts : List Nat) :
    (counts.map fun n => n / 2 + 1).sum = (counts.map (· / 2)).sum + counts.length := by
  induction counts with
  | nil => rfl
  | cons n counts ih =>
    rw [List.map_cons, List.sum_cons, ih, List.map_cons, List.sum_cons, List.length_cons]
    omega

theorem fewSlashes_iff {there : Nat} (named : components path ≠ [])
    (within : there ≤ (components path).length) :
    FewSlashes there path ↔ misses there (spare path) < (components path).length := by
  have some := List.length_pos_iff.mpr named
  rw [FewSlashes, misses, sum_map_succ, spare_length, List.length_take, spare_length]
  rcases Nat.lt_or_eq_of_le within with less | all
  · omega
  · rw [all, Nat.sub_eq_zero_of_le (Nat.le_succ _), List.take_zero]
    simpa using some

/-- `new_create` and `create` need no more nested calls than the path has
components exactly where the path names something, its look-up begins in a
directory and few slashes stand behind what is not there. -/
theorem new_create_shallow_iff (k : Kernel) (env : Option Node) (cwd : Node) (path : Path)
    (dir : Bool) (short : path.length ≤ Fat.FAT32_MAX_FILENAME) :
    (∃ calls ≤ (components path).length, ∃ r k',
        new_create below env (some cwd) calls path dir k = .ok (r, k')) ↔
      components path ≠ [] ∧ k.below.isDir (start env cwd path) = true ∧
        FewSlashes (found k.below (start env cwd path) (components path)) path := by
  constructor
  · rintro ⟨calls, within, r, k', run⟩
    by_cases rooted : Rooted k.below env cwd path
    · refine ⟨rooted.named, rooted.dir, (fewSlashes_iff rooted.named found_le).mpr ?_⟩
      refine Nat.lt_of_lt_of_le (Nat.lt_of_not_le fun few => ?_) within
      rw [new_create_deeper rooted short few dir] at run
      cases run
    · rw [new_create_unrooted rooted short calls dir] at run
      cases run
  · rintro ⟨named, start_dir, few⟩
    obtain ⟨r, k', run, -⟩ := new_create_returns ⟨named, start_dir⟩ short
      ((fewSlashes_iff named found_le).mp few) dir
    exact ⟨_, Nat.le_refl _, r, k', run⟩

/-- The root alone. -/
def bare : Tree where
  kind ep := if ep = [] then some .dir else none
  names _ := []
  root_dir := rfl
  parent_dir := by
    intro dp name used
    rw [if_neg (by simp)] at used
    exact absurd rfl used
  listed := by simp
  bounded := ⟨0, by
    intro ep used
    by_cases root : ep = []
    · rw [root, List.length_nil]
    · rw [if_neg root] at used
      exact absurd rfl used⟩

def bareKernel : Kernel where
  file _ := ⟨.none, 0, false, false, none, none, 0⟩
  proc _ := ⟨.unused, fun _ => none, NOFILE, fun _ => 0, some []⟩
  below := bare

/-- `a/b` in the root. -/
theorem new_create_shallow_bare : ∃ calls ≤ 2, ∃ r k',
    new_create below none (some []) calls [97, 47, 98] false bareKernel = .ok (r, k') :=
  (new_create_shallow_iff bareKernel none [] [97, 47, 98] false (by decide)).mpr
    ⟨by decide, by decide, by decide⟩

/-- The empty path never comes to an end, and `a/b////c` takes a fourth call. -/
theorem new_create_too_deep :
    (¬∃ calls r k', new_create below none (some []) calls [] false bareKernel = .ok (r, k')) ∧
    ¬∃ calls ≤ 3, ∃ r k', new_create below none (some []) calls
      [97, 47, 98, 47, 47, 47, 47, 99] false bareKernel = .ok (r, k') := by
  constructor
  · rintro ⟨calls, r, k', run⟩
    rw [new_create_unrooted (fun rooted => rooted.named rfl) (by decide) calls false] at run
    cases run
  · rintro ⟨calls, within, r, k', run⟩
    rw [new_create_deeper ⟨by decide, by decide⟩ (by decide) within false] at run
    cases run

end AvxKernel.Dirs
