import AvxKernel.Dirs.Create

/-! Looking up what has been created. `ealloc` makes the entry of the name that
`formatname` returns, the look-ups go by the names of the path. -/
namespace AvxKernel.Dirs

open Fat (formatname formatname_front formatname_slash)
open Fs (Name)
open Fd (Path new_create)

variable {t t' : Tree} {dp ep : Node} {names : List Name}

/-- A tree in which nothing has gone finds what was found before. -/
theorem Tree.Extends.dirlookup (more : t.Extends t') {name : Name}
    (there : dirlookup t dp name = some ep) : Dirs.dirlookup t' dp name = some ep := by
  apply dirlookup_iff.mpr
  rcases dirlookup_iff.mp there with self | parent | ⟨self, parent, used, found⟩
  · exact .inl self
  · exact .inr (.inl parent)
  · obtain ⟨kind, is⟩ := Option.ne_none_iff_exists'.mp used
    have used' : t'.kind (dp ++ [name]) ≠ none := by
      rw [more _ _ is]
      exact Option.some_ne_none _
    exact .inr (.inr ⟨self, parent, used', found⟩)

theorem Tree.Extends.walk (more : t.Extends t') (reached : walk t dp names = some ep) :
    Dirs.walk t' dp names = some ep := by
  induction names generalizing dp with
  | nil => exact reached
  | cons name names ih =>
    obtain ⟨dir, next, there, reached⟩ := walk_cons_iff.mp reached
    have dir' : t'.isDir dp = true := Tree.isDir_iff.mpr (more dp .dir (Tree.isDir_iff.mp dir))
    exact walk_cons_iff.mpr ⟨dir', next, more.dirlookup there, ih reached⟩

/-- Names that `formatname` leaves alone lead down to the entry of these names. -/
theorem walk_down (used : t.kind (dp ++ names) ≠ none)
    (plain : ∀ name ∈ names, formatname name = some name) :
    walk t dp names = some (dp ++ names) := by
  induction names generalizing dp with
  | nil => rw [walk_nil, List.append_nil]
  | cons name names ih =>
    have dir := t.dir_above used (List.cons_ne_nil _ _)
    rw [List.append_cons] at used ⊢
    have here := t.used_above used
    rw [walk_cons, if_pos (Tree.isDir_iff.mpr dir), dirlookup_formatted (plain name List.mem_cons_self),
      if_pos (Option.isSome_iff_ne_none.mpr here)]
    exact ih used fun name' member => plain name' (List.mem_cons_of_mem _ member)

theorem dirlookup_depth {name : Name} (there : dirlookup t dp name = some ep) :
    ep.length ≤ dp.length ∨ ep = dp ++ [name] := by
  rcases dirlookup_iff.mp there with ⟨-, rfl⟩ | ⟨-, rfl⟩ | ⟨-, -, -, rfl⟩
  · exact .inl (Nat.le_refl _)
  · rw [List.length_dropLast]
    exact .inl (Nat.sub_le _ _)
  · exact .inr rfl

/-- A walk goes down by one name at most with each name, and where it goes down
with each of them it has gone by these names. -/
theorem walk_depth (reached : walk t dp names = some ep) :
    ep.length ≤ dp.length + names.length ∧
      (ep.length = dp.length + names.length → ep = dp ++ names) := by
  induction names generalizing dp with
  | nil =>
    cases reached
    exact ⟨Nat.le_refl _, fun _ => (List.append_nil _).symm⟩
  | cons name names ih =>
    obtain ⟨-, next, there, reached⟩ := walk_cons_iff.mp reached
    obtain ⟨within, straight⟩ := ih reached
    rw [List.length_cons]
    rcases dirlookup_depth there with up | rfl
    · exact ⟨by omega, fun deep => by omega⟩
    · rw [List.length_append, List.length_singleton] at within straight
      constructor
      · omega
      · intro deep
        rw [List.append_cons]
        exact straight (by omega)

/-! ### What is made -/

variable {env : Option Node} {cwd : Node} {path : Path} {k k' : Kernel}

/-- The components in front of the last one that name directories. -/
def parents (t : Tree) (dp : Node) (names : List Name) : Nat :=
  min (found t dp names) (names.length - 1)

/-- From the directory that these lead to, the entry is where the names that
`formatname` makes of the other components lead. -/
structure Created (t : Tree) (dp : Node) (comps : List Name) (t' : Tree) (ep : Node) : Prop where
  place : ∃ base names, walk t dp (comps.take (parents t dp comps)) = some base ∧
    (comps.drop (parents t dp comps)).map formatname = names.map some ∧ ep = base ++ names
  kept : t.Extends t'

theorem new_create_made (short : path.length ≤ Fat.FAT32_MAX_FILENAME) {calls : Nat} {dir : Bool}
    (made : new_create below env (some cwd) calls path dir k = .ok (some ep, k')) :
    Created k.below (start env cwd path) (components path) k'.below ep ∧
      k'.below.kind ep = some (if dir then .dir else .file) := by
  have rooted : Rooted k.below env cwd path := by
    by_contra unrooted
    rw [new_create_unrooted unrooted short calls dir] at made
    cases made
  induction calls generalizing path dir ep k' with
  | zero => cases made
  | succ calls ih =>
    rcases parent_cases rooted short with ⟨front, last, dp, split, there, reached, look⟩ |
      ⟨name, look, pname, name', missed⟩
    · rw [new_create_hit calls dir look] at made
      obtain ⟨reached, dp_dir⟩ := Option.filter_eq_some_iff.mp reached
      obtain ⟨r, k'', run, spec⟩ := createIn_run (Tree.isDir_iff.mp dp_dir) dir
      obtain ⟨⟨⟩⟩ := run.symm.trans made
      have spec := spec ep rfl
      obtain ⟨name, legal, rfl⟩ := spec.place
      have parents : parents k.below (start env cwd path) (components path) = front.length := by
        rw [Dirs.parents, split, List.length_append, List.length_singleton, Nat.add_sub_cancel,
          ← split]
        exact Nat.min_eq_right there
      refine ⟨⟨⟨dp, [name], ?_, ?_, rfl⟩, spec.kept⟩, spec.kind⟩
      · rw [parents, split, List.take_left' rfl]
        exact reached
      · rw [parents, split, List.drop_left' rfl, List.map_singleton, legal, List.map_singleton]
    · rw [new_create_miss calls dir look, missed.parent] at made
      obtain ⟨r, k₁, first, second⟩ := Machine.bind_ok.mp made
      cases r with
      | none => cases second
      | some dp =>
        obtain ⟨⟨⟨base, names, reached, legal, rfl⟩, kept⟩, dp_dir⟩ :=
          ih (missed.shorter.trans short) first missed.rooted
        obtain ⟨r, k₂, run, spec⟩ := createIn_run dp_dir dir
        obtain ⟨⟨⟩⟩ := run.symm.trans second
        have spec := spec ep rfl
        obtain ⟨name'', legal', rfl⟩ := spec.place
        -- a name with a slash in it is refused
        have comps : components path = components pname ++ [name'] := by
          cases missed.cut with
          | component comps => exact comps
          | slash _ _ illegal =>
            rw [formatname_slash illegal] at legal'
            cases legal'
          | slashes _ _ _ illegal =>
            rw [formatname_slash illegal] at legal'
            cases legal'
        have missing := missed.missing
        rw [comps, List.length_append, List.length_singleton, ← comps] at missing
        have whole : parents k.below (start env cwd path) (components path) =
            found k.below (start env cwd path) (components path) := by
          refine Nat.min_eq_left ?_
          rw [comps, List.length_append, List.length_singleton, ← comps]
          omega
        have part : parents k.below (start env cwd pname) (components pname) =
            found k.below (start env cwd path) (components path) := by
          rw [parents, missed.found]
          exact Nat.min_eq_left (by omega)
        have within : found k.below (start env cwd path) (components path) ≤
            (components pname).length := by omega
        rw [part, missed.start] at reached
        rw [part] at legal
        refine ⟨⟨⟨base, names ++ [name''], ?_, ?_, (List.append_assoc _ _ _)⟩, kept.trans spec.kept⟩,
          spec.kind⟩
        · rw [whole, comps, List.take_append_of_le_length (by rwa [← comps]), ← comps]
          exact reached
        · rw [whole, comps, List.drop_append_of_le_length (by rwa [← comps]), ← comps, List.map_append,
            legal, List.map_singleton, legal', List.map_append, List.map_singleton]

/-- What has been created is found under the same path exactly where `formatname`
leaves the last component alone, and those that were not there. -/
theorem create_finds_iff (k k' : Kernel) (env : Option Node) (cwd : Node) (path : Path) (dir : Bool)
    (calls : Nat) (ep : Node) (fromCwd : env = none ∨ env = some cwd)
    (short : path.length ≤ Fat.FAT32_MAX_FILENAME)
    (made : new_create below env (some cwd) calls path dir k = .ok (some ep, k')) :
    below.new_ename none (some cwd) path k'.below = .ok (some ep, k'.below) ↔
      ∀ name ∈ (components path).drop (parents k.below (start env cwd path) (components path)),
        formatname name = some name := by
  have named : path ≠ [] := by
    rintro rfl
    rw [new_create_unrooted (fun rooted => rooted.named rfl) short calls dir] at made
    cases made
  have begin : start none cwd path = start env cwd path := by
    rcases fromCwd with rfl | rfl <;> rfl
  have look : below.new_ename none (some cwd) path k'.below = _ := new_ename_run named
  rw [elems_of_short short] at look
  obtain ⟨⟨⟨base, names, reached, legal, rfl⟩, kept⟩, kind⟩ := new_create_made short made
  generalize parents k.below (start env cwd path) (components path) = there at reached legal ⊢
  have walked : walk k'.below (start env cwd path) (components path) =
      walk k'.below base ((components path).drop there) := by
    conv_lhs => rw [← List.take_append_drop there (components path), walk_append, kept.walk reached]
    rfl
  rw [look, begin, walked]
  constructor
  · intro same
    have reached : walk k'.below base ((components path).drop there) = some (base ++ names) :=
      (Prod.mk.inj (Except.ok.inj same)).1
    have lengths := congrArg List.length legal
    rw [List.length_map, List.length_map] at lengths
    have straight := (walk_depth reached).2 (by rw [List.length_append, lengths])
    rw [← List.append_cancel_left straight] at legal ⊢
    rw [List.map_inj_left] at legal
    exact legal
  · intro plain
    have same : names = (components path).drop there := by
      refine List.map_injective_iff.mpr (Option.some_injective _) ?_
      rw [← legal]
      exact List.map_congr_left plain
    rw [← same] at plain ⊢
    rw [walk_down (by rw [kind]; exact Option.some_ne_none _) plain]

/-- `a` in the root. -/
theorem create_finds_bare : below.new_ename none (some []) [97]
    (bare.insert [] [97] .file rfl rfl) = .ok (some [[97]], bare.insert [] [97] .file rfl rfl) :=
  (create_finds_iff bareKernel { bareKernel with below := bare.insert [] [97] .file rfl rfl } none []
    [97] false 1 [[97]] (.inl rfl) (by decide) rfl).mpr (by decide)

/-- `.a` is made as `a`. -/
theorem create_hides : ∃ k', new_create below none (some []) 1 [46, 97] false bareKernel =
      .ok (some [[97]], k') ∧
    below.new_ename none (some []) [46, 97] k'.below = .ok (none, k'.below) :=
  ⟨{ bareKernel with below := bare.insert [] [97] .file rfl rfl }, rfl, rfl⟩

end AvxKernel.Dirs
