import AvxKernel.Dirs.Paths
import AvxKernel.Fs.Calls

/-! The system calls of `sysfile.c` that take a descriptor for the directory in
which a path begins, on a tree. `sys_openat` is that on the descriptors, with the
tree below it. -/
namespace AvxKernel.Dirs

open Fat (formatname)
open Fs (Name AT_FDCWD F_OK R_OK W_OK X_OK dirfdAfter)
open Fd (Path argfd cstr onBelow)

/-! ### Moving an entry -/

/-- An entry can go to a place in a directory that is not below it, where there is
nothing, or at most an empty directory. -/
structure Movable (t : Tree) (src pdst : Node) (name : Name) : Prop where
  used : t.kind src ≠ none
  dir : t.kind pdst = some .dir
  apart : ¬src <+: pdst
  other : src ≠ pdst ++ [name]
  empty : t.names (pdst ++ [name]) = []

namespace Movable

variable {t : Tree} {src pdst n : Node} {name : Name} (m : Movable t src pdst name)
include m

theorem below_dst {rest : Node} (more : rest ≠ []) : t.kind (pdst ++ [name] ++ rest) = none :=
  t.nothing_below m.empty more

theorem dst_not_above : ¬pdst ++ [name] <+: src := by
  rintro ⟨rest, rfl⟩
  cases rest with
  | nil => exact m.other (List.append_nil _)
  | cons first rest => exact m.used (m.below_dst (List.cons_ne_nil _ _))

theorem src_not_above : ¬src <+: pdst ++ [name] := by
  intro above
  rcases List.prefix_concat_iff.mp above with same | above
  · exact m.other same
  · exact m.apart above

end Movable

/-- What is where once `src` has gone to `dst`. -/
def movedKind (t : Tree) (src dst n : Node) : Option Kind :=
  if dst <+: n then t.kind (src ++ n.drop dst.length)
  else if src <+: n then none
  else t.kind n

theorem movedKind_dst (t : Tree) (src dst rest : Node) :
    movedKind t src dst (dst ++ rest) = t.kind (src ++ rest) := by
  rw [movedKind, if_pos (List.prefix_append _ _), List.drop_left' rfl]

theorem movedKind_src {t : Tree} {src dst n : Node} (below : src <+: n) (other : ¬dst <+: n) :
    movedKind t src dst n = none := by
  rw [movedKind, if_neg other, if_pos below]

theorem movedKind_of_ne {t : Tree} {src dst n : Node} (dst_above : ¬dst <+: n)
    (src_above : ¬src <+: n) : movedKind t src dst n = t.kind n := by
  rw [movedKind, if_neg dst_above, if_neg src_above]

def movedNames (t : Tree) (src pdst : Node) (name : Name) (dp : Node) : List Name :=
  if pdst ++ [name] <+: dp then t.names (src ++ dp.drop (pdst ++ [name]).length)
  else if src <+: dp then []
  else
    (if dp = pdst then [name] else []) ++
      (t.names dp).filter fun x => dp ++ [x] ≠ src ∧ dp ++ [x] ≠ pdst ++ [name]

theorem prefix_below {above dp : Node} {name : Name} :
    above <+: dp ++ [name] ↔ above = dp ++ [name] ∨ above <+: dp :=
  List.prefix_concat_iff

def Tree.move (t : Tree) (src pdst : Node) (name : Name) (m : Movable t src pdst name) : Tree where
  kind := movedKind t src (pdst ++ [name])
  names := movedNames t src pdst name
  root_dir := by
    rw [movedKind_of_ne]
    · exact t.root_dir
    · simp
    · intro above
      exact m.apart (List.prefix_nil.mp above ▸ List.nil_prefix)
  parent_dir := by
    intro dp x used
    by_cases below : pdst ++ [name] <+: dp
    · obtain ⟨rest, rfl⟩ := below
      rw [List.append_assoc, movedKind_dst, ← List.append_assoc] at used
      rw [movedKind_dst]
      exact t.parent_dir used
    · by_cases gone : src <+: dp
      · rw [movedKind_src (gone.trans (List.prefix_append _ _))] at used
        · exact absurd rfl used
        · intro above
          rcases prefix_below.mp above with same | above
          · exact m.apart ((List.append_inj' same rfl).1 ▸ gone)
          · exact below above
      · rw [movedKind_of_ne below gone]
        by_cases new : pdst ++ [name] = dp ++ [x]
        · rw [← (List.append_inj' new rfl).1]
          exact m.dir
        · have other : ¬pdst ++ [name] <+: dp ++ [x] := fun above =>
            (prefix_below.mp above).elim new below
          by_cases gone' : src <+: dp ++ [x]
          · rw [movedKind_src gone' other] at used
            exact absurd rfl used
          · rw [movedKind_of_ne other gone'] at used
            exact t.parent_dir used
  listed := by
    intro dp x
    rw [movedNames]
    by_cases below : pdst ++ [name] <+: dp
    · obtain ⟨rest, rfl⟩ := below
      rw [if_pos (List.prefix_append _ _), List.drop_left' rfl, List.append_assoc _ rest,
        movedKind_dst, ← List.append_assoc]
      exact t.listed
    · rw [if_neg below]
      by_cases gone : src <+: dp
      · rw [if_pos gone, movedKind_src (gone.trans (List.prefix_append _ _))]
        · simp
        · intro above
          rcases prefix_below.mp above with same | above
          · exact m.apart ((List.append_inj' same rfl).1 ▸ gone)
          · exact below above
      · rw [if_neg gone, List.mem_append, List.mem_filter, decide_eq_true_eq]
        by_cases new : dp ++ [x] = pdst ++ [name]
        · obtain ⟨rfl, same⟩ := List.append_inj' new rfl
          obtain rfl := List.singleton_inj.mp same
          have there : movedKind t src (dp ++ [x]) (dp ++ [x]) = t.kind src := by
            have := movedKind_dst t src (dp ++ [x]) []
            rwa [List.append_nil, List.append_nil] at this
          rw [if_pos rfl, there]
          exact iff_of_true (.inl (List.mem_singleton_self x)) m.used
        · have front : x ∉ (if dp = pdst then [name] else []) := by
            split
            · next here =>
              subst here
              intro same
              exact new (by rw [List.mem_singleton.mp same])
            · simp
          have other : ¬pdst ++ [name] <+: dp ++ [x] := fun above =>
            (prefix_below.mp above).elim (fun same => new same.symm) below
          rw [or_iff_right front]
          by_cases gone' : src <+: dp ++ [x]
          · have same : src = dp ++ [x] := (prefix_below.mp gone').resolve_right gone
            rw [movedKind_src gone' other]
            simp [same]
          · rw [movedKind_of_ne other gone', t.listed]
            have apart : dp ++ [x] ≠ src := fun same => gone' (same ▸ List.prefix_refl _)
            exact and_iff_left ⟨apart, new⟩
  bounded := by
    obtain ⟨depth, deep⟩ := t.bounded
    refine ⟨(pdst ++ [name]).length + depth, fun ep used => ?_⟩
    by_cases below : pdst ++ [name] <+: ep
    · obtain ⟨rest, rfl⟩ := below
      rw [movedKind_dst] at used
      have := deep _ used
      rw [List.length_append] at this ⊢
      omega
    · by_cases gone : src <+: ep
      · rw [movedKind_src gone below] at used
        exact absurd rfl used
      · rw [movedKind_of_ne below gone] at used
        exact (deep ep used).trans (Nat.le_add_left _ _)

/-! ### Renaming -/

theorem movable_iff {t : Tree} {src pdst : Node} {name : Name} :
    Movable t src pdst name ↔ t.kind src ≠ none ∧ t.kind pdst = some .dir ∧ ¬src <+: pdst ∧
      src ≠ pdst ++ [name] ∧ t.names (pdst ++ [name]) = [] := by
  constructor
  · intro m
    exact ⟨m.used, m.dir, m.apart, m.other, m.empty⟩
  · rintro ⟨used, dir, apart, other, empty⟩
    exact ⟨used, dir, apart, other, empty⟩

instance (t : Tree) (src pdst : Node) (name : Name) : Decidable (Movable t src pdst name) :=
  decidable_of_iff _ movable_iff.symm

def isdirempty (t : Tree) (dp : Node) : Bool := (t.names dp).isEmpty

/-- From the new name on. The checks before it leave nothing else. -/
def renameMove (src pdst : Node) (name : Name) : Machine Tree Int := do
  let t ← get
  if m : Movable t src pdst name then
    set (t.move src pdst name m)
    return 0
  else
    Machine.halt .fault

/-- The label `failure`: `eunlock` where `srclock` is set and nothing is locked. -/
def renameFail (srclock : Bool) : Machine Tree Int :=
  if srclock then Machine.panic "eunlock" else return -1

/-- With the look-ups done, and the source and the directory locked. -/
def renameLocked (src pdst : Node) (name : Name) : Machine Tree Int := do
  let t ← get
  match dirlookup t pdst name with
  | none => renameMove src pdst name
  | some dst =>
    if src = dst then
      return -1
    else if (t.isDir src && t.isDir dst) = true then
      if isdirempty t dst = false then
        return -1
      else
        renameMove src pdst name
    else
      return -1

/-- A renaming, with what the local `srclock` holds at first. -/
def rename (srclock : Bool) (olddp newdp cwd : Option Node) (old new : Path) :
    Machine Tree Int := do
  match ← new_ename olddp cwd old with
  | none => renameFail srclock
  | some src =>
    match ← new_lookup_path newdp cwd new true with
    | (none, _) => renameFail srclock
    | (some pdst, name) =>
      match formatname name with
      | none => renameFail srclock
      | some name =>
        if src <+: pdst then
          renameFail srclock
        else
          renameLocked src pdst name

/-! ### The calls -/

/-- The result, and the entry whose `struct kstat` is copied out: for a path that begins
with "/dev/null" there may be a `struct kstat` of no entry. -/
def sys_fstatat (copied : Option Node → Bool) (p : Nat) (dirfd dirfd₀ : Int) (path : Path) :
    Call (Int × Option (Option Node)) := do
  let fp ← argfd p true dirfd
  let k ← get
  if fp = none ∧ dirfdAfter dirfd dirfd₀ fp ≠ AT_FDCWD then
    return (-24, none)
  else
    let dp := fp.bind fun f => (k.file f).ep
    if dp.any fun dp => !k.below.isDir dp then
      return (-1, none)
    else
      let ep ← onBelow (new_ename dp (k.proc p).cwd path)
      if ep = none ∧ (cstr "/dev/null").isPrefixOf path = false then
        return (-2, none)
      else
        return (if copied ep then 0 else -1, some ep)

def sys_faccessat (p : Nat) (dirfd dirfd₀ : Int) (path : Path) (mode : Nat) : Call Int := do
  let fp ← argfd p true dirfd
  let k ← get
  if fp = none ∧ dirfdAfter dirfd dirfd₀ fp ≠ AT_FDCWD then
    return -24
  else
    let dp :=
      if path.head? = some 47 then none
      else if fp = none then (k.proc p).cwd
      else fp.bind fun f => (k.file f).ep
    match ← onBelow (new_ename dp (k.proc p).cwd path) with
    | none => return -1
    | some _ =>
      if mode = F_OK then
        return 0
      else if (R_OK ||| W_OK ||| X_OK) &&& mode ≠ mode then
        return -1
      else
        return 0

/-- The directory descriptors only matter where they are no descriptors. Open files
and working directories go with an entry that moves; what the kernel remembers of
them is not changed here. -/
def sys_renameat2 (p : Nat) (srclock : Bool) (olddirfd olddirfd₀ : Int) (old : Path)
    (newdirfd newdirfd₀ : Int) (new : Path) : Call Int := do
  let k ← get
  let cwd := (k.proc p).cwd
  let oldfp ← argfd p true olddirfd
  if oldfp = none ∧ old.head? ≠ some 47 ∧ dirfdAfter olddirfd olddirfd₀ oldfp ≠ AT_FDCWD then
    return -9
  else
    let newfp ← argfd p true newdirfd
    if newfp = none ∧ new.head? ≠ some 47 ∧ dirfdAfter newdirfd newdirfd₀ newfp ≠ AT_FDCWD then
      return -9
    else
      let olddp := if oldfp = none then cwd else none
      let newdp := if newfp = none then cwd else none
      onBelow (rename srclock olddp newdp cwd old new)

end AvxKernel.Dirs
