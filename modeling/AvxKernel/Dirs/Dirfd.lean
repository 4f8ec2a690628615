import AvxKernel.Dirs.Calls
import AvxKernel.Dirs.Create

/-! A path that begins in the directory of a descriptor, and the same path from a
working directory. -/
namespace AvxKernel.Dirs

open Fat (formatname)
open Fs (Name AT_FDCWD dirfdAfter)
open Fd (Path argfd cstr onBelow has allocFd new_create get_parent_name)

/-- The process has another working directory. -/
def atDir (p : Nat) (d : Node) (k : Kernel) : Kernel :=
  { k with proc := Function.update k.proc p { k.proc p with cwd := some d } }

variable {p : Nat} {d c : Node}

/-! ### Opening -/

@[simp] theorem atDir_cwd (k : Kernel) : ((atDir p d k).proc p).cwd = some d := by
  simp [atDir]

theorem atDir_proc (k : Kernel) (g : Fd.Proc Node → Fd.Proc Node)
    (apart : ∀ pr, g { pr with cwd := some d } = { g pr with cwd := some d }) :
    Function.update (atDir p d k).proc p (g ((atDir p d k).proc p)) =
      (atDir p d { k with proc := Function.update k.proc p (g (k.proc p)) }).proc := by
  funext q
  by_cases same : q = p
  · subst same
    simp [atDir, apart]
  · simp [atDir, same]

theorem onBelow_blind {α : Type} (x : Machine Tree α) :
    Machine.Blind (atDir p d) (onBelow x : Call α) :=
  Machine.Blind.zoom x (fun _ => rfl) fun _ _ => rfl

theorem setFile_blind (f : Nat) (g : Fd.File Node Empty → Fd.File Node Empty) :
    Machine.Blind (atDir p d) (Fd.setFile f g : Call Unit) :=
  Machine.Blind.modify fun _ => rfl

theorem setProc_blind (g : Fd.Proc Node → Fd.Proc Node)
    (apart : ∀ pr, g { pr with cwd := some d } = { g pr with cwd := some d }) :
    Machine.Blind (atDir p d) (Fd.setProc p g : Call Unit) :=
  Machine.Blind.modify fun k => congrArg (fun proc => { k with proc }) (atDir_proc k g apart)

theorem filealloc_blind : Machine.Blind (atDir p d) (Fd.filealloc : Call (Option Nat)) := by
  refine Machine.Blind.get_bind (fun _ => rfl) fun k => ?_
  split
  · exact Machine.Blind.pure _
  · exact Machine.Blind.bind (setFile_blind _ _) fun _ => Machine.Blind.pure _

theorem fdalloc_blind (f : Nat) :
    Machine.Blind (atDir p d) (Fd.fdalloc p f : Call (Option Nat)) := by
  refine Machine.Blind.get_bind (fun k => ?_) fun k => ?_
  · have limit : ((atDir p d k).proc p).limit = (k.proc p).limit := by
      simp [atDir, Fd.Proc.limit]
    have ofile : ((atDir p d k).proc p).ofile = (k.proc p).ofile := by
      simp [atDir]
    simp only [limit, ofile]
  · dsimp only
    split
    · exact Machine.Blind.pure _
    · exact Machine.Blind.ite (Machine.Blind.pure _)
        (Machine.Blind.bind (setProc_blind _ fun _ => rfl) fun _ => Machine.Blind.pure _)

theorem fileclose_blind (f : Nat) :
    Machine.Blind (atDir p d) (Fd.fileclose below f : Call Unit) := by
  refine Machine.Blind.get_bind (fun _ => rfl) fun k => ?_
  refine Machine.Blind.ite (Machine.Blind.halt _) (Machine.Blind.ite (setFile_blind _ _) ?_)
  refine Machine.Blind.bind (setFile_blind _ _) fun _ => ?_
  unfold Fd.release
  split
  · exact onBelow_blind _
  · exact onBelow_blind _
  · exact Machine.Blind.halt _
  · exact Machine.Blind.halt _
  · exact Machine.Blind.pure _

theorem allocFd_blind :
    Machine.Blind (atDir p d) (allocFd below p : Call (Option (Nat × Nat))) := by
  refine Machine.Blind.bind filealloc_blind fun f => ?_
  cases f with
  | none => exact Machine.Blind.pure _
  | some f =>
    refine Machine.Blind.bind (fdalloc_blind f) fun fd => ?_
    cases fd with
    | none => exact Machine.Blind.bind (fileclose_blind f) fun _ => Machine.Blind.pure _
    | some fd => exact Machine.Blind.pure _

theorem isDir_blind (ep : Node) : Machine.Blind (atDir p d) (Fd.isDir below ep : Call Bool) :=
  Machine.Blind.get_bind (fun _ => rfl) fun _ => Machine.Blind.pure _

/-- A look-up of a path that is not empty depends on where it begins. -/
theorem new_lookup_path_congr {env env' : Option Node} {path : Path} (named : path ≠ [])
    (same : start env c path = start env' d path) (parent : Bool) :
    new_lookup_path env (some c) path parent = new_lookup_path env' (some d) path parent := by
  funext t
  rw [new_lookup_path_run parent named, new_lookup_path_run parent named, same]

theorem new_ename_congr {env env' : Option Node} {path : Path} (named : path ≠ [])
    (same : start env c path = start env' d path) :
    new_ename env (some c) path = new_ename env' (some d) path := by
  rw [new_ename, new_ename, new_lookup_path_congr named same]

/-- The directory of a descriptor takes the place of the working directory. -/
theorem start_env (path : Path) : start (some d) c path = start none d path := rfl

theorem new_create_env (calls : Nat) :
    new_create below (some d) (some c) calls = new_create below none (some d) calls := by
  induction calls with
  | zero =>
    funext path dir
    rfl
  | succ calls ih =>
    funext path dir
    by_cases named : path = []
    · subst named
      have unrooted : ∀ (k : Kernel) (env : Option Node) (cwd : Node), ¬Rooted k.below env cwd [] :=
        fun _ _ _ rooted => rooted.named rfl
      funext k
      rw [new_create_unrooted (unrooted _ _ _) (Nat.zero_le _),
        new_create_unrooted (unrooted _ _ _) (Nat.zero_le _)]
    · have look : below.new_enameparent (some d) (some c) path =
          below.new_enameparent none (some d) path := new_lookup_path_congr (c := c) named (start_env path) true
      rw [new_create, new_create, look, ih]

theorem openatLookup_env (calls : Nat) {path : Path} (named : path ≠ []) (flags : UInt32) :
    Fd.openatLookup below calls (some d) (some c) path flags =
      Fd.openatLookup below calls none (some d) path flags := by
  have look : below.new_ename (some d) (some c) path = below.new_ename none (some d) path :=
    new_ename_congr named (start_env path)
  rw [Fd.openatLookup, Fd.openatLookup, look, new_create_env]

theorem new_create_blind (env cwd : Option Node) (calls : Nat) (path : Path) (dir : Bool) :
    Machine.Blind (atDir p d) (new_create below env cwd calls path dir) := by
  induction calls generalizing path dir with
  | zero => exact Machine.Blind.halt _
  | succ calls ih =>
    rw [new_create]
    refine Machine.Blind.bind (onBelow_blind _) fun look => ?_
    obtain ⟨found, name⟩ := look
    refine Machine.Blind.bind ?_ fun parent => ?_
    · cases found with
      | none => exact Machine.Blind.bind (ih _ _) fun _ => Machine.Blind.pure _
      | some dp => exact Machine.Blind.bind (onBelow_blind _) fun _ => Machine.Blind.pure _
    · obtain ⟨parent, name⟩ := parent
      cases parent with
      | none => exact Machine.Blind.pure _
      | some dp =>
        refine Machine.Blind.bind (onBelow_blind _) fun ep => ?_
        cases ep with
        | none =>
          refine Machine.Blind.bind (onBelow_blind _) fun _ => ?_
          exact Machine.Blind.bind (onBelow_blind _) fun _ => Machine.Blind.pure _
        | some ep =>
          refine Machine.Blind.bind (isDir_blind ep) fun _ => ?_
          refine Machine.Blind.ite ?_ ?_
          · refine Machine.Blind.bind (onBelow_blind _) fun _ => ?_
            refine Machine.Blind.bind (onBelow_blind _) fun _ => ?_
            exact Machine.Blind.bind (onBelow_blind _) fun _ => Machine.Blind.pure _
          · refine Machine.Blind.bind (onBelow_blind _) fun _ => ?_
            refine Machine.Blind.bind (onBelow_blind _) fun _ => ?_
            exact Machine.Blind.bind (onBelow_blind _) fun _ => Machine.Blind.pure _

theorem openatLookup_blind (calls : Nat) (dp cwd : Option Node) (path : Path) (flags : UInt32) :
    Machine.Blind (atDir p d) (Fd.openatLookup below calls dp cwd path flags) := by
  refine Machine.Blind.bind (onBelow_blind _) fun found => ?_
  refine Machine.Blind.bind ?_ fun ep => ?_
  · cases found with
    | some ep => exact Machine.Blind.bind (onBelow_blind _) fun _ => Machine.Blind.pure _
    | none => exact Machine.Blind.ite (new_create_blind _ _ _ _ _) (Machine.Blind.pure _)
  · cases ep with
    | none => exact Machine.Blind.pure _
    | some ep =>
      refine Machine.Blind.bind (isDir_blind ep) fun _ => Machine.Blind.ite ?_ (Machine.Blind.pure _)
      refine Machine.Blind.bind (onBelow_blind _) fun _ => ?_
      exact Machine.Blind.bind (onBelow_blind _) fun _ => Machine.Blind.pure _

theorem openEntry_blind (f : Nat) (ep : Node) (flags : UInt32) :
    Machine.Blind (atDir p d) (Fd.openEntry below f ep flags) := by
  refine Machine.Blind.bind (isDir_blind ep) fun _ => ?_
  have file : Machine.Blind (atDir p d) (do
      let k ← get
      Fd.setFile f fun file => { file with
        type := .entry
        off := if has flags Fd.O_APPEND then below.file_size k.below ep else 0
        ep := some ep
        readable := !has flags Fd.O_WRONLY
        writable := has flags Fd.O_WRONLY || has flags Fd.O_RDWR }
      onBelow (below.eunlock ep) : Call Unit) :=
    Machine.Blind.get_bind (fun _ => rfl) fun k =>
      Machine.Blind.bind (setFile_blind _ _) fun _ => onBelow_blind _
  exact Machine.Blind.ite (Machine.Blind.bind (onBelow_blind _) fun _ => file) file

/-- What `sys_openat` does with the entry. The directory is only locked and
unlocked again. -/
def openatEnd (p : Nat) (path : Path) (flags : UInt32) (ep : Option Node) : Call Int := do
  match ep with
  | none => return -1
  | some ep =>
    match ← allocFd below p with
    | none =>
      onBelow (below.eunlock ep)
      onBelow (below.eput ep)
      return -24
    | some (f, fd) =>
      Fd.openEntry below f ep flags
      Fd.setProc p fun pr => { pr with exec_close := Function.update pr.exec_close fd 0 }
      (if (cstr "/dev/zero").isPrefixOf path then onBelow (below.setZero ep) else pure ())
      return fd

theorem openatEnd_blind (path : Path) (flags : UInt32) (ep : Option Node) :
    Machine.Blind (atDir p d) (openatEnd p path flags ep) := by
  cases ep with
  | none => exact Machine.Blind.pure _
  | some ep =>
    refine Machine.Blind.bind allocFd_blind fun new => ?_
    cases new with
    | none =>
      refine Machine.Blind.bind (onBelow_blind _) fun _ => ?_
      exact Machine.Blind.bind (onBelow_blind _) fun _ => Machine.Blind.pure _
    | some new =>
      refine Machine.Blind.bind (openEntry_blind _ ep flags) fun _ => ?_
      refine Machine.Blind.bind (setProc_blind _ fun _ => rfl) fun _ => ?_
      refine Machine.Blind.bind ?_ fun _ => Machine.Blind.pure _
      exact Machine.Blind.ite (onBelow_blind _) (Machine.Blind.pure _)

/-- The descriptor of a directory. -/
structure Dirfd (k : Kernel) (p : Nat) (dirfd : Int) (d : Node) : Prop where
  file : ∃ f, argfd p true dirfd k = .ok (some f, k) ∧ (k.file f).type = .entry ∧
    (k.file f).ep = some d
  dir : k.below.isDir d = true

theorem argfd_cwd (k : Kernel) : argfd p true AT_FDCWD k = .ok (none, k) := rfl

variable {k : Kernel} {dirfd : Int} {path : Path}

theorem openatDir_dirfd {f : Nat} (type : (k.file f).type = .entry) (ep : (k.file f).ep = some d)
    (dir : k.below.isDir d = true) : Fd.openatDir below (some f) k = .ok (some d, k) := by
  have is_dir : Fd.isDir below d k = .ok (true, k) := by
    rw [← dir, ← attr_dir]
    rfl
  refine (Machine.bind_of_ok (Machine.get_run k)).trans ?_
  cases file : k.file f with
  | mk type' ref readable writable pipe ep' off =>
    rw [file] at type ep
    cases type
    cases ep
    simp only [Option.map_some, file]
    rw [Machine.bind_of_ok is_dir]
    rfl

theorem sys_openat_run {calls : Nat} {flags : UInt32} {dirf : Option Nat} {dp : Option Node}
    (fd : argfd p true dirfd k = .ok (dirf, k)) (dir : Fd.openatDir below dirf k = .ok (dp, k))
    (plain : ¬(cstr "/dev/null").isPrefixOf path) :
    Fd.sys_openat below calls p dirfd path flags k = (do
      let ep ← Fd.openatLookup below calls dp (k.proc p).cwd path (flags ||| Fd.O_RDWR)
      openatEnd p path (flags ||| Fd.O_RDWR) ep) k := by
  rw [Fd.sys_openat, Machine.bind_of_ok fd, if_neg plain]
  dsimp only
  rw [Machine.bind_of_ok dir, Machine.bind_of_ok (Machine.get_run k)]
  refine congrFun (congrArg (Fd.openatLookup below calls dp _ path _ >>= ·) ?_) k
  funext ep
  cases ep with
  | none => rfl
  | some ep =>
    refine congrArg (allocFd below p >>= ·) ?_
    funext new
    cases new with
    | none => rfl
    | some new =>
      have locked : (dp.forM fun dp => onBelow (below.elock dp) : Call Unit) = pure () := by
        cases dp <;> rfl
      have unlocked : (dp.forM fun dp => onBelow (below.eunlock dp) : Call Unit) = pure () := by
        cases dp <;> rfl
      simp only [locked, unlocked, pure_bind]
      refine congrArg (Fd.openEntry below new.1 ep _ >>= ·) (funext fun _ => ?_)
      refine congrArg (Fd.setProc p _ >>= ·) (funext fun _ => ?_)
      split
      · rfl
      · rfl

/-- `sys_openat` with a directory's descriptor, and from that directory. -/
theorem sys_openat_dirfd (dirfd_dir : Dirfd k p dirfd d) (cwd : (k.proc p).cwd = some c)
    (named : path ≠ []) (calls : Nat) (flags : UInt32) :
    Fd.sys_openat below calls p AT_FDCWD path flags (atDir p d k) =
      (Fd.sys_openat below calls p dirfd path flags k).map fun r => (r.1, atDir p d r.2) := by
  obtain ⟨f, fd, type, ep⟩ := dirfd_dir.file
  have fdcwd := argfd_cwd (p := p) (atDir p d k)
  by_cases null : (cstr "/dev/null").isPrefixOf path
  · rw [Fd.sys_openat, Fd.sys_openat, Machine.bind_of_ok fd, Machine.bind_of_ok fdcwd, if_pos null,
      if_pos null]
    refine Machine.Blind.bind allocFd_blind (fun new => ?_) k
    cases new with
    | none => exact Machine.Blind.pure _
    | some new => exact Machine.Blind.bind (setFile_blind _ _) fun _ => Machine.Blind.pure _
  · rw [sys_openat_run fd (openatDir_dirfd type ep dirfd_dir.dir) null,
      sys_openat_run fdcwd rfl null, cwd, atDir_cwd, openatLookup_env calls named]
    exact Machine.Blind.bind (openatLookup_blind _ _ _ _ _) (openatEnd_blind path _) k

/-! ### Looking at entries -/

theorem sys_fstatat_dirfd (dirfd_dir : Dirfd k p dirfd d) (cwd : (k.proc p).cwd = some c)
    (named : path ≠ []) (copied : Option Node → Bool) (dirfd₀ dirfd₁ : Int) :
    sys_fstatat copied p AT_FDCWD dirfd₁ path (atDir p d k) =
      (sys_fstatat copied p dirfd dirfd₀ path k).map fun r => (r.1, atDir p d r.2) := by
  obtain ⟨f, fd, type, ep⟩ := dirfd_dir.file
  have fdcwd := argfd_cwd (p := p) (atDir p d k)
  rw [sys_fstatat, sys_fstatat, Machine.bind_of_ok fd, Machine.bind_of_ok fdcwd,
    Machine.bind_of_ok (Machine.get_run _), Machine.bind_of_ok (Machine.get_run _)]
  have accepted : ¬((none : Option Nat) = none ∧ dirfdAfter AT_FDCWD dirfd₁ none ≠ AT_FDCWD) := by
    simp [dirfdAfter]
  have accepted' : ¬(some f = none ∧ dirfdAfter dirfd dirfd₀ (some f) ≠ AT_FDCWD) := by
    simp
  rw [if_neg accepted, if_neg accepted']
  simp only [Option.bind_none, Option.any_none, Option.bind_some, ep, Option.any_some,
    dirfd_dir.dir, Bool.not_true, Bool.false_eq_true, if_false, cwd, atDir_cwd]
  rw [new_ename_congr named (start_env path)]
  exact Machine.Blind.bind (onBelow_blind _)
    (fun ep => Machine.Blind.ite (Machine.Blind.pure _) (Machine.Blind.pure _)) k

theorem sys_faccessat_dirfd (dirfd_dir : Dirfd k p dirfd d) (cwd : (k.proc p).cwd = some c)
    (named : path ≠ []) (dirfd₀ dirfd₁ : Int) (mode : Nat) :
    sys_faccessat p AT_FDCWD dirfd₁ path mode (atDir p d k) =
      (sys_faccessat p dirfd dirfd₀ path mode k).map fun r => (r.1, atDir p d r.2) := by
  obtain ⟨f, fd, type, ep⟩ := dirfd_dir.file
  have fdcwd := argfd_cwd (p := p) (atDir p d k)
  rw [sys_faccessat, sys_faccessat, Machine.bind_of_ok fd, Machine.bind_of_ok fdcwd,
    Machine.bind_of_ok (Machine.get_run _), Machine.bind_of_ok (Machine.get_run _)]
  have accepted : ¬((none : Option Nat) = none ∧ dirfdAfter AT_FDCWD dirfd₁ none ≠ AT_FDCWD) := by
    simp [dirfdAfter]
  have accepted' : ¬(some f = none ∧ dirfdAfter dirfd dirfd₀ (some f) ≠ AT_FDCWD) := by
    simp
  rw [if_neg accepted, if_neg accepted']
  simp only [Option.bind_some, ep, cwd, atDir_cwd, reduceCtorEq, if_false, if_true]
  have look : new_ename (if path.head? = some 47 then none else some d) (some d) path =
      new_ename (if path.head? = some 47 then none else some d) (some c) path := by
    refine new_ename_congr named ?_
    by_cases slash : path.head? = some 47
    · rw [start, start, if_pos slash, if_pos slash]
    · rw [if_neg slash, start, start, if_neg slash, if_neg slash]
      rfl
  rw [look]
  refine Machine.Blind.bind (onBelow_blind _) (fun ep => ?_) k
  cases ep with
  | none => exact Machine.Blind.pure _
  | some ep =>
    exact Machine.Blind.ite (Machine.Blind.pure _)
      (Machine.Blind.ite (Machine.Blind.pure _) (Machine.Blind.pure _))

/-! ### Renaming -/

/-- What an entry can go over: nothing, or an empty directory for a directory. -/
def replaceable (t : Tree) (src dst : Node) : Bool :=
  (t.kind dst).isNone || (src ≠ dst && (t.isDir src && t.isDir dst) && isdirempty t dst)

/-- The source, the directory and the new name of a renaming from a working
directory; where it is refused, what `srclock` holds by then. -/
def renameChecks (srclock : Bool) (t : Tree) (cwd : Node) (old new : Path) :
    Except Bool (Node × Node × Name) :=
  match walk t (start none cwd old) (elems old) with
  | none => .error srclock
  | some src =>
    match descend t (start none cwd new) (elems new).dropLast,
        (elems new).getLast?.bind formatname with
    | some pdst, some name =>
      if src <+: pdst then .error srclock
      else if replaceable t src (pdst ++ [name]) then .ok (src, pdst, name)
      else .error false
    | _, _ => .error srclock

variable {t : Tree} {src pdst : Node} {name : Name}

theorem renameLocked_run {last : Name} (legal : formatname last = some name) :
    renameLocked src pdst name t =
      if replaceable t src (pdst ++ [name]) then renameMove src pdst name t else .ok (-1, t) := by
  refine (Machine.bind_of_ok (Machine.get_run t)).trans ?_
  rw [dirlookup_formatted legal, replaceable]
  cases there : t.kind (pdst ++ [name]) with
  | none => rfl
  | some kind =>
    simp only [Option.isSome_some, if_true, Option.isNone_some, Bool.false_or]
    by_cases same : src = pdst ++ [name]
    · simp [same]
    · by_cases dirs : (t.isDir src && t.isDir (pdst ++ [name])) = true
      · cases isdirempty t (pdst ++ [name]) <;> simp [same, dirs]
      · rw [Bool.not_eq_true] at dirs
        simp [same, dirs]

theorem rename_run {olddp newdp : Option Node} {old new : Path} (srclock : Bool)
    (fromOld : start olddp c old = start none c old)
    (fromNew : start newdp c new = start none c new) (old_named : old ≠ []) :
    rename srclock olddp newdp (some c) old new t =
      match renameChecks srclock t c old new with
      | .error locked => renameFail locked t
      | .ok (src, pdst, name) => renameMove src pdst name t := by
  have look : new_ename olddp (some c) old t = _ := new_ename_run old_named
  rw [fromOld] at look
  rw [rename, Machine.bind_of_ok look, renameChecks]
  cases walk t (start none c old) (elems old) with
  | none => rfl
  | some src =>
    dsimp only
    obtain empty | ⟨front, last, split⟩ := (elems new).eq_nil_or_concat
    · rw [Machine.bind_of_ok (new_enameparent_empty (elems_eq_nil.mp empty)), empty]
      dsimp only
      cases descend t (start none c new) ([] : List Name).dropLast <;> rfl
    · rw [List.concat_eq_append] at split
      obtain ⟨last', look', same⟩ : ∃ name, new_lookup_path newdp (some c) new true t =
          .ok ((descend t (start newdp c new) front, name), t) ∧ _ :=
        new_enameparent_run split
      rw [fromNew] at look' same
      rw [Machine.bind_of_ok look', split, List.dropLast_concat, List.getLast?_concat,
        Option.bind_some]
      cases reached : descend t (start none c new) front with
      | none => rfl
      | some pdst =>
        rw [reached] at same
        rw [same rfl]
        dsimp only
        cases legal : formatname last with
        | none => rfl
        | some name =>
          dsimp only
          by_cases above : src <+: pdst
          · rw [if_pos above, if_pos above]
          · rw [if_neg above, if_neg above, renameLocked_run legal]
            split <;> rfl

theorem dirlookup_used {dp ep : Node} (dir : t.isDir dp = true)
    (there : dirlookup t dp name = some ep) : t.kind ep ≠ none := by
  have used : t.kind dp ≠ none := by
    rw [Tree.isDir_iff.mp dir]
    exact Option.some_ne_none _
  rcases dirlookup_iff.mp there with ⟨-, rfl⟩ | ⟨-, rfl⟩ | ⟨-, -, present, rfl⟩
  · exact used
  · obtain rfl | ⟨front, last, rfl⟩ := dp.eq_nil_or_concat
    · exact used
    · rw [List.concat_eq_append] at used ⊢
      rw [List.dropLast_concat]
      exact t.used_above used
  · exact present

theorem walk_used {dp ep : Node} {names : List Name} (used : t.kind dp ≠ none)
    (reached : walk t dp names = some ep) : t.kind ep ≠ none := by
  induction names generalizing dp with
  | nil =>
    cases reached
    exact used
  | cons name names ih =>
    obtain ⟨dir, next, there, reached⟩ := walk_cons_iff.mp reached
    exact ih (dirlookup_used dir there) reached

theorem start_used (dir : t.isDir c = true) (path : Path) : t.kind (start none c path) ≠ none := by
  rw [start]
  split
  · rw [t.root_dir]
    exact Option.some_ne_none _
  · change t.kind c ≠ none
    rw [Tree.isDir_iff.mp dir]
    exact Option.some_ne_none _

/-- What the checks of a renaming leave. -/
structure Renames (t : Tree) (src pdst : Node) (name : Name) : Prop where
  movable : Movable t src pdst name
  same_kind : t.kind (pdst ++ [name]) = none ∨ t.kind (pdst ++ [name]) = t.kind src

theorem renames_of_replaceable (used : t.kind src ≠ none) (dir : t.kind pdst = some .dir)
    (apart : ¬src <+: pdst) (free : replaceable t src (pdst ++ [name]) = true) :
    Renames t src pdst name := by
  rw [replaceable, Bool.or_eq_true, Option.isNone_iff_eq_none] at free
  rcases free with vacant | taken
  · refine ⟨⟨used, dir, apart, ?_, ?_⟩, .inl vacant⟩
    · rintro rfl
      exact used vacant
    · refine List.eq_nil_iff_forall_not_mem.mpr fun x listed => ?_
      have dst_dir := t.parent_dir (t.listed.mp listed)
      rw [vacant] at dst_dir
      cases dst_dir
  · simp only [Bool.and_eq_true, decide_eq_true_eq, ne_eq] at taken
    obtain ⟨⟨other, src_dir, dst_dir⟩, empty⟩ := taken
    refine ⟨⟨used, dir, apart, other, List.isEmpty_iff.mp empty⟩, .inr ?_⟩
    rw [Tree.isDir_iff.mp src_dir, Tree.isDir_iff.mp dst_dir]

theorem renameChecks_ok {srclock : Bool} {old new : Path} (dir : t.isDir c = true)
    (ok : renameChecks srclock t c old new = .ok (src, pdst, name)) : Renames t src pdst name := by
  rw [renameChecks] at ok
  cases walked : walk t (start none c old) (elems old) with
  | none =>
    rw [walked] at ok
    cases ok
  | some src' =>
    rw [walked] at ok
    dsimp only at ok
    cases reached : descend t (start none c new) (elems new).dropLast with
    | none =>
      rw [reached] at ok
      cases ok
    | some pdst' =>
      rw [reached] at ok
      cases legal : (elems new).getLast?.bind formatname with
      | none =>
        rw [legal] at ok
        cases ok
      | some name' =>
        rw [legal] at ok
        dsimp only at ok
        by_cases above : src' <+: pdst'
        · rw [if_pos above] at ok
          cases ok
        · rw [if_neg above] at ok
          by_cases free : replaceable t src' (pdst' ++ [name']) = true
          · rw [if_pos free] at ok
            cases ok
            have used := walk_used (start_used dir old) walked
            have pdst_dir := Tree.isDir_iff.mp (Option.filter_eq_some_iff.mp reached).2
            exact renames_of_replaceable used pdst_dir above free
          · rw [if_neg free] at ok
            cases ok

theorem renameMove_run (m : Movable t src pdst name) :
    renameMove src pdst name t = .ok (0, t.move src pdst name m) := by
  refine (Machine.bind_of_ok (Machine.get_run t)).trans ?_
  rw [dif_pos m]
  rfl

/-! ### Moves told apart -/

/-- An entry that leads on to one like it by the same name has no end below it. -/
theorem not_endless {rest : Node} (used : t.kind src ≠ none) (more : rest ≠ []) :
    ¬∀ below : Node, t.kind (src ++ below) = t.kind (src ++ (rest ++ below)) := by
  intro same
  have deeper : ∀ n, t.kind (src ++ (List.replicate n rest).flatten) = t.kind src := by
    intro n
    induction n with
    | zero => rw [List.replicate_zero, List.flatten_nil, List.append_nil]
    | succ n ih => rw [List.replicate_succ, List.flatten_cons, ← same, ih]
  obtain ⟨depth, deep⟩ := t.bounded
  have bound := deep (src ++ (List.replicate (depth + 1) rest).flatten) (by rwa [deeper])
  have long := List.length_pos_iff.mpr more
  rw [List.length_append, List.length_flatten, List.map_replicate, List.sum_replicate_nat] at bound
  have := Nat.mul_le_mul_left (depth + 1) long
  omega

variable {src' pdst' : Node} {name' : Name}

/-- A move empties the place that it starts from. -/
theorem Renames.src_above (r : Renames t src pdst name) (r' : Renames t src' pdst' name')
    (same : movedKind t src (pdst ++ [name]) = movedKind t src' (pdst' ++ [name'])) :
    src' <+: src := by
  have gone : movedKind t src' (pdst' ++ [name']) src = none := by
    rw [← same, movedKind_src (List.prefix_refl _) r.movable.dst_not_above]
  by_contra other
  by_cases there : pdst' ++ [name'] <+: src
  · obtain ⟨rest, rfl⟩ := there
    cases rest with
    | nil =>
      rw [List.append_nil] at gone
      have := movedKind_dst t src' (pdst' ++ [name']) []
      rw [List.append_nil, List.append_nil, gone] at this
      exact r'.movable.used this.symm
    | cons first rest =>
      exact r.movable.used (r'.movable.below_dst (List.cons_ne_nil _ _))
  · rw [movedKind_of_ne there other] at gone
    exact r.movable.used gone

/-- Moves of one entry that come to the same do not go into each other's place. -/
theorem Renames.dst_above (r : Renames t src pdst name) (r' : Renames t src pdst' name')
    (same : movedKind t src (pdst ++ [name]) = movedKind t src (pdst' ++ [name']))
    (above : pdst' ++ [name'] <+: pdst ++ [name]) : pdst' ++ [name'] = pdst ++ [name] := by
  refine (prefix_below.mp above).resolve_right ?_
  rintro ⟨rest, inside⟩
  cases rest with
  | nil =>
    rw [List.append_nil] at inside
    refine not_endless r.movable.used (List.cons_ne_nil name []) fun below => ?_
    have here := congrFun same (pdst ++ [name] ++ below)
    rw [movedKind_dst, ← inside, List.append_assoc _ [name], movedKind_dst] at here
    exact here
  | cons first rest =>
    have dir := r.movable.dir
    rw [← inside, r'.movable.below_dst (List.cons_ne_nil _ _)] at dir
    cases dir

/-- Such moves to different places put one thing over others like it. -/
theorem Renames.dst_like (r : Renames t src pdst name) (r' : Renames t src pdst' name')
    (same : movedKind t src (pdst ++ [name]) = movedKind t src (pdst' ++ [name']))
    (other : pdst ++ [name] ≠ pdst' ++ [name']) :
    t.kind (pdst ++ [name]) = t.kind src ∧ t.names src = [] := by
  have above : ¬pdst' ++ [name'] <+: pdst ++ [name] := fun above =>
    other (r.dst_above r' same above).symm
  have above' : ¬pdst ++ [name] <+: pdst' ++ [name'] := fun above =>
    other (r'.dst_above r same.symm above)
  constructor
  · have here := congrFun same (pdst ++ [name] ++ [])
    rw [movedKind_dst, List.append_nil, List.append_nil,
      movedKind_of_ne above r.movable.src_not_above] at here
    exact here.symm
  · refine List.eq_nil_iff_forall_not_mem.mpr fun x listed => ?_
    have here := congrFun same (pdst ++ [name] ++ [x])
    rw [movedKind_dst, movedKind_of_ne, r.movable.below_dst (List.cons_ne_nil _ _)] at here
    · exact t.listed.mp listed here
    · intro inside
      rcases prefix_below.mp inside with same | inside
      · exact above' (same ▸ List.prefix_append _ _)
      · exact above inside
    · intro inside
      rcases prefix_below.mp inside with same | inside
      · exact r.movable.dst_not_above (same ▸ List.prefix_append _ _)
      · exact r.movable.src_not_above inside

/-- An entry with nothing below that goes over one like it is only taken away. -/
theorem Renames.over_like (r : Renames t src pdst name) (empty : t.names src = [])
    (like : t.kind (pdst ++ [name]) = t.kind src) :
    movedKind t src (pdst ++ [name]) = fun n => if src <+: n then none else t.kind n := by
  funext n
  by_cases inside : pdst ++ [name] <+: n
  · obtain ⟨rest, rfl⟩ := inside
    rw [movedKind_dst]
    cases rest with
    | nil => rw [List.append_nil, List.append_nil, if_neg r.movable.src_not_above, like]
    | cons first rest =>
      rw [t.nothing_below empty (List.cons_ne_nil _ _),
        r.movable.below_dst (List.cons_ne_nil _ _), ite_self]
  · rw [movedKind, if_neg inside]

/-- Two moves make the same tree where they are one, or where each puts the same
empty directory over an empty directory. -/
theorem moved_same_iff (r : Renames t src pdst name) (r' : Renames t src' pdst' name') :
    movedKind t src (pdst ++ [name]) = movedKind t src' (pdst' ++ [name']) ↔
      src = src' ∧ (pdst ++ [name] = pdst' ++ [name'] ∨
        t.names src = [] ∧ t.kind (pdst ++ [name]) = t.kind src ∧
          t.kind (pdst' ++ [name']) = t.kind src) := by
  constructor
  · intro same
    obtain rfl : src = src' :=
      (r'.src_above r same.symm).eq_of_length_le (r.src_above r' same).length_le
    refine ⟨rfl, or_iff_not_imp_left.mpr fun other => ?_⟩
    obtain ⟨like, empty⟩ := r.dst_like r' same other
    exact ⟨empty, like, (r'.dst_like r same.symm (Ne.symm other)).1⟩
  · rintro ⟨rfl, same | ⟨empty, like, like'⟩⟩
    · rw [same]
    · rw [r.over_like empty like, r'.over_like empty like']

/-! ### From a descriptor and from the working directory -/

/-- Two calls end alike: with the same result and the same tree, or both do not return. -/
def Alike {α : Type} : Except Halt (α × Kernel) → Except Halt (α × Kernel) → Prop
  | .ok (r, k), .ok (r', k') => r = r' ∧ k.below.kind = k'.below.kind
  | .error h, .error h' => h = h'
  | _, _ => False

theorem alike_of_map {α : Type} {x y : Except Halt (α × Kernel)}
    (same : y = x.map fun r => (r.1, atDir p d r.2)) : Alike x y := by
  subst same
  cases x with
  | error h => rfl
  | ok r => exact ⟨rfl, rfl⟩

/-- Two renamings do the same: both are refused, or one entry goes to one place, or an
empty directory over empty directories. -/
def SameRename (t : Tree) :
    Except Bool (Node × Node × Name) → Except Bool (Node × Node × Name) → Prop
  | .ok (src, pdst, name), .ok (src', pdst', name') =>
    src = src' ∧ (pdst ++ [name] = pdst' ++ [name'] ∨
      t.names src = [] ∧ t.kind (pdst ++ [name]) = t.kind src ∧
        t.kind (pdst' ++ [name']) = t.kind src)
  | .error locked, .error locked' => locked = locked'
  | _, _ => False

theorem SameRename.refl (t : Tree) (r : Except Bool (Node × Node × Name)) : SameRename t r r := by
  cases r with
  | error locked => rfl
  | ok r => exact ⟨rfl, .inl rfl⟩

/-- Absolute paths ask for the same wherever they are looked up from. -/
theorem renameChecks_absolute {old new : Path} (old_absolute : old.head? = some 47)
    (new_absolute : new.head? = some 47) (srclock : Bool) :
    renameChecks srclock t c old new = renameChecks srclock t d old new := by
  have root : ∀ {path : Path} {e : Node}, path.head? = some 47 → start none e path = [] :=
    fun absolute => if_pos absolute
  rw [renameChecks, renameChecks, root old_absolute, root old_absolute, root new_absolute,
    root new_absolute]

/-- With descriptors the paths are looked up from the working directory. -/
theorem sys_renameat2_dirfd (dirfd_dir : Dirfd k p dirfd d) (cwd : (k.proc p).cwd = some c)
    (srclock : Bool) (dirfd₀ dirfd₁ : Int) (old new : Path) :
    sys_renameat2 p srclock dirfd dirfd₀ old dirfd dirfd₁ new k =
      onBelow (rename srclock none none (some c) old new) k := by
  obtain ⟨f, fd, -, -⟩ := dirfd_dir.file
  rw [sys_renameat2, Machine.bind_of_ok (Machine.get_run k), Machine.bind_of_ok fd,
    if_neg (by simp), Machine.bind_of_ok fd, if_neg (by simp), cwd]
  rfl

theorem sys_renameat2_cwd (cwd : (k.proc p).cwd = some c) (srclock : Bool) (dirfd₀ dirfd₁ : Int)
    (old new : Path) :
    sys_renameat2 p srclock AT_FDCWD dirfd₀ old AT_FDCWD dirfd₁ new k =
      onBelow (rename srclock (some c) (some c) (some c) old new) k := by
  have fd := argfd_cwd (p := p) k
  have accepted : ∀ (path : Path) (dirfd₀ : Int), ¬((none : Option Nat) = none ∧
      path.head? ≠ some 47 ∧ dirfdAfter AT_FDCWD dirfd₀ none ≠ AT_FDCWD) := by
    intro path dirfd₀
    simp [dirfdAfter]
  rw [sys_renameat2, Machine.bind_of_ok (Machine.get_run k), Machine.bind_of_ok fd,
    if_neg (accepted old dirfd₀), Machine.bind_of_ok fd, if_neg (accepted new dirfd₁), cwd]
  rfl

section Outcome

variable {olddp newdp : Option Node} {old new : Path} {srclock : Bool}
  (fromOld : start olddp c old = start none c old) (fromNew : start newdp c new = start none c new)
  (old_named : old ≠ [])
include fromOld fromNew old_named

theorem rename_refused {locked : Bool}
    (checks : renameChecks srclock k.below c old new = .error locked) :
    onBelow (rename srclock olddp newdp (some c) old new) k =
      if locked then .error (.panic "eunlock") else .ok (-1, k) := by
  have run : rename srclock olddp newdp (some c) old new k.below = _ :=
    rename_run srclock fromOld fromNew old_named
  rw [checks] at run
  rw [onBelow, Machine.zoom, run]
  cases locked <;> rfl

theorem rename_moves (dir : k.below.isDir c = true)
    (checks : renameChecks srclock k.below c old new = .ok (src, pdst, name)) :
    ∃ m, onBelow (rename srclock olddp newdp (some c) old new) k =
      .ok (0, { k with below := k.below.move src pdst name m }) := by
  have run : rename srclock olddp newdp (some c) old new k.below = _ :=
    rename_run srclock fromOld fromNew old_named
  have m := (renameChecks_ok dir checks).movable
  rw [checks] at run
  exact ⟨m, Machine.zoom_ok.mpr ⟨_, run.trans (renameMove_run m), rfl⟩⟩

end Outcome

theorem rename_alike_iff {old new : Path} (srclock : Bool) (c_dir : k.below.isDir c = true)
    (d_dir : k.below.isDir d = true) (old_named : old ≠ []) :
    Alike (onBelow (rename srclock none none (some c) old new) k)
        (onBelow (rename srclock (some d) (some d) (some d) old new) (atDir p d k)) ↔
      SameRename k.below (renameChecks srclock k.below c old new)
        (renameChecks srclock k.below d old new) := by
  cases checks : renameChecks srclock k.below c old new with
  | error locked =>
    rw [rename_refused rfl rfl old_named checks]
    cases checks' : renameChecks srclock k.below d old new with
    | error locked' =>
      have run' : onBelow (rename srclock (some d) (some d) (some d) old new) (atDir p d k) = _ :=
        rename_refused (k := atDir p d k) (start_env old) (start_env new) old_named checks'
      rw [run']
      cases locked <;> cases locked' <;> simp [Alike, SameRename, atDir]
    | ok move' =>
      obtain ⟨src', pdst', name'⟩ := move'
      obtain ⟨m, run'⟩ : ∃ m, onBelow (rename srclock (some d) (some d) (some d) old new)
          (atDir p d k) = _ :=
        rename_moves rfl rfl old_named d_dir checks'
      rw [run']
      cases locked <;> simp [Alike, SameRename]
  | ok move =>
    obtain ⟨src, pdst, name⟩ := move
    obtain ⟨m, run⟩ : ∃ m, onBelow (rename srclock none none (some c) old new) k = _ :=
      rename_moves rfl rfl old_named c_dir checks
    rw [run]
    cases checks' : renameChecks srclock k.below d old new with
    | error locked' =>
      have run' : onBelow (rename srclock (some d) (some d) (some d) old new) (atDir p d k) = _ :=
        rename_refused (k := atDir p d k) (start_env old) (start_env new) old_named checks'
      rw [run']
      cases locked' <;> simp [Alike, SameRename]
    | ok move' =>
      obtain ⟨src', pdst', name'⟩ := move'
      obtain ⟨m', run'⟩ : ∃ m, onBelow (rename srclock (some d) (some d) (some d) old new)
          (atDir p d k) = _ :=
        rename_moves rfl rfl old_named d_dir checks'
      rw [run']
      exact (and_iff_right rfl).trans
        (moved_same_iff (renameChecks_ok c_dir checks) (renameChecks_ok d_dir checks'))

/-- A directory `a` with a file `x` in it. -/
def home : Tree := (bare.insert [] [97] .dir rfl rfl).insert [[97]] [120] .file rfl rfl

/-- The process is in the root, and its descriptor 0 is that of `a`. -/
def homeKernel : Kernel where
  file _ := ⟨.entry, 1, true, true, none, some [[97]], 0⟩
  proc _ := ⟨.live, fun _ => some 0, NOFILE, fun _ => 0, some []⟩
  below := home

theorem home_dirfd (k : Kernel) (file : k.file = homeKernel.file)
    (ofile : (k.proc 0).ofile = fun _ => some 0) (tree : k.below = home) : Dirfd k 0 0 [[97]] := by
  refine ⟨⟨0, ?_, by rw [file]; rfl, by rw [file]; rfl⟩, by rw [tree]; rfl⟩
  refine (Machine.bind_of_ok (Machine.get_run k)).trans ?_
  rw [ofile]
  rfl

end AvxKernel.Dirs
