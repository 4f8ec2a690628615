import AvxKernel.Fd.Counts
import AvxKernel.Fs.References

/-! Runs of complete calls from the state after booting, and the count of
references in the states that they reach. -/
namespace AvxKernel.Fs

open Fd (Path cstr)

variable {δ : Type} {k k' : Kernel δ} {T : Nat → Nat} {H : Nat → Option Nat} {n p limit : Nat}
  {w : World δ}

/-! ### The count -/

/-- The open files of an entry. -/
def openFiles (k : Kernel δ) (d : Nat) : Nat :=
  ((Finset.range Fd.NFILE).filter fun f =>
    0 < (k.file f).ref ∧ (k.file f).type = .entry ∧ (k.file f).ep = some d).card

/-- The live processes whose working directory is an entry. -/
def workingIn (k : Kernel δ) (d : Nat) : Nat :=
  ((Finset.range NPROC).filter fun q => (k.proc q).state = .live ∧ (k.proc q).cwd = some d).card

/-- The entries in use whose parent is an entry. -/
def usedChildren (s : Ecache δ) (d : Nat) : Nat :=
  (slots.filter fun c => 0 < (s.ent c).ref ∧ (s.ent c).parent = some d).card

def Counted (k : Kernel δ) : Prop := ∀ d ∈ slots,
  (k.below.state.ent d).ref = openFiles k d + workingIn k d + usedChildren k.below.state d

theorem Ledger.files_eq (h : Ledger k T H n) (d : Nat) : files k d = openFiles k d := by
  unfold files refs openFiles
  congr 1
  refine Finset.filter_congr fun f _ => ?_
  dsimp only [entryOf]
  constructor
  · intro points
    split at points
    · exact ⟨(h.file f ‹_›).2.1, ‹_›, points⟩
    · cases points
  · rintro ⟨-, isEntry, points⟩
    rw [if_pos isEntry, points]

theorem Ledger.cwds_eq (h : Ledger k T H n) (d : Nat) : cwds k d = workingIn k d := by
  unfold cwds refs workingIn
  congr 1
  refine Finset.filter_congr fun q _ => ?_
  exact ⟨fun points => ⟨(h.cwd q d points).2, points⟩, fun working => working.2⟩

theorem Ledger.children_eq (h : Ledger k T H n) (d : Nat) :
    k.below.state.children d = usedChildren k.below.state d := by
  unfold Ecache.children refs usedChildren
  congr 1
  refine Finset.filter_congr fun c _ => ?_
  dsimp only [Dirent.link]
  constructor
  · intro points
    split at points
    · rename_i used
      exact ⟨used.1, points⟩
    · cases points
  · rintro ⟨used, points⟩
    rw [if_pos ⟨used, h.owes.valid used⟩, points]

/-- What is held beside the count. -/
theorem Ledger.ref_eq (h : Ledger k T H n) (d : Nat) : (k.below.state.ent d).ref =
    openFiles k d + workingIn k d + usedChildren k.below.state d + T d := by
  have count := h.owes.count d
  rw [count, h.children_eq, ← h.files_eq, ← h.cwds_eq]
  simp only [Pi.add_apply]
  push_cast
  omega

theorem Ledger.counted (h : Ledger k 0 H n) : Counted k := by
  intro d _
  have := h.ref_eq d
  simpa using this

theorem Ledger.not_counted {e : Nat} (h : Ledger k (one e) H n) : ¬Counted k := by
  intro counted
  have inside : e ∈ slots := h.owes.inside e (h.pos (by simp))
  have count := counted e inside
  rw [h.ref_eq e, one_self] at count
  omega

/-! ### Calls -/

inductive Syscall where
  | openat (dirfd : Int) (path : Path) (flags : UInt32)
  | open (path : Path) (omode : UInt32)
  | close (fd : Int)
  | dup (fd : Int)
  | pipe (fdarray : Nat)
  | chdir (path : Path)
  | mkdir (path : Path)
  | unlinkat (path : Path)
  | remove (path : Path)
  | rename (offset : Nat) (old new : Path)
  | fstatat (dirfd dirfd₀ : Int) (path : Path) (st : Nat)
  | faccessat (dirfd dirfd₀ : Int) (path : Path) (mode : Nat)
  | exec (path : Path)
  | fork
  | exit

def Syscall.run (w : World δ) (limit p : Nat) : Syscall → Call δ Unit
  | .openat dirfd path flags => Fd.ignore (Fd.sys_openat (below limit w p) limit p dirfd path flags)
  | .open path omode => Fd.ignore (Fd.open (below limit w p) limit p path omode)
  | .close fd => Fd.ignore (Fd.sys_close (below limit w p) p fd)
  | .dup fd => Fd.ignore (Fd.sys_dup p fd)
  | .pipe fdarray => Fd.ignore (Fd.sys_pipe (below limit w p) p fdarray)
  | .chdir path => Fd.ignore (sys_chdir limit w p path)
  | .mkdir path => Fd.ignore (sys_mkdir limit w p path)
  | .unlinkat path => Fd.ignore (fromCwd p fun cwd => sys_unlinkat w.toDisk limit cwd path)
  | .remove path => Fd.ignore (fromCwd p fun cwd => sys_remove w.toDisk limit cwd path)
  | .rename offset old new =>
    Fd.ignore (fromCwd p fun cwd => sys_rename w.toDisk limit offset cwd old new)
  | .fstatat dirfd dirfd₀ path st => Fd.ignore (sys_fstatat limit w p dirfd dirfd₀ path st)
  | .faccessat dirfd dirfd₀ path mode => Fd.ignore (sys_faccessat limit w p dirfd dirfd₀ path mode)
  | .exec path => Fd.ignore (Fs.exec limit w 0 p path)
  | .fork => Fd.ignore (Fd.fork (below limit w p) p)
  | .exit => Fd.exit (below limit w p) 0 p

/-- A complete call of a process; the first process is `initproc`. -/
structure Completes (w : World δ) (limit p : Nat) (c : Syscall) (k k' : Kernel δ) : Prop where
  place : p < NPROC
  live : (k.proc p).state = .live
  run : c.run w limit p k = .ok ((), k')

/-- The call keeps the reference of no look-up. A relative look-up does not start in
a file that only its slot's earlier use makes look like a directory. -/
def Syscall.Spares (w : World δ) (limit : Nat) (k : Kernel δ) (p : Nat) : Syscall → Prop
  | .unlinkat path => endsInDot path = false → (cstr "/tmp/testsuite-").isPrefixOf path = true →
      Unresolved w.toDisk limit k p none path
  | .fstatat dirfd dirfd₀ path _ => fstatatLooks k p dirfd dirfd₀ →
      (path.head? ≠ some 47 → ¬stale k p dirfd) ∧
      ((cstr "/dev/null").isPrefixOf path = true →
        Unresolved w.toDisk limit k p (slotEntry k p dirfd) path)
  | .faccessat dirfd dirfd₀ path _ => dirfdPasses k p dirfd dirfd₀ →
      (path.head? ≠ some 47 → ¬stale k p dirfd) ∧
      Unresolved w.toDisk limit k p (faccessatDir k p dirfd path) path
  | _ => True

theorem ends_ignore {α : Type} {x : Call δ α} {may : Halt → Prop} {Q : Kernel δ → Prop}
    (h : Machine.Ends may x k fun _ k' => Q k') : Machine.Ends may (Fd.ignore x) k fun _ k' => Q k' :=
  Machine.Ends.bind h fun _ _ hq => Machine.Ends.pure hq

/-- A regular file as the directory of `sys_openat` is unlocked, though nobody has
locked it. -/
theorem sys_openat_panics {rounds : Nat} {dirfd : Int} {path : Path} {flags : UInt32}
    (unlocked : ∀ e, k.below.holder e ≠ some p)
    (proper : (cstr "/dev/null").isPrefixOf path = false)
    (plain : notDirectory k (fileOf k p dirfd)) :
    Fd.sys_openat (below limit w p) rounds p dirfd path flags k = .error (.panic "eunlock") := by
  obtain ⟨f, ep, found, isEntry, points, attr⟩ := plain
  have start : Fd.argfd p true dirfd k = .ok (fileOf k p dirfd, k) := argfd_ok
  unfold Fd.sys_openat
  rw [Machine.bind_of_ok start, proper, found]
  refine Machine.bind_of_error (Machine.Ends.stops (Machine.Ends.get_bind ?_))
  cases file : k.file f with
  | mk type ref readable writable pipe points' off =>
    rw [file] at isEntry points
    cases isEntry
    cases points
    rw [Option.map_some, file]
    refine Machine.Ends.bind isDir_ends ?_
    rintro isDir _ ⟨rfl, rfl⟩
    rw [if_pos attr]
    refine Machine.Ends.bind (R := fun _ _ => False) ?_ fun _ _ => False.elim
    exact Machine.Ends.zoom (eunlock_panics (unlocked ep))

/-! ### Runs -/

def noLocks : Nat → Option Nat := fun _ => none

theorem Completes.ledger {c : Syscall} (h : Ledger k 0 noLocks n) (call : Completes w limit p c k k')
    (spares : c.Spares w limit k p) : Ledger k' 0 noLocks n := by
  have run := call.run
  have ends : ∀ {α : Type} {x : Call δ α}, Machine.Ends Orderly x k (fun _ k' =>
      Ledger k' 0 noLocks n) → Fd.ignore x k = .ok ((), k') → Ledger k' 0 noLocks n :=
    fun h run => (ends_ignore h).ok run
  cases c with
  | openat dirfd path flags =>
    refine ends (sys_openat_ledger h fun proper plain => ?_) run
    have panics : Fd.sys_openat (below limit w p) limit p dirfd path flags k =
        .error (.panic "eunlock") :=
      sys_openat_panics (fun e => by rw [h.owes.holder]; simp [noLocks]) proper plain
    have stopped : Fd.ignore (Fd.sys_openat (below limit w p) limit p dirfd path flags) k =
        .error (.panic "eunlock") := Machine.bind_of_error panics
    rw [Syscall.run, stopped] at run
    cases run
  | «open» path omode => exact ends (open_ledger h) run
  | close fd => exact ends (sys_close_ledger h) run
  | dup fd => exact ends (sys_dup_ledger h) run
  | pipe fdarray => exact ends (sys_pipe_ledger h) run
  | chdir path => exact ends (sys_chdir_ledger h) run
  | mkdir path => exact ends (sys_mkdir_ledger h) run
  | unlinkat path => exact ends (sys_unlinkat_ledger h spares) run
  | remove path => exact ends (sys_remove_ledger h) run
  | rename offset old new => exact ends (sys_rename_ledger h) run
  | fstatat dirfd dirfd₀ path st =>
    exact ends (sys_fstatat_ledger h (fun looks => (spares looks).1) fun looks => (spares looks).2) run
  | faccessat dirfd dirfd₀ path mode =>
    refine ends ((sys_faccessat_owes h fun pass => (spares pass).1).mono ?_) run
    rintro r k₁ (⟨-, h₁⟩ | ⟨pass, r, h₁, found⟩)
    · exact h₁
    · obtain rfl := (spares pass).2 _ _ found
      simpa using h₁
  | exec path => exact ends (exec_ledger h) run
  | fork => exact ends (fork_ledger h) run
  | exit => exact (exit_ledger h).ok run

/-- One complete call that spares. -/
def Sparing (w : World δ) (k k' : Kernel δ) : Prop :=
  ∃ limit p c, Completes w limit p c k k' ∧ c.Spares w limit k p

/-- The kernel after `fat32_init` and `userinit`: the first process is in the root. -/
def boot (disk : δ) (root_clus : Nat) : Kernel δ where
  file _ := ⟨.none, 0, false, false, none, none, 0⟩
  proc p := ⟨if p = 0 then .live else .unused, fun _ => none, NOFILE, fun _ => 0,
    if p = 0 then some root else none⟩
  below := {
    state := {
      ent := fun e => if e = root then
          ⟨[], Fat.ATTR_DIRECTORY ||| Fat.ATTR_SYSTEM, root_clus, 0, false, 1, 1, 0, none⟩
        else ⟨[], 0, 0, 0, false, 0, 0, 0, none⟩
      order := (List.range ENTRY_CACHE_NUM).reverse.map (· + 1)
      disk }
    holder := noLocks
    stray := 0 }

theorem boot_ledger (disk : δ) (root_clus : Nat) : Ledger (boot disk root_clus) 0 noLocks 0 where
  owes :=
    { holder := rfl
      stray := rfl
      listed := by
        intro e listed
        obtain ⟨i, inside, rfl⟩ := List.mem_map.mp listed
        rw [List.mem_reverse, List.mem_range] at inside
        exact ⟨Finset.mem_range.mpr (by omega), by simp [root]⟩
      top := rfl
      rootValid := one_ne_zero
      settled := by
        intro e used zero
        dsimp only [boot] at used zero
        split at zero
        · cases zero
        · rename_i ne
          rw [if_neg ne] at used
          cases used
      inside := by
        intro e used
        dsimp only [boot] at used
        split at used
        · rename_i isRoot
          subst isRoot
          decide
        · cases used
      linked := by
        intro e ne used
        dsimp only [boot] at used
        rw [if_neg ne] at used
        cases used
      count := by
        intro d
        have noFiles : files (boot disk root_clus) d = 0 := refs_eq_zero.mpr fun f _ points => by cases points
        have noChildren : (boot disk root_clus).below.state.children d = 0 := by
          refine refs_eq_zero.mpr fun c _ points => ?_
          dsimp only [boot, Dirent.link] at points
          by_cases isRoot : c = root
          · simp [isRoot] at points
          · simp [isRoot] at points
        have cwds : cwds (boot disk root_clus) d = if d = root then 1 else 0 := by
          rcases eq_or_ne d root with rfl | ne
          · change refs (Finset.range NPROC) (fun q => if q = 0 then some root else none) root = 1
            decide
          · rw [if_neg ne]
            refine refs_eq_zero.mpr fun q _ points => ?_
            dsimp only [boot] at points
            split at points
            · exact ne (Option.some.inj points).symm
            · cases points
        simp only [Pi.add_apply, noFiles, noChildren, cwds]
        dsimp only [boot]
        split <;> simp }
  file f isEntry := by cases isEntry
  cwd q d points := by
    dsimp only [boot] at points ⊢
    split at points
    · rename_i first
      exact ⟨by rw [first]; decide, if_pos first⟩
    · cases points

/-- In every state that calls reach which keep no reference of a look-up, the count of
every entry is made of files, working directories and children. -/
theorem entry_refs {disk : δ} {root_clus : Nat}
    (run : Relation.ReflTransGen (Sparing w) (boot disk root_clus) k) : Counted k := by
  suffices Ledger k 0 noLocks 0 from this.counted
  induction run with
  | refl => exact boot_ledger disk root_clus
  | tail _ step ih =>
    obtain ⟨limit, p, c, call, spares⟩ := step
    exact call.ledger ih spares

/-- A volume that has nothing but its root. -/
def bareWorld : World Unit where
  search _ _ _ _ _ := some (⟨[], 0, 0, 0, none, some 64⟩, ())
  isdirempty _ _ _ := some (true, ())
  alloc_clus _ := some (3, ())
  setCursor _ _ _ := some ((), ())
  emake _ _ _ _ _ := some ((), ())
  eupdate _ _ _ := some ((), ())
  eremove _ _ _ := some ((), ())
  etrunc _ _ _ := some ((), ())
  kallocPipe _ := some (some 1, ())
  kfreePipe _ _ := some ((), ())
  pipeclose _ _ _ := some ((), ())
  copyout _ _ _ _ := some (true, ())
  copyoutKstat _ _ _ _ := some (true, ())
  allocproc _ _ := some (true, ())
  forkCopy _ _ _ := some (.done, ())
  freeproc _ _ := some ((), ())
  readelfhdr _ _ _ := some (false, ())
  proc_pagetable _ _ := some (true, ())
  loadelf _ _ _ _ := some (false, ())
  load_elf_interp _ _ _ _ := some ((), ())
  buildStack _ _ := some (none, ())

/-- The root opened by its name: a file, a working directory and no child. -/
theorem entry_refs_open : ∃ k, Relation.ReflTransGen (Sparing bareWorld) (boot () 2) k ∧
    (k.below.state.ent root).ref = 2 ∧ Counted k := by
  have call : ∃ k', Completes bareWorld 1 0 (.openat AT_FDCWD [47] 0) (boot () 2) k' ∧
      (k'.below.state.ent root).ref = 2 := ⟨_, ⟨by decide, rfl, rfl⟩, rfl⟩
  obtain ⟨k, call, ref⟩ := call
  have run : Relation.ReflTransGen (Sparing bareWorld) (boot () 2) k :=
    .single ⟨1, 0, _, call, trivial⟩
  exact ⟨k, run, ref, entry_refs run⟩

/-- `faccessat(AT_FDCWD, "/", F_OK)` leaves a reference to the root behind. -/
theorem faccessat_leaks : ¬∀ k : Kernel Unit,
    Relation.ReflTransGen (fun k k' => ∃ limit p c, Completes bareWorld limit p c k k')
      (boot () 2) k → Counted k := by
  intro counts
  have call : ∃ k', Completes bareWorld 1 0 (.faccessat AT_FDCWD 0 [47] F_OK) (boot () 2) k' ∧
      sys_faccessat 1 bareWorld 0 AT_FDCWD 0 [47] F_OK (boot () 2) = .ok (0, k') ∧
      onCache 0 (new_ename bareWorld.toDisk 1 none (some root) [47]) (boot () 2) =
        .ok (some root, k') := ⟨_, ⟨by decide, rfl, rfl⟩, rfl, rfl⟩
  obtain ⟨k, call, run, found⟩ := call
  rcases (sys_faccessat_owes (boot_ledger () 2) fun _ relative => absurd rfl relative).ok run with
    ⟨fails, -⟩ | ⟨-, r, left, found'⟩
  · exact fails (.inr rfl)
  · have same : r = some root := by
      have eq := found'.symm.trans found
      cases eq
      rfl
    rw [same, zero_add] at left
    exact left.not_counted (counts k (.single ⟨1, 0, _, call⟩))

end AvxKernel.Fs
