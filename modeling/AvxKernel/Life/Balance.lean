import AvxKernel.Fs.Counted
import AvxKernel.Life.Sleep

/-! Locks over whole calls: which calls return with the locks that they were made
with, and never give back one that they do not hold. -/
namespace AvxKernel.Life

open Fd (Path cstr)
open Fs (World below onCache fileOf notDirectory renameMisses dirfdAfter Ledger)

variable {δ : Type}

/-- The call returns with the locks as they were, and never complains that it has given
back one that is not its own. -/
def Balanced {σ τ α : Type} (complaint : String) (locks : σ → Shared τ) (x : Machine σ α) (s : σ) :
    Prop :=
  Machine.Ends (· ≠ .panic complaint) x s fun _ t =>
    (locks t).holder = (locks s).holder ∧ (locks t).stray = (locks s).stray

/-- A call that always returns where `K`, and returns with the locks as they were just where
not. -/
theorem balanced_iff {σ τ α : Type} {complaint : String} {locks : σ → Shared τ} {x : Machine σ α}
    {s : σ} {K : Prop}
    (h : Machine.Ends (fun e => e ≠ .panic complaint ∧ ¬K) x s fun _ t =>
      (K ∧ (locks t).holder ≠ (locks s).holder) ∨
        ¬K ∧ (locks t).holder = (locks s).holder ∧ (locks t).stray = (locks s).stray) :
    Balanced complaint locks x s ↔ ¬K := by
  cases run : x s with
  | error e =>
    obtain ⟨ne, alive⟩ := h.error run
    exact iff_of_true (Machine.Ends.of_error run ne) alive
  | ok r =>
    rcases h.ok (a := r.1) (t := r.2) run with ⟨killed, differs⟩ | ⟨alive, same⟩
    · exact iff_of_false (fun balanced => differs (Machine.Ends.ok (a := r.1) (t := r.2) balanced run).1)
        (not_not.mpr killed)
    · exact iff_of_true (Machine.Ends.of_ok (a := r.1) (t := r.2) run same) alive

/-! ### `fork` -/

/-- There is a child with a heap, but no memory for the pages of its areas. -/
def AreasFail (limit : Nat) (image : Exec.Image) (p : Nat) (s : Shared Kernel) : Prop :=
  ∃ np t r u r' v, Prog.run p (allocproc limit image) s = .ok (some np, t) ∧
    Prog.run p (copyHeap p np) t = .ok (r, u) ∧ ¬r < 0 ∧
    Prog.run p (copyAreas limit p np) u = .ok (r', v) ∧ r' < 0

section Fork

variable {limit : Nat} {image : Exec.Image} {p : Nat} {s : Shared Kernel}
  {registers : Nat → Machine Vm.Ram Unit}

theorem forkWith_keeps (quiet : ∀ trapframe, Machine.Avoids Foreign (registers trapframe))
    (free : ∀ q, s.holder q ≠ some p) (sound : ¬AreasFail limit image p s) :
    Prog.Ends p (· ≠ Foreign) (forkWith limit image p registers) s fun _ => SameLocks s := by
  refine Prog.Ends.bind (allocproc_locks limit image free).with_run ?_
  rintro r t ⟨⟨stray, holder⟩, run₁⟩
  cases r with
  | none => exact Prog.Ends.pure ⟨holder, stray⟩
  | some np =>
    obtain ⟨unlocked, holder⟩ := holder
    have held : t.holder np = some p := by rw [holder, Function.update_self]
    have back : Function.update t.holder np none = s.holder := by
      rw [holder, Function.update_idem, ← unlocked, Function.update_eq_self]
    refine Prog.Ends.bind (copyHeap_locks p np).with_run ?_
    rintro r u ⟨same₁, run₂⟩
    refine Prog.Ends.ite (fun _ => ?_) fun heap => ?_
    · refine Prog.Ends.bind (freeproc_locks limit np) fun _ v same₂ => ?_
      have same := same₁.trans same₂
      refine Prog.Ends.bind (release_ends (by rw [same.1, held])) ?_
      rintro _ v rfl
      refine Prog.Ends.pure ⟨?_, same.2.trans stray⟩
      rw [same.1, back]
    refine Prog.Ends.bind (copyAreas_locks limit p np).with_run ?_
    rintro r' v ⟨same₂, run₃⟩
    refine Prog.Ends.ite (fun fails => ?_) fun _ => ?_
    · exact absurd ⟨np, t, r, u, r', v, run₁, run₂, heap, run₃, fails⟩ sound
    have same := same₁.trans same₂
    refine (copyProcess_locks quiet (by rw [same.1, held])).mono ?_
    rintro _ w ⟨holder', stray'⟩
    refine ⟨?_, stray'.trans (same.2.trans stray)⟩
    rw [holder', same.1, back]

theorem forkWith_leaks (free : ∀ q, s.holder q ≠ some p) (fails : AreasFail limit image p s) :
    ∃ np t, Prog.run p (forkWith limit image p registers) s = .ok (-1, t) ∧ s.holder np = none ∧
      t.holder np = some p := by
  obtain ⟨np, t, r, u, r', v, run₁, run₂, heap, run₃, areas⟩ := fails
  obtain ⟨-, unlocked, holder⟩ := (allocproc_locks limit image free).ok run₁
  have same := ((copyHeap_locks p np).ok run₂).trans ((copyAreas_locks limit p np).ok run₃)
  refine ⟨np, v, ?_, unlocked, by rw [same.1, holder, Function.update_self]⟩
  rw [forkWith, Prog.run_bind, Machine.bind_of_ok run₁]
  dsimp only
  rw [Prog.run_bind, Machine.bind_of_ok run₂, if_neg heap, Prog.run_bind, Machine.bind_of_ok run₃,
    if_pos areas]
  rfl

end Fork

/-! ### `sys_renameat2` -/

/-- The two descriptors are let through. -/
def RenameStarts (k : Fs.Kernel δ) (p : Nat) (olddirfd olddirfd₀ : Int) (old : Path)
    (newdirfd newdirfd₀ : Int) (new : Path) : Prop :=
  ¬(fileOf k p olddirfd = none ∧ old.head? ≠ some 47 ∧
    dirfdAfter olddirfd olddirfd₀ (fileOf k p olddirfd) ≠ Fs.AT_FDCWD) ∧
  ¬(fileOf k p newdirfd = none ∧ new.head? ≠ some 47 ∧
    dirfdAfter newdirfd newdirfd₀ (fileOf k p newdirfd) ≠ Fs.AT_FDCWD)

/-- The failure is found before the source is locked, and the local that says whether it
has been, which nothing has set by then, says so. -/
def RenameLapse (w : World δ) (limit p : Nat) (srclock : Bool) (olddirfd olddirfd₀ : Int) (old : Path)
    (newdirfd newdirfd₀ : Int) (new : Path) (k : Fs.Kernel δ) : Prop :=
  srclock = true ∧ RenameStarts k p olddirfd olddirfd₀ old newdirfd newdirfd₀ new ∧
    renameMisses w.toDisk limit p (if fileOf k p olddirfd = none then (k.proc p).cwd else none)
      (if fileOf k p newdirfd = none then (k.proc p).cwd else none) (k.proc p).cwd old new k.below

section Rename

variable {w : World δ} {limit p : Nat} {srclock : Bool} {offset : Nat} {k : Fs.Kernel δ}
  {T : Nat → Nat} {H : Nat → Option Nat} {n : Nat} {olddirfd olddirfd₀ newdirfd newdirfd₀ : Int}
  {old new : Path}

theorem rename_panics {disk : Fs.Disk δ} {olddp newdp cwd : Option Nat} {s : Shared (Fs.Ecache δ)}
    (h : Fs.Owes s T H n none) (fromOld : ∀ e, olddp = some e → 0 < T e)
    (fromNew : ∀ e, newdp = some e → 0 < T e) (fromCwd : ∀ e, cwd = some e → 0 < T e)
    (free : ∀ e, H e ≠ some p) (misses : renameMisses disk limit p olddp newdp cwd old new s) :
    Prog.run p (Fs.rename disk limit true offset olddp newdp cwd old new) s =
      .error (.panic "eunlock") := by
  obtain ⟨l, t, run, above⟩ := misses
  have h₁ := (Fs.renameLookups_ends h fromOld fromNew fromCwd).ok run
  have fails : ∀ {u : Shared (Fs.Ecache δ)} (src dst pdst : Option Nat), u.holder = H →
      Prog.run p (Fs.renameFail disk limit true src dst pdst) u = .error (.panic "eunlock") := by
    intro u src dst pdst same
    refine Machine.Ends.stops ?_
    refine Prog.Ends.bind (R := fun _ _ => False) ?_ fun _ _ => False.elim
    cases src with
    | none => exact Prog.Ends.panic rfl
    | some src => exact Fs.eunlock_panics (by rw [same]; exact free src)
  rw [Fs.rename, Prog.run_bind, Machine.bind_of_ok run]
  split
  · rename_i src pdst name
    obtain ⟨u, run₂⟩ := above _ _ _ rfl
    have used : 0 < (t.state.ent pdst).ref := h₁.pos (by simp)
    obtain ⟨rfl, -⟩ := (Fs.isAbove_ends h₁ used).ok run₂
    rw [Prog.run_bind, Machine.bind_of_ok run₂, if_pos rfl]
    exact fails _ _ _ h₁.holder
  · exact fails _ _ _ h₁.holder

/-- The look-ups of the call, once its descriptors are let through. -/
theorem sys_renameat2_run (starts : RenameStarts k p olddirfd olddirfd₀ old newdirfd newdirfd₀ new) :
    Fs.sys_renameat2 limit w p srclock offset olddirfd olddirfd₀ old newdirfd newdirfd₀ new k =
      onCache p (Fs.rename w.toDisk limit srclock offset
        (if fileOf k p olddirfd = none then (k.proc p).cwd else none)
        (if fileOf k p newdirfd = none then (k.proc p).cwd else none) (k.proc p).cwd old new) k := by
  rw [Fs.sys_renameat2, Machine.bind_of_ok (Machine.get_run k)]
  dsimp only
  rw [Machine.bind_of_ok Fs.argfd_ok, if_neg starts.1, Machine.bind_of_ok Fs.argfd_ok,
    if_neg starts.2]

theorem sys_renameat2_stops
    (stays : ¬RenameStarts k p olddirfd olddirfd₀ old newdirfd newdirfd₀ new) :
    Fs.sys_renameat2 limit w p srclock offset olddirfd olddirfd₀ old newdirfd newdirfd₀ new k =
      .ok (-9, k) := by
  rw [Fs.sys_renameat2, Machine.bind_of_ok (Machine.get_run k)]
  dsimp only
  rw [Machine.bind_of_ok Fs.argfd_ok, Machine.ite_run]
  split
  · rfl
  · rename_i passes
    rw [Machine.bind_of_ok Fs.argfd_ok, if_pos (not_not.mp fun passes' => stays ⟨passes, passes'⟩)]
    rfl

end Rename

/-! ### The handlers -/

/-- A call, with the state that it is made in. -/
inductive Handler (δ : Type) where
  | nanosleep (s : Shared Kernel) (limit : Nat) (meanwhile : Nat → Kernel → Kernel) (p : Nat)
      (sec usec : Option Nat)
  | fork (s : Shared Kernel) (limit : Nat) (image : Exec.Image) (p : Nat)
  | openat (k : Fs.Kernel δ) (limit : Nat) (w : World δ) (p : Nat) (dirfd : Int) (path : Path)
      (flags : UInt32)
  | renameat2 (k : Fs.Kernel δ) (limit : Nat) (w : World δ) (p : Nat) (srclock : Bool) (offset : Nat)
      (olddirfd olddirfd₀ : Int) (old : Path) (newdirfd newdirfd₀ : Int) (new : Path)

/-- The process is in no other call: it holds no lock that the call takes, and the references
to the entries are accounted for. -/
def Handler.Ready : Handler δ → Prop
  | nanosleep s _ _ p _ _ => s.holder p = none
  | fork s _ _ p => ∀ q, s.holder q ≠ some p
  | openat k _ _ p _ _ _ => (∀ e, k.below.holder e ≠ some p) ∧ ∃ T n, Ledger k T k.below.holder n
  | renameat2 k _ _ p _ _ _ _ _ _ _ _ =>
    (∀ e, k.below.holder e ≠ some p) ∧ ∃ T n, Ledger k T k.below.holder n

def Handler.Balanced : Handler δ → Prop
  | nanosleep s limit meanwhile p sec usec =>
    Life.Balanced "release" id (Prog.run p (sys_nanosleep limit meanwhile p sec usec)) s
  | fork s limit image p => Life.Balanced "release" id (Prog.run p (Life.fork limit image p)) s
  | openat k limit w p dirfd path flags =>
    Life.Balanced "eunlock" Fd.Kernel.below
      (Fd.sys_openat (below limit w p) limit p dirfd path flags) k
  | renameat2 k limit w p srclock offset olddirfd olddirfd₀ old newdirfd newdirfd₀ new =>
    Life.Balanced "eunlock" Fd.Kernel.below
      (Fs.sys_renameat2 limit w p srclock offset olddirfd olddirfd₀ old newdirfd newdirfd₀ new) k

/-- The branch that forgets about a lock is taken. -/
def Handler.Lapses : Handler δ → Prop
  | nanosleep s limit meanwhile p sec usec => ∃ sec' usec', sec = some sec' ∧ usec = some usec' ∧
      KilledAsleep meanwhile p s.state.ticks (sleepTicks sec' usec') limit 0 s.state
  | fork s limit image p => AreasFail limit image p s
  | openat k _ _ p dirfd path _ =>
    (cstr "/dev/null").isPrefixOf path = false ∧ notDirectory k (fileOf k p dirfd)
  | renameat2 k limit w p srclock _ olddirfd olddirfd₀ old newdirfd newdirfd₀ new =>
    RenameLapse w limit p srclock olddirfd olddirfd₀ old newdirfd newdirfd₀ new k

section Handlers

variable {s : Shared Kernel} {limit p : Nat}

theorem nanosleep_balanced_iff {meanwhile : Nat → Kernel → Kernel} {sec usec : Option Nat}
    (free : s.holder p = none) :
    Balanced "release" id (Prog.run p (sys_nanosleep limit meanwhile p sec usec)) s ↔
      ¬∃ sec' usec', sec = some sec' ∧ usec = some usec' ∧
        KilledAsleep meanwhile p s.state.ticks (sleepTicks sec' usec') limit 0 s.state := by
  rcases sec with _ | sec <;> rcases usec with _ | usec
  · exact iff_of_true ⟨rfl, rfl⟩ (by simp)
  · exact iff_of_true ⟨rfl, rfl⟩ (by simp)
  · exact iff_of_true ⟨rfl, rfl⟩ (by simp)
  have same : (∃ sec' usec', some sec = some sec' ∧ some usec = some usec' ∧
      KilledAsleep meanwhile p s.state.ticks (sleepTicks sec' usec') limit 0 s.state) ↔
        KilledAsleep meanwhile p s.state.ticks (sleepTicks sec usec) limit 0 s.state := by simp
  rw [same]
  refine balanced_iff ?_
  refine Prog.Ends.bind (acquire_free free) ?_
  rintro _ t rfl
  refine Prog.Ends.read_bind ((nanosleepFrom_ends (Function.update_self ..)).mono ?_)
  rintro _ t ⟨stray, ⟨killed, holder⟩ | ⟨alive, holder⟩⟩
  · refine .inl ⟨killed, fun back => ?_⟩
    have held : t.holder p = some p := by
      rw [holder]
      exact Function.update_self ..
    rw [show t.holder = s.holder from back, free] at held
    cases held
  · refine .inr ⟨alive, holder.trans ?_, stray⟩
    dsimp only [id]
    rw [Function.update_idem, ← free, Function.update_eq_self]

theorem fork_balanced_iff {image : Exec.Image} (free : ∀ q, s.holder q ≠ some p) :
    Balanced "release" id (Prog.run p (fork limit image p)) s ↔ ¬AreasFail limit image p s := by
  constructor
  · intro balanced fails
    obtain ⟨np, t, run, unlocked, locked⟩ := forkWith_leaks free fails
    have same : t.holder = s.holder := (Machine.Ends.ok balanced run).1
    rw [same, unlocked] at locked
    cases locked
  · exact forkWith_keeps (fun _ => .pure _) free

variable {w : World δ} {k : Fs.Kernel δ} {T : Nat → Nat} {n : Nat}

theorem openat_balanced_iff {dirfd : Int} {path : Path} {flags : UInt32}
    (free : ∀ e, k.below.holder e ≠ some p) (h : Ledger k T k.below.holder n) :
    Balanced "eunlock" Fd.Kernel.below (Fd.sys_openat (below limit w p) limit p dirfd path flags) k ↔
      ¬((cstr "/dev/null").isPrefixOf path = false ∧ notDirectory k (fileOf k p dirfd)) := by
  constructor
  · rintro balanced ⟨proper, plain⟩
    exact Machine.Ends.error balanced (Fs.sys_openat_panics free proper plain) rfl
  · intro sound
    refine (Fs.sys_openat_ledger h fun proper plain => sound ⟨proper, plain⟩).mono fun _ k' h' => ?_
    exact ⟨h'.owes.holder, h'.owes.stray.trans h.owes.stray.symm⟩

theorem renameat2_balanced_iff {srclock : Bool} {offset : Nat}
    {olddirfd olddirfd₀ newdirfd newdirfd₀ : Int} {old new : Path}
    (free : ∀ e, k.below.holder e ≠ some p) (h : Ledger k T k.below.holder n) :
    Balanced "eunlock" Fd.Kernel.below (Fs.sys_renameat2 limit w p srclock offset olddirfd olddirfd₀
        old newdirfd newdirfd₀ new) k ↔
      ¬RenameLapse w limit p srclock olddirfd olddirfd₀ old newdirfd newdirfd₀ new k := by
  have counted : ∀ e, (k.proc p).cwd = some e → 0 < (Fs.files k + Fs.cwds k + T) e := by
    intro e points
    have held : 0 < Fs.files k e + Fs.cwds k e := h.cwd_held points
    simp only [Pi.add_apply]
    omega
  have fromDir : ∀ dirfd e, (if fileOf k p dirfd = none then (k.proc p).cwd else none) = some e →
      0 < (Fs.files k + Fs.cwds k + T) e := by
    intro dirfd e points
    split at points
    · exact counted e points
    · cases points
  by_cases starts : RenameStarts k p olddirfd olddirfd₀ old newdirfd newdirfd₀ new
  · rw [Balanced, Machine.Ends, sys_renameat2_run starts]
    constructor
    · rintro balanced ⟨rfl, -, misses⟩
      have stops : Prog.run p (Fs.rename w.toDisk limit true offset _ _ (k.proc p).cwd old new) k.below =
          .error (.panic "eunlock") :=
        rename_panics h.owes (fromDir olddirfd) (fromDir newdirfd) counted free misses
      rw [onCache, Fd.onBelow, Machine.zoom, stops] at balanced
      exact balanced rfl
    · intro sound
      have ready : srclock = false ∨ ¬renameMisses w.toDisk limit p _ _ _ old new k.below :=
        (Bool.eq_false_or_eq_true srclock).symm.imp_right fun set misses => sound ⟨set, starts, misses⟩
      refine (Fs.onCache_ends ((Fs.rename_ends h.owes (fromDir olddirfd) (fromDir newdirfd) counted
        ready).mono fun _ t h' => ?_) : Machine.Ends Fs.Orderly _ k fun _ k' =>
          k'.below.holder = k.below.holder ∧ k'.below.stray = k.below.stray)
      exact ⟨h'.holder, h'.stray.trans h.owes.stray.symm⟩
  · refine iff_of_true (Machine.Ends.of_ok (sys_renameat2_stops starts) ⟨rfl, rfl⟩) ?_
    exact fun lapse => starts lapse.2.1

/-- A call keeps the locks balanced just where it does not take the branch that forgets about
one. -/
theorem handlers_balanced_iff (c : Handler δ) (ready : c.Ready) : c.Balanced ↔ ¬c.Lapses := by
  cases c with
  | nanosleep s limit meanwhile p sec usec => exact nanosleep_balanced_iff ready
  | fork s limit image p => exact fork_balanced_iff ready
  | openat k limit w p dirfd path flags =>
    obtain ⟨free, T, n, ledger⟩ := ready
    exact openat_balanced_iff free ledger
  | renameat2 k limit w p srclock offset olddirfd olddirfd₀ old newdirfd newdirfd₀ new =>
    obtain ⟨free, T, n, ledger⟩ := ready
    exact renameat2_balanced_iff free ledger

end Handlers

/-- One process, no memory left, and no lock held. -/
def quietKernel : Shared Kernel where
  state := {
    ram := ⟨fun _ => 0, 0, 0, Vm.RAMBASE, [], [], []⟩
    proc := fun p => {
      sz := 0, pagetable := 0, trapframe := 0, vma := 0, filelimit := NOFILE
      ofile := fun _ => 0, exec_close := fun _ => 0, name := []
      state := if p = 0 then .running else .unused
      parent := none, chan := none, killed := false, xstate := 0, pid := 1, exec_close_page := 0
      cwd := 0, tmask := 0 }
    nextpid := 2
    ticks := 0
    file := fun _ => 0
    ent := fun _ => 0 }
  holder _ := none
  stray := 0

/-- Another process kills the one that sleeps. -/
def killed (_ : Nat) (k : Kernel) : Kernel := k.put 0 fun pr => { pr with killed := true }

theorem handlers_balanced_iff_quiet :
    (Handler.nanosleep quietKernel 1 (fun _ => id) 0 (some 0) (some 0) : Handler Unit).Balanced ∧
      (Handler.fork quietKernel 1 ⟨0, 0, 0, 0, 0, 0, 0, 0⟩ 0 : Handler Unit).Balanced ∧
      (Handler.openat (Fs.boot () 2) 1 Fs.bareWorld 0 Fs.AT_FDCWD [47] 0).Balanced ∧
      (Handler.renameat2 (Fs.boot () 2) 1 Fs.bareWorld 0 false 0 Fs.AT_FDCWD 0 [47] Fs.AT_FDCWD 0
        [97]).Balanced := by
  have booted : (∀ e, (Fs.boot () 2).below.holder e ≠ some 0) ∧
      ∃ T n, Ledger (Fs.boot () 2) T (Fs.boot () 2).below.holder n :=
    ⟨nofun, 0, 0, Fs.boot_ledger () 2⟩
  have sleeps := handlers_balanced_iff (.nanosleep quietKernel 1 (fun _ => id) 0 (some 0) (some 0) :
    Handler Unit) rfl
  have forks := handlers_balanced_iff (.fork quietKernel 1 ⟨0, 0, 0, 0, 0, 0, 0, 0⟩ 0 : Handler Unit)
    nofun
  have opens := handlers_balanced_iff (.openat (Fs.boot () 2) 1 Fs.bareWorld 0 Fs.AT_FDCWD [47] 0)
    booted
  have renames := handlers_balanced_iff (.renameat2 (Fs.boot () 2) 1 Fs.bareWorld 0 false 0 Fs.AT_FDCWD 0
    [47] Fs.AT_FDCWD 0 [97]) booted
  refine ⟨sleeps.mpr ?_, forks.mpr ?_, opens.mpr ?_, renames.mpr ?_⟩
  · rintro ⟨_, _, ⟨⟩, ⟨⟩, j, lt, waits, -⟩
    exact absurd (waits 0 (Nat.zero_le _)) (by decide)
  · rintro ⟨np, t, _, _, _, _, run, -⟩
    cases run
  · rintro ⟨-, f, ep, found, -⟩
    cases found
  · rintro ⟨set, -⟩
    cases set

/-- A process that is killed in its sleep keeps its own lock. -/
theorem killed_sleeper_keeps_lock : ¬∀ c : Handler Unit, c.Ready → c.Balanced := by
  intro balanced
  have sleeping : Balanced "release" id (Prog.run 0 (sys_nanosleep 2 killed 0 (some 1) (some 0)))
      quietKernel := balanced (.nanosleep quietKernel 2 killed 0 (some 1) (some 0)) rfl
  refine (nanosleep_balanced_iff rfl).mp sleeping ?_
  refine ⟨1, 0, rfl, rfl, 1, by decide, fun l le => ?_, rfl⟩
  rcases Nat.le_one_iff_eq_zero_or_eq_one.mp le with rfl | rfl
  · decide
  · decide

end AvxKernel.Life
