import AvxKernel.Sched.Handlers
import AvxKernel.Sched.Invariant
import AvxKernel.Sched.Replay

/-! What holds in every run: no processor comes to a panic, a lock has one holder, a
process is run by one processor, interrupts are off where a lock is held, and the parents
of processes form a tree. -/
namespace AvxKernel.Sched

open Rules (Safe)
open Proc (ProcState Chan)
open View

variable {names : Names} {n : Nat} {calls : Nat → Cause → Prop} {who : Nat → Context} {view : Nat → View} {s t : Sys} {c c' p : Nat}

/-- Interrupts are on where `trapinit` has turned them on. -/
def onStart (c : Nat) : View := { calm (.cpu c) (fun _ => False) with ie := decide (c = 0) }

theorem onStart_idle (c : Nat) : Idle (.cpu c) (onStart c) := by
  unfold onStart
  by_cases first : c = 0
  · rw [decide_eq_true first]
    exact ⟨_, .inl rfl⟩
  · rw [decide_eq_false first]
    exact ⟨_, .inr ⟨none, none, rfl⟩⟩

theorem Start.agrees (start : Start names n s) (here : c < n) :
    Agrees (s.cpu c) (.cpu c) (onStart c) := by
  obtain ⟨plv, proc, noff, -⟩ := start.cpu c here
  have registers : (s.cpu c).ie = decide (c = 0) ∧ (s.cpu c).Enters .kernelvec := by
    by_cases first : c = 0
    · subst first
      obtain ⟨ie, -, eentry⟩ := start.trapinit
      exact ⟨ie, .inl eentry⟩
    · obtain ⟨ie, lie, eentry⟩ := start.others c first
      exact ⟨ie.trans (decide_eq_false first).symm, .inr ⟨rfl, eentry, lie⟩⟩
  exact {
    ie := registers.1
    plv
    prmd := fun _ h => by cases h
    eentry := registers.2
    noff
    intena := fun _ h => by cases h
    proc
    quiet := fun on _ => congrArg (fun b : Bool => ({ calm (.cpu c) (fun _ => False) with ie := b } : View)) on
    inUser := fun user => by cases user }

theorem Start.good (kept : Kept names calls) (start : Start names n s) :
    Good names n s (fun c => .cpu c) onStart where
  regs c here := start.agrees here
  locks := {
    each := fun lk => by
      rw [(start.lock lk).1, (start.lock lk).2]
      refine .free fun c _ has => ?_
      rcases has with held | half
      · exact List.not_mem_nil held
      · cases half
    nodup := fun _ _ => List.nodup_nil
    whole := fun _ _ _ half => by cases half }
  procs := {
    informed := fun c here => {
      knows := fun _ _ h => by cases h
      own := fun _ h => by cases h
      stops := (Option.some_ne_none _).symm
      parked := fun _ h => by cases h
      claims := fun _ h => by cases h
      fresh := fun _ h => by cases h
      adopted := fun _ h => by cases h
      strangers := fun _ h => by cases h
      mine := fun _ h => by cases h
      current := fun _ _ h => by cases h }
    tree := {
      family := fun p q child => by cases (start.proc p).1.symm.trans child
      orphan := fun p alive notInit => absurd (start.unused p notInit) alive.1
      root := by
        have is : s.states names.initproc = .runnable := start.init.1
        rw [is]
        exact ⟨by decide, by decide⟩ }
    table := {
      cpus := fun _ _ _ eq => (Context.cpu.inj eq).symm
      apart := fun _ _ _ _ _ h => by cases h
      away := fun _ _ _ _ _ _ _ h => by cases h
      running := fun p running => by
        by_cases first : p = names.initproc
        · subst first
          cases start.init.1.symm.trans running
        · cases (start.unused p first).symm.trans running }
    stored := {
      schedulers := fun _ _ _ h => by cases h
      processes := fun p _ alive => by
        by_cases first : p = names.initproc
        · subst first
          refine ⟨fun _ => False, fun _ _ => False.elim, ?_⟩
          rw [start.init.2]
          exact forkret_safe (kept.boot _)
        · exact absurd (start.unused p first) alive.1 }
    single := fun _ _ _ _ _ held => absurd held List.not_mem_nil }
  spared := (start.proc _).2
  code c here := by
    rw [(start.cpu c here).2.2.2]
    exact scheduler_safe c Done (onStart_idle c)

/-- The invariant holds in every state of every run. -/
theorem Reachable.good (kept : Kept names calls) (reachable : Reachable names n calls s) :
    ∃ who view, Good names n s who view := by
  obtain ⟨start, starts, run⟩ := reachable
  induction run with
  | refl => exact ⟨_, _, starts.good kept⟩
  | tail _ step ih =>
    obtain ⟨who, view, good⟩ := ih
    exact good.step kept step

/-! ### What the invariant says of the state -/

theorem Good.no_panic (good : Good names n s who view) (here : c < n) :
    (∀ message rest, (s.cpu c).code ≠ .op (.panic message) rest) ∧
      (∀ rest, (s.cpu c).code ≠ .op .fault rest) ∧
      ((s.cpu c).plv = .kernel → (s.cpu c).code ≠ .ret ()) := by
  have safe := good.code c here
  refine ⟨fun message rest eq => ?_, fun rest eq => ?_, fun kernel eq => ?_⟩
  · rw [eq] at safe
    exact safe.1.2
  · rw [eq] at safe
    exact safe.1.2
  · rw [eq] at safe
    have user : (view c).user = true := safe
    have plv := (good.regs c here).plv
    rw [user, kernel] at plv
    cases plv

theorem Good.one_holder (good : Good names n s who view) (lk : Lock) :
    (s.inside lk = [] ∧ s.lock lk = ⟨false, none⟩) ∨
      ∃ c < n, s.inside lk = [c] ∧ (s.lock lk).locked = true ∧
        ((s.lock lk).cpu = none ∨ (s.lock lk).cpu = some c) := by
  have is := good.locks.each lk
  generalize s.lock lk = l, s.inside lk = i at is
  cases is with
  | free _ => exact .inl ⟨rfl, rfl⟩
  | @half c here _ _ => exact .inr ⟨c, here, rfl, rfl, .inl rfl⟩
  | @held c here _ _ => exact .inr ⟨c, here, rfl, rfl, .inr rfl⟩

/-- The processor has found the lock free, or holds it. -/
theorem Good.inside_iff (good : Good names n s who view) (here : c < n) (lk : Lock) :
    c ∈ s.inside lk ↔ (view c).Has lk := by
  have is := good.locks.each lk
  generalize s.lock lk = l, s.inside lk = i at is
  cases is with
  | free untaken => exact ⟨fun h => absurd h List.not_mem_nil, fun has => absurd has (untaken c here)⟩
  | half _ half only =>
    refine ⟨fun h => ?_, fun has => List.mem_singleton.mpr (only c here has)⟩
    cases List.mem_singleton.mp h
    exact .inr half
  | held _ held only =>
    refine ⟨fun h => ?_, fun has => List.mem_singleton.mpr (only c here has)⟩
    cases List.mem_singleton.mp h
    exact .inl held

theorem Good.quiet (good : Good names n s who view) (here : c < n) (on : (s.cpu c).ie = true) :
    (∀ lk, c ∉ s.inside lk) ∧ (s.cpu c).noff = 0 ∧
      (s.cpu c).Enters (if (s.cpu c).plv = .user then .uservec else .kernelvec) := by
  have regs := good.regs c here
  have enabled : (view c).ie = true := regs.ie.symm.trans on
  have form : ((view c).user = false ∧ view c = calm (who c) (view c).strangers) ∨
      ∃ p, (view c).user = true ∧ view c = View.inUser (view c).strangers p := by
    cases kernel : (view c).user with
    | false => exact .inl ⟨rfl, regs.quiet enabled kernel⟩
    | true =>
      obtain ⟨p, -, is⟩ := regs.inUser kernel
      exact .inr ⟨p, rfl, is⟩
  have entry := regs.eentry
  rw [regs.plv, regs.noff]
  rcases form with ⟨kernel, is⟩ | ⟨p, user, is⟩
  · refine ⟨fun lk has => ?_, congrArg (fun u : View => u.noff) is, ?_⟩
    · rw [good.inside_iff here, is] at has
      rcases has with held | half
      · exact List.not_mem_nil held
      · cases half
    · rw [kernel]
      exact entry.of_eq (congrArg (fun u : View => u.eentry) is)
  · refine ⟨fun lk has => ?_, congrArg (fun u : View => u.noff) is, ?_⟩
    · rw [good.inside_iff here, is] at has
      rcases has with held | half
      · exact List.not_mem_nil held
      · cases half
    · rw [user]
      exact entry.of_eq (congrArg (fun u : View => u.eentry) is)

theorem Good.apart (good : Good names n s who view) (here : c < n) (there : c' < n)
    (runs : (s.cpu c).proc = some p) (runs' : (s.cpu c').proc = some p) : c = c' := by
  have procs := good.procs
  have proc : (view c).proc = some p := (good.regs c here).proc.symm.trans runs
  have proc' : (view c').proc = some p := (good.regs c' there).proc.symm.trans runs'
  -- either the process's own code runs, or that of a scheduler that has its lock
  have form : ∀ c < n, (view c).proc = some p →
      who c = .proc p ∨ ((who c).process = none ∧ .proc p ∈ (view c).held) := by
    intro c here proc
    cases eq : who c with
    | cpu c'' =>
      have cpu : (who c).process = none := by rw [eq]; rfl
      exact .inr ⟨by rw [← eq]; exact cpu, (procs.informed c here).current cpu p proc⟩
    | proc q =>
      have mine := (procs.informed c here).mine q eq
      rw [proc] at mine
      cases mine
      exact .inl rfl
  rcases form c here proc with mine | ⟨cpu, held⟩
  · rcases form c' there proc' with mine' | ⟨cpu', -⟩
    · exact procs.table.apart c here c' there p mine mine'
    · exact absurd mine (procs.table.away c' there cpu' p (.inr proc') c here)
  · rcases form c' there proc' with mine' | ⟨-, held'⟩
    · exact absurd mine' (procs.table.away c here cpu p (.inr proc) c' there)
    · exact procs.single c here c' there _ held held'

/-- A process whose lock its processor does not hold is running. -/
theorem Good.running (good : Good names n s who view) (here : c < n) (runs : (s.cpu c).proc = some p)
    (unlocked : (s.lock (.proc p)).cpu ≠ some c) : (s.proc p).state = .running := by
  have informed := good.procs.informed c here
  have proc : (view c).proc = some p := (good.regs c here).proc.symm.trans runs
  have free : Lock.proc p ∉ (view c).held := fun held => unlocked ((good.locks.held_iff here).mp held)
  cases eq : who c with
  | cpu c' =>
    have cpu : (who c).process = none := by rw [eq]; rfl
    exact absurd (informed.current cpu p proc) free
  | proc q =>
    have mine := informed.mine q eq
    rw [proc] at mine
    cases mine
    have own : (s.proc p).state = (view c).parked.getD .running := informed.own p eq
    have none : (view c).parked = none := by
      by_contra parked
      exact free (informed.parked p eq parked)
    rw [own, none]
    rfl

/-- A running process has a processor, or the lock of one that is about to switch. -/
theorem Good.has_processor (good : Good names n s who view) (running : (s.proc p).state = .running) :
    ∃ c < n, (s.cpu c).proc = some p ∨ (s.lock (.proc p)).cpu = some c := by
  rcases good.procs.table.running p running with ⟨c, here, mine⟩ | ⟨c, here, claimed⟩
  · exact ⟨c, here, .inl ((good.regs c here).proc.trans ((good.procs.informed c here).mine p mine))⟩
  · have held := ((good.procs.informed c here).claims p claimed).2.1
    exact ⟨c, here, .inr ((good.locks.held_iff here).mp held)⟩

/-! ### Every run -/

/-- A machine on which processes take and give back a sleep lock. -/
def sampleNames : Names where
  pid_lock := 0
  kmem_lock := 1
  ftable_lock := 2
  ecache_lock := 3
  pr_lock := 4
  tickslock := 5
  ticks := 5
  cons_lock := 6
  cons_r := 6
  uart_tx_lock := 7
  uart_tx_r := 7
  first := 0
  initproc := 0
  closing := releasesleep ⟨8, 1, 2, 8⟩
  boot := acquiresleep ⟨8, 1, 2, 8⟩
  apart := by decide

theorem sample_composed : Composed sampleNames := ⟨fun _ => .releasesleep _, fun _ => .acquiresleep _⟩

theorem sample_kept : Kept sampleNames (Cause.Made sampleNames) where
  closing p := (sample_composed.disciplined p).1
  boot p := (sample_composed.disciplined p).2
  calls _ _ made := made.disciplined sample_composed

/-- The first of two processors starts the first process, which forks, and the second one
takes up the child. -/
def forked : List Turn :=
  Turn.goes 0 110 ++ [.trap 0 (.syscall (fork sampleNames .ample))] ++ Turn.goes 0 100 ++ [.go 0 true] ++
    Turn.goes 0 42 ++ [.go 0 true] ++ Turn.goes 0 56 ++ Turn.goes 1 81

/-- The child yields, and has its lock when its parent comes to it to kill it. -/
def contended : List Turn :=
  forked ++ [.trap 1 (.syscall yield)] ++ Turn.goes 1 45 ++
    [.trap 0 (.syscall (kill (some 1) true (List.range NPROC)))] ++ Turn.goes 0 75

theorem forked_fits : ∀ turn ∈ forked, turn.Fits 2 (Cause.Made sampleNames) := by
  have first : ∀ k, ∀ turn ∈ Turn.goes 0 k, turn.Fits 2 (Cause.Made sampleNames) := Turn.goes_fit (by decide)
  have one : ∀ turn ∈ [Turn.go 0 true], turn.Fits 2 (Cause.Made sampleNames) :=
    List.forall_mem_singleton.mpr (by decide : 0 < 2)
  have call : ∀ turn ∈ [Turn.trap 0 (.syscall (fork sampleNames .ample))],
      turn.Fits 2 (Cause.Made sampleNames) := List.forall_mem_singleton.mpr ⟨by decide, fun _ => .fork⟩
  unfold forked
  simp only [List.forall_mem_append]
  exact ⟨⟨⟨⟨⟨⟨⟨first 110, call⟩, first 100⟩, one⟩, first 42⟩, one⟩, first 56⟩, Turn.goes_fit (by decide) 81⟩

theorem contended_fits : ∀ turn ∈ contended, turn.Fits 2 (Cause.Made sampleNames) := by
  have yields : ∀ turn ∈ [Turn.trap 1 (.syscall yield)], turn.Fits 2 (Cause.Made sampleNames) :=
    List.forall_mem_singleton.mpr ⟨by decide, fun _ => .yield⟩
  have kills : ∀ turn ∈ [Turn.trap 0 (.syscall (kill (some 1) true (List.range NPROC)))],
      turn.Fits 2 (Cause.Made sampleNames) :=
    List.forall_mem_singleton.mpr ⟨by decide, fun _ => .kill _ _ (by decide)⟩
  unfold contended
  simp only [List.forall_mem_append]
  exact ⟨⟨⟨⟨forked_fits, yields⟩, Turn.goes_fit (by decide) 45⟩, kills⟩, Turn.goes_fit (by decide) 75⟩

theorem forked_reaches : ∃ s, Reachable sampleNames 2 (Cause.Made sampleNames) s ∧
    (s.cpu 0).registers = ⟨.user, true, .uservec, some 0, 0⟩ ∧
    (s.cpu 1).registers = ⟨.user, true, .uservec, some 1, 0⟩ ∧ (s.lock (.proc 1)).cpu = none := by
  obtain ⟨s, played, seen⟩ := Option.map_eq_some_iff.mp
    (show ((booted sampleNames).play sampleNames forked).map
      (fun s => ((s.cpu 0).registers, (s.cpu 1).registers, (s.lock (.proc 1)).cpu)) =
        some (⟨.user, true, .uservec, some 0, 0⟩, ⟨.user, true, .uservec, some 1, 0⟩, none) by decide +kernel)
  obtain ⟨first, second, free⟩ := Prod.mk.inj seen |>.imp_right Prod.mk.inj
  exact ⟨s, booted_reachable forked_fits played, first, second, free⟩

theorem contended_reaches : ∃ s, Reachable sampleNames 2 (Cause.Made sampleNames) s ∧
    (s.cpu 0).registers = ⟨.kernel, false, .kernelvec, some 0, 1⟩ ∧
    (s.cpu 1).registers = ⟨.kernel, false, .kernelvec, some 1, 1⟩ ∧
    s.inside (.proc 1) = [1] ∧ (s.lock (.proc 1)).cpu = some 1 := by
  obtain ⟨s, played, seen⟩ := Option.map_eq_some_iff.mp
    (show ((booted sampleNames).play sampleNames contended).map
      (fun s => ((s.cpu 0).registers, (s.cpu 1).registers, s.inside (.proc 1), (s.lock (.proc 1)).cpu)) =
        some (⟨.kernel, false, .kernelvec, some 0, 1⟩, ⟨.kernel, false, .kernelvec, some 1, 1⟩, [1], some 1)
      by decide +kernel)
  obtain ⟨first, rest⟩ := Prod.mk.inj seen
  obtain ⟨second, rest⟩ := Prod.mk.inj rest
  obtain ⟨inside, owner⟩ := Prod.mk.inj rest
  exact ⟨s, booted_reachable contended_fits played, first, second, inside, owner⟩

/-- No process is its own parent or the parent of its parent. The parent of a process is in
use, so that no zombie and no free place has children; and every process in use but the
first has a parent. -/
theorem parents_tree (kept : Kept names calls) (reachable : Reachable names n calls s) :
    Tree names.initproc s.states s.parents := by
  obtain ⟨who, view, good⟩ := reachable.good kept
  exact good.procs.tree

/-- A process waits under a lock until it is woken up, and wakes up another. -/
def awaits : K Unit := do
  some_rounds (sleep (.other 10) (.other 9))
  wakeup (.other 11)

def reads : K Unit := do
  acquire (.other 9)
  awaits
  release (.other 9)

def readsAndForks : K Unit := do
  reads
  fork sampleNames .ample
  wait4pid sampleNames true

end AvxKernel.Sched
