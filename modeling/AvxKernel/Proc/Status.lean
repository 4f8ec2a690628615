import AvxKernel.Proc.Family

/-! The status that a parent is given of a child that has exited. `wait4pid` shifts it
in the table before it copies it out. -/
namespace AvxKernel.Proc

variable {init p q np k addr : Nat} {s s₀ t u : Sys} {status : BitVec 32} {child : Slot}
  {copyout : Nat → BitVec 32 → Int}

attribute [local simp] Sys.goto Sys.put Sys.acquire Sys.release Sys.reap Sys.wakeParent
  Function.update_apply

attribute [local grind] Slot.sleep Slot.resume Slot.wakeup Slot.freeproc Sys.Runs Slot.Live

/-- What a call does with a child that it has found to have exited: the word it has stored
at the status address, the child, and what it returns. -/
structure Collected where
  stored : Option (BitVec 32)
  child : Slot
  result : Int

/-- The section of `wait` for such a child; `copyout` says how a copy of a status ends. -/
def Slot.wait (np : Slot) (copyout : Nat → BitVec 32 → Int) (addr : Nat) : Collected :=
  if addr ≠ 0 ∧ copyout addr np.xstate < 0 then
    ⟨none, np, -1⟩
  else
    ⟨if addr = 0 then none else some np.xstate, np.freeproc, np.pid⟩

/-- The same of `wait4pid`. -/
def Slot.wait4pid (np : Slot) (copyout : Nat → BitVec 32 → Int) (addr : Nat) : Collected :=
  let child := { np with xstate := np.xstate <<< 8 }
  if addr ≠ 0 ∧ copyout addr child.xstate < 0 then
    ⟨none, child, -1⟩
  else
    ⟨if addr = 0 then none else some child.xstate, child.freeproc, child.pid⟩

/-! ### The sections as steps -/

/-- The child is where a call of `p` looks at it. -/
structure Sys.Finds (s : Sys) (p np : Nat) : Prop where
  run : s.Runs p
  inside : np < NPROC
  child : (s.proc np).parent = some p
  free : s.lock np = none
  zombie : (s.proc np).state = .zombie

/-- What the table is after a call. -/
def Sys.collect (s : Sys) (p np : Nat) (call : Collected) : Sys :=
  if call.result < 0 then ((s.put np fun _ => call.child).release p).goto p .user
  else s.reap p np

theorem Sys.put_self (s : Sys) (q : Nat) : s.put q (fun _ => s.proc q) = s := by
  rw [Sys.put, Function.update_eq_self]

theorem Sys.Finds.wait (finds : s.Finds p np) {havekids : Bool} (at_pc : s.pc p = .wait np havekids) :
    Step init s p (s.collect p np ((s.proc np).wait copyout addr)) := by
  obtain ⟨run, inside, child, free, zombie⟩ := finds
  rw [Sys.collect, Slot.wait]
  by_cases fails : addr ≠ 0 ∧ copyout addr (s.proc np).xstate < 0
  · rw [if_pos fails, if_pos (show (-1 : Int) < 0 by decide), Sys.put_self]
    exact .waitFail np havekids run at_pc inside child free zombie
  · rw [if_neg fails, if_neg (by simp)]
    exact .waitReap np havekids run at_pc inside child free zombie

theorem Sys.Finds.wait4pid (finds : s.Finds p np) {pid tchild : Option Nat}
    (at_pc : s.pc p = .wait4pid pid np tchild) (wanted : Matches pid (s.proc np)) :
    Step init s p (s.collect p np ((s.proc np).wait4pid copyout addr)) := by
  obtain ⟨run, inside, child, free, zombie⟩ := finds
  rw [Sys.collect, Slot.wait4pid]
  by_cases fails : addr ≠ 0 ∧ copyout addr ((s.proc np).xstate <<< 8) < 0
  · rw [if_pos fails, if_pos (show (-1 : Int) < 0 by decide)]
    exact .wait4pidFail pid np tchild run at_pc inside wanted child free zombie
  · rw [if_neg fails, if_neg (by simp)]
    exact .wait4pidReap pid np tchild run at_pc inside wanted child free zombie

/-! ### Runs -/

/-- `np` ends its `exit`. -/
def Exits (s : Sys) (np : Nat) (status : BitVec 32) (t : Sys) : Prop :=
  ∃ original_parent, s.Runs np ∧ s.pc np = .exitReparent status original_parent NPROC ∧
    t = { ((((s.wakeParent original_parent np).put np fun q =>
        { q with xstate := status, state := .zombie }).release original_parent).goto np
        .exitSched) with exited := s.born np :: s.exited }

theorem Exits.step (exits : Exits s np status t) : Step init s np t := by
  obtain ⟨original_parent, run, at_pc, rfl⟩ := exits
  exact .exitZombie status original_parent run at_pc

/-- `p` finds `np` in `wait4pid` and cannot store its status. -/
def Fails (s : Sys) (p np : Nat) (t : Sys) : Prop :=
  s.Finds p np ∧ ∃ pid tchild, s.pc p = .wait4pid pid np tchild ∧ Matches pid (s.proc np) ∧
    t = ((s.put np fun q => { q with xstate := q.xstate <<< 8 }).release p).goto p .user

/-- A run in which `np` is not reaped, and in which so many calls of `wait4pid` have found
it and failed. -/
inductive Waits (init np : Nat) (s : Sys) : Nat → Sys → Prop where
  | refl : Waits init np s 0 s
  | aside {k p : Nat} {t u : Sys} (run : Waits init np s k t) (step : Step init t p u)
    (other : ¬Fails t p np u) (still : (u.proc np).state = .zombie) : Waits init np s k u
  | fails {k p : Nat} {t u : Sys} (run : Waits init np s k t) (fails : Fails t p np u) :
    Waits init np s (k + 1) u

theorem Fails.step (fails : Fails s p np t) : Step init s p t := by
  obtain ⟨⟨run, inside, child, free, zombie⟩, pid, tchild, at_pc, wanted, rfl⟩ := fails
  exact .wait4pidFail pid np tchild run at_pc inside wanted child free zombie

/-- Nothing but a failing `wait4pid` changes the status of a zombie. -/
theorem Step.xstate_kept (family : s.Family init) (step : Step init s p t)
    (zombie : (s.proc np).state = .zombie) (still : (t.proc np).state = .zombie)
    (other : ¬Fails s p np t) : (t.proc np).xstate = (s.proc np).xstate := by
  have fork := family.fork p
  have forkParent := family.forkParent p
  cases step
  case wait4pidFail pid q tchild run at_pc inside wanted child free found =>
    have apart : np ≠ q := by
      rintro rfl
      exact other ⟨⟨run, inside, child, free, found⟩, pid, tchild, at_pc, wanted, rfl⟩
    simp [apart]
  all_goals
    clear other
    simp at still ⊢ <;> grind

/-- Each failure has shifted the status. -/
theorem Waits.xstate (run : Waits init np s k t) (family : s.Family init)
    (zombie : (s.proc np).state = .zombie) : t.Family init ∧ (t.proc np).state = .zombie ∧
      (t.proc np).xstate = (s.proc np).xstate <<< (8 * k) := by
  induction run with
  | refl => exact ⟨family, zombie, (BitVec.shiftLeft_zero _).symm⟩
  | aside _ step other still ih =>
    obtain ⟨family, zombie, status⟩ := ih
    exact ⟨family.step step, still, (step.xstate_kept family zombie still other).trans status⟩
  | fails _ fails ih =>
    obtain ⟨family, zombie, status⟩ := ih
    refine ⟨family.step fails.step, ?_⟩
    obtain ⟨-, pid, tchild, -, -, rfl⟩ := fails
    simp only [Sys.goto, Sys.release, Sys.put, Function.update_self]
    exact ⟨zombie, by rw [status, Nat.mul_succ, BitVec.shiftLeft_add]⟩

theorem shifted_again {status : BitVec 32} {n : Nat} (same : status <<< n = status) (m : Nat) :
    status <<< (n * m) = status := by
  induction m with
  | zero => exact BitVec.shiftLeft_zero _
  | succ m ih => rw [Nat.mul_succ, BitVec.shiftLeft_add, ih, same]

/-- A word that is not 0 is changed by every shift. -/
theorem shifted_eq_iff (status : BitVec 32) (k : Nat) :
    status <<< (8 * k) = status ↔ k = 0 ∨ status = 0 := by
  constructor
  · intro same
    rcases Nat.eq_zero_or_pos k with none | some
    · exact .inl none
    · rw [← shifted_again same 32]
      exact .inr (BitVec.shiftLeft_eq_zero (by omega))
  · rintro (rfl | rfl)
    · exact BitVec.shiftLeft_zero _
    · exact BitVec.zero_shiftLeft _

/-- A child that has exited with a status is a zombie, and calls that fail have left it as
it was; the one that reaps it stores the status, shifted where it is `wait4pid`. -/
structure Faithful (np : Slot) (status : BitVec 32) : Prop where
  zombie : np.state = .zombie
  unchanged : np.xstate = status
  wait : ∀ copyout addr v, (np.wait copyout addr).stored = some v → v = status
  wait4pid : ∀ copyout addr v, (np.wait4pid copyout addr).stored = some v → v = status <<< 8
  failed : ∀ copyout addr, (np.wait copyout addr).result < 0 → (np.wait copyout addr).child = np

theorem Slot.wait_failed (failed : (child.wait copyout addr).result < 0) :
    (child.wait copyout addr).child = child := by
  rw [Slot.wait] at failed ⊢
  split
  · rfl
  · next returns =>
    rw [if_neg returns] at failed
    exact absurd failed (by simp)

theorem Slot.wait_stored {v : BitVec 32} (stored : (child.wait copyout addr).stored = some v) :
    v = child.xstate := by
  rw [Slot.wait] at stored
  split at stored
  · cases stored
  · split at stored
    · cases stored
    · cases stored
      rfl

theorem Slot.wait4pid_stored {v : BitVec 32} (stored : (child.wait4pid copyout addr).stored = some v) :
    v = child.xstate <<< 8 := by
  rw [Slot.wait4pid] at stored
  dsimp only at stored
  split at stored
  · cases stored
  · split at stored
    · cases stored
    · cases stored
      rfl

theorem faithful_iff (zombie : child.state = .zombie) : Faithful child status ↔ child.xstate = status := by
  constructor
  · exact fun faithful => faithful.unchanged
  · intro same
    refine ⟨zombie, same, fun _ _ v stored => ?_, fun _ _ v stored => ?_, fun _ _ => Slot.wait_failed⟩
    · rw [Slot.wait_stored stored, same]
    · rw [Slot.wait4pid_stored stored, same]

/-- The status of a child is what its `exit` was given, as long as no `wait4pid` that has
found it has failed. -/
theorem exit_status_iff (start : s₀.Start init) (reach : Reachable init s₀ s)
    (exits : Exits s np status t) (run : Waits init np t k u) :
    Faithful (u.proc np) status ↔ k = 0 ∨ status = 0 := by
  have family : t.Family init := (reach.family start).step exits.step
  obtain ⟨original_parent, -, -, rfl⟩ := exits
  obtain ⟨-, zombie, same⟩ := run.xstate family (by simp)
  rw [faithful_iff zombie, same, ← shifted_eq_iff]
  simp

/-! ### A child that has exited with 7 -/

/-- A process without children may go through its `exit`. -/
theorem Reachable.exiting {q : Nat} (reach : Reachable init s t) (run : t.Runs p) (at_pc : t.pc p = .user)
    (other : p ≠ init) (awake : (t.proc init).state ≠ .sleeping) (parent : (t.proc p).parent = some q)
    (apart : q ≠ p) (unlocked : ∀ r, t.lock r = none) (childless : ∀ r, (t.proc r).parent ≠ some p)
    (status : BitVec 32) (i : Nat) (inside : i ≤ NPROC) :
    Reachable init s (((t.acquire q p).acquire p p).goto p (.exitReparent status q i)) := by
  have at_goto (v : Sys) (pc : Pc) : (v.goto p pc).pc p = pc := Function.update_self ..
  have entered : Reachable init s (t.goto p (.exitParent status)) := by
    have step := reach.tail ⟨p, .exit status run at_pc other (unlocked init)⟩
    have eq : (t.put init fun q => q.wakeup (.proc init)) = t := by
      rw [Sys.put, Slot.wakeup, if_neg fun asleep => awake asleep.2, Function.update_eq_self]
    rwa [eq] at step
  have read := entered.tail ⟨p, .exitParent status q run (at_goto _ _) (unlocked p) parent⟩
  rw [Sys.goto_goto] at read
  have first := read.tail ⟨p, .exitLockParent status q run (at_goto _ _) (unlocked q)⟩
  rw [show ∀ pc, (t.goto p pc).acquire q p = (t.acquire q p).goto p pc from fun _ => rfl,
    Sys.goto_goto] at first
  have alone : (t.acquire q p).lock p = none := by
    simpa [apart.symm] using unlocked p
  have second := first.tail ⟨p, .exitLockSelf status q run (at_goto _ _) alone⟩
  rw [show ∀ pc, ((t.acquire q p).goto p pc).acquire p p = ((t.acquire q p).acquire p p).goto p pc from
    fun _ => rfl, Sys.goto_goto] at second
  induction i with
  | zero => exact second
  | succ i ih =>
    have next := (ih (Nat.le_of_succ_le inside)).tail
      ⟨p, .reparentNext status q i run (at_goto _ _) inside (childless i)⟩
    rwa [Sys.goto_goto] at next

/-- The third process of `generations` is about to end. -/
def Sys.ending : Sys :=
  let s := Sys.generations.put 2 Slot.resume
  ((s.acquire 1 2).acquire 2 2).goto 2 (.exitReparent 7 1 NPROC)

theorem Sys.ending_reachable : Reachable 0 Sys.first Sys.ending := by
  have scheduled : Reachable 0 Sys.first (Sys.generations.put 2 Slot.resume) :=
    Sys.generations_reachable.tail ⟨2, .schedule (by decide) rfl rfl ⟨nofun, nofun⟩⟩
  apply scheduled.exiting ⟨by decide, rfl⟩ rfl (by decide) nofun rfl (by decide) ?_ ?_ 7 NPROC (Nat.le_refl _)
  · intro r
    simp [Sys.generations, Sys.forked, Sys.first]
  · intro r child
    simp [Sys.generations, Sys.forked, Slot.resume, Sys.first] at child
    grind

/-- It has ended. -/
def Sys.ended : Sys :=
  { ((((Sys.ending.wakeParent 1 2).put 2 fun q =>
    { q with xstate := 7, state := .zombie }).release 1).goto 2 .exitSched) with
      exited := Sys.ending.born 2 :: Sys.ending.exited }

theorem Sys.ended_exits : Exits Sys.ending 2 7 Sys.ended := ⟨1, ⟨by decide, rfl⟩, rfl, rfl⟩

/-- Its parent finds it. -/
def Sys.found : Sys :=
  (((Sys.ended.release 2).goto 2 .dead).acquire 1 1).goto 1 (.wait4pid none 2 none)

/-- The status could not be stored. -/
def Sys.refused : Sys :=
  ((Sys.found.put 2 fun q => { q with xstate := q.xstate <<< 8 }).release 1).goto 1 .user

theorem Sys.refused_waits : Waits 0 2 Sys.ended 1 Sys.refused := by
  let s := ((Sys.ended.release 2).goto 2 .dead).acquire 1 1
  have looking (i : Nat) : (s.goto 1 (.wait4pid none i none)).pc 1 = .wait4pid none i none := rfl
  have elsewhere (i : Nat) (ne : 2 ≠ i) (u : Sys) : ¬Fails (s.goto 1 (.wait4pid none i none)) 1 2 u := by
    rintro ⟨-, pid, tchild, at_pc, -⟩
    rw [looking, Pc.wait4pid.injEq] at at_pc
    exact ne at_pc.2.1.symm
  have dead : Waits 0 2 Sys.ended 0 ((Sys.ended.release 2).goto 2 .dead) := by
    refine .aside .refl (.exitSched rfl) ?_ rfl
    rintro ⟨-, pid, tchild, at_pc, -⟩
    cases at_pc
  have begun : Waits 0 2 Sys.ended 0 (s.goto 1 (.wait4pid none 0 none)) := by
    refine .aside dead (.wait4pid none ⟨by decide, rfl⟩ rfl rfl) ?_ rfl
    rintro ⟨-, pid, tchild, at_pc, -⟩
    cases at_pc
  have first : Waits 0 2 Sys.ended 0 (s.goto 1 (.wait4pid none 1 none)) := by
    rw [← Sys.goto_goto (.wait4pid none 0 none)]
    exact .aside begun (.wait4pidNext none 0 none ⟨by decide, rfl⟩ rfl (by decide) nofun)
      (elsewhere 0 (by decide) _) rfl
  have second : Waits 0 2 Sys.ended 0 Sys.found := by
    rw [Sys.found, ← Sys.goto_goto (.wait4pid none 1 none)]
    refine .aside first (.wait4pidNext none 1 none ⟨by decide, rfl⟩ rfl (by decide) ?_)
      (elsewhere 1 (by decide) _) rfl
    rintro ⟨-, parent⟩
    cases parent
  exact .fails second ⟨⟨⟨by decide, rfl⟩, by decide, rfl, rfl, rfl⟩, none, none, rfl, nofun, rfl⟩

theorem exit_status_refused : Faithful (Sys.refused.proc 2) 7 ↔ 1 = 0 ∨ (7 : BitVec 32) = 0 :=
  exit_status_iff Sys.first_start Sys.ending_reachable Sys.ended_exits Sys.refused_waits

/-- One `wait4pid` that cannot store the status, and `wait` stores 7 times 256. -/
theorem wait4pid_shifts : ∃ s t u, Reachable 0 Sys.first s ∧ Exits s 2 7 t ∧ Waits 0 2 t 1 u ∧
    ((t.proc 2).wait4pid (fun _ _ => -1) 8).child = u.proc 2 ∧
    ((u.proc 2).wait (fun _ _ => 0) 8).stored = some (7 * 256) ∧
    ((u.proc 2).wait4pid (fun _ _ => 0) 8).stored = some (7 * 256 * 256) ∧
    ¬Faithful (u.proc 2) 7 := by
  refine ⟨_, _, _, Sys.ending_reachable, Sys.ended_exits, Sys.refused_waits, rfl, rfl, rfl, ?_⟩
  exact fun faithful => absurd faithful.unchanged (by decide)

end AvxKernel.Proc
