import AvxKernel.Proc.Table
import Mathlib.Logic.Relation

/-! What a step of one process can do to the others, and what holds in every state
that `fork`, `exit` and the waits reach: each process but the first has a living
parent. -/
namespace AvxKernel.Proc

variable {init p q r : Nat} {s t : Sys}

attribute [local simp] Sys.goto Sys.put Sys.acquire Sys.release Sys.reap Sys.wakeParent
  Function.update_apply

attribute [local grind] Slot.sleep Slot.resume Slot.wakeup Slot.freeproc Sys.Runs

def Slot.Live (np : Slot) : Prop := np.state ≠ .unused ∧ np.state ≠ .zombie

/-- What a step of `p` can make of the slot in place `q`. -/
inductive Turn (init : Nat) (s : Sys) (p q : Nat) (np : Slot) : Prop
  /-- It runs, sleeps, is woken up or is left alone. -/
  | keep (parent : np.parent = (s.proc q).parent) (pid : np.pid = (s.proc q).pid)
    (unused : np.state = .unused ↔ (s.proc q).state = .unused)
    (zombie : np.state = .zombie ↔ (s.proc q).state = .zombie)
  | reparent (status : BitVec 32) (original_parent : Nat)
    (at_pc : s.pc p = .exitReparent status original_parent q)
    (child : (s.proc q).parent = some p) (parent : np.parent = some init)
    (pid : np.pid = (s.proc q).pid) (state : np.state = (s.proc q).state)
  | zombie (status : BitVec 32) (original_parent : Nat)
    (at_pc : s.pc p = .exitReparent status original_parent NPROC) (self : q = p)
    (state : np.state = .zombie) (parent : np.parent = (s.proc q).parent)
    (pid : np.pid = (s.proc q).pid)
  | reap (child : (s.proc q).parent = some p) (zombie : (s.proc q).state = .zombie)
    (parent : np.parent = none) (pid : np.pid = 0) (state : np.state = .unused)
  | allocpid (at_pc : s.pc p = .allocproc q) (unused : (s.proc q).state = .unused)
    (free : s.lock q = none) (parent : np.parent = (s.proc q).parent) (pid : np.pid = s.nextpid)
    (state : np.state = .unused)
  | forkFail (at_pc : s.pc p = .fork q) (parent : np.parent = none) (pid : np.pid = 0)
    (state : np.state = .unused)
  | forkParent (run : s.Runs p) (at_pc : s.pc p = .fork q) (parent : np.parent = some p)
    (pid : np.pid = (s.proc q).pid) (state : np.state = (s.proc q).state)
  | forkDone (at_pc : s.pc p = .forkParent q) (parent : np.parent = (s.proc q).parent)
    (pid : np.pid = (s.proc q).pid) (state : np.state = .runnable)

theorem Step.turn (step : Step init s p t) (q : Nat) : Turn init s p q (t.proc q) := by
  cases step <;> simp <;> grind [Turn]

/-- A process becomes a parent by its own `fork`, or as the first process. -/
theorem Step.parent_new (step : Step init s p t) (parent : (t.proc q).parent = some r) :
    (s.proc q).parent = some r ∨ r = init ∨ r = p ∧ s.pc p = .fork q := by
  cases step.turn q <;> grind

theorem Step.reparent_from (step : Step init s p t) {status : BitVec 32} {i : Nat} (other : r ≠ init)
    (at_pc : t.pc r = .exitReparent status q i) :
    i = 0 ∨ s.pc r = .exitReparent status q i ∨
      ∃ k, i = k + 1 ∧ s.pc r = .exitReparent status q k ∧ (t.proc k).parent ≠ some r := by
  cases step <;> simp at at_pc ⊢ <;> grind

/-- The locks a process has at a point of the code. -/
def Pc.locks (p : Nat) : Pc → List Nat
  | .exitLockSelf _ original_parent => [original_parent]
  | .exitReparent _ original_parent _ => [original_parent, p]
  | .exitSched => [p]
  | .wait _ _ => [p]
  | .wait4pid _ _ _ => [p]
  | .fork np => [np]
  | .forkParent np => [np]
  | _ => []

/-- In `exit`, and not yet a zombie. -/
def Pc.Exiting : Pc → Prop
  | .exitParent _ | .exitLockParent _ _ | .exitLockSelf _ _ | .exitReparent _ _ _ => True
  | _ => False

/-- The parent that `exit` has read. -/
def Pc.original_parent : Pc → Option Nat
  | .exitLockParent _ original_parent => some original_parent
  | .exitLockSelf _ original_parent => some original_parent
  | .exitReparent _ original_parent _ => some original_parent
  | _ => none

attribute [local grind] Pc.locks Pc.Exiting Pc.original_parent Slot.Live

/-- What holds of the table and of where the processes are. -/
structure Sys.Family (init : Nat) (s : Sys) : Prop where
  held : ∀ p, ∀ q ∈ (s.pc p).locks p, s.lock q = some p
  root : (s.proc init).Live ∧ (s.proc init).parent = none
  parent : ∀ q r, (s.proc q).parent = some r → q < NPROC ∧ (s.proc r).Live ∧ r ≠ q
  child : ∀ q, (s.proc q).state ≠ .unused → q ≠ init → (s.proc q).parent ≠ none
  unused : ∀ p, (s.proc p).state = .unused ↔ s.pc p = .idle
  zombie : ∀ p, (s.proc p).state = .zombie ↔ s.pc p = .exitSched ∨ s.pc p = .dead
  exiting : ∀ p, (s.pc p).Exiting → p ≠ init
  other : ∀ p, (s.pc p).original_parent ≠ some p
  /-- The part of the table that `reparent` has done. -/
  given : ∀ p status q i, s.pc p = .exitReparent status q i →
    ∀ j, j < i → (s.proc j).parent ≠ some p
  fork : ∀ p q, s.pc p = .fork q →
    q < NPROC ∧ (s.proc q).state = .unused ∧ (s.proc q).parent = none ∧ 0 < (s.proc q).pid
  forkParent : ∀ p q, s.pc p = .forkParent q →
    q < NPROC ∧ (s.proc q).state = .unused ∧ (s.proc q).parent = some p ∧ 0 < (s.proc q).pid
  /-- A place with a parent and no process is one that `fork` fills. -/
  new : ∀ q r, (s.proc q).state = .unused → (s.proc q).parent = some r → s.pc r = .forkParent q
  next : 0 < s.nextpid
  pid : ∀ q, (s.proc q).state ≠ .unused → 0 < (s.proc q).pid
  pid_lt : ∀ q, (s.proc q).pid < s.nextpid
  pid_inj : ∀ q r, 0 < (s.proc q).pid → (s.proc q).pid = (s.proc r).pid → q = r

namespace Sys.Family

variable (h : s.Family init)
include h

/-- A place that no process is about to fill has no parent. -/
theorem parent_eq_none (unused : (s.proc q).state = .unused) (free : s.lock q = none) :
    (s.proc q).parent = none := by
  cases parent : (s.proc q).parent with
  | none => rfl
  | some r =>
    have held := h.held r q (by simp [h.new q r unused parent, Pc.locks])
    simp [held] at free

variable (step : Step init s p t)
include step

theorem step_held : ∀ r, ∀ q ∈ (t.pc r).locks r, t.lock q = some r := by
  intro r q mem
  have held := h.held p
  have held' := h.held r
  have other := h.other p
  have fork := h.fork p
  have forkParent := h.forkParent p
  have unused := h.unused
  cases step <;> simp at mem ⊢ <;> grind

theorem step_root : (t.proc init).Live ∧ (t.proc init).parent = none := by
  have root := h.root
  have exiting := h.exiting p
  have fork := h.fork p init
  have forkParent := h.forkParent p init
  cases step.turn init <;> grind

theorem step_parent (q r : Nat) (parent : (t.proc q).parent = some r) :
    q < NPROC ∧ (t.proc r).Live ∧ r ≠ q := by
  have kept := h.parent q
  have root := h.root
  have root' := h.step_root step
  have given := h.given p
  have fork := h.fork p
  have forkParent := h.forkParent p
  have turn := step.turn r
  cases step.turn q <;> grind [cases Turn]

theorem step_child (q : Nat) (used : (t.proc q).state ≠ .unused) (other : q ≠ init) :
    (t.proc q).parent ≠ none := by
  have kept := h.child q
  have unused := h.unused q
  have forkParent := h.forkParent p q
  cases step.turn q <;> grind

theorem step_unused (r : Nat) : (t.proc r).state = .unused ↔ t.pc r = .idle := by
  have kept := h.unused
  have fork := h.fork p
  have forkParent := h.forkParent p
  cases step <;> simp <;> grind

theorem step_zombie (r : Nat) :
    (t.proc r).state = .zombie ↔ t.pc r = .exitSched ∨ t.pc r = .dead := by
  have kept := h.zombie
  have fork := h.fork p
  have forkParent := h.forkParent p
  cases step <;> simp <;> grind

theorem step_exiting (r : Nat) (exiting : (t.pc r).Exiting) : r ≠ init := by
  have kept := h.exiting
  cases step <;> simp at exiting <;> grind

theorem step_other (r : Nat) : (t.pc r).original_parent ≠ some r := by
  have kept := h.other r
  have parent := h.parent r
  cases step <;> simp <;> grind

theorem step_given (r : Nat) (status : BitVec 32) (q i : Nat)
    (at_pc : t.pc r = .exitReparent status q i) (j : Nat) (before : j < i) :
    (t.proc j).parent ≠ some r := by
  intro parent
  have other : r ≠ init := h.step_exiting step r (by rw [at_pc]; trivial)
  obtain start | same | ⟨k, rfl, at_k, done⟩ := step.reparent_from other at_pc
  · omega
  · obtain old | new | ⟨rfl, forking⟩ := step.parent_new parent
    · exact h.given r status q i same j before old
    · exact other new
    · rw [same] at forking
      cases forking
  · obtain old | new | ⟨rfl, forking⟩ := step.parent_new parent
    · rcases Nat.lt_succ_iff_lt_or_eq.1 before with earlier | rfl
      · exact h.given r status q k at_k j earlier old
      · exact done parent
    · exact other new
    · rw [at_k] at forking
      cases forking

theorem step_fork (r q : Nat) (at_pc : t.pc r = .fork q) : q < NPROC ∧
    (t.proc q).state = .unused ∧ (t.proc q).parent = none ∧ 0 < (t.proc q).pid := by
  have kept := h.fork r q
  have held := h.held r q
  have held' := h.held p q
  have parent := h.parent_eq_none (q := q)
  have next := h.next
  cases step <;> simp at at_pc ⊢ <;> grind

theorem step_forkParent (r q : Nat) (at_pc : t.pc r = .forkParent q) : q < NPROC ∧
    (t.proc q).state = .unused ∧ (t.proc q).parent = some r ∧ 0 < (t.proc q).pid := by
  have kept := h.forkParent r q
  have held := h.held r q
  have held' := h.held p q
  have fork := h.fork p
  cases step <;> simp at at_pc ⊢ <;> grind

theorem step_new (q r : Nat) (unused : (t.proc q).state = .unused)
    (parent : (t.proc q).parent = some r) : t.pc r = .forkParent q := by
  have kept := h.new q
  have idle := h.unused
  have zombie := h.zombie
  have forkParent := h.forkParent p
  have held := h.held p
  have held' := h.held r
  cases step <;> simp at unused parent ⊢ <;> grind

theorem step_next : 0 < t.nextpid := by
  have kept := h.next
  cases step <;> simp <;> grind

theorem step_pid (q : Nat) (used : (t.proc q).state ≠ .unused) : 0 < (t.proc q).pid := by
  have kept := h.pid q
  have unused := h.unused q
  have forkParent := h.forkParent p q
  cases step.turn q <;> grind

theorem step_pid_lt (q : Nat) : (t.proc q).pid < t.nextpid := by
  have kept := h.pid_lt q
  have next := h.next
  cases step <;> simp <;> grind

/-- The pid that `allocpid` gives is above all others. -/
theorem step_pid_inj (q r : Nat) (pos : 0 < (t.proc q).pid)
    (eq : (t.proc q).pid = (t.proc r).pid) : q = r := by
  have kept := h.pid_inj q r
  have below := h.pid_lt q
  have below' := h.pid_lt r
  have turn := step.turn r
  cases step.turn q <;> grind [cases Turn]

protected theorem step : t.Family init where
  held := h.step_held step
  root := h.step_root step
  parent := h.step_parent step
  child := h.step_child step
  unused := h.step_unused step
  zombie := h.step_zombie step
  exiting := h.step_exiting step
  other := h.step_other step
  given := h.step_given step
  fork := h.step_fork step
  forkParent := h.step_forkParent step
  new := h.step_new step
  next := h.step_next step
  pid := h.step_pid step
  pid_lt := h.step_pid_lt step
  pid_inj := h.step_pid_inj step

end Sys.Family

theorem Sys.Start.family (h : s.Start init) : s.Family init := by
  have first := h.first
  have others := h.others
  have unlocked := h.unlocked
  constructor <;> grind

/-- The states that the steps of any processes, in any order, reach. -/
def Reachable (init : Nat) : Sys → Sys → Prop :=
  Relation.ReflTransGen fun s t => ∃ p, Step init s p t

theorem Reachable.family (run : Reachable init s t) (start : s.Start init) : t.Family init := by
  induction run with
  | refl => exact start.family
  | tail _ last family =>
    obtain ⟨p, step⟩ := last
    exact family.step step

/-- The first process in a table of its own. -/
def Sys.first : Sys where
  proc q := ⟨if q = 0 then .runnable else .unused, none, none, false, 0, if q = 0 then 1 else 0⟩
  lock _ := none
  pc q := if q = 0 then .user else .idle
  nextpid := 2
  births := 1
  born _ := 0
  exited := []
  reaped := []

theorem Sys.first_start : Sys.first.Start 0 := by
  constructor <;> simp +contextual [Sys.first, NPROC]

/-- The table once `p` has made a process in place `np`. -/
def Sys.forked (s : Sys) (p np : Nat) : Sys :=
  let found := s.goto p (.allocproc np)
  let allocated :=
    { ((found.put np fun q => { q with pid := s.nextpid }).acquire np p).goto p (.fork np) with
      nextpid := s.nextpid + 1
      births := s.births + 1
      born := Function.update s.born np s.births }
  let child := (allocated.put np fun q => { q with parent := some p }).goto p (.forkParent np)
  (((child.put np fun q => { q with state := .runnable }).release np).goto np .user).goto p .user

theorem Sys.goto_goto (pc pc' : Pc) : (s.goto p pc).goto p pc' = s.goto p pc' := by
  simp [Sys.goto, Function.update_idem]

theorem Reachable.forked (reach : Reachable init s t) (run : t.Runs p) (at_pc : t.pc p = .user)
    (np : Nat) (inside : np < NPROC)
    (before : ∀ q, q < np → t.lock q = none ∧ (t.proc q).state ≠ .unused)
    (free : t.lock np = none) (unused : (t.proc np).state = .unused)
    (narrow : t.nextpid + 1 < 2 ^ 31) : Reachable init s (t.forked p np) := by
  have other : p ≠ np := by
    rintro rfl
    simp [run.2] at unused
  have looked (i : Nat) : i ≤ np → Reachable init s (t.goto p (.allocproc i)) := by
    intro le
    induction i with
    | zero => exact reach.tail ⟨p, .fork run at_pc⟩
    | succ i ih =>
      refine .tail (ih (by omega)) ⟨p, ?_⟩
      rw [← Sys.goto_goto (.allocproc i) (.allocproc (i + 1))]
      exact .allocprocNext i run (by simp [Sys.goto]) (by omega)
        (before i le).1 (before i le).2
  refine (((looked np (Nat.le_refl np)).tail ⟨p, .allocpid np run ?_ inside free unused narrow⟩).tail
    ⟨p, .forkParent np ?_ ?_⟩).tail ⟨p, .forkDone np ?_ ?_⟩ <;>
    simp [Sys.goto, Sys.put, Sys.acquire, Sys.Runs, other, run.1, run.2]

/-- The first process has made one, which has made one. -/
def Sys.generations : Sys := (((Sys.first.put 0 Slot.resume).forked 0 1).put 1 Slot.resume).forked 1 2

theorem Sys.generations_reachable : Reachable 0 Sys.first Sys.generations := by
  have first : Reachable 0 Sys.first (Sys.first.put 0 Slot.resume) :=
    .single ⟨0, .schedule (by decide) rfl rfl (by simp [Sys.first])⟩
  have forked := first.forked (p := 0) ⟨by decide, rfl⟩ rfl 1 (by decide)
    (by simp [Sys.first, Sys.put, Slot.resume]) rfl rfl (by decide)
  have child : Reachable 0 Sys.first _ :=
    forked.tail ⟨1, .schedule (by decide) rfl rfl ⟨nofun, nofun⟩⟩
  refine child.forked (p := 1) ⟨by decide, rfl⟩ rfl 2 (by decide) ?_ rfl rfl (by decide)
  intro q before
  match q, before with
  | 0, _ => exact ⟨rfl, nofun⟩
  | 1, _ => exact ⟨rfl, nofun⟩

end AvxKernel.Proc
