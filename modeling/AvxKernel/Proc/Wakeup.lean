import AvxKernel.Proc.Family

/-! A process that sleeps in `wait` or `wait4pid` has no child that the call could
reap: `exit` wakes the parent up on either channel, and has the parent's lock. -/
namespace AvxKernel.Proc

variable {init p q r : Nat} {s t : Sys}

attribute [local simp] Sys.goto Sys.put Sys.acquire Sys.release Sys.reap Sys.wakeParent
  Function.update_apply

attribute [local grind] Slot.sleep Slot.resume Slot.wakeup Slot.freeproc Sys.Runs Pc.locks
  Pc.Exiting Pc.original_parent Slot.Live

/-- The call at this point of the code: what it waits for, how many places it has
looked at, and the child it has found. -/
def Pc.looks : Pc → Option (Option Nat × Nat × Option Nat)
  | .wait i _ => some (none, i, none)
  | .wait4pid pid i tchild => some (pid, i, tchild)
  | _ => none

/-- The same for a call that sleeps, with its channel. -/
def Pc.sleeps (p : Nat) : Pc → Option (Option Nat × Option Nat × Chan)
  | .waitSleep => some (none, none, .proc p)
  | .wait4pidSleep pid tchild => some (pid, some tchild, waitChan p pid tchild)
  | _ => none

attribute [local grind] Pc.looks Pc.sleeps

/-- The call that waits for `pid` would reap no process before place `i`. -/
def Sys.Nothing (s : Sys) (p : Nat) (pid : Option Nat) (i : Nat) : Prop :=
  ∀ j, j < i → (s.proc j).parent = some p → Matches pid (s.proc j) → (s.proc j).state ≠ .zombie

/-- `c` is a child that the call waits for. -/
def Sys.Wanted (s : Sys) (p : Nat) (pid : Option Nat) (c : Nat) : Prop :=
  (s.proc c).parent = some p ∧ Matches pid (s.proc c) ∧ (s.proc c).state ≠ .unused

structure Sys.Awake (init : Nat) (s : Sys) : Prop where
  /-- A parent changes only to the first process. -/
  kin : ∀ j q, (s.pc j).original_parent = some q →
    (s.proc j).parent = some q ∨ (s.proc j).parent = some init
  looking : ∀ p pid i tchild, p ≠ init → (s.pc p).looks = some (pid, i, tchild) →
    s.Nothing p pid i ∧ ∀ c ∈ tchild, s.Wanted p pid c
  sleeping : ∀ p pid tchild chan, p ≠ init → (s.pc p).sleeps p = some (pid, tchild, chan) →
    (s.proc p).state = .sleeping →
      (s.proc p).chan = some chan ∧ s.Nothing p pid NPROC ∧ ∀ c ∈ tchild, s.Wanted p pid c

/-- Another process goes on from where it is, unless it has just begun or is no more. -/
theorem Step.pc_other (step : Step init s p t) (other : r ≠ p) :
    t.pc r = s.pc r ∨ t.pc r = .idle ∨ t.pc r = .user := by
  cases step <;> simp <;> grind

theorem Step.looks_other (step : Step init s p t) (other : r ≠ p) {call}
    (looks : (t.pc r).looks = some call) : (s.pc r).looks = some call := by
  obtain same | idle | user := step.pc_other other <;> grind

theorem Step.sleeps_other (step : Step init s p t) (other : r ≠ p) {call}
    (sleeps : (t.pc r).sleeps r = some call) : (s.pc r).sleeps r = some call := by
  obtain same | idle | user := step.pc_other other <;> grind

theorem Pc.locks_of_looks {pc : Pc} {call} (looks : pc.looks = some call) : p ∈ pc.locks p := by
  cases pc <;> simp [Pc.looks] at looks <;> simp [Pc.locks]

/-- `wait4pid` sleeps on the child when it waits for one. -/
theorem Pc.chan_of_sleeps {pc : Pc} {pid tchild : Option Nat} {chan : Chan}
    (sleeps : pc.sleeps p = some (pid, tchild, chan)) :
    chan = .proc p ∨ ∃ c n, pid = some n ∧ tchild = some c ∧ chan = .proc c := by
  cases pc <;> simp only [Pc.sleeps, Option.some.injEq, Prod.mk.injEq, reduceCtorEq] at sleeps
  case waitSleep => exact .inl sleeps.2.2.symm
  case wait4pidSleep pid tchild =>
    obtain ⟨rfl, rfl, rfl⟩ := sleeps
    cases pid with
    | none => exact .inl rfl
    | some n => exact .inr ⟨tchild, n, rfl, rfl, rfl⟩

/-- The slots hold the same process, as far as its parent's waits go. -/
def Slot.Alike (np old : Slot) : Prop :=
  np.parent = old.parent ∧ np.pid = old.pid ∧ (np.state = .unused ↔ old.state = .unused) ∧
    (np.state = .zombie ↔ old.state = .zombie)

attribute [local grind] Slot.Alike

/-- A call that looks has begun to look, or has looked at one more place, where there is
no zombie that it waits for. -/
theorem Step.looks_self (family : s.Family init) (step : Step init s p t) {pid tchild : Option Nat} {i : Nat} (looks : (t.pc p).looks = some (pid, i, tchild)) :
    i = 0 ∧ tchild = none ∨ (∀ q, (t.proc q).Alike (s.proc q)) ∧
      ((s.pc p).looks = some (pid, i, tchild) ∨
      ∃ k found, i = k + 1 ∧ (s.pc p).looks = some (pid, k, found) ∧
        (tchild = found ∨ tchild = some k ∧ (s.proc k).parent = some p ∧ s.lock k = none ∧
          Matches pid (s.proc k)) ∧
        ((s.proc k).parent = some p → Matches pid (s.proc k) → (s.proc k).state ≠ .zombie)) := by
  have held := family.held p
  cases step <;> simp at looks ⊢ <;> grind

/-- A call that sleeps has looked at all the table. -/
theorem Step.sleeps_self (step : Step init s p t) (asleep : (t.proc p).state = .sleeping)
    {pid tchild : Option Nat} {chan : Chan} (sleeps : (t.pc p).sleeps p = some (pid, tchild, chan)) :
    (t.proc p).chan = some chan ∧ (∀ q, (t.proc q).Alike (s.proc q)) ∧
      (s.pc p).looks = some (pid, NPROC, tchild) := by
  cases step <;> simp at asleep sleeps ⊢ <;> grind

theorem Sys.Nothing.alike {pid : Option Nat} {i : Nat} (nothing : s.Nothing p pid i)
    (alike : ∀ q, (t.proc q).Alike (s.proc q)) : t.Nothing p pid i := by
  intro j inside child matched zombie
  obtain ⟨parent, pid, -, ended⟩ := alike j
  exact nothing j inside (parent ▸ child) (fun n eq => pid ▸ matched n eq) (ended.1 zombie)

theorem Sys.Wanted.alike {pid : Option Nat} {c : Nat} (wanted : s.Wanted p pid c)
    (alike : (t.proc c).Alike (s.proc c)) : t.Wanted p pid c := by
  obtain ⟨child, matched, used⟩ := wanted
  obtain ⟨parent, pid, unused, -⟩ := alike
  exact ⟨parent.trans child, fun n eq => pid.trans (matched n eq), fun eq => used (unused.1 eq)⟩

theorem Step.sleeping_other (step : Step init s p t) (other : r ≠ p)
    (asleep : (t.proc r).state = .sleeping) :
    (s.proc r).state = .sleeping ∧ (t.proc r).chan = (s.proc r).chan := by
  cases step <;> simp at asleep ⊢ <;> grind

/-- The wakeups of `exit`. -/
theorem Step.wakes (step : Step init s p t) (alive : (s.proc p).state ≠ .zombie)
    (zombie : (t.proc p).state = .zombie) (at_pc : (s.pc p).original_parent = some r)
    (asleep : (t.proc r).state = .sleeping) :
    (s.proc r).chan ≠ some (.proc r) ∧ (s.proc r).chan ≠ some (.proc p) := by
  cases step <;> simp at asleep zombie ⊢ <;> grind

namespace Sys.Awake

variable (h : s.Awake init) (family : s.Family init) (step : Step init s p t)
include family step

/-- A child that a call waits for stays one until the caller goes on. -/
theorem wanted_step (other : r ≠ p) {pid : Option Nat} {c : Nat} (wanted : s.Wanted r pid c) :
    t.Wanted r pid c := by
  obtain ⟨child, wanted, used⟩ := wanted
  have idle := family.unused c
  have fork := family.fork p c
  have forkParent := family.forkParent p c
  cases step.turn c <;> grind [Sys.Wanted, Matches]

/-- So no new child that it waits for can be a zombie, unless it exits. -/
theorem nothing_step (other : r ≠ p) (not_first : r ≠ init) {pid : Option Nat} {i : Nat}
    (nothing : s.Nothing r pid i)
    (no_exit : ∀ j, (s.proc j).parent = some r → Matches pid (s.proc j) →
      (t.proc j).state = .zombie → (s.proc j).state = .zombie) : t.Nothing r pid i := by
  intro j inside child wanted zombie
  have old := nothing j inside
  have no_exit := no_exit j
  have idle := family.unused j
  have fork := family.fork p j
  have forkParent := family.forkParent p j
  cases step.turn j <;> grind [Matches]

include h

theorem step_kin (j q : Nat) (at_pc : (t.pc j).original_parent = some q) :
    (t.proc j).parent = some q ∨ (t.proc j).parent = some init := by
  have kept := h.kin j q
  have unused := family.unused j
  have zombie := family.zombie j
  have fork := family.fork p j
  have forkParent := family.forkParent p j
  cases step <;> simp at at_pc ⊢ <;> grind

/-- To become a zombie, a child takes the lock of its parent. -/
theorem exit_lock (not_first : r ≠ init) (j : Nat) (child : (s.proc j).parent = some r)
    (zombie : (t.proc j).state = .zombie) :
    (s.proc j).state = .zombie ∨ j = p ∧ (s.pc p).original_parent = some r ∧ s.lock r = some p := by
  cases step.turn j with
  | zombie status original_parent at_pc self _ _ _ =>
    subst self
    have kin := h.kin j original_parent (by simp [at_pc, Pc.original_parent])
    have held := family.held j original_parent (by simp [at_pc, Pc.locks])
    have same : original_parent = r := by grind
    exact .inr ⟨rfl, by simp [at_pc, Pc.original_parent, same], by rw [← same, held]⟩
  | _ => grind

/-- While a process other than the first looks, none of its children can exit. -/
theorem looking_other (other : r ≠ p) (not_first : r ≠ init) {pid tchild : Option Nat} {i : Nat}
    (looks : (t.pc r).looks = some (pid, i, tchild)) :
    t.Nothing r pid i ∧ ∀ c ∈ tchild, t.Wanted r pid c := by
  have looked := step.looks_other other looks
  obtain ⟨nothing, wanted⟩ := h.looking r pid i tchild not_first looked
  refine ⟨nothing_step family step other not_first nothing fun j child _ zombie => ?_,
    fun c mem => wanted_step family step other (wanted c mem)⟩
  obtain old | ⟨rfl, -, lock⟩ := h.exit_lock family step not_first j child zombie
  · exact old
  · have held := family.held r r (Pc.locks_of_looks looked)
    simp [held] at lock
    exact absurd lock other

/-- A child that exits wakes a parent up that waits for it, on whichever channel. -/
theorem sleeping_other (other : r ≠ p) (not_first : r ≠ init) {pid tchild : Option Nat}
    {chan : Chan} (sleeps : (t.pc r).sleeps r = some (pid, tchild, chan))
    (asleep : (t.proc r).state = .sleeping) :
    (t.proc r).chan = some chan ∧ t.Nothing r pid NPROC ∧ ∀ c ∈ tchild, t.Wanted r pid c := by
  have slept := step.sleeps_other other sleeps
  obtain ⟨was_asleep, same⟩ := step.sleeping_other other asleep
  obtain ⟨on_chan, nothing, wanted⟩ := h.sleeping r pid tchild chan not_first slept was_asleep
  refine ⟨same ▸ on_chan, nothing_step family step other not_first nothing
    fun j child matched zombie => ?_, fun c mem => wanted_step family step other (wanted c mem)⟩
  obtain old | ⟨rfl, at_pc, -⟩ := h.exit_lock family step not_first j child zombie
  · exact old
  by_contra alive
  obtain ⟨own, childs⟩ := step.wakes alive zombie at_pc asleep
  obtain rfl | ⟨c, n, rfl, rfl, rfl⟩ := Pc.chan_of_sleeps slept
  · exact own on_chan
  · obtain ⟨-, named, used⟩ := wanted c rfl
    have pos := family.pid c used
    have same := family.pid_inj c j pos ((named n rfl).trans (matched n rfl).symm)
    exact childs (same ▸ on_chan)

theorem looking_self (not_first : p ≠ init) {pid tchild : Option Nat} {i : Nat}
    (looks : (t.pc p).looks = some (pid, i, tchild)) :
    t.Nothing p pid i ∧ ∀ c ∈ tchild, t.Wanted p pid c := by
  obtain ⟨rfl, rfl⟩ | ⟨alike, same | ⟨k, found, rfl, looked, child, alive⟩⟩ :=
    step.looks_self family looks
  · exact ⟨nofun, nofun⟩
  · obtain ⟨nothing, wanted⟩ := h.looking p pid i tchild not_first same
    exact ⟨nothing.alike alike, fun c mem => (wanted c mem).alike (alike c)⟩
  · obtain ⟨nothing, wanted⟩ := h.looking p pid k found not_first looked
    refine ⟨Sys.Nothing.alike (fun j before => ?_) alike, fun c mem => ?_⟩
    · rcases Nat.lt_succ_iff_lt_or_eq.1 before with earlier | rfl
      · exact nothing j earlier
      · exact alive
    · refine Sys.Wanted.alike ?_ (alike c)
      rcases child with rfl | ⟨rfl, parent, free, matched⟩
      · exact wanted c mem
      · cases mem
        refine ⟨parent, matched, fun unused => ?_⟩
        simp [family.parent_eq_none unused free] at parent

omit family in
theorem sleeping_self (not_first : p ≠ init) {pid tchild : Option Nat} {chan : Chan}
    (sleeps : (t.pc p).sleeps p = some (pid, tchild, chan))
    (asleep : (t.proc p).state = .sleeping) :
    (t.proc p).chan = some chan ∧ t.Nothing p pid NPROC ∧ ∀ c ∈ tchild, t.Wanted p pid c := by
  obtain ⟨on_chan, alike, looked⟩ := step.sleeps_self asleep sleeps
  obtain ⟨nothing, wanted⟩ := h.looking p pid NPROC tchild not_first looked
  exact ⟨on_chan, nothing.alike alike, fun c mem => (wanted c mem).alike (alike c)⟩

protected theorem step : t.Awake init where
  kin := h.step_kin family step
  looking r pid i tchild not_first looks := by
    by_cases self : r = p
    · subst self
      exact h.looking_self family step not_first looks
    · exact h.looking_other family step self not_first looks
  sleeping r pid tchild chan not_first sleeps asleep := by
    by_cases self : r = p
    · subst self
      exact h.sleeping_self step not_first sleeps asleep
    · exact h.sleeping_other family step self not_first sleeps asleep

end Sys.Awake

theorem Sys.Start.awake (h : s.Start init) : s.Awake init := by
  have first := h.first
  have others := h.others
  constructor <;> grind

theorem Reachable.awake (run : Reachable init s t) (start : s.Start init) : t.Awake init := by
  induction run with
  | refl => exact start.awake
  | tail before last awake =>
    obtain ⟨p, step⟩ := last
    exact awake.step (Reachable.family before start) step

/-- A process may look at the whole table. -/
theorem Reachable.waited (reach : Reachable init s t) (run : t.Runs p) (at_pc : t.pc p = .user)
    (free : t.lock p = none)
    (alive : ∀ q, (t.proc q).parent = some p → q ≠ p ∧ t.lock q = none ∧ (t.proc q).state ≠ .zombie)
    (i : Nat) (inside : i ≤ NPROC) : ∃ havekids,
      (∀ q, q < i → (t.proc q).parent = some p → havekids = true) ∧
      Reachable init s ((t.acquire p p).goto p (.wait i havekids)) := by
  induction i with
  | zero => exact ⟨false, nofun, reach.tail ⟨p, .wait run at_pc free⟩⟩
  | succ i ih =>
    obtain ⟨havekids, found, looked⟩ := ih (by omega)
    have here : ((t.acquire p p).goto p (.wait i havekids)).pc p = .wait i havekids := by
      simp [Sys.goto]
    have goto_next (kids : Bool) := Sys.goto_goto (s := t.acquire p p) (p := p) (.wait i havekids)
      (.wait (i + 1) kids)
    by_cases child : (t.proc i).parent = some p
    · obtain ⟨other, unlocked, living⟩ := alive i child
      refine ⟨true, fun _ _ _ => rfl, looked.tail ⟨p, ?_⟩⟩
      rw [← goto_next]
      exact .waitChild i havekids run here inside child
        (by simpa [Sys.goto, Sys.acquire, other] using unlocked) living
    · refine ⟨havekids, fun q before parent => ?_, looked.tail ⟨p, ?_⟩⟩
      · rcases Nat.lt_succ_iff_lt_or_eq.1 before with earlier | rfl
        · exact found q earlier parent
        · exact absurd parent child
      · rw [← goto_next]
        exact .waitNext i havekids run here inside child

/-- The second waits for the third. -/
def Sys.waiting : Sys :=
  ((((Sys.generations.acquire 1 1).goto 1 (.wait NPROC true)).put 1 fun q => q.sleep (.proc 1)).release
    1).goto 1 .waitSleep

theorem Sys.waiting_reachable : Reachable 0 Sys.first Sys.waiting := by
  have children (q : Nat) (child : (Sys.generations.proc q).parent = some 1) : q = 2 := by
    by_contra other
    simp [Sys.generations, Sys.forked, Slot.resume, Sys.first] at child
    grind
  have alone (q : Nat) (child : (Sys.generations.proc q).parent = some 1) :
      q ≠ 1 ∧ Sys.generations.lock q = none ∧ (Sys.generations.proc q).state ≠ .zombie := by
    obtain rfl := children q child
    exact ⟨by decide, rfl, by rintro ⟨⟩⟩
  obtain ⟨havekids, found, waited⟩ := Sys.generations_reachable.waited ⟨by decide, rfl⟩ rfl rfl alone
    NPROC (Nat.le_refl NPROC)
  obtain rfl := found 2 (by decide) rfl
  exact waited.tail ⟨1, .waitSleep ⟨by decide, rfl⟩ rfl rfl⟩

/-- No wakeup is lost between `exit` and a wait: no process but the first sleeps in
`wait` or `wait4pid` while a child that the call would reap is a zombie. -/
theorem no_lost_wakeup (start : s.Start init) (run : Reachable init s t) (not_first : p ≠ init)
    {pid tchild : Option Nat} {chan : Chan} (sleeps : (t.pc p).sleeps p = some (pid, tchild, chan))
    (asleep : (t.proc p).state = .sleeping) (child : (t.proc q).parent = some p)
    (wanted : Matches pid (t.proc q)) : (t.proc q).state ≠ .zombie := by
  obtain ⟨-, nothing, -⟩ := (run.awake start).sleeping p pid tchild chan not_first sleeps asleep
  exact nothing q ((run.family start).parent q p child).1 child wanted

theorem no_lost_wakeup_waiting : (Sys.waiting.proc 2).state ≠ .zombie :=
  no_lost_wakeup Sys.first_start Sys.waiting_reachable (by decide : 1 ≠ 0) rfl rfl rfl nofun

end AvxKernel.Proc
