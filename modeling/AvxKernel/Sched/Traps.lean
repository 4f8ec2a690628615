import AvxKernel.Sched.Children

/-! Interrupts and the way into the kernel and out of it: a trap leaves the code that it
comes upon as it was, and user mode is entered with no lock held. -/
namespace AvxKernel.Sched

open Code (perform repeatFrom each)
open Rules (Safe)
open Proc (ProcState Chan)
open View

variable {init : Nat} {me : Context} {b : Nat → Prop} {v w : View} {lk : Lock} {p q : Nat}
  {i : Option Bool} {r : Option Prmd} {α : Type} {names : Names}

/-! ### Devices -/

theorem other_free (n : Nat) : ∀ q, Lock.proc q ∉ [Lock.other n] := by
  intro q
  simp only [List.mem_singleton, reduceCtorEq, not_false_eq_true]

/-- The handlers take locks only where none is held. -/
structure View.Bare (me : Context) (v : View) : Prop where
  ready : v.Ready me
  held : v.held = []

theorem View.Bare.back (bare : v.Bare me) (back : v.Back w) : w.Bare me :=
  ⟨back.ready bare.ready, back.held.trans bare.held⟩

theorem View.Bare.free (bare : v.Bare me) (lk : Lock) : lk ∉ v.held := by
  rw [bare.held]
  exact List.not_mem_nil

/-- What is done under the one lock. -/
theorem View.Bare.section {n : Nat} {body : K Unit} (bare : v.Bare me)
    (inside : ∀ u : View, u.Ready me → u.held = [.other n] →
      (rules init me).Safe body u fun _ w => u.Back w) :
    (rules init me).Safe (do acquire (.other n); body; release (.other n)) v fun _ w => v.Back w := by
  have locked := bare.ready.locked (.other n)
  have only : (v.locked (.other n)).held = [.other n] := congrArg (Lock.other n :: ·) bare.held
  refine section_safe bare.ready (bare.free _) ((inside _ locked only).mono fun _ w back => ?_)
  rw [back.eq (.inr (Nat.succ_ne_zero v.noff))]
  exact bare.ready.learnt (bare.free _)

theorem consoleintr_back (bare : v.Bare me) :
    (rules init me).Safe (consoleintr names) v fun _ w => v.Back w := by
  have locked := bare.ready.locked (.other names.cons_lock)
  have only : (v.locked (.other names.cons_lock)).held = [.other names.cons_lock] :=
    congrArg (Lock.other names.cons_lock :: ·) bare.held
  have nested : v.noff + 1 ≠ 0 := Nat.succ_ne_zero _
  have give : (rules init me).Safe (release (.other names.cons_lock)) (v.locked (.other names.cons_lock))
      fun _ w => v.Back w := release_back bare.ready (bare.free _) (bare.ready.learnt (bare.free _))
  refine Safe.bind_of (acquire_safe bare.ready.kernel bare.ready.whole (bare.free _)) ?_
  rintro _ _ rfl
  refine free_bind locked.kernel trivial (fun _ => rfl) (fun (dump : Bool) _ => ?_)
  refine Safe.ite (fun _ => ?_) fun _ => ?_
  · refine back_bind (some_rounds_back locked fun u back => ?_) nested fun _ => give
    refine printf_back (back.ready locked) ?_
    rw [back.held, only, List.mem_singleton]
    exact fun eq => names.apart (Lock.other.inj eq)
  · refine back_bind (some_rounds_back locked fun u back => ?_) nested fun _ => ?_
    · exact uartputc_sync_back (back.ready locked)
    · refine free_bind locked.kernel trivial (fun _ => rfl) (fun (line : Bool) _ => ?_)
      refine Safe.ite (fun _ => ?_) fun _ => give
      exact back_bind (wakeup_back _ locked (only ▸ other_free _)) nested fun _ => give

theorem uartintr_back (bare : v.Bare me) :
    (rules init me).Safe (uartintr names) v fun _ w => v.Back w := by
  refine Safe.bind_of (some_rounds_back bare.ready fun u back => consoleintr_back (bare.back back))
    fun _ u back => ?_
  have bare := bare.back back
  refine (bare.section fun y ready held => ?_).mono fun _ _ after => back.trans after
  refine some_rounds_back ready fun z back => ?_
  exact wakeup_back _ (back.ready ready) (back.held ▸ held ▸ other_free _)

theorem clockintr_back (bare : v.Bare me) :
    (rules init me).Safe (clockintr names) v fun _ w => v.Back w :=
  bare.section fun _ ready held => wakeup_back _ ready (held ▸ other_free _)

theorem devintr_back (cause : Cause) (bare : v.Bare me) :
    (rules init me).Safe (devintr names cause) v fun n w =>
      v.Back w ∧ (n = 0 → ∀ irq, cause ≠ .interrupt irq) := by
  have one : (1 : Nat) = 0 → ∀ irq, cause ≠ .interrupt irq := fun eq => absurd eq Nat.one_ne_zero
  cases cause with
  | interrupt irq =>
    cases irq with
    | uart => exact Safe.bind_of (uartintr_back bare) fun _ _ back => ⟨back, one⟩
    | unexpected => exact Safe.bind_of (printf_back bare.ready (bare.free _)) fun _ _ back => ⟨back, one⟩
    | timer =>
      have two : (2 : Nat) = 0 → ∀ irq, Cause.interrupt .timer ≠ .interrupt irq :=
        fun eq => absurd eq two_ne_zero
      refine free_bind bare.ready.kernel trivial (fun _ => rfl) (fun (hart : Nat) _ => ?_)
      refine Safe.ite (fun _ => ?_) fun _ => ⟨.refl v, two⟩
      refine Safe.bind_of (clockintr_back bare) fun _ u back => ?_
      refine Safe.bind_of (uartintr_back (bare.back back)) fun _ w back' => ?_
      exact ⟨back.trans back', two⟩
  | pageFault => exact ⟨.refl v, fun _ _ => Cause.noConfusion⟩
  | syscall handler => exact ⟨.refl v, fun _ _ => Cause.noConfusion⟩
  | exception => exact ⟨.refl v, fun _ _ => Cause.noConfusion⟩

theorem trapped_bare : (trapped me b i r).Bare me := ⟨trapped_ready me b i r, rfl⟩

/-! ### `kerneltrap` -/

theorem ertn_kernel :
    (rules init me).Safe (do w_csr_prmd ⟨.kernel, true⟩; ertn) (trapped me b i r) fun _ w => w = calm me b := by
  refine Safe.perform_bind ⟨rfl, rfl⟩ fun _ _ => ?_
  refine Safe.perform ⟨rfl, rfl, .inl ⟨rfl, rfl⟩⟩ fun _ _ => ?_
  have kernel : decide (some (Prmd.mk .kernel true) = some ⟨.user, true⟩) = false := by decide
  change ({ calm me b with user := decide (some (Prmd.mk .kernel true) = some ⟨.user, true⟩) } : View) = _
  rw [kernel]
  rfl

theorem trapped_back (back : (trapped me b i r).Back w) : ∃ j, w = trapped me b j r := by
  obtain ⟨j, rfl, -⟩ := back
  exact ⟨j, rfl⟩

/-- Only the code of a process gives up the processor. -/
theorem kerneltrap_yield {x : K Unit} {Q : Unit → View → Prop}
    (rest : ∀ j r, (rules init me).Safe x (trapped me b j r) Q) :
    (rules init me).Safe (do
      let rest := fun (_ : Unit) => do
        if (← myproc) ≠ none then
          if (← state (← thisproc)) = .running then
            yield
        x
      if (← myproc) ≠ none then
        let _p ← thisproc
        rest ()
      else
        rest ()) (trapped me b i r) Q := by
  refine Safe.bind_of (myproc_safe (trapped_ready me b i r)) ?_
  rintro _ _ ⟨rfl, back⟩
  obtain ⟨i, rfl⟩ := trapped_back back
  cases me with
  | cpu c =>
    refine Safe.ite (fun some => absurd rfl some) fun _ => ?_
    refine Safe.bind_of (myproc_safe (trapped_ready _ b i r)) ?_
    rintro _ _ ⟨rfl, back⟩
    obtain ⟨i, rfl⟩ := trapped_back back
    refine Safe.ite (fun some => absurd rfl some) fun _ => ?_
    exact rest i r
  | proc p =>
    refine Safe.ite (fun _ => ?_) fun none => absurd (Option.some_ne_none p) none
    refine thisproc_bind (trapped_ready _ b i r) rfl fun _ back => ?_
    obtain ⟨i, rfl⟩ := trapped_back back
    refine Safe.bind_of (myproc_safe (trapped_ready _ b i r)) ?_
    rintro _ _ ⟨rfl, back⟩
    obtain ⟨i, rfl⟩ := trapped_back back
    refine Safe.ite (fun _ => ?_) fun none => absurd (Option.some_ne_none p) none
    refine thisproc_bind (trapped_ready _ b i r) rfl fun _ back => ?_
    obtain ⟨i, rfl⟩ := trapped_back back
    refine own_state_bind rfl List.not_mem_nil ?_
    refine Safe.ite (fun _ => ?_) fun stopped => absurd rfl stopped
    refine Safe.bind_of (yield_safe ⟨b, .inr ⟨i, r, rfl⟩⟩) ?_
    rintro _ _ rfl
    exact rest (some false) none

theorem kerneltrap_safe (irq : Irq) :
    (rules init me).Safe (kerneltrap names (.interrupt irq)) (trapped me b none (some ⟨.kernel, true⟩))
      fun _ w => w = calm me b := by
  refine Safe.perform_bind ⟨rfl, trivial⟩ ?_
  intro (was : Prmd) (known : ∀ x, some (Prmd.mk .kernel true) = some x → was = x)
  have kernel : was = ⟨.kernel, true⟩ := known _ rfl
  subst kernel
  refine Safe.join (fun u => u = trapped me b none (some ⟨.kernel, true⟩)) (fun no => absurd rfl no) (fun _ => rfl) ?_
  rintro _ rfl
  refine intr_get_bind rfl ?_
  refine Safe.join (fun u => u = trapped me b none (some ⟨.kernel, true⟩)) (fun no => by cases no) (fun _ => rfl) ?_
  rintro _ rfl
  refine Safe.bind_of (devintr_back (.interrupt irq) trapped_bare) ?_
  rintro which_dev w ⟨back, device⟩
  obtain ⟨i, rfl⟩ := trapped_back back
  refine Safe.join (fun u => u = trapped me b i (some ⟨.kernel, true⟩))
    (fun none => absurd rfl (device none irq)) (fun _ => rfl) ?_
  rintro _ rfl
  refine Safe.ite (fun _ => ?_) fun _ => ertn_kernel
  exact kerneltrap_yield fun _ _ => ertn_kernel

/-! ### The way back to user mode -/

theorem usertrapret_safe (idle : Idle (.proc p) v) : (rules init (.proc p)).Safe usertrapret v Done := by
  refine thisproc_bind idle.ready idle.proc fun u back => ?_
  have idle := idle.back back
  refine intr_off_bind idle.ready.kernel ?_
  have off : ∃ b j r, ({ u with ie := false } : View) = trapped (.proc p) b j r := by
    obtain ⟨b, rfl | ⟨j, r, rfl⟩⟩ := idle
    · exact ⟨b, none, none, rfl⟩
    · exact ⟨b, j, r, rfl⟩
  obtain ⟨b, j, r, eq⟩ := off
  rw [eq]
  refine Safe.perform_bind ⟨rfl, rfl⟩ fun _ _ => ?_
  refine Safe.perform_bind ⟨rfl, trivial⟩ fun (x : Prmd) _ => ?_
  refine Safe.perform_bind ⟨rfl, rfl⟩ fun _ _ => ?_
  refine Safe.perform ⟨rfl, rfl, .inr ⟨rfl, p, rfl, rfl⟩⟩ fun _ _ => ?_
  exact decide_eq_true (Eq.refl (some (Prmd.mk .user true)))

/-- What is known when a trap is taken in user mode. -/
def View.entered (b : Nat → Prop) (p : Nat) : View :=
  { trapped (.proc p) b none (some ⟨.user, true⟩) with eentry := .uservec }

/-- A system call keeps to the rules, and the first process raises no exception. -/
def Cause.Disciplined (init p : Nat) : Cause → Prop
  | .syscall handler => Sched.Disciplined init p handler
  | .exception => p ≠ init
  | _ => True

/-- The process exits if it has been killed, which the first process has not. -/
theorem exit_killed {f : Unit → K Unit} {Q : Unit → View → Prop} (root : init = names.initproc)
    (closing : Disciplined init p names.closing) (idle : Idle (.proc p) v)
    (rest : (rules init (.proc p)).Safe (f ()) v Q) :
    (rules init (.proc p)).Safe
      (killed p >>= fun dying => if dying = true then exit names >>= f else f ()) v Q := by
  refine free_bind idle.ready.kernel trivial (fun _ => rfl)
    fun (dying : Bool) (spared : p = init → dying = false) => ?_
  refine Safe.ite (fun dead => ?_) fun _ => rest
  subst dead
  have notInit : p ≠ init := fun same => by cases spared same
  exact Safe.bind_of (exit_safe root notInit closing idle fun _ _ => False) fun _ _ => False.elim

theorem usertrap_safe (root : init = names.initproc) (closing : Disciplined init p names.closing)
    (cause : Cause) (kept : cause.Disciplined init p) :
    (rules init (.proc p)).Safe (usertrap names cause) (entered b p) Done := by
  refine Safe.perform_bind ⟨rfl, trivial⟩ ?_
  intro (was : Prmd) (known : ∀ x, some (Prmd.mk .user true) = some x → was = x)
  have user : was = ⟨.user, true⟩ := known _ rfl
  subst user
  refine Safe.join (fun u => u = entered b p) (fun no => by cases no) (fun _ => rfl) ?_
  rintro _ rfl
  refine Safe.perform_bind ⟨rfl, rfl⟩ fun _ _ => ?_
  change (rules init (.proc p)).Safe _ (trapped (.proc p) b none (some ⟨.user, true⟩)) Done
  refine thisproc_bind (trapped_ready _ _ _ _) rfl fun _ back => ?_
  obtain ⟨i, rfl⟩ := trapped_back back
  have idle : Idle (.proc p) (trapped (.proc p) b i (some ⟨.user, true⟩)) := ⟨b, .inr ⟨i, _, rfl⟩⟩
  have leave : ∀ u which_dev, Idle (.proc p) u → (rules init (.proc p)).Safe (do
      if ← killed p then
        exit names
      if which_dev = 2 then
        yield
      usertrapret) u Done := by
    intro u which_dev idle
    refine exit_killed root closing idle ?_
    refine Safe.join (fun w => Idle (.proc p) w) (fun _ => ?_) (fun _ => idle) fun w here => usertrapret_safe here
    refine (yield_safe idle).mono ?_
    rintro _ _ rfl
    exact rest_idle _ _ _ _
  cases cause with
  | syscall handler =>
    refine exit_killed root closing idle ?_
    refine Safe.bind_of (intr_on_idle idle) ?_
    rintro _ _ rfl
    exact Safe.bind_of (kept _ ⟨b, .inl rfl⟩) fun _ w after => leave w 0 after
  | pageFault =>
    refine Safe.bind_of (printf_back idle.ready (idle.free _)) fun _ w back => ?_
    exact leave w 0 (idle.back back)
  | interrupt irq =>
    refine Safe.bind_of (devintr_back (.interrupt irq) trapped_bare) fun which_dev w after => ?_
    obtain ⟨back, device⟩ := after
    refine Safe.ite (fun none => absurd rfl (device none irq)) fun _ => ?_
    exact leave w which_dev (idle.back back)
  | exception =>
    refine Safe.bind_of (devintr_back .exception trapped_bare) fun which_dev w after => ?_
    have idle := idle.back after.1
    refine Safe.ite (fun _ => ?_) fun _ => leave w which_dev idle
    refine thisproc_bind idle.ready idle.proc fun u back => ?_
    have idle := idle.back back
    refine Safe.bind_of (some_rounds_back idle.ready fun y back => ?_) fun _ u back => ?_
    · exact printf_back (back.ready idle.ready) (back.held ▸ idle.free _)
    · have idle := idle.back back
      refine Safe.perform_bind ⟨idle.ready.kernel, fun _ => kept⟩ fun _ _ => ?_
      exact leave u which_dev idle

/-- A new process has its lock from the scheduler. -/
theorem forkret_safe (boot : Disciplined init p names.boot) :
    (rules init (.proc p)).Safe (forkret names) (resumed b p) Done := by
  have ready : (resumed b p).Ready (.proc p) :=
    { trapped_ready (.proc p) b none none with
      calm := fun on => by cases on
      known := fun _ _ h => by cases h
      fresh := fun _ h => by cases h
      adopted := fun _ h => by cases h
      claimed := fun _ h => by cases h
      parked := fun _ _ h => absurd rfl h
      current := fun h _ _ => by cases h }
  refine thisproc_bind ready rfl fun w back => ?_
  rw [back.eq (.inr Nat.one_ne_zero)]
  refine Safe.bind_of release_resumed fun _ w idle => ?_
  refine free_bind idle.ready.kernel trivial (fun _ => rfl) (fun (first : Nat) _ => ?_)
  refine Safe.ite (fun _ => ?_) fun _ => usertrapret_safe idle
  refine free_bind idle.ready.kernel trivial (fun _ => rfl) (fun _ _ => ?_)
  refine Safe.bind_of (boot w idle) fun _ u idle => ?_
  refine thisproc_bind idle.ready idle.proc fun y back => ?_
  exact usertrapret_safe (idle.back back)

end AvxKernel.Sched
