import AvxKernel.Sched.Traps

/-! Handlers of system calls that are put together of the calls of `proc.c` and
`sleeplock.c`, and of sections that sleep and wake. What they read of files, pipes and
buffers is left open. -/
namespace AvxKernel.Sched

open Rules (Safe)
open Proc (ProcState Chan)
open View

variable {names : Names} {p lk : Nat} {exits : Prop} {x y : K Unit}

/-- What is done under a spin lock, as in `pipewrite`, `piperead` and `consoleread`. -/
inductive Inside (names : Names) (lk : Nat) : K Unit → Prop
  | nothing : Inside names lk (return)
  | seq {x y : K Unit} (first : Inside names lk x) (rest : Inside names lk y) : Inside names lk (do x; y)
  | branch {x y : K Unit} (yes : Inside names lk x) (no : Inside names lk y) :
      Inside names lk (do if ← choose then x else y)
  | rounds {x : K Unit} (round : Inside names lk x) : Inside names lk (some_rounds x)
  | wakeup (ch : Chan) : Inside names lk (wakeup ch)
  | sleep (ch : Chan) : Inside names lk (sleep ch (.other lk))
  | printf (apart : names.pr_lock ≠ lk) : Inside names lk (printf names)

/-- What a process does in a system call. `exits` says whether it may call `exit`, which
the first process may not. -/
inductive Handler (names : Names) (p : Nat) (exits : Prop) : K Unit → Prop
  | nothing : Handler names p exits (return)
  | seq {x y : K Unit} (first : Handler names p exits x) (rest : Handler names p exits y) :
      Handler names p exits (do x; y)
  | branch {x y : K Unit} (yes : Handler names p exits x) (no : Handler names p exits y) :
      Handler names p exits (do if ← choose then x else y)
  | rounds {x : K Unit} (round : Handler names p exits x) : Handler names p exits (some_rounds x)
  | locked {lk : Nat} {x : K Unit} (inside : Inside names lk x) :
      Handler names p exits (do acquire (.other lk); x; release (.other lk))
  | acquiresleep (lk : Sleeplock) : Handler names p exits (acquiresleep lk)
  | releasesleep (lk : Sleeplock) : Handler names p exits (releasesleep lk)
  | printf : Handler names p exits (printf names)
  | yield : Handler names p exits yield
  | fork : Handler names p exits (fork names .ample)
  | wait : Handler names p exits (wait names)
  | wait4pid (any : Bool) : Handler names p exits (wait4pid names any)
  | kill (victim : Option Nat) (b : Bool) (spared : victim = some names.initproc → b = false) :
      Handler names p exits (kill victim b (List.range NPROC))
  | exit (may : exits) (other : p ≠ names.initproc) : Handler names p exits (exit names)

/-- Some lock is held and no other, whatever `CSR.PRMD` is. -/
def Under (p lk : Nat) (b : Nat → Prop) (i : Bool) (v : View) : Prop :=
  ∃ r, v = under (.proc p) b (.other lk) i r

theorem some_rounds_keep {init : Nat} {me : Context} {v : View} {I : View → Prop} (start : I v)
    (kernel : ∀ v, I v → v.user = false)
    (round : ∀ v, I v → (rules init me).Safe x v fun _ w => I w) :
    (rules init me).Safe (some_rounds x) v fun _ w => I w := by
  refine Safe.loopWhile I start fun u here => ?_
  refine free_bind (kernel u here) trivial (fun _ => rfl) fun (more : Bool) _ => ?_
  refine Safe.ite (fun _ => ?_) fun _ => Safe.out here
  exact Safe.bind_of (round u here) fun _ w after => Safe.again after

theorem Inside.keeps {init : Nat} {b : Nat → Prop} {i : Bool} {v : View} (inside : Inside names lk x)
    (here : Under p lk b i v) : (rules init (.proc p)).Safe x v fun _ w => Under p lk b i w := by
  induction inside generalizing v with
  | nothing => exact here
  | seq _ _ ihFirst ihRest => exact Safe.bind_of (ihFirst here) fun _ _ after => ihRest after
  | branch _ _ ihYes ihNo =>
    have kernel : v.user = false := by
      obtain ⟨r, rfl⟩ := here
      rfl
    refine free_bind kernel trivial (fun _ => rfl) fun (yes : Bool) _ => ?_
    exact Safe.ite (fun _ => ihYes here) fun _ => ihNo here
  | rounds _ ih =>
    refine some_rounds_keep here ?_ fun _ here => ih here
    rintro _ ⟨r, rfl⟩
    rfl
  | wakeup ch =>
    obtain ⟨r, rfl⟩ := here
    refine (wakeup_back ch (under_ready _ _ _ _ _) (other_free _)).mono fun _ w back => ?_
    exact ⟨r, back.eq (.inr Nat.one_ne_zero)⟩
  | sleep ch =>
    obtain ⟨r, rfl⟩ := here
    exact (sleep_safe ch _).mono fun _ w after => ⟨none, after⟩
  | printf apart =>
    obtain ⟨r, rfl⟩ := here
    have free : Lock.other names.pr_lock ∉ [Lock.other lk] :=
      fun member => apart (Lock.other.inj (List.mem_singleton.mp member))
    refine (printf_back (under_ready _ _ _ _ _) free).mono fun _ w back => ?_
    exact ⟨r, back.eq (.inr Nat.one_ne_zero)⟩

/-- A handler keeps to the rules if what `exit` does with the files of the process does. -/
theorem Handler.disciplined (handler : Handler names p exits x)
    (closing : exits → Disciplined names.initproc p names.closing) :
    Disciplined names.initproc p x := by
  induction handler with
  | nothing => exact fun v idle => idle
  | seq _ _ ihFirst ihRest => exact fun v idle => Safe.bind_of (ihFirst v idle) fun _ w after => ihRest w after
  | branch _ _ ihYes ihNo =>
    intro v idle
    refine free_bind idle.ready.kernel trivial (fun _ => rfl) fun (yes : Bool) _ => ?_
    exact Safe.ite (fun _ => ihYes v idle) fun _ => ihNo v idle
  | rounds _ ih => exact fun v idle => some_rounds_keep idle (fun _ here => here.ready.kernel) ih
  | locked inside =>
    intro v idle
    refine Safe.bind_of (idle.acquire _) fun _ w held => ?_
    refine Safe.bind_of (inside.keeps held) ?_
    rintro _ _ ⟨r, rfl⟩
    exact release_idle_under
  | acquiresleep lk => exact acquiresleep_safe lk
  | releasesleep lk => exact releasesleep_safe lk
  | printf =>
    exact fun v idle => (printf_back idle.ready (idle.free _)).mono fun _ _ back => idle.back back
  | yield =>
    intro v idle
    refine (yield_safe idle).mono ?_
    rintro _ _ rfl
    exact rest_idle _ _ _ _
  | fork => exact fun v idle => fork_safe rfl idle
  | wait => exact wait_safe
  | wait4pid any => exact wait4pid_safe any
  | kill victim b spared =>
    intro v idle
    refine (kill_back victim b spared _ idle.ready fun q => idle.free _).mono ?_
    exact fun _ _ back => idle.back back
  | exit may other => exact fun v idle => exit_safe rfl other (closing may) idle _

/-- User mode makes system calls with such handlers, and the first process raises no
exception. -/
def Cause.Made (names : Names) (p : Nat) : Cause → Prop
  | .syscall handler => Handler names p True handler
  | .exception => p ≠ names.initproc
  | _ => True

/-- What `exit` and the first process do besides is put together so as well, but does not
exit. -/
structure Composed (names : Names) : Prop where
  closing : ∀ p, Handler names p False names.closing
  boot : ∀ p, Handler names p False names.boot

theorem Composed.disciplined (composed : Composed names) (p : Nat) :
    Disciplined names.initproc p names.closing ∧ Disciplined names.initproc p names.boot :=
  ⟨(composed.closing p).disciplined False.elim, (composed.boot p).disciplined False.elim⟩

theorem Cause.Made.disciplined (composed : Composed names) {cause : Cause} (made : cause.Made names p) :
    cause.Disciplined names.initproc p := by
  cases cause with
  | syscall handler => exact Handler.disciplined made fun _ => (composed.disciplined p).1
  | exception => exact made
  | interrupt irq => trivial
  | pageFault => trivial

end AvxKernel.Sched
