import AvxKernel.Sched.Traps

/-! The steps of the machine: each processor goes on with its code, or takes a trap. -/
namespace AvxKernel.Sched

open Proc (ProcState Chan)

/-- The code at `CSR.EENTRY`, and after a trap from the kernel the code that the trap
came upon. -/
def vector (names : Names) (entry : Eentry) (cause : Cause) (code : K Unit) : K Unit :=
  match entry with
  | .unset => fault
  | .kernelvec => kerneltrap names cause >>= fun _ => code
  | .uservec => usertrap names cause

/-- One step of one of the processors, of which there are `n`. Interrupts come at any time
while they are on and let through; `calls` says why processes trap in user mode. -/
inductive Step (names : Names) (n : Nat) (calls : Nat → Cause → Prop) : Sys → Sys → Prop
  | op {s t : Sys} {c : Nat} {o : Op} {rest : o.Res → K Unit} {r : o.Res} (here : c < n)
      (code : (s.cpu c).code = .op o rest) (does : s.Does (forkret names) c o r t) :
      Step names n calls s (t.setCode c (rest r))
  | unroll {s : Sys} {c : Nat} {β γ : Type} {body : β → K (β ⊕ γ)} {b : β} {rest : γ → K Unit}
      (here : c < n) (code : (s.cpu c).code = .loop body b rest) :
      Step names n calls s (s.setCode c (Code.unroll body b rest))
  | swtch_to {s : Sys} {c p : Nat} {rest : Unit → K Unit} (here : c < n)
      (code : (s.cpu c).code = .op (.swtch_to p) rest) :
      Step names n calls s (s.swtch c (.cpu c) (.proc p) (rest ()))
  | swtch_back {s : Sys} {c p : Nat} {rest : Unit → K Unit} (here : c < n)
      (code : (s.cpu c).code = .op (.swtch_back p) rest) :
      Step names n calls s (s.swtch c (.proc p) (.cpu c) (rest ()))
  | interrupt {s : Sys} {c : Nat} (irq : Irq) (here : c < n) (on : (s.cpu c).ie = true)
      (lie : (s.cpu c).lie = true) :
      Step names n calls s (s.trap c (vector names (s.cpu c).eentry (.interrupt irq) (s.cpu c).code))
  | trap {s : Sys} {c p : Nat} (cause : Cause) (here : c < n) (user : (s.cpu c).plv = .user)
      (proc : (s.cpu c).proc = some p) (made : calls p cause) :
      Step names n calls s (s.trap c (vector names (s.cpu c).eentry cause (s.cpu c).code))

/-- `main` has come to `scheduler` on every processor. Only the first one has gone through
`trapinit`, which turns interrupts on; there is one process. -/
structure Start (names : Names) (n : Nat) (s : Sys) : Prop where
  cpu : ∀ c < n, (s.cpu c).plv = .kernel ∧ (s.cpu c).proc = none ∧ (s.cpu c).noff = 0 ∧
    (s.cpu c).code = scheduler
  trapinit : (s.cpu 0).ie = true ∧ (s.cpu 0).lie = true ∧ (s.cpu 0).eentry = .kernelvec
  others : ∀ c ≠ 0, (s.cpu c).ie = false ∧ (s.cpu c).lie = false ∧ (s.cpu c).eentry = .unset
  lock : ∀ lk, s.lock lk = ⟨false, none⟩ ∧ s.inside lk = []
  init : (s.proc names.initproc).state = .runnable ∧ s.context (.proc names.initproc) = forkret names
  unused : ∀ p ≠ names.initproc, (s.proc p).state = .unused
  proc : ∀ p, (s.proc p).parent = none ∧ (s.proc p).killed = false
  first : s.mem names.first = 1

/-- What the code that is not modelled keeps to, and what user mode does: the handlers of
its system calls keep to the rules, and the first process raises no exception. -/
structure Kept (names : Names) (calls : Nat → Cause → Prop) : Prop where
  closing : ∀ p, Disciplined names.initproc p names.closing
  boot : ∀ p, Disciplined names.initproc p names.boot
  calls : ∀ p cause, calls p cause → cause.Disciplined names.initproc p

def Reachable (names : Names) (n : Nat) (calls : Nat → Cause → Prop) (s : Sys) : Prop :=
  ∃ start, Start names n start ∧ Relation.ReflTransGen (Step names n calls) start s

end AvxKernel.Sched
