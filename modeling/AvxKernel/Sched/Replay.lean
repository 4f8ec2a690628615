import AvxKernel.Sched.Runs

/-! Runs that are computed: each turn names a processor, and what is left open. -/
namespace AvxKernel.Sched

variable {names : Names} {n c : Nat} {calls : Nat → Cause → Prop} {s t : Sys}

namespace Sys

/-- The result of the operation, with `free` where it is left open. -/
def answer (s : Sys) (c : Nat) (free : Bool) : (o : Op) → Option o.Res
  | .intr_get => some (s.cpu c).ie
  | .prmd => some (s.cpu c).prmd
  | .cpuid => some c
  | .noff => some (s.cpu c).noff
  | .intena => some (s.cpu c).intena
  | .cpu_proc => some (s.cpu c).proc
  | .locked lk | .test_and_set lk => some (s.lock lk).locked
  | .cpu_is lk => some (decide ((s.lock lk).cpu = some c))
  | .state p => some (s.proc p).state
  | .chan p => some (s.proc p).chan
  | .killed p => some (s.proc p).killed
  | .parent p => some (s.proc p).parent
  | .load a => some (s.mem a)
  | .choose => some free
  | .swtch_to _ | .swtch_back _ | .panic _ | .fault => none
  | .intr_off | .intr_on | .set_prmd _ | .set_eentry _ | .ertn | .set_noff _ | .set_intena _
  | .set_cpu_proc _ | .set_cpu _ | .clear_cpu _ | .sync_release _ | .set_state _ _ | .set_chan _ _
  | .set_killed _ _ | .set_parent _ _ | .set_context _ | .store _ _ => some ()

/-- What the operation makes of the state. -/
def after (s : Sys) (forkret : K Unit) (c : Nat) : Op → Sys
  | .intr_off => s.setCpu c fun cpu => { cpu with ie := false }
  | .intr_on => s.setCpu c fun cpu => { cpu with ie := true }
  | .set_prmd x => s.setCpu c fun cpu => { cpu with prmd := x }
  | .set_eentry entry => s.setCpu c fun cpu => { cpu with eentry := entry }
  | .ertn => s.setCpu c fun cpu => { cpu with plv := cpu.prmd.pplv, ie := cpu.prmd.pie }
  | .set_noff n => s.setCpu c fun cpu => { cpu with noff := n }
  | .set_intena b => s.setCpu c fun cpu => { cpu with intena := b }
  | .set_cpu_proc p => s.setCpu c fun cpu => { cpu with proc := p }
  | .test_and_set lk =>
    { s.setLock lk fun l => { l with locked := true } with
      inside := if (s.lock lk).locked then s.inside
        else Function.update s.inside lk (c :: s.inside lk) }
  | .set_cpu lk => s.setLock lk fun l => { l with cpu := some c }
  | .clear_cpu lk => s.setLock lk fun l => { l with cpu := none }
  | .sync_release lk =>
    { s.setLock lk fun l => { l with locked := false } with
      inside := Function.update s.inside lk ((s.inside lk).erase c) }
  | .set_state p st => s.setProc p fun np => { np with state := st }
  | .set_chan p ch => s.setProc p fun np => { np with chan := ch }
  | .set_killed p b => s.setProc p fun np => { np with killed := b }
  | .set_parent p q => s.setProc p fun np => { np with parent := q }
  | .set_context p => { s with context := Function.update s.context (.proc p) forkret }
  | .store a v => { s with mem := Function.update s.mem a v }
  | _ => s

theorem answer_does {forkret : K Unit} {free : Bool} {o : Op} {r : o.Res} (answered : s.answer c free o = some r) :
    s.Does forkret c o r (s.after forkret c o) := by
  cases o
  case swtch_to | swtch_back | panic | fault => cases answered
  case intr_get | prmd | cpuid | noff | intena | cpu_proc | locked | cpu_is | test_and_set | state | chan
      | killed | parent | load => exact ⟨(Option.some.inj answered).symm, rfl⟩
  all_goals rfl

end Sys

inductive Turn where
  | go (c : Nat) (free : Bool)
  | interrupt (c : Nat) (irq : Irq)
  | trap (c : Nat) (cause : Cause)

namespace Turn

/-- So many turns in which what is left open is answered with false. -/
def goes (c k : Nat) : List Turn := List.replicate k (.go c false)

/-- The processor is one of the machine's, and traps are such as `calls` says. -/
def Fits (n : Nat) (calls : Nat → Cause → Prop) : Turn → Prop
  | .go c _ | .interrupt c _ => c < n
  | .trap c cause => c < n ∧ ∀ p, calls p cause

theorem goes_fit (here : c < n) (k : Nat) : ∀ turn ∈ goes c k, turn.Fits n calls := by
  intro turn member
  rw [List.eq_of_mem_replicate member]
  exact here

end Turn

/-- The state after the turn, if it can be taken. -/
def Sys.turn (names : Names) (s : Sys) : Turn → Option Sys
  | .go c free =>
    match (s.cpu c).code with
    | .ret _ => none
    | .op (.swtch_to p) rest => some (s.swtch c (.cpu c) (.proc p) (rest ()))
    | .op (.swtch_back p) rest => some (s.swtch c (.proc p) (.cpu c) (rest ()))
    | .op o rest => (s.answer c free o).map fun r => (s.after (forkret names) c o).setCode c (rest r)
    | .loop body b rest => some (s.setCode c (Code.unroll body b rest))
  | .interrupt c irq =>
    if (s.cpu c).ie = true ∧ (s.cpu c).lie = true then
      some (s.trap c (vector names (s.cpu c).eentry (.interrupt irq) (s.cpu c).code))
    else
      none
  | .trap c cause =>
    if (s.cpu c).plv = .user ∧ (s.cpu c).proc ≠ none then
      some (s.trap c (vector names (s.cpu c).eentry cause (s.cpu c).code))
    else
      none

theorem Sys.turn_step {turn : Turn} (fits : turn.Fits n calls) (taken : s.turn names turn = some t) :
    Step names n calls s t := by
  cases turn with
  | go c free =>
    unfold Sys.turn at taken
    dsimp only at taken
    split at taken
    · cases taken
    · rename_i p rest code
      cases taken
      exact .swtch_to fits code
    · rename_i p rest code
      cases taken
      exact .swtch_back fits code
    · rename_i o rest _ _ code
      obtain ⟨r, answered, rfl⟩ := Option.map_eq_some_iff.mp taken
      exact .op fits code (Sys.answer_does answered)
    · rename_i body b rest code
      cases taken
      exact .unroll fits code
  | interrupt c irq =>
    obtain ⟨⟨on, lie⟩, eq⟩ := Option.ite_none_right_eq_some.mp taken
    cases eq
    exact .interrupt irq fits on lie
  | trap c cause =>
    obtain ⟨⟨user, some⟩, eq⟩ := Option.ite_none_right_eq_some.mp taken
    cases eq
    obtain ⟨p, proc⟩ := Option.ne_none_iff_exists'.mp some
    exact .trap cause fits.1 user proc (fits.2 p)

def Sys.play (names : Names) (s : Sys) : List Turn → Option Sys
  | [] => some s
  | turn :: turns => (s.turn names turn).bind fun t => t.play names turns

theorem Sys.play_steps {turns : List Turn} (fit : ∀ turn ∈ turns, turn.Fits n calls)
    (played : s.play names turns = some t) : Relation.ReflTransGen (Step names n calls) s t := by
  induction turns generalizing s with
  | nil =>
    cases played
    exact .refl
  | cons turn turns ih =>
    obtain ⟨u, taken, later⟩ := Option.bind_eq_some_iff.mp played
    have first : Step names n calls s u := Sys.turn_step (fit turn List.mem_cons_self) taken
    exact .head first (ih (fun turn member => fit turn (List.mem_cons_of_mem _ member)) later)

/-- The registers of a processor without its code, which cannot be compared. -/
structure Registers where
  plv : Plv
  ie : Bool
  eentry : Eentry
  proc : Option Nat
  noff : Nat
deriving DecidableEq

def Cpu.registers (cpu : Cpu) : Registers := ⟨cpu.plv, cpu.ie, cpu.eentry, cpu.proc, cpu.noff⟩

/-- The machine as `main` leaves it: only the first processor has gone through `trapinit`. -/
def booted (names : Names) : Sys where
  cpu c := ⟨.kernel, decide (c = 0), decide (c = 0), ⟨.kernel, false⟩,
    if c = 0 then .kernelvec else .unset, none, 0, false, scheduler⟩
  lock _ := ⟨false, none⟩
  proc p := ⟨if p = names.initproc then .runnable else .unused, none, false, none⟩
  context _ := forkret names
  mem a := if a = names.first then 1 else 0
  inside _ := []

theorem booted_start (names : Names) (n : Nat) : Start names n (booted names) where
  cpu _ _ := ⟨rfl, rfl, rfl, rfl⟩
  trapinit := ⟨rfl, rfl, rfl⟩
  others _ other := ⟨decide_eq_false other, decide_eq_false other, if_neg other⟩
  lock _ := ⟨rfl, rfl⟩
  init := ⟨if_pos rfl, rfl⟩
  unused _ other := if_neg other
  proc _ := ⟨rfl, rfl⟩
  first := if_pos rfl

theorem booted_reachable {turns : List Turn} (fit : ∀ turn ∈ turns, turn.Fits n calls)
    (played : (booted names).play names turns = some t) : Reachable names n calls t :=
  ⟨booted names, booted_start names n, Sys.play_steps fit played⟩

end AvxKernel.Sched
