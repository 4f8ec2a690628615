import AvxKernel.Sched.Tables

/-! The functions that switch: a process that gives up its processor comes back with what
it had, and the scheduler with the lock of the process that it has run. -/
namespace AvxKernel.Sched

open Code (perform repeatFrom each)
open Rules (Safe)
open Proc (ProcState Chan)
open View

variable {init : Nat} {me : Context} {b : Nat → Prop} {v w : View} {lk : Lock} {p q : Nat}
  {i : Bool} {r : Option Prmd} {α : Type}

/-- Within one section, with interrupts on or off before it. -/
def View.under (me : Context) (b : Nat → Prop) (lk : Lock) (i : Bool) (r : Option Prmd) : View :=
  { trapped me b (some i) r with noff := 1, held := [lk] }

/-- After the section. -/
def View.rest (me : Context) (b : Nat → Prop) (i : Bool) (r : Option Prmd) : View :=
  cond i (calm me b) (trapped me b (some false) r)

/-- Within the section of the process's own lock, with its state set. -/
def View.parking (b : Nat → Prop) (p : Nat) (i : Bool) (r : Option Prmd)
    (k : Nat → Option ProcState) (st : ProcState) : View :=
  { under (.proc p) b (.proc p) i r with knows := k, parked := some st }

theorem under_ready (me : Context) (b : Nat → Prop) (lk : Lock) (i : Bool) (r : Option Prmd) :
    (under me b lk i r).Ready me where
  kernel := rfl
  calm on := by cases on
  whole := rfl
  known _ _ h := by cases h
  fresh _ h := by cases h
  adopted _ h := by cases h
  claimed _ h := by cases h
  parked _ _ h := absurd rfl h
  current h _ h' := by cases h.symm.trans h'

theorem rest_idle (me : Context) (b : Nat → Prop) (i : Bool) (r : Option Prmd) : Idle me (rest me b i r) := by
  cases i with
  | true => exact ⟨b, .inl rfl⟩
  | false => exact ⟨b, .inr ⟨some false, r, rfl⟩⟩

theorem rest_locked (me : Context) (b : Nat → Prop) (lk : Lock) (i : Bool) :
    (rest me b i none).locked lk = under me b lk i none := by
  cases i with
  | true => rfl
  | false => rfl

theorem Idle.locked (idle : Idle me v) (lk : Lock) :
    ∃ r, v.locked lk = under me v.strangers lk v.ie r := by
  obtain ⟨b, rfl | ⟨i, r, rfl⟩⟩ := idle
  · exact ⟨none, rfl⟩
  · exact ⟨r, rfl⟩

theorem Idle.acquire (idle : Idle me v) (lk : Lock) :
    (rules init me).Safe (acquire lk) v fun _ w => ∃ r, w = under me v.strangers lk v.ie r := by
  refine (acquire_safe idle.ready.kernel idle.ready.whole (idle.free lk)).mono ?_
  rintro _ _ rfl
  exact idle.locked lk

theorem release_under {k : Nat → Option ProcState} (same : ∀ q, lk ≠ .proc q → k q = none) :
    (rules init me).Safe (release lk) { under me b lk i r with knows := k } fun _ w => w = rest me b i r := by
  have forgotten : ({ under me b lk i r with knows := k } : View).freed lk =
      { trapped me b (some i) r with noff := 1 } := by
    have knows : ({ under me b lk i r with knows := k } : View).forget lk = fun _ => none := by
      funext q
      by_cases own : lk = .proc q
      · exact if_pos own
      · exact (if_neg own).trans (same q own)
    have held : [lk].erase lk = [] := List.erase_cons_head ..
    unfold View.freed
    rw [knows]
    change ({ trapped me b (some i) r with noff := 1, held := [lk].erase lk } : View) = _
    rw [held]
    rfl
  refine (release_safe (v := { under me b lk i r with knows := k }) rfl List.mem_cons_self rfl
    (fun q _ => ⟨(Option.some_ne_none q).symm, fun _ => rfl, fun cpu eq => by cases cpu.symm.trans eq⟩) rfl (le_refl 1) fun _ _ => ?_).mono ?_
  · rw [forgotten]
    rfl
  · rintro _ _ ⟨on, rfl, last, -⟩
    rw [forgotten, last rfl i rfl]
    cases i with
    | true => rfl
    | false => rfl

/-! ### `sched` -/

theorem sched_safe {k : Nat → Option ProcState} {st : ProcState} (own : ∀ q st, k q = some st → q = p)
    (stops : st ≠ .running) :
    (rules init (.proc p)).Safe sched (parking b p i r k st) fun _ w =>
      st ≠ .zombie ∧ w = under (.proc p) b (.proc p) i none := by
  have ready : (parking b p i r k st).Ready (.proc p) :=
    { under_ready (.proc p) b (.proc p) i r with
      calm := fun on => by cases on
      known := fun q st known => by rw [own q st known]; exact List.mem_cons_self
      parked := fun q mine _ => by cases mine; exact List.mem_cons_self }
  refine thisproc_bind ready rfl fun w back => ?_
  have same : w = parking b p i r k st := back.eq (.inr Nat.one_ne_zero)
  subst same
  refine holding_bind rfl ?_
  rw [decide_eq_true (show Lock.proc p ∈ (parking b p i r k st).held from List.mem_cons_self)]
  refine Safe.join (fun u => u = parking b p i r k st) (fun no => by cases no) (fun _ => rfl) ?_
  rintro _ rfl
  refine noff_bind rfl ?_
  refine Safe.join (fun u => u = parking b p i r k st) (fun no => absurd rfl no) (fun _ => rfl) ?_
  rintro _ rfl
  refine state_bind rfl List.mem_cons_self fun st' _ mine => ?_
  have seen : st' = st := mine rfl
  subst seen
  refine Safe.join (fun u => u = { parking b p i r k st' with knows := Function.update k p (some st') })
    (fun runs => absurd runs stops) (fun _ => rfl) ?_
  rintro _ rfl
  refine intr_get_bind rfl ?_
  refine Safe.join (fun u => u = { parking b p i r k st' with knows := Function.update k p (some st') })
    (fun on => by cases on) (fun _ => rfl) ?_
  rintro _ rfl
  refine intena_bind rfl fun saved known => ?_
  have kept : saved = i := known i rfl
  subst kept
  have switches : View.Switches { parking b p saved r k st' with knows := Function.update k p (some st') } p :=
    ⟨rfl, rfl, rfl, rfl, rfl, rfl⟩
  refine Safe.perform_bind ⟨rfl, rfl, switches, Option.some_ne_none st'⟩ fun _ alive => ?_
  refine (set_intena_safe rfl saved rfl).mono ?_
  rintro _ _ rfl
  exact ⟨fun dead => alive (congrArg some dead), rfl⟩

/-- The process sets its state and switches away. -/
theorem park_bind {Q : α → View → Prop} {x : K α} {st : ProcState} (stops : st ≠ .running)
    (may : st = .sleeping ∨ st = .runnable ∨ st = .zombie ∧ p ≠ init ∧ ∀ q < NPROC, b q)
    (rest : st ≠ .zombie → (rules init (.proc p)).Safe x (under (.proc p) b (.proc p) i none) Q) :
    (rules init (.proc p)).Safe (do set_state p st; sched; x) (under (.proc p) b (.proc p) i r) Q := by
  refine Safe.perform_bind ⟨rfl, List.mem_cons_self, .inl ⟨rfl, rfl, may⟩⟩ fun _ _ => ?_
  have away : Next (.proc p) (under (.proc p) b (.proc p) i r) (.set_state p st) () =
      parking b p i r (Function.update (fun _ => none) p (some st)) st := by
    change ({ under (.proc p) b (.proc p) i r with
      knows := Function.update (fun _ => none) p (some st)
      parked := if Context.proc p = .proc p then some st else none
      claims := if st = .running then some p else none } : View) = _
    rw [if_pos rfl, if_neg stops]
    rfl
  change (rules init (.proc p)).Safe _ (Next (.proc p) (under (.proc p) b (.proc p) i r) (.set_state p st) ()) Q
  rw [away]
  refine Safe.bind_of (sched_safe (fun q st' known => ?_) stops) ?_
  · by_contra apart
    rw [Function.update_of_ne apart] at known
    cases known
  · rintro _ _ ⟨alive, rfl⟩
    exact rest alive

theorem yield_safe (idle : Idle (.proc p) v) :
    (rules init (.proc p)).Safe yield v fun _ w => w = rest (.proc p) v.strangers v.ie none := by
  refine thisproc_bind idle.ready idle.proc fun u back => ?_
  have here := idle.back back
  refine Safe.bind_of (here.acquire (.proc p)) ?_
  rintro _ _ ⟨r, rfl⟩
  refine park_bind (by decide) (.inr (.inl rfl)) fun _ => ?_
  refine (release_under fun _ _ => rfl).mono ?_
  rintro _ _ rfl
  obtain ⟨j, rfl, -⟩ := back
  rfl

theorem sleep_safe (ch : Chan) (lk : Lock) :
    (rules init (.proc p)).Safe (sleep ch lk) (under (.proc p) b lk i r) fun _ w =>
      w = under (.proc p) b lk i none := by
  refine thisproc_bind (under_ready _ _ _ _ _) rfl fun w back => ?_
  have same : w = under (.proc p) b lk i r := back.eq (.inr Nat.one_ne_zero)
  subst same
  by_cases own : lk = .proc p
  · subst own
    rw [if_neg (not_not_intro rfl)]
    refine Safe.perform_bind ⟨rfl, List.mem_cons_self⟩ fun _ _ => ?_
    refine park_bind (by decide) (.inl rfl) fun _ => ?_
    refine Safe.perform_bind ⟨rfl, List.mem_cons_self⟩ fun _ _ => ?_
    rw [if_neg (not_not_intro rfl)]
    rfl
  · rw [if_pos own]
    have free : Lock.proc p ∉ [lk] := fun member => own (List.mem_singleton.mp member).symm
    refine Safe.bind_of (acquire_safe rfl rfl free) ?_
    rintro _ _ rfl
    have freed : (((under (.proc p) b lk i r).locked (.proc p)).freed lk).popped false =
        under (.proc p) b (.proc p) i r := by
      have held : [Lock.proc p, lk].erase lk = [.proc p] := by
        rw [List.erase_cons_tail (by rwa [beq_iff_eq, eq_comm]), List.erase_cons_head]
      have knows : ((under (.proc p) b lk i r).locked (.proc p)).forget lk = fun _ => none := by
        funext q
        unfold forget
        split
        · rfl
        · rfl
      unfold View.freed
      rw [knows]
      change ({ under (.proc p) b (.proc p) i r with held := [Lock.proc p, lk].erase lk } : View) = _
      rw [held]
      rfl
    refine Safe.bind_of (release_safe rfl (List.mem_cons_of_mem _ List.mem_cons_self) rfl
      (fun q _ => ⟨(Option.some_ne_none q).symm, fun _ => rfl, fun cpu eq => by cases cpu.symm.trans eq⟩) rfl one_le_two fun one => by cases one) ?_
    rintro _ _ ⟨on, rfl, -, nested⟩
    rw [nested (show (2 : Nat) ≠ 1 from by decide), freed]
    refine Safe.perform_bind ⟨rfl, List.mem_cons_self⟩ fun _ _ => ?_
    refine park_bind (by decide) (.inl rfl) fun _ => ?_
    refine Safe.perform_bind ⟨rfl, List.mem_cons_self⟩ fun _ _ => ?_
    rw [if_pos own]
    refine Safe.bind_of (release_under fun _ _ => rfl) ?_
    rintro _ _ rfl
    have idle := rest_idle (.proc p) b i none
    refine (acquire_safe idle.ready.kernel idle.ready.whole (idle.free lk)).mono ?_
    rintro _ _ rfl
    exact rest_locked _ _ _ _

/-! ### `sleeplock.c` -/

variable {names : Names}

/-- A look at the current process within a section. -/
theorem under_thisproc {Q : α → View → Prop} {f : Nat → K α}
    (rest : (rules init (.proc p)).Safe (f p) (under (.proc p) b lk i r) Q) :
    (rules init (.proc p)).Safe (thisproc >>= f) (under (.proc p) b lk i r) Q := by
  refine thisproc_bind (under_ready _ _ _ _ _) rfl fun w back => ?_
  rw [back.eq (.inr Nat.one_ne_zero)]
  exact rest

theorem release_idle_under : (rules init me).Safe (release lk) (under me b lk i r) fun _ w => Idle me w := by
  refine (release_under fun _ _ => rfl).mono ?_
  rintro _ _ rfl
  exact rest_idle me b i r

theorem acquiresleep_safe (lk : Sleeplock) : Disciplined init p (acquiresleep lk) := by
  intro v idle
  refine Safe.bind_of (idle.acquire (.other lk.lk)) ?_
  rintro _ _ ⟨r, rfl⟩
  have inside := under_ready (.proc p) v.strangers (.other lk.lk) v.ie
  refine Safe.bind_of (P := fun _ w => ∃ r, w = under (.proc p) v.strangers (.other lk.lk) v.ie r) ?_ ?_
  · refine Safe.loopWhile (fun w => ∃ r, w = under (.proc p) v.strangers (.other lk.lk) v.ie r) ⟨r, rfl⟩ ?_
    rintro _ ⟨r, rfl⟩
    refine free_bind rfl trivial (fun _ => rfl) fun (taken : Nat) _ => ?_
    refine Safe.ite (fun _ => ?_) fun _ => ?_
    · refine Safe.bind_of (sleep_safe _ _) ?_
      rintro _ _ rfl
      exact Safe.again ⟨none, rfl⟩
    · exact Safe.out ⟨r, rfl⟩
  · rintro _ _ ⟨r, rfl⟩
    refine free_bind rfl trivial (fun _ => rfl) fun _ _ => ?_
    refine under_thisproc ?_
    refine free_bind rfl trivial (fun _ => rfl) fun _ _ => ?_
    exact release_idle_under

theorem releasesleep_safe (lk : Sleeplock) : Disciplined init p (releasesleep lk) := by
  intro v idle
  refine Safe.bind_of (idle.acquire (.other lk.lk)) ?_
  rintro _ _ ⟨r, rfl⟩
  refine free_bind rfl trivial (fun _ => rfl) fun _ _ => ?_
  refine free_bind rfl trivial (fun _ => rfl) fun _ _ => ?_
  have free : ∀ q, Lock.proc q ∉ [Lock.other lk.lk] := by
    intro q
    simp only [List.mem_singleton, reduceCtorEq, not_false_eq_true]
  refine back_bind (wakeup_back _ (under_ready _ _ _ _ _) free) Nat.one_ne_zero fun _ => ?_
  exact release_idle_under

theorem holdingsleep_safe (lk : Sleeplock) (idle : Idle (.proc p) v) :
    (rules init (.proc p)).Safe (holdingsleep lk) v fun _ w => Idle (.proc p) w := by
  refine Safe.bind_of (idle.acquire (.other lk.lk)) ?_
  rintro _ _ ⟨r, rfl⟩
  refine free_bind rfl trivial (fun _ => rfl) fun (taken : Nat) _ => ?_
  refine Safe.ite (fun _ => ?_) fun _ => ?_
  · refine free_bind rfl trivial (fun _ => rfl) fun (pid : Nat) _ => ?_
    refine under_thisproc ?_
    exact Safe.bind_of release_idle_under fun _ _ after => after
  · exact Safe.bind_of release_idle_under fun _ _ after => after

/-! ### `scheduler` -/

theorem Idle.enabled (idle : Idle me v) : v.enabled = calm me v.strangers := by
  obtain ⟨b, rfl | ⟨i, r, rfl⟩⟩ := idle
  · rfl
  · rfl

theorem intr_on_idle (idle : Idle me v) :
    (rules init me).Safe intr_on v fun _ w => w = calm me v.strangers :=
  intr_on_safe idle.ready.kernel idle.enabled

/-- One that has just been switched to gives the lock of the process back. Interrupts may
be on after it or not. -/
theorem release_resumed :
    (rules init me).Safe (release (.proc p)) { trapped me b none none with noff := 1, held := [.proc p] }
      fun _ w => Idle me w := by
  have forgotten : ({ trapped me b none none with noff := 1, held := [.proc p] } : View).freed (.proc p) =
      { trapped me b none none with noff := 1 } := by
    have knows : View.forget { trapped me b none none with noff := 1, held := [.proc p] } (.proc p) =
        fun _ => none := by
      funext q
      unfold forget
      split
      · rfl
      · rfl
    have held : [Lock.proc p].erase (.proc p) = [] := List.erase_cons_head ..
    unfold View.freed
    rw [knows]
    change ({ trapped me b none none with noff := 1, held := [Lock.proc p].erase (.proc p) } : View) = _
    rw [held]
    rfl
  refine (release_safe (v := { trapped me b none none with noff := 1, held := [.proc p] }) rfl
    List.mem_cons_self rfl (fun q _ => ⟨(Option.some_ne_none q).symm, fun _ => rfl, fun cpu eq => by cases cpu.symm.trans eq⟩) rfl (le_refl 1)
    fun _ _ => ?_).mono ?_
  · rw [forgotten]
    rfl
  · rintro _ _ ⟨on, rfl, -, -⟩
    rw [forgotten]
    cases on with
    | true => exact ⟨b, .inl rfl⟩
    | false => exact ⟨b, .inr ⟨none, none, rfl⟩⟩

theorem schedule_safe (c : Nat) (ps : List Nat) (found : Bool) (idle : Idle (.cpu c) v) :
    (rules init (.cpu c)).Safe (schedule ps found) v fun _ w => Idle (.cpu c) w := by
  induction ps generalizing v found with
  | nil => exact idle
  | cons p ps ih =>
    refine Safe.bind_of (idle.acquire (.proc p)) ?_
    rintro _ _ ⟨r, rfl⟩
    refine state_bind rfl List.mem_cons_self fun st _ _ => ?_
    refine Safe.ite (fun runnable => ?_) fun _ => ?_
    · subst runnable
      have known : Function.update (fun _ => none) p (some ProcState.runnable) p = some .runnable :=
        Function.update_self ..
      refine Safe.perform_bind ⟨rfl, List.mem_cons_self, .inr ⟨Context.noConfusion,
        .inr (.inr (.inr ⟨known, rfl, rfl, rfl⟩))⟩⟩ fun _ _ => ?_
      refine Safe.perform_bind ⟨rfl, rfl, .inr ⟨rfl, rfl⟩⟩ fun _ _ => ?_
      refine Safe.perform_bind ⟨rfl, rfl, ⟨rfl, rfl, rfl, rfl, rfl, rfl⟩, rfl⟩ fun _ _ => ?_
      refine Safe.perform_bind ⟨rfl, rfl, .inl rfl⟩ fun _ _ => ?_
      exact Safe.bind_of release_resumed fun _ _ after => ih true after
    · have same : ∀ q, Lock.proc p ≠ .proc q → Function.update (fun _ => none) p (some st) q = none := by
        intro q apart
        refine Function.update_of_ne ?_ _ _
        rintro rfl
        exact apart rfl
      refine Safe.bind_of (release_under same) ?_
      rintro _ _ rfl
      exact ih found (rest_idle _ _ _ _)

/-- The scheduler goes on for ever. -/
theorem scheduler_safe (c : Nat) (Q : Unit → View → Prop) (idle : Idle (.cpu c) v) :
    (rules init (.cpu c)).Safe scheduler v Q := by
  refine Safe.perform_bind ⟨idle.ready.kernel, rfl, .inl rfl⟩ fun _ _ => ?_
  refine Safe.loopWhile (fun w => Idle (.cpu c) w) ?_ fun w here => ?_
  · obtain ⟨b, rfl | ⟨i, r, rfl⟩⟩ := idle
    · exact ⟨b, .inl rfl⟩
    · exact ⟨b, .inr ⟨i, r, rfl⟩⟩
  · refine Safe.bind_of (intr_on_idle here) ?_
    rintro _ _ rfl
    refine Safe.bind_of (schedule_safe c _ false ⟨_, .inl rfl⟩) fun found u after => ?_
    refine Safe.join (fun u => Idle (.cpu c) u) (fun _ => ?_) (fun _ => after) fun u after => Safe.again after
    refine (intr_on_idle after).mono ?_
    rintro _ _ rfl
    exact ⟨_, .inl rfl⟩

end AvxKernel.Sched
