import AvxKernel.Sched.Switching

/-! `exit`, `wait` and `wait4pid`: a process and its parent hold each other's locks, the
parent's first. -/
namespace AvxKernel.Sched

open Code (perform repeatFrom each)
open Rules (Safe)
open Proc (ProcState Chan)
open View

variable {init : Nat} {me : Context} {b : Nat → Prop} {v w : View} {lk : Lock} {p q : Nat}
  {i : Bool} {r : Option Prmd} {α : Type} {names : Names}

/-! ### `exit` -/

/-- Both locks are held, the process's own on top. -/
def View.both (b : Nat → Prop) (p q : Nat) (i : Bool) (r : Option Prmd) (k : Nat → Option ProcState) :
    View :=
  { under (.proc p) b (.proc p) i r with noff := 2, held := [.proc p, .proc q], knows := k }

theorem both_ready : (both b p q i r fun _ => none).Ready (.proc p) where
  kernel := rfl
  calm on := by cases on
  whole := rfl
  known _ _ h := by cases h
  fresh _ h := by cases h
  adopted _ h := by cases h
  claimed _ h := by cases h
  parked _ _ h := absurd rfl h
  current h _ _ := by cases h

/-- The end of `exit`: the process gives the lock of its parent back, and is not seen
again. -/
theorem leave_safe {k : Nat → Option ProcState} (apart : q ≠ p) (notInit : p ≠ init)
    (childless : ∀ q < NPROC, b q) (known : ∀ x, x ≠ q → k x = none) {Q : α → View → Prop} {x : K α} :
    (rules init (.proc p)).Safe (do set_state p .zombie; release (.proc q); sched; x) (both b p q i r k) Q := by
  refine Safe.perform_bind ⟨rfl, List.mem_cons_self,
    .inl ⟨rfl, rfl, .inr (.inr ⟨rfl, notInit, childless⟩)⟩⟩ fun _ _ => ?_
  have dead : Next (.proc p) (both b p q i r k) (.set_state p .zombie) () =
      { both b p q i r (Function.update k p (some .zombie)) with parked := some .zombie } := by
    change ({ both b p q i r (Function.update k p (some .zombie)) with
      parked := if Context.proc p = .proc p then some .zombie else none } : View) = _
    rw [if_pos rfl]
  change (rules init (.proc p)).Safe _ (Next (.proc p) (both b p q i r k) (.set_state p .zombie) ()) Q
  rw [dead]
  have other : (.proc p : Context) ≠ .proc q := fun eq => apart (Context.proc.inj eq).symm
  refine Safe.bind_of (release_safe rfl (List.mem_cons_of_mem _ List.mem_cons_self) rfl ?_ rfl
    one_le_two fun one => by cases one) ?_
  · intro x eq
    refine ⟨(Option.some_ne_none x).symm, fun mine => ?_, fun cpu => by cases cpu⟩
    rw [← Lock.proc.inj eq] at mine
    exact absurd mine other
  rintro _ _ ⟨on, rfl, -, nested⟩
  have only : ∀ x st, View.forget (both b p q i r (Function.update k p (some .zombie))) (.proc q) x = some st →
      x = p := by
    intro x st seen
    by_contra elsewhere
    unfold forget at seen
    split at seen
    · cases seen
    · rename_i different
      have : x ≠ q := by
        rintro rfl
        exact different rfl
      change Function.update k p (some .zombie) x = some st at seen
      rw [Function.update_of_ne elsewhere, known x this] at seen
      cases seen
  have alone : (View.freed { both b p q i r (Function.update k p (some .zombie)) with
      parked := some .zombie } (.proc q)).popped false = parking b p i r
        (View.forget (both b p q i r (Function.update k p (some .zombie))) (.proc q)) .zombie := by
    have held : [Lock.proc p, Lock.proc q].erase (.proc q) = [.proc p] := by
      rw [List.erase_cons_tail (by rw [beq_iff_eq]; exact fun eq => apart (Lock.proc.inj eq).symm),
        List.erase_cons_head]
    change ({ parking b p i r
        (View.forget (both b p q i r (Function.update k p (some .zombie))) (.proc q)) .zombie with
      held := [Lock.proc p, Lock.proc q].erase (.proc q) } : View) = _
    rw [held]
    rfl
  rw [nested (show (2 : Nat) ≠ 1 from by decide), alone]
  refine Safe.bind_of (sched_safe only (by decide)) ?_
  rintro _ _ ⟨alive, -⟩
  exact absurd rfl alive

theorem exit_safe (root : init = names.initproc) (notInit : p ≠ init)
    (closing : Disciplined init p names.closing) (idle : Idle (.proc p) v) (Q : Unit → View → Prop) :
    (rules init (.proc p)).Safe (exit names) v Q := by
  refine thisproc_bind idle.ready idle.proc fun w back => ?_
  have idle := idle.back back
  refine Safe.join (fun u => Idle (.proc p) u) (fun same => absurd (same.trans root.symm) notInit)
    (fun _ => idle) fun u idle => ?_
  refine Safe.bind_of (closing u idle) fun _ u idle => ?_
  -- the first process is woken up
  refine Safe.bind_of (acquire_safe idle.ready.kernel idle.ready.whole (idle.free _)) ?_
  rintro _ _ rfl
  refine Safe.bind_of (wakeup1_safe (v := u.locked (.proc names.initproc)) idle.ready.kernel
    List.mem_cons_self (idle.ready.awake (idle.free _)) (idle.ready.old (idle.free _))) fun _ y noted => ?_
  refine Safe.bind_of (release_back idle.ready (idle.free _) (noted.learnt idle.ready (idle.free _)))
    fun _ u' back => ?_
  have idle := idle.back back
  -- the parent is looked up
  refine Safe.bind_of (acquire_safe idle.ready.kernel idle.ready.whole (idle.free _)) ?_
  rintro _ _ rfl
  refine Safe.perform_bind ⟨idle.ready.kernel, trivial⟩ ?_
  rintro (parent : Option Nat) ⟨proper, own⟩
  obtain ⟨-, alive⟩ := own p rfl notInit
  have here := idle.strangers fun x =>
    u'.strangers x ∨ x = p ∧ parent ≠ some p ∨ Context.proc p = .proc p ∧ parent = some x
  refine Safe.bind_of (release_back here.ready (here.free _) (here.ready.learnt (here.free _)))
    fun _ y back => ?_
  cases parent with
  | none => exact absurd rfl (alive rfl idle.nothing.2.2)
  | some q =>
    obtain ⟨apart, -⟩ := proper q rfl
    have idle := here.back back
    have stranger : y.strangers q := by
      obtain ⟨j, rfl, -⟩ := back
      exact .inr (.inr ⟨rfl, rfl⟩)
    refine Safe.bind_of (idle.acquire (.proc q)) ?_
    rintro _ _ ⟨r, rfl⟩
    have free : Lock.proc p ∉ [Lock.proc q] := by
      intro member
      exact apart (Lock.proc.inj (List.mem_singleton.mp member)).symm
    refine Safe.bind_of (acquire_safe rfl rfl free) ?_
    rintro _ _ rfl
    change (rules init (.proc p)).Safe _ (both y.strangers p q y.ie r fun _ => none) Q
    refine Safe.bind_of (reparent_safe _ (fun _ => List.mem_range.mp) rfl root notInit both_ready
      (show (2 : Nat) ≠ 0 from by decide) rfl fun x held => ?_) ?_
    · rcases List.mem_cons.mp held with eq | tail
      · exact .inl (Lock.proc.inj eq)
      · exact .inr ((Lock.proc.inj (List.mem_singleton.mp tail)) ▸ stranger)
    rintro _ _ ⟨c, rfl, -, childless⟩
    have held : Lock.proc q ∈ [Lock.proc p, .proc q] := List.mem_cons_of_mem _ List.mem_cons_self
    have awake : Context.proc p = .proc q → (none : Option ProcState) = none := fun _ => rfl
    have old : (none : Option Nat) ≠ some q := (Option.some_ne_none q).symm
    refine Safe.bind_of (wakeup1_safe (v := both c p q y.ie r fun _ => none) rfl held awake old) ?_
    rintro _ _ ⟨k, rfl, same⟩
    refine Safe.bind_of (rouse1_safe (v := both c p q y.ie r k) _ rfl held awake old) ?_
    rintro _ _ ⟨k', rfl, same'⟩
    exact leave_safe apart notInit (fun x small => childless x (List.mem_range.mpr small))
      fun x other => (same' x other).trans (same x other)

/-! ### `wait` and `wait4pid` -/

/-- The process has taken the lock of a child as well as its own. -/
def View.visiting (b : Nat → Prop) (p np : Nat) (i : Bool) (r : Option Prmd) (st : ProcState) : View :=
  { View.locked (under (.proc p) b (.proc p) i r) (.proc np) with
    knows := Function.update (fun _ => none) np (some st) }

theorem not_mem_own (apart : q ≠ p) : Lock.proc q ∉ [Lock.proc p] := by
  intro member
  exact apart (Lock.proc.inj (List.mem_singleton.mp member))

/-- A look at whose child it is, and at the state of one's own. -/
theorem child_bind {np : Nat} {Q : α → View → Prop} {yes : ProcState → K α} {no : K α}
    (child : np ≠ p → ∀ b st, (rules init (.proc p)).Safe (yes st) (visiting b p np i r st) Q)
    (other : ∀ b, (rules init (.proc p)).Safe no (under (.proc p) b (.proc p) i r) Q) :
    (rules init (.proc p)).Safe (do
      if (← parent np) = some p then
        acquire (.proc np)
        yes (← state np)
      else
        no) (under (.proc p) b (.proc p) i r) Q := by
  refine Safe.perform_bind ⟨rfl, trivial⟩ ?_
  rintro (found : Option Nat) ⟨proper, -⟩
  let c : Nat → Prop := fun q =>
    b q ∨ q = np ∧ found ≠ some p ∨ Context.proc p = .proc np ∧ found = some q
  refine Safe.ite (fun mine => ?_) fun _ => other c
  have apart : np ≠ p := (proper p mine).1.symm
  refine Safe.bind_of (acquire_safe rfl rfl (not_mem_own apart)) ?_
  rintro _ _ rfl
  refine state_bind rfl List.mem_cons_self fun st _ _ => ?_
  exact child apart c st

theorem release_child {np : Nat} {k : Nat → Option ProcState} {c : Nat → Prop} (apart : np ≠ p)
    (same : ∀ q, q ≠ np → k q = none) :
    (rules init (.proc p)).Safe (release (.proc np))
      { View.locked (under (.proc p) b (.proc p) i r) (.proc np) with knows := k, strangers := c }
      fun _ w => w = under (.proc p) c (.proc p) i r := by
  have learnt : Learnt (.proc np) (View.locked (under (.proc p) c (.proc p) i r) (.proc np))
      { View.locked (under (.proc p) b (.proc p) i r) (.proc np) with knows := k, strangers := c } :=
    ⟨k, none, none, rfl, fun q other => same q fun eq => other (by rw [eq]), rfl, rfl⟩
  refine (release_back (under_ready _ _ _ _ _) (not_mem_own apart) learnt).mono fun _ _ after => ?_
  exact after.eq (.inr Nat.one_ne_zero)

theorem release_visiting {np : Nat} {st : ProcState} (apart : np ≠ p) :
    (rules init (.proc p)).Safe (release (.proc np)) (visiting b p np i r st) fun _ w =>
      w = under (.proc p) b (.proc p) i r :=
  release_child apart fun _ other => Function.update_of_ne other _ _

/-- A child is freed, and both locks are given back. -/
theorem reap_bind {np : Nat} {Q : α → View → Prop} {x : K α} (apart : np ≠ p) (small : np < NPROC)
    (rest : ∀ w, Idle (.proc p) w → (rules init (.proc p)).Safe x w Q) :
    (rules init (.proc p)).Safe (do freeproc names true np; release (.proc np); release (.proc p); x)
      (visiting b p np i r .zombie) Q := by
  have locked := (under_ready (.proc p) b (.proc p) i r).locked (.proc np)
  have ready : (visiting b p np i r .zombie).Ready (.proc p) := locked.learn List.mem_cons_self .zombie
  have others : ∀ n, Lock.other n ∉ [Lock.proc np, .proc p] := by
    intro n
    simp only [List.mem_cons, reduceCtorEq, List.not_mem_nil, or_self, not_false_eq_true]
  have free : Free names (visiting b p np i r .zombie) := ⟨others _, others _⟩
  have other : (.proc p : Context) ≠ .proc np := fun eq => apart (Context.proc.inj eq).symm
  have dead : Function.update (fun _ => none) np (some ProcState.zombie) np = some .zombie :=
    Function.update_self ..
  refine Safe.bind_of (freeproc_safe ready (show (2 : Nat) ≠ 0 from by decide) List.mem_cons_self free
    small other (.inr dead)) ?_
  rintro _ _ ⟨c, rfl⟩
  refine Safe.bind_of (release_child (c := c) apart fun q elsewhere => ?_) ?_
  · rw [Function.update_of_ne elsewhere]
    exact Function.update_of_ne elsewhere (some ProcState.zombie) fun _ => none
  · rintro _ _ rfl
    exact Safe.bind_of release_idle_under fun _ w after => rest w after

/-- What a round over the table leaves: only the process's own lock, or none. -/
def Scanned (p : Nat) (i : Bool) (r : Option Prmd) : Option Bool → View → Prop
  | none, w => Idle (.proc p) w
  | some _, w => ∃ b, w = under (.proc p) b (.proc p) i r

theorem waitScan_safe (ps : List Nat) (small : ∀ q ∈ ps, q < NPROC) (havekids : Bool) :
    (rules init (.proc p)).Safe (waitScan names p ps havekids) (under (.proc p) b (.proc p) i r)
      (Scanned p i r) := by
  induction ps generalizing b havekids with
  | nil => exact ⟨b, rfl⟩
  | cons np ps ih =>
    have smaller : ∀ q ∈ ps, q < NPROC := fun q member => small q (List.mem_cons_of_mem np member)
    refine child_bind (fun apart c st => ?_) fun c => ih smaller havekids
    refine Safe.ite (fun dead => ?_) fun _ => ?_
    · subst dead
      refine free_bind rfl trivial (fun _ => rfl) fun (fails : Bool) _ => ?_
      refine Safe.ite (fun _ => ?_) fun _ => ?_
      · refine Safe.bind_of (release_visiting apart) ?_
        rintro _ _ rfl
        exact Safe.bind_of release_idle_under fun _ _ after => after
      · exact reap_bind apart (small np List.mem_cons_self) fun _ after => after
    · refine Safe.bind_of (release_visiting apart) ?_
      rintro _ _ rfl
      exact ih smaller true

theorem wait_safe : Disciplined init p (wait names) := by
  intro v idle
  refine thisproc_bind idle.ready idle.proc fun w back => ?_
  refine Safe.bind_of ((idle.back back).acquire (.proc p)) ?_
  rintro _ _ ⟨r, rfl⟩
  refine Safe.loopWhile (fun u => ∃ b r, u = under (.proc p) b (.proc p) w.ie r) ⟨_, _, rfl⟩ ?_
  rintro _ ⟨b, r, rfl⟩
  refine Safe.bind_of (waitScan_safe _ (fun _ => List.mem_range.mp) false) fun found u after => ?_
  cases found with
  | none => exact Safe.out after
  | some havekids =>
    obtain ⟨c, rfl⟩ := after
    refine free_bind rfl trivial (fun _ => rfl) fun (dying : Bool) _ => ?_
    refine Safe.ite (fun _ => ?_) fun _ => ?_
    · exact Safe.bind_of release_idle_under fun _ _ after => Safe.out after
    · refine Safe.bind_of (sleep_safe _ _) ?_
      rintro _ _ rfl
      exact Safe.again ⟨c, none, rfl⟩

/-- `findchild` returns with the lock of the child that it has found. -/
def Found (p : Nat) (i : Bool) (r : Option Prmd) : Option Nat × Option Nat → View → Prop
  | (some np, _), w => np ≠ p ∧ np < NPROC ∧ ∃ b, w = visiting b p np i r .zombie
  | (none, _), w => ∃ b, w = under (.proc p) b (.proc p) i r

theorem findchild_safe (any : Bool) (ps : List Nat) (small : ∀ q ∈ ps, q < NPROC) (child : Option Nat) :
    (rules init (.proc p)).Safe (findchild any p ps child) (under (.proc p) b (.proc p) i r)
      (Found p i r) := by
  induction ps generalizing b child with
  | nil => exact ⟨b, rfl⟩
  | cons np ps ih =>
    have smaller : ∀ q ∈ ps, q < NPROC := fun q member => small q (List.mem_cons_of_mem np member)
    refine free_bind rfl trivial (fun _ => rfl) fun (pid : Bool) _ => ?_
    refine Safe.ite (fun _ => ?_) fun _ => ih smaller child
    refine child_bind (fun apart c st => ?_) fun c => ih smaller child
    refine Safe.ite (fun dead => ?_) fun _ => ?_
    · subst dead
      exact ⟨apart, small np List.mem_cons_self, c, rfl⟩
    · refine Safe.bind_of (release_visiting apart) ?_
      rintro _ _ rfl
      exact ih smaller (some np)

theorem wait4pid_safe (any : Bool) : Disciplined init p (wait4pid names any) := by
  intro v idle
  refine thisproc_bind idle.ready idle.proc fun w back => ?_
  refine Safe.bind_of ((idle.back back).acquire (.proc p)) ?_
  rintro _ _ ⟨r, rfl⟩
  refine Safe.loopWhile (fun u => ∃ b r, u = under (.proc p) b (.proc p) w.ie r) ⟨_, _, rfl⟩ ?_
  rintro _ ⟨b, r, rfl⟩
  refine Safe.bind_of (findchild_safe any _ (fun _ => List.mem_range.mp) none) fun found u after => ?_
  obtain ⟨child, tchild⟩ := found
  cases child with
  | some child =>
    obtain ⟨apart, small, c, rfl⟩ := after
    refine free_bind rfl trivial (fun _ => rfl) fun (fails : Bool) _ => ?_
    refine Safe.ite (fun _ => ?_) fun _ => ?_
    · refine Safe.bind_of (release_visiting apart) ?_
      rintro _ _ rfl
      exact Safe.bind_of release_idle_under fun _ _ after => Safe.out after
    · exact reap_bind apart small fun _ after => Safe.out after
  | none =>
    obtain ⟨c, rfl⟩ := after
    cases tchild with
    | none => exact Safe.bind_of release_idle_under fun _ _ after => Safe.out after
    | some tchild =>
      refine Safe.bind_of (sleep_safe _ _) ?_
      rintro _ _ rfl
      exact Safe.again ⟨c, none, rfl⟩

end AvxKernel.Sched
