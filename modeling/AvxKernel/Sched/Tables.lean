import AvxKernel.Sched.Specs

/-! The functions that go over the table of processes and do not switch: they take the
lock of one process after the other, and give each back. -/
namespace AvxKernel.Sched

open Code (perform repeatFrom each)
open Rules (Safe)
open Proc (ProcState Chan)
open View

variable {init : Nat} {me : Context} {v w : View} {lk : Lock} {p q : Nat} {α : Type}

namespace View

theorem Ready.held_off (ready : v.Ready me) (held : lk ∈ v.held) : v.ie = false := by
  by_contra on
  rw [Bool.not_eq_false] at on
  rw [ready.calm on] at held
  exact List.not_mem_nil held

/-- What is known may be anything that goes with the locks that are held. -/
theorem Ready.nested {k : Nat → Option ProcState} {f a : Option Nat} {b : Nat → Prop}
    (ready : v.Ready me) (off : v.ie = false) (known : ∀ q st, k q = some st → .proc q ∈ v.held)
    (fresh : ∀ q, f = some q → .proc q ∈ v.held) (adopted : ∀ q, a = some q → .proc q ∈ v.held) :
    Ready me { v with knows := k, fresh := f, adopted := a, strangers := b } :=
  { ready with
    calm := fun on => absurd (off.symm.trans on) Bool.false_ne_true
    known, fresh, adopted }

theorem Ready.learn (ready : v.Ready me) (held : .proc p ∈ v.held) (st : ProcState) :
    Ready me { v with knows := Function.update v.knows p (some st) } := by
  refine ready.nested (ready.held_off held) (fun q st' known => ?_) ready.fresh ready.adopted
  by_cases same : q = p
  · rwa [same]
  · rw [Function.update_of_ne same] at known
    exact ready.known q st' known

theorem Ready.strangers (ready : v.Ready me) (b : Nat → Prop) : Ready me { v with strangers := b } :=
  { ready with calm := fun on => congrArg (fun u : View => { u with strangers := b }) (ready.calm on) }

theorem calm_ready (me : Context) (b : Nat → Prop) : (calm me b).Ready me where
  kernel := rfl
  calm _ := rfl
  whole := rfl
  known _ _ h := by cases h
  fresh _ h := by cases h
  adopted _ h := by cases h
  claimed _ h := by cases h
  parked _ _ h := absurd rfl h
  current h _ h' := by cases h.symm.trans h'

theorem trapped_ready (me : Context) (b : Nat → Prop) (i : Option Bool) (r : Option Prmd) :
    (trapped me b i r).Ready me :=
  { calm_ready me b with calm := fun on => by cases on }

end View

theorem Idle.ready (idle : Idle me v) : v.Ready me := by
  obtain ⟨b, rfl | ⟨i, r, rfl⟩⟩ := idle
  · exact calm_ready me b
  · exact trapped_ready me b i r

theorem Idle.held (idle : Idle me v) : v.held = [] := by
  obtain ⟨b, rfl | ⟨i, r, rfl⟩⟩ := idle
  · rfl
  · rfl

theorem Idle.free (idle : Idle me v) (lk : Lock) : lk ∉ v.held := by
  rw [idle.held]
  exact List.not_mem_nil

theorem Idle.proc (idle : Idle me v) : v.proc = me.process := by
  obtain ⟨b, rfl | ⟨i, r, rfl⟩⟩ := idle
  · rfl
  · rfl

theorem Idle.back (idle : Idle me v) (back : v.Back w) : Idle me w := by
  obtain ⟨b, rfl | ⟨i, r, rfl⟩⟩ := idle
  · exact ⟨b, .inl (back.eq (.inl rfl))⟩
  · obtain ⟨j, rfl, -⟩ := back
    exact ⟨b, .inr ⟨j, r, rfl⟩⟩

/-- While a lock is held or interrupts are off, nothing changes. -/
theorem Safe.stays {x : K α} {P : α → Prop} (h : (rules init me).Safe x v fun a w => P a ∧ v.Back w)
    (nested : v.noff ≠ 0) : (rules init me).Safe x v fun a w => P a ∧ w = v :=
  h.mono fun _ _ after => ⟨after.1, after.2.eq (.inr nested)⟩

/-! ### The current process -/

theorem myproc_safe (ready : v.Ready me) :
    (rules init me).Safe myproc v fun r w => r = v.proc ∧ v.Back w := by
  refine Safe.bind_of (push_off_safe ready.kernel) ?_
  rintro _ _ rfl
  refine cpu_proc_bind ready.kernel ?_
  refine Safe.bind_of (pop_back ready) fun _ w back => ?_
  exact ⟨rfl, back⟩

theorem thisproc_safe (ready : v.Ready me) (proc : v.proc = some p) :
    (rules init me).Safe thisproc v fun r w => r = p ∧ v.Back w := by
  refine Safe.bind_of (myproc_safe ready) ?_
  rintro _ w ⟨rfl, back⟩
  rw [proc]
  exact ⟨rfl, back⟩

theorem thisproc_bind {Q : α → View → Prop} {f : Nat → K α} (ready : v.Ready me)
    (proc : v.proc = some p) (rest : ∀ w, v.Back w → (rules init me).Safe (f p) w Q) :
    (rules init me).Safe (thisproc >>= f) v Q := by
  refine Safe.bind_of (thisproc_safe ready proc) ?_
  rintro _ w ⟨rfl, back⟩
  exact rest w back

/-! ### Rounds and sections -/

theorem some_rounds_back {body : K Unit} (ready : v.Ready me)
    (round : ∀ u, v.Back u → (rules init me).Safe body u fun _ w => u.Back w) :
    (rules init me).Safe (some_rounds body) v fun _ w => v.Back w := by
  refine Safe.loopWhile (fun u => v.Back u) (.refl v) fun u here => ?_
  refine free_bind (here.ready ready).kernel trivial (fun _ => rfl) ?_
  rintro (r : Bool) -
  refine Safe.ite (fun _ => ?_) fun _ => ?_
  · refine Safe.bind_of (round u here) fun _ w back => ?_
    exact Safe.again (here.trans back)
  · exact Safe.out here

theorem guarded_back {n : Nat} (ready : v.Ready me) (free : .other n ∉ v.held) :
    (rules init me).Safe (guarded n) v fun _ w => v.Back w := by
  refine Safe.bind_of (acquire_safe ready.kernel ready.whole free) ?_
  rintro _ _ rfl
  exact release_back ready free (ready.learnt free)

theorem uartputc_sync_back (ready : v.Ready me) :
    (rules init me).Safe uartputc_sync v fun _ w => v.Back w := by
  refine Safe.bind_of (push_off_safe ready.kernel) ?_
  rintro _ _ rfl
  refine Safe.bind_of (P := fun _ u => u = v.pushed) ?_ ?_
  · refine Safe.loopWhile (fun u => u = v.pushed) rfl ?_
    rintro _ rfl
    refine Safe.perform ⟨ready.kernel, trivial⟩ ?_
    rintro (r : Bool) -
    cases r with
    | true => rfl
    | false => rfl
  · rintro _ _ rfl
    exact pop_back ready

variable {names : Names}

theorem printf_back (ready : v.Ready me) (free : .other names.pr_lock ∉ v.held) :
    (rules init me).Safe (printf names) v fun _ w => v.Back w := by
  refine section_safe ready free ?_
  have here := ready.locked (.other names.pr_lock)
  refine (some_rounds_back here fun u back => uartputc_sync_back (back.ready here)).mono fun _ w back => ?_
  rw [back.eq (.inr (Nat.succ_ne_zero v.noff))]
  exact ready.learnt free

/-- The allocator may be called with locks held, but neither its own nor that of `printf`. -/
def Free (names : Names) (v : View) : Prop :=
  .other names.kmem_lock ∉ v.held ∧ .other names.pr_lock ∉ v.held

theorem Free.back (free : Free names v) (back : v.Back w) : Free names w := by
  unfold Free
  rw [back.held]
  exact free

theorem kalloc_back (page : Bool) (ready : v.Ready me) (free : Free names v) :
    (rules init me).Safe (kalloc names page) v fun r w => r = page ∧ v.Back w := by
  refine Safe.bind_of (guarded_back ready free.1) fun _ w back => ?_
  refine Safe.ite (fun has => ⟨has.symm, back⟩) fun none => ?_
  have out : (rules init me).Safe (printf names) w fun _ u => w.Back u :=
    printf_back (back.ready ready) (free.back back).2
  exact Safe.bind_of out fun _ _ back' => ⟨(Bool.eq_false_iff.mpr none).symm, back.trans back'⟩

theorem kfree_back (ready : v.Ready me) (free : Free names v) :
    (rules init me).Safe (kfree names true) v fun _ w => v.Back w := guarded_back ready free.1

theorem choose_bind (ready : v.Ready me) {f : Bool → K α} {Q : α → View → Prop}
    (rest : ∀ b, (rules init me).Safe (f b) v Q) : (rules init me).Safe (choose >>= f) v Q :=
  free_bind ready.kernel trivial (fun _ => rfl) fun b _ => rest b

theorem pages_back (ready : v.Ready me) (free : Free names v) :
    (rules init me).Safe (pages names) v fun _ w => v.Back w := by
  refine Safe.bind_of (some_rounds_back ready fun u back => ?_) fun _ w back => ?_
  · refine choose_bind (back.ready ready) fun page => ?_
    exact Safe.bind_of (kalloc_back page (back.ready ready) (free.back back)) fun _ _ after => after.2
  · exact Safe.perform ⟨(back.ready ready).kernel, trivial⟩ fun _ _ => back

/-! ### Waking processes up -/

theorem filter_ne {known : Option Nat} (other : known ≠ some p) : known.filter (· ≠ p) = known := by
  cases own : known with
  | none => rfl
  | some q =>
    have apart : q ≠ p := fun same => other (own.trans (congrArg some same))
    exact Option.filter_some_pos (decide_eq_true apart)

/-- A process that sleeps is made runnable. -/
theorem set_runnable_safe (kernel : v.user = false) (held : .proc p ∈ v.held) (other : me ≠ .proc p)
    (asleep : v.knows p = some .sleeping) (old : v.fresh ≠ some p) :
    (rules init me).Safe (set_state p .runnable) v fun _ w =>
      w = { v with knows := Function.update v.knows p (some .runnable) } := by
  refine Safe.perform ⟨kernel, held, .inr ⟨other, .inl ⟨asleep, rfl⟩⟩⟩ fun _ _ => ?_
  have running : ProcState.runnable ≠ .running := by decide
  change ({ v with
    knows := Function.update v.knows p (some .runnable)
    parked := if me = .proc p then some .runnable else v.parked
    claims := if ProcState.runnable = .running then some p else v.claims
    fresh := v.fresh.filter (· ≠ p) } : View) = _
  rw [if_neg other, if_neg running, filter_ne old]

/-- Only what is known of the process may be new. -/
def Noted (p : Nat) (v w : View) : Prop :=
  ∃ k, w = { v with knows := k } ∧ ∀ q, q ≠ p → k q = v.knows q

theorem Noted.refl (p : Nat) (v : View) : Noted p v v := ⟨v.knows, rfl, fun _ _ => rfl⟩

theorem Noted.update (p : Nat) (v : View) (st : Option ProcState) :
    Noted p v { v with knows := Function.update v.knows p st } :=
  ⟨_, rfl, fun _ other => Function.update_of_ne other _ _⟩

theorem Noted.trans {u : View} (h : Noted p v w) (h' : Noted p w u) : Noted p v u := by
  obtain ⟨k, rfl, same⟩ := h
  obtain ⟨k', rfl, same'⟩ := h'
  exact ⟨k', rfl, fun q other => (same' q other).trans (same q other)⟩

theorem Noted.learnt (ready : v.Ready me) (free : .proc p ∉ v.held)
    (noted : Noted p (v.locked (.proc p)) w) : Learnt (.proc p) (v.locked (.proc p)) w := by
  obtain ⟨k, rfl, same⟩ := noted
  refine ⟨k, v.fresh, v.adopted, rfl, fun q other => same q ?_, filter_unheld ready.fresh free,
    filter_unheld ready.adopted free⟩
  rintro rfl
  exact other rfl

/-- A process that was seen to sleep is made runnable. -/
theorem rouse_asleep {st : ProcState} (kernel : v.user = false) (held : .proc p ∈ v.held)
    (awake : me = .proc p → v.parked = none) (old : v.fresh ≠ some p)
    (own : me = .proc p → st = v.parked.getD .running) (asleep : st = .sleeping) :
    (rules init me).Safe (set_state p .runnable)
      { v with knows := Function.update v.knows p (some st) } fun _ w => Noted p v w := by
  have other : me ≠ .proc p := by
    intro mine
    have running := own mine
    rw [awake mine, asleep] at running
    cases running
  refine (set_runnable_safe (v := { v with knows := Function.update v.knows p (some st) }) kernel held other
    ((Function.update_self ..).trans (congrArg some asleep)) old).mono ?_
  rintro _ _ rfl
  exact (Noted.update p v (some st)).trans (Noted.update p _ (some .runnable))

theorem rouse1_safe (ch : Chan) (kernel : v.user = false) (held : .proc p ∈ v.held)
    (awake : me = .proc p → v.parked = none) (old : v.fresh ≠ some p) :
    (rules init me).Safe (rouse1 p ch) v fun _ w => Noted p v w := by
  refine free_bind kernel trivial (fun _ => rfl) fun (r : Option Chan) _ => ?_
  refine Safe.ite (fun _ => ?_) fun _ => ?_
  · refine state_bind kernel held fun st _ own => ?_
    refine Safe.ite (fun asleep => ?_) fun _ => ?_
    · exact rouse_asleep kernel held awake old own asleep
    · exact Noted.update p v (some st)
  · exact Noted.refl p v

theorem rouse_safe (ch : Chan) (kernel : v.user = false) (held : .proc p ∈ v.held)
    (awake : me = .proc p → v.parked = none) (old : v.fresh ≠ some p) :
    (rules init me).Safe (rouse p ch) v fun _ w => Noted p v w := by
  refine state_bind kernel held fun st _ own => ?_
  refine Safe.ite (fun asleep => ?_) fun _ => ?_
  · refine free_bind kernel trivial (fun _ => rfl) (fun (r : Option Chan) _ => ?_)
    refine Safe.ite (fun _ => ?_) fun _ => ?_
    · exact rouse_asleep kernel held awake old own asleep
    · exact Noted.update p v (some st)
  · exact Noted.update p v (some st)

theorem wakeup1_safe (kernel : v.user = false) (held : .proc p ∈ v.held)
    (awake : me = .proc p → v.parked = none) (old : v.fresh ≠ some p) :
    (rules init me).Safe (wakeup1 p) v fun _ w => Noted p v w := by
  refine holding_bind kernel ?_
  rw [decide_eq_true held]
  refine Safe.join (fun u => v = u) (fun no => by cases no) (fun _ => rfl) ?_
  rintro _ rfl
  exact rouse1_safe _ kernel held awake old

/-- A process whose lock is not held is neither parked nor new. -/
theorem View.Ready.awake (ready : v.Ready me) (free : .proc p ∉ v.held) :
    me = .proc p → v.parked = none := by
  intro mine
  by_contra parked
  exact free (ready.parked p mine parked)

theorem View.Ready.old (ready : v.Ready me) (free : .proc p ∉ v.held) : v.fresh ≠ some p :=
  fun fresh => free (ready.fresh p fresh)

theorem wakeup_back (ch : Chan) (ready : v.Ready me) (free : ∀ p, .proc p ∉ v.held) :
    (rules init me).Safe (wakeup ch) v fun _ w => v.Back w := by
  refine Safe.each (Back.refl v) fun p _ u back => ?_
  have here := back.ready ready
  have open_ : .proc p ∉ u.held := back.held ▸ free p
  refine (section_safe here open_ ?_).mono fun _ _ after => back.trans after
  refine (rouse_safe (v := u.locked (.proc p)) ch here.kernel List.mem_cons_self (here.awake open_)
    (here.old open_)).mono ?_
  exact fun _ _ noted => noted.learnt here open_

theorem kill_back (victim : Option Nat) (b : Bool) (spared : victim = some init → b = false)
    (ps : List Nat) (ready : v.Ready me) (free : ∀ p, .proc p ∉ v.held) :
    (rules init me).Safe (kill victim b ps) v fun _ w => v.Back w := by
  induction ps generalizing v with
  | nil => exact Back.refl v
  | cons p ps ih =>
    refine Safe.bind_of (acquire_safe ready.kernel ready.whole (free p)) ?_
    rintro _ _ rfl
    refine Safe.ite (fun found => ?_) fun _ => ?_
    · refine free_bind ready.kernel (fun signal => ?_) (fun _ => rfl) (fun _ _ => ?_)
      · rintro rfl
        rw [spared found] at signal
        cases signal
      refine state_bind ready.kernel List.mem_cons_self (fun st _ own => ?_)
      refine Safe.join (fun u => Noted p (v.locked (.proc p)) u) (fun asleep => ?_) (fun _ => ?_) ?_
      · exact rouse_asleep (v := v.locked (.proc p)) ready.kernel List.mem_cons_self
          (ready.awake (free p)) (ready.old (free p)) own asleep
      · exact Noted.update p _ (some st)
      · exact fun u noted => release_back ready (free p) (noted.learnt ready (free p))
    · refine Safe.bind_of (release_back ready (free p) (ready.learnt (free p))) fun _ u back => ?_
      refine (ih (back.ready ready) fun q => back.held ▸ free q).mono ?_
      exact fun _ _ after => back.trans after

/-! ### Places in the table -/

theorem Idle.nothing (idle : Idle me v) : v.fresh = none ∧ v.adopted = none ∧ v.parked = none := by
  obtain ⟨b, rfl | ⟨i, r, rfl⟩⟩ := idle
  · exact ⟨rfl, rfl, rfl⟩
  · exact ⟨rfl, rfl, rfl⟩

theorem Idle.strangers (idle : Idle me v) (b : Nat → Prop) : Idle me { v with strangers := b } := by
  obtain ⟨c, rfl | ⟨i, r, rfl⟩⟩ := idle
  · exact ⟨b, .inl rfl⟩
  · exact ⟨b, .inr ⟨i, r, rfl⟩⟩

/-- Inside a section, what gives back all that it takes leaves everything as it was. -/
theorem back_bind {β : Type} {x : K β} {f : β → K α} {Q : α → View → Prop}
    (first : (rules init me).Safe x v fun _ w => v.Back w) (nested : v.noff ≠ 0)
    (rest : ∀ r, (rules init me).Safe (f r) v Q) : (rules init me).Safe (x >>= f) v Q := by
  refine Safe.bind_of first fun r w back => ?_
  rw [back.eq (.inr nested)]
  exact rest r

theorem freeproc_safe (ready : v.Ready me) (nested : v.noff ≠ 0) (held : .proc p ∈ v.held)
    (free : Free names v) (small : p < NPROC) (other : me ≠ .proc p)
    (gone : v.knows p = some .unused ∨ v.knows p = some .zombie) :
    (rules init me).Safe (freeproc names true p) v fun _ w => ∃ b, w = { v with
      knows := Function.update v.knows p (some .unused)
      fresh := v.fresh.filter (· ≠ p)
      adopted := none
      strangers := b } := by
  refine back_bind (kfree_back ready free) nested fun _ => ?_
  refine back_bind (kfree_back ready free) nested fun _ => ?_
  refine back_bind (pages_back ready free) nested fun _ => ?_
  refine back_bind (guarded_back ready free.1) nested fun _ => ?_
  refine Safe.perform_bind ⟨ready.kernel, held, small, .inr (.inr ⟨gone, rfl⟩)⟩ fun _ _ => ?_
  refine Safe.perform_bind ⟨ready.kernel, held⟩ fun _ _ => ?_
  refine Safe.perform_bind ⟨ready.kernel, fun signal => by cases signal⟩ fun _ _ => ?_
  refine Safe.perform ⟨ready.kernel, held, .inr ⟨other, .inr (.inr (.inl ⟨gone, rfl⟩))⟩⟩ fun _ _ => ?_
  have running : ProcState.unused ≠ .running := by decide
  refine ⟨fun x => if x = p then none ≠ me.process else v.strangers x, ?_⟩
  change ({ v with
    knows := Function.update v.knows p (some .unused)
    parked := if me = .proc p then some .unused else v.parked
    claims := if ProcState.unused = .running then some p else v.claims
    fresh := v.fresh.filter (· ≠ p)
    adopted := none
    strangers := fun x => if x = p then none ≠ me.process else v.strangers x } : View) = _
  rw [if_neg other, if_neg running]

/-- What `allocproc` returns with: the lock of an unused place. -/
def Allocated (me : Context) : Option Nat → View → Prop
  | none, w => Idle me w
  | some np, w => np < NPROC ∧ me ≠ .proc np ∧ ∃ u, Idle me u ∧ w = { u.locked (.proc np) with
      knows := Function.update u.knows np (some .unused)
      fresh := some np }

/-- Gives a place back of which nothing is known to be new. -/
theorem release_idle {u : View} {k : Nat → Option ProcState} {f a : Option Nat} {b : Nat → Prop}
    (idle : Idle me u) (same : ∀ q, q ≠ p → k q = u.knows q) (fresh : f.filter (· ≠ p) = none)
    (adopted : a.filter (· ≠ p) = none) :
    (rules init me).Safe (release (.proc p))
      { u.locked (.proc p) with knows := k, fresh := f, adopted := a, strangers := b }
      fun _ w => Idle me w := by
  have there := idle.strangers b
  have apart : ∀ q, Lock.proc p ≠ .proc q ↔ q ≠ p := fun q => not_congr ⟨fun eq => (Lock.proc.inj eq).symm, fun eq => by rw [eq]⟩
  have learnt : Learnt (.proc p) (View.locked { u with strangers := b } (.proc p))
      { u.locked (.proc p) with knows := k, fresh := f, adopted := a, strangers := b } := by
    refine ⟨k, f, a, rfl, fun q other => same q ((apart q).mp other), ?_, ?_⟩
    · simp only [apart]
      exact fresh.trans idle.nothing.1.symm
    · simp only [apart]
      exact adopted.trans idle.nothing.2.1.symm
  exact (release_back there.ready (there.free _) learnt).mono fun _ _ after => there.back after

/-- The answers with which a fork keeps to the rules. -/
def Answers.ample : Answers := ⟨true, true, true⟩

theorem allocproc_safe (ps : List Nat) (small : ∀ q ∈ ps, q < NPROC) (idle : Idle me v) :
    (rules init me).Safe (allocproc names .ample ps) v (Allocated me) := by
  induction ps generalizing v with
  | nil => exact idle
  | cons np ps ih =>
    refine Safe.bind_of (acquire_safe idle.ready.kernel idle.ready.whole (idle.free _)) ?_
    rintro _ _ rfl
    refine state_bind idle.ready.kernel List.mem_cons_self (fun st _ own => ?_)
    have locked := idle.ready.locked (.proc np)
    have ready := locked.learn List.mem_cons_self st
    have nested : v.noff + 1 ≠ 0 := Nat.succ_ne_zero _
    have others : ∀ n, Lock.other n ∉ Lock.proc np :: v.held := by
      rw [idle.held]
      intro n
      simp only [List.mem_singleton, reduceCtorEq, not_false_eq_true]
    have free : Free names (v.locked (.proc np)) := ⟨others _, others _⟩
    have give : ∀ st', (rules init me).Safe (release (.proc np))
        { v.locked (.proc np) with knows := Function.update v.knows np (some st') }
        fun _ w => Idle me w := by
      intro st'
      have old : v.fresh.filter (· ≠ np) = none := by rw [idle.nothing.1]; rfl
      have childless : v.adopted.filter (· ≠ np) = none := by rw [idle.nothing.2.1]; rfl
      exact release_idle (b := v.strangers) idle (fun q apart => Function.update_of_ne apart _ _) old childless
    refine Safe.ite (fun unused => ?_) fun _ => ?_
    · subst unused
      have other : me ≠ .proc np := by
        intro mine
        have running := own mine
        change _ = v.parked.getD .running at running
        rw [idle.nothing.2.2] at running
        cases running
      refine back_bind (guarded_back ready (others _)) nested fun _ => ?_
      refine back_bind (guarded_back ready (others _)) nested fun _ => ?_
      refine choose_bind ready fun page => ?_
      refine back_bind ((kalloc_back page ready free).mono fun _ _ after => after.2) nested fun _ => ?_
      refine Safe.ite (fun _ => ?_) fun _ => ?_
      · refine back_bind (pages_back ready free) nested fun _ => ?_
        refine Safe.bind_of (kalloc_back true ready free) ?_
        rintro _ w ⟨rfl, back⟩
        rw [back.eq (.inr nested)]
        refine Safe.perform_bind ⟨ready.kernel, List.mem_cons_self, Function.update_self ..⟩ fun _ _ => ?_
        exact ⟨small np List.mem_cons_self, other, v, idle, rfl⟩
      · exact Safe.bind_of (give _) fun _ _ after => after
    · refine Safe.bind_of (give st) fun _ u after => ?_
      exact ih (fun q member => small q (List.mem_cons_of_mem np member)) after

/-- A fork keeps to the rules as long as memory lasts and every area is copied. -/
theorem fork_safe (mine : me = .proc p) (idle : Idle me v) :
    (rules init me).Safe (fork names .ample) v fun _ w => Idle me w := by
  have proc : v.proc = some p := by rw [idle.proc, mine]; rfl
  refine thisproc_bind idle.ready proc fun w back => ?_
  refine Safe.bind_of (allocproc_safe _ (fun q => List.mem_range.mp) (idle.back back)) ?_
  intro r y allocated
  cases r with
  | none => exact allocated
  | some np =>
    obtain ⟨small, other, u, idle, rfl⟩ := allocated
    have held : Lock.proc np ∈ (u.locked (.proc np)).held := List.mem_cons_self
    have nested : u.noff + 1 ≠ 0 := Nat.succ_ne_zero _
    have others : ∀ n, Lock.other n ∉ Lock.proc np :: u.held := by
      rw [idle.held]
      intro n
      simp only [List.mem_singleton, reduceCtorEq, not_false_eq_true]
    have free : Free names (u.locked (.proc np)) := ⟨others _, others _⟩
    have known : ∀ st q, q ≠ np → Function.update u.knows np (some st) q = u.knows q :=
      fun _ q apart => Function.update_of_ne apart _ _
    have learnt := (idle.ready.locked (.proc np)).learn held .unused
    have ready := learnt.nested (f := some np) (a := u.adopted) (b := u.strangers) rfl learnt.known
      (fun q eq => Option.some.inj eq ▸ held) learnt.adopted
    refine back_bind (pages_back ready free) nested fun copied => ?_
    refine Safe.ite (fun _ => ?_) fun _ => ?_
    · refine back_bind (pages_back ready free) nested fun _ => ?_
      have parked : u.parked = none := idle.nothing.2.2
      have apart : p ≠ np := fun eq => other (eq ▸ mine)
      refine Safe.perform_bind ⟨ready.kernel, held, small, .inl ⟨p, mine, apart, rfl, rfl, parked⟩⟩
        fun _ _ => ?_
      have adopted := ready.nested (f := some np) (a := some np)
        (b := fun x => if x = np then some p ≠ me.process else u.strangers x) rfl ready.known ready.fresh
        (fun q eq => Option.some.inj eq ▸ held)
      refine back_bind (some_rounds_back adopted fun w back => ?_) nested fun _ => ?_
      · exact guarded_back (back.ready adopted) (back.held ▸ others _)
      refine back_bind (guarded_back adopted (others _)) nested fun _ => ?_
      have unused : Function.update u.knows np (some ProcState.unused) np = some .unused := Function.update_self ..
      refine Safe.perform_bind ⟨ready.kernel, held, .inr ⟨other, .inr (.inl ⟨unused, rfl, rfl, rfl⟩)⟩⟩
        fun _ _ => ?_
      have running : ProcState.runnable ≠ .running := by decide
      change (rules init me).Safe (release (.proc np)) { u.locked (.proc np) with
        knows := Function.update (Function.update u.knows np (some .unused)) np (some .runnable)
        parked := if me = .proc np then some .runnable else u.parked
        claims := if ProcState.runnable = .running then some np else u.claims
        fresh := (some np).filter (· ≠ np)
        adopted := some np
        strangers := fun x => if x = np then some p ≠ me.process else u.strangers x } _
      rw [if_neg other, if_neg running]
      refine release_idle idle (fun q apart => ?_) ?_ ?_
      · exact (Function.update_of_ne apart _ _).trans (known _ q apart)
      · simp only [ne_eq, not_true_eq_false, decide_false, Option.filter_some, Bool.false_eq_true,
          if_false, Option.filter_none]
      · simp only [ne_eq, not_true_eq_false, decide_false, Option.filter_some, Bool.false_eq_true, if_false]
    · refine Safe.bind_of (freeproc_safe ready nested held free small other
        (.inl (Function.update_self ..))) ?_
      rintro _ _ ⟨b, rfl⟩
      refine release_idle idle (fun q apart => ?_) ?_ rfl
      · exact (Function.update_of_ne apart _ _).trans (known _ q apart)
      · simp only [ne_eq, not_true_eq_false, decide_false, Option.filter_some, Bool.false_eq_true,
          if_false, Option.filter_none]

/-- All children of the process are given to the first one; the lock of none of them is
held already. -/
theorem reparent_safe (ps : List Nat) (small : ∀ q ∈ ps, q < NPROC) (mine : me = .proc p)
    (root : init = names.initproc) (notInit : p ≠ init) (ready : v.Ready me) (nested : v.noff ≠ 0)
    (childless : v.adopted = none) (apart : ∀ q, .proc q ∈ v.held → q = p ∨ v.strangers q) :
    (rules init me).Safe (each (fun pp => do
        if (← parent pp) = some p then
          acquire (.proc pp)
          set_parent pp (some names.initproc)
          release (.proc pp)) ps) v
      fun _ w => ∃ b, w = { v with strangers := b } ∧ (∀ q, v.strangers q → b q) ∧ ∀ q ∈ ps, b q := by
  induction ps generalizing v with
  | nil => exact ⟨v.strangers, rfl, fun _ => id, fun _ member => absurd member List.not_mem_nil⟩
  | cons pp ps ih =>
    have smaller : ∀ q ∈ ps, q < NPROC := fun q member => small q (List.mem_cons_of_mem pp member)
    refine Safe.bind_of (P := fun _ w => ∃ b, w = { v with strangers := b } ∧
      (∀ q, v.strangers q → b q) ∧ b pp) ?_ ?_
    · refine Safe.perform_bind ⟨ready.kernel, trivial⟩ ?_
      rintro (r : Option Nat) ⟨proper, own⟩
      obtain ⟨stranger, -⟩ := own p mine notInit
      have read := ready.strangers fun q =>
        v.strangers q ∨ q = pp ∧ r ≠ me.process ∨ me = .proc pp ∧ r = some q
      refine Safe.ite (fun child => ?_) fun other => ?_
      · obtain ⟨different, inner⟩ := proper p child
        have free : Lock.proc pp ∉ v.held := by
          intro held
          rcases apart pp held with same | known
          · exact different same.symm
          · exact stranger known child
        refine Safe.bind_of (acquire_safe read.kernel read.whole free) ?_
        rintro _ _ rfl
        have toInit : (some names.initproc : Option Nat) = some init := congrArg some root.symm
        refine Safe.perform_bind ⟨read.kernel, List.mem_cons_self, small pp List.mem_cons_self,
          .inr (.inl ⟨inner, toInit⟩)⟩ fun _ _ => ?_
        let b : Nat → Prop := fun x => if x = pp then some names.initproc ≠ me.process else
          v.strangers x ∨ x = pp ∧ r ≠ me.process ∨ me = .proc pp ∧ r = some x
        have base := ready.strangers b
        have learnt : Learnt (.proc pp) (View.locked { v with strangers := b } (.proc pp))
            { View.locked { v with strangers := b } (.proc pp) with adopted := some pp } := by
          refine ⟨v.knows, v.fresh, some pp, rfl, fun _ _ => rfl, filter_unheld ready.fresh free, ?_⟩
          simp only [ne_eq, not_true_eq_false, decide_false, Option.filter_some, Bool.false_eq_true, if_false]
          exact childless.symm
        refine (release_back base free learnt).mono fun _ w back => ?_
        refine ⟨b, back.eq (.inr nested), fun q known => ?_, ?_⟩
        · by_cases same : q = pp
          · subst same
            exact absurd child (stranger known)
          · change (if q = pp then _ else _)
            rw [if_neg same]
            exact .inl known
        · change (if pp = pp then _ else _)
          rw [if_pos rfl, mine, ← root]
          exact fun eq => notInit (Option.some.inj eq).symm
      · refine ⟨_, rfl, fun q known => .inl known, .inr (.inl ⟨rfl, ?_⟩)⟩
        rw [mine]
        exact other
    · rintro _ _ ⟨b, rfl, kept, here⟩
      refine (ih smaller (ready.strangers b) nested childless fun q held => ?_).mono ?_
      · exact (apart q held).imp_right (kept q)
      · rintro _ _ ⟨c, rfl, more, all⟩
        refine ⟨c, rfl, fun q known => more q (kept q known), fun q member => ?_⟩
        rcases List.mem_cons.mp member with rfl | later
        · exact more q here
        · exact all q later

end AvxKernel.Sched
