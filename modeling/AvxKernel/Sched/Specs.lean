import AvxKernel.Sched.Rules

/-! What each function comes to under the rules. -/
namespace AvxKernel.Sched

open Code (perform repeatFrom each)
open Rules (Safe)
open Proc (ProcState Chan)
open View

variable {init : Nat} {me : Context} {b : Nat → Prop} {v w : View} {lk : Lock} {p q : Nat} {α : Type}

theorem Safe.loopWhile {body : K Bool} {Q : Unit → View → Prop} (I : View → Prop) (start : I v)
    (round : ∀ v, I v → (rules init me).Safe body v fun r w => if r = true then I w else Q () w) :
    (rules init me).Safe (loopWhile body) v Q := by
  refine Safe.repeatFrom (fun _ => I) start fun _ v here => ?_
  refine Safe.bind_of (round v here) fun r w after => ?_
  cases r with
  | true => exact after
  | false => exact after

theorem Safe.again {I J : View → Prop} (here : I v) :
    (rules init me).Safe (pure true) v fun r w => if r = true then I w else J w :=
  (if_pos rfl : (if true = true then I v else J v) = _).mpr here

theorem Safe.out {I J : View → Prop} (here : J v) :
    (rules init me).Safe (pure false) v fun r w => if r = true then I w else J w :=
  (if_neg Bool.false_ne_true : (if false = true then I v else J v) = _).mpr here

namespace View

/-- After `push_off`. -/
def pushed (v : View) : View :=
  { v with ie := false, noff := v.noff + 1, intena := if v.noff = 0 then some v.ie else v.intena }

/-- After `pop_off`, which may have turned interrupts on. -/
def popped (v : View) (on : Bool) : View :=
  if on then { v with noff := v.noff - 1 }.enabled else { v with noff := v.noff - 1 }

/-- With one more lock. -/
def locked (v : View) (lk : Lock) : View := { v.pushed with held := lk :: v.held, half := none }

/-- With the lock given back, and nothing more known of its process. -/
def freed (v : View) (lk : Lock) : View :=
  { v with
    held := v.held.erase lk
    half := none
    knows := v.forget lk
    fresh := v.fresh.filter fun q => lk ≠ .proc q
    adopted := v.adopted.filter fun q => lk ≠ .proc q }

end View

/-! ### The operations -/

section

variable {Q : α → View → Prop}

theorem intr_get_bind {f : Bool → K α} (kernel : v.user = false)
    (rest : (rules init me).Safe (f v.ie) v Q) :
    (rules init me).Safe (intr_get >>= f) v Q := by
  refine Safe.perform_bind ⟨kernel, trivial⟩ ?_
  rintro _ rfl
  exact rest

theorem intr_off_bind {f : Unit → K α} (kernel : v.user = false)
    (rest : (rules init me).Safe (f ()) { v with ie := false } Q) :
    (rules init me).Safe (intr_off >>= f) v Q :=
  Safe.perform_bind ⟨kernel, trivial⟩ fun _ _ => rest

theorem intr_on_safe (kernel : v.user = false) (quiet : v.enabled = calm me v.strangers) :
    (rules init me).Safe intr_on v fun _ w => w = calm me v.strangers :=
  Safe.perform ⟨kernel, quiet⟩ fun _ _ => quiet

theorem noff_bind {f : Nat → K α} (kernel : v.user = false)
    (rest : (rules init me).Safe (f v.noff) v Q) :
    (rules init me).Safe (noff >>= f) v Q := by
  refine Safe.perform_bind ⟨kernel, trivial⟩ ?_
  rintro _ rfl
  exact rest

theorem set_noff_safe (kernel : v.user = false) (n : Nat) (off : v.ie = false) :
    (rules init me).Safe (set_noff n) v fun _ w => w = { v with noff := n } :=
  Safe.perform ⟨kernel, off⟩ fun _ _ => rfl

theorem intena_bind {f : Bool → K α} (kernel : v.user = false)
    (rest : ∀ b, (∀ i, v.intena = some i → b = i) → (rules init me).Safe (f b) v Q) :
    (rules init me).Safe (intena >>= f) v Q :=
  Safe.perform_bind ⟨kernel, trivial⟩ rest

theorem set_intena_safe (kernel : v.user = false) (b : Bool) (off : v.ie = false) :
    (rules init me).Safe (set_intena b) v fun _ w => w = { v with intena := some b } :=
  Safe.perform ⟨kernel, off⟩ fun _ _ => rfl

theorem cpu_proc_bind {f : Option Nat → K α} (kernel : v.user = false)
    (rest : (rules init me).Safe (f v.proc) v Q) :
    (rules init me).Safe (cpu_proc >>= f) v Q := by
  refine Safe.perform_bind ⟨kernel, trivial⟩ ?_
  rintro _ rfl
  exact rest

theorem state_bind {f : ProcState → K α} (kernel : v.user = false) (held : .proc p ∈ v.held)
    (rest : ∀ st, (∀ st', v.knows p = some st' → st = st') → (me = .proc p → st = v.parked.getD .running) →
      (rules init me).Safe (f st) { v with knows := Function.update v.knows p (some st) } Q) :
    (rules init me).Safe (state p >>= f) v Q := by
  refine Safe.perform_bind ⟨kernel, trivial⟩ ?_
  rintro st ⟨same, own⟩
  have read : Next me v (.state p) st = { v with knows := Function.update v.knows p (some st) } := if_pos held
  change (rules init me).Safe (f st) (Next me v (.state p) st) Q
  rw [read]
  exact rest st same own

/-- A process looks at its own state. -/
theorem own_state_bind {f : ProcState → K α} (kernel : v.user = false) (free : .proc p ∉ v.held)
    (rest : (rules init (.proc p)).Safe (f (v.parked.getD .running)) v Q) :
    (rules init (.proc p)).Safe (state p >>= f) v Q := by
  refine Safe.perform_bind ⟨kernel, trivial⟩ ?_
  rintro st ⟨-, own⟩
  have read : Next (.proc p) v (.state p) st = v := if_neg free
  change (rules init (.proc p)).Safe (f st) (Next (.proc p) v (.state p) st) Q
  rw [read, own rfl]
  exact rest

/-- An operation that is always allowed and after which no more is known. -/
theorem free_bind {o : Op} {f : o.Res → K α} (kernel : v.user = false) (may : Allowed init me v o)
    (same : ∀ r, Next me v o r = v)
    (rest : ∀ r, Possible init me v o r → (rules init me).Safe (f r) v Q) :
    (rules init me).Safe (perform o >>= f) v Q := by
  refine Safe.perform_bind ⟨kernel, may⟩ fun r possible => ?_
  change (rules init me).Safe (f r) (Next me v o r) Q
  rw [same r]
  exact rest r possible

end

/-! ### `intr.c` -/

theorem push_off_safe (kernel : v.user = false) :
    (rules init me).Safe push_off v fun _ w => w = v.pushed := by
  refine intr_get_bind kernel ?_
  refine intr_off_bind kernel ?_
  refine noff_bind kernel ?_
  refine Safe.join (fun u => u = { v with ie := false, intena := if v.noff = 0 then some v.ie else v.intena })
    (fun first => ?_) (fun nested => ?_) ?_
  · refine (set_intena_safe (v := { v with ie := false }) kernel _ rfl).mono ?_
    rintro _ _ rfl
    rw [if_pos first]
  · rw [if_neg nested]
  · rintro _ rfl
    refine noff_bind kernel ?_
    exact set_noff_safe (v := { v with ie := false, intena := _ }) kernel _ rfl

/-- The last `pop_off` turns interrupts on again, if they were on. -/
theorem pop_off_safe (kernel : v.user = false) (off : v.ie = false) (count : 1 ≤ v.noff)
    (quiet : v.noff = 1 → v.intena ≠ some false → { v with noff := 0 }.enabled = calm me v.strangers) :
    (rules init me).Safe pop_off v fun _ w => ∃ on, w = v.popped on ∧
      (v.noff = 1 → ∀ i, v.intena = some i → on = i) ∧ (v.noff ≠ 1 → on = false) := by
  refine intr_get_bind kernel ?_
  refine Safe.join (fun u => v = u) (fun on => ?_) (fun _ => rfl) ?_
  · rw [off] at on
    cases on
  rintro _ rfl
  refine noff_bind kernel ?_
  refine Safe.join (fun u => v = u) (fun none => absurd count (Nat.not_le_of_lt none)) (fun _ => rfl) ?_
  rintro _ rfl
  refine noff_bind kernel ?_
  refine Safe.bind_of (set_noff_safe kernel _ off) ?_
  rintro _ _ rfl
  refine noff_bind kernel ?_
  refine Safe.ite (fun last => ?_) fun nested => ?_
  · refine intena_bind kernel ?_
    intro b known
    have one : v.noff = 1 := by
      have := count
      dsimp only at last
      omega
    refine Safe.ite (fun on => ?_) fun stays => ?_
    · subst on
      have notOff : v.intena ≠ some false := fun eq => absurd (known false eq) (by decide)
      have calm_now : { v with noff := v.noff - 1 }.enabled = calm me v.strangers := by
        rw [one]
        exact quiet one notOff
      refine (intr_on_safe (v := { v with noff := v.noff - 1 }) kernel calm_now).mono ?_
      rintro _ _ rfl
      exact ⟨true, calm_now.symm, fun _ => known, fun nested => absurd one nested⟩
    · rw [Bool.not_eq_true] at stays
      subst stays
      exact ⟨false, rfl, fun _ => known, fun _ => rfl⟩
  · exact ⟨false, rfl, fun one => absurd (by rw [one]) nested, fun _ => rfl⟩

/-! ### `spinlock.c` -/

theorem holding_bind {f : Bool → K α} {Q : α → View → Prop} (kernel : v.user = false)
    (rest : (rules init me).Safe (f (decide (lk ∈ v.held))) v Q) :
    (rules init me).Safe (holding lk >>= f) v Q := by
  refine Safe.bind ?_
  refine free_bind kernel trivial (fun _ => rfl) ?_
  intro (r : Bool) (known : lk ∈ v.held → r = true)
  refine Safe.ite (fun taken => ?_) fun open_ => ?_
  · refine Safe.perform ⟨kernel, trivial⟩ ?_
    intro (r : Bool) (same : r = true ↔ lk ∈ v.held)
    rwa [Bool.eq_iff_iff.mpr (same.trans decide_eq_true_iff.symm)]
  · have absent : lk ∉ v.held := fun held => open_ (known held)
    rw [decide_eq_false absent] at rest
    exact rest

theorem acquire_safe (kernel : v.user = false) (whole : v.half = none) (free : lk ∉ v.held) :
    (rules init me).Safe (acquire lk) v fun _ w => w = v.locked lk := by
  refine Safe.bind_of (push_off_safe kernel) ?_
  rintro _ _ rfl
  refine holding_bind kernel ?_
  refine Safe.join (fun u => u = v.pushed) (fun held => ?_) (fun _ => rfl) ?_
  · exact absurd (of_decide_eq_true held) free
  rintro _ rfl
  refine Safe.bind_of (P := fun _ u => u = { v.pushed with half := some lk }) ?_ ?_
  · refine Safe.loopWhile (fun u => u = v.pushed) rfl ?_
    rintro _ rfl
    refine Safe.perform ⟨kernel, rfl, whole, free⟩ ?_
    rintro (r : Bool) -
    cases r with
    | true =>
      rw [if_pos rfl]
      exact congrArg (fun half => ({ v.pushed with half } : View)) whole.symm
    | false =>
      rw [if_neg Bool.false_ne_true]
      rfl
  · rintro _ _ rfl
    exact Safe.perform ⟨kernel, rfl⟩ fun _ _ => rfl

theorem release_safe (kernel : v.user = false) (held : lk ∈ v.held) (whole : v.half = none)
    (may : v.MayRelease me lk) (off : v.ie = false) (count : 1 ≤ v.noff)
    (quiet : v.noff = 1 → v.intena ≠ some false → { v.freed lk with noff := 0 }.enabled = calm me v.strangers) :
    (rules init me).Safe (release lk) v fun _ w => ∃ on, w = (v.freed lk).popped on ∧
      (v.noff = 1 → ∀ i, v.intena = some i → on = i) ∧ (v.noff ≠ 1 → on = false) := by
  refine holding_bind kernel ?_
  rw [decide_eq_true held]
  refine Safe.join (fun u => v = u) (fun no => by cases no) (fun _ => rfl) ?_
  rintro _ rfl
  refine Safe.perform_bind ⟨kernel, held, whole, may⟩ fun _ _ => ?_
  refine Safe.perform_bind ⟨kernel, rfl⟩ fun _ _ => ?_
  exact pop_off_safe (v := v.freed lk) kernel off count quiet

/-! ### Sections -/

namespace View

/-- What is held, known, claimed or set up goes with locks, and interrupts are on only
where there is none of it. -/
structure Ready (me : Context) (v : View) : Prop where
  kernel : v.user = false
  calm : v.ie = true → v = calm me v.strangers
  whole : v.half = none
  known : ∀ q st, v.knows q = some st → .proc q ∈ v.held
  fresh : ∀ q, v.fresh = some q → .proc q ∈ v.held
  adopted : ∀ q, v.adopted = some q → .proc q ∈ v.held
  claimed : ∀ q, v.claims = some q → .proc q ∈ v.held
  parked : ∀ p, me = .proc p → v.parked ≠ none → .proc p ∈ v.held
  current : me.process = none → ∀ p, v.proc = some p → .proc p ∈ v.held

/-- The same, but for `intena` where no lock is held. -/
def Back (v w : View) : Prop :=
  ∃ i, w = { v with intena := i } ∧ (v.ie = true ∨ v.noff ≠ 0 → i = v.intena)

theorem Back.refl (v : View) : v.Back v := ⟨v.intena, rfl, fun _ => rfl⟩

theorem Back.trans {u : View} (h : v.Back w) (h' : w.Back u) : v.Back u := by
  obtain ⟨i, rfl, same⟩ := h
  obtain ⟨j, rfl, same'⟩ := h'
  exact ⟨j, rfl, fun kept => (same' kept).trans (same kept)⟩

theorem Back.eq (h : v.Back w) (kept : v.ie = true ∨ v.noff ≠ 0) : w = v := by
  obtain ⟨i, rfl, same⟩ := h
  rw [same kept]

theorem Back.held (h : v.Back w) : w.held = v.held := by
  obtain ⟨i, rfl, -⟩ := h
  rfl

theorem Back.ready (h : v.Back w) (ready : v.Ready me) : w.Ready me := by
  obtain ⟨i, rfl, same⟩ := h
  refine { ready with calm := fun on => ?_ }
  rw [same (.inl on)]
  exact ready.calm on

theorem Ready.locked (ready : v.Ready me) (lk : Lock) : (v.locked lk).Ready me where
  kernel := ready.kernel
  calm on := by cases on
  whole := rfl
  known q st h := List.mem_cons_of_mem _ (ready.known q st h)
  fresh q h := List.mem_cons_of_mem _ (ready.fresh q h)
  adopted q h := List.mem_cons_of_mem _ (ready.adopted q h)
  claimed q h := List.mem_cons_of_mem _ (ready.claimed q h)
  parked p h h' := List.mem_cons_of_mem _ (ready.parked p h h')
  current h p h' := List.mem_cons_of_mem _ (ready.current h p h')

/-- The same, but for what is known of the process whose lock this is. -/
def Learnt (lk : Lock) (v w : View) : Prop :=
  ∃ k f a, w = { v with knows := k, fresh := f, adopted := a } ∧
    (∀ q, lk ≠ .proc q → k q = v.knows q) ∧
    f.filter (fun q => lk ≠ .proc q) = v.fresh ∧ a.filter (fun q => lk ≠ .proc q) = v.adopted

end View

/-- What is known goes with other locks. -/
theorem filter_unheld {known : Option Nat} (held : ∀ q, known = some q → .proc q ∈ v.held)
    (free : lk ∉ v.held) : known.filter (fun q => lk ≠ .proc q) = known := by
  cases own : known with
  | none => rfl
  | some q =>
    have other : lk ≠ .proc q := fun eq => free (eq ▸ held q own)
    exact Option.filter_some_pos (decide_eq_true other)

theorem View.Ready.learnt (ready : v.Ready me) (free : lk ∉ v.held) :
    Learnt lk (v.locked lk) (v.locked lk) :=
  ⟨v.knows, v.fresh, v.adopted, rfl, fun _ _ => rfl, filter_unheld ready.fresh free,
    filter_unheld ready.adopted free⟩

theorem freed_locked (ready : v.Ready me) (free : lk ∉ v.held) (learnt : Learnt lk (v.locked lk) w) :
    w.freed lk = v.pushed := by
  obtain ⟨k, f, a, rfl, same, fresh, adopted⟩ := learnt
  have knows : ({ v.locked lk with knows := k } : View).forget lk = v.knows := by
    funext q
    by_cases own : lk = .proc q
    · rw [forget, if_pos own]
      cases known : v.knows q with
      | none => rfl
      | some st => exact absurd (own ▸ ready.known q st known) free
    · exact (if_neg own).trans (same q own)
  have held : (lk :: v.held).erase lk = v.held := List.erase_cons_head ..
  change ({ v.pushed with
    held := (lk :: v.held).erase lk
    half := none
    knows := ({ v.locked lk with knows := k } : View).forget lk
    fresh := f.filter fun q => lk ≠ .proc q
    adopted := a.filter fun q => lk ≠ .proc q } : View) = v.pushed
  rw [knows, held, fresh, adopted, ← ready.whole]
  rfl

theorem View.Ready.off (ready : v.Ready me) (nested : v.noff ≠ 0) : v.ie = false := by
  by_contra on
  rw [Bool.not_eq_false] at on
  exact nested (congrArg (fun u : View => u.noff) (ready.calm on))

/-- A `pop_off` for each `push_off`. -/
theorem popped_pushed {on : Bool} (ready : v.Ready me) (last : v.noff = 0 → on = v.ie)
    (nested : v.noff ≠ 0 → on = false) : v.Back (v.pushed.popped on) := by
  by_cases count : v.noff = 0
  · rw [last count]
    cases ie : v.ie with
    | true =>
      rw [ready.calm ie]
      exact Back.refl _
    | false =>
      refine ⟨some false, ?_, fun kept => ?_⟩
      · unfold popped pushed
        rw [if_neg Bool.false_ne_true, if_pos count, ie]
        rfl
      · rcases kept with on | more
        · rw [ie] at on
          cases on
        · exact absurd count more
  · rw [nested count]
    refine ⟨v.intena, ?_, fun _ => rfl⟩
    unfold popped pushed
    rw [if_neg Bool.false_ne_true, if_neg count]
    change ({ v with ie := false, noff := v.noff } : View) = v
    rw [← ready.off count]

/-- The last `pop_off` turns interrupts on only where there was nothing to guard. -/
theorem quiet_pushed (ready : v.Ready me) (last : v.pushed.noff = 1)
    (on : v.pushed.intena ≠ some false) : { v.pushed with noff := 0 }.enabled = calm me v.strangers := by
  have none : v.noff = 0 := Nat.succ_injective last
  have was : v.ie = true := by
    by_contra off
    rw [Bool.not_eq_true] at off
    exact on ((if_pos none).trans (congrArg some off))
  rw [ready.calm was]
  rfl

theorem pop_back (ready : v.Ready me) :
    (rules init me).Safe pop_off v.pushed fun _ u => v.Back u := by
  refine (pop_off_safe (v := v.pushed) ready.kernel rfl (Nat.le_add_left 1 v.noff) (quiet_pushed ready)).mono ?_
  rintro _ _ ⟨on, rfl, last, nested⟩
  refine popped_pushed ready (fun none => ?_) fun more => ?_
  · exact last (congrArg (· + 1) none) v.ie (if_pos none)
  · exact nested fun one => more (Nat.succ_injective one)

theorem release_back (ready : v.Ready me) (free : lk ∉ v.held) (learnt : Learnt lk (v.locked lk) w) :
    (rules init me).Safe (release lk) w fun _ u => v.Back u := by
  have forgotten := freed_locked ready free learnt
  obtain ⟨k, f, a, rfl, -⟩ := learnt
  have may : ({ v.locked lk with knows := k, fresh := f, adopted := a } : View).MayRelease me lk := by
    rintro q rfl
    refine ⟨fun claimed => free (ready.claimed q claimed), fun own => ?_,
      fun cpu current => free (ready.current cpu q current)⟩
    by_contra parked
    exact free (ready.parked q own parked)
  refine (release_safe (v := { v.locked lk with knows := k, fresh := f, adopted := a }) ready.kernel
    List.mem_cons_self rfl may rfl (Nat.le_add_left 1 v.noff) ?_).mono ?_
  · intro one on
    rw [forgotten]
    exact quiet_pushed ready one on
  · rintro _ _ ⟨on, rfl, last, nested⟩
    rw [forgotten]
    refine popped_pushed ready (fun none => ?_) fun more => ?_
    · exact last (congrArg (· + 1) none) v.ie (if_pos none)
    · exact nested fun one => more (Nat.succ_injective one)

/-- What is done under a lock. -/
theorem section_safe {body : K Unit} (ready : v.Ready me) (free : lk ∉ v.held)
    (inside : (rules init me).Safe body (v.locked lk) fun _ w => Learnt lk (v.locked lk) w) :
    (rules init me).Safe (do acquire lk; body; release lk) v fun _ w => v.Back w := by
  refine Safe.bind_of (acquire_safe ready.kernel ready.whole free) ?_
  rintro _ _ rfl
  exact Safe.bind_of inside fun _ w learnt => release_back ready free learnt

end AvxKernel.Sched
