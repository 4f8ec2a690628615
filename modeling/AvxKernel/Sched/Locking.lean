import AvxKernel.Sched.Registers

/-! Each lock is free or taken by one processor. -/
namespace AvxKernel.Sched

open View

variable {n init : Nat} {me : Context} {v w : View} {view : Nat → View} {s t : Sys} {c c' : Nat}
  {lk : Lock} {forkret : K Unit}

/-- The lock has been taken. -/
def View.Has (v : View) (lk : Lock) : Prop := lk ∈ v.held ∨ v.half = some lk

/-- What a lock and the record of it can be, as far as the processors know. -/
inductive LockIs (n : Nat) (view : Nat → View) (lk : Lock) : Spinlock → List Nat → Prop
  | free (untaken : ∀ c < n, ¬(view c).Has lk) : LockIs n view lk ⟨false, none⟩ []
  | half {c : Nat} (here : c < n) (half : (view c).half = some lk)
      (only : ∀ c' < n, (view c').Has lk → c' = c) : LockIs n view lk ⟨true, none⟩ [c]
  | held {c : Nat} (here : c < n) (held : lk ∈ (view c).held)
      (only : ∀ c' < n, (view c').Has lk → c' = c) : LockIs n view lk ⟨true, some c⟩ [c]

structure Locks (n : Nat) (view : Nat → View) (lock : Lock → Spinlock) (inside : Lock → List Nat) :
    Prop where
  each : ∀ lk, LockIs n view lk (lock lk) (inside lk)
  nodup : ∀ c < n, (view c).held.Nodup
  whole : ∀ c < n, ∀ lk, (view c).half = some lk → lk ∉ (view c).held

namespace Locks

variable (locks : Locks n view s.lock s.inside)

include locks

/-- Two processors never have the same lock. -/
theorem apart (here : c < n) (there : c' < n) (has : (view c).Has lk) (has' : (view c').Has lk) : c = c' := by
  have is := locks.each lk
  generalize s.lock lk = l, s.inside lk = i at is
  cases is with
  | free untaken => exact absurd has (untaken c here)
  | half _ _ only => exact (only c here has).trans (only c' there has').symm
  | held _ _ only => exact (only c here has).trans (only c' there has').symm

theorem of_held (here : c < n) (held : lk ∈ (view c).held) : s.lock lk = ⟨true, some c⟩ ∧ s.inside lk = [c] := by
  have is := locks.each lk
  generalize s.lock lk = l, s.inside lk = i at is
  cases is with
  | free untaken => exact absurd (.inl held) (untaken c here)
  | half there half only =>
    cases only c here (.inl held)
    exact absurd held (locks.whole c here lk half)
  | held _ _ only =>
    cases only c here (.inl held)
    exact ⟨rfl, rfl⟩

theorem of_half (here : c < n) (half : (view c).half = some lk) : s.lock lk = ⟨true, none⟩ ∧ s.inside lk = [c] := by
  have is := locks.each lk
  generalize s.lock lk = l, s.inside lk = i at is
  cases is with
  | free untaken => exact absurd (.inr half) (untaken c here)
  | half _ _ only =>
    cases only c here (.inr half)
    exact ⟨rfl, rfl⟩
  | held there held only =>
    cases only c here (.inr half)
    exact absurd held (locks.whole c here lk half)

theorem held_iff (here : c < n) : lk ∈ (view c).held ↔ (s.lock lk).cpu = some c := by
  refine ⟨fun held => by rw [(locks.of_held here held).1], fun owner => ?_⟩
  have is := locks.each lk
  generalize s.lock lk = l, s.inside lk = i at is owner
  cases is with
  | free _ => cases owner
  | half _ _ _ => cases owner
  | held _ held _ =>
    cases owner
    exact held

end Locks

/-- Only what the processors have of the lock matters. -/
theorem LockIs.congr {view' : Nat → View} {l : Spinlock} {i : List Nat} (is : LockIs n view lk l i)
    (held : ∀ c < n, lk ∈ (view' c).held ↔ lk ∈ (view c).held)
    (half : ∀ c < n, (view' c).half = some lk ↔ (view c).half = some lk) : LockIs n view' lk l i := by
  have has : ∀ c < n, (view' c).Has lk ↔ (view c).Has lk := fun c here => or_congr (held c here) (half c here)
  cases is with
  | free untaken => exact .free fun c here h => untaken c here ((has c here).mp h)
  | half there own only =>
    exact .half there ((half _ there).mpr own) fun c here h => only c here ((has c here).mp h)
  | held there own only =>
    exact .held there ((held _ there).mpr own) fun c here h => only c here ((has c here).mp h)

theorem Locks.congr {view' : Nat → View} (locks : Locks n view s.lock s.inside)
    (held : ∀ c < n, (view' c).held = (view c).held) (half : ∀ c < n, (view' c).half = (view c).half) :
    Locks n view' s.lock s.inside where
  each lk := (locks.each lk).congr (fun c here => by rw [held c here]) fun c here => by rw [half c here]
  nodup c here := by rw [held c here]; exact locks.nodup c here
  whole c here lk h := by
    rw [half c here] at h
    rw [held c here]
    exact locks.whole c here lk h

/-! ### Steps -/

/-- The lock that the operation changes. -/
def Op.lock : Op → Option Lock
  | .test_and_set lk | .set_cpu lk | .clear_cpu lk | .sync_release lk => some lk
  | _ => none

theorem Does.same_locks {o : Op} {r : o.Res} (does : s.Does forkret c o r t) (elsewhere : o.lock = none) :
    t.lock = s.lock ∧ t.inside = s.inside := by
  cases o
  case test_and_set | set_cpu | clear_cpu | sync_release => cases elsewhere
  case intr_off | intr_on | set_prmd | set_eentry | ertn | set_noff | set_intena | set_cpu_proc
      | set_state | set_chan | set_killed | set_parent | set_context | store | choose =>
    rw [show t = _ from does]
    exact ⟨rfl, rfl⟩
  case intr_get | prmd | cpuid | noff | intena | cpu_proc | locked | cpu_is | state | chan | killed | parent | load =>
    rw [show t = s from does.2]
    exact ⟨rfl, rfl⟩
  case swtch_to | swtch_back | panic | fault => exact does.elim

theorem Next.same_locks (me : Context) (v : View) {o : Op} {r : o.Res} (does : s.Does forkret c o r t) (elsewhere : o.lock = none) :
    (Next me v o r).held = v.held ∧ (Next me v o r).half = v.half := by
  cases o
  case test_and_set | set_cpu | clear_cpu | sync_release => cases elsewhere
  case swtch_to | swtch_back | panic | fault => exact does.elim
  case state p =>
    change (if .proc p ∈ v.held then _ else v : View).held = _ ∧ (if .proc p ∈ v.held then _ else v : View).half = _
    split
    · exact ⟨rfl, rfl⟩
    · exact ⟨rfl, rfl⟩
  all_goals exact ⟨rfl, rfl⟩

/-- What one processor does to one lock. -/
theorem Locks.update (lk : Lock) {lock : Lock → Spinlock} {inside : Lock → List Nat}
    (locks : Locks n view s.lock s.inside)
    (others : ∀ x ≠ lk, lock x = s.lock x ∧ inside x = s.inside x ∧
      (x ∈ w.held ↔ x ∈ (view c).held) ∧ (w.half = some x ↔ (view c).half = some x))
    (own : LockIs n (Function.update view c w) lk (lock lk) (inside lk)) (nodup : w.held.Nodup)
    (whole : ∀ x, w.half = some x → x ∉ w.held) : Locks n (Function.update view c w) lock inside where
  each x := by
    by_cases same : x = lk
    · rw [same]
      exact own
    · obtain ⟨eq, eq', held, half⟩ := others x same
      rw [eq, eq']
      refine (locks.each x).congr (fun c' _ => ?_) fun c' _ => ?_
      · by_cases mine : c' = c
        · subst mine
          rw [Function.update_self]
          exact held
        · rw [Function.update_of_ne mine]
      · by_cases mine : c' = c
        · subst mine
          rw [Function.update_self]
          exact half
        · rw [Function.update_of_ne mine]
  nodup c' there := by
    by_cases mine : c' = c
    · subst mine
      rwa [Function.update_self]
    · rw [Function.update_of_ne mine]
      exact locks.nodup c' there
  whole c' there := by
    by_cases mine : c' = c
    · subst mine
      rwa [Function.update_self]
    · rw [Function.update_of_ne mine]
      exact locks.whole c' there

theorem has_update (other : ∀ c' < n, (view c').Has lk → c' = c) :
    ∀ c' < n, (Function.update view c w c').Has lk → c' = c := by
  intro c' there has
  by_contra mine
  rw [Function.update_of_ne mine] at has
  exact mine (other c' there has)

/-- A lock that is found taken stays as it is. -/
theorem Locks.test_taken (locks : Locks n view s.lock s.inside) (read : (s.lock lk).locked = true)
    (whole : (view c).half = none) :
    Locks n (Function.update view c { view c with half := none })
      (Function.update s.lock lk { s.lock lk with locked := true }) s.inside := by
  have same : ({ view c with half := none } : View) = view c := by rw [← whole]
  have same' : ({ s.lock lk with locked := true } : Spinlock) = s.lock lk := by rw [← read]
  rw [same, same', Function.update_eq_self, Function.update_eq_self]
  exact locks

/-- One that is found free is taken. -/
theorem Locks.test_free (here : c < n) (locks : Locks n view s.lock s.inside)
    (read : (s.lock lk).locked = false) (whole : (view c).half = none) (free : lk ∉ (view c).held) :
    Locks n (Function.update view c { view c with half := some lk })
      (Function.update s.lock lk { s.lock lk with locked := true })
      (Function.update s.inside lk (c :: s.inside lk)) := by
  refine locks.update lk (fun x other => ?_) ?_ (locks.nodup c here) fun x half => ?_
  · refine ⟨Function.update_of_ne other _ _, Function.update_of_ne other _ _, Iff.rfl, ?_⟩
    rw [whole]
    exact ⟨fun h => absurd (Option.some.inj h).symm other, fun h => by cases h⟩
  · rw [Function.update_self, Function.update_self]
    have is := locks.each lk
    generalize s.lock lk = l, s.inside lk = i at is read
    cases is with
    | free untaken =>
      refine .half here ?_ (has_update fun c' there has => absurd has (untaken c' there))
      rw [Function.update_self]
    | half _ _ _ => cases read
    | held _ _ _ => cases read
  · cases half
    exact free

theorem Locks.set_cpu (here : c < n) (locks : Locks n view s.lock s.inside)
    (half : (view c).half = some lk) :
    Locks n (Function.update view c { view c with held := lk :: (view c).held, half := none })
      (Function.update s.lock lk { s.lock lk with cpu := some c }) s.inside := by
  have free := locks.whole c here lk half
  refine locks.update lk (fun x other => ?_) ?_ (List.nodup_cons.mpr ⟨free, locks.nodup c here⟩)
    fun x none => by cases none
  · refine ⟨Function.update_of_ne other _ _, rfl, ?_, ?_⟩
    · rw [List.mem_cons]
      exact ⟨fun h => h.resolve_left other, .inr⟩
    · rw [half]
      exact ⟨fun h => (by cases h), fun h => absurd (Option.some.inj h).symm other⟩
  · obtain ⟨taken, alone⟩ := locks.of_half here half
    rw [Function.update_self, taken, alone]
    refine .held here ?_ (has_update fun c' there has => locks.apart there here has (.inr half))
    rw [Function.update_self]
    exact List.mem_cons_self

theorem Locks.clear_cpu (here : c < n) (locks : Locks n view s.lock s.inside)
    (held : lk ∈ (view c).held) (whole : (view c).half = none)
    (same : w.held = (view c).held.erase lk ∧ w.half = some lk) :
    Locks n (Function.update view c w)
      (Function.update s.lock lk { s.lock lk with cpu := none }) s.inside := by
  have nodup := locks.nodup c here
  refine locks.update lk (fun x other => ?_) ?_ (same.1 ▸ nodup.erase lk) fun x half => ?_
  · refine ⟨Function.update_of_ne other _ _, rfl, ?_, ?_⟩
    · rw [same.1, List.mem_erase_of_ne other]
    · rw [same.2, whole]
      exact ⟨fun h => absurd (Option.some.inj h).symm other, fun h => by cases h⟩
  · obtain ⟨taken, alone⟩ := locks.of_held here held
    rw [Function.update_self, taken, alone]
    refine .half here ?_ (has_update fun c' there has => locks.apart there here has (.inl held))
    rw [Function.update_self]
    exact same.2
  · cases same.2.symm.trans half
    rw [same.1]
    exact nodup.not_mem_erase

theorem Locks.sync_release (here : c < n) (locks : Locks n view s.lock s.inside)
    (half : (view c).half = some lk) :
    Locks n (Function.update view c { view c with half := none })
      (Function.update s.lock lk { s.lock lk with locked := false })
      (Function.update s.inside lk ((s.inside lk).erase c)) := by
  refine locks.update lk (fun x other => ?_) ?_ (locks.nodup c here) fun x none => by cases none
  · refine ⟨Function.update_of_ne other _ _, Function.update_of_ne other _ _, Iff.rfl, ?_⟩
    rw [half]
    exact ⟨fun h => (by cases h), fun h => absurd (Option.some.inj h).symm other⟩
  · obtain ⟨taken, alone⟩ := locks.of_half here half
    have none : [c].erase c = [] := List.erase_cons_head ..
    rw [Function.update_self, Function.update_self, taken, alone, none]
    refine .free fun c' there has => ?_
    by_cases mine : c' = c
    · subst mine
      rw [Function.update_self] at has
      rcases has with held | half'
      · exact locks.whole c' there lk half held
      · cases half'
    · rw [Function.update_of_ne mine] at has
      exact mine (locks.apart there here has (.inr half))

theorem Locks.step {o : Op} {r : o.Res} (here : c < n) (locks : Locks n view s.lock s.inside)
    (allowed : Allowed init me (view c) o) (does : s.Does forkret c o r t) :
    Locks n (Function.update view c (Next me (view c) o r)) t.lock t.inside := by
  cases elsewhere : o.lock with
  | none =>
    obtain ⟨lock, inside⟩ := Does.same_locks does elsewhere
    obtain ⟨held, half⟩ := Next.same_locks me (view c) does elsewhere
    rw [lock, inside]
    refine locks.congr (fun c' _ => ?_) fun c' _ => ?_
    · by_cases mine : c' = c
      · subst mine
        rw [Function.update_self, held]
      · rw [Function.update_of_ne mine]
    · by_cases mine : c' = c
      · subst mine
        rw [Function.update_self, half]
      · rw [Function.update_of_ne mine]
  | some lk =>
    cases o
    case test_and_set =>
      cases elsewhere
      obtain ⟨read, eq⟩ := does
      obtain ⟨-, whole, free⟩ := allowed
      rw [eq]
      cases taken : (s.lock lk).locked with
      | true =>
        rw [read, taken]
        exact locks.test_taken taken whole
      | false =>
        rw [read, taken]
        exact locks.test_free here taken whole free
    case set_cpu =>
      cases elsewhere
      rw [show t = _ from does]
      exact locks.set_cpu here allowed
    case clear_cpu =>
      cases elsewhere
      rw [show t = _ from does]
      exact locks.clear_cpu here allowed.1 allowed.2.1 ⟨rfl, rfl⟩
    case sync_release =>
      cases elsewhere
      rw [show t = _ from does]
      exact locks.sync_release here allowed
    all_goals cases elsewhere

end AvxKernel.Sched
