import AvxKernel.Sched.Locking

/-! What the code takes for granted of processes is so: who runs them, what state they
are in, and who their parents are. -/
namespace AvxKernel.Sched

open Rules (Safe)
open Proc (ProcState Chan)
open View

variable {n init : Nat} {me : Context} {v w : View} {who : Nat → Context} {view : Nat → View}
  {s t : Sys} {c c' p q : Nat} {lk : Lock} {forkret : K Unit} {state : Nat → ProcState}
  {parent : Nat → Option Nat} {context : Context → K Unit}

def Sys.states (s : Sys) (p : Nat) : ProcState := (s.proc p).state

def Sys.parents (s : Sys) (p : Nat) : Option Nat := (s.proc p).parent

def InUse (st : ProcState) : Prop := st ≠ .unused ∧ st ≠ .zombie

/-- What the code of one processor knows is so, and it holds the lock for it. -/
structure Informed (init : Nat) (forkret : K Unit) (state : Nat → ProcState)
    (parent : Nat → Option Nat) (context : Context → K Unit) (me : Context) (v : View) : Prop where
  knows : ∀ q st, v.knows q = some st → .proc q ∈ v.held ∧ state q = st
  own : ∀ p, me = .proc p → state p = v.parked.getD .running
  stops : v.parked ≠ some .running
  parked : ∀ p, me = .proc p → v.parked ≠ none → .proc p ∈ v.held
  claims : ∀ p, v.claims = some p → me.process = none ∧ .proc p ∈ v.held ∧ state p = .running
  fresh : ∀ q, v.fresh = some q → .proc q ∈ v.held ∧ state q = .unused ∧ context (.proc q) = forkret
  adopted : ∀ q, v.adopted = some q → .proc q ∈ v.held ∧ parent q ≠ none
  strangers : ∀ m, me = .proc m → m ≠ init → ∀ x, v.strangers x → parent x ≠ some m
  mine : ∀ p, me = .proc p → v.proc = some p
  current : me.process = none → ∀ p, v.proc = some p → .proc p ∈ v.held

/-- The parents of processes. No process is its own parent or grandparent. -/
structure Tree (init : Nat) (state : Nat → ProcState) (parent : Nat → Option Nat) : Prop where
  family : ∀ p q, parent p = some q →
    q ≠ p ∧ p ≠ init ∧ p < NPROC ∧ parent q ≠ some p ∧ InUse (state q)
  orphan : ∀ p, InUse (state p) → p ≠ init → parent p ≠ none
  root : InUse (state init)

/-- A process is run by one processor at most, and by none while a scheduler has it. -/
structure Table (n : Nat) (state : Nat → ProcState) (who : Nat → Context) (view : Nat → View) :
    Prop where
  cpus : ∀ c < n, ∀ c', who c = .cpu c' → c' = c
  apart : ∀ c < n, ∀ c' < n, ∀ p, who c = .proc p → who c' = .proc p → c = c'
  away : ∀ c < n, (who c).process = none → ∀ p, (view c).claims = some p ∨ (view c).proc = some p →
    ∀ c' < n, who c' ≠ .proc p
  running : ∀ p, state p = .running →
    (∃ c < n, who c = .proc p) ∨ ∃ c < n, (view c).claims = some p

/-- The contexts that are not in use can be switched to. -/
structure Stored (n init : Nat) (state : Nat → ProcState) (parent : Nat → Option Nat)
    (context : Context → K Unit) (who : Nat → Context) : Prop where
  schedulers : ∀ c < n, ∀ p, who c = .proc p →
    (rules init (.cpu c)).Safe (context (.cpu c)) (resumed (fun _ => False) p) Done
  processes : ∀ p, (∀ c < n, who c ≠ .proc p) → InUse (state p) →
    ∃ b, (p ≠ init → ∀ x, b x → parent x ≠ some p) ∧
      (rules init (.proc p)).Safe (context (.proc p)) (resumed b p) Done

/-! ### Changes of what is known -/

namespace Informed

variable (informed : Informed init forkret state parent context me v)

include informed

/-- With one more lock. -/
theorem grow (held : ∀ lk ∈ v.held, lk ∈ w.held)
    (same : w = { v with held := w.held, half := w.half }) :
    Informed init forkret state parent context me w := by
  rw [same]
  exact { informed with
    knows := fun q st h => (informed.knows q st h).imp_left (held _)
    parked := fun p h h' => held _ (informed.parked p h h')
    claims := fun p h => (informed.claims p h).imp_right (And.imp_left (held _))
    fresh := fun q h => (informed.fresh q h).imp_left (held _)
    adopted := fun q h => (informed.adopted q h).imp_left (held _)
    current := fun h p h' => held _ (informed.current h p h') }

/-- With one lock less, and what goes with it forgotten. -/
theorem drop (may : v.MayRelease me lk) :
    Informed init forkret state parent context me { v with
      held := v.held.erase lk
      half := some lk
      knows := v.forget lk
      fresh := v.fresh.filter fun q => lk ≠ .proc q
      adopted := v.adopted.filter fun q => lk ≠ .proc q } := by
  have kept : ∀ q, .proc q ∈ v.held → lk ≠ .proc q → .proc q ∈ v.held.erase lk :=
    fun q held other => (List.mem_erase_of_ne (Ne.symm other)).mpr held
  have filtered : ∀ (known : Option Nat) q, known.filter (fun q => lk ≠ .proc q) = some q →
      known = some q ∧ lk ≠ .proc q := by
    intro known q h
    obtain ⟨eq, other⟩ := Option.filter_eq_some_iff.mp h
    exact ⟨eq, of_decide_eq_true other⟩
  exact { informed with
    knows := fun q st h => by
      by_cases other : lk = .proc q
      · exact absurd ((if_pos other).symm.trans h).symm (Option.some_ne_none st)
      · obtain ⟨held, is⟩ := informed.knows q st ((if_neg other).symm.trans h)
        exact ⟨kept q held other, is⟩
    parked := fun p h h' => kept p (informed.parked p h h') fun eq => h' ((may p eq).2.1 h)
    claims := fun p h => by
      obtain ⟨cpu, held, is⟩ := informed.claims p h
      exact ⟨cpu, kept p held fun eq => (may p eq).1 h, is⟩
    fresh := fun q h => by
      obtain ⟨eq, other⟩ := filtered _ q h
      exact (informed.fresh q eq).imp_left fun held => kept q held other
    adopted := fun q h => by
      obtain ⟨eq, other⟩ := filtered _ q h
      exact (informed.adopted q eq).imp_left fun held => kept q held other
    current := fun h p h' => kept p (informed.current h p h') fun eq => (may p eq).2.2 h h' }

/-- A state is read under the lock. -/
theorem read (held : .proc p ∈ v.held) :
    Informed init forkret state parent context me
      { v with knows := Function.update v.knows p (some (state p)) } :=
  { informed with
    knows := fun q st h => by
      change Function.update v.knows p (some (state p)) q = some st at h
      by_cases same : q = p
      · subst same
        rw [Function.update_self] at h
        exact ⟨held, Option.some.inj h⟩
      · rw [Function.update_of_ne same] at h
        exact informed.knows q st h }

end Informed

/-- What others change outside of the locks that are held. -/
theorem Informed.congr {state' : Nat → ProcState} {parent' : Nat → Option Nat}
    {context' : Context → K Unit} (informed : Informed init forkret state parent context me v)
    (sameState : ∀ q, .proc q ∈ v.held ∨ me = .proc q → state' q = state q)
    (sameParent : ∀ q, .proc q ∈ v.held → parent' q = parent q)
    (notMine : ∀ m, me = .proc m → m ≠ init → ∀ x, parent x ≠ some m → parent' x ≠ some m)
    (sameContext : ∀ q, .proc q ∈ v.held → context' (.proc q) = context (.proc q)) :
    Informed init forkret state' parent' context' me v :=
  { informed with
    knows := fun q st h => by
      obtain ⟨held, is⟩ := informed.knows q st h
      exact ⟨held, (sameState q (.inl held)).trans is⟩
    own := fun p h => (sameState p (.inr h)).trans (informed.own p h)
    claims := fun p h => by
      obtain ⟨cpu, held, is⟩ := informed.claims p h
      exact ⟨cpu, held, (sameState p (.inl held)).trans is⟩
    fresh := fun q h => by
      obtain ⟨held, is, new⟩ := informed.fresh q h
      exact ⟨held, (sameState q (.inl held)).trans is, (sameContext q held).trans new⟩
    adopted := fun q h => by
      obtain ⟨held, is⟩ := informed.adopted q h
      exact ⟨held, (sameParent q held).symm ▸ is⟩
    strangers := fun m h h' x known => notMine m h h' x (informed.strangers m h h' x known) }

/-- No lock is held by two processors. -/
def Single (n : Nat) (view : Nat → View) : Prop :=
  ∀ c < n, ∀ c' < n, ∀ lk, lk ∈ (view c).held → lk ∈ (view c').held → c = c'

/-- What one processor claims and runs stays as it was. -/
theorem Table.see (table : Table n state who view) (claims : w.claims = (view c).claims)
    (proc : (who c).process = none → ∀ p, w.proc = some p →
      (view c).claims = some p ∨ (view c).proc = some p) :
    Table n state who (Function.update view c w) :=
  { table with
    away := fun c' there cpu p has => by
      by_cases mine : c' = c
      · subst mine
        rw [Function.update_self] at has
        refine table.away c' there cpu p ?_
        rcases has with claimed | current
        · exact .inl (claims.symm.trans claimed)
        · exact proc cpu p current
      · rw [Function.update_of_ne mine] at has
        exact table.away c' there cpu p has
    running := fun p is => by
      refine (table.running p is).imp_right ?_
      rintro ⟨c', there, claimed⟩
      refine ⟨c', there, ?_⟩
      by_cases mine : c' = c
      · subst mine
        rw [Function.update_self, claims, claimed]
      · rw [Function.update_of_ne mine, claimed] }

structure Procs (n init : Nat) (forkret : K Unit) (state : Nat → ProcState) (parent : Nat → Option Nat)
    (context : Context → K Unit) (who : Nat → Context) (view : Nat → View) : Prop where
  informed : ∀ c < n, Informed init forkret state parent context (who c) (view c)
  tree : Tree init state parent
  table : Table n state who view
  stored : Stored n init state parent context who
  single : Single n view

/-- Nobody else's child is made by setting a parent. -/
theorem View.MayAdopt.not_adopted {m x : Nat} {new : Option Nat} (may : v.MayAdopt me init p new)
    (notInit : m ≠ init) (other : me ≠ .proc m) (not : parent x ≠ some m) :
    Function.update parent p new x ≠ some m := by
  by_cases same : x = p
  · subst same
    rw [Function.update_self]
    rcases may with ⟨m', mine, -, rfl, -⟩ | ⟨-, rfl⟩ | ⟨-, rfl⟩
    · rintro h
      cases h
      exact other mine
    · rintro h
      cases h
      exact notInit rfl
    · exact (Option.some_ne_none m).symm
  · rwa [Function.update_of_ne same]

namespace Procs

variable (procs : Procs n init forkret state parent context who view) (here : c < n)

include procs here

/-- Only what a processor knows is new. -/
theorem see (informed : Informed init forkret state parent context (who c) w)
    (claims : w.claims = (view c).claims)
    (proc : (who c).process = none → ∀ p, w.proc = some p →
      (view c).claims = some p ∨ (view c).proc = some p)
    (single : Single n (Function.update view c w)) :
    Procs n init forkret state parent context who (Function.update view c w) where
  informed c' there := by
    by_cases mine : c' = c
    · subst mine
      rwa [Function.update_self]
    · rw [Function.update_of_ne mine]
      exact procs.informed c' there
  tree := procs.tree
  table := procs.table.see claims proc
  stored := procs.stored
  single := single

/-- A process that another one knows to be stopped is run by no processor. -/
theorem idle {st : ProcState} (known : (view c).knows p = some st) (stopped : st ≠ .running)
    (other : who c ≠ .proc p) : ∀ c' < n, who c' ≠ .proc p := by
  intro c' there runs
  obtain ⟨held, is⟩ := (procs.informed c here).knows p st known
  have own := (procs.informed c' there).own p runs
  have parked : (view c').parked ≠ none := by
    intro none
    rw [none, is] at own
    exact stopped own
  have same := procs.single c here c' there _ held ((procs.informed c' there).parked p runs parked)
  rw [same] at other
  exact other runs

/-- Before the state of a process is set, the process runs here, or nowhere. -/
theorem before {st : ProcState} (may : (view c).MaySet (who c) init p st) :
    (who c = .proc p ∧ state p = .running) ∨
      (who c ≠ .proc p ∧ (∀ c' < n, who c' ≠ .proc p) ∧ ∃ st, (view c).knows p = some st ∧ state p = st ∧ st ≠ .running) := by
  have informed := procs.informed c here
  rcases may with ⟨mine, none, -⟩ | ⟨other, may⟩
  · have own := informed.own p mine
    rw [none] at own
    exact .inl ⟨mine, own⟩
  · have known : ∃ st, (view c).knows p = some st ∧ st ≠ .running := by
      rcases may with ⟨h, -⟩ | ⟨h, -⟩ | ⟨h | h, -⟩ | ⟨h, -⟩
      · exact ⟨_, h, by decide⟩
      · exact ⟨_, h, by decide⟩
      · exact ⟨_, h, by decide⟩
      · exact ⟨_, h, by decide⟩
      · exact ⟨_, h, by decide⟩
    obtain ⟨st, h, stopped⟩ := known
    exact .inr ⟨other, procs.idle here h stopped other, st, h, (informed.knows p st h).2, stopped⟩

theorem set_state_informed {st : ProcState} (held : .proc p ∈ (view c).held)
    (may : (view c).MaySet (who c) init p st) :
    Informed init forkret (Function.update state p st) parent context (who c)
      (Next (who c) (view c) (.set_state p st) ()) := by
  have informed := procs.informed c here
  have before := procs.before here may
  have at_ : Function.update state p st p = st := Function.update_self ..
  have off : ∀ q, q ≠ p → Function.update state p st q = state q := fun q other => Function.update_of_ne other _ _
  have running : st = .running → (who c).process = none := by
    rintro rfl
    rcases may with ⟨-, -, h | h | h⟩ | ⟨-, h | h | h | h⟩
    · cases h
    · cases h
    · cases h.1
    · cases h.2
    · cases h.2.2.2
    · cases h.2
    · exact h.2.2.1
  exact { informed with
    knows := fun q st' h => by
      change Function.update (view c).knows p (some st) q = some st' at h
      by_cases same : q = p
      · subst same
        rw [Function.update_self] at h
        exact ⟨held, at_.trans (Option.some.inj h)⟩
      · rw [Function.update_of_ne same] at h
        exact (informed.knows q st' h).imp_right (off q same).trans
    own := fun p' mine => by
      change _ = (if who c = .proc p then some st else (view c).parked).getD .running
      by_cases same : p' = p
      · subst same
        rw [if_pos mine]
        exact at_
      · have other : who c ≠ .proc p := fun h => same (Context.proc.inj (mine.symm.trans h))
        rw [if_neg other]
        exact (off p' same).trans (informed.own p' mine)
    stops := by
      change (if who c = .proc p then some st else (view c).parked) ≠ _
      split
      · rintro h
        cases (Option.some.inj h)
        have cpu := running rfl
        rw [‹who c = .proc p›] at cpu
        cases cpu
      · exact informed.stops
    parked := fun p' mine parked => by
      by_cases same : p' = p
      · rw [same]
        exact held
      · have other : who c ≠ .proc p := fun h => same (Context.proc.inj (mine.symm.trans h))
        exact informed.parked p' mine fun none => parked ((if_neg other).trans none)
    claims := fun p' claimed => by
      change (if st = .running then some p else (view c).claims) = some p' at claimed
      split at claimed
      · cases claimed
        exact ⟨running ‹_›, held, at_.trans ‹_›⟩
      · obtain ⟨cpu, held', is⟩ := informed.claims p' claimed
        refine ⟨cpu, held', (off p' ?_).trans is⟩
        rintro rfl
        rcases before with ⟨mine, -⟩ | ⟨-, -, st', -, is', stopped⟩
        · rw [mine] at cpu
          cases cpu
        · exact stopped (is'.symm.trans is)
    fresh := fun q fresh => by
      obtain ⟨eq, other⟩ := Option.filter_eq_some_iff.mp fresh
      obtain ⟨held', is, new⟩ := informed.fresh q eq
      exact ⟨held', (off q (of_decide_eq_true other)).trans is, new⟩ }

theorem set_state_tree {st : ProcState} (may : (view c).MaySet (who c) init p st) :
    Tree init (Function.update state p st) parent := by
  have informed := procs.informed c here
  have tree := procs.tree
  have off : ∀ q, q ≠ p → Function.update state p st q = state q := fun q other => Function.update_of_ne other _ _
  have at_ : Function.update state p st p = st := Function.update_self ..
  have inUse : InUse .sleeping ∧ InUse .runnable ∧ InUse .running := by
    refine ⟨⟨?_, ?_⟩, ⟨?_, ?_⟩, ⟨?_, ?_⟩⟩
    all_goals decide
  -- what the process may have become, and that no child of it is left if it is gone
  have becomes : (InUse st ∧ (p ≠ init → parent p ≠ none)) ∨
      (¬InUse st ∧ p ≠ init ∧ ∀ x, parent x ≠ some p) := by
    have gone : ∀ {st'}, state p = st' → ¬InUse st' → p ≠ init ∧ ∀ x, parent x ≠ some p := by
      rintro st' is dead
      refine ⟨?_, fun x child => dead (is ▸ (tree.family x p child).2.2.2.2)⟩
      rintro rfl
      exact dead (is ▸ tree.root)
    have stays : ∀ {st'}, state p = st' → InUse st' → p ≠ init → parent p ≠ none :=
      fun is alive => tree.orphan p (is ▸ alive)
    rcases may with ⟨mine, none, may⟩ | ⟨-, may⟩
    · have own := informed.own p mine
      rw [none] at own
      rcases may with rfl | rfl | ⟨rfl, notInit, childless⟩
      · exact .inl ⟨inUse.1, stays own inUse.2.2⟩
      · exact .inl ⟨inUse.2.1, stays own inUse.2.2⟩
      · refine .inr ⟨fun alive => alive.2 rfl, notInit, fun x child => ?_⟩
        exact informed.strangers p mine notInit x (childless x (tree.family x p child).2.2.1) child
    · have is : ∀ {st'}, (view c).knows p = some st' → state p = st' := fun h => (informed.knows p _ h).2
      rcases may with ⟨h, rfl⟩ | ⟨-, -, adopted, rfl⟩ | ⟨h | h, rfl⟩ | ⟨h, rfl, -⟩
      · exact .inl ⟨inUse.2.1, stays (is h) inUse.1⟩
      · exact .inl ⟨inUse.2.1, fun _ => (informed.adopted p adopted).2⟩
      · exact .inr ⟨fun alive => alive.1 rfl, gone (is h) fun alive => alive.1 rfl⟩
      · exact .inr ⟨fun alive => alive.1 rfl, gone (is h) fun alive => alive.2 rfl⟩
      · exact .inl ⟨inUse.2.2, stays (is h) inUse.2.1⟩
  exact {
    family := fun x y child => by
      obtain ⟨apart, notInit, small, proper, alive⟩ := tree.family x y child
      refine ⟨apart, notInit, small, proper, ?_⟩
      by_cases same : y = p
      · subst same
        rw [at_]
        rcases becomes with ⟨stays, -⟩ | ⟨-, -, childless⟩
        · exact stays
        · exact absurd child (childless x)
      · rwa [off y same]
    orphan := fun x alive notInit => by
      by_cases same : x = p
      · subst same
        rw [at_] at alive
        rcases becomes with ⟨-, parented⟩ | ⟨dead, -⟩
        · exact parented notInit
        · exact absurd alive dead
      · rw [off x same] at alive
        exact tree.orphan x alive notInit
    root := by
      by_cases same : init = p
      · rw [same, at_]
        rcases becomes with ⟨stays, -⟩ | ⟨-, notInit, -⟩
        · exact stays
        · exact absurd same.symm notInit
      · rw [off init same]
        exact tree.root }

theorem set_state_table {st : ProcState} (may : (view c).MaySet (who c) init p st) :
    Table n (Function.update state p st) who
      (Function.update view c (Next (who c) (view c) (.set_state p st) ())) := by
  have before := procs.before here may
  have table := procs.table
  have claims : (Next (who c) (view c) (.set_state p st) ()).claims =
      if st = .running then some p else (view c).claims := rfl
  have starts : st = .running → (∀ c' < n, who c' ≠ .proc p) ∧ (view c).claims = none := by
    rintro rfl
    rcases may with ⟨-, -, h | h | h⟩ | ⟨other, h | h | h | h⟩
    · cases h
    · cases h
    · cases h.1
    · cases h.2
    · cases h.2.2.2
    · cases h.2
    · exact ⟨procs.idle here h.1 (by decide) other, h.2.2.2⟩
  exact { table with
    away := fun c' there cpu x has => by
      by_cases mine : c' = c
      · subst mine
        rw [Function.update_self, claims] at has
        rcases has with claimed | current
        · split at claimed
          · cases claimed
            exact (starts ‹_›).1
          · exact table.away c' there cpu x (.inl claimed)
        · exact table.away c' there cpu x (.inr current)
      · rw [Function.update_of_ne mine] at has
        exact table.away c' there cpu x has
    running := fun x is => by
      by_cases same : x = p
      · subst same
        rw [Function.update_self] at is
        exact .inr ⟨c, here, by rw [Function.update_self, claims, if_pos is]⟩
      · rw [Function.update_of_ne same] at is
        refine (table.running x is).imp_right ?_
        rintro ⟨c', there, claimed⟩
        refine ⟨c', there, ?_⟩
        by_cases mine : c' = c
        · subst mine
          rw [Function.update_self, claims]
          split
          · rw [(starts ‹_›).2] at claimed
            cases claimed
          · exact claimed
        · rwa [Function.update_of_ne mine] }

/-- The state of a process is set. -/
theorem set_state {st : ProcState} (held : .proc p ∈ (view c).held)
    (may : (view c).MaySet (who c) init p st)
    (new : ∀ p b, (rules init (.proc p)).Safe forkret (resumed b p) Done)
    (single : Single n (Function.update view c (Next (who c) (view c) (.set_state p st) ()))) :
    Procs n init forkret (Function.update state p st) parent context who
      (Function.update view c (Next (who c) (view c) (.set_state p st) ())) where
  informed c' there := by
    by_cases mine : c' = c
    · subst mine
      rw [Function.update_self]
      exact procs.set_state_informed here held may
    · rw [Function.update_of_ne mine]
      refine (procs.informed c' there).congr (fun q has => ?_) (fun _ _ => rfl) (fun _ _ _ _ => id) fun _ _ => rfl
      refine Function.update_of_ne ?_ _ _
      rintro rfl
      rcases has with held' | runs
      · exact mine (procs.single c' there c here _ held' held)
      · rcases procs.before here may with ⟨own, -⟩ | ⟨-, idle, -⟩
        · exact mine (procs.table.apart c' there c here q runs own)
        · exact idle c' there runs
  tree := procs.set_state_tree here may
  table := procs.set_state_table here may
  stored := { procs.stored with
    processes := fun x idle alive => by
      by_cases same : x = p
      · subst same
        rw [Function.update_self] at alive
        rcases may with ⟨mine, -⟩ | ⟨-, may⟩
        · exact absurd mine (idle c here)
        · have informed := procs.informed c here
          have is : ∀ {st'}, (view c).knows x = some st' → state x = st' := fun h => (informed.knows x _ h).2
          rcases may with ⟨h, rfl⟩ | ⟨-, fresh, -, rfl⟩ | ⟨-, rfl⟩ | ⟨h, rfl, -⟩
          · exact procs.stored.processes x idle (by rw [is h]; exact ⟨by decide, by decide⟩)
          · refine ⟨fun _ => False, fun _ _ => False.elim, ?_⟩
            rw [(informed.fresh x fresh).2.2]
            exact new x _
          · exact absurd rfl alive.1
          · exact procs.stored.processes x idle (by rw [is h]; exact ⟨by decide, by decide⟩)
      · rw [Function.update_of_ne same] at alive
        exact procs.stored.processes x idle alive }
  single := single

theorem set_parent_tree {new : Option Nat} (small : p < NPROC)
    (may : (view c).MayAdopt (who c) init p new) : Tree init state (Function.update parent p new) := by
  have informed := procs.informed c here
  have tree := procs.tree
  have at_ : Function.update parent p new p = new := Function.update_self ..
  have off : ∀ x, x ≠ p → Function.update parent p new x = parent x := fun x other => Function.update_of_ne other _ _
  have dead : ∀ {st}, state p = st → ¬InUse st → p ≠ init ∧ ∀ x, parent x ≠ some p := by
    rintro st is gone
    refine ⟨?_, fun x child => gone (is ▸ (tree.family x p child).2.2.2.2)⟩
    rintro rfl
    exact gone (is ▸ tree.root)
  -- the new parent, if there is one, and why no circle is closed
  have parent_ : ∀ q, new = some q → q ≠ p ∧ p ≠ init ∧ parent q ≠ some p ∧ InUse (state q) ∧
      ∀ x, parent x = some p → q ≠ x := by
    rintro q rfl
    rcases may with ⟨m, mine, apart, eq, fresh, none⟩ | ⟨notInit, eq⟩ | ⟨-, eq⟩
    · cases eq
      obtain ⟨-, is, -⟩ := informed.fresh p fresh
      obtain ⟨notInit, childless⟩ := dead is fun alive => alive.1 rfl
      have own := informed.own q mine
      rw [none] at own
      exact ⟨apart, notInit, childless q, by rw [own]; exact ⟨by decide, by decide⟩,
        fun x child => absurd child (childless x)⟩
    · cases eq
      have root : parent init ≠ some p := fun child => (tree.family init p child).2.1 rfl
      exact ⟨Ne.symm notInit, notInit, root, tree.root, fun x child same => root (same ▸ child)⟩
    · cases eq
  have freed : new = none → ¬InUse (state p) := by
    rintro rfl
    rcases may with ⟨_, -, -, eq, -⟩ | ⟨-, eq⟩ | ⟨h | h, -⟩
    · cases eq
    · cases eq
    · rw [(informed.knows p _ h).2]
      exact fun alive => alive.1 rfl
    · rw [(informed.knows p _ h).2]
      exact fun alive => alive.2 rfl
  exact {
    family := fun x y child => by
      by_cases same : x = p
      · subst same
        obtain ⟨apart, notInit, proper, alive, -⟩ := parent_ y (at_.symm.trans child)
        exact ⟨apart, notInit, small, by rwa [off y apart], alive⟩
      · rw [off x same] at child
        obtain ⟨apart, notInit, small, proper, alive⟩ := tree.family x y child
        refine ⟨apart, notInit, small, ?_, alive⟩
        by_cases up : y = p
        · subst up
          rw [at_]
          exact fun circle => (parent_ x circle).2.2.2.2 x child rfl
        · rwa [off y up]
    orphan := fun x alive notInit => by
      by_cases same : x = p
      · subst same
        rw [at_]
        exact fun none => freed none alive
      · rw [off x same]
        exact tree.orphan x alive notInit
    root := tree.root }

/-- The parent of a process is set. -/
theorem set_parent {new : Option Nat} (held : .proc p ∈ (view c).held) (small : p < NPROC)
    (may : (view c).MayAdopt (who c) init p new)
    (single : Single n (Function.update view c (Next (who c) (view c) (.set_parent p new) ()))) :
    Procs n init forkret state (Function.update parent p new) context who
      (Function.update view c (Next (who c) (view c) (.set_parent p new) ())) := by
  have informed := procs.informed c here
  have mine' : Informed init forkret state (Function.update parent p new) context (who c)
      (Next (who c) (view c) (.set_parent p new) ()) :=
    { informed with
      adopted := fun q adopted => by
        obtain ⟨_, eq, rfl⟩ := Option.map_eq_some_iff.mp adopted
        refine ⟨held, ?_⟩
        rw [Function.update_self, eq]
        exact Option.some_ne_none _
      strangers := fun m mine notInit x known => by
        change (if x = p then new ≠ (who c).process else (view c).strangers x) at known
        by_cases same : x = p
        · subst same
          rw [if_pos rfl, mine] at known
          rwa [Function.update_self]
        · rw [if_neg same] at known
          rw [Function.update_of_ne same]
          exact informed.strangers m mine notInit x known }
  exact {
    informed := fun c' there => by
      by_cases mine : c' = c
      · subst mine
        rwa [Function.update_self]
      · rw [Function.update_of_ne mine]
        refine (procs.informed c' there).congr (fun _ _ => rfl) (fun q held' => ?_)
          (fun m runs notInit x not => ?_) fun _ _ => rfl
        · refine Function.update_of_ne ?_ _ _
          rintro rfl
          exact mine (procs.single c' there c here _ held' held)
        · exact may.not_adopted notInit
            (fun own => mine (procs.table.apart c' there c here m runs own)) not
    tree := procs.set_parent_tree here small may
    table := procs.table.see rfl fun _ _ => .inr
    stored := { procs.stored with
      processes := fun x idle alive => by
        obtain ⟨b, strangers, safe⟩ := procs.stored.processes x idle alive
        exact ⟨b, fun notInit y known => may.not_adopted notInit (idle c here)
          (strangers notInit y known), safe⟩ }
    single }

/-- A new context is set up. -/
theorem set_context (held : .proc p ∈ (view c).held) (unused : (view c).knows p = some .unused)
    (single : Single n (Function.update view c { view c with fresh := some p })) :
    Procs n init forkret state parent (Function.update context (.proc p) forkret) who
      (Function.update view c { view c with fresh := some p }) := by
  have informed := procs.informed c here
  have is := (informed.knows p _ unused).2
  exact {
    informed := fun c' there => by
      by_cases mine : c' = c
      · subst mine
        rw [Function.update_self]
        exact { informed with
          fresh := fun q fresh => by
            cases fresh
            exact ⟨held, is, Function.update_self ..⟩ }
      · rw [Function.update_of_ne mine]
        refine (procs.informed c' there).congr (fun _ _ => rfl) (fun _ _ => rfl) (fun _ _ _ _ => id) fun q held' => ?_
        refine Function.update_of_ne ?_ _ _
        rintro eq
        cases eq
        exact mine (procs.single c' there c here _ held' held)
    tree := procs.tree
    table := procs.table.see rfl fun _ _ => .inr
    stored := {
      schedulers := fun c' there x runs => by
        rw [Function.update_of_ne Context.noConfusion]
        exact procs.stored.schedulers c' there x runs
      processes := fun x idle alive => by
        have other : x ≠ p := by
          rintro rfl
          rw [is] at alive
          exact alive.1 rfl
        rw [Function.update_of_ne fun eq => other (Context.proc.inj eq)]
        exact procs.stored.processes x idle alive }
    single }

/-- The scheduler of the processor runs where no process does. -/
theorem who_cpu (cpu : (who c).process = none) : who c = .cpu c := by
  cases eq : who c with
  | cpu c' => rw [procs.table.cpus c here c' eq]
  | proc p =>
    rw [eq] at cpu
    cases cpu

/-- A switch to a process. -/
theorem swtch_to {rest : K Unit} (cpu : (who c).process = none) (switches : (view c).Switches p)
    (claims : (view c).claims = some p)
    (safe : (rules init (.cpu c)).Safe rest (resumed (fun _ => False) p) Done) :
    ∃ b, (rules init (.proc p)).Safe (context (.proc p)) (resumed b p) Done ∧
      Procs n init forkret state parent (Function.update context (.cpu c) rest)
        (Function.update who c (.proc p)) (Function.update view c (resumed b p)) := by
  have informed := procs.informed c here
  have table := procs.table
  have self := procs.who_cpu here cpu
  obtain ⟨-, held, running⟩ := informed.claims p claims
  have idle := table.away c here cpu p (.inl claims)
  obtain ⟨b, strangers, resumable⟩ := procs.stored.processes p idle (by rw [running]; exact ⟨by decide, by decide⟩)
  have who_c : Function.update who c (.proc p) c = .proc p := Function.update_self ..
  have who_of : ∀ c', c' ≠ c → Function.update who c (.proc p) c' = who c' :=
    fun c' other => Function.update_of_ne other _ _
  -- only this processor has the lock of the process
  have only : ∀ c' < n, .proc p ∈ (view c').held → c' = c :=
    fun c' there held' => procs.single c' there c here _ held' held
  refine ⟨b, resumable, {
    informed := fun c' there => ?_
    tree := procs.tree
    table := {
      cpus := fun c' there c'' eq => ?_
      apart := fun c' there c'' there' x runs runs' => ?_
      away := fun c' there cpu' x has c'' there' runs => ?_
      running := fun x is => ?_ }
    stored := {
      schedulers := fun c' there x runs => ?_
      processes := fun x idle' alive => ?_ }
    single := fun c' there c'' there' lk held' held'' => ?_ }⟩
  · by_cases mine : c' = c
    · subst mine
      rw [who_c, Function.update_self]
      exact {
        knows := fun _ _ h => by cases h
        own := fun x eq => by
          cases eq
          exact running
        stops := (Option.some_ne_none _).symm
        parked := fun _ _ h => absurd rfl h
        claims := fun _ h => by cases h
        fresh := fun _ h => by cases h
        adopted := fun _ h => by cases h
        strangers := fun m eq notInit x known => by
          cases eq
          exact strangers notInit x known
        mine := fun x eq => by
          cases eq
          rfl
        current := fun cpu => by cases cpu }
    · rw [who_of c' mine, Function.update_of_ne mine]
      refine (procs.informed c' there).congr (fun _ _ => rfl) (fun _ _ => rfl) (fun _ _ _ _ => id) fun q _ => ?_
      exact Function.update_of_ne Context.noConfusion _ _
  · by_cases mine : c' = c
    · subst mine
      rw [who_c] at eq
      cases eq
    · rw [who_of c' mine] at eq
      exact table.cpus c' there c'' eq
  · by_cases mine : c' = c
    · subst mine
      rw [who_c] at runs
      cases runs
      by_contra other
      rw [who_of c'' (Ne.symm other)] at runs'
      exact idle c'' there' runs'
    · rw [who_of c' mine] at runs
      by_cases mine' : c'' = c
      · subst mine'
        rw [who_c] at runs'
        cases runs'
        exact absurd runs (idle c' there)
      · rw [who_of c'' mine'] at runs'
        exact table.apart c' there c'' there' x runs runs'
  · by_cases mine : c' = c
    · subst mine
      rw [who_c] at cpu'
      cases cpu'
    · rw [who_of c' mine] at cpu'
      rw [Function.update_of_ne mine] at has
      by_cases mine' : c'' = c
      · subst mine'
        rw [who_c] at runs
        cases runs
        have informed' := procs.informed c' there
        rcases has with claimed | current
        · exact mine (only c' there (informed'.claims p claimed).2.1)
        · exact mine (only c' there (informed'.current cpu' p current))
      · rw [who_of c'' mine'] at runs
        exact table.away c' there cpu' x has c'' there' runs
  · rcases table.running x is with ⟨c', there, runs⟩ | ⟨c', there, claimed⟩
    · refine .inl ⟨c', there, ?_⟩
      rwa [who_of c' ?_]
      rintro rfl
      rw [self] at runs
      cases runs
    · by_cases mine : c' = c
      · subst mine
        cases claims.symm.trans claimed
        exact .inl ⟨c', there, who_c⟩
      · refine .inr ⟨c', there, ?_⟩
        rwa [Function.update_of_ne mine]
  · by_cases mine : c' = c
    · subst mine
      rw [who_c] at runs
      cases runs
      rwa [Function.update_self]
    · rw [who_of c' mine] at runs
      rw [Function.update_of_ne fun eq => mine (Context.cpu.inj eq)]
      exact procs.stored.schedulers c' there x runs
  · rw [Function.update_of_ne Context.noConfusion]
    refine procs.stored.processes x (fun c' there runs => ?_) alive
    refine idle' c' there ?_
    rwa [who_of c' ?_]
    rintro rfl
    rw [self] at runs
    cases runs
  · have held_ : ∀ c', lk ∈ (Function.update view c (resumed b p) c').held → lk ∈ (view c').held := by
      intro c' held
      by_cases mine : c' = c
      · subst mine
        rw [Function.update_self] at held
        rw [switches.held]
        exact held
      · rwa [Function.update_of_ne mine] at held
    exact procs.single c' there c'' there' lk (held_ c' held') (held_ c'' held'')

/-- A switch back to the scheduler. -/
theorem swtch_back {rest : K Unit} (mine : who c = .proc p) (switches : (view c).Switches p)
    (parked : (view c).parked ≠ none)
    (safe : (view c).parked ≠ some .zombie →
      (rules init (.proc p)).Safe rest (resumed (view c).strangers p) Done) :
    (rules init (.cpu c)).Safe (context (.cpu c)) (resumed (fun _ => False) p) Done ∧
      Procs n init forkret state parent (Function.update context (.proc p) rest)
        (Function.update who c (.cpu c)) (Function.update view c (resumed (fun _ => False) p)) := by
  have informed := procs.informed c here
  have table := procs.table
  have own := informed.own p mine
  have who_c : Function.update who c (.cpu c) c = .cpu c := Function.update_self ..
  have who_of : ∀ c', c' ≠ c → Function.update who c (.cpu c) c' = who c' :=
    fun c' other => Function.update_of_ne other _ _
  have stopped : state p ≠ .running := by
    cases eq : (view c).parked with
    | none => exact absurd eq parked
    | some st =>
      rw [eq] at own
      rw [own]
      exact fun running => informed.stops (eq.trans (congrArg some running))
  have was : ∀ c' < n, ∀ x, Function.update who c (.cpu c) c' = .proc x → who c' = .proc x ∧ c' ≠ c := by
    intro c' there x runs
    by_cases here' : c' = c
    · subst here'
      rw [who_c] at runs
      cases runs
    · rw [who_of c' here'] at runs
      exact ⟨runs, here'⟩
  refine ⟨procs.stored.schedulers c here p mine, {
    informed := fun c' there => ?_
    tree := procs.tree
    table := {
      cpus := fun c' there c'' eq => ?_
      apart := fun c' there c'' there' x runs runs' =>
        table.apart c' there c'' there' x (was c' there x runs).1 (was c'' there' x runs').1
      away := fun c' there cpu' x has c'' there' runs => ?_
      running := fun x is => ?_ }
    stored := {
      schedulers := fun c' there x runs => ?_
      processes := fun x idle' alive => ?_ }
    single := fun c' there c'' there' lk held' held'' => ?_ }⟩
  · by_cases here' : c' = c
    · subst here'
      rw [who_c, Function.update_self]
      exact {
        knows := fun _ _ h => by cases h
        own := fun _ eq => by cases eq
        stops := (Option.some_ne_none _).symm
        parked := fun _ eq => by cases eq
        claims := fun _ h => by cases h
        fresh := fun _ h => by cases h
        adopted := fun _ h => by cases h
        strangers := fun _ eq => by cases eq
        mine := fun _ eq => by cases eq
        current := fun _ x current => by
          cases current
          exact List.mem_cons_self }
    · rw [who_of c' here', Function.update_of_ne here']
      refine (procs.informed c' there).congr (fun _ _ => rfl) (fun _ _ => rfl) (fun _ _ _ _ => id) fun q held' => ?_
      refine Function.update_of_ne ?_ _ _
      rintro eq
      cases eq
      have held : .proc p ∈ (view c).held := by rw [switches.held]; exact List.mem_cons_self
      exact here' (procs.single c' there c here _ held' held)
  · by_cases here' : c' = c
    · subst here'
      rw [who_c] at eq
      exact (Context.cpu.inj eq).symm
    · rw [who_of c' here'] at eq
      exact table.cpus c' there c'' eq
  · obtain ⟨ran, other⟩ := was c'' there' x runs
    by_cases here' : c' = c
    · subst here'
      rw [Function.update_self] at has
      rcases has with claimed | current
      · cases claimed
      · cases current
        exact other (table.apart c'' there' c' there p ran mine)
    · rw [who_of c' here'] at cpu'
      rw [Function.update_of_ne here'] at has
      exact table.away c' there cpu' x has c'' there' ran
  · rcases table.running x is with ⟨c', there, runs⟩ | ⟨c', there, claimed⟩
    · refine .inl ⟨c', there, ?_⟩
      rwa [who_of c' ?_]
      rintro rfl
      cases mine.symm.trans runs
      exact stopped is
    · refine .inr ⟨c', there, ?_⟩
      rwa [Function.update_of_ne ?_]
      rintro rfl
      have cpu := (informed.claims x claimed).1
      rw [mine] at cpu
      cases cpu
  · obtain ⟨runs, -⟩ := was c' there x runs
    rw [Function.update_of_ne Context.noConfusion]
    exact procs.stored.schedulers c' there x runs
  · by_cases same : x = p
    · subst same
      refine ⟨(view c).strangers, fun notInit => informed.strangers x mine notInit, ?_⟩
      rw [Function.update_self]
      refine safe fun zombie => ?_
      rw [zombie] at own
      exact alive.2 own
    · rw [Function.update_of_ne fun eq => same (Context.proc.inj eq)]
      refine procs.stored.processes x (fun c' there runs => ?_) alive
      refine idle' c' there ?_
      rwa [who_of c' ?_]
      rintro rfl
      cases mine.symm.trans runs
      exact same rfl
  · have held_ : ∀ c', lk ∈ (Function.update view c (resumed (fun _ => False) p) c').held → lk ∈ (view c').held := by
      intro c' held
      by_cases here' : c' = c
      · subst here'
        rw [Function.update_self] at held
        rw [switches.held]
        exact held
      · rwa [Function.update_of_ne here'] at held
    exact procs.single c' there c'' there' lk (held_ c' held') (held_ c'' held'')

end Procs

end AvxKernel.Sched
