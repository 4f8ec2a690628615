import AvxKernel.Sched.Processes

/-! The invariant of the machine: what each processor runs keeps to the rules from what it
knows, and what it knows is so. Every step of every processor keeps it. -/
namespace AvxKernel.Sched

open Rules (Safe)
open Proc (ProcState Chan)
open View

variable {names : Names} {n : Nat} {who : Nat → Context} {view : Nat → View} {s t : Sys} {c p : Nat}
  {calls : Nat → Cause → Prop}

structure Good (names : Names) (n : Nat) (s : Sys) (who : Nat → Context) (view : Nat → View) : Prop where
  regs : ∀ c < n, Agrees (s.cpu c) (who c) (view c)
  locks : Locks n view s.lock s.inside
  procs : Procs n names.initproc (forkret names) s.states s.parents s.context who view
  spared : (s.proc names.initproc).killed = false
  code : ∀ c < n, (rules names.initproc (who c)).Safe (s.cpu c).code (view c) Done

theorem Locks.single {inside : Lock → List Nat} {lock : Lock → Spinlock} (locks : Locks n view lock inside) :
    Single n view := by
  intro c here c' there lk held held'
  have is := locks.each lk
  generalize lock lk = l, inside lk = i at is
  cases is with
  | free untaken => exact absurd (.inl held) (untaken c here)
  | half _ _ only => exact (only c here (.inl held)).trans (only c' there (.inl held')).symm
  | held _ _ only => exact (only c here (.inl held)).trans (only c' there (.inl held')).symm

theorem Sys.states_setProc (s : Sys) (p : Nat) (f : Slot → Slot) :
    (s.setProc p f).states = Function.update s.states p (f (s.proc p)).state := by
  funext q
  change (Function.update s.proc p (f (s.proc p)) q).state = _
  by_cases same : q = p
  · subst same
    rw [Function.update_self, Function.update_self]
  · rw [Function.update_of_ne same, Function.update_of_ne same]
    rfl

theorem Sys.parents_setProc (s : Sys) (p : Nat) (f : Slot → Slot) :
    (s.setProc p f).parents = Function.update s.parents p (f (s.proc p)).parent := by
  funext q
  change (Function.update s.proc p (f (s.proc p)) q).parent = _
  by_cases same : q = p
  · subst same
    rw [Function.update_self, Function.update_self]
  · rw [Function.update_of_ne same, Function.update_of_ne same]
    rfl

theorem Sys.same_states {f : Slot → Slot} (same : ∀ x, (f x).state = x.state) :
    (s.setProc p f).states = s.states := by
  rw [Sys.states_setProc, same]
  exact Function.update_eq_self p s.states

theorem Sys.same_parents {f : Slot → Slot} (same : ∀ x, (f x).parent = x.parent) :
    (s.setProc p f).parents = s.parents := by
  rw [Sys.parents_setProc, same]
  exact Function.update_eq_self p s.parents

/-- An operation has a result that the code reckons with. -/
theorem Good.possible {o : Op} {r : o.Res} (good : Good names n s who view) (here : c < n)
    (does : s.Does (forkret names) c o r t) : Possible names.initproc (who c) (view c) o r := by
  have regs := good.regs c here
  have informed := good.procs.informed c here
  cases o
  case intr_get => exact does.1.trans regs.ie
  case prmd => exact fun x known => does.1.trans (regs.prmd x known)
  case noff => exact does.1.trans regs.noff
  case intena => exact fun b known => does.1.trans (regs.intena b known)
  case cpu_proc => exact does.1.trans regs.proc
  case locked lk =>
    intro held
    rw [does.1, (good.locks.of_held here held).1]
  case cpu_is lk =>
    change r = true ↔ _
    rw [does.1, good.locks.held_iff here]
    exact decide_eq_true_iff
  case state p =>
    have read : r = s.states p := does.1
    exact ⟨fun st known => read.trans (informed.knows p st known).2, fun mine => read.trans (informed.own p mine)⟩
  case killed p =>
    rintro rfl
    exact does.1.trans good.spared
  case parent p =>
    have read : r = s.parents p := does.1
    have tree := good.procs.tree
    refine ⟨fun q eq => ?_, fun m mine notInit => ⟨fun stranger => ?_, fun own none => ?_⟩⟩
    · obtain ⟨apart, notInit, -⟩ := tree.family p q (read.symm.trans eq)
      exact ⟨apart, notInit⟩
    · rw [read]
      exact informed.strangers m mine notInit p stranger
    · subst own
      have running := informed.own m mine
      rw [none] at running
      rw [read]
      exact tree.orphan m (by rw [running]; exact ⟨by decide, by decide⟩) notInit
  case swtch_to | swtch_back | panic | fault => exact does.elim
  all_goals trivial

/-- What the processors know of processes stays so. -/
theorem Good.procs_step {o : Op} {r : o.Res} (good : Good names n s who view) (kept : Kept names calls) (here : c < n)
    (allowed : Allowed names.initproc (who c) (view c) o) (does : s.Does (forkret names) c o r t) :
    Procs n names.initproc (forkret names) t.states t.parents t.context who
      (Function.update view c (Next (who c) (view c) o r)) := by
  have procs := good.procs
  have informed := procs.informed c here
  have single := (good.locks.step here allowed does).single
  have same := fun w informed => procs.see (w := w) here informed
  have proc : (who c).process = none → ∀ p, (view c).proc = some p →
      (view c).claims = some p ∨ (view c).proc = some p := fun _ _ => .inr
  cases o
  case intr_get | prmd | cpuid | noff | intena | cpu_proc | locked | cpu_is | chan | killed | load =>
    rw [show t = s from does.2]
    exact same _ informed rfl proc single
  case choose =>
    rw [show t = s from does]
    exact same _ informed rfl proc single
  case intr_off | intr_on | set_prmd | set_eentry | ertn | set_noff | set_intena | store =>
    rw [show t = _ from does]
    exact same _ { informed with } rfl proc single
  case set_cpu_proc p =>
    rw [show t = _ from does]
    obtain ⟨cpu, which⟩ := allowed
    have claimed : ∀ x, p = some x → (view c).claims = some x := by
      rintro x rfl
      rcases which with none | ⟨-, eq⟩
      · cases none
      · exact eq.symm
    refine same _ ?_ rfl (fun _ x eq => .inl (claimed x eq)) single
    exact { informed with
      mine := fun x mine => by
        rw [mine] at cpu
        cases cpu
      current := fun _ x eq => (informed.claims x (claimed x eq)).2.1 }
  case test_and_set lk =>
    rw [show t = _ from does.2]
    exact same _ { informed with } rfl proc single
  case set_cpu lk =>
    rw [show t = _ from does]
    exact same _ (informed.grow (fun _ => List.mem_cons_of_mem _) rfl) rfl proc single
  case clear_cpu lk =>
    rw [show t = _ from does]
    exact same _ (informed.drop allowed.2.2) rfl proc single
  case sync_release lk =>
    rw [show t = _ from does]
    exact same _ { informed with } rfl proc single
  case state p =>
    obtain ⟨rfl, rfl⟩ := does
    change Procs n _ _ _ _ _ _ (Function.update view c (if .proc p ∈ (view c).held then _ else view c))
    change Single n (Function.update view c (if .proc p ∈ (view c).held then _ else view c)) at single
    split
    · rw [if_pos ‹_›] at single
      exact same _ (informed.read ‹_›) rfl proc single
    · rw [if_neg ‹_›] at single
      exact same _ informed rfl proc single
  case set_state p st =>
    rw [show t = _ from does]
    rw [Sys.states_setProc, Sys.same_parents]
    · exact procs.set_state here allowed.1 allowed.2 (fun q b => forkret_safe (kept.boot q)) single
    · exact fun _ => rfl
  case set_chan p ch =>
    rw [show t = _ from does]
    rw [Sys.same_states, Sys.same_parents]
    · exact same _ informed rfl proc single
    · exact fun _ => rfl
    · exact fun _ => rfl
  case set_killed p b =>
    rw [show t = _ from does]
    rw [Sys.same_states, Sys.same_parents]
    · exact same _ informed rfl proc single
    · exact fun _ => rfl
    · exact fun _ => rfl
  case parent p =>
    obtain ⟨read, rfl⟩ := does
    refine same _ ?_ rfl proc single
    exact { informed with
      strangers := fun m mine notInit x known => by
        rcases known with known | ⟨rfl, other⟩ | ⟨own, eq⟩
        · exact informed.strangers m mine notInit x known
        · rw [mine, read] at other
          exact other
        · cases mine.symm.trans own
          exact (procs.tree.family p x (read.symm.trans eq)).2.2.2.1 }
  case set_parent p q =>
    rw [show t = _ from does]
    rw [Sys.same_states, Sys.parents_setProc]
    · exact procs.set_parent here allowed.1 allowed.2.1 allowed.2.2 single
    · exact fun _ => rfl
  case set_context p =>
    rw [show t = _ from does]
    exact procs.set_context here allowed.1 allowed.2 single
  case swtch_to | swtch_back | panic | fault => exact does.elim

theorem Sys.killed_setProc {f : Slot → Slot} (q : Nat) (same : (f (s.proc p)).killed = (s.proc p).killed) :
    ((s.setProc p f).proc q).killed = (s.proc q).killed := by
  change (Function.update s.proc p (f (s.proc p)) q).killed = _
  by_cases here : q = p
  · subst here
    rw [Function.update_self, same]
  · rw [Function.update_of_ne here]

/-- The first process is never killed. -/
theorem Good.spared_step {o : Op} {r : o.Res} (good : Good names n s who view)
    (allowed : Allowed names.initproc (who c) (view c) o) (does : s.Does (forkret names) c o r t) :
    (t.proc names.initproc).killed = false := by
  cases o
  case set_killed p b =>
    rw [show t = _ from does]
    change (Function.update s.proc p { s.proc p with killed := b } names.initproc).killed = false
    by_cases same : names.initproc = p
    · subst same
      rw [Function.update_self]
      exact Bool.eq_false_iff.mpr fun signal => allowed signal rfl
    · rw [Function.update_of_ne same]
      exact good.spared
  case set_state | set_chan | set_parent =>
    rw [show t = _ from does]
    exact (Sys.killed_setProc _ rfl).trans good.spared
  case intr_get | prmd | cpuid | noff | intena | cpu_proc | locked | cpu_is | state | chan | killed | parent | load =>
    rw [show t = s from does.2]
    exact good.spared
  case test_and_set =>
    rw [show t = _ from does.2]
    exact good.spared
  case swtch_to | swtch_back | panic | fault => exact does.elim
  all_goals
    rw [show t = _ from does]
    exact good.spared

theorem Agrees.recode {cpu : Cpu} {me : Context} {v : View} (agrees : Agrees cpu me v) (code : K Unit) :
    Agrees { cpu with code } me v :=
  { agrees with }

theorem Sys.setCode_self (s : Sys) (c : Nat) (code : K Unit) :
    (s.setCode c code).cpu c = { s.cpu c with code } := Function.update_self ..

theorem Sys.setCode_of_ne {c' : Nat} (other : c' ≠ c) (code : K Unit) : (s.setCode c code).cpu c' = s.cpu c' :=
  Function.update_of_ne other _ _

/-- An operation of one processor. -/
theorem Good.op {o : Op} {rest : o.Res → K Unit} {r : o.Res} (good : Good names n s who view)
    (kept : Kept names calls) (here : c < n) (code : (s.cpu c).code = .op o rest)
    (does : s.Does (forkret names) c o r t) :
    Good names n (t.setCode c (rest r)) who (Function.update view c (Next (who c) (view c) o r)) := by
  have safe := good.code c here
  rw [code] at safe
  obtain ⟨⟨kernel, allowed⟩, safe⟩ := safe
  have possible := good.possible here does
  have locks := good.locks.step here allowed does
  have procs := good.procs_step kept here allowed does
  have spared := good.spared_step allowed does
  exact {
    regs := fun c' there => by
      by_cases mine : c' = c
      · subst mine
        rw [Sys.setCode_self, Function.update_self]
        exact ((good.regs c' there).step kernel allowed does).recode _
      · rw [Sys.setCode_of_ne mine, Does.other does mine, Function.update_of_ne mine]
        exact good.regs c' there
    locks
    procs
    spared
    code := fun c' there => by
      by_cases mine : c' = c
      · subst mine
        rw [Sys.setCode_self, Function.update_self]
        exact safe r possible
      · rw [Sys.setCode_of_ne mine, Does.other does mine, Function.update_of_ne mine]
        exact good.code c' there }

/-- The code of one processor becomes another that is as safe. -/
theorem Good.recode {code : K Unit} (good : Good names n s who view)
    (safe : (rules names.initproc (who c)).Safe code (view c) Done) :
    Good names n (s.setCode c code) who view :=
  { good with
    regs := fun c' there => by
      by_cases mine : c' = c
      · subst mine
        rw [Sys.setCode_self]
        exact (good.regs c' there).recode code
      · rw [Sys.setCode_of_ne mine]
        exact good.regs c' there
    code := fun c' there => by
      by_cases mine : c' = c
      · subst mine
        rw [Sys.setCode_self]
        exact safe
      · rw [Sys.setCode_of_ne mine]
        exact good.code c' there }

/-! ### Switches -/

/-- The locks stay with the processor. -/
theorem Locks.switched {w : View} (locks : Locks n view s.lock s.inside) (held : w.held = (view c).held)
    (half : w.half = (view c).half) : Locks n (Function.update view c w) s.lock s.inside := by
  refine locks.congr (fun c' _ => ?_) fun c' _ => ?_
  · by_cases mine : c' = c
    · subst mine
      rw [Function.update_self, held]
    · rw [Function.update_of_ne mine]
  · by_cases mine : c' = c
    · subst mine
      rw [Function.update_self, half]
    · rw [Function.update_of_ne mine]

/-- The processor goes on with other code, which finds what it knows. -/
theorem Good.switched {old new me : Context} {rest : K Unit} {b : Nat → Prop}
    (good : Good names n s who view) (here : c < n) (switches : (view c).Switches p)
    (kernel : (view c).user = false)
    (procs : Procs n names.initproc (forkret names) s.states s.parents
      (Function.update s.context old rest) (Function.update who c me) (Function.update view c (resumed b p)))
    (safe : (rules names.initproc me).Safe (s.context new) (resumed b p) Done) :
    Good names n (s.swtch c old new rest) (Function.update who c me)
      (Function.update view c (resumed b p)) where
  regs c' there := by
    by_cases mine : c' = c
    · subst mine
      rw [Function.update_self, Function.update_self]
      change Agrees ((s.setCode c' (s.context new)).cpu c') me (resumed b p)
      rw [Sys.setCode_self]
      exact (good.regs c' there).switched b kernel switches
    · rw [Function.update_of_ne mine, Function.update_of_ne mine]
      change Agrees ((s.setCode c (s.context new)).cpu c') _ _
      rw [Sys.setCode_of_ne mine]
      exact good.regs c' there
  locks := good.locks.switched switches.held.symm switches.half.symm
  procs := procs
  spared := good.spared
  code c' there := by
    by_cases mine : c' = c
    · subst mine
      rw [Function.update_self, Function.update_self]
      change (rules names.initproc me).Safe ((s.setCode c' (s.context new)).cpu c').code (resumed b p) Done
      rw [Sys.setCode_self]
      exact safe
    · rw [Function.update_of_ne mine, Function.update_of_ne mine]
      change (rules names.initproc (who c')).Safe ((s.setCode c (s.context new)).cpu c').code _ _
      rw [Sys.setCode_of_ne mine]
      exact good.code c' there

theorem Good.swtch_to {rest : Unit → K Unit} (good : Good names n s who view) (here : c < n)
    (code : (s.cpu c).code = .op (.swtch_to p) rest) :
    ∃ who' view', Good names n (s.swtch c (.cpu c) (.proc p) (rest ())) who' view' := by
  have safe := good.code c here
  rw [code] at safe
  obtain ⟨⟨kernel, cpu, switches, claims⟩, safe⟩ := safe
  have later := safe () trivial
  rw [good.procs.who_cpu here cpu] at later
  obtain ⟨b, resumable, procs⟩ := good.procs.swtch_to here cpu switches claims later
  exact ⟨_, _, good.switched here switches kernel procs resumable⟩

theorem Good.swtch_back {rest : Unit → K Unit} (good : Good names n s who view) (here : c < n)
    (code : (s.cpu c).code = .op (.swtch_back p) rest) :
    ∃ who' view', Good names n (s.swtch c (.proc p) (.cpu c) (rest ())) who' view' := by
  have safe := good.code c here
  rw [code] at safe
  obtain ⟨⟨kernel, mine, switches, parked⟩, safe⟩ := safe
  have later := fun alive => safe () alive
  rw [mine] at later
  obtain ⟨resumable, procs⟩ := good.procs.swtch_back here mine switches parked later
  exact ⟨_, _, good.switched here switches kernel procs resumable⟩

/-! ### Traps -/

theorem Sys.trap_self (s : Sys) (c : Nat) (code : K Unit) :
    ((s.trap c code).cpu c).code = code := congrArg Cpu.code (Sys.setCpu_self _)

theorem Sys.trap_of_ne {c' : Nat} (other : c' ≠ c) (code : K Unit) : (s.trap c code).cpu c' = s.cpu c' :=
  Sys.setCpu_of_ne other _

/-- A trap changes registers and code only. -/
theorem Good.trapped {code : K Unit} {w : View} (good : Good names n s who view) (here : c < n)
    (own : w.toOwn = (view c).toOwn) (proc : w.proc = (view c).proc)
    (regs : Agrees ((s.trap c code).cpu c) (who c) w)
    (safe : (rules names.initproc (who c)).Safe code w Done) :
    Good names n (s.trap c code) who (Function.update view c w) where
  regs c' there := by
    by_cases mine : c' = c
    · subst mine
      rwa [Function.update_self]
    · rw [Sys.trap_of_ne mine, Function.update_of_ne mine]
      exact good.regs c' there
  locks := good.locks.switched (congrArg Own.held own) (congrArg Own.half own)
  procs := by
    have informed := good.procs.informed c here
    have same : w = { view c with toRegs := w.toRegs } := congrArg (View.mk w.toRegs) own
    have locks := good.locks.switched (w := w) (congrArg Own.held own) (congrArg Own.half own)
    refine good.procs.see here ?_ (congrArg Own.claims own) (fun _ p h => .inr (proc.symm.trans h)) locks.single
    rw [same]
    exact { informed with
      mine := fun p h => proc.trans (informed.mine p h)
      current := fun h p h' => informed.current h p (proc.symm.trans h') }
  spared := good.spared
  code c' there := by
    by_cases mine : c' = c
    · subst mine
      rw [Sys.trap_self, Function.update_self]
      exact safe
    · rw [Sys.trap_of_ne mine, Function.update_of_ne mine]
      exact good.code c' there

/-- A trap in user mode. -/
theorem Good.entered (good : Good names n s who view) (kept : Kept names calls) (here : c < n)
    (user : (view c).user = true) {cause : Cause}
    (disciplined : ∀ p, who c = .proc p → cause.Disciplined names.initproc p) :
    ∃ view', Good names n (s.trap c (vector names (s.cpu c).eentry cause (s.cpu c).code)) who view' := by
  have regs := good.regs c here
  obtain ⟨p, mine, is⟩ := regs.inUser user
  have user : (view c).eentry = .uservec := congrArg (fun u : View => u.eentry) is
  have entry : (s.cpu c).eentry = .uservec := (regs.eentry.exact (.inr user)).trans user
  have code : vector names (s.cpu c).eentry cause (s.cpu c).code = usertrap names cause := by rw [entry]; rfl
  rw [code]
  refine ⟨_, good.trapped (w := View.entered (view c).strangers p) here ?_ ?_ ?_ ?_⟩
  · exact (congrArg View.toOwn is).symm
  · exact (congrArg (fun u : View => u.proc) is).symm
  · rw [mine] at regs ⊢
    exact regs.entered is
  · rw [mine]
    exact usertrap_safe rfl (kept.closing p) cause (disciplined p mine)

/-- An interrupt. -/
theorem Good.interrupt (good : Good names n s who view) (kept : Kept names calls) (here : c < n) (irq : Irq)
    (on : (s.cpu c).ie = true) (lie : (s.cpu c).lie = true) :
    ∃ view', Good names n
      (s.trap c (vector names (s.cpu c).eentry (.interrupt irq) (s.cpu c).code)) who view' := by
  have regs := good.regs c here
  have enabled : (view c).ie = true := regs.ie.symm.trans on
  cases kernel : (view c).user with
  | true => exact good.entered kept here kernel fun _ _ => trivial
  | false =>
    have calm := regs.quiet enabled kernel
    have entry : (s.cpu c).eentry = .kernelvec :=
      (regs.eentry.exact (.inl lie)).trans (congrArg (fun u : View => u.eentry) calm)
    have safe := good.code c here
    rw [calm] at safe
    refine ⟨_, good.trapped (w := View.trapped (who c) (view c).strangers none (some ⟨.kernel, true⟩)) here ?_ ?_ ?_ ?_⟩
    · exact (congrArg View.toOwn calm).symm
    · exact (congrArg (fun u : View => u.proc) calm).symm
    · exact regs.interrupted enabled kernel
    · rw [entry]
      refine Safe.bind_of (kerneltrap_safe irq) ?_
      rintro _ _ rfl
      exact safe

/-- Every step keeps the invariant. -/
theorem Good.step (good : Good names n s who view) (kept : Kept names calls) (step : Step names n calls s t) :
    ∃ who' view', Good names n t who' view' := by
  cases step with
  | op here code does => exact ⟨_, _, good.op kept here code does⟩
  | @unroll c β γ body b rest here code =>
    have safe := good.code _ here
    rw [code] at safe
    exact ⟨_, _, good.recode safe.unroll⟩
  | swtch_to here code => exact good.swtch_to here code
  | swtch_back here code => exact good.swtch_back here code
  | interrupt irq here on lie =>
    obtain ⟨view', good⟩ := good.interrupt kept here irq on lie
    exact ⟨who, view', good⟩
  | @trap c p cause here user proc made =>
    have regs := good.regs c here
    have inUser : (view c).user = true := by
      by_contra kernel
      rw [Bool.not_eq_true] at kernel
      have plv := regs.plv
      rw [kernel, user] at plv
      cases plv
    obtain ⟨view', good⟩ := good.entered kept here inUser fun q mine => by
      have same := (good.procs.informed c here).mine q mine
      rw [← regs.proc, proc] at same
      cases same
      exact kept.calls p cause made
    exact ⟨who, view', good⟩

end AvxKernel.Sched
