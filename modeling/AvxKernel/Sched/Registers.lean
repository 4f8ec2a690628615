import AvxKernel.Sched.Runs

/-! The registers of a processor are as its code takes them to be. -/
namespace AvxKernel.Sched

open View

variable {init : Nat} {me : Context} {v w : View} {s t : Sys} {c : Nat} {forkret : K Unit}

/-- `CSR.EENTRY` is as the code takes it to be, or has never been set on a processor that
nothing interrupts. -/
def Cpu.Enters (cpu : Cpu) (entry : Eentry) : Prop :=
  cpu.eentry = entry ∨ entry = .kernelvec ∧ cpu.eentry = .unset ∧ cpu.lie = false

theorem Cpu.Enters.of_eq {cpu : Cpu} {entry entry' : Eentry} (enters : cpu.Enters entry)
    (eq : entry = entry') : cpu.Enters entry' := eq ▸ enters

/-- Where traps do come, the register is set. -/
theorem Cpu.Enters.exact {cpu : Cpu} {entry : Eentry} (enters : cpu.Enters entry)
    (traps : cpu.lie = true ∨ entry = .uservec) : cpu.eentry = entry := by
  rcases enters with eq | ⟨kernel, -, closed⟩
  · exact eq
  · rcases traps with lie | user
    · cases lie.symm.trans closed
    · cases user.symm.trans kernel

structure Agrees (cpu : Cpu) (me : Context) (v : View) : Prop where
  ie : cpu.ie = v.ie
  plv : cpu.plv = if v.user then .user else .kernel
  prmd : ∀ x, v.prmd = some x → cpu.prmd = x
  eentry : cpu.Enters v.eentry
  noff : cpu.noff = v.noff
  intena : ∀ b, v.intena = some b → cpu.intena = b
  proc : cpu.proc = v.proc
  quiet : v.ie = true → v.user = false → v = calm me v.strangers
  inUser : v.user = true → ∃ p, me = .proc p ∧ v = inUser v.strangers p

/-- With interrupts off only the registers count. -/
theorem Agrees.off {cpu : Cpu} (agrees : Agrees cpu me v) (off : v.ie = false) (same : w.toRegs = v.toRegs) :
    Agrees cpu me w := by
  have regs : ∀ {α : Type} (f : Regs → α), f w.toRegs = f v.toRegs := fun f => congrArg f same
  have kernel : v.user = false := by
    by_contra user
    rw [Bool.not_eq_false] at user
    obtain ⟨p, -, eq⟩ := agrees.inUser user
    rw [eq] at off
    cases off
  exact {
    ie := agrees.ie.trans (regs Regs.ie).symm
    plv := by rw [regs Regs.user]; exact agrees.plv
    prmd := by rw [regs Regs.prmd]; exact agrees.prmd
    eentry := agrees.eentry.of_eq (regs Regs.eentry).symm
    noff := agrees.noff.trans (regs Regs.noff).symm
    intena := by rw [regs Regs.intena]; exact agrees.intena
    proc := agrees.proc.trans (regs Regs.proc).symm
    quiet := fun on => absurd ((regs Regs.ie).symm.trans on) (by rw [off]; decide)
    inUser := fun user => absurd ((regs Regs.user).symm.trans user) (by rw [kernel]; decide) }

theorem Agrees.strangers {cpu : Cpu} (agrees : Agrees cpu me v) (b : Nat → Prop) :
    Agrees cpu me { v with strangers := b } :=
  { agrees with
    quiet := fun on kernel => congrArg (fun u : View => { u with strangers := b }) (agrees.quiet on kernel)
    inUser := fun user => by
      obtain ⟨p, mine, eq⟩ := agrees.inUser user
      exact ⟨p, mine, congrArg (fun u : View => { u with strangers := b }) eq⟩ }

/-- Where a lock is held, interrupts are off. -/
theorem Agrees.held_off {cpu : Cpu} {lk : Lock} (agrees : Agrees cpu me v) (kernel : v.user = false)
    (held : lk ∈ v.held) : v.ie = false := by
  by_contra on
  rw [Bool.not_eq_false] at on
  rw [agrees.quiet on kernel] at held
  exact List.not_mem_nil held

theorem Agrees.half_off {cpu : Cpu} {lk : Lock} (agrees : Agrees cpu me v) (kernel : v.user = false)
    (half : v.half = some lk) : v.ie = false := by
  by_contra on
  rw [Bool.not_eq_false] at on
  rw [agrees.quiet on kernel] at half
  cases half

theorem Sys.setCpu_self (f : Cpu → Cpu) : (s.setCpu c f).cpu c = f (s.cpu c) := Function.update_self ..

theorem Sys.setCpu_of_ne {c' : Nat} (other : c' ≠ c) (f : Cpu → Cpu) : (s.setCpu c f).cpu c' = s.cpu c' :=
  Function.update_of_ne other _ _

/-- An operation of one processor leaves the registers of the others. -/
theorem Does.other {o : Op} {r : o.Res} {c' : Nat} (does : s.Does forkret c o r t) (other : c' ≠ c) :
    t.cpu c' = s.cpu c' := by
  cases o
  case intr_off | intr_on | set_prmd | set_eentry | ertn | set_noff | set_intena | set_cpu_proc =>
    rw [show t = _ from does]
    exact Sys.setCpu_of_ne other _
  case intr_get | prmd | cpuid | noff | intena | cpu_proc | locked | cpu_is | state | chan | killed | parent | load =>
    rw [show t = s from does.2]
  case test_and_set =>
    rw [show t = _ from does.2]
    rfl
  case choose => rw [show t = s from does]
  case set_cpu | clear_cpu | sync_release | set_state | set_chan | set_killed | set_parent =>
    rw [show t = _ from does]
    rfl
  case set_context | store => rw [show t = _ from does]
  case swtch_to | swtch_back | panic | fault => exact does.elim

/-- Back in the kernel. -/
theorem Agrees.returns {cpu : Cpu} (agrees : Agrees cpu me v) (prmd : v.prmd = some ⟨.kernel, true⟩)
    (quiet : v.enabled = calm me v.strangers) :
    Agrees { cpu with plv := cpu.prmd.pplv, ie := cpu.prmd.pie } me (Next me v .ertn ()) := by
  have regs : ∀ {α : Type} (f : View → α), f v.enabled = f (calm me v.strangers) := fun f => congrArg f quiet
  have back : Next me v .ertn () = calm me v.strangers := by
    have kernel : decide (v.prmd = some ⟨.user, true⟩) = false := by rw [prmd]; decide
    change ({ v.enabled with user := decide (v.prmd = some ⟨.user, true⟩) } : View) = _
    rw [kernel, quiet]
    rfl
  rw [back, agrees.prmd _ prmd]
  exact {
    ie := rfl
    plv := rfl
    prmd := fun _ h => by cases h
    eentry := agrees.eentry.of_eq (regs fun u => u.eentry)
    noff := agrees.noff.trans (regs fun u => u.noff)
    intena := fun _ h => by cases h
    proc := agrees.proc.trans (regs fun u => u.proc)
    quiet := fun _ _ => rfl
    inUser := fun user => by cases user }

/-- Out to user mode. -/
theorem Agrees.leaves {cpu : Cpu} {p : Nat} (agrees : Agrees cpu me v) (mine : me = .proc p)
    (prmd : v.prmd = some ⟨.user, true⟩) (quiet : { v.enabled with user := true } = View.inUser v.strangers p) :
    Agrees { cpu with plv := cpu.prmd.pplv, ie := cpu.prmd.pie } me (Next me v .ertn ()) := by
  have regs : ∀ {α : Type} (f : View → α), f { v.enabled with user := true } = f (View.inUser v.strangers p) :=
    fun f => congrArg f quiet
  have out : Next me v .ertn () = View.inUser v.strangers p := by
    have user : decide (v.prmd = some ⟨.user, true⟩) = true := decide_eq_true prmd
    change ({ v.enabled with user := decide (v.prmd = some ⟨.user, true⟩) } : View) = _
    rw [user, quiet]
  rw [out, agrees.prmd _ prmd]
  exact {
    ie := rfl
    plv := rfl
    prmd := fun _ h => by cases h
    eentry := agrees.eentry.of_eq (regs fun u => u.eentry)
    noff := agrees.noff.trans (regs fun u => u.noff)
    intena := fun _ h => by cases h
    proc := agrees.proc.trans (regs fun u => u.proc)
    quiet := fun _ kernel => by cases kernel
    inUser := fun _ => ⟨p, mine, rfl⟩ }

/-- The registers stay as the code takes them to be. -/
theorem Agrees.step {o : Op} {r : o.Res} (agrees : Agrees (s.cpu c) me v) (kernel : v.user = false)
    (allowed : Allowed init me v o) (does : s.Does forkret c o r t) :
    Agrees (t.cpu c) me (Next me v o r) := by
  have plv : (s.cpu c).plv = .kernel := by
    have := agrees.plv
    rwa [kernel] at this
  have notUser : ∀ {P : Prop}, v.user = true → P := fun user => by rw [kernel] at user; cases user
  cases o
  case intr_get | prmd | cpuid | noff | intena | cpu_proc | locked | cpu_is | chan | killed | load =>
    rw [show t = s from does.2]
    exact agrees
  case choose =>
    rw [show t = s from does]
    exact agrees
  case store | set_chan | set_killed =>
    rw [show t = _ from does]
    exact agrees
  case intr_off =>
    rw [show t = _ from does, Sys.setCpu_self]
    exact { agrees with
      ie := rfl
      quiet := fun on => by cases on
      inUser := notUser }
  case intr_on =>
    rw [show t = _ from does, Sys.setCpu_self]
    exact { agrees with
      ie := rfl
      prmd := fun _ h => by cases h
      intena := fun _ h => by cases h
      quiet := fun _ _ => allowed
      inUser := notUser }
  case set_prmd x =>
    rw [show t = _ from does, Sys.setCpu_self]
    exact { agrees with
      prmd := fun _ h => Option.some.inj h
      quiet := fun on => absurd (allowed.symm.trans on) (by decide)
      inUser := notUser }
  case set_eentry entry =>
    rw [show t = _ from does, Sys.setCpu_self]
    exact { agrees with
      eentry := .inl rfl
      quiet := fun on => absurd (allowed.symm.trans on) (by decide)
      inUser := notUser }
  case set_noff m =>
    rw [show t = _ from does, Sys.setCpu_self]
    exact { agrees with
      noff := rfl
      quiet := fun on => absurd (allowed.symm.trans on) (by decide)
      inUser := notUser }
  case set_intena b =>
    rw [show t = _ from does, Sys.setCpu_self]
    exact { agrees with
      intena := fun _ h => Option.some.inj h
      quiet := fun on => absurd (allowed.symm.trans on) (by decide)
      inUser := notUser }
  case set_cpu_proc p =>
    rw [show t = _ from does, Sys.setCpu_self]
    refine { agrees with proc := rfl, quiet := fun on _ => ?_, inUser := notUser }
    obtain ⟨cpu, none | ⟨off, -⟩⟩ := allowed
    · subst none
      have same := agrees.quiet on kernel
      have proc : v.proc = none := (congrArg (fun u : View => u.proc) same).trans cpu
      change ({ v with proc := none } : View) = calm me v.strangers
      rw [← proc]
      exact same
    · exact absurd (off.symm.trans on) (by decide)
  case ertn =>
    rw [show t = _ from does, Sys.setCpu_self]
    obtain ⟨-, ⟨prmd, quiet⟩ | ⟨prmd, p, mine, quiet⟩⟩ := allowed
    · exact agrees.returns prmd quiet
    · exact agrees.leaves mine prmd quiet
  case state p =>
    rw [show t = s from does.2]
    change Agrees (s.cpu c) me (if .proc p ∈ v.held then _ else v)
    split
    · exact agrees.off (agrees.held_off kernel ‹_›) rfl
    · exact agrees
  case test_and_set lk =>
    rw [show t = _ from does.2]
    exact agrees.off allowed.1 rfl
  case set_cpu lk | sync_release lk =>
    rw [show t = _ from does]
    exact agrees.off (agrees.half_off kernel allowed) rfl
  case clear_cpu lk =>
    rw [show t = _ from does]
    exact agrees.off (agrees.held_off kernel allowed.1) rfl
  case set_state | set_parent | set_context =>
    rw [show t = _ from does]
    exact agrees.off (agrees.held_off kernel allowed.1) rfl
  case parent p =>
    rw [show t = s from does.2]
    exact agrees.strangers _
  case swtch_to | swtch_back | panic | fault => exact does.elim

/-! ### Traps -/

theorem Agrees.interrupted {code : K Unit} (agrees : Agrees (s.cpu c) me v) (on : v.ie = true)
    (kernel : v.user = false) :
    Agrees ((s.trap c code).cpu c) me (trapped me v.strangers none (some ⟨.kernel, true⟩)) := by
  have regs : ∀ {α : Type} (f : View → α), f v = f (calm me v.strangers) :=
    fun f => congrArg f (agrees.quiet on kernel)
  have plv : (s.cpu c).plv = .kernel := by
    have := agrees.plv
    rwa [kernel] at this
  have was : Prmd.mk (s.cpu c).plv (s.cpu c).ie = ⟨.kernel, true⟩ := by rw [plv, agrees.ie, on]
  unfold Sys.trap
  rw [Sys.setCpu_self, was]
  exact {
    ie := rfl
    plv := rfl
    prmd := fun _ h => Option.some.inj h
    eentry := agrees.eentry.of_eq (regs fun u => u.eentry)
    noff := agrees.noff.trans (regs fun u => u.noff)
    intena := fun _ h => by cases h
    proc := agrees.proc.trans (regs fun u => u.proc)
    quiet := fun on => by cases on
    inUser := fun user => by cases user }

theorem Agrees.entered {code : K Unit} {p : Nat} (agrees : Agrees (s.cpu c) (.proc p) v)
    (user : v = View.inUser v.strangers p) :
    Agrees ((s.trap c code).cpu c) (.proc p) (View.entered v.strangers p) := by
  have regs : ∀ {α : Type} (f : View → α), f v = f (View.inUser v.strangers p) := fun f => congrArg f user
  have plv : (s.cpu c).plv = .user := by
    have := agrees.plv
    rwa [regs fun u => u.user] at this
  have was : Prmd.mk (s.cpu c).plv (s.cpu c).ie = ⟨.user, true⟩ := by
    rw [plv, agrees.ie, regs fun u => u.ie]
    rfl
  unfold Sys.trap
  rw [Sys.setCpu_self, was]
  exact {
    ie := rfl
    plv := rfl
    prmd := fun _ h => Option.some.inj h
    eentry := agrees.eentry.of_eq (regs fun u => u.eentry)
    noff := agrees.noff.trans (regs fun u => u.noff)
    intena := fun _ h => by cases h
    proc := agrees.proc.trans (regs fun u => u.proc)
    quiet := fun on => by cases on
    inUser := fun user => by cases user }

/-! ### Switches -/

/-- The code that is switched to finds the registers as they were left. -/
theorem Agrees.switched {cpu : Cpu} {me' : Context} {p : Nat} {code : K Unit} (b : Nat → Prop)
    (agrees : Agrees cpu me v) (kernel : v.user = false) (switches : v.Switches p) :
    Agrees { cpu with code } me' (resumed b p) where
  ie := agrees.ie.trans switches.ie
  plv := by
    have := agrees.plv
    rwa [kernel] at this
  prmd _ h := by cases h
  eentry := agrees.eentry.of_eq switches.eentry
  noff := agrees.noff.trans switches.noff
  intena _ h := by cases h
  proc := agrees.proc.trans switches.proc
  quiet on := by cases on
  inUser user := by cases user

end AvxKernel.Sched
