import AvxKernel.Proc.Family

/-! Signals of `proc.c` and `signal.c`: sending one, and the mask. -/
namespace AvxKernel.Proc

def SIGKILL : Nat := 9
def SIGTERM : Nat := 15
def SIGSTOP : Nat := 19
def SIGRTMAX : Int := 64

/-- What of `struct proc` signals read and write. The sets are of one word each. -/
structure Entry where
  state : ProcState
  pid : Int
  killed : Int
  sig_set : BitVec 64
  sig_pending : BitVec 64

/-- `1 << sig` for an `int`, as the machine shifts it. -/
def intBit (sig : Nat) : BitVec 32 := 1 <<< (sig % 32)

/-- Made runnable if it sleeps. -/
def ProcState.wake : ProcState → ProcState
  | .sleeping => .runnable
  | state => state

/-- What `kill` does to the process it has found. -/
def Entry.kill (p : Entry) (sig : Int) : Entry :=
  { p with
    sig_pending := p.sig_pending ||| (intBit sig.toNat).signExtend 64
    killed := if p.killed = 0 ∨ sig < p.killed then sig else p.killed
    state := p.state.wake }

/-- A call returns a number and leaves the table. -/
def kill (proc : Nat → Entry) (pid sig : Int) : Int × (Nat → Entry) :=
  match (List.range NPROC).find? fun p => (proc p).pid == pid with
  | some p => (0, Function.update proc p ((proc p).kill sig))
  | none => (-1, proc)

/-- `tid` and `pid` are the second and the first argument of `sys_tgkill`. -/
def tgkill (proc : Nat → Entry) (tid _pid sig : Int) : Int × (Nat → Entry) := kill proc tid sig

def sys_kill (proc : Nat → Entry) (myproc : Nat) (pid sig : Int) : Int × (Nat → Entry) :=
  if pid ≤ 0 then
    (-1, proc)
  else if sig < 0 ∨ SIGRTMAX ≤ sig then
    (-1, proc)
  else
    let pid := (proc myproc).pid
    if sig = 0 then (0, proc) else kill proc pid sig

def sys_tgkill (proc : Nat → Entry) (pid tid sig : Int) : Int × (Nat → Entry) := tgkill proc tid pid sig

/-! ### What is asked of them -/

/-- A process that has been sent a signal. -/
def Entry.signalled (p : Entry) (sig : Int) : Entry :=
  { p with
    sig_pending := p.sig_pending ||| 1 <<< sig.toNat
    killed := if p.killed = 0 then sig else min sig p.killed
    state := p.state.wake }

/-- A process has this place and this number. -/
def Has (proc : Nat → Entry) (pid : Int) (p : Nat) : Prop :=
  p < NPROC ∧ (proc p).state ≠ .unused ∧ (proc p).pid = pid

/-- The signal goes to the process with the number, and to no other; 0 is returned if there
is one. -/
structure Delivered (proc : Nat → Entry) (pid sig : Int) (call : Int × (Nat → Entry)) : Prop where
  result : call.1 = 0 ↔ ∃ p, Has proc pid p
  sent : ∀ p, Has proc pid p → call.2 = Function.update proc p ((proc p).signalled sig)
  none : (¬∃ p, Has proc pid p) → call.2 = proc

/-- Processes have numbers of their own, which are positive. -/
structure Numbered (proc : Nat → Entry) : Prop where
  positive : ∀ p, p < NPROC → (proc p).state ≠ .unused → 0 < (proc p).pid
  apart : ∀ p q, p < NPROC → q < NPROC → 0 < (proc p).pid → (proc p).pid = (proc q).pid → p = q

/-- A place in the table as the other calls of `proc.c` know it. -/
structure Agrees (np : Slot) (p : Entry) : Prop where
  state : np.state = p.state
  pid : np.pid = p.pid
  killed : np.killed = decide (p.killed ≠ 0)

/-- What `kill` does is a step `rouse` of the table. -/
theorem Agrees.kill {np : Slot} {p : Entry} {sig : Int} (agrees : Agrees np p) (pos : 1 ≤ sig) :
    Agrees { np with killed := true, state := if np.state = .sleeping then .runnable else np.state }
      (p.kill sig) := by
  obtain ⟨state, pid, -⟩ := agrees
  refine ⟨?_, pid, ?_⟩
  · show (if np.state = .sleeping then .runnable else np.state) = p.state.wake
    rw [state]
    cases p.state <;> rfl
  · rw [eq_comm, decide_eq_true_iff, Entry.kill]
    show (if p.killed = 0 ∨ sig < p.killed then sig else p.killed) ≠ 0
    split <;> omega

/-- The table is so numbered in every state that is reached. -/
theorem Sys.Family.numbered {init : Nat} {s : Sys} {proc : Nat → Entry} (family : s.Family init)
    (agrees : ∀ p, Agrees (s.proc p) (proc p)) : Numbered proc where
  positive p _ used := by
    have pos := family.pid p fun unused => used ((agrees p).state.symm.trans unused)
    have pid := (agrees p).pid
    omega
  apart p q _ _ pos same := by
    have pid := (agrees p).pid
    have pid' := (agrees q).pid
    exact family.pid_inj p q (by omega) (by omega)

/-! ### The bit -/

/-- The bits in which the shifted `int` and the shifted `unsigned long` differ. -/
def Wrong (sig i : Nat) : Prop :=
  if sig < 31 then False
  else if sig = 31 then 32 ≤ i
  else if sig < 63 then i = sig ∨ i = sig - 32
  else 31 ≤ i ∧ i < 63

instance (sig i : Nat) : Decidable (Wrong sig i) := by
  unfold Wrong
  infer_instance

theorem intBit_eq_iff : ∀ sig < 64, ∀ i < 64,
    ((intBit sig).signExtend 64).getLsbD i = (1 <<< sig : BitVec 64).getLsbD i ↔ ¬Wrong sig i := by
  decide +kernel

/-- The right bit is set where the wrong ones were pending already. -/
theorem pending_eq_iff (pending : BitVec 64) {sig : Nat} (small : sig < 64) :
    pending ||| (intBit sig).signExtend 64 = pending ||| 1 <<< sig ↔
      ∀ i < 64, Wrong sig i → pending.getLsbD i = true := by
  rw [BitVec.eq_of_getLsbD_eq_iff]
  apply forall₂_congr
  intro i hi
  have differ := intBit_eq_iff sig small i hi
  rw [BitVec.getLsbD_or, BitVec.getLsbD_or]
  cases pending.getLsbD i with
  | true => simp
  | false => simpa using differ

/-! ### Sending -/

variable {proc : Nat → Entry} {pid sig : Int} {p me : Nat}

/-- The bits that a signal should leave alone, or set, and does not, are pending. -/
def Entry.Sets (p : Entry) (sig : Int) : Prop :=
  ∀ i < 64, Wrong sig.toNat i → p.sig_pending.getLsbD i = true

/-- The bits, and a signal no greater, have come in before, and the process is awake. -/
def Entry.Knows (p : Entry) (sig : Int) (bits : BitVec 64) : Prop :=
  p.sig_pending ||| bits = p.sig_pending ∧ p.killed ≠ 0 ∧ p.killed ≤ sig ∧ p.state ≠ .sleeping

theorem killed_eq (killed sig : Int) :
    (if killed = 0 ∨ sig < killed then sig else killed) = if killed = 0 then sig else min sig killed := by
  split <;> split <;> omega

theorem Entry.kill_eq_iff {p : Entry} (pos : 1 ≤ sig) (small : sig < SIGRTMAX) :
    p.kill sig = p.signalled sig ↔ p.Sets sig := by
  rw [SIGRTMAX] at small
  rw [Entry.Sets, ← pending_eq_iff p.sig_pending (show sig.toNat < 64 by omega), Entry.kill,
    Entry.signalled, killed_eq]
  simp

theorem ProcState.wake_eq_iff {state : ProcState} : state.wake = state ↔ state ≠ .sleeping := by
  cases state <;> decide

theorem Entry.same_iff {p : Entry} {bits : BitVec 64} (pos : 1 ≤ sig) :
    { p with
      sig_pending := p.sig_pending ||| bits
      killed := if p.killed = 0 then sig else min sig p.killed
      state := p.state.wake } = p ↔ p.Knows sig bits := by
  have least : (if p.killed = 0 then sig else min sig p.killed) = p.killed ↔ p.killed ≠ 0 ∧ p.killed ≤ sig := by
    split <;> omega
  obtain ⟨state, pid, killed, sig_set, sig_pending⟩ := p
  rw [Entry.Knows, Entry.mk.injEq, ProcState.wake_eq_iff, least]
  constructor
  · rintro ⟨awake, -, ⟨some, le⟩, -, bits⟩
    exact ⟨bits, some, le, awake⟩
  · rintro ⟨bits, some, le, awake⟩
    exact ⟨awake, rfl, ⟨some, le⟩, rfl, bits⟩

theorem Entry.kill_self_iff {p : Entry} (pos : 1 ≤ sig) :
    p.kill sig = p ↔ p.Knows sig ((intBit sig.toNat).signExtend 64) := by
  rw [Entry.kill, killed_eq]
  exact Entry.same_iff pos

theorem Entry.signalled_self_iff {p : Entry} (pos : 1 ≤ sig) :
    p.signalled sig = p ↔ p.Knows sig (1 <<< sig.toNat) := Entry.same_iff pos

theorem kill_found (found : ((List.range NPROC).find? fun p => (proc p).pid == pid) = some p) :
    p < NPROC ∧ (proc p).pid = pid ∧ kill proc pid sig = (0, Function.update proc p ((proc p).kill sig)) := by
  refine ⟨List.mem_range.mp (List.mem_of_find?_eq_some found), by simpa using List.find?_some found, ?_⟩
  rw [kill, found]

theorem kill_delivered_iff (numbered : Numbered proc) (pos : 1 ≤ sig) (small : sig < SIGRTMAX) :
    Delivered proc pid sig (kill proc pid sig) ↔
      ∀ p < NPROC, (proc p).pid = pid → (proc p).state ≠ .unused ∧ (proc p).Sets sig := by
  cases found : (List.range NPROC).find? fun p => (proc p).pid == pid with
  | none =>
    have absent : ∀ p < NPROC, (proc p).pid ≠ pid := by simpa using found
    rw [kill, found]
    refine ⟨fun _ p inside same => absurd same (absent p inside), fun _ => ⟨?_, ?_, fun _ => rfl⟩⟩
    · simp only [show ((-1 : Int) = 0) = False by decide, false_iff]
      exact fun ⟨p, inside, _, same⟩ => absent p inside same
    · exact fun p ⟨inside, _, same⟩ => absurd same (absent p inside)
  | some p =>
    obtain ⟨inside, same, run⟩ := kill_found found
    rw [run]
    -- whoever has the number is the one that is found
    have only : ∀ q, Has proc pid q → q = p := by
      rintro q ⟨inside', used, same'⟩
      exact numbered.apart q p inside' inside (numbered.positive q inside' used) (same'.trans same.symm)
    constructor
    · intro delivered q inside' same'
      obtain ⟨r, has⟩ := delivered.result.mp rfl
      obtain rfl := only r has
      have pos' := numbered.positive r has.1 has.2.1
      obtain rfl := numbered.apart r q has.1 inside' pos' (same.trans same'.symm)
      refine ⟨has.2.1, (Entry.kill_eq_iff pos small).mp ?_⟩
      have sent := congrFun (delivered.sent r has) r
      rw [Function.update_self] at sent
      exact (Function.update_self r _ proc).symm.trans sent
    · intro sets
      obtain ⟨used, sets⟩ := sets p inside same
      have has : Has proc pid p := ⟨inside, used, same⟩
      refine ⟨⟨fun _ => ⟨p, has⟩, fun _ => rfl⟩, fun q has' => ?_, fun none => absurd ⟨p, has⟩ none⟩
      rw [only q has', (Entry.kill_eq_iff pos small).mpr sets]

theorem sys_kill_delivered_iff (numbered : Numbered proc) (inside : me < NPROC)
    (used : (proc me).state ≠ .unused) (pos : 1 ≤ sig) (small : sig < SIGRTMAX) (accepted : 0 < pid) :
    Delivered proc pid sig (sys_kill proc me pid sig) ↔
      (proc me).pid = pid ∧ (proc me).Sets sig ∨
      ∃ p, p ≠ me ∧ Has proc pid p ∧ (proc p).Knows sig (1 <<< sig.toNat) ∧
        (proc me).Knows sig ((intBit sig.toNat).signExtend 64) := by
  have call : sys_kill proc me pid sig = kill proc (proc me).pid sig := by
    rw [sys_kill, if_neg (by omega), if_neg (by omega)]
    exact if_neg (by omega)
  rw [call]
  have positive := numbered.positive me inside used
  by_cases own : (proc me).pid = pid
  · have alone : ∀ p < NPROC, (proc p).pid = pid → p = me := fun p inside' same =>
      (numbered.apart me p inside inside' positive (own.trans same.symm)).symm
    rw [own, kill_delivered_iff numbered pos small]
    constructor
    · exact fun sets => .inl ⟨rfl, (sets me inside own).2⟩
    · rintro (⟨-, sets⟩ | ⟨p, other, ⟨inside', -, same⟩, -⟩)
      · intro p inside' same
        rw [alone p inside' same]
        exact ⟨used, sets⟩
      · exact absurd (alone p inside' same) other
  · have run : kill proc (proc me).pid sig = (0, Function.update proc me ((proc me).kill sig)) := by
      cases found : (List.range NPROC).find? fun p => (proc p).pid == (proc me).pid with
      | none =>
        have absent := List.find?_eq_none.mp found me (List.mem_range.mpr inside)
        simp at absent
      | some p =>
        obtain ⟨inside', same, run⟩ := @kill_found _ _ sig _ found
        obtain rfl := numbered.apart me p inside inside' positive same.symm
        exact run
    rw [run]
    constructor
    · intro delivered
      obtain ⟨p, has⟩ := delivered.result.mp rfl
      have other : p ≠ me := by
        rintro rfl
        exact own has.2.2
      have sent : Function.update proc me ((proc me).kill sig) =
        Function.update proc p ((proc p).signalled sig) := delivered.sent p has
      have there := congrFun sent p
      have here := congrFun sent me
      rw [Function.update_self, Function.update_of_ne other] at there
      rw [Function.update_self, Function.update_of_ne other.symm] at here
      exact .inr ⟨p, other, has, (Entry.signalled_self_iff pos).mp there.symm,
        (Entry.kill_self_iff pos).mp here⟩
    · rintro (⟨same, -⟩ | ⟨p, other, has, told, told'⟩)
      · exact absurd same own
      · have here : (proc me).kill sig = proc me := (Entry.kill_self_iff pos).mpr told'
        have there : (proc p).signalled sig = proc p := (Entry.signalled_self_iff pos).mpr told
        have only : ∀ q, Has proc pid q → q = p := by
          rintro q ⟨inside', used', same'⟩
          exact numbered.apart q p inside' has.1 (numbered.positive q inside' used')
            (same'.trans has.2.2.symm)
        refine ⟨⟨fun _ => ⟨p, has⟩, fun _ => rfl⟩, fun q has' => ?_, fun none => absurd ⟨p, has⟩ none⟩
        rw [only q has', here, there, Function.update_eq_self, Function.update_eq_self]

/-- Where the calls send the signal that they are asked to. -/
theorem signals_delivered_iff (numbered : Numbered proc) (inside : me < NPROC)
    (used : (proc me).state ≠ .unused) (pos : 1 ≤ sig) (small : sig < SIGRTMAX) (pid tid : Int) :
    (0 < pid → (Delivered proc pid sig (sys_kill proc me pid sig) ↔
      (proc me).pid = pid ∧ (proc me).Sets sig ∨
      ∃ p, p ≠ me ∧ Has proc pid p ∧ (proc p).Knows sig (1 <<< sig.toNat) ∧
        (proc me).Knows sig ((intBit sig.toNat).signExtend 64))) ∧
    (Delivered proc tid sig (sys_tgkill proc pid tid sig) ↔
      ∀ p < NPROC, (proc p).pid = tid → (proc p).state ≠ .unused ∧ (proc p).Sets sig) :=
  ⟨sys_kill_delivered_iff numbered inside used pos small, kill_delivered_iff numbered pos small⟩

/-- Two processes that run. -/
def twoProcs (p : Nat) : Entry where
  state := if p < 2 then .running else .unused
  pid := if p < 2 then p + 1 else 0
  killed := 0
  sig_set := 0
  sig_pending := 0

theorem twoProcs_numbered : Numbered twoProcs where
  positive p _ used := by
    simp only [twoProcs] at used ⊢
    split at used
    · next low =>
      rw [if_pos low]
      omega
    · exact absurd rfl used
  apart p q _ _ pos same := by
    simp only [twoProcs] at pos same
    split at pos
    · next low =>
      rw [if_pos low] at same
      split at same <;> omega
    · exact absurd pos (by decide)

theorem signals_delivered_iff_twoProcs :
    (0 < (1 : Int) → (Delivered twoProcs 1 9 (sys_kill twoProcs 0 1 9) ↔
      (twoProcs 0).pid = 1 ∧ (twoProcs 0).Sets 9 ∨
      ∃ p, p ≠ 0 ∧ Has twoProcs 1 p ∧ (twoProcs p).Knows 9 (1 <<< (9 : Int).toNat) ∧
        (twoProcs 0).Knows 9 ((intBit (9 : Int).toNat).signExtend 64))) ∧
    (Delivered twoProcs 2 9 (sys_tgkill twoProcs 1 2 9) ↔
      ∀ p < NPROC, (twoProcs p).pid = 2 → (twoProcs p).state ≠ .unused ∧ (twoProcs p).Sets 9) :=
  signals_delivered_iff twoProcs_numbered (by decide) (by decide) (by decide) (by decide) 1 2

/-- A signal for the second process is sent to the caller; one of number 31 brings 32 others
with it. -/
theorem kill_sends_to_caller :
    (sys_kill twoProcs 0 2 9).1 = 0 ∧ ((sys_kill twoProcs 0 2 9).2 0).sig_pending = 1 <<< 9 ∧
    ((sys_kill twoProcs 0 2 9).2 1).sig_pending = 0 ∧
    ¬Delivered twoProcs 2 9 (sys_kill twoProcs 0 2 9) ∧
    ((sys_tgkill twoProcs 1 2 31).2 1).sig_pending = 0xFFFFFFFF80000000 ∧
    ¬Delivered twoProcs 2 31 (sys_tgkill twoProcs 1 2 31) := by
  have second : Has twoProcs 2 1 := ⟨by decide, by decide, by decide⟩
  refine ⟨by decide, by decide, by decide, fun delivered => ?_, by decide, fun delivered => ?_⟩
  · have sent := congrArg Entry.sig_pending (congrFun (delivered.sent 1 second) 1)
    exact absurd sent (by decide)
  · have sent := congrArg Entry.sig_pending (congrFun (delivered.sent 1 second) 1)
    exact absurd sent (by decide)

/-! ### The mask -/

def SIG_BLOCK : Int := 0
def SIG_UNBLOCK : Int := 1
def SIG_SETMASK : Int := 2

/-- The signals that cannot be masked. -/
def unmaskable : BitVec 64 := 1 <<< SIGTERM ||| 1 <<< SIGKILL ||| 1 <<< SIGSTOP

/-- The cases of the switch. -/
def switchMask (how : Int) (old set : BitVec 64) : BitVec 64 :=
  if how = SIG_BLOCK then old ||| set
  else if how = SIG_UNBLOCK then old &&& ~~~set
  else if how = SIG_SETMASK then set
  else old

/-- `sigprocmask` of `signal.c`: the mask, and what is stored through `oldset`. -/
def sigprocmask (mask : BitVec 64) (how : Int) (set : Option (BitVec 64)) (oldset : Bool) :
    BitVec 64 × Option (BitVec 64) :=
  let after := match set with
    | none => mask
    | some set => switchMask how mask set
  (after &&& unmaskable, if oldset then some mask else none)

/-- A call of `sys_rt_sigprocmask`: `set` and `oldset` are none where the pointers are null,
the copy of a set may fail, and `stack` is what the variable `set` holds before it is filled. -/
structure Request where
  how : Int
  set : Option (Option (BitVec 64))
  oldset : Option Bool
  stack : BitVec 64

/-- The result, the mask, and what has been stored for the caller. -/
def sys_rt_sigprocmask (mask : BitVec 64) (r : Request) : Int × BitVec 64 × Option (BitVec 64) :=
  match r.set with
  | some none => (-1, mask, none)
  | set =>
    let set := match set with
      | some (some set) => set
      | _ => r.stack
    let (mask, oldset) := sigprocmask mask r.how (some set) r.oldset.isSome
    match r.oldset with
    | some false => (-1, mask, none)
    | _ => (0, mask, oldset)

/-- What is asked of the mask after a call with a set. -/
structure Masked (how : Int) (mask set after : BitVec 64) : Prop where
  block : how = SIG_BLOCK → after = (mask ||| set) &&& ~~~unmaskable
  unblock : how = SIG_UNBLOCK → after = (mask &&& ~~~set) &&& ~~~unmaskable
  setmask : how = SIG_SETMASK → after = set &&& ~~~unmaskable

/-- What is asked of a call that finds a mask. A set that cannot be read changes nothing. -/
def Masks (mask : BitVec 64) (r : Request) (call : Int × BitVec 64 × Option (BitVec 64)) : Prop :=
  (match r.set with
    | some (some set) => Masked r.how mask set call.2.1
    | _ => call.2.1 = mask) ∧
  (r.oldset = some true → call.1 = 0 → call.2.2 = some mask)

/-- All signals of a set are in another. -/
def Within (a b : BitVec 64) : Prop := ∀ i, a.getLsbD i = true → b.getLsbD i = true

/-- The mask becomes empty. -/
structure Empties (how : Int) (mask set : BitVec 64) : Prop where
  block : how = SIG_BLOCK → mask = 0#64 ∧ set = 0#64
  unblock : how = SIG_UNBLOCK → Within mask set
  setmask : how = SIG_SETMASK → set = 0#64

/-- The mask is one of signals that cannot be masked, and the variable that is taken for the
set leaves it alone. -/
structure LeftAlone (how : Int) (mask stack : BitVec 64) : Prop where
  block : how = SIG_BLOCK → Within mask unmaskable ∧ Within (stack &&& unmaskable) mask
  unblock : how = SIG_UNBLOCK → Within mask unmaskable ∧ Within mask (~~~stack)
  setmask : how = SIG_SETMASK → stack &&& unmaskable = mask
  other : how ∉ [SIG_BLOCK, SIG_UNBLOCK, SIG_SETMASK] → Within mask unmaskable

def Harmless (mask : BitVec 64) (r : Request) : Prop :=
  match r.set with
  | some (some set) => Empties r.how mask set
  | some none => True
  | none => LeftAlone r.how mask r.stack

variable {mask : BitVec 64} {r : Request}

theorem eq_iff_bits (a b : BitVec 64) : a = b ↔ ∀ i, a.getLsbD i = b.getLsbD i := by
  constructor
  · rintro rfl i
    rfl
  · exact fun same => BitVec.eq_of_getLsbD_eq fun i _ => same i

/-- Masked with some bits and without them, only the empty set is the same. -/
theorem and_eq_and_not_iff (a b : BitVec 64) : a &&& b = a &&& ~~~b ↔ a = 0#64 := by
  rw [BitVec.eq_of_getLsbD_eq_iff, BitVec.eq_of_getLsbD_eq_iff]
  apply forall₂_congr
  intro i hi
  rw [BitVec.getLsbD_and, BitVec.getLsbD_and, BitVec.getLsbD_not, decide_eq_true hi, BitVec.getLsbD_zero]
  cases a.getLsbD i <;> cases b.getLsbD i <;> decide

theorem or_eq_zero_iff (a b : BitVec 64) : a ||| b = 0#64 ↔ a = 0#64 ∧ b = 0#64 := by
  rw [eq_iff_bits, eq_iff_bits, eq_iff_bits, ← forall_and]
  apply forall_congr'
  intro i
  rw [BitVec.getLsbD_or, BitVec.getLsbD_zero]
  cases a.getLsbD i <;> cases b.getLsbD i <;> decide

theorem within_iff (a b : BitVec 64) : a &&& ~~~b = 0#64 ↔ Within a b := by
  rw [BitVec.eq_of_getLsbD_eq_iff, Within]
  constructor
  · intro none i here
    have hi := BitVec.lt_of_getLsbD here
    have bit := none i hi
    rw [BitVec.getLsbD_and, BitVec.getLsbD_not, decide_eq_true hi, here] at bit
    simpa using bit
  · intro within i hi
    have bit := within i
    rw [BitVec.getLsbD_and, BitVec.getLsbD_not, decide_eq_true hi, BitVec.getLsbD_zero]
    revert bit
    cases a.getLsbD i <;> cases b.getLsbD i <;> decide

theorem or_and_eq_iff (m s b : BitVec 64) : (m ||| s) &&& b = m ↔ Within m b ∧ Within (s &&& b) m := by
  rw [eq_iff_bits, Within, Within, ← forall_and]
  apply forall_congr'
  intro i
  rw [BitVec.getLsbD_and, BitVec.getLsbD_or, BitVec.getLsbD_and]
  cases m.getLsbD i <;> cases s.getLsbD i <;> cases b.getLsbD i <;> decide

theorem and_and_eq_iff (m s b : BitVec 64) : (m &&& s) &&& b = m ↔ Within m b ∧ Within m s := by
  rw [eq_iff_bits, Within, Within, ← forall_and]
  apply forall_congr'
  intro i
  rw [BitVec.getLsbD_and, BitVec.getLsbD_and]
  cases m.getLsbD i <;> cases s.getLsbD i <;> cases b.getLsbD i <;> decide

theorem and_eq_self_iff (m b : BitVec 64) : m &&& b = m ↔ Within m b := by
  rw [eq_iff_bits, Within]
  apply forall_congr'
  intro i
  rw [BitVec.getLsbD_and]
  cases m.getLsbD i <;> cases b.getLsbD i <;> decide

/-- The mask after a call. -/
theorem sys_rt_sigprocmask_mask (mask : BitVec 64) (r : Request) :
    (sys_rt_sigprocmask mask r).2.1 = match r.set with
      | some none => mask
      | some (some set) => switchMask r.how mask set &&& unmaskable
      | none => switchMask r.how mask r.stack &&& unmaskable := by
  obtain ⟨how, set, oldset, stack⟩ := r
  rcases set with _ | _ | set
  · rcases oldset with _ | _ | _ <;> rfl
  · rfl
  · rcases oldset with _ | _ | _ <;> rfl

/-- The old set is the mask before the call. -/
theorem sys_rt_sigprocmask_oldset (there : r.oldset = some true) (done : (sys_rt_sigprocmask mask r).1 = 0) :
    (sys_rt_sigprocmask mask r).2.2 = some mask := by
  obtain ⟨how, set, oldset, stack⟩ := r
  obtain rfl : oldset = some true := there
  rcases set with _ | _ | set
  · rfl
  · cases done
  · rfl

theorem hows_differ : SIG_BLOCK ≠ SIG_UNBLOCK ∧ SIG_BLOCK ≠ SIG_SETMASK ∧ SIG_UNBLOCK ≠ SIG_SETMASK := by
  decide

theorem masked_iff (how : Int) (mask set : BitVec 64) :
    Masked how mask set (switchMask how mask set &&& unmaskable) ↔ Empties how mask set := by
  obtain ⟨one, two, three⟩ := hows_differ
  constructor
  · rintro ⟨block, unblock, setmask⟩
    refine ⟨?_, ?_, ?_⟩
    · rintro rfl
      exact (or_eq_zero_iff mask set).mp ((and_eq_and_not_iff _ _).mp (block rfl))
    · rintro rfl
      exact (within_iff mask set).mp ((and_eq_and_not_iff _ _).mp (unblock rfl))
    · rintro rfl
      exact (and_eq_and_not_iff _ _).mp (setmask rfl)
  · rintro ⟨block, unblock, setmask⟩
    refine ⟨?_, ?_, ?_⟩
    · rintro rfl
      exact (and_eq_and_not_iff _ _).mpr ((or_eq_zero_iff mask set).mpr (block rfl))
    · rintro rfl
      exact (and_eq_and_not_iff _ _).mpr ((within_iff mask set).mpr (unblock rfl))
    · rintro rfl
      exact (and_eq_and_not_iff _ _).mpr (setmask rfl)

theorem left_alone_iff (how : Int) (mask stack : BitVec 64) :
    switchMask how mask stack &&& unmaskable = mask ↔ LeftAlone how mask stack := by
  obtain ⟨one, two, three⟩ := hows_differ
  have fields : LeftAlone how mask stack ↔
      (how = SIG_BLOCK → Within mask unmaskable ∧ Within (stack &&& unmaskable) mask) ∧
      (how = SIG_UNBLOCK → Within mask unmaskable ∧ Within mask (~~~stack)) ∧
      (how = SIG_SETMASK → stack &&& unmaskable = mask) ∧
      (how ∉ [SIG_BLOCK, SIG_UNBLOCK, SIG_SETMASK] → Within mask unmaskable) :=
    ⟨fun ⟨a, b, c, d⟩ => ⟨a, b, c, d⟩, fun ⟨a, b, c, d⟩ => ⟨a, b, c, d⟩⟩
  rw [fields, switchMask]
  by_cases block : how = SIG_BLOCK
  · subst block
    simp [one, two, or_and_eq_iff]
  · rw [if_neg block]
    by_cases unblock : how = SIG_UNBLOCK
    · subst unblock
      simp [one.symm, three, and_and_eq_iff]
    · rw [if_neg unblock]
      by_cases setmask : how = SIG_SETMASK
      · subst setmask
        simp [two.symm, three.symm]
      · simp [block, unblock, setmask, and_eq_self_iff]

theorem masks_iff : Masks mask r (sys_rt_sigprocmask mask r) ↔ Harmless mask r := by
  have old : (r.oldset = some true → (sys_rt_sigprocmask mask r).1 = 0 →
    (sys_rt_sigprocmask mask r).2.2 = some mask) = True := eq_true sys_rt_sigprocmask_oldset
  rw [Masks, old, and_true, sys_rt_sigprocmask_mask, Harmless]
  rcases r.set with _ | _ | set
  · exact left_alone_iff r.how mask r.stack
  · exact iff_of_true rfl trivial
  · exact masked_iff r.how mask set

/-- The mask after some calls. -/
def maskAfter (mask : BitVec 64) (calls : List Request) : BitVec 64 :=
  calls.foldl (fun mask r => (sys_rt_sigprocmask mask r).2.1) mask

/-- Every call of a sequence does what is asked of it, if and only if each finds a mask that
it does no harm to. -/
theorem sigprocmask_sequence_iff (mask : BitVec 64) (calls : List Request) :
    (∀ front r, front ++ [r] <+: calls →
      Masks (maskAfter mask front) r (sys_rt_sigprocmask (maskAfter mask front) r)) ↔
    ∀ front r, front ++ [r] <+: calls → Harmless (maskAfter mask front) r := by
  apply forall₃_congr
  exact fun _ _ _ => masks_iff

/-- To mask a signal leaves it unmasked, to mask `SIGKILL` masks it, and without a set what
lies on the stack is the mask. -/
theorem sigprocmask_inverts :
    let interrupt : Request := ⟨SIG_BLOCK, some (some (1 <<< 2)), some true, 0⟩
    let kill : Request := ⟨SIG_SETMASK, some (some (1 <<< SIGKILL)), none, 0⟩
    let null : Request := ⟨SIG_SETMASK, none, some true, 1 <<< SIGKILL⟩
    (sys_rt_sigprocmask 0 interrupt).2.1 = 0 ∧ ¬Masks 0 interrupt (sys_rt_sigprocmask 0 interrupt) ∧
    (sys_rt_sigprocmask 0 kill).2.1 = 1 <<< SIGKILL ∧
    (sys_rt_sigprocmask 0 null).2.1 = 1 <<< SIGKILL ∧ ¬Masks 0 null (sys_rt_sigprocmask 0 null) := by
  refine ⟨by decide, fun masks => ?_, by decide, by decide, fun masks => ?_⟩
  · exact absurd (masks.1.block rfl) (by decide)
  · exact absurd masks.1 (by decide)

end AvxKernel.Proc
