import AvxKernel.Fd.Flags

/-! The flags of `exec_close` beside what has been asked of the open descriptors. -/
namespace AvxKernel.Fd

variable {σ E P : Type} {b : Below σ E P} {k k' : Kernel σ E P} {pr pr' : Proc E} {p fd limit : Nat} {start r : Int}
  {asked asked' : Nat → Bool}

def O_CLOEXEC : UInt32 := 0x80000

/-- The calls of a process on its descriptors. -/
inductive Op where
  | openat (dirfd : Int) (path : Path) (flags : UInt32)
  | «open» (path : Path) (omode : UInt32)
  | dup (fd : Int)
  | dup3 (fd newfd : Int)
  | fcntl (fd cmd : Int) (arg : Nat)
  | pipe (fdarray : Nat)
  | close (fd : Int)

variable (b limit p) in
def Op.call : Op → Call σ E P Int
  | openat dirfd path flags => sys_openat b limit p dirfd path flags
  | .open path omode => Fd.open b limit p path omode
  | dup fd => sys_dup p fd
  | dup3 fd newfd => sys_dup3 p fd newfd
  | fcntl fd cmd arg => sys_fcntl p fd cmd arg
  | pipe fdarray => sys_pipe b p fdarray
  | close fd => sys_close b p fd

/-- Whether a call that has returned `r` asks `exec` to close a descriptor; none where it says
nothing about it. -/
def Op.asks (r : Int) : Op → Nat → Option Bool
  | openat _ _ flags, fd | .open _ flags, fd => if has flags O_CLOEXEC ∧ r = fd then some true else none
  | fcntl n cmd arg, fd =>
    if cmd = F_SETFD then
      if r = 0 ∧ n = fd then some (u32 arg != 0) else none
    else if cmd = F_DUPFD_CLOEXEC ∧ r = fd then
      some true
    else
      none
  | _, _ => none

/-- What has been asked of a descriptor counts until the table changes there. -/
def since (pr pr' : Proc E) (asked : Nat → Bool) (fd : Nat) : Bool := pr'.ofile fd = pr.ofile fd && asked fd

def Op.requested (op : Op) (r : Int) (pr pr' : Proc E) (asked : Nat → Bool) (fd : Nat) : Bool :=
  (op.asks r fd).getD (since pr pr' asked fd)

/-- The flag of an open descriptor says what has been asked. -/
def Agrees (pr : Proc E) (asked : Nat → Bool) : Prop :=
  ∀ fd, pr.ofile fd ≠ none → (pr.exec_close fd ≠ 0 ↔ asked fd = true)

structure Recorded (pr : Proc E) (asked : Nat → Bool) : Prop where
  agrees : Agrees pr asked
  inside : ∀ fd, pr.ofile fd ≠ none → fd < pr.limit

/-- The descriptor to be taken has no flag from an earlier one. -/
def Proc.Clear (pr : Proc E) (start : Int) : Prop := ∀ fd, pr.lowest start = some fd → pr.exec_close fd = 0

/-- The calls that do not set the flag of a new descriptor find it clear, and those that open
a file are not asked for `O_CLOEXEC`. -/
def Op.Meets (pr : Proc E) : Op → Prop
  | openat _ path flags => has flags O_CLOEXEC = false ∧ (isNull path = true → pr.Clear 0)
  | .open _ omode => has omode O_CLOEXEC = false ∧ pr.Clear 0
  | dup _ => pr.Clear 0
  | dup3 fd newfd => ∀ f, Places pr fd newfd f → pr.exec_close newfd.toNat = 0
  | fcntl _ cmd arg => cmd = F_DUPFD → pr.Clear (toInt arg)
  | pipe _ => pr.Clear 0 ∧ ∀ fd f, pr.lowest 0 = some fd → (pr.install fd (some f)).Clear 0
  | close _ => True

/-! ### One descriptor -/

theorem since_same (asked : Nat → Bool) : since pr pr asked = asked := by
  funext fd
  rw [since, decide_eq_true rfl, Bool.true_and]

/-- What is asked of a descriptor that is not open is nothing to it. -/
theorem Recorded.congr (h : Recorded pr asked) (same : ∀ fd, pr.ofile fd ≠ none → asked' fd = asked fd) : Recorded pr asked' where
  agrees fd there := by
    rw [same fd there]
    exact h.agrees fd there
  inside := h.inside

/-- A change at one descriptor. -/
theorem Recorded.change (h : Recorded pr asked) (fd : Nat) (limit : pr'.limit = pr.limit)
    (ofile : ∀ i ≠ fd, pr'.ofile i = pr.ofile i) (flags : ∀ i ≠ fd, pr'.exec_close i = pr.exec_close i)
    (same : ∀ i ≠ fd, asked' i = asked i)
    (here : pr'.ofile fd ≠ none → fd < pr.limit ∧ (pr'.exec_close fd ≠ 0 ↔ asked' fd = true)) : Recorded pr' asked' where
  agrees i there := by
    rcases eq_or_ne i fd with rfl | ne
    · exact (here there).2
    · rw [ofile i ne] at there
      rw [flags i ne, same i ne]
      exact h.agrees i there
  inside i there := by
    rw [limit]
    rcases eq_or_ne i fd with rfl | ne
    · exact (here there).1
    · rw [ofile i ne] at there
      exact h.inside i there

theorem since_install {f : Option Nat} {i : Nat} (ne : i ≠ fd) (n : Nat) :
    since pr ((pr.install fd f).flag fd n) asked i = asked i := by
  have same : ((pr.install fd f).flag fd n).ofile i = pr.ofile i := install_ofile_ne ne pr f
  rw [since, same, decide_eq_true rfl, Bool.true_and]

/-- A new descriptor whose flag says what has been asked. -/
theorem Recorded.opened (h : Recorded pr asked) {f n : Nat} (inside : fd < pr.limit)
    (same : ∀ i ≠ fd, asked' i = asked i) (here : n ≠ 0 ↔ asked' fd = true) :
    Recorded ((pr.install fd (some f)).flag fd n) asked' := by
  refine h.change fd rfl (fun i ne => install_ofile_ne ne _ _) (fun i ne => Function.update_of_ne ne ..) same ?_
  intro _
  refine ⟨inside, ?_⟩
  rw [← here]
  exact iff_of_eq (congrArg (· ≠ 0) (Function.update_self ..))

theorem flag_self (pr : Proc E) (fd : Nat) : pr.flag fd (pr.exec_close fd) = pr := by
  rw [Proc.flag, Function.update_eq_self]

/-- A new descriptor that finds its flag clear. -/
theorem Recorded.gained (h : Recorded pr asked) {f : Nat} (inside : fd < pr.limit) (other : pr.ofile fd ≠ some f)
    (clear : pr.exec_close fd = 0) :
    Recorded (pr.install fd (some f)) (since pr (pr.install fd (some f)) asked) := by
  have same := flag_self (pr.install fd (some f)) fd
  have zero : (pr.install fd (some f)).exec_close fd = 0 := clear
  rw [zero] at same
  rw [← same]
  refine h.opened inside (fun i ne => since_install ne 0) (iff_of_false (fun ne => ne rfl) ?_)
  rw [since, Bool.and_eq_true, decide_eq_true_eq]
  rintro ⟨eq, -⟩
  exact other (eq.symm.trans (install_ofile pr fd (some f)))

theorem Recorded.gains (h : Recorded pr asked) (gains : Gains pr pr' start) (clear : pr.Clear start) :
    Recorded pr' (since pr pr' asked) := by
  rcases gains with rfl | ⟨fd, f, taken, rfl⟩
  · rwa [since_same]
  · obtain ⟨free, inside⟩ := lowest_free taken
    refine h.gained inside ?_ (clear fd taken)
    rw [free]
    exact nofun

/-- Descriptors are dropped, and nothing else. -/
structure Shrinks (pr pr' : Proc E) : Prop where
  ofile : ∀ i, pr'.ofile i = pr.ofile i ∨ pr'.ofile i = none
  exec_close : pr'.exec_close = pr.exec_close
  limit : pr'.limit = pr.limit

theorem Shrinks.refl (pr : Proc E) : Shrinks pr pr := ⟨fun _ => .inl rfl, rfl, rfl⟩

theorem Shrinks.trans {pr'' : Proc E} (h : Shrinks pr pr') (h' : Shrinks pr' pr'') : Shrinks pr pr'' where
  ofile i := by
    rcases h'.ofile i with same | none
    · rw [same]
      exact h.ofile i
    · exact .inr none
  exec_close := h'.exec_close.trans h.exec_close
  limit := h'.limit.trans h.limit

theorem Shrinks.drop (pr : Proc E) (fd : Nat) : Shrinks pr (pr.install fd none) where
  ofile i := by
    rcases eq_or_ne i fd with rfl | ne
    · exact .inr (install_ofile ..)
    · exact .inl (install_ofile_ne ne ..)
  exec_close := rfl
  limit := rfl

theorem Recorded.shrinks (h : Recorded pr asked) (shrinks : Shrinks pr pr') : Recorded pr' (since pr pr' asked) where
  agrees i there := by
    have same := (shrinks.ofile i).resolve_right there
    rw [same] at there
    rw [shrinks.exec_close, since, same, decide_eq_true rfl, Bool.true_and]
    exact h.agrees i there
  inside i there := by
    rw [(shrinks.ofile i).resolve_right there] at there
    rw [shrinks.limit]
    exact h.inside i there

/-- Two changes, none of which the other takes back. -/
theorem since_trans {pr'' : Proc E} (kept : ∀ i, pr''.ofile i = pr.ofile i → pr'.ofile i = pr.ofile i) :
    since pr' pr'' (since pr pr' asked) = since pr pr'' asked := by
  funext i
  simp only [since]
  by_cases same : pr''.ofile i = pr.ofile i
  · have same' := kept i same
    rw [same, same', decide_eq_true rfl, Bool.true_and]
  · rw [decide_eq_false same]
    by_cases first : pr'.ofile i = pr.ofile i
    · rw [first, decide_eq_false same, Bool.false_and, Bool.false_and]
    · rw [decide_eq_false first, Bool.false_and, Bool.and_false]

/-! ### One call -/

theorem requested_plain {op : Op} (nothing : ∀ fd, op.asks r fd = none) :
    op.requested r pr pr' asked = since pr pr' asked := by
  funext fd
  rw [Op.requested, nothing, Option.getD_none]

theorem Recorded.fcntl {n cmd : Int} {arg : Nat} (h : Recorded pr asked) (clear : cmd = F_DUPFD → pr.Clear (toInt arg))
    (row : if cmd = F_SETFD then (r = -1 ∧ pr' = pr) ∨ r = 0 ∧ 0 ≤ n ∧ pr' = pr.flag n.toNat (u32 arg)
      else if cmd = F_DUPFD then Gains pr pr' (toInt arg)
      else if cmd = F_DUPFD_CLOEXEC then (r < 0 ∧ pr' = pr) ∨ ∃ fd f, pr.lowest (toInt arg) = some fd ∧ r = fd ∧
        pr' = (pr.install fd (some f)).flag fd 1
      else pr' = pr) :
    Recorded pr' ((Op.fcntl n cmd arg).requested r pr pr' asked) := by
  by_cases set : cmd = F_SETFD
  · rw [if_pos set] at row
    rcases row with ⟨rfl, rfl⟩ | ⟨rfl, low, rfl⟩
    · rw [requested_plain fun i => by rw [Op.asks, if_pos set]; rfl, since_same]
      exact h
    · have asks : ∀ i, (Op.fcntl n cmd arg).asks 0 i = if n = i then some (u32 arg != 0) else none := by
        intro i
        rw [Op.asks, if_pos set]
        simp only [true_and]
      refine h.change n.toNat rfl (fun _ _ => rfl) (fun i ne => Function.update_of_ne ne ..) (fun i ne => ?_) ?_
      · rw [Op.requested, asks, if_neg (by omega), Option.getD_none]
        exact congrFun (since_same asked) i
      · intro there
        refine ⟨h.inside _ there, ?_⟩
        have stored : (pr.flag n.toNat (u32 arg)).exec_close n.toNat = u32 arg := Function.update_self ..
        rw [stored, Op.requested, asks, if_pos (by omega), Option.getD_some, bne_iff_ne]
  rw [if_neg set] at row
  by_cases dup : cmd = F_DUPFD
  · rw [if_pos dup] at row
    rw [requested_plain fun i => by rw [Op.asks, if_neg set, dup]; rfl]
    exact h.gains row (clear dup)
  rw [if_neg dup] at row
  by_cases cloexec : cmd = F_DUPFD_CLOEXEC
  · rw [if_pos cloexec] at row
    rcases row with ⟨negative, rfl⟩ | ⟨fd, f, taken, rfl, rfl⟩
    · rw [requested_plain fun i => by rw [Op.asks, if_neg set, if_neg (by omega)], since_same]
      exact h
    · have asks : ∀ i, (Op.fcntl n cmd arg).asks (fd : Int) i = if fd = i then some true else none := by
        intro i
        rw [Op.asks, if_neg set]
        simp only [cloexec, true_and, Int.natCast_inj]
      refine h.opened (lowest_free taken).2 (fun i ne => ?_) ?_
      · rw [Op.requested, asks, if_neg (Ne.symm ne)]
        exact since_install ne 1
      · rw [Op.requested, asks, if_pos rfl]
        exact iff_of_true Nat.one_ne_zero rfl
  · rw [if_neg cloexec] at row
    subst row
    rw [requested_plain fun i => by rw [Op.asks, if_neg set, if_neg fun both => cloexec both.1], since_same]
    exact h

theorem Op.keeps {op : Op} (h : Recorded (k.proc p) asked) (meets : op.Meets (k.proc p)) :
    Leaves (op.call b p limit) k fun r k' =>
      Recorded (k'.proc p) (op.requested r (k.proc p) (k'.proc p) asked) := by
  cases op with
  | openat dirfd path flags =>
    obtain ⟨plain, clear⟩ := meets
    have quiet : ∀ r pr', (Op.openat dirfd path flags).requested r (k.proc p) pr' asked = since (k.proc p) pr' asked :=
      fun r pr' => requested_plain fun fd => if_neg (by rw [plain]; exact fun both => Bool.noConfusion both.1)
    refine sys_openat_row.mono fun r k' row => ?_
    rw [quiet]
    split at row
    · next null => exact h.gains row (clear null)
    · rcases row with row | ⟨fd, f, taken, row⟩
      · rwa [row, since_same]
      · obtain ⟨free, inside⟩ := lowest_free taken
        rw [row]
        refine h.opened inside (fun i ne => since_install ne 0) (iff_of_false (fun ne => ne rfl) ?_)
        have new : (((k.proc p).install fd (some f)).flag fd 0).ofile fd = some f := install_ofile ..
        rw [since, new, free]
        exact Bool.noConfusion
  | «open» path omode =>
    obtain ⟨plain, clear⟩ := meets
    have quiet : ∀ r pr', (Op.open path omode).requested r (k.proc p) pr' asked = since (k.proc p) pr' asked :=
      fun r pr' => requested_plain fun fd => if_neg (by rw [plain]; exact fun both => Bool.noConfusion both.1)
    refine open_row.mono fun r k' row => ?_
    rw [quiet]
    refine h.gains ?_ clear
    rcases row with ⟨-, row⟩ | ⟨fd, f, -, taken, row⟩
    · exact .inl row
    · exact .inr ⟨fd, f, taken, row⟩
  | dup fd => exact sys_dup_row.mono fun r k' gains => h.gains gains meets
  | dup3 fd newfd =>
    refine (sys_dup3_row newfd).mono fun r k' row => ?_
    rcases row with row | ⟨f, places, row⟩
    · change Recorded _ (since _ _ _)
      rwa [row, since_same]
    · change Recorded _ (since _ _ _)
      rw [row]
      exact h.gained places.2.2.2.1 places.2.2.2.2 (meets f places)
  | fcntl n cmd arg => exact sys_fcntl_row.mono fun r k' row => h.fcntl meets row
  | pipe fdarray =>
    refine sys_pipe_row.mono fun r k' row => ?_
    change Recorded _ (since _ _ _)
    rcases row with row | ⟨fd₀, f₀, fd₁, f₁, taken₀, taken₁, row⟩
    · rwa [row, since_same]
    · obtain ⟨free₀, -⟩ := lowest_free taken₀
      have first := h.gains (.inr ⟨fd₀, f₀, taken₀, rfl⟩) meets.1
      have both := first.gains (.inr ⟨fd₁, f₁, taken₁, rfl⟩) (meets.2 fd₀ f₀ taken₀)
      rw [row]
      rwa [since_trans] at both
      intro i same
      rcases eq_or_ne i fd₀ with rfl | ne
      · have ne : i ≠ fd₁ := by
          rintro rfl
          have free₁ := (lowest_free taken₁).1
          rw [install_ofile] at free₁
          cases free₁
        rw [install_ofile_ne ne, install_ofile, free₀] at same
        cases same
      · exact install_ofile_ne ne _ _
  | close fd =>
    refine sys_close_row.mono fun r k' row => ?_
    change Recorded _ (since _ _ _)
    rcases row with row | row
    · rwa [row, since_same]
    · rw [row]
      exact h.shrinks (.drop _ _)

/-! ### The end of a process -/

theorem closeFiles_row (fds : List Nat) :
    Leaves (closeFiles b p fds) k fun _ k' => Shrinks (k.proc p) (k'.proc p) := by
  induction fds generalizing k with
  | nil => exact Machine.Ends.pure (.refl _)
  | cons fd fds ih =>
    refine Machine.Ends.bind (R := fun _ k' => Shrinks (k.proc p) (k'.proc p)) ?_ fun _ k₁ first =>
      ih.mono fun _ _ rest => first.trans rest
    refine Machine.Ends.get_bind ?_
    split
    · exact Machine.Ends.pure (.refl _)
    · refine Machine.Ends.bind fileclose_row fun _ k₁ same => (setOfile_row none).mono fun _ k₂ row => ?_
      rw [row, same]
      exact .drop _ _

theorem exit_row {initproc : Nat} : Leaves (exit b initproc p) k fun _ k' => Shrinks (k.proc p) (k'.proc p) := by
  refine Machine.Ends.ite (fun _ => Machine.Ends.halt trivial) fun _ => ?_
  refine Machine.Ends.bind (closeFiles_row _) fun _ k₁ shrinks => Machine.Ends.get_bind ?_
  split
  · exact Machine.Ends.halt trivial
  · refine Machine.Ends.bind (still_leaves (onBelow_still _)) fun _ k₂ same => (setProc_row _).mono fun _ k₃ row => ?_
    rw [same] at row
    exact shrinks.trans ⟨fun i => .inl (by rw [row]), by rw [row], by rw [row]; rfl⟩

end AvxKernel.Fd
