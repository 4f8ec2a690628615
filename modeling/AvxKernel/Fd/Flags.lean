import AvxKernel.Fd.Counts
import AvxKernel.Lib.Triple

/-! What the calls on descriptors do to the table of their process and to the flags beside
it, which say what `exec` closes. -/
namespace AvxKernel.Fd

variable {σ E P α : Type} {b : Below σ E P} {k k' : Kernel σ E P} {p f fd limit : Nat} {n cmd start : Int}
  {arg : Nat} {path : Path}

/-- What holds where a call returns. -/
abbrev Leaves (x : Call σ E P α) (k : Kernel σ E P) (Q : α → Kernel σ E P → Prop) : Prop :=
  Machine.Ends (fun _ => True) x k Q

/-! ### Rows -/

/-- The descriptor that `fdalloc2` takes. -/
def Proc.lowest (pr : Proc E) (start : Int) : Option Nat :=
  if start < 0 then none
  else (List.range pr.limit).find? fun fd => start.toNat ≤ fd && (pr.ofile fd).isNone

/-- `ofile[fd] = f` -/
def Proc.install (pr : Proc E) (fd : Nat) (f : Option Nat) : Proc E :=
  { pr with ofile := Function.update pr.ofile fd f }

/-- `exec_close[fd] = n` -/
def Proc.flag (pr : Proc E) (fd n : Nat) : Proc E :=
  { pr with exec_close := Function.update pr.exec_close fd n }

@[simp] theorem install_limit (pr : Proc E) (fd : Nat) (f : Option Nat) : (pr.install fd f).limit = pr.limit := rfl

@[simp] theorem flag_limit (pr : Proc E) (fd n : Nat) : (pr.flag fd n).limit = pr.limit := rfl

theorem lowest_free {pr : Proc E} (taken : pr.lowest start = some fd) : pr.ofile fd = none ∧ fd < pr.limit := by
  rw [Proc.lowest] at taken
  split at taken
  · cases taken
  · have free := List.find?_some taken
    rw [Bool.and_eq_true, Option.isNone_iff_eq_none] at free
    exact ⟨free.2, List.mem_range.mp (List.mem_of_find?_eq_some taken)⟩

theorem lowest_le {pr : Proc E} {i : Nat} (taken : pr.lowest 0 = some fd) (free : pr.ofile i = none) : fd ≤ i := by
  rw [Proc.lowest, if_neg (by decide), List.find?_range_eq_some] at taken
  by_contra less
  have used := taken.2.2 i (Nat.lt_of_not_le less)
  simp [free] at used

/-- What was free is free again. -/
theorem install_undo {pr : Proc E} (free : pr.ofile fd = none) (f : Option Nat) :
    (pr.install fd f).install fd none = pr := by
  rw [Proc.install, Proc.install, Function.update_idem, ← free, Function.update_eq_self]

theorem install_comm {fd' : Nat} (ne : fd ≠ fd') (pr : Proc E) (f f' : Option Nat) :
    (pr.install fd f).install fd' f' = (pr.install fd' f').install fd f := by
  simp only [Proc.install, Function.update_comm ne]

theorem install_ofile_ne {fd' : Nat} (ne : fd' ≠ fd) (pr : Proc E) (f : Option Nat) :
    (pr.install fd f).ofile fd' = pr.ofile fd' := Function.update_of_ne ne ..

@[simp] theorem install_ofile (pr : Proc E) (fd : Nat) (f : Option Nat) : (pr.install fd f).ofile fd = f :=
  Function.update_self ..

/-- The same table, for every process. -/
theorem still_leaves {x : Call σ E P α} (h : Machine.Frame Still x) : Leaves x k fun _ k' => k'.proc = k.proc := by
  cases run : x k with
  | error stop => exact Machine.Ends.of_error run trivial
  | ok r => exact Machine.Ends.of_ok run (h _ _ _ run).proc

theorem setProc_row (g : Proc E → Proc E) :
    Leaves (setProc p g : Call σ E P Unit) k fun _ k' => k'.proc p = g (k.proc p) :=
  Machine.Ends.modify (Function.update_self ..)

theorem setOfile_row (f : Option Nat) :
    Leaves (setOfile p fd f : Call σ E P Unit) k fun _ k' => k'.proc p = (k.proc p).install fd f :=
  setProc_row _

theorem setFile_row (g : File E P → File E P) :
    Leaves (setFile f g : Call σ E P Unit) k fun _ k' => k'.proc = k.proc := Machine.Ends.modify rfl

theorem filealloc_row : Leaves (filealloc : Call σ E P (Option Nat)) k fun _ k' => k'.proc = k.proc := by
  refine Machine.Ends.get_bind ?_
  split
  · exact Machine.Ends.pure rfl
  · exact Machine.Ends.bind (setFile_row _) fun _ _ same => Machine.Ends.pure same

theorem filedup_row : Leaves (filedup f : Call σ E P Nat) k fun r k' => r = f ∧ k'.proc = k.proc := by
  refine Machine.Ends.get_bind (Machine.Ends.ite (fun _ => Machine.Ends.halt trivial) fun _ => ?_)
  exact Machine.Ends.bind (setFile_row _) fun _ _ same => Machine.Ends.pure ⟨rfl, same⟩

theorem fileclose_row : Leaves (fileclose b f) k fun _ k' => k'.proc = k.proc := by
  refine Machine.Ends.get_bind (Machine.Ends.ite (fun _ => Machine.Ends.halt trivial) fun _ => ?_)
  refine Machine.Ends.ite (fun _ => setFile_row _) fun _ => ?_
  refine Machine.Ends.bind (setFile_row _) fun _ k₁ same => ?_
  exact (still_leaves (release_still _)).mono fun _ k₂ same₂ => same₂.trans same

/-- A descriptor is found and taken, or nothing has changed. -/
def Took (pr pr' : Proc E) (start : Int) (f : Nat) : Option Nat → Prop
  | none => pr' = pr
  | some fd => pr.lowest start = some fd ∧ pr' = pr.install fd f

theorem fdalloc2_row : Leaves (fdalloc2 p f start : Call σ E P (Option Nat)) k fun r k' =>
    Took (k.proc p) (k'.proc p) start f r := by
  refine Machine.Ends.get_bind ?_
  dsimp only
  cases found : (List.range (k.proc p).limit).find? fun fd => start.toNat ≤ fd && ((k.proc p).ofile fd).isNone with
  | none => exact Machine.Ends.pure rfl
  | some fd =>
    refine Machine.Ends.ite (fun _ => Machine.Ends.pure rfl) fun low => ?_
    refine Machine.Ends.bind (setOfile_row (some f)) fun _ k₁ row => Machine.Ends.pure ⟨?_, row⟩
    rw [Proc.lowest, if_neg low, found]

theorem argfd_row (pfd : Bool) : Leaves (argfd p pfd n : Call σ E P (Option Nat)) k fun r k' =>
    k = k' ∧ ∀ f, r = some f → 0 ≤ n ∧ (k.proc p).ofile n.toNat = some f := by
  refine Machine.Ends.get_bind (Machine.Ends.ite (fun _ => ?_) fun _ => ?_)
  · exact Machine.Ends.ite (fun _ => Machine.Ends.pure ⟨rfl, nofun⟩) fun _ => Machine.Ends.halt trivial
  · refine Machine.Ends.ite (fun _ => Machine.Ends.pure ⟨rfl, nofun⟩) fun inside => ?_
    exact Machine.Ends.pure ⟨rfl, fun f there => ⟨by omega, there⟩⟩

/-- `fdalloc2` and the `filedup` behind it. -/
theorem dup_row {β : Type} {start : Int} {fail : β} {done : Nat → Call σ E P β} {Q : β → Kernel σ E P → Prop}
    (none : ∀ k', k'.proc p = k.proc p → Q fail k')
    (some : ∀ fd k', (k.proc p).lowest start = some fd → k'.proc p = (k.proc p).install fd f → Leaves (done fd) k' Q) :
    Leaves (do
      match ← fdalloc2 p f start with
      | .none => return fail
      | .some fd => do
        let _ ← filedup f
        done fd) k Q := by
  refine Machine.Ends.bind fdalloc2_row fun r k₁ row => ?_
  cases r with
  | none => exact Machine.Ends.pure (none k₁ row)
  | some fd =>
    obtain ⟨taken, row⟩ := row
    refine Machine.Ends.bind filedup_row fun _ k₂ counted => some fd k₂ taken ?_
    rw [counted.2, row]

/-! ### The calls -/

/-- One new descriptor, or nothing. -/
def Gains (pr pr' : Proc E) (start : Int) : Prop :=
  pr' = pr ∨ ∃ fd f, pr.lowest start = some fd ∧ pr' = pr.install fd (some f)

theorem sys_dup_row : Leaves (sys_dup p n : Call σ E P Int) k fun _ k' => Gains (k.proc p) (k'.proc p) 0 := by
  refine Machine.Ends.bind (argfd_row false) ?_
  rintro r _ ⟨rfl, -⟩
  cases r with
  | none => exact Machine.Ends.pure (.inl rfl)
  | some f =>
    refine dup_row (fun k' same => .inl same) fun fd k' taken row => ?_
    exact Machine.Ends.pure (.inr ⟨fd, f, taken, row⟩)

/-- The file of one descriptor comes to another, which may have been open. -/
def Places (pr : Proc E) (n newfd : Int) (f : Nat) : Prop :=
  0 ≤ n ∧ pr.ofile n.toNat = some f ∧ 0 ≤ newfd ∧ newfd.toNat < pr.limit ∧ pr.ofile newfd.toNat ≠ some f

theorem sys_dup3_row (newfd : Int) : Leaves (sys_dup3 p n newfd : Call σ E P Int) k fun _ k' =>
    k'.proc p = k.proc p ∨
      ∃ f, Places (k.proc p) n newfd f ∧ k'.proc p = (k.proc p).install newfd.toNat (some f) := by
  refine Machine.Ends.bind (argfd_row false) ?_
  rintro r _ ⟨rfl, there⟩
  cases r with
  | none => exact Machine.Ends.pure (.inl rfl)
  | some f =>
    obtain ⟨low, points⟩ := there f rfl
    refine Machine.Ends.get_bind (Machine.Ends.ite (fun _ => Machine.Ends.pure (.inl rfl)) fun pos => ?_)
    refine Machine.Ends.ite (fun _ => Machine.Ends.pure (.inl rfl)) fun inside => ?_
    refine Machine.Ends.ite (fun other => ?_) fun _ => Machine.Ends.pure (.inl rfl)
    refine Machine.Ends.bind filedup_row ?_
    rintro _ k₁ ⟨rfl, same⟩
    refine Machine.Ends.bind (setOfile_row _) fun _ k₂ row => Machine.Ends.pure (.inr ⟨_, ?_, row.trans (by rw [same])⟩)
    exact ⟨low, points, Int.not_lt.mp pos, Nat.not_le.mp inside, other⟩

theorem sys_fcntl_row : Leaves (sys_fcntl p n cmd arg : Call σ E P Int) k fun r k' =>
    if cmd = F_SETFD then
      (r = -1 ∧ k'.proc p = k.proc p) ∨ r = 0 ∧ 0 ≤ n ∧ k'.proc p = (k.proc p).flag n.toNat (u32 arg)
    else if cmd = F_DUPFD then
      Gains (k.proc p) (k'.proc p) (toInt arg)
    else if cmd = F_DUPFD_CLOEXEC then
      (r < 0 ∧ k'.proc p = k.proc p) ∨ ∃ fd f, (k.proc p).lowest (toInt arg) = some fd ∧ r = fd ∧
        k'.proc p = ((k.proc p).install fd (some f)).flag fd 1
    else
      k'.proc p = k.proc p := by
  refine Machine.Ends.bind (argfd_row true) ?_
  rintro r _ ⟨rfl, there⟩
  cases r with
  | none =>
    refine Machine.Ends.pure ?_
    split_ifs
    · exact .inl ⟨rfl, rfl⟩
    · exact .inl rfl
    · exact .inl ⟨by decide, rfl⟩
    · rfl
  | some f =>
    obtain ⟨low, -⟩ := there f rfl
    refine Machine.Ends.get_bind (Machine.Ends.ite (fun get => ?_) fun _ => ?_)
    · subst get
      exact Machine.Ends.pure rfl
    refine Machine.Ends.ite (fun set => ?_) fun noSet => ?_
    · simp only [if_pos set]
      exact Machine.Ends.bind (setProc_row _) fun _ k₁ row => Machine.Ends.pure (.inr ⟨rfl, low, row⟩)
    simp only [if_neg noSet]
    refine Machine.Ends.ite (fun dup => ?_) fun noDup => ?_
    · simp only [if_pos dup]
      refine dup_row (fun k' same => .inl same) fun fd k' taken row => ?_
      exact Machine.Ends.pure (.inr ⟨fd, f, taken, row⟩)
    simp only [if_neg noDup]
    refine Machine.Ends.ite (fun dup => ?_) fun noDup => ?_
    · simp only [if_pos dup]
      refine dup_row (fun k' same => .inl ⟨by decide, same⟩) fun fd k' taken row => ?_
      refine Machine.Ends.bind (setProc_row _) fun _ k₁ flagged => Machine.Ends.pure (.inr ⟨fd, f, taken, rfl, ?_⟩)
      rw [flagged, row]
      rfl
    · simp only [if_neg noDup]
      exact Machine.Ends.pure rfl

/-- A new file with a descriptor, or neither. -/
theorem allocFd_row : Leaves (allocFd b p) k fun r k' =>
    (r = none ∧ k'.proc p = k.proc p) ∨ ∃ f fd, r = some (f, fd) ∧ (k.proc p).lowest 0 = some fd ∧
      k'.proc p = (k.proc p).install fd (some f) := by
  refine Machine.Ends.bind filealloc_row fun r k₁ same => ?_
  cases r with
  | none => exact Machine.Ends.pure (.inl ⟨rfl, by rw [same]⟩)
  | some f =>
    refine Machine.Ends.bind fdalloc2_row fun r k₂ row => ?_
    rw [same] at row
    cases r with
    | none => exact Machine.Ends.bind fileclose_row fun _ k₃ same' =>
        Machine.Ends.pure (.inl ⟨rfl, by rw [same', row]⟩)
    | some fd => exact Machine.Ends.pure (.inr ⟨f, fd, rfl, row.1, row.2⟩)

theorem open_row {omode : UInt32} : Leaves («open» b limit p path omode) k fun r k' =>
    (r = -1 ∧ k'.proc p = k.proc p) ∨ ∃ (fd : Nat) (f : Nat), r = fd ∧ (k.proc p).lowest 0 = some fd ∧
      k'.proc p = (k.proc p).install fd (some f) := by
  refine Machine.Ends.get_bind (Machine.Ends.bind (still_leaves (openLookup_still _ _ _ _)) fun ep k₁ same => ?_)
  cases ep with
  | none => exact Machine.Ends.pure (.inl ⟨rfl, by rw [same]⟩)
  | some ep =>
    refine Machine.Ends.bind allocFd_row fun r k₂ row => ?_
    rw [same] at row
    rcases row with ⟨rfl, row⟩ | ⟨f, fd, rfl, taken, row⟩
    · refine Machine.Ends.bind (still_leaves (onBelow_still _)) fun _ k₃ same₃ => ?_
      refine Machine.Ends.bind (still_leaves (onBelow_still _)) fun _ k₄ same₄ => Machine.Ends.pure (.inl ⟨rfl, ?_⟩)
      rw [same₄, same₃, row]
    · refine Machine.Ends.bind (still_leaves (openEntry_still _ _ _)) fun _ k₃ same₃ => ?_
      exact Machine.Ends.pure (.inr ⟨fd, f, rfl, taken, by rw [same₃, row]⟩)

/-- The path that `sys_openat` answers by itself. -/
def isNull (path : Path) : Bool := (cstr "/dev/null").isPrefixOf path

theorem sys_openat_row {flags : UInt32} : Leaves (sys_openat b limit p n path flags) k fun _ k' =>
    if isNull path then Gains (k.proc p) (k'.proc p) 0
    else k'.proc p = k.proc p ∨ ∃ fd f, (k.proc p).lowest 0 = some fd ∧
      k'.proc p = ((k.proc p).install fd (some f)).flag fd 0 := by
  refine Machine.Ends.bind (argfd_row true) ?_
  rintro dirf _ ⟨rfl, -⟩
  refine Machine.Ends.ite (fun null => ?_) fun other => ?_
  · have yes : isNull path = true := null
    simp only [if_pos yes]
    refine Machine.Ends.bind allocFd_row fun r k₁ row => ?_
    rcases row with ⟨rfl, row⟩ | ⟨f, fd, rfl, taken, row⟩
    · exact Machine.Ends.pure (.inl row)
    · refine Machine.Ends.bind (setFile_row _) fun _ k₂ same => Machine.Ends.pure (.inr ⟨fd, f, taken, ?_⟩)
      rw [same, row]
  · have no : ¬isNull path = true := other
    simp only [if_neg no]
    refine Machine.Ends.bind (still_leaves (openatDir_still _)) fun dp k₁ same₁ => Machine.Ends.get_bind ?_
    refine Machine.Ends.bind (still_leaves (openatLookup_still _ _ _ _ _)) fun ep k₂ same₂ => ?_
    rw [same₁] at same₂
    cases ep with
    | none => exact Machine.Ends.pure (.inl (by rw [same₂]))
    | some ep =>
      refine Machine.Ends.bind allocFd_row fun r k₃ row => ?_
      rw [same₂] at row
      rcases row with ⟨rfl, row⟩ | ⟨f, fd, rfl, taken, row⟩
      · refine Machine.Ends.bind (still_leaves (onBelow_still _)) fun _ k₄ same₄ => ?_
        refine Machine.Ends.bind (still_leaves (onBelow_still _)) fun _ k₅ same₅ => Machine.Ends.pure (.inl ?_)
        rw [same₅, same₄, row]
      · refine Machine.Ends.bind (still_leaves (openEntry_still _ _ _)) fun _ k₄ same₄ => ?_
        refine Machine.Ends.bind (still_leaves (forM_still dp b.elock)) fun _ k₅ same₅ => ?_
        refine Machine.Ends.bind (setProc_row _) fun _ k₆ flagged => ?_
        rw [same₅, same₄, row] at flagged
        have unlock : ∀ k₇ : Kernel σ E P, k₇.proc p = k₆.proc p → Leaves (do
            dp.forM fun dp => onBelow (b.eunlock dp)
            return (fd : Int)) k₇ fun _ k' => k'.proc p = k.proc p ∨ ∃ fd f, (k.proc p).lowest 0 = some fd ∧
              k'.proc p = ((k.proc p).install fd (some f)).flag fd 0 := by
          intro k₇ same₇
          refine Machine.Ends.bind (still_leaves (forM_still dp b.eunlock)) fun _ k₈ same₈ =>
            Machine.Ends.pure (.inr ⟨fd, f, taken, ?_⟩)
          rw [same₈, same₇, flagged]
          rfl
        refine Machine.Ends.ite (fun _ => ?_) fun _ => unlock k₆ rfl
        exact Machine.Ends.bind (still_leaves (onBelow_still _)) fun _ k₇ same₇ => unlock k₇ (by rw [same₇])

theorem pipealloc_row : Leaves (pipealloc b) k fun _ k' => k'.proc = k.proc := by
  refine Machine.Ends.bind filealloc_row fun r k₁ same₁ => ?_
  cases r with
  | none => exact Machine.Ends.pure same₁
  | some f₀ =>
    refine Machine.Ends.bind filealloc_row fun r k₂ same₂ => ?_
    cases r with
    | none =>
      exact Machine.Ends.bind fileclose_row fun _ k₃ same₃ => Machine.Ends.pure (same₃.trans (same₂.trans same₁))
    | some f₁ =>
      refine Machine.Ends.bind (still_leaves (onBelow_still _)) fun r k₃ same₃ => ?_
      rw [same₂, same₁] at same₃
      cases r with
      | none =>
        refine Machine.Ends.bind fileclose_row fun _ k₄ same₄ => ?_
        exact Machine.Ends.bind fileclose_row fun _ k₅ same₅ => Machine.Ends.pure (same₅.trans (same₄.trans same₃))
      | some pi =>
        refine Machine.Ends.bind (setFile_row _) fun _ k₄ same₄ => ?_
        exact Machine.Ends.bind (setFile_row _) fun _ k₅ same₅ => Machine.Ends.pure (same₅.trans (same₄.trans same₃))

theorem copyFds_row {fdarray fd₀ fd₁ : Nat} : Leaves (copyFds b p fdarray fd₀ fd₁) k fun _ k' => k'.proc = k.proc := by
  refine Machine.Ends.bind (still_leaves (onBelow_still _)) fun copied k₁ same => ?_
  refine Machine.Ends.ite (fun _ => ?_) fun _ => Machine.Ends.pure same
  exact (still_leaves (onBelow_still _)).mono fun _ k₂ same₂ => same₂.trans same

/-- The end of a `pipe` that fails. -/
theorem closeBoth_row {rf wf : Nat} : Leaves (do
    fileclose b rf
    fileclose b wf
    return (-1 : Int)) k fun _ k' => k'.proc = k.proc := by
  refine Machine.Ends.bind fileclose_row fun _ k₁ same₁ => ?_
  exact Machine.Ends.bind fileclose_row fun _ k₂ same₂ => Machine.Ends.pure (same₂.trans same₁)

theorem sys_pipe_row {fdarray : Nat} : Leaves (sys_pipe b p fdarray) k fun _ k' =>
    k'.proc p = k.proc p ∨ ∃ fd₀ f₀ fd₁ f₁, (k.proc p).lowest 0 = some fd₀ ∧
      ((k.proc p).install fd₀ (some f₀)).lowest 0 = some fd₁ ∧
      k'.proc p = ((k.proc p).install fd₀ (some f₀)).install fd₁ (some f₁) := by
  refine Machine.Ends.bind pipealloc_row fun r k₁ same₁ => ?_
  cases r with
  | none => exact Machine.Ends.pure (.inl (by rw [same₁]))
  | some files =>
    obtain ⟨rf, wf⟩ := files
    refine Machine.Ends.bind fdalloc2_row fun r k₂ row₀ => ?_
    rw [same₁] at row₀
    cases r with
    | none => exact closeBoth_row.mono fun _ k₃ same₃ => .inl (by rw [same₃, row₀])
    | some fd₀ =>
      obtain ⟨taken₀, row₀⟩ := row₀
      have free₀ := (lowest_free taken₀).1
      refine Machine.Ends.bind fdalloc2_row fun r k₃ row₁ => ?_
      rw [row₀] at row₁
      cases r with
      | none =>
        refine Machine.Ends.bind (setOfile_row none) fun _ k₄ row₂ => ?_
        rw [row₁, install_undo free₀] at row₂
        exact closeBoth_row.mono fun _ k₅ same₅ => .inl (by rw [same₅, row₂])
      | some fd₁ =>
        obtain ⟨taken₁, row₁⟩ := row₁
        have free₁ := (lowest_free taken₁).1
        refine Machine.Ends.bind copyFds_row fun _ k₄ same₄ => Machine.Ends.ite (fun _ => ?_) fun _ => ?_
        · exact Machine.Ends.pure (.inr ⟨fd₀, rf, fd₁, wf, taken₀, taken₁, by rw [same₄, row₁]⟩)
        · refine Machine.Ends.bind (setOfile_row none) fun _ k₅ row₅ => ?_
          refine Machine.Ends.bind (setOfile_row none) fun _ k₆ row₆ => ?_
          refine closeBoth_row.mono fun _ k₇ same₇ => .inl ?_
          have ne : fd₁ ≠ fd₀ := by
            rintro rfl
            rw [install_ofile] at free₁
            cases free₁
          rw [install_ofile_ne ne] at free₁
          rw [same₇, row₆, row₅, same₄, row₁, install_comm ne, install_undo free₀, install_undo free₁]

theorem sys_close_row : Leaves (sys_close b p n) k fun _ k' =>
    k'.proc p = k.proc p ∨ k'.proc p = (k.proc p).install n.toNat none := by
  refine Machine.Ends.bind (argfd_row true) ?_
  rintro r _ ⟨rfl, -⟩
  cases r with
  | none => exact Machine.Ends.pure (.inl rfl)
  | some f =>
    refine Machine.Ends.bind (setOfile_row none) fun _ k₁ row => ?_
    refine Machine.Ends.bind fileclose_row fun _ k₂ same => Machine.Ends.pure (.inr ?_)
    rw [same, row]

end AvxKernel.Fd
