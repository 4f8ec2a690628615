import AvxKernel.Fs.Descriptors
import AvxKernel.Fs.Removal

/-! The reference count of a directory entry is the number of files, working
directories and children that refer to it, after every call that does not keep the
reference of a look-up: `sys_faccessat` of a path that exists, `sys_fstatat` of one
under "/dev/null" and `sys_unlinkat` of one under "/tmp/testsuite-" keep it. -/
namespace AvxKernel.Fs

open Fd (Path cstr setProc setOfile argfd)

variable {δ α : Type} {k k' : Kernel δ} {T T' : Nat → Nat} {H : Nat → Option Nat} {n : Nat}
  {e f p q limit : Nat} {w : World δ} {disk : Disk δ} {path : Path}

/-! ### The calls on paths -/

theorem fromCwd_ledger {x : Option Nat → Cache δ Int} (h : Ledger k T H n)
    (owes : (∀ e, (k.proc p).cwd = some e → 0 < (files k + cwds k + T) e) →
      Prog.Ends p Orderly (x (k.proc p).cwd) k.below fun _ t =>
        Owes t (files k + cwds k + T) H n none) :
    Machine.Ends Orderly (fromCwd p x) k fun _ k' => Ledger k' T H n := by
  refine Machine.Ends.get_bind (onCache_ends ((owes fun e points => ?_).mono fun _ _ owes =>
    h.set_below owes))
  have held : 0 < files k e + cwds k e := h.cwd_held points
  simp only [Pi.add_apply]
  omega

theorem sys_remove_ledger (h : Ledger k T H n) :
    Machine.Ends Orderly (fromCwd p fun cwd => sys_remove disk limit cwd path) k fun _ k' =>
      Ledger k' T H n :=
  fromCwd_ledger h fun held => sys_remove_ends h.owes fun e points => h.owes.pos (held e points)

/-- A look-up from a state finds nothing, if it returns. -/
def Unresolved (disk : Disk δ) (limit : Nat) (k : Kernel δ) (p : Nat) (env : Option Nat) (path : Path) :
    Prop :=
  ∀ r k', onCache p (new_ename disk limit env (k.proc p).cwd path) k = .ok (r, k') → r = none

theorem sys_unlinkat_ledger (h : Ledger k T H n)
    (missing : endsInDot path = false → (cstr "/tmp/testsuite-").isPrefixOf path = true →
      Unresolved disk limit k p none path) :
    Machine.Ends Orderly (fromCwd p fun cwd => sys_unlinkat disk limit cwd path) k fun _ k' =>
      Ledger k' T H n := by
  refine fromCwd_ledger h fun held => sys_unlinkat_ends h.owes
    (fun e points => h.owes.pos (held e points)) fun proper special r t run => ?_
  exact missing proper special r _ (onCache_ok run)

theorem sys_rename_ledger {offset : Nat} {old new : Path} (h : Ledger k T H n) :
    Machine.Ends Orderly (fromCwd p fun cwd => sys_rename disk limit offset cwd old new) k fun _ k' =>
      Ledger k' T H n :=
  fromCwd_ledger h fun held => rename_ends h.owes (by simp) (by simp) held (.inl rfl)

theorem sys_mkdir_ledger (h : Ledger k T H n) :
    Machine.Ends Orderly (sys_mkdir limit w p path) k fun _ k' => Ledger k' T H n := by
  refine Machine.Ends.get_bind (Machine.Ends.bind (new_create_ledger h (by simp)
    fun e => h.cwd_held) ?_)
  rintro r k₁ ⟨-, locked⟩
  cases r with
  | none => exact Machine.Ends.pure locked
  | some ep =>
    obtain ⟨free, h₁⟩ := locked
    refine Machine.Ends.bind (eunlock_ledger h₁ (Function.update_self ..) (h₁.pos (by simp))) ?_
    rintro _ k₂ ⟨-, -, h₂⟩
    rw [update_back free] at h₂
    refine Machine.Ends.bind (eput_ledger h₂) ?_
    rintro _ k₃ ⟨-, h₃⟩
    exact Machine.Ends.pure h₃

theorem sys_chdir_ledger (h : Ledger k T H n) :
    Machine.Ends Orderly (sys_chdir limit w p path) k fun _ k' => Ledger k' T H n := by
  refine Machine.Ends.get_bind (Machine.Ends.bind (new_ename_ledger h (by simp)
    fun e => h.cwd_held) ?_)
  rintro r k₁ ⟨same₁, h₁⟩
  cases r with
  | none => exact Machine.Ends.pure (by simpa using h₁)
  | some ep =>
    refine Machine.Ends.bind (elock_ledger h₁) ?_
    rintro _ k₂ ⟨free, same₂, -, h₂⟩
    refine Machine.Ends.bind (entry_ledger h₂) ?_
    rintro d k₃ ⟨-, same₃, -, h₃⟩
    have mine : Function.update H ep (some p) ep = some p := Function.update_self ..
    refine Machine.Ends.ite (fun _ => ?_) fun _ => ?_
    · refine Machine.Ends.bind (eunlock_ledger h₃ mine (h₃.pos (by simp))) ?_
      rintro _ k₄ ⟨-, -, h₄⟩
      rw [update_back free] at h₄
      refine Machine.Ends.bind (eput_ledger h₄) ?_
      rintro _ k₅ ⟨-, h₅⟩
      exact Machine.Ends.pure h₅
    · refine Machine.Ends.bind (eunlock_ledger h₃ mine (h₃.pos (by simp))) ?_
      rintro _ k₄ ⟨same₄, -, h₄⟩
      rw [update_back free] at h₄
      have same := same₁.trans (same₂.trans (same₃.trans same₄))
      cases points : (k.proc p).cwd with
      | none => exact Machine.Ends.halt (by simp)
      | some cwd =>
        have points₄ : (k₄.proc p).cwd = some cwd := by rw [same.2, points]
        have live := (h₄.cwd p cwd points₄).2
        dsimp only
        rw [← bind_assoc]
        exact Machine.Ends.bind (replaceCwd_ledger h₄ points₄ (fun _ => rfl) fun _ => live)
          fun _ _ h₅ => Machine.Ends.pure h₅

/-- The entry in the slot of a descriptor's file, whatever the type of the file. -/
def slotEntry (k : Kernel δ) (p : Nat) (dirfd : Int) : Option Nat :=
  (fileOf k p dirfd).bind fun f => (k.file f).ep

/-- A descriptor of a file that is of no entry, in a slot that still points to one. -/
def stale (k : Kernel δ) (p : Nat) (dirfd : Int) : Prop :=
  ∃ f, fileOf k p dirfd = some f ∧ (k.file f).type ≠ .entry ∧ (k.file f).ep ≠ none

theorem held_of_fresh {dirfd : Int} (h : Ledger k T H n) (fresh : ¬stale k p dirfd) :
    ∀ e, slotEntry k p dirfd = some e → Held k e := by
  intro e points
  obtain ⟨f, found, ep⟩ := Option.bind_eq_some_iff.mp points
  by_cases isEntry : (k.file f).type = .entry
  · exact h.file_held isEntry ep
  · exact absurd ⟨f, found, isEntry, by rw [ep]; simp⟩ fresh

/-- `sys_fstatat` and `sys_faccessat` get past their check of the descriptor. -/
def dirfdPasses (k : Kernel δ) (p : Nat) (dirfd dirfd₀ : Int) : Prop :=
  fileOf k p dirfd ≠ none ∨ dirfdAfter dirfd dirfd₀ none = AT_FDCWD

/-- `sys_fstatat` gets as far as its look-up. -/
def fstatatLooks (k : Kernel δ) (p : Nat) (dirfd dirfd₀ : Int) : Prop :=
  dirfdPasses k p dirfd dirfd₀ ∧
    ∀ dp, slotEntry k p dirfd = some dp → (k.below.state.ent dp).isDir = true

theorem dirfdPasses_of {dirfd dirfd₀ : Int} (pass : ¬(fileOf k p dirfd = none ∧
    dirfdAfter dirfd dirfd₀ (fileOf k p dirfd) ≠ AT_FDCWD)) : dirfdPasses k p dirfd dirfd₀ := by
  by_cases found : fileOf k p dirfd = none
  · rw [found] at pass
    exact .inr (not_not.mp fun ne => pass ⟨rfl, ne⟩)
  · exact .inl found

theorem sys_fstatat_ledger {dirfd dirfd₀ : Int} {st : Nat} (h : Ledger k T H n)
    (fresh : fstatatLooks k p dirfd dirfd₀ → path.head? ≠ some 47 → ¬stale k p dirfd)
    (missing : fstatatLooks k p dirfd dirfd₀ → (cstr "/dev/null").isPrefixOf path = true →
      Unresolved w.toDisk limit k p (slotEntry k p dirfd) path) :
    Machine.Ends Orderly (sys_fstatat limit w p dirfd dirfd₀ path st) k fun _ k' =>
      Ledger k' T H n := by
  refine Machine.Ends.bind (argfd_ends (by simp)) ?_
  rintro fp _ ⟨rfl, rfl⟩
  refine Machine.Ends.get_bind (Machine.Ends.ite (fun _ => Machine.Ends.pure h) fun pass => ?_)
  refine Machine.Ends.ite (fun _ => Machine.Ends.pure h) fun dirs => ?_
  have looks : fstatatLooks k p dirfd dirfd₀ := by
    refine ⟨dirfdPasses_of pass, fun dp points => ?_⟩
    have points : ((fileOf k p dirfd).bind fun f => (k.file f).ep) = some dp := points
    rw [points] at dirs
    simpa using dirs
  refine Machine.Ends.bind (new_ename_ledger h (fun relative => held_of_fresh h (fresh looks relative))
    fun e => h.cwd_held).with_run ?_
  rintro r k₁ ⟨⟨-, h₁⟩, run⟩
  refine Machine.Ends.ite (fun null => ?_) fun _ => ?_
  · obtain rfl := missing looks null r k₁ run
    have blank : Machine.Ends Orderly (onCache p (entryIfSet none)) k₁ fun _ k' =>
        Ledger k' T H n := onCache_ends (Prog.Ends.pure (by simpa using h₁))
    refine Machine.Ends.bind blank fun d k₂ h₂ => ?_
    refine Machine.Ends.bind (onDisk_ledger _ h₂) ?_
    rintro copied k₃ ⟨-, h₃⟩
    exact Machine.Ends.ite (fun _ => Machine.Ends.pure h₃) fun _ => Machine.Ends.pure h₃
  · cases r with
    | none => exact Machine.Ends.pure (by simpa using h₁)
    | some ep =>
      refine Machine.Ends.bind (elock_ledger h₁) ?_
      rintro _ k₂ ⟨free, -, -, h₂⟩
      refine Machine.Ends.bind (entry_ledger h₂) ?_
      rintro d k₃ ⟨-, -, -, h₃⟩
      refine Machine.Ends.bind (eunlock_ledger h₃ (Function.update_self ..) (h₃.pos (by simp))) ?_
      rintro _ k₄ ⟨-, -, h₄⟩
      rw [update_back free] at h₄
      refine Machine.Ends.bind (eput_ledger h₄) ?_
      rintro _ k₅ ⟨-, h₅⟩
      refine Machine.Ends.bind (onDisk_ledger _ h₅) ?_
      rintro copied k₆ ⟨-, h₆⟩
      exact Machine.Ends.ite (fun _ => Machine.Ends.pure h₆) fun _ => Machine.Ends.pure h₆

/-- The directory from which `sys_faccessat` looks up. -/
def faccessatDir (k : Kernel δ) (p : Nat) (dirfd : Int) (path : Path) : Option Nat :=
  if path.head? = some 47 then none
  else if fileOf k p dirfd = none then (k.proc p).cwd
  else slotEntry k p dirfd

/-- The reference that the look-up returns is left over. -/
theorem sys_faccessat_owes {dirfd dirfd₀ : Int} {mode : Nat} (h : Ledger k T H n)
    (fresh : dirfdPasses k p dirfd dirfd₀ → path.head? ≠ some 47 → ¬stale k p dirfd) :
    Machine.Ends Orderly (sys_faccessat limit w p dirfd dirfd₀ path mode) k fun _ k' =>
      (¬dirfdPasses k p dirfd dirfd₀ ∧ Ledger k' T H n) ∨
      (dirfdPasses k p dirfd dirfd₀ ∧ ∃ r, Ledger k' (T + refTo r) H n ∧
        onCache p (new_ename w.toDisk limit (faccessatDir k p dirfd path) (k.proc p).cwd path) k =
          .ok (r, k')) := by
  refine Machine.Ends.bind (argfd_ends (by simp)) ?_
  rintro fp _ ⟨rfl, rfl⟩
  refine Machine.Ends.get_bind (Machine.Ends.ite (fun fails => ?_) fun pass => ?_)
  · refine Machine.Ends.pure (.inl ⟨?_, h⟩)
    rintro (found | special)
    · exact found fails.1
    · rw [fails.1] at fails
      exact fails.2 special
  have pass := dirfdPasses_of pass
  have held : path.head? ≠ some 47 → ∀ e, faccessatDir k p dirfd path = some e → Held k e := by
    intro relative e points
    unfold faccessatDir at points
    rw [if_neg relative] at points
    split at points
    · exact h.cwd_held points
    · exact held_of_fresh h (fresh pass relative) e points
  refine Machine.Ends.bind (new_ename_ledger h held fun e => h.cwd_held).with_run ?_
  rintro r k₁ ⟨⟨-, h₁⟩, run⟩
  cases r with
  | none => exact Machine.Ends.pure (.inr ⟨pass, none, h₁, run⟩)
  | some ep =>
    refine Machine.Ends.ite (fun _ => ?_) fun _ => Machine.Ends.ite (fun _ => ?_) fun _ => ?_
    · exact Machine.Ends.pure (.inr ⟨pass, some ep, h₁, run⟩)
    · exact Machine.Ends.pure (.inr ⟨pass, some ep, h₁, run⟩)
    · exact Machine.Ends.pure (.inr ⟨pass, some ep, h₁, run⟩)

/-! ### Pipes -/

theorem pipealloc_ledger (h : Ledger k T H n) :
    Machine.Ends Orderly (Fd.pipealloc (below limit w p)) k fun _ k' => Ledger k' T H n := by
  refine Machine.Ends.bind (filealloc_ledger h) ?_
  rintro r₀ k₁ ⟨h₁, -, blank₀⟩
  cases r₀ with
  | none => exact Machine.Ends.pure h₁
  | some f₀ =>
    refine Machine.Ends.bind (filealloc_ledger h₁) ?_
    rintro r₁ k₂ ⟨h₂, kept₂, blank₁⟩
    cases r₁ with
    | none =>
      refine Machine.Ends.bind (fileclose_ledger h₂) ?_
      rintro _ k₃ ⟨-, h₃⟩
      exact Machine.Ends.pure h₃
    | some f₁ =>
      have blank₀ : Blank k₂ f₀ := by
        obtain ⟨inside, used, notEntry⟩ := blank₀ f₀ rfl
        unfold Blank
        rw [kept₂ f₀ used]
        exact ⟨inside, used, notEntry⟩
      refine Machine.Ends.bind (kallocPipe_below h₂) ?_
      rintro pi k₃ ⟨same₃, h₃⟩
      cases pi with
      | none =>
        refine Machine.Ends.bind (fileclose_ledger h₃) ?_
        rintro _ k₄ ⟨-, h₄⟩
        refine Machine.Ends.bind (fileclose_ledger h₄) ?_
        rintro _ k₅ ⟨-, h₅⟩
        exact Machine.Ends.pure h₅
      | some pi =>
        have notEntry₀ : entryOf (k₃.file f₀) = none := by
          rw [same₃.1]
          exact if_neg blank₀.2.2
        have notEntry₁ : (k₃.file f₁).type ≠ .entry := by
          rw [same₃.1]
          exact (blank₁ f₁ rfl).2.2
        refine Machine.Ends.bind (R := fun _ k' => entryOf (k'.file f₁) = none ∧ Ledger k' T H n)
          (Machine.Ends.modify ⟨?_, h₃.set_file ?_ fun isEntry => ?_⟩) ?_
        · rcases eq_or_ne f₁ f₀ with rfl | ne
          · simp [entryOf]
          · simpa [entryOf, ne] using fun isEntry => absurd isEntry notEntry₁
        · rw [notEntry₀]
          simp [entryOf]
        · cases isEntry
        rintro _ k₄ ⟨notEntry₄, h₄⟩
        refine Machine.Ends.bind (Machine.Ends.modify (Q := fun _ k' => Ledger k' T H n)
          (h₄.set_file ?_ fun isEntry => ?_)) fun _ k₅ h₅ => Machine.Ends.pure h₅
        · rw [notEntry₄]
          simp [entryOf]
        · cases isEntry

theorem copyFds_ledger {fdarray fd₀ fd₁ : Nat} (h : Ledger k T H n) :
    Machine.Ends Orderly (Fd.copyFds (below limit w p) q fdarray fd₀ fd₁) k fun _ k' =>
      Ledger k' T H n := by
  refine Machine.Ends.bind (copyout_below h) ?_
  rintro copied k₁ ⟨-, h₁⟩
  refine Machine.Ends.ite (fun _ => (copyout_below h₁).mono ?_) fun _ => Machine.Ends.pure h₁
  exact fun _ _ h => h.2

/-- The end of `sys_pipe` where it fails. -/
theorem closeBoth_ledger {f₀ f₁ : Nat} (h : Ledger k T H n) :
    Machine.Ends Orderly (do
        Fd.fileclose (below limit w p) f₀
        Fd.fileclose (below limit w p) f₁
        return -1 : Call δ Int) k fun _ k' => Ledger k' T H n := by
  refine Machine.Ends.bind (fileclose_ledger h) ?_
  rintro _ k₁ ⟨-, h₁⟩
  refine Machine.Ends.bind (fileclose_ledger h₁) ?_
  rintro _ k₂ ⟨-, h₂⟩
  exact Machine.Ends.pure h₂

theorem sys_pipe_ledger {fdarray : Nat} (h : Ledger k T H n) :
    Machine.Ends Orderly (Fd.sys_pipe (below limit w p) p fdarray) k fun _ k' => Ledger k' T H n := by
  refine Machine.Ends.bind (pipealloc_ledger h) fun r k₁ h₁ => ?_
  cases r with
  | none => exact Machine.Ends.pure h₁
  | some r =>
    refine Machine.Ends.bind (fdalloc2_ledger h₁) ?_
    rintro fd₀ k₂ ⟨-, h₂⟩
    cases fd₀ with
    | none => exact closeBoth_ledger h₂
    | some fd₀ =>
      refine Machine.Ends.bind (fdalloc2_ledger h₂) ?_
      rintro fd₁ k₃ ⟨-, h₃⟩
      cases fd₁ with
      | none =>
        refine Machine.Ends.bind (setOfile_ledger h₃) ?_
        rintro _ k₄ ⟨-, -, h₄⟩
        exact closeBoth_ledger h₄
      | some fd₁ =>
        refine Machine.Ends.bind (copyFds_ledger h₃) fun copied k₄ h₄ => ?_
        refine Machine.Ends.ite (fun _ => Machine.Ends.pure h₄) fun _ => ?_
        refine Machine.Ends.bind (setOfile_ledger h₄) ?_
        rintro _ k₅ ⟨-, -, h₅⟩
        refine Machine.Ends.bind (setOfile_ledger h₅) ?_
        rintro _ k₆ ⟨-, -, h₆⟩
        exact closeBoth_ledger h₆

/-! ### `exec` -/

theorem execBad_ledger (interpreter ep : Option Nat) {H' : Nat → Option Nat}
    (h : Ledger k (T + refTo ep + refTo interpreter) H' n)
    (locks : ∃ H₁, (match ep with
      | none => H₁ = H
      | some e => H e = none ∧ H₁ = Function.update H e (some p)) ∧ match interpreter with
      | none => H' = H₁
      | some e => H₁ e = none ∧ H' = Function.update H₁ e (some p)) :
    Machine.Ends Orderly (execBad limit w p interpreter ep) k fun _ k' => Ledger k' T H n := by
  obtain ⟨H₁, lockEp, lockInterpreter⟩ := locks
  refine Machine.Ends.bind (R := fun _ k' => Ledger k' (T + refTo ep) H₁ n) ?_ fun _ k₁ h₁ => ?_
  · cases interpreter with
    | none =>
      obtain rfl := lockInterpreter
      exact Machine.Ends.pure (by simpa using h)
    | some e =>
      obtain ⟨free, rfl⟩ := lockInterpreter
      refine Machine.Ends.bind (eunlock_ledger h (Function.update_self ..) (h.pos (by simp))) ?_
      rintro _ k₂ ⟨-, -, h₂⟩
      rw [update_back free] at h₂
      exact (eput_ledger h₂).mono fun _ _ h => h.2
  · refine Machine.Ends.bind (R := fun _ k' => Ledger k' T H n) ?_ fun _ k₂ h₂ =>
      Machine.Ends.pure h₂
    cases ep with
    | none =>
      obtain rfl := lockEp
      exact Machine.Ends.pure (by simpa using h₁)
    | some e =>
      obtain ⟨free, rfl⟩ := lockEp
      refine Machine.Ends.bind (eunlock_ledger h₁ (Function.update_self ..) (h₁.pos (by simp))) ?_
      rintro _ k₂ ⟨-, -, h₂⟩
      rw [update_back free] at h₂
      exact (eput_ledger h₂).mono fun _ _ h => h.2

theorem closeOnExec_ledger (h : Ledger k T H n) :
    Machine.Ends Orderly (closeOnExec limit w p) k fun _ k' => Ledger k' T H n := by
  refine Machine.Ends.get_bind (Machine.Ends.forM (I := fun k => Ledger k T H n) ?_ _ h)
  intro fd k h
  refine Machine.Ends.get_bind ?_
  cases (k.proc p).ofile fd with
  | none => exact Machine.Ends.pure h
  | some f =>
    refine Machine.Ends.ite (fun _ => ?_) fun _ => Machine.Ends.pure h
    refine Machine.Ends.bind (fileclose_ledger h) ?_
    rintro _ k₁ ⟨-, h₁⟩
    refine Machine.Ends.bind (setOfile_ledger h₁) ?_
    rintro _ k₂ ⟨-, -, h₂⟩
    refine (setProc_ledger (g := fun pr => { pr with
      exec_close := Function.update pr.exec_close fd 0 }) h₂ fun _ => ⟨rfl, rfl⟩).mono ?_
    exact fun _ _ h => h.2.2

theorem redirect_ledger {r : Redirection} (h : Ledger k T H n) :
    Machine.Ends Orderly (redirect limit w p r) k fun _ k' => Ledger k' T H n := by
  refine Machine.Ends.get_bind ?_
  cases (k.proc p).ofile 1 with
  | none => exact Machine.Ends.halt (by simp)
  | some f =>
    refine Machine.Ends.bind (fileclose_ledger h) ?_
    rintro _ k₁ ⟨-, h₁⟩
    refine Machine.Ends.bind (setOfile_ledger h₁) ?_
    rintro _ k₂ ⟨-, -, h₂⟩
    refine Machine.Ends.bind (open_ledger h₂) fun fd k₃ h₃ => ?_
    refine Machine.Ends.ite (fun _ => Machine.Ends.pure h₃) fun _ => ?_
    refine Machine.Ends.bind (setProc_ledger h₃ fun _ => ⟨rfl, rfl⟩) ?_
    rintro _ k₄ ⟨-, -, h₄⟩
    exact Machine.Ends.pure h₄

/-- With the program's entry locked: it stays so only if the interpreter is loaded. -/
theorem loadInterpreter_ledger {ep : Nat} {is_dynamic : Bool}
    (h : Ledger k (T + one ep) (Function.update H ep (some p)) n) (free : H ep = none) :
    Machine.Ends Orderly (loadInterpreter limit w p ep is_dynamic) k fun r k' =>
      if r then Ledger k' (T + one ep) (Function.update H ep (some p)) n else Ledger k' T H n := by
  refine Machine.Ends.ite (fun _ => ?_) fun _ => Machine.Ends.pure h
  refine Machine.Ends.get_bind (Machine.Ends.bind (new_ename_ledger h (by simp)
    fun e => h.cwd_held) ?_)
  rintro r k₁ ⟨-, h₁⟩
  cases r with
  | none =>
    refine Machine.Ends.bind (execBad_ledger none (some ep) h₁
      ⟨_, ⟨free, rfl⟩, rfl⟩) fun _ k₂ h₂ => ?_
    exact Machine.Ends.pure h₂
  | some interpreter =>
    refine Machine.Ends.bind (elock_ledger h₁) ?_
    rintro _ k₂ ⟨free₂, -, -, h₂⟩
    refine Machine.Ends.bind (onDisk_ledger _ h₂) ?_
    rintro read k₃ ⟨-, h₃⟩
    refine Machine.Ends.ite (fun _ => ?_) fun _ => ?_
    · refine Machine.Ends.bind (onDisk_ledger _ h₃) ?_
      rintro _ k₄ ⟨-, h₄⟩
      refine Machine.Ends.bind (eunlock_ledger h₄ (Function.update_self ..) (h₄.pos (by simp))) ?_
      rintro _ k₅ ⟨-, -, h₅⟩
      rw [update_back free₂] at h₅
      refine Machine.Ends.bind (eput_ledger h₅) ?_
      rintro _ k₆ ⟨-, h₆⟩
      exact Machine.Ends.pure h₆
    · refine Machine.Ends.bind (execBad_ledger (some interpreter) (some ep) h₃
        ⟨_, ⟨free, rfl⟩, free₂, rfl⟩) fun _ k₄ h₄ => ?_
      exact Machine.Ends.pure h₄

theorem exec_ledger {initproc : Nat} (h : Ledger k T H n) :
    Machine.Ends Orderly (exec limit w initproc p path) k fun _ k' => Ledger k' T H n := by
  refine Machine.Ends.ite (fun _ => ?_) fun _ => Machine.Ends.get_bind ?_
  · exact Machine.Ends.bind (exit_ledger h) fun _ _ h₁ => Machine.Ends.pure h₁
  have bad : ∀ {k}, Ledger k T H n → Machine.Ends Orderly (do
      return some (← execBad limit w p none none) : Call δ (Option Int)) k fun _ k' =>
      Ledger k' T H n := fun h =>
    Machine.Ends.bind (execBad_ledger none none (H := H) (by simpa using h) ⟨_, rfl, rfl⟩) fun _ _ h =>
      Machine.Ends.pure h
  refine Machine.Ends.bind (new_ename_ledger h (by simp) fun e => h.cwd_held) ?_
  rintro r k₁ ⟨-, h₁⟩
  cases r with
  | none => exact bad (by simpa using h₁)
  | some ep =>
    refine Machine.Ends.bind (elock_ledger h₁) ?_
    rintro _ k₂ ⟨free, -, -, h₂⟩
    have badEp : ∀ {k}, Ledger k (T + one ep) (Function.update H ep (some p)) n →
        Machine.Ends Orderly (do
          return some (← execBad limit w p none (some ep)) : Call δ (Option Int)) k fun _ k' =>
        Ledger k' T H n := fun h =>
      Machine.Ends.bind (execBad_ledger none (some ep) h
        ⟨_, ⟨free, rfl⟩, rfl⟩) fun _ _ h => Machine.Ends.pure h
    refine Machine.Ends.bind (onDisk_ledger _ h₂) ?_
    rintro read k₃ ⟨-, h₃⟩
    refine Machine.Ends.ite (fun _ => badEp h₃) fun _ => ?_
    refine Machine.Ends.bind (onDisk_ledger _ h₃) ?_
    rintro made k₄ ⟨-, h₄⟩
    refine Machine.Ends.ite (fun _ => badEp h₄) fun _ => ?_
    refine Machine.Ends.bind (onDisk_ledger _ h₄) ?_
    rintro is_dynamic k₅ ⟨-, h₅⟩
    refine Machine.Ends.bind (loadInterpreter_ledger h₅ free) fun r k₆ h₆ => ?_
    refine Machine.Ends.ite (fun ok => ?_) fun failed => ?_
    · rw [if_pos ok] at h₆
      refine Machine.Ends.bind (eunlock_ledger h₆ (Function.update_self ..) (h₆.pos (by simp))) ?_
      rintro _ k₇ ⟨-, -, h₇⟩
      rw [update_back free] at h₇
      refine Machine.Ends.bind (eput_ledger h₇) ?_
      rintro _ k₈ ⟨-, h₈⟩
      refine Machine.Ends.bind (onDisk_ledger _ h₈) ?_
      rintro args k₉ ⟨-, h₉⟩
      cases args with
      | none => exact bad h₉
      | some args =>
        refine Machine.Ends.bind (closeOnExec_ledger h₉) fun _ k₁₀ h₁₀ => ?_
        cases args.redirection with
        | none => exact Machine.Ends.pure h₁₀
        | some r =>
          refine Machine.Ends.bind (redirect_ledger h₁₀) fun opened k₁₁ h₁₁ => ?_
          exact Machine.Ends.ite (fun _ => Machine.Ends.pure h₁₁) fun _ => bad h₁₁
    · rw [if_neg failed] at h₆
      exact Machine.Ends.pure h₆

end AvxKernel.Fs
