import AvxKernel.Fs.Holders

/-! The calls on descriptors, `fork` and `exit` over the cache: each leaves the
account of references and the locks as they were. -/
namespace AvxKernel.Fs

open Fd (Path setFile setProc setOfile fileclose)

variable {δ α : Type} {k k' : Kernel δ} {T T' : Nat → Nat} {H : Nat → Option Nat} {n : Nat}
  {e f p q fd limit : Nat} {w : World δ} {disk : Disk δ}

/-! ### Files -/

theorem release_ledger {ff : Fd.File Nat Nat} (h : Ledger k (T + refTo (entryOf ff)) H n) :
    Machine.Ends Orderly (Fd.release (below limit w p) ff) k fun _ k' =>
      Below k k' ∧ Ledger k' T H n := by
  have other : ff.type ≠ .entry → Ledger k T H n := fun ne => by
    rwa [entryOf, if_neg ne, refTo_none, add_zero] at h
  unfold Fd.release
  split
  · rename_i isPipe _
    exact pipeclose_below (other (by rw [isPipe]; decide))
  · rename_i isEntry points
    rw [entryOf, if_pos isEntry, points, refTo_some] at h
    exact eput_below h
  · exact Machine.Ends.halt (by simp)
  · exact Machine.Ends.halt (by simp)
  · rename_i noEntry noEp
    refine Machine.Ends.pure ⟨Below.refl k, other fun isEntry => ?_⟩
    cases points : ff.ep with
    | none => exact noEp isEntry points
    | some ep => exact noEntry ep isEntry points

theorem fileclose_ledger (h : Ledger k T H n) :
    Machine.Ends Orderly (fileclose (below limit w p) f) k fun _ k' =>
      k'.proc = k.proc ∧ Ledger k' T H n := by
  refine Machine.Ends.get_bind (Machine.Ends.ite (fun _ => Machine.Ends.halt (by simp)) fun _ => ?_)
  refine Machine.Ends.ite (fun more => ?_) fun _ => ?_
  · refine Machine.Ends.modify ⟨rfl, h.set_file rfl fun isEntry => ?_⟩
    obtain ⟨inside, -, points⟩ := h.file f isEntry
    exact ⟨inside, more, points⟩
  · refine Machine.Ends.bind (R := fun _ k' => k'.proc = k.proc ∧
      Ledger k' (T + refTo (entryOf (k.file f))) H n)
      (Machine.Ends.modify ⟨rfl, h.set_file ?_ fun isEntry => ?_⟩) ?_
    · have : entryOf { k.file f with ref := 0, type := .none } = none := if_neg (by simp)
      rw [this, refTo_none, add_zero]
    · cases isEntry
    · rintro _ k₁ ⟨proc, h₁⟩
      refine (release_ledger h₁).mono ?_
      rintro _ k₂ ⟨same, h₂⟩
      exact ⟨same.2.trans proc, h₂⟩

theorem setProc_ledger {g : Fd.Proc Nat → Fd.Proc Nat} (h : Ledger k T H n)
    (same : ∀ pr, (g pr).cwd = pr.cwd ∧ (g pr).state = pr.state) :
    Machine.Ends Orderly (setProc q g) k fun _ k' =>
      k'.file = k.file ∧ (∀ r, (k'.proc r).state = (k.proc r).state) ∧ Ledger k' T H n := by
  refine Machine.Ends.modify ⟨rfl, fun r => ?_, h.same_proc (same _)⟩
  rcases eq_or_ne r q with rfl | ne
  · simp [same]
  · simp [ne]

theorem setOfile_ledger {v : Option Nat} (h : Ledger k T H n) :
    Machine.Ends Orderly (setOfile q fd v) k fun _ k' =>
      k'.file = k.file ∧ (∀ r, (k'.proc r).state = (k.proc r).state) ∧ Ledger k' T H n := by
  unfold setOfile
  exact setProc_ledger h fun _ => ⟨rfl, rfl⟩

/-- A file that is new, and refers to nothing. -/
def Blank (k : Kernel δ) (f : Nat) : Prop :=
  f < Fd.NFILE ∧ 0 < (k.file f).ref ∧ (k.file f).type ≠ .entry

theorem filealloc_ledger (h : Ledger k T H n) :
    Machine.Ends Orderly Fd.filealloc k fun r k' =>
      Ledger k' T H n ∧ (∀ g, 0 < (k.file g).ref → k'.file g = k.file g) ∧
        ∀ f, r = some f → Blank k' f := by
  refine Machine.Ends.get_bind ?_
  cases found : (List.range Fd.NFILE).find? fun f => (k.file f).ref == 0 with
  | none => exact Machine.Ends.pure ⟨h, by simp, by simp⟩
  | some f =>
    have free : (k.file f).ref = 0 := by simpa using List.find?_some found
    have inside : f < Fd.NFILE := List.mem_range.mp (List.mem_of_find?_eq_some found)
    have notEntry : (k.file f).type ≠ .entry := fun isEntry => by
      have used := (h.file f isEntry).2.1
      rw [free] at used
      exact absurd used (by decide)
    refine Machine.Ends.bind (Machine.Ends.modify (Q := fun _ k' => Ledger k' T H n ∧
      (∀ g, 0 < (k.file g).ref → k'.file g = k.file g) ∧ Blank k' f)
      ⟨h.set_file rfl fun isEntry => ?_, fun g used => ?_, inside, ?_, ?_⟩) ?_
    · exact absurd isEntry notEntry
    · refine Function.update_of_ne ?_ ..
      rintro rfl
      rw [free] at used
      exact absurd used (by decide)
    · simp
    · simpa using notEntry
    · rintro _ k₁ ⟨h₁, others, blank⟩
      refine Machine.Ends.pure ⟨h₁, others, ?_⟩
      rintro f' eq
      cases eq
      exact blank

theorem fdalloc2_ledger {start : Int} (h : Ledger k T H n) :
    Machine.Ends Orderly (Fd.fdalloc2 p f start) k fun _ k' =>
      k'.file = k.file ∧ Ledger k' T H n := by
  refine Machine.Ends.get_bind ?_
  dsimp only
  cases (List.range (k.proc p).limit).find?
      fun fd => start.toNat ≤ fd && ((k.proc p).ofile fd).isNone with
  | none => exact Machine.Ends.pure ⟨rfl, h⟩
  | some fd =>
    refine Machine.Ends.ite (fun _ => Machine.Ends.pure ⟨rfl, h⟩) fun _ => ?_
    refine Machine.Ends.bind (setOfile_ledger h) ?_
    rintro _ k₁ ⟨file, -, h₁⟩
    exact Machine.Ends.pure ⟨file, h₁⟩

theorem allocFd_ledger (h : Ledger k T H n) :
    Machine.Ends Orderly (Fd.allocFd (below limit w p) p) k fun r k' =>
      Ledger k' T H n ∧ ∀ f fd, r = some (f, fd) → Blank k' f ∧
        ∀ g, (k.file g).type = .entry → k'.file g = k.file g := by
  refine Machine.Ends.bind (filealloc_ledger h) ?_
  rintro r k₁ ⟨h₁, others, blank⟩
  cases r with
  | none => exact Machine.Ends.pure ⟨h₁, by simp⟩
  | some f =>
    refine Machine.Ends.bind (fdalloc2_ledger h₁) ?_
    rintro r k₂ ⟨file, h₂⟩
    cases r with
    | none =>
      refine Machine.Ends.bind (fileclose_ledger h₂) ?_
      rintro _ k₃ ⟨-, h₃⟩
      exact Machine.Ends.pure ⟨h₃, by simp⟩
    | some fd =>
      refine Machine.Ends.pure ⟨h₂, ?_⟩
      rintro f' fd' eq
      cases eq
      have blank := blank f rfl
      unfold Blank at blank ⊢
      rw [file]
      exact ⟨blank, fun g isEntry => others g (h.file g isEntry).2.1⟩

theorem filedup_ledger (h : Ledger k T H n) :
    Machine.Ends Orderly (Fd.filedup f) k fun a k' => a = f ∧ k'.proc = k.proc ∧ Ledger k' T H n := by
  refine Machine.Ends.get_bind (Machine.Ends.ite (fun _ => Machine.Ends.halt (by simp)) fun _ => ?_)
  refine Machine.Ends.bind (Machine.Ends.modify (Q := fun _ k' => k'.proc = k.proc ∧
    Ledger k' T H n) ⟨rfl, h.set_file rfl fun isEntry => ?_⟩) ?_
  · obtain ⟨inside, used, points⟩ := h.file f isEntry
    exact ⟨inside, by dsimp only; omega, points⟩
  · rintro _ k₁ ⟨proc, h₁⟩
    exact Machine.Ends.pure ⟨rfl, proc, h₁⟩

/-- The file of a descriptor. -/
def fileOf (k : Kernel δ) (p : Nat) (dirfd : Int) : Option Nat :=
  if dirfd < 0 ∨ NOFILE ≤ dirfd then none else (k.proc p).ofile dirfd.toNat

theorem argfd_ends {may : Halt → Prop} {pfd : Bool} {dirfd : Int} (fault : may .fault) :
    Machine.Ends may (Fd.argfd p pfd dirfd) k fun r k' => k = k' ∧ r = fileOf k p dirfd := by
  refine Machine.Ends.get_bind (Machine.Ends.ite (fun special => ?_) fun _ => ?_)
  · refine Machine.Ends.ite (fun _ => ?_) fun _ => ?_
    · exact Machine.Ends.pure ⟨rfl, by rw [fileOf, if_pos (.inl (by omega))]⟩
    · exact Machine.Ends.halt fault
  · refine Machine.Ends.ite (fun outside => ?_) fun inside => ?_
    · exact Machine.Ends.pure ⟨rfl, by rw [fileOf, if_pos outside]⟩
    · exact Machine.Ends.pure ⟨rfl, by rw [fileOf, if_neg inside]⟩

theorem argfd_ok {dirfd : Int} : Fd.argfd p true dirfd k = .ok (fileOf k p dirfd, k) := by
  unfold Fd.argfd fileOf
  rw [Machine.bind_of_ok (Machine.get_run k)]
  by_cases outside : dirfd < 0 ∨ NOFILE ≤ dirfd
  · rw [if_pos outside, if_pos outside]
    split <;> rfl
  · rw [if_neg outside, if_neg outside, if_neg (by omega)]
    rfl

theorem isDir_ends {may : Halt → Prop} {ep : Nat} :
    Machine.Ends may (Fd.isDir (below limit w p) ep) k fun r k' =>
      k = k' ∧ r = (k.below.state.ent ep).isDir :=
  Machine.Ends.get_bind (Machine.Ends.pure ⟨rfl, rfl⟩)

/-! ### Opening -/

/-- What a call that makes or looks up a locked entry returns. -/
def Locked (T : Nat → Nat) (H : Nat → Option Nat) (n p : Nat) (r : Option Nat) (k : Kernel δ) :
    Prop :=
  match r with
  | none => Ledger k T H n
  | some ep => H ep = none ∧ Ledger k (T + one ep) (Function.update H ep (some p)) n

theorem new_create_ledger {env cwd : Option Nat} {rounds : Nat} {path : Path} {dir : Bool}
    (h : Ledger k T H n) (fromEnv : ∀ e, env = some e → Held k e)
    (fromCwd : ∀ e, cwd = some e → Held k e) :
    Machine.Ends Orderly (Fd.new_create (below limit w p) env cwd rounds path dir) k fun r k' =>
      Below k k' ∧ Locked T H n p r k' := by
  induction rounds generalizing k path dir with
  | zero => exact Machine.Ends.halt orderly_diverge
  | succ rounds ih =>
    unfold Fd.new_create
    refine Machine.Ends.bind (new_enameparent_below h (fun _ => fromEnv) fromCwd) ?_
    rintro ⟨dp, name⟩ k₁ ⟨same₁, h₁⟩
    refine Machine.Ends.bind (R := fun r k' => Below k k' ∧ Locked T H n p r.1 k') ?_ ?_
    · cases dp with
      | some dp =>
        refine Machine.Ends.bind (elock_below h₁) ?_
        rintro _ k₂ ⟨free, same₂, -, h₂⟩
        exact Machine.Ends.pure ⟨same₁.trans same₂, free, h₂⟩
      | none =>
        rw [refTo_none, add_zero] at h₁
        refine Machine.Ends.bind (ih h₁ (fun e eq => same₁.held (fromEnv e eq))
          fun e eq => same₁.held (fromCwd e eq)) ?_
        rintro r k₂ ⟨same₂, locked⟩
        exact Machine.Ends.pure ⟨same₁.trans same₂, locked⟩
    rintro ⟨dp, name⟩ k₂ ⟨same₂, locked⟩
    cases dp with
    | none => exact Machine.Ends.pure ⟨same₂, locked⟩
    | some dp =>
      obtain ⟨free, h₂⟩ := locked
      have mine : Function.update H dp (some p) dp = some p := Function.update_self ..
      refine Machine.Ends.bind (ealloc_below h₂ (by simp)) ?_
      rintro r k₃ ⟨same₃, h₃⟩
      have same₃ := same₂.trans same₃
      cases r with
      | none =>
        rw [refTo_none, add_zero] at h₃
        refine Machine.Ends.bind (eunlock_below h₃ mine (h₃.pos (by simp))) ?_
        rintro _ k₄ ⟨same₄, -, h₄⟩
        rw [update_back free] at h₄
        refine Machine.Ends.bind (eput_below h₄) ?_
        rintro _ k₅ ⟨same₅, h₅⟩
        exact Machine.Ends.pure ⟨same₃.trans (same₄.trans same₅), h₅⟩
      | some ep =>
        rw [refTo_some, add_right_comm] at h₃
        refine Machine.Ends.bind isDir_ends ?_
        rintro isDir _ ⟨rfl, -⟩
        refine Machine.Ends.ite (fun _ => ?_) fun _ => ?_
        · refine Machine.Ends.bind (eunlock_below h₃ mine (h₃.pos (by simp))) ?_
          rintro _ k₄ ⟨same₄, -, h₄⟩
          rw [update_back free, add_right_comm] at h₄
          refine Machine.Ends.bind (eput_below h₄) ?_
          rintro _ k₅ ⟨same₅, h₅⟩
          refine Machine.Ends.bind (eput_below h₅) ?_
          rintro _ k₆ ⟨same₆, h₆⟩
          exact Machine.Ends.pure ⟨same₃.trans (same₄.trans (same₅.trans same₆)), h₆⟩
        · refine Machine.Ends.bind (eunlock_below h₃ mine (h₃.pos (by simp))) ?_
          rintro _ k₄ ⟨same₄, -, h₄⟩
          rw [update_back free] at h₄
          refine Machine.Ends.bind (eput_below h₄) ?_
          rintro _ k₅ ⟨same₅, h₅⟩
          refine Machine.Ends.bind (elock_below h₅) ?_
          rintro _ k₆ ⟨free', same₆, -, h₆⟩
          exact Machine.Ends.pure ⟨same₃.trans (same₄.trans (same₅.trans same₆)), free', h₆⟩

/-- A blank file takes over the reference to a locked entry. -/
theorem pointFile_ledger {ep : Nat} {readable writable : Bool} {off : Kernel δ → Nat}
    (h : Ledger k (T + one ep) (Function.update H ep (some p)) n) (free : H ep = none)
    (blank : Blank k f) :
    Machine.Ends Orderly (do
        let k ← get
        setFile f fun file => { file with
          type := .entry, off := off k, ep := some ep, readable := readable, writable := writable }
        Fd.onBelow ((below limit w p).eunlock ep) : Call δ Unit) k fun _ k' =>
      Ledger k' T H n ∧ k'.proc = k.proc ∧ (∀ g ≠ f, k'.file g = k.file g) := by
  refine Machine.Ends.get_bind ?_
  obtain ⟨inside, used, notEntry⟩ := blank
  refine Machine.Ends.bind (R := fun _ k' => k'.proc = k.proc ∧ (∀ g ≠ f, k'.file g = k.file g) ∧
    Held k' ep ∧ Ledger k' T (Function.update H ep (some p)) n) ?_ ?_
  · have before : entryOf (k.file f) = none := if_neg notEntry
    have h₁ : Ledger { k with file := Function.update k.file f { k.file f with
        type := .entry, off := off k, ep := some ep, readable := readable, writable := writable } }
        T (Function.update H ep (some p)) n := h.set_file (by
          rw [before, refTo_none, add_zero]
          rfl) fun _ => ⟨inside, used, ep, rfl⟩
    refine Machine.Ends.modify ⟨rfl, fun g ne => Function.update_of_ne ne .., ?_, h₁⟩
    exact h₁.file_held (f := f) (by simp) (by simp)
  rintro _ k₁ ⟨proc, others, held, h₁⟩
  refine (eunlock_below h₁ (Function.update_self ..) (h₁.held_pos held)).mono ?_
  rintro _ k₂ ⟨same₂, -, h₂⟩
  rw [update_back free] at h₂
  exact ⟨h₂, same₂.2.trans proc, fun g ne => by rw [same₂.1, others g ne]⟩

theorem openEntry_ledger {ep : Nat} {flags : UInt32}
    (h : Ledger k (T + one ep) (Function.update H ep (some p)) n) (free : H ep = none)
    (blank : Blank k f) :
    Machine.Ends Orderly (Fd.openEntry (below limit w p) f ep flags) k fun _ k' =>
      Ledger k' T H n ∧ k'.proc = k.proc ∧ (∀ g ≠ f, k'.file g = k.file g) := by
  unfold Fd.openEntry
  refine Machine.Ends.bind isDir_ends ?_
  rintro isDir _ ⟨rfl, -⟩
  refine Machine.Ends.ite (fun _ => Machine.Ends.bind (etrunc_below h) ?_) fun _ => ?_
  · rintro _ k₁ ⟨same₁, h₁⟩
    unfold Blank at blank
    rw [← same₁.1] at blank
    refine (pointFile_ledger h₁ free blank).mono ?_
    rintro _ k₂ ⟨h₂, proc, others⟩
    exact ⟨h₂, proc.trans same₁.2, fun g ne => by rw [others g ne, same₁.1]⟩
  · exact pointFile_ledger h free blank

/-- The end of a look-up that returns a locked entry, or puts it back. -/
theorem lockedOr_ledger {c : Prop} [Decidable c] {ep : Nat}
    (h : Ledger k (T + one ep) (Function.update H ep (some p)) n) (free : H ep = none) :
    Machine.Ends Orderly (if c then do
        Fd.onBelow ((below limit w p).eunlock ep)
        Fd.onBelow ((below limit w p).eput ep)
        return none
      else return some ep : Call δ (Option Nat)) k fun r k' =>
      Below k k' ∧ Locked T H n p r k' := by
  refine Machine.Ends.ite (fun _ => ?_) fun _ => ?_
  · refine Machine.Ends.bind (eunlock_below h (Function.update_self ..) (h.pos (by simp))) ?_
    rintro _ k₁ ⟨same₁, -, h₁⟩
    rw [update_back free] at h₁
    refine Machine.Ends.bind (eput_below h₁) ?_
    rintro _ k₂ ⟨same₂, h₂⟩
    exact Machine.Ends.pure ⟨same₁.trans same₂, h₂⟩
  · exact Machine.Ends.pure ⟨Below.refl k, free, h⟩

theorem openLookup_ledger {rounds : Nat} {path : Path} {omode : UInt32} {cwd : Option Nat}
    (h : Ledger k T H n) (fromCwd : ∀ e, cwd = some e → Held k e) :
    Machine.Ends Orderly (Fd.openLookup (below limit w p) rounds cwd path omode) k fun r k' =>
      Below k k' ∧ Locked T H n p r k' := by
  refine Machine.Ends.ite (fun _ => new_create_ledger h (by simp) fromCwd) fun _ => ?_
  refine Machine.Ends.bind (new_ename_below h (by simp) fromCwd) ?_
  rintro r k₁ ⟨same₁, h₁⟩
  cases r with
  | none =>
    rw [refTo_none, add_zero] at h₁
    exact Machine.Ends.pure ⟨same₁, h₁⟩
  | some ep =>
    refine Machine.Ends.bind (elock_below h₁) ?_
    rintro _ k₂ ⟨free, same₂, -, h₂⟩
    refine Machine.Ends.bind isDir_ends ?_
    rintro isDir _ ⟨rfl, -⟩
    refine (lockedOr_ledger h₂ free).mono ?_
    rintro r k₃ ⟨same₃, locked⟩
    exact ⟨same₁.trans (same₂.trans same₃), locked⟩

/-- A locked entry that no file could be found for. -/
theorem giveUp_ledger {ep : Nat} {r : Int} (h : Ledger k (T + one ep) (Function.update H ep (some p)) n)
    (free : H ep = none) : Machine.Ends Orderly (do
        Fd.onBelow ((below limit w p).eunlock ep)
        Fd.onBelow ((below limit w p).eput ep)
        return r : Call δ Int) k fun _ k' => Ledger k' T H n := by
  refine Machine.Ends.bind (eunlock_below h (Function.update_self ..) (h.pos (by simp))) ?_
  rintro _ k₁ ⟨-, -, h₁⟩
  rw [update_back free] at h₁
  refine Machine.Ends.bind (eput_below h₁) ?_
  rintro _ k₂ ⟨-, h₂⟩
  exact Machine.Ends.pure h₂

theorem open_ledger {rounds : Nat} {path : Path} {omode : UInt32} (h : Ledger k T H n) :
    Machine.Ends Orderly (Fd.open (below limit w p) rounds p path omode) k fun _ k' =>
      Ledger k' T H n := by
  refine Machine.Ends.get_bind (Machine.Ends.bind (openLookup_ledger h fun e => h.cwd_held) ?_)
  rintro r k₁ ⟨-, locked⟩
  cases r with
  | none => exact Machine.Ends.pure locked
  | some ep =>
    obtain ⟨free, h₁⟩ := locked
    refine Machine.Ends.bind (allocFd_ledger h₁) ?_
    rintro r k₂ ⟨h₂, blank⟩
    cases r with
    | none => exact giveUp_ledger h₂ free
    | some r =>
      obtain ⟨f, fd⟩ := r
      refine Machine.Ends.bind (openEntry_ledger h₂ free (blank f fd rfl).1) ?_
      rintro _ k₃ ⟨h₃, -⟩
      exact Machine.Ends.pure h₃

/-- The file of a descriptor is of an entry that is not a directory. -/
def notDirectory (k : Kernel δ) (dirf : Option Nat) : Prop :=
  ∃ f ep, dirf = some f ∧ (k.file f).type = .entry ∧ (k.file f).ep = some ep ∧
    (k.below.state.ent ep).isDir = false

theorem openatDir_ends {dirf : Option Nat} (dir : ¬notDirectory k dirf) :
    Machine.Ends Orderly (Fd.openatDir (below limit w p) dirf) k fun r k' =>
      k = k' ∧ ∀ e, r = some e → ∃ f, dirf = some f ∧ (k.file f).type = .entry ∧
        (k.file f).ep = some e := by
  refine Machine.Ends.get_bind ?_
  split
  · rename_i dp _ found
    obtain ⟨f, rfl, file⟩ := Option.map_eq_some_iff.mp found
    have isEntry : (k.file f).type = .entry := by rw [file]
    have points : (k.file f).ep = some dp := by rw [file]
    refine Machine.Ends.bind isDir_ends ?_
    rintro isDir _ ⟨rfl, attr⟩
    refine Machine.Ends.ite (fun plain => ?_) fun _ => ?_
    · exact absurd ⟨f, dp, rfl, isEntry, points, attr ▸ plain⟩ dir
    · refine Machine.Ends.pure ⟨rfl, ?_⟩
      rintro e eq
      cases eq
      exact ⟨f, rfl, isEntry, points⟩
  · exact Machine.Ends.halt (by simp)
  · exact Machine.Ends.pure ⟨rfl, by simp⟩

theorem openatLookup_ledger {rounds : Nat} {path : Path} {flags : UInt32} {dp cwd : Option Nat}
    (h : Ledger k T H n) (fromDp : ∀ e, dp = some e → Held k e)
    (fromCwd : ∀ e, cwd = some e → Held k e) :
    Machine.Ends Orderly (Fd.openatLookup (below limit w p) rounds dp cwd path flags) k fun r k' =>
      Below k k' ∧ Locked T H n p r k' := by
  refine Machine.Ends.bind (new_ename_below h (fun _ => fromDp) fromCwd) ?_
  rintro r k₁ ⟨same₁, h₁⟩
  refine Machine.Ends.bind (R := fun r k' => Below k k' ∧ Locked T H n p r k') ?_ ?_
  · cases r with
    | some ep =>
      refine Machine.Ends.bind (elock_below h₁) ?_
      rintro _ k₂ ⟨free, same₂, -, h₂⟩
      exact Machine.Ends.pure ⟨same₁.trans same₂, free, h₂⟩
    | none =>
      rw [refTo_none, add_zero] at h₁
      refine Machine.Ends.ite (fun _ => ?_) fun _ => Machine.Ends.pure ⟨same₁, h₁⟩
      refine (new_create_ledger h₁ (fun e eq => same₁.held (fromDp e eq))
        fun e eq => same₁.held (fromCwd e eq)).mono ?_
      rintro r k₂ ⟨same₂, locked⟩
      exact ⟨same₁.trans same₂, locked⟩
  rintro r k₂ ⟨same₂, locked⟩
  cases r with
  | none => exact Machine.Ends.pure ⟨same₂, locked⟩
  | some ep =>
    obtain ⟨free, h₂⟩ := locked
    refine Machine.Ends.bind isDir_ends ?_
    rintro isDir _ ⟨rfl, -⟩
    refine (lockedOr_ledger h₂ free).mono ?_
    rintro r k₃ ⟨same₃, locked⟩
    exact ⟨same₂.trans same₃, locked⟩

theorem sys_openat_ledger {rounds : Nat} {dirfd : Int} {path : Path} {flags : UInt32}
    (h : Ledger k T H n)
    (dir : (Fd.cstr "/dev/null").isPrefixOf path = false → ¬notDirectory k (fileOf k p dirfd)) :
    Machine.Ends Orderly (Fd.sys_openat (below limit w p) rounds p dirfd path flags) k
      fun _ k' => Ledger k' T H n := by
  refine Machine.Ends.bind (argfd_ends (by simp)) ?_
  rintro dirf _ ⟨rfl, rfl⟩
  refine Machine.Ends.ite (fun _ => ?_) fun notNull => ?_
  · refine Machine.Ends.bind (allocFd_ledger h) ?_
    rintro r k₁ ⟨h₁, blank⟩
    cases r with
    | none => exact Machine.Ends.pure h₁
    | some r =>
      obtain ⟨f, fd⟩ := r
      have before : entryOf (k₁.file f) = none := if_neg (blank f fd rfl).1.2.2
      refine Machine.Ends.bind (Machine.Ends.modify (Q := fun _ k' => Ledger k' T H n)
        (h₁.set_file ?_ ?_)) fun _ k₂ h₂ => Machine.Ends.pure h₂
      · rw [before]
        rfl
      · intro isEntry
        cases isEntry
  · refine Machine.Ends.bind (openatDir_ends (dir (eq_false_of_ne_true notNull))) ?_
    rintro dp _ ⟨rfl, fromDir⟩
    have fromDp : ∀ e, dp = some e → Held k e := by
      intro e eq
      obtain ⟨f, -, isEntry, points⟩ := fromDir e eq
      exact h.file_held isEntry points
    refine Machine.Ends.get_bind (Machine.Ends.bind (openatLookup_ledger h fromDp
      fun e => h.cwd_held) ?_)
    rintro r k₁ ⟨same₁, locked⟩
    cases r with
    | none => exact Machine.Ends.pure locked
    | some ep =>
      obtain ⟨free, h₁⟩ := locked
      refine Machine.Ends.bind (allocFd_ledger h₁) ?_
      rintro r k₂ ⟨h₂, blank⟩
      cases r with
      | none => exact giveUp_ledger h₂ free
      | some r =>
        obtain ⟨f, fd⟩ := r
        refine Machine.Ends.bind (openEntry_ledger h₂ free (blank f fd rfl).1) ?_
        rintro _ k₃ ⟨h₃, -, others⟩
        have fromDp₃ : ∀ e, dp = some e →
            ∃ g, (k₃.file g).type = .entry ∧ (k₃.file g).ep = some e := by
          intro e eq
          obtain ⟨g, -, isEntry, points⟩ := fromDir e eq
          rw [← same₁.1] at isEntry points
          have kept := (blank f fd rfl).2 g isEntry
          rw [← kept] at isEntry points
          have ne : g ≠ f := fun eq => (blank f fd rfl).1.2.2 (eq ▸ isEntry)
          rw [← others g ne] at isEntry points
          exact ⟨g, isEntry, points⟩
        let H' := match dp with
          | none => H
          | some e => Function.update H e (some p)
        refine Machine.Ends.bind (R := fun _ k' => k'.file = k₃.file ∧
          (∀ e, dp = some e → H e = none) ∧ Ledger k' T H' n) ?_ ?_
        · cases dp with
          | none => exact Machine.Ends.pure ⟨rfl, by simp, h₃⟩
          | some e =>
            refine (elock_below h₃).mono ?_
            rintro _ k₄ ⟨free, same₄, -, h₄⟩
            refine ⟨same₄.1, ?_, h₄⟩
            rintro e' eq
            cases eq
            exact free
        rintro _ k₄ ⟨file₄, freeDp, h₄⟩
        have close : ∀ k', k'.file = k₃.file → Ledger k' T H' n → Machine.Ends Orderly (do
            dp.forM fun dp => Fd.onBelow ((below limit w p).eunlock dp)
            return (fd : Int) : Call δ Int) k' fun _ k'' => Ledger k'' T H n := by
          intro k' file h'
          cases dp with
          | none => exact Machine.Ends.pure h'
          | some e =>
            obtain ⟨g, isEntry, points⟩ := fromDp₃ e rfl
            rw [← file] at isEntry points
            have held := h'.file_held isEntry points
            refine Machine.Ends.bind (eunlock_below h' (Function.update_self ..)
              (h'.held_pos held)) ?_
            rintro _ k'' ⟨-, -, h''⟩
            rw [update_back (freeDp e rfl)] at h''
            exact Machine.Ends.pure h''
        refine Machine.Ends.bind (Machine.Ends.modify (Q := fun _ k' => k'.file = k₃.file ∧
          Ledger k' T H' n) ⟨file₄, h₄.same_proc (g := fun pr => { pr with
            exec_close := Function.update pr.exec_close fd 0 }) ⟨rfl, rfl⟩⟩) ?_
        rintro _ k₅ ⟨file₅, h₅⟩
        refine Machine.Ends.ite (fun _ => ?_) fun _ => close k₅ file₅ h₅
        refine Machine.Ends.bind (setZero_below h₅) ?_
        rintro _ k₆ ⟨same₆, h₆⟩
        exact close k₆ (same₆.1.trans file₅) h₆

/-! ### Descriptors -/

theorem sys_dup_ledger {dirfd : Int} (h : Ledger k T H n) :
    Machine.Ends Orderly (Fd.sys_dup p dirfd) k fun _ k' => Ledger k' T H n := by
  refine Machine.Ends.bind (argfd_ends (by simp)) ?_
  rintro f _ ⟨rfl, -⟩
  cases f with
  | none => exact Machine.Ends.pure h
  | some f =>
    refine Machine.Ends.bind (fdalloc2_ledger h) ?_
    rintro fd k₁ ⟨-, h₁⟩
    cases fd with
    | none => exact Machine.Ends.pure h₁
    | some fd =>
      refine Machine.Ends.bind (filedup_ledger h₁) ?_
      rintro _ k₂ ⟨-, -, h₂⟩
      exact Machine.Ends.pure h₂

theorem sys_close_ledger {dirfd : Int} (h : Ledger k T H n) :
    Machine.Ends Orderly (Fd.sys_close (below limit w p) p dirfd) k fun _ k' => Ledger k' T H n := by
  refine Machine.Ends.bind (argfd_ends (by simp)) ?_
  rintro f _ ⟨rfl, -⟩
  cases f with
  | none => exact Machine.Ends.pure h
  | some f =>
    refine Machine.Ends.bind (setOfile_ledger h) ?_
    rintro _ k₁ ⟨-, -, h₁⟩
    refine Machine.Ends.bind (fileclose_ledger h₁) ?_
    rintro _ k₂ ⟨-, h₂⟩
    exact Machine.Ends.pure h₂

/-! ### Processes -/

/-- A process gives back its working directory for another one, or for none. -/
theorem replaceCwd_ledger {v : Option Nat} {g : Fd.Proc Nat → Fd.Proc Nat}
    (h : Ledger k (T + refTo v) H n) (cwd : (k.proc p).cwd = some e) (new : ∀ pr, (g pr).cwd = v)
    (live : v ≠ none → (g (k.proc p)).state = .live) :
    Machine.Ends Orderly (do
        onCache p (eput disk limit e)
        setProc p g : Call δ Unit) k fun _ k' => Ledger k' T H n := by
  have inside := (h.cwd p e cwd).1
  have moved : files k + cwds k + (T + refTo v) =
      files k + cwds { k with proc := Function.update k.proc p (g (k.proc p)) } + T + one e := by
    funext d
    have moved := cwds_set (k := k) inside (g (k.proc p)) d
    rw [cwd, new, refTo_some] at moved
    simp only [Pi.add_apply]
    omega
  have owes := h.owes
  rw [moved] at owes
  refine Machine.Ends.bind (onCache_ends (Q := fun _ k' => Below k k' ∧
    Owes k'.below _ H n none) ((eput_ends owes).mono fun _ s owes => ⟨⟨rfl, rfl⟩, owes⟩)) ?_
  rintro _ k₁ ⟨⟨file, proc⟩, owes₁⟩
  refine Machine.Ends.modify ⟨?_, by rw [file]; exact h.file, fun q d points => ?_⟩
  · unfold files cwds at owes₁ ⊢
    rw [file, proc]
    exact owes₁
  · dsimp only at points ⊢
    rw [proc] at points ⊢
    rcases eq_or_ne q p with rfl | ne
    · rw [Function.update_self] at points ⊢
      rw [new] at points
      exact ⟨inside, live (by rw [points]; simp)⟩
    · rw [Function.update_of_ne ne] at points ⊢
      exact h.cwd q d points

theorem copyFiles_ledger {np : Nat} {fds : List Nat} (h : Ledger k T H n)
    (unused : (k.proc np).state = .unused) :
    Machine.Ends Orderly (Fd.copyFiles p np fds) k fun _ k' =>
      Ledger k' T H n ∧ (k'.proc np).state = .unused := by
  refine Machine.Ends.forM (I := fun k => Ledger k T H n ∧ (k.proc np).state = .unused) ?_ fds
    ⟨h, unused⟩
  rintro i k ⟨h, unused⟩
  refine Machine.Ends.get_bind ?_
  cases (k.proc p).ofile i with
  | none => exact Machine.Ends.pure ⟨h, unused⟩
  | some f =>
    refine Machine.Ends.bind (filedup_ledger h) ?_
    rintro _ k₁ ⟨-, proc, h₁⟩
    refine (setOfile_ledger h₁).mono ?_
    rintro _ k₂ ⟨-, state, h₂⟩
    exact ⟨h₂, by rw [state, proc, unused]⟩

theorem fork_ledger (h : Ledger k T H n) :
    Machine.Ends Orderly (Fd.fork (below limit w p) p) k fun _ k' => Ledger k' T H n := by
  refine Machine.Ends.get_bind ?_
  cases found : (List.range NPROC).find? fun np => (k.proc np).state = .unused with
  | none => exact Machine.Ends.pure h
  | some np =>
    have unused : (k.proc np).state = .unused := by simpa using List.find?_some found
    have inside : np < NPROC := List.mem_range.mp (List.mem_of_find?_eq_some found)
    refine Machine.Ends.bind (setProc_ledger h fun _ => ⟨rfl, rfl⟩) ?_
    rintro _ k₁ ⟨-, state₁, h₁⟩
    refine Machine.Ends.bind (allocproc_below h₁) ?_
    rintro made k₂ ⟨same₂, h₂⟩
    refine Machine.Ends.ite (fun _ => ?_) fun _ => Machine.Ends.pure h₂
    refine Machine.Ends.bind (setProc_ledger h₂ fun _ => ⟨rfl, rfl⟩) ?_
    rintro _ k₃ ⟨-, state₃, h₃⟩
    refine Machine.Ends.bind (forkCopy_below h₃) ?_
    rintro copied k₄ ⟨same₄, h₄⟩
    cases copied with
    | uvmcopy =>
      refine Machine.Ends.bind (freeproc_below h₄) ?_
      rintro _ k₅ ⟨-, h₅⟩
      exact Machine.Ends.pure h₅
    | vma_map => exact Machine.Ends.pure h₄
    | done =>
      refine Machine.Ends.bind (copyFiles_ledger h₄ ?_) ?_
      · rw [same₄.2, state₃, same₂.2, state₁, unused]
      rintro _ k₅ ⟨h₅, unused₅⟩
      refine Machine.Ends.get_bind ?_
      cases points : (k₅.proc p).cwd with
      | none => exact Machine.Ends.halt (by simp)
      | some cwd =>
        refine Machine.Ends.bind (edup_below h₅ (h₅.held_pos (h₅.cwd_held points))) ?_
        rintro _ k₆ ⟨rfl, same₆, h₆⟩
        have noCwd : (k₆.proc np).cwd = none := by
          by_contra some
          obtain ⟨d, points⟩ := Option.ne_none_iff_exists'.mp some
          have live := (h₆.cwd np d points).2
          rw [same₆.2, unused₅] at live
          cases live
        refine Machine.Ends.bind (Machine.Ends.modify (Q := fun _ k' => Ledger k' T H n)
          (h₆.set_proc inside ?_ fun _ => rfl)) fun _ _ h₇ => Machine.Ends.pure h₇
        rw [noCwd, refTo_none, add_zero]
        rfl

theorem closeFiles_ledger {fds : List Nat} (h : Ledger k T H n) :
    Machine.Ends Orderly (Fd.closeFiles (below limit w p) q fds) k fun _ k' => Ledger k' T H n := by
  refine Machine.Ends.forM (I := fun k => Ledger k T H n) ?_ fds h
  intro fd k h
  refine Machine.Ends.get_bind ?_
  cases (k.proc q).ofile fd with
  | none => exact Machine.Ends.pure h
  | some f =>
    refine Machine.Ends.bind (fileclose_ledger h) ?_
    rintro _ k₁ ⟨-, h₁⟩
    refine (setOfile_ledger h₁).mono ?_
    rintro _ k₂ ⟨-, -, h₂⟩
    exact h₂

theorem exit_ledger {initproc : Nat} (h : Ledger k T H n) :
    Machine.Ends Orderly (Fd.exit (below limit w p) initproc p) k fun _ k' => Ledger k' T H n := by
  refine Machine.Ends.ite (fun _ => Machine.Ends.halt (by simp)) fun _ => ?_
  refine Machine.Ends.bind (closeFiles_ledger h) fun _ k₁ h₁ => ?_
  refine Machine.Ends.get_bind ?_
  cases points : (k₁.proc p).cwd with
  | none => exact Machine.Ends.halt (by simp)
  | some cwd => exact replaceCwd_ledger (v := none) (by simpa using h₁) points (fun _ => rfl) (by simp)

end AvxKernel.Fs
