import AvxKernel.Fs.Calls
import AvxKernel.Fs.Lookups

/-! Removing and renaming keep the account of references and locks. A renaming
moves one reference of the source from its old directory to the new one. -/
namespace AvxKernel.Fs

open Fd (Path)

variable {δ α : Type} {s t : Shared (Ecache δ)} {T : Nat → Nat} {H : Nat → Option Nat} {n : Nat}
  {e d p dp ep me limit : Nat} {disk : Disk δ}

theorem occupied_kept : Prog.Ends me Orderly (occupied disk ep) s fun _ t =>
    Kept s t ∧ t.holder = s.holder ∧ t.stray = s.stray := by
  refine Prog.Ends.read_bind (Prog.Ends.ite (fun _ => ?_) fun _ => ?_)
  · exact kept_bind onDisk_kept fun _ t _ => Prog.Ends.pure ⟨Kept.refl t, rfl, rfl⟩
  · exact Prog.Ends.pure ⟨Kept.refl s, rfl, rfl⟩

theorem Owes.valid (h : Owes s T H n none) (used : 0 < (s.state.ent e).ref) :
    (s.state.ent e).valid ≠ 0 := fun zero => by
  cases h.settled e used zero

theorem elockParent_ends (h : Owes s T H n none) (parent : (s.state.ent e).parent = some p) :
    Prog.Ends me Orderly (elockParent e) s fun _ t =>
      H p = none ∧ t.state = s.state ∧ Owes t T (Function.update H p (some me)) n none := by
  refine Prog.Ends.read_bind ?_
  rw [parent]
  exact elock_ends h

theorem eunlockParent_ends (h : Owes s T H n none) (used : 0 < (s.state.ent e).ref)
    (parent : (s.state.ent e).parent = some p) (mine : H p = some me) :
    Prog.Ends me Orderly (eunlockParent e) s fun _ t =>
      t.state = s.state ∧ Owes t T (Function.update H p none) n none := by
  refine Prog.Ends.read_bind ?_
  rw [parent]
  exact eunlock_ends h mine (h.parent_pos used (h.valid used) parent)

theorem removeEntry_ends (h : Owes s (T + one ep) H n none) :
    Prog.Ends me Orderly (removeEntry disk limit ep) s fun _ t => Owes t T H n none := by
  refine Prog.Ends.bind (elock_ends h) ?_
  rintro _ t₁ ⟨free, -, h₁⟩
  refine Prog.Ends.bind occupied_kept ?_
  rintro full t₂ ⟨kept₂, holder₂, stray₂⟩
  have h₂ := kept₂.owes h₁ holder₂ stray₂
  have used : 0 < (t₂.state.ent ep).ref := h₂.pos (by simp)
  have mine : Function.update H ep (some me) ep = some me := Function.update_self ..
  refine Prog.Ends.ite (fun _ => ?_) fun _ => ?_
  · refine Prog.Ends.bind (eunlock_ends h₂ mine used) ?_
    rintro _ t₃ ⟨-, h₃⟩
    rw [update_back free] at h₃
    exact Prog.Ends.bind (eput_ends h₃) fun _ _ h₄ => Prog.Ends.pure h₄
  · cases parent : (t₂.state.ent ep).parent with
    | none =>
      refine Prog.Ends.bind (R := fun _ _ => False) (Prog.Ends.read_bind ?_) fun _ _ => False.elim
      rw [parent]
      exact Prog.Ends.panic (by simp)
    | some p =>
      refine Prog.Ends.bind (elockParent_ends h₂ parent) ?_
      rintro _ t₃ ⟨freeParent, same₃, h₃⟩
      refine Prog.Ends.bind eremove_kept ?_
      rintro _ t₄ ⟨kept₄, holder₄, stray₄⟩
      have h₄ := kept₄.owes h₃ holder₄ stray₄
      have kept := (Kept.of_state same₃).trans kept₄
      refine Prog.Ends.bind (eunlockParent_ends h₄ (by rwa [kept.ref]) (by rw [kept.parent, parent])
        (Function.update_self ..)) ?_
      rintro _ t₅ ⟨same₅, h₅⟩
      rw [update_back freeParent] at h₅
      refine Prog.Ends.bind (eunlock_ends h₅ mine (h₅.pos (by simp))) ?_
      rintro _ t₆ ⟨-, h₆⟩
      rw [update_back free] at h₆
      exact Prog.Ends.bind (eput_ends h₆) fun _ _ h₇ => Prog.Ends.pure h₇

section Paths

variable {cwd : Option Nat} {path : Path}

theorem sys_remove_ends (h : Owes s T H n none)
    (fromCwd : ∀ e, cwd = some e → 0 < (s.state.ent e).ref) :
    Prog.Ends me Orderly (sys_remove disk limit cwd path) s fun _ t => Owes t T H n none := by
  refine Prog.Ends.ite (fun _ => Prog.Ends.pure h) fun _ => ?_
  refine Prog.Ends.bind (new_ename_ends h (by simp) fromCwd) ?_
  rintro r t₁ h₁
  cases r with
  | none => exact Prog.Ends.pure (by simpa using h₁)
  | some ep => exact removeEntry_ends h₁

/-- Without an entry under "/tmp/testsuite-", whose reference is kept. -/
theorem sys_unlinkat_ends (h : Owes s T H n none)
    (fromCwd : ∀ e, cwd = some e → 0 < (s.state.ent e).ref)
    (unspecial : endsInDot path = false → (Fd.cstr "/tmp/testsuite-").isPrefixOf path = true →
      ∀ r t, Prog.run me (ename disk limit cwd path) s = .ok (r, t) → r = none) :
    Prog.Ends me Orderly (sys_unlinkat disk limit cwd path) s fun _ t => Owes t T H n none := by
  refine Prog.Ends.ite (fun _ => Prog.Ends.pure h) fun proper => ?_
  have proper : endsInDot path = false := eq_false_of_ne_true fun dot => proper (.inr dot)
  by_cases special : (Fd.cstr "/tmp/testsuite-").isPrefixOf path = true
  · refine Prog.Ends.bind (new_ename_ends h (by simp) fromCwd).with_run ?_
    rintro r t₁ ⟨h₁, run⟩
    obtain rfl := unspecial proper special r t₁ run
    exact Prog.Ends.pure (by simpa using h₁)
  · refine Prog.Ends.bind (new_ename_ends h (by simp) fromCwd) ?_
    rintro r t₁ h₁
    cases r with
    | none => exact Prog.Ends.pure (by simpa using h₁)
    | some ep =>
      dsimp only
      rw [if_neg special]
      exact removeEntry_ends h₁

end Paths

/-! ### Renaming -/

theorem eputSome_ends {r : Option Nat} (h : Owes s (T + refTo r) H n none) :
    Prog.Ends me Orderly (eputSome disk limit r) s fun _ t => Owes t T H n none := by
  cases r with
  | none => exact Prog.Ends.pure (by simpa using h)
  | some e => exact eput_ends h

/-- Once `src` has been locked, or while `srclock` is not set. -/
theorem renameFail_ends {srclock : Bool} {src dst pdst : Option Nat}
    (h : Owes s (T + refTo src + refTo pdst + refTo dst) H n none) {H' : Nat → Option Nat}
    (locked : if srclock then ∃ e, src = some e ∧ H' e = none ∧ H = Function.update H' e (some me)
      else H = H') :
    Prog.Ends me Orderly (renameFail disk limit srclock src dst pdst) s fun _ t =>
      Owes t T H' n none := by
  refine Prog.Ends.bind (R := fun _ t => Owes t (T + refTo src + refTo pdst + refTo dst) H' n none)
    ?_ fun _ t₁ h₁ => ?_
  · cases srclock with
    | false =>
      rw [← show H = H' from locked]
      exact Prog.Ends.pure h
    | true =>
      obtain ⟨e, rfl, free, rfl⟩ := locked
      refine (eunlock_ends h (Function.update_self ..) (h.pos ?_)).mono ?_
      · simp only [Pi.add_apply, refTo_some, one_self]
        omega
      · rintro _ t ⟨-, h₁⟩
        rwa [update_back free] at h₁
  · refine Prog.Ends.bind (eputSome_ends h₁) fun _ t₂ h₂ => ?_
    refine Prog.Ends.bind (eputSome_ends h₂) fun _ t₃ h₃ => ?_
    exact Prog.Ends.bind (eputSome_ends h₃) fun _ t₄ h₄ => Prog.Ends.pure h₄

/-- An entry in use moves to another directory: it takes over a reference there, and
the one it had is left over. -/
theorem Owes.move (h : Owes s (T + one d) H n none) (notRoot : e ≠ root)
    (used : 0 < (s.state.ent e).ref) (parent : (s.state.ent e).parent = some p) :
    Owes (Fs.edit s e fun x => { x with parent := some d }) (T + one p) H n none := by
  have valid := h.valid used
  have inside := h.inside d (h.pos (by simp))
  refine h.edit (g := fun x => { x with parent := some d }) (h.inside e used) (fun isRoot => absurd isRoot notRoot)
    (fun _ _ _ => ⟨d, inside, rfl⟩) (fun _ => h.settled e used) (fun _ _ => id) fun x => ?_
  have before : (s.state.ent e).points x = one p x := by
    simp only [Dirent.points, Dirent.link, used, valid, parent, one, ne_eq, not_false_eq_true, and_self,
      if_true, Option.some.injEq]
  have after : Dirent.points { s.state.ent e with parent := some d } x = one d x := by
    simp only [Dirent.points, Dirent.link, used, valid, one, ne_eq, not_false_eq_true, and_self,
      if_true, Option.some.injEq]
  rw [before, after]
  simp only [Pi.add_apply]
  push_cast
  omega

section Rename

variable {src pdst off : Nat} {dst : Option Nat} {name : Name}

/-- Both directories are locked in turn, and no lock is left at the end. -/
theorem renameMove_ends
    (h : Owes s (T + one src + one pdst + refTo dst)
      (Function.update (Function.update H src (some me)) pdst (some me)) n none)
    (free : H src = none) (freeDir : Function.update H src (some me) pdst = none)
    (notRoot : src ≠ root) :
    Prog.Ends me Orderly (renameMove disk limit src pdst dst name off) s fun _ t =>
      Owes t T H n none := by
  refine Prog.Ends.bind (setEntry_kept (g := fun d => { d with filename := name }) rfl rfl Iff.rfl) ?_
  rintro _ t₁ ⟨kept₁, holder₁, stray₁⟩
  refine Prog.Ends.bind onDisk_kept ?_
  rintro _ t₂ ⟨kept₂, holder₂, stray₂⟩
  have h₂ := kept₂.owes (kept₁.owes h holder₁ stray₁) holder₂ stray₂
  have used : 0 < (t₂.state.ent src).ref := h₂.pos (by simp)
  obtain ⟨p, -, parent⟩ := h₂.linked src notRoot used (h₂.valid used)
  -- whichever directory the source is in, that one is locked now
  refine Prog.Ends.read_bind ?_
  refine Prog.Ends.bind (R := fun _ t => Kept t₂ t ∧ Function.update H src (some me) p = none ∧
    Owes t (T + one src + one pdst + refTo dst)
      (Function.update (Function.update H src (some me)) p (some me)) n none) ?_ ?_
  · refine Prog.Ends.ite (fun _ => ?_) fun here => ?_
    · refine Prog.Ends.bind (eunlock_ends h₂ (Function.update_self ..) (h₂.pos ?_)) ?_
      · simp only [Pi.add_apply, one_self]
        omega
      rintro _ t₃ ⟨same₃, h₃⟩
      rw [update_back freeDir] at h₃
      refine (elockParent_ends h₃ (by rw [same₃, parent])).mono ?_
      rintro _ t₄ ⟨freeOld, same₄, h₄⟩
      exact ⟨Kept.of_state (same₄.trans same₃), freeOld, h₄⟩
    · rw [not_not, parent, Option.some.injEq] at here
      subst here
      exact Prog.Ends.pure ⟨Kept.refl t₂, freeDir, h₂⟩
  rintro _ t₃ ⟨kept₃, freeOld, h₃⟩
  refine Prog.Ends.bind eremove_kept ?_
  rintro _ t₄ ⟨kept₄, holder₄, stray₄⟩
  have h₄ := kept₄.owes h₃ holder₄ stray₄
  have kept := kept₃.trans kept₄
  have parent₄ : (t₄.state.ent src).parent = some p := by rw [kept.parent, parent]
  have used₄ : 0 < (t₄.state.ent src).ref := by rwa [kept.ref]
  refine Prog.Ends.bind (eunlockParent_ends h₄ used₄ parent₄ (Function.update_self ..)) ?_
  rintro _ t₅ ⟨same₅, h₅⟩
  rw [update_back freeOld] at h₅
  refine Prog.Ends.read_bind ?_
  rw [same₅, parent₄]
  refine Prog.Ends.bind (edup_ends h₅ (.inl (h₅.pos ?_))) ?_
  · simp only [Pi.add_apply, one_self]
    omega
  rintro _ t₆ ⟨rfl, edited, h₆⟩
  have used₆ : 0 < (t₆.state.ent src).ref := h₆.pos (by simp)
  have parent₆ : (t₆.state.ent src).parent = some p := by
    rw [edited]
    rcases eq_or_ne src pdst with rfl | ne
    · rw [edit_self, same₅, parent₄]
    · rw [edit_of_ne ne, same₅, parent₄]
  refine Prog.Ends.bind (Prog.Ends.modify (Q := fun _ t => t = edit t₆ src _) rfl) ?_
  rintro _ t₇ rfl
  have h₇ := h₆.move notRoot used₆ parent₆
  generalize edit t₆ src _ = t₇ at h₇ ⊢
  refine Prog.Ends.bind (setEntry_kept (g := fun d => { d with off := off }) rfl rfl Iff.rfl) ?_
  rintro _ t₈ ⟨kept₈, holder₈, stray₈⟩
  have h₈ := kept₈.owes h₇ holder₈ stray₈
  have used₈ : 0 < (t₈.state.ent src).ref := h₈.pos (by simp)
  have valid₈ := h₈.valid used₈
  refine Prog.Ends.bind (setEntry_kept (g := fun d => { d with valid := 1 }) rfl rfl ?_) ?_
  · simp [valid₈]
  rintro _ t₉ ⟨kept₉, holder₉, stray₉⟩
  have h₉ := kept₉.owes h₈ holder₉ stray₉
  refine Prog.Ends.bind (eunlock_ends h₉ (Function.update_self ..) (by rwa [kept₉.ref])) ?_
  rintro _ t₁₀ ⟨-, h₁₀⟩
  rw [update_back free] at h₁₀
  refine Prog.Ends.bind (eput_ends h₁₀) fun _ t₁₁ h₁₁ => ?_
  refine Prog.Ends.bind (eputSome_ends h₁₁) fun _ t₁₂ h₁₂ => ?_
  refine Prog.Ends.bind (eput_ends h₁₂) fun _ t₁₃ h₁₃ => ?_
  exact Prog.Ends.bind (eput_ends h₁₃) fun _ t₁₄ h₁₄ => Prog.Ends.pure h₁₄

theorem renameLocked_ends {offset : Nat} (h : Owes s (T + one src + one pdst) H n none)
    (notRoot : src ≠ root) :
    Prog.Ends me Orderly (renameLocked disk limit offset src pdst name) s fun _ t =>
      Owes t T H n none := by
  refine Prog.Ends.bind (elock_ends h) ?_
  rintro _ t₁ ⟨free, -, h₁⟩
  refine Prog.Ends.bind (elock_ends h₁) ?_
  rintro _ t₂ ⟨freeDir, -, h₂⟩
  refine Prog.Ends.bind (dirlookup_ends h₂ (by simp)) ?_
  rintro ⟨dst, off⟩ t₃ ⟨h₃, -⟩
  have fails : ∀ {u dst}, Owes u (T + one src + one pdst + one dst)
      (Function.update H src (some me)) n none →
      Prog.Ends me Orderly (renameFail disk limit true (some src) (some dst) (some pdst)) u
        fun _ t => Owes t T H n none := fun h => renameFail_ends h ⟨src, rfl, free, rfl⟩
  cases dst with
  | none => exact renameMove_ends h₃ free freeDir notRoot
  | some dst =>
    refine Prog.Ends.bind (eunlock_ends h₃ (Function.update_self ..) (h₃.pos ?_)) ?_
    · simp only [Pi.add_apply, one_self]
      omega
    rintro _ t₄ ⟨-, h₄⟩
    rw [update_back freeDir] at h₄
    refine Prog.Ends.ite (fun _ => fails h₄) fun _ => ?_
    refine Prog.Ends.read_bind (Prog.Ends.read_bind (Prog.Ends.ite (fun _ => ?_) fun _ => fails h₄))
    refine Prog.Ends.bind (elock_ends h₄) ?_
    rintro _ t₅ ⟨freeDst, -, h₅⟩
    refine Prog.Ends.bind occupied_kept ?_
    rintro full t₆ ⟨kept₆, holder₆, stray₆⟩
    have h₆ := kept₆.owes h₅ holder₆ stray₆
    refine Prog.Ends.ite (fun _ => ?_) fun _ => ?_
    · refine Prog.Ends.bind (eunlock_ends h₆ (Function.update_self ..) (h₆.pos (by simp))) ?_
      rintro _ t₇ ⟨-, h₇⟩
      rw [update_back freeDst] at h₇
      exact fails h₇
    · refine Prog.Ends.bind (elock_ends h₆) ?_
      rintro _ t₇ ⟨freeDir₇, -, h₇⟩
      have ne : pdst ≠ dst := by
        rintro rfl
        rw [Function.update_self] at freeDir₇
        cases freeDir₇
      refine Prog.Ends.bind eremove_kept ?_
      rintro _ t₈ ⟨kept₈, holder₈, stray₈⟩
      have h₈ := kept₈.owes h₇ holder₈ stray₈
      refine Prog.Ends.bind (eunlock_ends h₈ ?_ (h₈.pos (by simp))) ?_
      · rw [Function.update_of_ne (Ne.symm ne), Function.update_self]
      rintro _ t₉ ⟨-, h₉⟩
      rw [Function.update_comm ne, update_back freeDst] at h₉
      exact renameMove_ends h₉ free freeDir notRoot

/-- The way up from an entry in use ends at the root, so that the source is not the
root if it is not met. -/
theorem isAbove_ends {rounds : Nat} (h : Owes s T H n none) (used : 0 < (s.state.ent e).ref) :
    Prog.Ends me Orderly (isAbove src rounds (some e)) s fun r t =>
      t = s ∧ (r = false → src ≠ root) := by
  induction rounds generalizing e with
  | zero => exact Prog.Ends.halt orderly_diverge
  | succ rounds ih =>
    refine Prog.Ends.ite (fun _ => Prog.Ends.pure ⟨rfl, by simp⟩) fun ne => Prog.Ends.read_bind ?_
    cases parent : (s.state.ent e).parent with
    | none =>
      unfold isAbove
      refine Prog.Ends.pure ⟨rfl, fun _ isRoot => ?_⟩
      have notRoot : e ≠ root := fun eq => ne (eq.trans isRoot.symm)
      obtain ⟨p, -, points⟩ := h.linked e notRoot used (h.valid used)
      rw [parent] at points
      cases points
    | some p => exact ih (h.parent_pos used (h.valid used) parent)

end Rename

section Paths

variable {olddp newdp cwd : Option Nat} {old new : Path}

theorem renameLookups_ends (h : Owes s T H n none)
    (fromOld : ∀ e, olddp = some e → 0 < T e) (fromNew : ∀ e, newdp = some e → 0 < T e)
    (fromCwd : ∀ e, cwd = some e → 0 < T e) :
    Prog.Ends me Orderly (renameLookups disk limit olddp newdp cwd old new) s fun l t =>
      Owes t (T + refTo l.src + refTo l.pdst) H n none := by
  refine Prog.Ends.bind (new_ename_ends h (fun _ e eq => h.pos (fromOld e eq))
    fun e eq => h.pos (fromCwd e eq)) ?_
  rintro src t₁ h₁
  cases src with
  | none => exact Prog.Ends.pure (by simpa using h₁)
  | some src =>
    refine Prog.Ends.bind (new_lookup_path_ends h₁ (fun _ e eq => h₁.pos ?_)
      fun e eq => h₁.pos ?_) ?_
    · have := fromNew e eq
      simp only [Pi.add_apply]
      omega
    · have := fromCwd e eq
      simp only [Pi.add_apply]
      omega
    rintro ⟨pdst, name⟩ t₂ h₂
    cases pdst with
    | none => exact Prog.Ends.pure h₂
    | some pdst => exact Prog.Ends.pure h₂

/-- The look-ups fail, or the source turns out to lie above the destination. -/
def renameMisses (disk : Disk δ) (limit me : Nat) (olddp newdp cwd : Option Nat) (old new : Path)
    (s : Shared (Ecache δ)) : Prop :=
  ∃ l t, Prog.run me (renameLookups disk limit olddp newdp cwd old new) s = .ok (l, t) ∧
    ∀ src pdst name, l = ⟨some src, some pdst, some name⟩ →
      ∃ u, Prog.run me (isAbove src limit (some pdst)) t = .ok (true, u)

theorem rename_ends {srclock : Bool} {offset : Nat} (h : Owes s T H n none)
    (fromOld : ∀ e, olddp = some e → 0 < T e) (fromNew : ∀ e, newdp = some e → 0 < T e)
    (fromCwd : ∀ e, cwd = some e → 0 < T e)
    (sound : srclock = false ∨ ¬renameMisses disk limit me olddp newdp cwd old new s) :
    Prog.Ends me Orderly (rename disk limit srclock offset olddp newdp cwd old new) s fun _ t =>
      Owes t T H n none := by
  refine Prog.Ends.bind (renameLookups_ends h fromOld fromNew fromCwd).with_run ?_
  rintro l t₁ ⟨h₁, run₁⟩
  split
  · rename_i src pdst name
    have used : 0 < (t₁.state.ent pdst).ref := h₁.pos (by simp)
    refine Prog.Ends.bind (isAbove_ends h₁ used).with_run ?_
    rintro above _ ⟨⟨rfl, notRoot⟩, run₂⟩
    refine Prog.Ends.ite (fun isAbove => ?_) fun below => ?_
    · have unset : srclock = false := sound.resolve_right fun hits => hits ⟨_, _, run₁, by
        rintro _ _ _ eq
        cases eq
        exact ⟨_, isAbove ▸ run₂⟩⟩
      subst unset
      exact renameFail_ends (by simpa using h₁) rfl
    · exact renameLocked_ends h₁ (notRoot (eq_false_of_ne_true below))
  · rename_i src pdst name incomplete
    have unset : srclock = false := sound.resolve_right fun hits => hits ⟨_, _, run₁, by
      rintro src pdst name eq
      cases eq
      exact absurd rfl (incomplete _ _ _ rfl rfl)⟩
    subst unset
    exact renameFail_ends (by simpa using h₁) rfl

end Paths

end AvxKernel.Fs
