import AvxKernel.Fd.Requests
import AvxKernel.Fs.Counted

/-! What `exec` closes, among the calls of a process on its descriptors. -/
namespace AvxKernel.Fs

open Fd (Path Leaves Recorded Agrees since since_same still_leaves onBelow_still install_ofile install_ofile_ne)

variable {δ : Type} {limit : Nat} {w : World δ} {p initproc : Nat} {k k' : Kernel δ} {path : Path}
  {pr pr' : Fd.Proc Nat} {asked : Nat → Bool} {args : Arguments}

/-! ### `exec` in two parts -/

variable (limit w p) in
/-- `exec` as far as it may return without having closed anything, or the arguments with
which it goes on. -/
def execFront (initproc : Nat) (path : Path) : Call δ (Option Int ⊕ Arguments) :=
  if is_sh_script path then do
    Fd.exit (below limit w p) initproc p
    return .inl none
  else do
    let k ← get
    match ← onCache p (ename w.toDisk limit (k.proc p).cwd path) with
    | none => return .inl (some (← execBad limit w p none none))
    | some ep =>
      onCache p (elock ep)
      if (← onCache p (onDisk fun ent => w.readelfhdr ent ep)) = false then
        return .inl (some (← execBad limit w p none (some ep)))
      else if (← onCache p (onDisk fun _ => w.proc_pagetable p)) = false then
        return .inl (some (← execBad limit w p none (some ep)))
      else
        let is_dynamic ← onCache p (onDisk fun ent => w.loadelf ent p ep)
        if ← loadInterpreter limit w p ep is_dynamic then
          onCache p (eunlock ep)
          onCache p (eput w.toDisk limit ep)
          match ← onCache p (onDisk fun _ => w.buildStack p) with
          | none => return .inl (some (← execBad limit w p none none))
          | some args => return .inr args
        else
          return .inl (some (-1))

variable (limit w p) in
/-- What `exec` does behind its loop over the descriptors. -/
def execBack (args : Arguments) : Call δ (Option Int) :=
  match args.redirection with
  | none => return some args.argc
  | some r => do
    if ← redirect limit w p r then
      return some args.argc
    else
      return some (← execBad limit w p none none)

theorem exec_eq : exec limit w initproc p path = (do
    match ← execFront limit w p initproc path with
    | .inl r => return r
    | .inr args =>
      closeOnExec limit w p
      execBack limit w p args) := by
  rw [exec, execFront]
  split
  · simp only [bind_assoc, pure_bind]
  · simp only [bind_assoc]
    apply bind_congr
    intro k
    apply bind_congr
    intro ep
    cases ep with
    | none => simp only [bind_assoc, pure_bind]
    | some ep =>
      simp only [bind_assoc]
      apply bind_congr
      intro _
      apply bind_congr
      intro header
      split
      · simp only [bind_assoc, pure_bind]
      simp only [bind_assoc]
      apply bind_congr
      intro table
      split
      · simp only [bind_assoc, pure_bind]
      simp only [bind_assoc]
      apply bind_congr
      intro is_dynamic
      apply bind_congr
      intro interpreted
      split
      · simp only [bind_assoc]
        apply bind_congr
        intro _
        apply bind_congr
        intro _
        apply bind_congr
        intro built
        cases built with
        | none => simp only [bind_assoc, pure_bind]
        | some args => rfl
      · rfl

/-! ### Rows -/

theorem onCache_still {α : Type} (x : Cache δ α) : Machine.Frame Fd.Still (onCache p x) := onBelow_still _

theorem execBad_still (interpreter ep : Option Nat) : Machine.Frame Fd.Still (execBad limit w p interpreter ep) := by
  have leave : ∀ e : Option Nat, Machine.Frame Fd.Still (e.forM fun e => do
      onCache p (eunlock e)
      onCache p (eput w.toDisk limit e) : Call δ Unit) := by
    intro e
    cases e with
    | none => exact Machine.Frame.pure _
    | some e => exact Machine.Frame.bind (onCache_still _) fun _ => onCache_still _
  exact Machine.Frame.bind (leave interpreter) fun _ => Machine.Frame.bind (leave ep) fun _ => Machine.Frame.pure _

theorem loadInterpreter_still (ep : Nat) (is_dynamic : Bool) :
    Machine.Frame Fd.Still (loadInterpreter limit w p ep is_dynamic) := by
  refine Machine.Frame.ite ?_ (Machine.Frame.pure _)
  refine Machine.Frame.bind Machine.Frame.get fun k => Machine.Frame.bind (onCache_still _) fun interpreter => ?_
  cases interpreter with
  | none => exact Machine.Frame.bind (execBad_still _ _) fun _ => Machine.Frame.pure _
  | some e =>
    refine Machine.Frame.bind (onCache_still _) fun _ => Machine.Frame.bind (onCache_still _) fun _ => ?_
    refine Machine.Frame.ite ?_ (Machine.Frame.bind (execBad_still _ _) fun _ => Machine.Frame.pure _)
    exact Machine.Frame.bind (onCache_still _) fun _ => Machine.Frame.bind (onCache_still _) fun _ =>
      Machine.Frame.bind (onCache_still _) fun _ => Machine.Frame.pure _

/-- Where `exec` may fail it leaves the processes as they are. -/
theorem execFront_still (plain : is_sh_script path = false) :
    Machine.Frame Fd.Still (execFront limit w p initproc path) := by
  have failed : ∀ e, Machine.Frame Fd.Still (do
      return .inl (some (← execBad limit w p none e)) : Call δ (Option Int ⊕ Arguments)) := fun e =>
    Machine.Frame.bind (execBad_still _ _) fun _ => Machine.Frame.pure _
  rw [execFront, if_neg (by rw [plain]; exact Bool.noConfusion)]
  refine Machine.Frame.bind Machine.Frame.get fun k => Machine.Frame.bind (onCache_still _) fun ep => ?_
  cases ep with
  | none => exact failed none
  | some ep =>
    refine Machine.Frame.bind (onCache_still _) fun _ => Machine.Frame.bind (onCache_still _) fun _ => ?_
    refine Machine.Frame.ite (failed _) (Machine.Frame.bind (onCache_still _) fun _ => ?_)
    refine Machine.Frame.ite (failed _) (Machine.Frame.bind (onCache_still _) fun is_dynamic => ?_)
    refine Machine.Frame.bind (loadInterpreter_still _ _) fun _ => Machine.Frame.ite ?_ (Machine.Frame.pure _)
    refine Machine.Frame.bind (onCache_still _) fun _ => Machine.Frame.bind (onCache_still _) fun _ =>
      Machine.Frame.bind (onCache_still _) fun built => ?_
    cases built with
    | none => exact failed _
    | some args => exact Machine.Frame.pure _

theorem execFront_row : Leaves (execFront limit w p initproc path) k fun r k' =>
    Fd.Shrinks (k.proc p) (k'.proc p) ∧ ∀ args, r = .inr args → k'.proc p = k.proc p := by
  by_cases script : is_sh_script path = true
  · rw [execFront, if_pos script]
    exact Machine.Ends.bind Fd.exit_row fun _ k₁ shrinks => Machine.Ends.pure ⟨shrinks, nofun⟩
  · refine (still_leaves (execFront_still (Bool.not_eq_true _ ▸ script))).mono fun r k' same => ?_
    rw [same]
    exact ⟨.refl _, fun _ _ => rfl⟩

/-- What the loop over some descriptors leaves. -/
def closes (pr : Fd.Proc Nat) (fds : List Nat) : Fd.Proc Nat :=
  { pr with
    ofile fd := if fd ∈ fds ∧ pr.exec_close fd ≠ 0 then none else pr.ofile fd
    exec_close fd := if fd ∈ fds ∧ pr.ofile fd ≠ none then 0 else pr.exec_close fd }

theorem row_congr {ofile ofile' : Nat → Option Nat} {flags flags' : Nat → Nat} (pr : Fd.Proc Nat)
    (files : ∀ i, ofile i = ofile' i) (same : ∀ i, flags i = flags' i) :
    { pr with ofile, exec_close := flags } = { pr with ofile := ofile', exec_close := flags' } := by
  rw [funext files, funext same]

theorem closes_nil (pr : Fd.Proc Nat) : closes pr [] = pr :=
  row_congr pr (fun _ => if_neg fun both => List.not_mem_nil both.1) fun _ => if_neg fun both => List.not_mem_nil both.1

/-- The loop over one descriptor and the others. -/
theorem closes_cons (pr : Fd.Proc Nat) (fd : Nat) (fds : List Nat) :
    closes (closes pr [fd]) fds = closes pr (fd :: fds) := by
  refine row_congr pr (fun i => ?_) fun i => ?_
  · simp only [closes, List.mem_cons]
    by_cases here : i = fd
    · by_cases flagged : pr.exec_close i = 0
      · simp [flagged]
      · simp [here ▸ flagged, here]
    · simp [here]
  · simp only [closes, List.mem_cons]
    by_cases here : i = fd
    · by_cases there : pr.ofile i = none
      · simp [there]
      · simp [here ▸ there, here]
    · simp [here]

/-- A descriptor that is not open, or not flagged. -/
theorem closes_nothing {fd : Nat} (h : pr.ofile fd = none ∨ pr.exec_close fd = 0) : closes pr [fd] = pr := by
  refine row_congr pr (fun i => ?_) fun i => ?_
  · split
    · next closed =>
      rw [List.mem_singleton] at closed
      exact (h.resolve_right (closed.1 ▸ closed.2)).symm.trans (by rw [closed.1])
    · rfl
  · split
    · next closed =>
      rw [List.mem_singleton] at closed
      exact (h.resolve_left (closed.1 ▸ closed.2)).symm.trans (by rw [closed.1])
    · rfl

theorem closes_one {fd : Nat} (there : pr.ofile fd ≠ none) (flagged : pr.exec_close fd ≠ 0) :
    closes pr [fd] = (pr.install fd none).flag fd 0 := by
  refine row_congr pr (fun i => ?_) fun i => ?_
  · rcases eq_or_ne i fd with rfl | ne
    · rw [if_pos ⟨List.mem_singleton_self i, flagged⟩, install_ofile]
    · rw [if_neg fun both => ne (List.mem_singleton.mp both.1), install_ofile_ne ne]
  · rcases eq_or_ne i fd with rfl | ne
    · rw [if_pos ⟨List.mem_singleton_self i, there⟩, Function.update_self]
    · rw [if_neg fun both => ne (List.mem_singleton.mp both.1), Function.update_of_ne ne]
      rfl

theorem closeOnExec_row : Leaves (closeOnExec limit w p) k fun _ k' =>
    k'.proc p = closes (k.proc p) (List.range (k.proc p).limit) := by
  refine Machine.Ends.get_bind ?_
  generalize List.range (k.proc p).limit = fds
  induction fds generalizing k with
  | nil => exact Machine.Ends.pure (closes_nil _).symm
  | cons fd fds ih =>
    refine Machine.Ends.bind (R := fun _ k' => k'.proc p = closes (k.proc p) [fd]) ?_ fun _ k₁ first =>
      ih.mono fun _ _ rest => by rw [rest, first, closes_cons]
    refine Machine.Ends.get_bind ?_
    split
    · next none => exact Machine.Ends.pure (closes_nothing (.inl none)).symm
    · next f there =>
      refine Machine.Ends.ite (fun flagged => ?_) fun clear => ?_
      · refine Machine.Ends.bind Fd.fileclose_row fun _ k₁ same => ?_
        refine Machine.Ends.bind (Fd.setOfile_row none) fun _ k₂ row => (Fd.setProc_row _).mono fun _ k₃ row' => ?_
        rw [row', row, same, closes_one (by rw [there]; exact nofun) flagged]
        rfl
      · exact Machine.Ends.pure (closes_nothing (.inr (not_not.mp clear))).symm

/-! ### What is closed -/

/-- Just the descriptors of which it has been asked are gone. -/
def ClosesAsked (pr pr' : Fd.Proc Nat) (asked : Nat → Bool) : Prop :=
  ∀ fd, pr'.ofile fd = if asked fd then none else pr.ofile fd

theorem closes_asked (h : Recorded pr asked) : ClosesAsked pr (closes pr (List.range pr.limit)) asked := by
  intro fd
  by_cases there : pr.ofile fd = none
  · simp [closes, there]
  · have inside := List.mem_range.mpr (h.inside fd there)
    have flagged := h.agrees fd there
    simp only [closes, inside, true_and, flagged]

theorem closes_kept (h : Recorded pr asked) :
    Recorded (closes pr (List.range pr.limit)) (since pr (closes pr (List.range pr.limit)) asked) := by
  have left : ∀ fd, (closes pr (List.range pr.limit)).ofile fd ≠ none →
      (closes pr (List.range pr.limit)).ofile fd = pr.ofile fd ∧ asked fd = false := by
    intro fd there
    rw [closes_asked h fd] at there ⊢
    cases asks : asked fd with
    | false => exact ⟨if_neg (by decide), rfl⟩
    | true =>
      rw [asks, if_pos rfl] at there
      exact absurd rfl there
  constructor
  · intro fd there
    obtain ⟨same, unasked⟩ := left fd there
    have present : pr.ofile fd ≠ none := same ▸ there
    have zero : (closes pr (List.range pr.limit)).exec_close fd = 0 :=
      if_pos ⟨List.mem_range.mpr (h.inside fd present), present⟩
    rw [zero, since, unasked, Bool.and_false]
    decide
  · intro fd there
    exact h.inside fd ((left fd there).1 ▸ there)

theorem redirect_row {r : Redirection} : Leaves (redirect limit w p r) k fun b k' =>
    (k.proc p).ofile 1 ≠ none ∧
      if b then ∃ f, k'.proc p = (((k.proc p).install 1 none).install 1 (some f)).flag 1 1
      else k'.proc p = (k.proc p).install 1 none ∨ ∃ fd f, fd ≠ 1 ∧ ((k.proc p).install 1 none).lowest 0 = some fd ∧
        k'.proc p = ((k.proc p).install 1 none).install fd (some f) := by
  refine Machine.Ends.get_bind ?_
  split
  · exact Machine.Ends.halt trivial
  · next f there =>
    have «open» : (k.proc p).ofile 1 ≠ none := by
      rw [there]
      exact nofun
    refine Machine.Ends.bind Fd.fileclose_row fun _ k₁ same => ?_
    refine Machine.Ends.bind (Fd.setOfile_row none) fun _ k₂ row => ?_
    rw [same] at row
    refine Machine.Ends.bind Fd.open_row fun fd k₃ row' => ?_
    rw [row] at row'
    refine Machine.Ends.ite (fun other => Machine.Ends.pure ⟨«open», ?_⟩) fun one => ?_
    · rw [if_neg Bool.false_ne_true]
      rcases row' with ⟨-, row'⟩ | ⟨fd', f', rfl, taken, row'⟩
      · exact .inl row'
      · exact .inr ⟨fd', f', fun eq => other (by rw [eq]; rfl), taken, row'⟩
    · refine Machine.Ends.bind (Fd.setProc_row _) fun _ k₄ flagged => Machine.Ends.pure ⟨«open», ?_⟩
      rw [if_pos rfl]
      rcases row' with ⟨failed, -⟩ | ⟨fd', f', eq, -, row'⟩
      · omega
      · have first : fd' = 1 := by omega
        exact ⟨f', by rw [flagged, row', first]; rfl⟩

/-! ### The descriptors behind `exec` -/

/-- Of the file of a redirection it is asked, too. -/
def askedBack (args : Arguments) (asked : Nat → Bool) (fd : Nat) : Bool :=
  (args.redirection.isSome && fd == 1) || asked fd

/-- Behind the loop descriptor 0 is open, or its flag is clear. -/
def ClearZero (pr : Fd.Proc Nat) : Prop := pr.ofile 0 = none → pr.exec_close 0 = 0

/-- What a redirection leaves. -/
theorem redirect_kept {b : Bool} (h : Recorded pr asked) (redirected : args.redirection.isSome = true) (clear : ClearZero pr)
    (there : pr.ofile 1 ≠ none)
    (row : if b then ∃ f, pr' = ((pr.install 1 none).install 1 (some f)).flag 1 1
      else pr' = pr.install 1 none ∨ ∃ fd f, fd ≠ 1 ∧ (pr.install 1 none).lowest 0 = some fd ∧
        pr' = (pr.install 1 none).install fd (some f)) :
    Recorded pr' (askedBack args (since pr pr' asked)) := by
  have dropped := h.shrinks (.drop pr 1)
  have gone : (pr.install 1 none).ofile 1 = none := install_ofile ..
  have others : ∀ {fd : Nat} {asked' : Nat → Bool}, fd ≠ 1 → askedBack args asked' fd = asked' fd := by
    intro fd asked' ne
    rw [askedBack, beq_eq_false_iff_ne.mpr ne, Bool.and_false, Bool.false_or]
  split at row
  · obtain ⟨f, rfl⟩ := row
    refine dropped.opened (h.inside 1 there) (fun i ne => ?_) (iff_of_true Nat.one_ne_zero ?_)
    · have same : (((pr.install 1 none).install 1 (some f)).flag 1 1).ofile i = (pr.install 1 none).ofile i :=
        install_ofile_ne ne _ _
      rw [others ne, since, since, same]
    · rw [askedBack, redirected]
      rfl
  · rcases row with rfl | ⟨fd, f, ne, taken, rfl⟩
    · exact dropped.congr fun fd present => others fun eq => present (eq ▸ gone)
    · have zero : fd = 0 := by
        have := Fd.lowest_le taken gone
        omega
      subst zero
      have still : ((pr.install 1 none).install 0 (some f)).ofile 1 = none := by
        rw [install_ofile_ne (by decide), gone]
      have free : pr.ofile 0 = none := by
        rw [← install_ofile_ne (show 0 ≠ 1 by decide) pr none]
        exact (Fd.lowest_free taken).1
      have gained := dropped.gains (.inr ⟨0, f, taken, rfl⟩) fun fd' taken' => by
        cases taken.symm.trans taken'
        exact clear free
      rw [Fd.since_trans] at gained
      · exact gained.congr fun fd present => others fun eq => present (eq ▸ still)
      · intro i same
        rcases eq_or_ne i 1 with rfl | other
        · rw [still] at same
          exact absurd same.symm there
        · exact install_ofile_ne other _ _

theorem execBack_kept (h : Recorded (k.proc p) asked) (clear : args.redirection.isSome → ClearZero (k.proc p)) :
    Leaves (execBack limit w p args) k fun _ k' =>
      Recorded (k'.proc p) (askedBack args (since (k.proc p) (k'.proc p) asked)) := by
  rw [execBack]
  cases found : args.redirection with
  | none =>
    refine Machine.Ends.pure ?_
    have same : askedBack args (since (k.proc p) (k.proc p) asked) = asked := by
      rw [since_same]
      funext fd
      rw [askedBack, found]
      rfl
    rwa [same]
  | some r =>
    have isSome : args.redirection.isSome = true := by
      rw [found]
      rfl
    refine Machine.Ends.bind redirect_row ?_
    rintro b k₁ ⟨there, row⟩
    have kept := redirect_kept h isSome (clear isSome) there row
    refine Machine.Ends.ite (fun _ => Machine.Ends.pure kept) fun _ => ?_
    refine Machine.Ends.bind (still_leaves (execBad_still none none)) fun _ k₂ same => Machine.Ends.pure ?_
    rwa [same]

/-! ### Runs -/

/-- What a process does with its descriptors. -/
inductive Request where
  | op (op : Fd.Op)
  | exec (path : Path)

/-- The kernel, and what has been asked of the open descriptors of the process. -/
structure Watched (δ : Type) where
  kernel : Kernel δ
  asked : Nat → Bool

variable (limit w p initproc) in
/-- A call that returns. An `exec` has failed before its loop over the descriptors, or it goes
on behind it. -/
inductive Step : Watched δ → Request → Watched δ → Prop where
  | op {op : Fd.Op} {k k' : Kernel δ} {asked : Nat → Bool} {r : Int}
      (run : op.call (below limit w p) p limit k = .ok (r, k')) :
      Step ⟨k, asked⟩ (.op op) ⟨k', op.requested r (k.proc p) (k'.proc p) asked⟩
  | fails {path : Path} {k k' : Kernel δ} {asked : Nat → Bool} {r : Option Int}
      (front : execFront limit w p initproc path k = .ok (.inl r, k')) :
      Step ⟨k, asked⟩ (.exec path) ⟨k', since (k.proc p) (k'.proc p) asked⟩
  | exec {path : Path} {args : Arguments} {k k₁ k₂ k' : Kernel δ} {asked : Nat → Bool} {r : Option Int}
      (front : execFront limit w p initproc path k = .ok (.inr args, k₁))
      (closed : closeOnExec limit w p k₁ = .ok ((), k₂)) (back : execBack limit w p args k₂ = .ok (r, k')) :
      Step ⟨k, asked⟩ (.exec path) ⟨k', askedBack args
        (since (k₂.proc p) (k'.proc p) (since (k.proc p) (k₂.proc p) asked))⟩

variable (limit w p initproc) in
/-- A call finds clear flags where it needs them. `exec` needs that of descriptor 0 for a
redirection, whose file comes there if that descriptor is free. -/
def FindsClear (k : Kernel δ) : Request → Prop
  | .op op => op.Meets (k.proc p)
  | .exec path => ∀ args k₁, execFront limit w p initproc path k = .ok (.inr args, k₁) →
      args.redirection.isSome → ClearZero (k.proc p)

variable (limit w p initproc) in
/-- The states that calls reach; `meets` holds before each. -/
inductive Reach (meets : Kernel δ → Request → Prop) (s : Watched δ) : Watched δ → Prop where
  | refl : Reach meets s s
  | step {t u : Watched δ} {q : Request} (reach : Reach meets s t) (cond : meets t.kernel q)
      (step : Step limit w p initproc t q u) : Reach meets s u

/-- The steps of `exec` are its runs. -/
theorem exec_run_iff : (∃ r, exec limit w initproc p path k = .ok (r, k')) ↔
    ∃ asked', Step limit w p initproc ⟨k, asked⟩ (.exec path) ⟨k', asked'⟩ := by
  rw [exec_eq]
  constructor
  · rintro ⟨r, run⟩
    obtain ⟨r', k₁, front, rest⟩ := Machine.bind_ok.mp run
    cases r' with
    | inl r' =>
      cases rest
      exact ⟨_, .fails front⟩
    | inr args =>
      obtain ⟨_, k₂, closed, back⟩ := Machine.bind_ok.mp rest
      exact ⟨_, .exec front closed back⟩
  · rintro ⟨asked', step⟩
    cases step with
    | fails front => exact ⟨_, Machine.bind_of_ok front⟩
    | exec front closed back =>
      exact ⟨_, (Machine.bind_of_ok front).trans ((Machine.bind_of_ok closed).trans back)⟩

theorem closes_clearZero (h : Recorded pr asked) (clear : ClearZero pr) : ClearZero (closes pr (List.range pr.limit)) := by
  intro _
  by_cases there : pr.ofile 0 = none
  · exact (if_neg fun both => both.2 there).trans (clear there)
  · exact if_pos ⟨List.mem_range.mpr (h.inside 0 there), there⟩

theorem Step.kept {s t : Watched δ} {q : Request} (step : Step limit w p initproc s q t)
    (h : Recorded (s.kernel.proc p) s.asked) (meets : FindsClear limit w p initproc s.kernel q) :
    Recorded (t.kernel.proc p) t.asked := by
  cases step with
  | op run => exact (Fd.Op.keeps h meets).ok run
  | fails front => exact h.shrinks (execFront_row.ok front).1
  | @exec _ args k k₁ k₂ k' asked r front closed back =>
    have same := (execFront_row.ok front).2 args rfl
    have row := closeOnExec_row.ok closed
    rw [same] at row
    have kept := closes_kept h
    have clear : args.redirection.isSome → ClearZero (k₂.proc p) := fun redirected => by
      rw [row]
      exact closes_clearZero h (meets args k₁ front redirected)
    rw [← row] at kept
    exact (execBack_kept kept clear).ok back

/-- Where each call finds the flags clear that it needs, the flag of an open descriptor says
what has been asked, and `exec` closes just these. -/
theorem flags_asked {s t : Watched δ} (start : Recorded (s.kernel.proc p) s.asked)
    (reach : Reach limit w p initproc (FindsClear limit w p initproc) s t) :
    Agrees (t.kernel.proc p) t.asked ∧ ∀ path args k₁ k₂,
      execFront limit w p initproc path t.kernel = .ok (.inr args, k₁) → closeOnExec limit w p k₁ = .ok ((), k₂) →
      ClosesAsked (t.kernel.proc p) (k₂.proc p) t.asked := by
  have kept : Recorded (t.kernel.proc p) t.asked := by
    induction reach with
    | refl => exact start
    | step _ cond step ih => exact step.kept ih cond
  refine ⟨kept.agrees, fun path args k₁ k₂ front closed => ?_⟩
  rw [closeOnExec_row.ok closed, (execFront_row.ok front).2 args rfl]
  exact closes_asked kept

/-- A process whose descriptors 0 and 1 are `/dev/null`. -/
def twoNulls : Watched Unit where
  kernel := { boot () 2 with
    file := fun _ => ⟨.null, 2, true, true, none, none, 0⟩
    proc := fun _ => ⟨.live, fun fd => if fd < 2 then some 0 else none, NOFILE, fun _ => 0, some root⟩ }
  asked _ := false

theorem twoNulls_recorded : Recorded (twoNulls.kernel.proc 0) twoNulls.asked where
  agrees _ _ := iff_of_false (fun flagged => flagged rfl) Bool.false_ne_true
  inside fd there := by
    by_contra beyond
    have high : ¬fd < 2 := fun low => beyond (low.trans (by decide))
    exact there (if_neg high)

/-- The state behind a call. -/
def Watched.behind (s : Watched Unit) (op : Fd.Op) : Watched Unit :=
  match op.call (below 1 bareWorld 0) 0 1 s.kernel with
  | .ok (r, k') => ⟨k', op.requested r (s.kernel.proc 0) (k'.proc 0) s.asked⟩
  | .error _ => s

theorem behind_step (s : Watched Unit) (op : Fd.Op) {r : Int}
    (h : (op.call (below 1 bareWorld 0) 0 1 s.kernel).toOption.map Prod.fst = some r) :
    Step 1 bareWorld 0 0 s (.op op) (s.behind op) := by
  obtain ⟨k', run⟩ := Machine.ok_of_value h
  rw [Watched.behind, run]
  exact .op run

/-- A copy that is to be closed, and one that is not. -/
theorem flags_asked_copies :
    let t := (twoNulls.behind (.fcntl 0 Fd.F_DUPFD_CLOEXEC 0)).behind (.dup 0)
    (t.kernel.proc 0).ofile 2 = some 0 ∧ (t.kernel.proc 0).ofile 3 = some 0 ∧ t.asked 2 = true ∧ t.asked 3 = false ∧
      Agrees (t.kernel.proc 0) t.asked := by
  intro t
  have first := behind_step twoNulls (.fcntl 0 Fd.F_DUPFD_CLOEXEC 0) (r := 2) (by decide)
  have second := behind_step (twoNulls.behind (.fcntl 0 Fd.F_DUPFD_CLOEXEC 0)) (.dup 0) (r := 3)
    (by decide)
  refine ⟨by decide, by decide, by decide, by decide, ?_⟩
  refine (flags_asked twoNulls_recorded ((Reach.refl.step ?_ first).step ?_ second)).1
  · intro dup
    exact absurd dup (by decide)
  · intro fd taken
    have third : fd = 3 := Option.some.inj (taken.symm.trans (by decide))
    rw [third]
    decide

/-- A flag outlives its descriptor, and `dup` takes over both. -/
theorem flags_stale :
    let u := ((twoNulls.behind (.fcntl 1 Fd.F_SETFD 1)).behind (.close 1)).behind (.dup 0)
    Recorded (twoNulls.kernel.proc 0) twoNulls.asked ∧ Reach 1 bareWorld 0 0 (fun _ _ => True) twoNulls u ∧
      ¬Agrees (u.kernel.proc 0) u.asked := by
  intro u
  have first := behind_step twoNulls (.fcntl 1 Fd.F_SETFD 1) (r := 0) (by decide)
  have second := behind_step (twoNulls.behind (.fcntl 1 Fd.F_SETFD 1)) (.close 1) (r := 0) (by decide)
  have third := behind_step ((twoNulls.behind (.fcntl 1 Fd.F_SETFD 1)).behind (.close 1)) (.dup 0) (r := 1)
    (by decide)
  refine ⟨twoNulls_recorded, ((Reach.refl.step trivial first).step trivial second).step trivial third, ?_⟩
  intro agrees
  have flagged := agrees 1 (by decide)
  exact absurd (flagged.mp (by decide)) (by decide)

end AvxKernel.Fs
