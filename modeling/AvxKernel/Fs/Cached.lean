import AvxKernel.Fs.Ledger

/-! The calls of the cache keep the ledger. -/
namespace AvxKernel.Fs

variable {δ α : Type} {s t : Shared (Ecache δ)} {T : Nat → Nat} {H : Nat → Option Nat} {n : Nat}
  {X : Option Nat}
  {e d dp me limit : Nat} {disk : Disk δ} {g : Dirent → Dirent} {name : Name}

/-- The ways to stop that are not a release of a lock that is not held. -/
def Orderly (h : Halt) : Prop := h ≠ .panic "eunlock"

@[simp] theorem orderly_diverge : Orderly .diverge := by simp [Orderly]

@[simp] theorem orderly_fault : Orderly .fault := by simp [Orderly]

@[simp] theorem orderly_panic {m : String} : Orderly (.panic m) ↔ m ≠ "eunlock" := by simp [Orderly]

/-- What may be done to entries behind the back of the counts: contents, and whether
an entry that is valid has been removed. -/
structure Kept (s t : Shared (Ecache δ)) : Prop where
  ref : ∀ e, (t.state.ent e).ref = (s.state.ent e).ref
  parent : ∀ e, (t.state.ent e).parent = (s.state.ent e).parent
  valid : ∀ e, (t.state.ent e).valid = 0 ↔ (s.state.ent e).valid = 0
  order : t.state.order = s.state.order

theorem Kept.refl (s : Shared (Ecache δ)) : Kept s s :=
  ⟨fun _ => rfl, fun _ => rfl, fun _ => Iff.rfl, rfl⟩

theorem Kept.trans {u : Shared (Ecache δ)} (h : Kept s t) (h' : Kept t u) : Kept s u where
  ref e := (h'.ref e).trans (h.ref e)
  parent e := (h'.parent e).trans (h.parent e)
  valid e := (h'.valid e).trans (h.valid e)
  order := h'.order.trans h.order

theorem Kept.of_state (same : t.state = s.state) : Kept s t := by
  constructor <;> simp [same]

theorem Kept.edit (ref : (g (s.state.ent e)).ref = (s.state.ent e).ref)
    (parent : (g (s.state.ent e)).parent = (s.state.ent e).parent)
    (valid : (g (s.state.ent e)).valid = 0 ↔ (s.state.ent e).valid = 0) :
    Kept s (edit s e g) where
  ref d := by
    rcases eq_or_ne d e with rfl | ne
    · rw [edit_self, ref]
    · rw [edit_of_ne ne]
  parent d := by
    rcases eq_or_ne d e with rfl | ne
    · rw [edit_self, parent]
    · rw [edit_of_ne ne]
  valid d := by
    rcases eq_or_ne d e with rfl | ne
    · rw [edit_self, valid]
    · rw [edit_of_ne ne]
  order := rfl

theorem Kept.link (h : Kept s t) (e : Nat) : (t.state.ent e).link = (s.state.ent e).link := by
  simp only [Dirent.link, h.ref, h.parent, ne_eq, h.valid]

theorem Kept.owes (kept : Kept s t) (h : Owes s T H n X) (holder : t.holder = s.holder)
    (stray : t.stray = s.stray) : Owes t T H n X where
  holder := holder.trans h.holder
  stray := stray.trans h.stray
  listed := by rw [kept.order]; exact h.listed
  top := by rw [kept.parent]; exact h.top
  rootValid := by
    rw [ne_eq, kept.valid]
    exact h.rootValid
  settled e used zero := h.settled e (by rwa [kept.ref] at used) (by rwa [kept.valid] at zero)
  inside e used := h.inside e (by rwa [kept.ref] at used)
  linked e ne used valid := by
    rw [kept.parent]
    exact h.linked e ne (by rwa [kept.ref] at used) (by rwa [ne_eq, kept.valid] at valid)
  count d := by
    rw [kept.ref, Ecache.children]
    simp only [kept.link]
    exact h.count d

/-! ### Steps -/

theorem onDisk_ends {x : (Nat → Dirent) → OnDisk δ α} {Q : α → Shared (Ecache δ) → Prop}
    (h : ∀ a disk, Q a { s with state := { s.state with disk } }) :
    Prog.Ends me Orderly (onDisk x) s Q := by
  refine Prog.Ends.onState ?_
  cases found : x s.state.ent s.state.disk with
  | none => exact Machine.Ends.of_error (by rw [found]) orderly_diverge
  | some r => exact Machine.Ends.of_ok (by rw [found]) (h r.1 r.2)

theorem onDisk_kept {x : (Nat → Dirent) → OnDisk δ α} :
    Prog.Ends me Orderly (onDisk x) s fun _ t =>
      Kept s t ∧ t.holder = s.holder ∧ t.stray = s.stray :=
  onDisk_ends fun _ _ => ⟨⟨fun _ => rfl, fun _ => rfl, fun _ => Iff.rfl, rfl⟩, rfl, rfl⟩

theorem edup_ends (h : Owes s T H n X) (used : 0 < (s.state.ent e).ref ∨ e = root) :
    Prog.Ends me Orderly (edup e) s fun a t =>
      e = a ∧ t = edit s e (fun d => { d with ref := d.ref + 1 }) ∧ Owes t (T + one e) H n X := by
  have inside : e ∈ slots := by
    rcases used with used | rfl
    · exact h.inside e used
    · decide
  refine Prog.Ends.bind (Prog.Ends.modify (Q := fun _ t => t = edit s e _) rfl) ?_
  rintro _ t rfl
  refine Prog.Ends.pure ⟨rfl, rfl, h.edit_ref (r := (s.state.ent e).ref + 1) inside ?_ ?_
    (fun _ _ => id) fun d => ?_⟩
  · rcases used with used | isRoot
    · exact .inl ⟨used, by omega⟩
    · exact .inr (.inr isRoot)
  · intro _ zero
    rcases used with used | rfl
    · exact h.settled e used zero
    · exact absurd zero h.rootValid
  · simp only [Pi.add_apply, one]
    split <;> push_cast <;> omega

theorem elock_ends (h : Owes s T H n X) : Prog.Ends me Orderly (elock e) s fun _ t =>
    H e = none ∧ t.state = s.state ∧ Owes t T (Function.update H e (some me)) n X := by
  refine Prog.Ends.read_bind (Prog.Ends.ite (fun _ => Prog.Ends.panic (by simp)) fun _ => ?_)
  refine Prog.Ends.acquire (by simp) fun free => ?_
  exact ⟨h.holder ▸ free, rfl, h.same rfl h.listed (by rw [h.holder]) h.stray⟩

theorem eunlock_ends (h : Owes s T H n X) (mine : H e = some me) (used : 0 < (s.state.ent e).ref) :
    Prog.Ends me Orderly (eunlock e) s fun _ t =>
      t.state = s.state ∧ Owes t T (Function.update H e none) n X := by
  have mine : s.holder e = some me := by rw [h.holder, mine]
  refine Prog.Ends.holding_bind ?_
  rw [if_pos (by simpa using mine)]
  refine Prog.Ends.read_bind (Prog.Ends.ite (fun unused => ?_) fun _ => ?_)
  · omega
  · exact Prog.Ends.release mine ⟨rfl, h.same rfl h.listed (by rw [h.holder]) h.stray⟩

/-- What holds when a program has returned, which it does. -/
abbrev Surely (me : Nat) (x : Cache δ α) (s : Shared (Ecache δ)) (Q : α → Shared (Ecache δ) → Prop) :
    Prop :=
  Prog.Ends me (fun _ => False) x s Q

theorem Surely.returns {x : Cache δ α} {Q : α → Shared (Ecache δ) → Prop} (h : Surely me x s Q) :
    ∃ a t, Prog.run me x s = .ok (a, t) ∧ Q a t := by
  cases run : Prog.run me x s with
  | error halt => exact (Machine.Ends.error h run).elim
  | ok r => exact ⟨r.1, r.2, rfl, Machine.Ends.ok h run⟩

theorem elock_surely (used : 0 < (s.state.ent e).ref) (free : s.holder e = none) :
    Surely me (elock e) s fun _ t => t = { s with holder := Function.update s.holder e (some me) } := by
  refine Prog.Ends.read_bind (Prog.Ends.ite (fun low => ?_) fun _ => ?_)
  · exact absurd used (by omega)
  unfold Prog.Ends
  rw [Prog.run_acquire]
  refine Machine.Ends.get_bind ?_
  rw [free]
  exact rfl

theorem eunlock_surely (used : 0 < (s.state.ent e).ref) (mine : s.holder e = some me) :
    Surely me (eunlock e) s fun _ t => t = { s with holder := Function.update s.holder e none } := by
  refine Prog.Ends.holding_bind ?_
  rw [if_pos (decide_eq_true mine)]
  refine Prog.Ends.read_bind (Prog.Ends.ite (fun low => ?_) fun _ => ?_)
  · exact absurd used (by omega)
  · exact Prog.Ends.release mine rfl

theorem eunlock_panics (free : s.holder e ≠ some me) :
    Prog.Ends me (· = .panic "eunlock") (eunlock e) s fun _ _ => False := by
  refine Prog.Ends.holding_bind ?_
  rw [if_neg (by simpa using free)]
  exact Prog.Ends.panic rfl

theorem setEntry_kept (ref : (g (s.state.ent e)).ref = (s.state.ent e).ref)
    (parent : (g (s.state.ent e)).parent = (s.state.ent e).parent)
    (valid : (g (s.state.ent e)).valid = 0 ↔ (s.state.ent e).valid = 0) :
    Prog.Ends me Orderly (setEntry e g) s fun _ t =>
      Kept s t ∧ t.holder = s.holder ∧ t.stray = s.stray :=
  Prog.Ends.modify ⟨Kept.edit ref parent valid, rfl, rfl⟩

theorem kept_bind {x : Cache δ α} {β : Type} {f : α → Cache δ β}
    (first : Prog.Ends me Orderly x s fun _ t =>
      Kept s t ∧ t.holder = s.holder ∧ t.stray = s.stray)
    (rest : ∀ a t, Kept s t → Prog.Ends me Orderly (f a) t fun _ u =>
      Kept t u ∧ u.holder = t.holder ∧ u.stray = t.stray) :
    Prog.Ends me Orderly (x >>= f) s fun _ t =>
      Kept s t ∧ t.holder = s.holder ∧ t.stray = s.stray := by
  refine Prog.Ends.bind first fun a t ⟨kept, holder, stray⟩ => (rest a t kept).mono ?_
  rintro _ u ⟨kept', holder', stray'⟩
  exact ⟨kept.trans kept', holder'.trans holder, stray'.trans stray⟩

theorem eupdate_kept : Prog.Ends me Orderly (eupdate disk e) s fun _ t =>
    Kept s t ∧ t.holder = s.holder ∧ t.stray = s.stray := by
  refine Prog.Ends.read_bind (Prog.Ends.ite (fun _ => ?_) fun _ => ?_)
  · exact Prog.Ends.pure ⟨Kept.refl s, rfl, rfl⟩
  · exact kept_bind onDisk_kept fun _ _ _ => setEntry_kept rfl rfl Iff.rfl

theorem eremove_kept : Prog.Ends me Orderly (eremove disk e) s fun _ t =>
    Kept s t ∧ t.holder = s.holder ∧ t.stray = s.stray := by
  refine Prog.Ends.read_bind (Prog.Ends.ite (fun _ => ?_) fun valid => ?_)
  · exact Prog.Ends.pure ⟨Kept.refl s, rfl, rfl⟩
  · refine Prog.Ends.bind (R := fun _ t => t.state.ent = s.state.ent ∧ Kept s t ∧
      t.holder = s.holder ∧ t.stray = s.stray) (onDisk_ends fun _ _ =>
        ⟨rfl, ⟨fun _ => rfl, fun _ => rfl, fun _ => Iff.rfl, rfl⟩, rfl, rfl⟩) ?_
    rintro _ t ⟨same, kept, holder, stray⟩
    refine (setEntry_kept rfl rfl ?_).mono ?_
    · rw [same]
      simp only [not_not] at valid
      simp [valid]
    · rintro _ u ⟨kept', holder', stray'⟩
      exact ⟨kept.trans kept', holder'.trans holder, stray'.trans stray⟩

theorem etrunc_kept : Prog.Ends me Orderly (etrunc disk e) s fun _ t =>
    Kept s t ∧ t.holder = s.holder ∧ t.stray = s.stray :=
  kept_bind onDisk_kept fun _ _ _ => setEntry_kept rfl rfl Iff.rfl

/-! ### Putting back -/

theorem edit_parent (same : (g (s.state.ent e)).parent = (s.state.ent e).parent) (d : Nat) :
    ((edit s e g).state.ent d).parent = (s.state.ent d).parent := by
  rcases eq_or_ne d e with rfl | ne
  · rw [edit_self, same]
  · rw [edit_of_ne ne]

/-- A lock that was free is free again once it is put back. -/
theorem update_back (free : H e = none) (me : Nat) :
    Function.update (Function.update H e (some me)) e none = H := by
  rw [Function.update_idem, ← free, Function.update_eq_self]

theorem eputFirst_ends (h : Owes s (T + one e) H n X) :
    Prog.Ends me Orderly (eputFirst e) s fun full t =>
      (full = true ∧ e ≠ root ∧ H e = none ∧ (s.state.ent e).valid ≠ 0 ∧
        (s.state.ent e).ref = 1 ∧ t.state.ent = s.state.ent ∧
        Owes t (T + one e) (Function.update H e (some me)) n X) ∨
      (full = false ∧ t = edit s e (fun d => { d with ref := d.ref - 1 }) ∧ Owes t T H n X) := by
  have used : 0 < (s.state.ent e).ref := h.pos (by simp)
  have inside := h.inside e used
  refine Prog.Ends.step (Machine.Ends.get_bind (Machine.Ends.ite (fun last => ?_) fun more => ?_))
  · obtain ⟨notRoot, valid, single⟩ := last
    cases held : s.holder e with
    | some q => exact Machine.Ends.of_error rfl (by simp)
    | none =>
      refine Machine.Ends.of_ok rfl (.inl ⟨rfl, notRoot, h.holder ▸ held, valid, single, rfl, ?_⟩)
      refine h.same rfl ?_ (by rw [h.holder]) h.stray
      intro d listed
      rcases List.mem_cons.mp listed with rfl | old
      · exact ⟨inside, notRoot⟩
      · exact h.listed d (List.mem_of_mem_erase old)
  · refine Machine.Ends.of_ok rfl (.inr ⟨rfl, rfl, ?_⟩)
    refine h.edit_ref (r := (s.state.ent e).ref - 1) inside ?_ (fun _ => h.settled e used)
      (fun _ _ => id) fun d => ?_
    · by_cases isRoot : e = root
      · exact .inr (.inr isRoot)
      · by_cases valid : (s.state.ent e).valid = 0
        · exact .inr (.inl valid)
        · refine .inl ⟨used, ?_⟩
          have : (s.state.ent e).ref ≠ 1 := fun single => more ⟨isRoot, valid, single⟩
          omega
    · simp only [Pi.add_apply, one]
      split <;> push_cast <;> omega

theorem eputWrite_ends (h : Owes s T H n X) (notRoot : e ≠ root) (used : 0 < (s.state.ent e).ref)
    (valid : (s.state.ent e).valid ≠ 0) :
    Prog.Ends me Orderly (eputWrite disk e) s fun _ t => Kept s t ∧ Owes t T H n X := by
  refine Prog.Ends.read_bind (Prog.Ends.ite (fun _ => ?_) fun _ => Prog.Ends.read_bind ?_)
  · exact etrunc_kept.mono fun _ t ⟨kept, holder, stray⟩ => ⟨kept, kept.owes h holder stray⟩
  · obtain ⟨p, -, parent⟩ := h.linked e notRoot used valid
    have parentUsed := h.parent_pos used valid parent
    rw [parent]
    refine Prog.Ends.bind (elock_ends h) ?_
    rintro _ t₁ ⟨free, same, h₁⟩
    refine Prog.Ends.bind eupdate_kept ?_
    rintro _ t₂ ⟨kept₂, holder, stray⟩
    have h₂ := kept₂.owes h₁ holder stray
    have kept := (Kept.of_state same).trans kept₂
    refine Prog.Ends.read_bind ?_
    rw [kept.parent, parent]
    refine (eunlock_ends h₂ (by simp) (by rwa [kept.ref])).mono ?_
    rintro _ t₃ ⟨same₃, h₃⟩
    rw [update_back free] at h₃
    exact ⟨kept.trans (Kept.of_state same₃), h₃⟩

/-- Where the entry stays in use, or is the root, `eput` only counts. -/
theorem eput_counts (stays : e = root ∨ (s.state.ent e).ref ≠ 1) :
    Surely me (eput disk (limit + 1) e) s fun _ t => t = edit s e fun d => { d with ref := d.ref - 1 } := by
  refine Prog.Ends.bind (R := fun last t => last = false ∧
    t = edit s e fun d => { d with ref := d.ref - 1 }) ?_ ?_
  · refine Prog.Ends.step (Machine.Ends.get_bind (Machine.Ends.ite (fun last => ?_) fun _ => ?_))
    · rcases stays with isRoot | more
      · exact absurd isRoot last.1
      · exact absurd last.2.2 more
    · exact Machine.Ends.of_ok rfl ⟨rfl, rfl⟩
  · rintro _ t ⟨rfl, rfl⟩
    exact Prog.Ends.pure rfl

/-- `eput` gives back one reference, and through it those of the parents that are
no longer in use. -/
theorem eput_keeps (h : Owes s (T + one e) H n X) :
    Prog.Ends me Orderly (eput disk limit e) s fun _ t =>
      Owes t T H n X ∧ ∀ d, (t.state.ent d).parent = (s.state.ent d).parent := by
  induction limit generalizing s e T with
  | zero => exact Prog.Ends.halt orderly_diverge
  | succ limit ih =>
    refine Prog.Ends.bind (eputFirst_ends h) ?_
    rintro full t₁ (⟨rfl, notRoot, free, valid, single, same, h₁⟩ | ⟨rfl, rfl, h₁⟩)
    · have used : 0 < (t₁.state.ent e).ref := by rw [same, single]; decide
      rw [if_pos rfl]
      refine Prog.Ends.bind (eputWrite_ends h₁ notRoot used (by rwa [same])) ?_
      rintro _ t₂ ⟨kept, h₂⟩
      refine Prog.Ends.bind (Prog.Ends.release (by rw [h₂.holder, Function.update_self])
        (Q := fun _ t => t.state = t₂.state ∧ Owes t (T + one e) H n X) ⟨rfl, ?_⟩) ?_
      · refine h₂.same rfl h₂.listed ?_ h₂.stray
        rw [h₂.holder, update_back free]
      rintro _ t₃ ⟨same₃, h₃⟩
      have ref₃ : (t₃.state.ent e).ref = 1 := by rw [same₃, kept.ref, same, single]
      have valid₃ : (t₃.state.ent e).valid ≠ 0 := by
        rw [same₃, ne_eq, kept.valid, same]
        exact valid
      have used₃ : 0 < (t₃.state.ent e).ref := by rw [ref₃]; decide
      obtain ⟨p, -, parent⟩ := h₃.linked e notRoot used₃ valid₃
      refine Prog.Ends.read_bind ?_
      rw [parent]
      refine Prog.Ends.bind (Prog.Ends.modify (Q := fun _ t => t = edit t₃ e _) rfl) ?_
      rintro _ t₄ rfl
      refine Prog.Ends.read_bind ?_
      rw [edit_self, if_pos (by rw [ref₃]; rfl)]
      have parents : ∀ d, ((edit t₃ e fun d => { d with ref := d.ref - 1 }).state.ent d).parent =
          (s.state.ent d).parent := by
        intro d
        rw [edit_parent rfl, same₃, kept.parent, same]
      have h₄ : Owes (edit t₃ e fun d => { d with ref := d.ref - 1 }) (T + one p) H n X := by
        refine h₃.edit (h₃.inside e used₃) (fun isRoot => absurd isRoot notRoot) ?_
          (fun _ => h₃.settled e used₃) (fun _ _ => id) fun d => ?_
        · intro _ used
          rw [ref₃] at used
          exact absurd used (by simp)
        · have before : (t₃.state.ent e).points d = one p d := by
            simp only [Dirent.points, Dirent.link, used₃, valid₃, parent, one, ne_eq, not_false_eq_true,
              and_self, if_true, Option.some.injEq]
          have after : Dirent.points { t₃.state.ent e with ref := (t₃.state.ent e).ref - 1 } d = 0 := by
            simp [Dirent.points, Dirent.link, ref₃]
          rw [before, after, ref₃]
          simp only [Pi.add_apply, one]
          push_cast
          split <;> omega
      refine (ih h₄).mono ?_
      rintro _ u ⟨h₅, rest⟩
      exact ⟨h₅, fun d => (rest d).trans (parents d)⟩
    · exact Prog.Ends.pure ⟨h₁, edit_parent rfl⟩

theorem eput_ends (h : Owes s (T + one e) H n X) :
    Prog.Ends me Orderly (eput disk limit e) s fun _ t => Owes t T H n X :=
  (eput_keeps h).mono fun _ _ keeps => keeps.1

end AvxKernel.Fs
