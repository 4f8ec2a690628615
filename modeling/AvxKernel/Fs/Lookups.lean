import AvxKernel.Fs.Cached

/-! Looking up and making entries: what `eget` finds or recycles, and the
references that a look-up returns. -/
namespace AvxKernel.Fs

open Fat (formatname)

variable {δ α : Type} {s t : Shared (Ecache δ)} {T : Nat → Nat} {H : Nat → Option Nat} {n : Nat}
  {X : Option Nat} {e d dp ep me limit : Nat} {disk : Disk δ} {g : Dirent → Dirent} {name : Name}

/-- The reference that a call returns, if it returns one. -/
def refTo : Option Nat → Nat → Nat
  | some e => one e
  | none => 0

@[simp] theorem refTo_some : refTo (some e) = one e := rfl

@[simp] theorem refTo_none : refTo none = 0 := rfl

/-- The cache has the entry for the name in a directory that is there. -/
structure LeadsTo (s : Ecache δ) (dp : Nat) (name : Name) (e : Nat) : Prop where
  dir : (s.ent dp).isDir = true
  valid : (s.ent dp).valid = 1
  hit : s.order.find? (fun d => (s.ent d).hit dp name) = some e

/-- No entry of the cache is the one of that name in the directory. -/
def Missing (dp : Nat) (name : Name) (s : Shared (Ecache δ)) : Prop :=
  ∀ e ∈ s.state.order, (s.state.ent e).hit dp name = false

theorem Missing.find (h : Missing dp name s) :
    s.state.order.find? (fun d => (s.state.ent d).hit dp name) = none := by
  rw [List.find?_eq_none]
  intro e listed
  rw [h e listed]
  exact Bool.false_ne_true

theorem Missing.edit (h : Missing dp name s) (invalid : (g (s.state.ent e)).valid ≠ 1) :
    Missing dp name (edit s e g) := by
  intro d listed
  rcases eq_or_ne d e with rfl | ne
  · rw [edit_self, Dirent.hit, beq_false_of_ne invalid]
    rfl
  · rw [edit_of_ne ne]
    exact h d listed

/-! ### Filling an entry -/

/-- An entry that is not valid yet may point anywhere. -/
theorem Owes.edit_fresh (h : Owes s T H n (some e)) (notRoot : e ≠ root)
    (used : 0 < (s.state.ent e).ref) (ref : (g (s.state.ent e)).ref = (s.state.ent e).ref)
    (before : (s.state.ent e).valid = 0) (after : (g (s.state.ent e)).valid = 0) :
    Owes (Fs.edit s e g) T H n (some e) := by
  refine h.edit (h.inside e used) (fun isRoot => absurd isRoot notRoot) ?_ (fun _ _ => rfl)
    (fun _ _ => id) fun d => ?_
  · intro _ _ valid
    exact absurd after valid
  · simp only [Dirent.points, Dirent.link, before, after, ref, ne_eq, not_true_eq_false, and_false,
      if_false]

/-- An entry becomes valid: it takes over a reference to its parent. -/
theorem Owes.attach (h : Owes s (T + one dp) H n (some e)) (notRoot : e ≠ root)
    (used : 0 < (s.state.ent e).ref) (before : (s.state.ent e).valid = 0)
    (parent : (s.state.ent e).parent = some dp) :
    Owes (Fs.edit s e fun d => { d with valid := 1 }) T H n none := by
  have inside := h.inside dp (h.pos (by simp))
  refine h.edit (h.inside e used) (fun isRoot => absurd isRoot notRoot) ?_ ?_ ?_ fun d => ?_
  · intro _ _ _
    exact ⟨dp, inside, parent⟩
  · intro _ invalid
    exact absurd invalid (by simp)
  · intro d ne fresh
    exact absurd (Option.some.inj fresh) ne
  · have pointsTo : Dirent.points { s.state.ent e with valid := 1 } d = one dp d := by
      simp only [Dirent.points, Dirent.link, used, parent, one, ne_eq, one_ne_zero,
        not_false_eq_true, and_self, if_true, Option.some.injEq]
    have pointsNot : (s.state.ent e).points d = 0 := by
      simp only [Dirent.points, Dirent.link, before, ne_eq, not_true_eq_false, and_false, if_false,
        reduceCtorEq]
    rw [pointsTo, pointsNot, Pi.add_apply]
    push_cast
    omega

/-- Once it is out of use, nothing is being filled. -/
theorem Owes.unused (h : Owes s T H n (some e)) (free : (s.state.ent e).ref = 0) :
    Owes s T H n none :=
  { h with
    settled := fun d used zero => by
      obtain rfl := Option.some.inj (h.settled d used zero)
      rw [free] at used
      exact absurd used (by decide) }

/-! ### `eget` -/

/-- An entry as `eget` recycles it. -/
def recycled (d : Dirent) : Dirent := { d with ref := 1, off := 0, valid := 0, dirty := false }

theorem hit_iff (d : Dirent) :
    d.hit dp name = true ↔ d.valid = 1 ∧ d.parent = some dp ∧ sameName d.filename name = true := by
  simp [Dirent.hit, and_assoc]

/-- A hit on an entry out of use takes a reference to the parent as well. -/
theorem hit_owes (h : Owes s T H n X) (used : 0 < (s.state.ent dp).ref) (listed : e ∈ s.state.order)
    (found : (s.state.ent e).hit dp name = true) :
    Owes { s with state :=
      let t := s.state.set e fun d => { d with ref := d.ref + 1 }
      if (s.state.ent e).ref = 0 then t.set dp fun d => { d with ref := d.ref + 1 } else t }
      (T + one e) H n X := by
  obtain ⟨valid, parent, -⟩ := (hit_iff _).mp found
  obtain ⟨inside, notRoot⟩ := h.listed e listed
  have settled : ∀ {s : Shared (Ecache δ)}, (s.state.ent e).valid = 1 →
      (s.state.ent e).valid = 0 → some e = X := fun one zero => absurd (one.symm.trans zero) (by simp)
  dsimp only
  split
  · rename_i free
    have ne : dp ≠ e := by
      rintro rfl
      rw [free] at used
      exact absurd used (by decide)
    have h₁ : Owes (edit s dp fun d => { d with ref := (s.state.ent dp).ref + 1 })
        (T + one dp) H n X :=
      h.edit_ref (h.inside dp used) (.inl ⟨used, by omega⟩) (fun _ => h.settled dp used)
        (fun _ _ => id) fun d => by
          simp only [Pi.add_apply, one]
          split <;> push_cast <;> omega
    have same := edit_of_ne (s := s) (g := fun d => { d with ref := (s.state.ent dp).ref + 1 })
      (Ne.symm ne)
    have h₂ : Owes (edit (edit s dp fun d => { d with ref := (s.state.ent dp).ref + 1 }) e
        fun d => { d with ref := 1 }) (T + one e) H n X := h₁.edit inside
      (fun isRoot => absurd isRoot notRoot) (fun _ _ _ => ⟨dp, h.inside dp used, by rw [same, parent]⟩)
      (fun _ zero => settled (s := s) valid (by rwa [same] at zero)) (fun _ _ => id) fun d => by
        rw [same]
        have after : Dirent.points { s.state.ent e with ref := 1 } d = one dp d := by
          simp [Dirent.points, Dirent.link, valid, parent, one]
        have before : (s.state.ent e).points d = 0 := by
          simp [Dirent.points, Dirent.link, free]
        rw [before, after, free]
        simp only [Pi.add_apply, one]
        push_cast
        omega
    refine cast (congrArg (fun st => Owes { s with state := st } (T + one e) H n X) ?_) h₂
    simp only [Fs.edit, Ecache.set, Function.update_of_ne ne, Function.update_of_ne (Ne.symm ne), free,
      zero_add]
    rw [Function.update_comm ne]
  · rename_i referred
    have pos : 0 < (s.state.ent e).ref := lt_of_le_of_ne (h.nonneg e) (Ne.symm referred)
    refine h.edit_ref (r := (s.state.ent e).ref + 1) inside (.inl ⟨pos, by omega⟩)
      (fun _ => settled (s := s) valid) (fun _ _ => id) fun d => ?_
    simp only [Pi.add_apply, one]
    split <;> push_cast <;> omega

/-- `eget` either hits, or none is there to hit and it recycles an entry. -/
theorem eget_ends (h : Owes s T H n none) (used : 0 < (s.state.ent dp).ref) :
    Prog.Ends me Orderly (eget dp name) s fun ep t =>
      (s.state.order.find? (fun d => (s.state.ent d).hit dp name) = some ep ∧
        (t.state.ent ep).valid = 1 ∧ (∀ d, (t.state.ent d).parent = (s.state.ent d).parent) ∧
        Owes t (T + one ep) H n none) ∨
      (Missing dp name s ∧ ep ≠ root ∧ (s.state.ent ep).ref = 0 ∧ t = edit s ep recycled ∧
        Owes t (T + one ep) H n (some ep)) := by
  refine Prog.Ends.onState (Machine.Ends.get_bind ?_)
  cases found : s.state.order.find? fun e => (s.state.ent e).hit dp name with
  | some ep =>
    have hit := List.find?_some found
    have listed := List.mem_of_find?_eq_some found
    refine Machine.Ends.of_ok rfl (.inl ⟨rfl, ?_, ?_, ?_⟩)
    · obtain ⟨valid, -, -⟩ := (hit_iff _).mp hit
      dsimp only
      split
      · simp only [Ecache.set]
        rcases eq_or_ne ep dp with rfl | ne
        · simp [valid]
        · simp [ne, valid]
      · simp [Ecache.set, valid]
    · intro d
      have counted : ∀ (s : Shared (Ecache δ)) (e : Nat),
          ((edit s e fun d => { d with ref := d.ref + 1 }).state.ent d).parent = (s.state.ent d).parent :=
        fun s e => edit_parent rfl d
      dsimp only
      split
      · exact (counted (edit s ep _) dp).trans (counted s ep)
      · exact counted s ep
    · exact hit_owes h used listed hit
  | none =>
    have missing : Missing dp name s := by
      intro e listed
      simpa using List.find?_eq_none.mp found e listed
    cases spare : s.state.order.reverse.find? fun e => (s.state.ent e).ref == 0 with
    | none => exact Machine.Ends.of_error rfl (by simp)
    | some ep =>
      have free : (s.state.ent ep).ref = 0 := by simpa using List.find?_some spare
      obtain ⟨inside, notRoot⟩ := h.listed ep
        (List.mem_reverse.mp (List.mem_of_find?_eq_some spare))
      refine Machine.Ends.of_ok rfl (.inr ⟨missing, notRoot, free, rfl, ?_⟩)
      refine h.edit (g := recycled) inside (fun isRoot => absurd isRoot notRoot) ?_ (fun _ _ => rfl)
        ?_ fun d => ?_
      · intro _ _ valid
        exact absurd rfl valid
      · intro d _ eq
        cases eq
      · have after : (recycled (s.state.ent ep)).points d = 0 := by
          simp [recycled, Dirent.points, Dirent.link]
        have before : (s.state.ent ep).points d = 0 := by
          simp [Dirent.points, Dirent.link, free]
        rw [before, after, free]
        simp only [Pi.add_apply, one, recycled]
        split <;> push_cast <;> omega

/-! ### `dirlookup` -/

/-- `eput` of an entry that is not valid only drops the reference. -/
theorem eput_fresh_ends (h : Owes s (T + one e) H n (some e)) (invalid : (s.state.ent e).valid = 0)
    (single : (s.state.ent e).ref = 1) : Prog.Ends me Orderly (eput disk limit e) s fun _ t =>
      t = edit s e (fun d => { d with ref := d.ref - 1 }) ∧ Owes t T H n none := by
  cases limit with
  | zero => exact Prog.Ends.halt orderly_diverge
  | succ limit =>
    refine Prog.Ends.bind (eputFirst_ends h) ?_
    rintro full t (⟨-, -, -, valid, -⟩ | ⟨rfl, rfl, h₁⟩)
    · exact absurd invalid valid
    · exact Prog.Ends.pure ⟨rfl, h₁.unused (by rw [edit_self, single]; rfl)⟩

/-- A name that is neither "." nor "..". -/
def Plain (name : Name) : Prop := sameName name [46] = false ∧ sameName name [46, 46] = false

/-- A look-up in a directory leaves the parents of entries in use alone. It returns such
an entry only if the cache has it for the name. -/
theorem dirlookup_keeps (h : Owes s T H n none) (held : 0 < T dp) :
    Prog.Ends me Orderly (dirlookup disk limit dp name) s fun r t =>
      (Owes t (T + refTo r.1) H n none ∧
        (r.1 = none → (s.state.ent dp).valid = 1 → Plain name → Missing dp name t)) ∧
      (∀ d, 0 < (s.state.ent d).ref → (t.state.ent d).parent = (s.state.ent d).parent) ∧
      ∀ e, r.1 = some e → 0 < (s.state.ent e).ref → Plain name → LeadsTo s.state dp name e := by
  have used : 0 < (s.state.ent dp).ref := h.pos held
  refine Prog.Ends.read_bind (Prog.Ends.ite (fun _ => Prog.Ends.panic (by simp)) fun dir => ?_)
  refine Prog.Ends.ite (fun dot => ?_) fun notDot => Prog.Ends.ite (fun dots => ?_) fun notDots => ?_
  · refine Prog.Ends.bind (edup_ends h (.inl used)) ?_
    rintro _ t ⟨rfl, rfl, h₁⟩
    exact Prog.Ends.pure ⟨⟨h₁, by simp⟩, fun d _ => edit_parent rfl d,
      fun _ _ _ plain => absurd dot (by simp [plain.1])⟩
  · have elsewhere : ∀ {r : Option Nat} (e : Nat), r = some e → 0 < (s.state.ent e).ref → Plain name →
        LeadsTo s.state dp name e := fun _ _ _ plain => absurd dots (by simp [plain.2])
    refine Prog.Ends.ite (fun isRoot => ?_) fun notRoot => Prog.Ends.read_bind ?_
    · refine Prog.Ends.bind (edup_ends h (.inr rfl)) ?_
      rintro _ t ⟨rfl, rfl, h₁⟩
      exact Prog.Ends.pure ⟨⟨h₁, by simp⟩, fun d _ => edit_parent rfl d, elsewhere⟩
    · have valid : (s.state.ent dp).valid ≠ 0 := fun zero => by
        cases h.settled dp used zero
      obtain ⟨p, -, parent⟩ := h.linked dp notRoot used valid
      rw [parent]
      refine Prog.Ends.bind (edup_ends h (.inl (h.parent_pos used valid parent))) ?_
      rintro _ t ⟨rfl, rfl, h₁⟩
      exact Prog.Ends.pure ⟨⟨h₁, by simp⟩, fun d _ => edit_parent rfl d, elsewhere⟩
  · refine Prog.Ends.read_bind (Prog.Ends.ite (fun removed => ?_) fun there => ?_)
    · exact Prog.Ends.pure ⟨⟨by simpa using h, fun _ valid => absurd valid removed⟩, fun _ _ => rfl,
        fun _ eq => by cases eq⟩
    refine Prog.Ends.bind (eget_ends h used) ?_
    rintro ep t₁ (⟨hit, valid, parents, h₁⟩ | ⟨missing, notRoot, free, rfl, h₁⟩)
    · refine Prog.Ends.read_bind ?_
      rw [if_pos valid]
      refine Prog.Ends.pure ⟨⟨h₁, by simp⟩, fun d _ => parents d, fun e eq _ _ => ?_⟩
      cases eq
      exact ⟨Bool.not_eq_false _ ▸ dir, not_not.mp there, hit⟩
    · refine Prog.Ends.read_bind ?_
      rw [edit_self, if_neg (by simp [recycled])]
      have ne : dp ≠ ep := by
        rintro rfl
        rw [free] at used
        exact absurd used (by decide)
      refine Prog.Ends.bind (R := fun _ t => Owes t (T + one ep) H n (some ep) ∧
        (t.state.ent ep).valid = 0 ∧ (t.state.ent ep).ref = 1 ∧ 0 < (t.state.ent dp).ref ∧
        Missing dp name t ∧ ∀ d, (t.state.ent d).parent = (s.state.ent d).parent) (onDisk_ends fun _ _ =>
          ⟨h₁.same rfl h₁.listed h₁.holder h₁.stray, by rw [edit_self]; rfl, by rw [edit_self]; rfl,
          by rwa [edit_of_ne ne], missing.edit (by simp [recycled]), edit_parent rfl⟩) ?_
      rintro found t₂ ⟨h₂, invalid, single, used₂, missing₂, parents⟩
      have apart : ∀ {d}, 0 < (s.state.ent d).ref → d ≠ ep := by
        rintro d inUse rfl
        rw [free] at inUse
        exact absurd inUse (by decide)
      have used_ep : 0 < (t₂.state.ent ep).ref := by rw [single]; decide
      refine Prog.Ends.bind (Prog.Ends.modify (Q := fun _ t => t = edit t₂ ep _) rfl) ?_
      rintro _ t₃ rfl
      have h₃ := h₂.edit_fields (h₂.inside ep used_ep) (g := fun d => { d with
        filename := found.filename, attr := found.attr, first_clus := found.first_clus
        file_size := found.file_size }) rfl rfl rfl
      cases found.off with
      | some off =>
        refine Prog.Ends.bind (edup_ends h₃ (.inl (by rwa [edit_of_ne ne]))) ?_
        rintro _ t₄ ⟨rfl, rfl, h₄⟩
        refine Prog.Ends.bind (Prog.Ends.modify (Q := fun _ t => t = edit _ ep _) rfl) ?_
        rintro _ t₅ rfl
        have h₅ := h₄.edit_fresh (g := fun d => { d with parent := some dp, off := off }) notRoot
          (by rwa [edit_of_ne (Ne.symm ne), edit_self]) rfl
          (by rwa [edit_of_ne (Ne.symm ne), edit_self])
          (by rwa [edit_of_ne (Ne.symm ne), edit_self])
        refine Prog.Ends.bind (Prog.Ends.modify (Q := fun _ t => t = edit _ ep _) rfl) ?_
        rintro _ t₆ rfl
        refine Prog.Ends.pure ⟨⟨h₅.attach notRoot ?_ ?_ ?_, by simp⟩, fun d inUse => ?_, fun e eq inUse => ?_⟩
        · rwa [edit_self, edit_of_ne (Ne.symm ne), edit_self]
        · rwa [edit_self, edit_of_ne (Ne.symm ne), edit_self]
        · rw [edit_self]
        · rw [edit_of_ne (apart inUse), edit_of_ne (apart inUse), edit_parent rfl, edit_parent rfl, parents]
        · exact absurd (Option.some.inj eq).symm (apart inUse)
      | none =>
        refine Prog.Ends.bind (eput_fresh_ends h₃ (by rwa [edit_self]) (by rwa [edit_self])) ?_
        rintro _ t₄ ⟨rfl, h₄⟩
        refine Prog.Ends.pure ⟨⟨by simpa using h₄, fun _ _ _ => ?_⟩, fun d _ => ?_, fun _ eq => by cases eq⟩
        · refine Missing.edit (missing₂.edit ?_) ?_
          · simp [invalid]
          · simp [invalid]
        · rw [edit_parent rfl, edit_parent rfl, parents]

theorem dirlookup_ends (h : Owes s T H n none) (held : 0 < T dp) :
    Prog.Ends me Orderly (dirlookup disk limit dp name) s fun r t =>
      Owes t (T + refTo r.1) H n none ∧
      (r.1 = none → (s.state.ent dp).valid = 1 → Plain name → Missing dp name t) :=
  (dirlookup_keeps h held).mono fun _ _ keeps => keeps.1

/-! ### Paths -/

theorem lookupFrom_ends {parent : Bool} {rounds entry : Nat} {path : Name}
    (h : Owes s (T + one entry) H n none) :
    Prog.Ends me Orderly (lookupFrom disk limit parent rounds entry path name) s fun r t =>
      Owes t (T + refTo r.1) H n none := by
  induction rounds generalizing s T entry path name with
  | zero => exact Prog.Ends.halt orderly_diverge
  | succ rounds ih =>
    rw [lookupFrom]
    cases skipelem path with
    | none =>
      refine Prog.Ends.ite (fun _ => ?_) fun _ => ?_
      · refine Prog.Ends.bind (eput_ends h) fun _ t h₁ => ?_
        exact Prog.Ends.pure (by simpa using h₁)
      · exact Prog.Ends.pure h
    | some next =>
      obtain ⟨name, path⟩ := next
      refine Prog.Ends.bind (elock_ends h) ?_
      rintro _ t₁ ⟨free, same, h₁⟩
      have used : 0 < (t₁.state.ent entry).ref := h₁.pos (by simp)
      have mine : Function.update H entry (some me) entry = some me := Function.update_self ..
      refine Prog.Ends.read_bind (Prog.Ends.ite (fun _ => ?_) fun _ =>
        Prog.Ends.ite (fun _ => ?_) fun _ => ?_)
      · refine Prog.Ends.bind (eunlock_ends h₁ mine used) ?_
        rintro _ t₂ ⟨-, h₂⟩
        rw [update_back free] at h₂
        refine Prog.Ends.bind (eput_ends h₂) fun _ t h₃ => ?_
        exact Prog.Ends.pure (by simpa using h₃)
      · refine Prog.Ends.bind (eunlock_ends h₁ mine used) ?_
        rintro _ t₂ ⟨-, h₂⟩
        rw [update_back free] at h₂
        exact Prog.Ends.pure h₂
      · refine Prog.Ends.bind (dirlookup_ends h₁ (by simp)) ?_
        rintro r t₂ ⟨h₂, -⟩
        have used₂ : 0 < (t₂.state.ent entry).ref := h₂.pos (by simp)
        cases found : r.1 with
        | none =>
          rw [found, refTo_none, add_zero] at h₂
          refine Prog.Ends.bind (eunlock_ends h₂ mine used₂) ?_
          rintro _ t₃ ⟨-, h₃⟩
          rw [update_back free] at h₃
          refine Prog.Ends.bind (eput_ends h₃) fun _ t h₄ => ?_
          exact Prog.Ends.pure (by simpa using h₄)
        | some next =>
          rw [found, refTo_some, add_right_comm] at h₂
          refine Prog.Ends.bind (eunlock_ends h₂ mine used₂) ?_
          rintro _ t₃ ⟨-, h₃⟩
          rw [update_back free] at h₃
          exact Prog.Ends.bind (eput_ends h₃) fun _ t h₄ => ih h₄

theorem new_lookup_path_ends {env cwd : Option Nat} {path : Name} {parent : Bool}
    (h : Owes s T H n none) (fromEnv : path.head? ≠ some 47 → ∀ e, env = some e → 0 < (s.state.ent e).ref)
    (fromCwd : ∀ e, cwd = some e → 0 < (s.state.ent e).ref) :
    Prog.Ends me Orderly (new_lookup_path disk limit env cwd path parent) s fun r t =>
      Owes t (T + refTo r.1) H n none := by
  refine Prog.Ends.ite (fun _ => ?_) fun relative => ?_
  · refine Prog.Ends.bind (edup_ends h (.inr rfl)) ?_
    rintro _ t ⟨rfl, -, h₁⟩
    exact lookupFrom_ends h₁
  · cases env with
    | some env =>
      refine Prog.Ends.bind (edup_ends h (.inl (fromEnv relative env rfl))) ?_
      rintro _ t ⟨rfl, -, h₁⟩
      exact lookupFrom_ends h₁
    | none =>
      refine Prog.Ends.ite (fun _ => Prog.Ends.pure (by simpa using h)) fun _ => ?_
      cases cwd with
      | none => exact Prog.Ends.panic (by simp)
      | some cwd =>
        refine Prog.Ends.bind (edup_ends h (.inl (fromCwd cwd rfl))) ?_
        rintro _ t ⟨rfl, -, h₁⟩
        exact lookupFrom_ends h₁

theorem new_ename_ends {env cwd : Option Nat} {path : Name} (h : Owes s T H n none)
    (fromEnv : path.head? ≠ some 47 → ∀ e, env = some e → 0 < (s.state.ent e).ref)
    (fromCwd : ∀ e, cwd = some e → 0 < (s.state.ent e).ref) :
    Prog.Ends me Orderly (new_ename disk limit env cwd path) s fun r t =>
      Owes t (T + refTo r) H n none :=
  Prog.Ends.bind (new_lookup_path_ends h fromEnv fromCwd) fun _ _ h₁ => Prog.Ends.pure h₁

/-! ### Making entries -/

theorem plain_of_head {name : Name} (h : name.head? ≠ some 46) : Plain name := by
  have start : ∀ rest, sameName name (46 :: rest) = false := by
    intro rest
    refine beq_false_of_ne fun same => h ?_
    have := congrArg List.head? same
    simpa [List.head?_take, Fat.FAT32_MAX_FILENAME] using this
  exact ⟨start [], start [46]⟩

theorem plain_of_formatname {name name' : Name} (h : formatname name = some name') :
    Plain name' :=
  plain_of_head (Fat.formatname_front h)

/-- What is done to an entry whose slot in the directory is being written. -/
theorem fillEntry_ends {attr off : Nat} (h : Owes s T H n (some ep)) (notRoot : ep ≠ root)
    (ne : dp ≠ ep) (invalid : (s.state.ent ep).valid = 0) (used : 0 < (s.state.ent ep).ref)
    (usedParent : 0 < (s.state.ent dp).ref) :
    Prog.Ends me Orderly (fillEntry disk dp ep name attr off) s fun _ t => Owes t T H n none := by
  refine Prog.Ends.bind (Prog.Ends.modify (Q := fun _ t => t = edit s ep _) rfl) ?_
  rintro _ t₁ rfl
  have h₁ := h.edit_fields (h.inside ep used) (g := fun d => { d with
    attr := attr, file_size := 0, first_clus := 0 }) rfl rfl rfl
  refine Prog.Ends.bind (edup_ends h₁ (.inl (by rwa [edit_of_ne ne]))) ?_
  rintro _ t₂ ⟨rfl, rfl, h₂⟩
  have ne' := Ne.symm ne
  refine Prog.Ends.bind (Prog.Ends.modify (Q := fun _ t => t = edit _ ep _) rfl) ?_
  rintro _ t₃ rfl
  have h₃ := h₂.edit_fresh (g := fun d => { d with
      parent := some dp, off := off, dirty := false, filename := name.take Fat.FAT32_MAX_FILENAME })
    notRoot (by rwa [edit_of_ne ne', edit_self]) rfl (by rwa [edit_of_ne ne', edit_self])
    (by rwa [edit_of_ne ne', edit_self])
  generalize filled : Fs.edit _ ep _ = t₃ at h₃ ⊢
  have parent₃ : (t₃.state.ent ep).parent = some dp := by
    rw [← filled, edit_self]
  have invalid₃ : (t₃.state.ent ep).valid = 0 := by
    rw [← filled, edit_self, edit_of_ne ne', edit_self]
    exact invalid
  have used₃ : 0 < (t₃.state.ent ep).ref := by
    rw [← filled, edit_self, edit_of_ne ne', edit_self]
    exact used
  refine Prog.Ends.bind onDisk_kept ?_
  rintro _ t₄ ⟨kept₄, holder₄, stray₄⟩
  refine Prog.Ends.bind (R := fun _ t => Kept t₄ t ∧ t.holder = t₄.holder ∧ t.stray = t₄.stray) ?_ ?_
  · refine Prog.Ends.ite (fun _ => ?_) fun _ => setEntry_kept rfl rfl Iff.rfl
    refine kept_bind onDisk_kept fun _ _ _ => kept_bind (setEntry_kept rfl rfl Iff.rfl) fun _ _ _ => ?_
    refine kept_bind onDisk_kept fun _ _ _ => ?_
    exact kept_bind onDisk_kept fun _ _ _ => onDisk_kept
  rintro _ t₅ ⟨kept₅, holder₅, stray₅⟩
  refine Prog.Ends.bind onDisk_kept ?_
  rintro _ t₆ ⟨kept₆, holder₆, stray₆⟩
  have kept := kept₄.trans (kept₅.trans kept₆)
  have h₆ := kept.owes h₃ (holder₆.trans (holder₅.trans holder₄)) (stray₆.trans (stray₅.trans stray₄))
  refine Prog.Ends.modify (h₆.attach notRoot ?_ ?_ ?_)
  · rwa [kept.ref]
  · rwa [kept.valid]
  · rwa [kept.parent]

theorem ealloc_ends {attr : Nat} (h : Owes s T H n none) (held : 0 < T dp) :
    Prog.Ends me Orderly (ealloc disk limit dp name attr) s fun r t =>
      Owes t (T + refTo r) H n none := by
  refine Prog.Ends.read_bind (Prog.Ends.ite (fun _ => Prog.Ends.panic (by simp)) fun _ => ?_)
  refine Prog.Ends.ite (fun _ => Prog.Ends.pure (by simpa using h)) fun valid => ?_
  cases legal : formatname name with
  | none => exact Prog.Ends.pure (by simpa using h)
  | some name =>
    refine Prog.Ends.bind (dirlookup_ends h held) ?_
    rintro ⟨found, off⟩ t₁ ⟨h₁, missing⟩
    cases found with
    | some ep => exact Prog.Ends.pure h₁
    | none =>
      rw [refTo_none, add_zero] at h₁
      have missing := missing rfl (not_not.mp valid) (plain_of_formatname legal)
      have used : 0 < (t₁.state.ent dp).ref := h₁.pos held
      refine Prog.Ends.bind (eget_ends h₁ used) ?_
      rintro ep t₂ (⟨found, -⟩ | ⟨-, notRoot, free, rfl, h₂⟩)
      · rw [missing.find] at found
        cases found
      have ne : dp ≠ ep := by
        rintro rfl
        rw [free] at used
        exact absurd used (by decide)
      refine Prog.Ends.bind (elock_ends h₂) ?_
      rintro _ t₃ ⟨unlocked, same, h₃⟩
      refine Prog.Ends.bind (fillEntry_ends h₃ notRoot ne ?_ ?_ ?_) ?_
      · rw [same, edit_self]
        rfl
      · rw [same, edit_self]
        simp [recycled]
      · rwa [same, edit_of_ne ne]
      rintro _ t₄ h₄
      refine Prog.Ends.bind (eunlock_ends h₄ (Function.update_self ..) (h₄.pos (by simp))) ?_
      rintro _ t₅ ⟨-, h₅⟩
      rw [update_back unlocked] at h₅
      exact Prog.Ends.pure h₅

theorem setZero_kept : Prog.Ends me Orderly (setZero e) s fun _ t =>
    Kept s t ∧ t.holder = s.holder ∧ t.stray = s.stray :=
  setEntry_kept rfl rfl Iff.rfl

end AvxKernel.Fs
