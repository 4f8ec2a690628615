import AvxKernel.Fs.Getcwd

/-! The way back down the path that `sys_getcwd` builds. A look-up arrives at the
working directory if each entry on the way is what its name in its directory leads to
in the cache, and not otherwise. -/
namespace AvxKernel.Fs

open Dirs.Buffers (FAT32_MAX_PATH)
open Fd (cstr)

variable {δ : Type} {s t : Shared (Ecache δ)} {T : Nat → Nat} {n : Nat} {H : Nat → Option Nat}
  {c dp e me limit p y : Nat} {disk : Disk δ} {name path : Name}

/-! ### States that differ in their counts -/

/-- The entries are the same but for their counts, in the same order. -/
structure Alike (s t : Shared (Ecache δ)) : Prop where
  order : t.state.order = s.state.order
  ent : ∀ c, t.state.ent c = { s.state.ent c with ref := (t.state.ent c).ref }

theorem Alike.of_ent (order : t.state.order = s.state.order) (ent : t.state.ent = s.state.ent) :
    Alike s t where
  order := order
  ent c := by rw [ent]

theorem Alike.trans {u : Shared (Ecache δ)} (h : Alike s t) (h' : Alike t u) : Alike s u where
  order := h'.order.trans h.order
  ent c := by
    rw [h'.ent c, h.ent c]

theorem Alike.edit_ref (f : Dirent → Int) : Alike s (edit s e fun d => { d with ref := f d }) where
  order := rfl
  ent c := by
    rcases eq_or_ne c e with rfl | ne
    · rw [edit_self]
    · rw [edit_of_ne ne]

theorem Alike.parent (h : Alike s t) (c : Nat) : (t.state.ent c).parent = (s.state.ent c).parent := by
  rw [h.ent c]

theorem Alike.filename (h : Alike s t) (c : Nat) :
    (t.state.ent c).filename = (s.state.ent c).filename := by
  rw [h.ent c]

theorem Alike.hit (h : Alike s t) (c dp : Nat) (name : Name) :
    (t.state.ent c).hit dp name = (s.state.ent c).hit dp name := by
  rw [h.ent c]
  rfl

/-! ### What a name leads to -/

theorem LeadsTo.self {s : Ecache δ} (h : LeadsTo s dp name c) :
    (s.ent c).valid = 1 ∧ (s.ent c).parent = some dp ∧ sameName (s.ent c).filename name = true := by
  have self := List.find?_some h.hit
  exact (hit_iff _).mp self

theorem Alike.leadsTo (h : Alike s t) : LeadsTo t.state dp name c ↔ LeadsTo s.state dp name c := by
  have dir : (t.state.ent dp).isDir = (s.state.ent dp).isDir := by
    rw [h.ent dp]
    rfl
  have valid : (t.state.ent dp).valid = (s.state.ent dp).valid := by rw [h.ent dp]
  have hits : (fun d => (t.state.ent d).hit dp name) = fun d => (s.state.ent d).hit dp name := by
    funext d
    exact h.hit d dp name
  constructor
  · intro found
    exact ⟨dir ▸ found.dir, valid ▸ found.valid, by rw [← hits, ← h.order]; exact found.hit⟩
  · intro found
    exact ⟨dir ▸ found.dir, valid ▸ found.valid, by rw [hits, h.order]; exact found.hit⟩

/-- Another entry that goes by the same name in the same directory. -/
def Namesake (s : Ecache δ) (d c : Nat) : Prop :=
  (s.ent d).valid = 1 ∧ (s.ent d).parent = (s.ent c).parent ∧
    sameName (s.ent d).filename (s.ent c).filename = true

/-- Neither the entry nor its directory has been removed, and no namesake stands before
it in the cache. -/
structure Shown (s : Ecache δ) (c : Nat) : Prop where
  above : ∀ p, (s.ent c).parent = some p → (s.ent p).isDir = true ∧ (s.ent p).valid = 1
  there : (s.ent c).valid = 1
  first : ∃ front back, s.order = front ++ c :: back ∧ ∀ d ∈ front, ¬Namesake s d c

theorem leadsTo_iff_shown {s : Ecache δ} (parent : (s.ent c).parent = some p) :
    LeadsTo s p (s.ent c).filename c ↔ Shown s c := by
  have namesake : ∀ d, (s.ent d).hit p (s.ent c).filename = true ↔ Namesake s d c := by
    intro d
    rw [hit_iff, Namesake, parent]
  have own : sameName (s.ent c).filename (s.ent c).filename = true := beq_self_eq_true _
  constructor
  · rintro ⟨dir, valid, hit⟩
    obtain ⟨self, front, back, split, before⟩ := List.find?_eq_some_iff_append.mp hit
    refine ⟨?_, ((hit_iff _).mp self).1, front, back, split, fun d member same => ?_⟩
    · rintro p' parent'
      rw [parent, Option.some.injEq] at parent'
      exact parent' ▸ ⟨dir, valid⟩
    · have passed := before d member
      rw [(namesake d).mpr same] at passed
      cases passed
  · intro shown
    obtain ⟨front, back, split, before⟩ := shown.first
    obtain ⟨dir, valid⟩ := shown.above p parent
    refine ⟨dir, valid, List.find?_eq_some_iff_append.mpr ⟨?_, front, back, split, fun d member => ?_⟩⟩
    · exact (hit_iff _).mpr ⟨shown.there, parent, own⟩
    · rw [Bool.not_eq_true', Bool.eq_false_iff]
      exact fun same => before d member ((namesake d).mp same)

/-! ### A step of a look-up that the cache knows -/

theorem eget_hit (hit : s.state.order.find? (fun d => (s.state.ent d).hit dp name) = some c)
    (used : (s.state.ent c).ref ≠ 0) : Surely me (eget dp name) s fun r t =>
      r = c ∧ t = edit s c fun d => { d with ref := d.ref + 1 } := by
  refine Prog.Ends.onState (Machine.Ends.get_bind ?_)
  rw [hit]
  refine Machine.Ends.of_ok rfl ⟨rfl, ?_⟩
  rw [if_neg used]
  rfl

theorem dirlookup_hit (found : LeadsTo s.state dp name c) (plain : Plain name)
    (used : (s.state.ent c).ref ≠ 0) : Surely me (dirlookup disk limit dp name) s fun r t =>
      r = (some c, none) ∧ t = edit s c fun d => { d with ref := d.ref + 1 } := by
  refine Prog.Ends.read_bind ?_
  rw [found.dir, if_neg (by decide), plain.1, if_neg (by decide), plain.2, if_neg (by decide)]
  refine Prog.Ends.read_bind ?_
  rw [if_neg (not_not.mpr found.valid)]
  refine Prog.Ends.bind (eget_hit found.hit used) ?_
  rintro _ _ ⟨rfl, rfl⟩
  refine Prog.Ends.read_bind ?_
  rw [edit_self, if_pos found.self.1]
  exact Prog.Ends.pure ⟨rfl, rfl⟩

/-- The directory stays in use, for the entry that is found in it. -/
theorem Owes.child_in_use (h : Owes s (T + one y) H n none)
    (parent : (s.state.ent c).parent = some y) (used : 0 < (s.state.ent c).ref) : 1 < (s.state.ent y).ref := by
  have valid : (s.state.ent c).valid ≠ 0 := fun zero => by cases h.settled c used zero
  have points : (s.state.ent c).link = some y := by rw [Dirent.link, if_pos ⟨used, valid⟩, parent]
  have child : 0 < s.state.children y := refs_pos (h.inside c used) points
  rw [h.count y, Pi.add_apply, one_self]
  omega

theorem Surely.goes {α : Type} {x : Cache δ α} {Q : α → Shared (Ecache δ) → Prop}
    (h : Surely me x s Q) :
    ∃ a t, Q a t ∧ ∀ {β : Type} (f : α → Cache δ β), Prog.run me (x >>= f) s = Prog.run me (f a) t := by
  obtain ⟨a, t, run, post⟩ := h.returns
  exact ⟨a, t, post, fun f => by rw [Prog.run_bind, Machine.bind_of_ok run]⟩

theorem Surely.and {α : Type} {x : Cache δ α} {Q R : α → Shared (Ecache δ) → Prop}
    {may : Halt → Prop} (h : Surely me x s Q) (h' : Prog.Ends me may x s R) :
    Surely me x s fun a t => Q a t ∧ R a t := by
  obtain ⟨a, t, run, post⟩ := h.returns
  exact Machine.Ends.of_ok run ⟨post, Machine.Ends.ok h' run⟩

/-- A round of the look-up, from a directory to an entry in use that the cache has. -/
theorem lookupFrom_hit (disk : Disk δ) (me limit rounds : Nat) (before : Name) {rest : Name}
    (h : Owes s (T + one y) noLocks n none) (split : skipelem path = some (name, rest))
    (plain : Plain name) (found : LeadsTo s.state y name c) (used : 0 < (s.state.ent c).ref) :
    ∃ t, Prog.run me (lookupFrom disk (limit + 1) false (rounds + 1) y path before) s =
        Prog.run me (lookupFrom disk (limit + 1) false rounds c rest name) t ∧
      Alike s t ∧ Owes t (T + one c) noLocks n none := by
  have held : ∀ {T : Nat → Nat}, 0 < (T + one y) y := fun {T} => by simp
  have mine : Function.update noLocks y (some me) y = some me := Function.update_self ..
  obtain ⟨_, s₁, ⟨state₁, -, -, h₁⟩, locks⟩ := ((elock_surely (h.pos held)
    (by rw [h.holder]; rfl) : Surely me (elock y) s _).and (elock_ends h)).goes
  have alike₁ : Alike s s₁ := Alike.of_ent (by rw [state₁]) (by rw [state₁])
  have used₁ : (s₁.state.ent c).ref ≠ 0 := by
    rw [state₁]
    exact ne_of_gt used
  obtain ⟨_, s₂, ⟨⟨rfl, state₂⟩, h₂, -⟩, looks⟩ := ((dirlookup_hit
    (alike₁.leadsTo.mpr found) plain used₁ : Surely me (dirlookup disk (limit + 1) y name) s₁ _).and
    (dirlookup_ends h₁ held)).goes
  rw [refTo_some, add_right_comm] at h₂
  have alike₂ : Alike s₁ s₂ := state₂ ▸ Alike.edit_ref _
  obtain ⟨_, s₃, ⟨state₃, -, h₃⟩, unlocks⟩ := ((eunlock_surely (h₂.pos held)
    (by rw [h₂.holder, mine]) : Surely me (eunlock y) s₂ _).and (eunlock_ends h₂ mine (h₂.pos held))).goes
  have alike₃ : Alike s₂ s₃ := Alike.of_ent (by rw [state₃]) (by rw [state₃])
  rw [update_back rfl] at h₃
  have alike := (alike₁.trans alike₂).trans alike₃
  have stays := h₃.child_in_use ((alike.parent c).trans found.self.2.1) (h₃.pos (by simp))
  obtain ⟨_, s₄, ⟨state₄, h₄⟩, puts⟩ := ((eput_counts (.inr (ne_of_gt stays)) :
    Surely me (eput disk (limit + 1) y) s₃ _).and (eput_ends h₃)).goes
  refine ⟨s₄, ?_, alike.trans (state₄ ▸ Alike.edit_ref _), h₄⟩
  have read : Prog.run me (entry y) s₁ = .ok (s₁.state.ent y, s₁) := rfl
  rw [lookupFrom, split]
  dsimp only
  rw [locks, Prog.run_bind, Machine.bind_of_ok read, (alike₁.leadsTo.mpr found).dir, if_neg (by decide),
    if_neg (by simp), looks, unlocks, puts]

/-! ### The way down -/

/-- The entries on the way down to an entry, each in the one before it. -/
def Down (ent : Nat → Dirent) : Nat → List Nat → Nat → Prop
  | y, [], e => y = e
  | y, c :: cs, e => (ent c).parent = some y ∧ Down ent c cs e

/-- The directory some levels above. -/
def ancestor (ent : Nat → Dirent) : Nat → Nat → Option Nat
  | 0, e => some e
  | k + 1, e => (ancestor ent k e).bind fun c => (ent c).parent

variable {ent : Nat → Dirent} {cs chain : List Nat} {k : Nat}

theorem Down.snoc (down : Down ent y cs p) (parent : (ent e).parent = some p) :
    Down ent y (cs ++ [e]) e := by
  induction cs generalizing y with
  | nil =>
    cases down
    exact ⟨parent, rfl⟩
  | cons c cs ih => exact ⟨down.1, ih down.2⟩

theorem Climb.down (up : Climb ent e chain) : ∃ r, (ent r).parent = none ∧ Down ent r chain.reverse e := by
  induction up with
  | top top => exact ⟨_, top, rfl⟩
  | @up e p chain parent above ih =>
    obtain ⟨r, top, down⟩ := ih
    rw [List.reverse_cons]
    exact ⟨r, top, down.snoc parent⟩

theorem Down.ancestor (down : Down ent y cs e) : Fs.ancestor ent cs.length e = some y := by
  induction cs generalizing y with
  | nil =>
    cases down
    rfl
  | cons c cs ih =>
    rw [List.length_cons, Fs.ancestor, ih down.2, Option.bind_some]
    exact down.1

theorem Down.alike (h : Alike s t) : Down t.state.ent y cs e ↔ Down s.state.ent y cs e := by
  induction cs generalizing y with
  | nil => exact Iff.rfl
  | cons c cs ih => rw [Down, Down, h.parent, ih]

/-- Everything above an entry in use is in use, and stays where it is while it is. -/
theorem ancestor_kept (h : Owes s T H n none) (used : 0 < (s.state.ent e).ref)
    (parents : ∀ d, 0 < (s.state.ent d).ref → (t.state.ent d).parent = (s.state.ent d).parent) :
    ancestor t.state.ent k e = ancestor s.state.ent k e ∧
      ∀ y, ancestor s.state.ent k e = some y → 0 < (s.state.ent y).ref := by
  induction k with
  | zero =>
    refine ⟨rfl, fun y same => ?_⟩
    cases same
    exact used
  | succ k ih =>
    obtain ⟨same, inUse⟩ := ih
    rw [ancestor, ancestor, same]
    cases found : ancestor s.state.ent k e with
    | none => exact ⟨rfl, fun y eq => by cases eq⟩
    | some c =>
      have usedHere := inUse c found
      refine ⟨parents c usedHere, fun y parent => ?_⟩
      have valid : (s.state.ent c).valid ≠ 0 := fun zero => by cases h.settled c usedHere zero
      exact h.parent_pos usedHere valid parent

theorem Down.used (h : Owes s T H n none) (used : 0 < (s.state.ent e).ref)
    (down : Down s.state.ent y cs e) : 0 < (s.state.ent y).ref :=
  (ancestor_kept h used fun _ _ => rfl).2 y down.ancestor

/-- What the first name leads to, on a way that arrives at an entry. -/
def Arrives (s : Ecache δ) (y : Nat) : List Name → Nat → Prop
  | [], e => y = e
  | name :: names, e => ∃ c, ancestor s.ent names.length e = some c ∧ LeadsTo s y name c

theorem Arrives.ancestor {s : Ecache δ} {names : List Name} (h : Arrives s y names e) :
    Fs.ancestor s.ent names.length e = some y := by
  cases names with
  | nil =>
    cases h
    rfl
  | cons name names =>
    obtain ⟨c, above, leads⟩ := h
    rw [List.length_cons, Fs.ancestor, above, Option.bind_some]
    exact leads.self.2.1

/-- A look-up that returns an entry that is held has gone down to it. -/
theorem lookupFrom_arrives {rounds : Nat} {before : Name} (h : Owes s (T + one y) noLocks n none)
    (held : 0 < T e) (plain : ∀ name ∈ Dirs.elems path, Plain name) :
    Prog.Ends me Orderly (lookupFrom disk limit false rounds y path before) s fun r _ =>
      r.1 = some e → Arrives s.state y (Dirs.elems path) e := by
  induction rounds generalizing s T y path before with
  | zero => exact Prog.Ends.halt orderly_diverge
  | succ rounds ih =>
    rw [lookupFrom]
    cases names : Dirs.elems path with
    | nil =>
      rw [Dirs.skipelem_none (Dirs.elems_eq_nil.mp names)]
      refine Prog.Ends.pure fun same => ?_
      exact Option.some.inj same
    | cons name others =>
      obtain ⟨rest, split, more, -, -⟩ := Dirs.skipelem_cons names
      rw [split]
      rw [names] at plain
      dsimp only
      have mine : Function.update noLocks y (some me) y = some me := Function.update_self ..
      refine Prog.Ends.bind (elock_ends h) ?_
      rintro _ t₁ ⟨-, same₁, h₁⟩
      have held₁ : 0 < (T + one y) y := by simp
      refine Prog.Ends.read_bind (Prog.Ends.ite (fun _ => ?_) fun _ => ?_)
      · refine Prog.Ends.bind (eunlock_ends h₁ mine (h₁.pos held₁)) ?_
        rintro _ t₂ ⟨-, h₂⟩
        rw [update_back rfl] at h₂
        refine Prog.Ends.bind (eput_ends h₂) fun _ t h₃ => ?_
        exact Prog.Ends.pure fun eq => by cases eq
      rw [if_neg (by simp)]
      refine Prog.Ends.bind (dirlookup_keeps h₁ held₁) ?_
      rintro r t₂ ⟨⟨h₂, -⟩, parents₂, leads⟩
      cases found : r.1 with
      | none =>
        rw [found, refTo_none, add_zero] at h₂
        refine Prog.Ends.bind (eunlock_ends h₂ mine (h₂.pos held₁)) ?_
        rintro _ t₃ ⟨-, h₃⟩
        rw [update_back rfl] at h₃
        refine Prog.Ends.bind (eput_ends h₃) fun _ t h₄ => ?_
        exact Prog.Ends.pure fun eq => by cases eq
      | some c =>
        rw [found, refTo_some, add_right_comm] at h₂
        refine Prog.Ends.bind (eunlock_ends h₂ mine (h₂.pos (by simp))) ?_
        rintro _ t₃ ⟨same₃, h₃⟩
        rw [update_back rfl] at h₃
        refine Prog.Ends.bind (eput_keeps h₃) ?_
        rintro _ t₄ ⟨h₄, parents₄⟩
        refine (ih h₄ held (fun name member => plain name ?_)).mono ?_
        · rw [more] at member
          exact List.mem_cons_of_mem _ member
        intro r' _ after arrives
        have inUse : 0 < (s.state.ent e).ref := h.pos (by simp; omega)
        have parents : ∀ d, 0 < (s.state.ent d).ref → (t₄.state.ent d).parent = (s.state.ent d).parent := by
          intro d used
          rw [parents₄, same₃, parents₂ d (by rwa [same₁]), same₁]
        obtain ⟨same, used⟩ := ancestor_kept (k := others.length) h inUse parents
        have above := (after arrives).ancestor
        rw [more, same] at above
        have usedHere : 0 < (t₁.state.ent c).ref := by
          rw [same₁]
          exact used c above
        exact ⟨c, above, same₁ ▸ leads c found usedHere (plain name List.mem_cons_self)⟩

theorem Alike.shown (h : Alike s t) (parent : (s.state.ent c).parent = some p) :
    Shown t.state c ↔ Shown s.state c := by
  have parent' : (t.state.ent c).parent = some p := (h.parent c).trans parent
  rw [← leadsTo_iff_shown parent', ← leadsTo_iff_shown parent, h.filename, h.leadsTo]

theorem Down.shown (h : Alike s t) (down : Down s.state.ent y cs e) :
    (∀ d ∈ cs, Shown t.state d) ↔ ∀ d ∈ cs, Shown s.state d := by
  induction cs generalizing y with
  | nil => exact iff_of_true (List.forall_mem_nil _) (List.forall_mem_nil _)
  | cons c cs ih => rw [List.forall_mem_cons, List.forall_mem_cons, h.shown down.1, ih down.2]

/-- A look-up of the names on the way down to an entry that is held arrives there just
if each of them is shown. -/
theorem lookupFrom_iff {rounds : Nat} {before : Name} (h : Owes s (T + one y) noLocks n none)
    (held : 0 < T e) (down : Down s.state.ent y cs e)
    (names : Dirs.elems path = cs.map fun c => (s.state.ent c).filename)
    (plain : ∀ c ∈ cs, Plain (s.state.ent c).filename) (enough : path.length < rounds) :
    (∃ last t, Prog.run me (lookupFrom disk (limit + 1) false rounds y path before) s =
      .ok ((some e, last), t)) ↔ ∀ c ∈ cs, Shown s.state c := by
  induction cs generalizing s T y path before rounds with
  | nil =>
    obtain ⟨rounds, rfl⟩ := Nat.exists_eq_add_of_lt enough
    cases down
    refine iff_of_true ⟨before, s, ?_⟩ (List.forall_mem_nil _)
    rw [lookupFrom, Dirs.skipelem_none (Dirs.elems_eq_nil.mp names)]
    rfl
  | cons c cs ih =>
    obtain ⟨rounds, rfl⟩ := Nat.exists_eq_add_of_lt enough
    obtain ⟨rest, split, more, -, shorter⟩ := Dirs.skipelem_cons names
    have plainHere := plain c List.mem_cons_self
    have inUse : 0 < (s.state.ent e).ref := h.pos (by simp; omega)
    have used := down.2.used h inUse
    have here := leadsTo_iff_shown down.1
    by_cases leads : LeadsTo s.state y (s.state.ent c).filename c
    · obtain ⟨t, goes, alike, h₁⟩ := lookupFrom_hit disk me limit (path.length + rounds) before h
        split plainHere leads used
      rw [goes, ih h₁ held (Down.alike alike |>.mpr down.2) ?_ ?_ (by omega), Down.shown alike down.2,
        List.forall_mem_cons, and_iff_right (here.mp leads)]
      · rw [more]
        exact List.map_congr_left fun d _ => (alike.filename d).symm
      · intro d member
        rw [alike.filename]
        exact plain d (List.mem_cons_of_mem _ member)
    · refine iff_of_false ?_ fun shown => leads (here.mpr (shown c List.mem_cons_self))
      rintro ⟨last, t, run⟩
      have plainNames : ∀ name ∈ Dirs.elems path, Plain name := by
        rw [names]
        exact List.forall_mem_map.mpr plain
      have arrives := (lookupFrom_arrives h held plainNames).ok run rfl
      rw [names, List.map_cons] at arrives
      obtain ⟨c', above, leads'⟩ := arrives
      rw [List.length_map, down.2.ancestor, Option.some.injEq] at above
      exact leads (above ▸ leads')

/-! ### There and back -/

/-- The root is the only entry in use that has no parent. -/
theorem Owes.top_unique (h : Owes s T H n none) (used : 0 < (s.state.ent e).ref)
    (top : (s.state.ent e).parent = none) : e = root := by
  by_contra notRoot
  have valid : (s.state.ent e).valid ≠ 0 := fun zero => by cases h.settled e used zero
  obtain ⟨p, -, parent⟩ := h.linked e notRoot used valid
  rw [top] at parent
  cases parent

/-- An absolute path is looked up from the root. -/
theorem ename_absolute {cwd : Option Nat} (absolute : path.head? = some 47) :
    (∃ t, Prog.run me (ename disk limit cwd path) s = .ok (some e, t)) ↔
      ∃ last t, Prog.run me (lookupFrom disk limit false (path.length + 1) root path [])
        (edit s root fun d => { d with ref := d.ref + 1 }) = .ok ((some e, last), t) := by
  have start : Prog.run me (edup root) s = .ok (root, edit s root fun d => { d with ref := d.ref + 1 }) := rfl
  have goes : Prog.run me (new_lookup_path disk limit none cwd path false) s =
      Prog.run me (lookupFrom disk limit false (path.length + 1) root path [])
        (edit s root fun d => { d with ref := d.ref + 1 }) := by
    rw [new_lookup_path.eq_def, if_pos absolute, Prog.run_bind, Machine.bind_of_ok start]
  rw [ename, new_ename, Prog.run_bind]
  constructor
  · rintro ⟨t, run⟩
    obtain ⟨⟨r, last⟩, u, looks, done⟩ := Machine.bind_ok.mp run
    cases done
    exact ⟨last, _, goes ▸ looks⟩
  · rintro ⟨last, t, run⟩
    exact ⟨t, Machine.bind_of_ok (goes.trans run)⟩

/-- The absolute path of an entry that is held leads back to it just if the entry and
all the directories above it are shown. -/
theorem ename_iff (me limit : Nat) (disk : Disk δ) (cwd : Option Nat) (h : Owes s T noLocks n none)
    (held : 0 < T e) (up : Climb s.state.ent e chain)
    (valid : ∀ c ∈ chain, Component (s.state.ent c).filename) :
    (∃ t, Prog.run me (ename disk (limit + 1) cwd (absolutePath s.state.ent chain)) s = .ok (some e, t)) ↔
      ∀ c ∈ chain, Shown s.state c := by
  have used := h.pos held
  obtain ⟨r, top, down⟩ := up.down
  obtain rfl := h.top_unique (down.used h used) top
  have started : Prog.Ends me Orderly (edup root) s _ := edup_ends h (.inr rfl)
  have h₁ : Owes (edit s root fun d => { d with ref := d.ref + 1 }) (T + one root) noLocks n none :=
    (started.ok rfl).2.2
  have alike : Alike s (edit s root fun d => { d with ref := d.ref + 1 }) := Alike.edit_ref _
  rw [ename_absolute absolutePath_head, lookupFrom_iff h₁ held ((Down.alike alike).mpr down) ?_ ?_
    (Nat.lt_succ_self _), Down.shown alike down]
  · simp only [List.mem_reverse]
  · rw [absolutePath_elems valid]
    exact List.map_congr_left fun c _ => (alike.filename c).symm
  · intro c member
    rw [alike.filename]
    exact (valid c (List.mem_reverse.mp member)).plain

/-! ### The call -/

variable {k : Kernel δ} {addr : Nat} {array : Fat.Buffer}
  {copyout : Nat → Nat → List UInt8 → OnDisk δ Bool}

/-- The user's buffer takes whatever is copied to it. -/
def Writable (copyout : Nat → Nat → List UInt8 → OnDisk δ Bool) (p addr : Nat) : Prop :=
  ∀ bytes disk, ∃ disk', copyout p addr bytes disk = some (true, disk')

/-- What `sys_getcwd` is for, in a directory with an absolute path. -/
structure GetcwdLaw (disk : Disk δ) (k : Kernel δ) (p e : Nat) (absolute : Name) : Prop where
  inside : ∀ copyout array addr, sys_getcwd copyout array p addr k ≠ .error .fault
  refused : ∀ copyout array addr, Writable copyout p addr →
    ∃ r bytes k', sys_getcwd copyout array p addr k = .ok ((r, bytes), k') ∧
      (r = -1 ↔ FAT32_MAX_PATH < absolute.length + 1)
  found : ∀ copyout array addr r bytes k',
    sys_getcwd copyout array p addr k = .ok ((r, bytes), k') → r ≠ -1 →
    ∃ string limit k'', bytes = string ++ [0] ∧
      onCache p (ename disk (limit + 1) (k.proc p).cwd string) k' = .ok (some e, k'')

theorem sys_getcwd_over (cwd : (k.proc p).cwd = some e) (up : Climb k.below.state.ent e chain)
    (noNul : ∀ c ∈ chain, 0 ∉ (k.below.state.ent c).filename)
    (beyond : ¬(absolutePath k.below.state.ent chain).length < FAT32_MAX_PATH) :
    sys_getcwd copyout array p addr k = .ok ((-1, []), k) := by
  have built := onCache_ok (getcwd_run p array up noNul)
  rw [if_neg beyond] at built
  rw [sys_getcwd, Machine.bind_of_ok (Machine.get_run k), cwd]
  exact Machine.bind_of_ok built

theorem sys_getcwd_fits (copyout : Nat → Nat → List UInt8 → OnDisk δ Bool) (array : Fat.Buffer) (addr : Nat)
    (cwd : (k.proc p).cwd = some e) (up : Climb k.below.state.ent e chain)
    (noNul : ∀ c ∈ chain, 0 ∉ (k.below.state.ent c).filename)
    (fits : (absolutePath k.below.state.ent chain).length < FAT32_MAX_PATH) :
    sys_getcwd copyout array p addr k = (do
      if ← onCache p (onDisk fun _ => copyout p addr (absolutePath k.below.state.ent chain ++ [0])) then
        return ((addr : Int), absolutePath k.below.state.ent chain ++ [0])
      else
        return (-1, [])) k := by
  have built := onCache_ok (getcwd_run p array up noNul)
  rw [if_pos fits] at built
  rw [sys_getcwd, Machine.bind_of_ok (Machine.get_run k), cwd]
  exact Machine.bind_of_ok built

/-- The kernel over another volume. -/
def Remounted (k k' : Kernel δ) : Prop :=
  ∃ disk, k' = { k with below := { k.below with state := { k.below.state with disk } } }

theorem onDisk_done {α : Type} {x : OnDisk δ α} {a : α} {d : δ} (run : x k.below.state.disk = some (a, d)) :
    onCache p (onDisk fun _ => x) k =
      .ok (a, { k with below := { k.below with state := { k.below.state with disk := d } } }) := by
  apply onCache_ok
  rw [onDisk, Prog.onState, Prog.run_step]
  apply Machine.zoom_ok.mpr
  exact ⟨_, by rw [run], rfl⟩

theorem onDisk_stuck {α : Type} {x : OnDisk δ α} (run : x k.below.state.disk = none) :
    onCache p (onDisk fun _ => x) k = .error .diverge := by
  rw [onCache, Fd.onBelow, onDisk, Prog.onState, Prog.run_step]
  simp only [Machine.zoom, run]

/-- Without a fault, nothing is copied, or the absolute path and its NUL. -/
theorem sys_getcwd_ends (cwd : (k.proc p).cwd = some e) (up : Climb k.below.state.ent e chain)
    (noNul : ∀ c ∈ chain, 0 ∉ (k.below.state.ent c).filename) :
    Machine.Ends (· = .diverge) (sys_getcwd copyout array p addr) k fun r k' =>
      Remounted k k' ∧ (r = (-1, []) ∨ (absolutePath k.below.state.ent chain).length < FAT32_MAX_PATH ∧
        r = ((addr : Int), absolutePath k.below.state.ent chain ++ [0])) := by
  by_cases fits : (absolutePath k.below.state.ent chain).length < FAT32_MAX_PATH
  · apply Machine.Ends.of_run (sys_getcwd_fits copyout array addr cwd up noNul fits)
    apply Machine.Ends.bind (R := fun _ k' => Remounted k k')
    · cases copied : copyout p addr (absolutePath k.below.state.ent chain ++ [0]) k.below.state.disk with
      | none => exact Machine.Ends.of_error (onDisk_stuck copied) rfl
      | some r => exact Machine.Ends.of_ok (onDisk_done copied) ⟨r.2, rfl⟩
    · intro copied k' mounted
      apply Machine.Ends.ite
      · exact fun _ => Machine.Ends.pure ⟨mounted, .inr ⟨fits, rfl⟩⟩
      · exact fun _ => Machine.Ends.pure ⟨mounted, .inl rfl⟩
  · exact Machine.Ends.of_ok (sys_getcwd_over cwd up noNul fits) ⟨⟨k.below.state.disk, rfl⟩, .inl rfl⟩

/-- Where the user's buffer is writable, the path is refused just if it does not fit. -/
theorem sys_getcwd_writable (cwd : (k.proc p).cwd = some e) (up : Climb k.below.state.ent e chain)
    (noNul : ∀ c ∈ chain, 0 ∉ (k.below.state.ent c).filename) (writable : Writable copyout p addr) :
    ∃ r bytes k', sys_getcwd copyout array p addr k = .ok ((r, bytes), k') ∧
      (r = -1 ↔ FAT32_MAX_PATH < (absolutePath k.below.state.ent chain).length + 1) := by
  by_cases fits : (absolutePath k.below.state.ent chain).length < FAT32_MAX_PATH
  · obtain ⟨d, copied⟩ := writable (absolutePath k.below.state.ent chain ++ [0]) k.below.state.disk
    have run := (sys_getcwd_fits copyout array addr cwd up noNul fits).trans
      (Machine.bind_of_ok (onDisk_done copied))
    refine ⟨_, _, _, run, ?_⟩
    exact iff_of_false (by omega) (by omega)
  · exact ⟨_, _, _, sys_getcwd_over cwd up noNul fits, iff_of_true rfl (by omega)⟩

/-- A string that is given out leads back, so what is on its way is shown. -/
theorem GetcwdLaw.shown (law : GetcwdLaw disk k p e (absolutePath k.below.state.ent chain))
    (h : Ledger k T noLocks n) (cwd : (k.proc p).cwd = some e) (up : Climb k.below.state.ent e chain)
    (valid : ∀ c ∈ chain, Component (k.below.state.ent c).filename)
    (fits : (absolutePath k.below.state.ent chain).length < FAT32_MAX_PATH) :
    ∀ c ∈ chain, Shown k.below.state c := by
  have held : 0 < (files k + cwds k + T) e := Nat.lt_of_lt_of_le (h.cwd_held cwd) (Nat.le_add_right _ _)
  -- a buffer that takes whatever it is given
  have copied : (some (true, k.below.state.disk) : Option (Bool × δ)) = some (true, k.below.state.disk) := rfl
  have run := (sys_getcwd_fits (fun _ _ _ disk => some (true, disk)) (fun _ => 0) 0 cwd up
    (fun c member => (valid c member).noNul) fits).trans (Machine.bind_of_ok (onDisk_done copied))
  obtain ⟨string, limit, k'', bytes, found⟩ := law.found _ _ _ _ _ _ run (by decide)
  obtain rfl := List.append_cancel_right bytes
  unfold onCache Fd.onBelow at found
  obtain ⟨t, looks, -⟩ := Machine.zoom_ok.mp found
  exact (ename_iff p limit disk (k.proc p).cwd h.owes held up valid).mp ⟨t, looks⟩

/-- `sys_getcwd` keeps its law just if its path is too long, or leads back. -/
theorem getcwd_law_iff (h : Ledger k T noLocks n) (cwd : (k.proc p).cwd = some e)
    (up : Climb k.below.state.ent e chain)
    (valid : ∀ c ∈ chain, Component (k.below.state.ent c).filename) :
    GetcwdLaw disk k p e (absolutePath k.below.state.ent chain) ↔
      ((absolutePath k.below.state.ent chain).length < FAT32_MAX_PATH →
        ∀ c ∈ chain, Shown k.below.state c) := by
  have noNul : ∀ c ∈ chain, 0 ∉ (k.below.state.ent c).filename :=
    fun c member => (valid c member).noNul
  have held : 0 < (files k + cwds k + T) e :=
    Nat.lt_of_lt_of_le (h.cwd_held cwd) (Nat.le_add_right _ _)
  constructor
  · exact fun law => law.shown h cwd up valid
  · intro leads
    constructor
    · intro copyout array addr fault
      exact absurd ((sys_getcwd_ends cwd up noNul).error fault) (by decide)
    · exact fun copyout array addr => sys_getcwd_writable cwd up noNul
    · intro copyout array addr r bytes k' run succeeds
      obtain ⟨⟨d, rfl⟩, outcome⟩ := (sys_getcwd_ends cwd up noNul).ok run
      rcases outcome with fails | ⟨fits, done⟩
      · exact absurd (congrArg Prod.fst fails) succeeds
      · have owes := h.owes.same (t := { k.below with state := { k.below.state with disk := d } }) rfl
          h.owes.listed h.owes.holder h.owes.stray
        have shown : ∀ c ∈ chain, Shown { k.below.state with disk := d } c := fun c member =>
          have before := leads fits c member
          ⟨before.above, before.there, before.first⟩
        obtain ⟨t, looks⟩ := (ename_iff p 0 disk (k.proc p).cwd owes held up valid).mpr shown
        exact ⟨_, 0, _, congrArg Prod.snd done, onCache_ok looks⟩

/-! ### Runs -/

/-- Directories by their first cluster, with a name in them and where it leads. -/
def zeroSlots : List (Nat × Name × Nat) :=
  [(2, cstr "a", 3), (2, cstr "zero", 4), (2, cstr "dev", 5), (5, cstr "zerox", 6)]

/-- A volume with the directories "/a", "/zero", "/dev" and "/dev/zerox". -/
def zeroWorld : World Unit :=
  { bareWorld with
    search := fun ent dp _ name _ =>
      match zeroSlots.find? fun slot => slot.1 = (ent dp).first_clus ∧ slot.2.1 = name with
      | some (_, _, clus) => some (⟨name, Fat.ATTR_DIRECTORY, clus, 0, some (32 * clus), none⟩, ())
      | none => some (⟨[], 0, 0, 0, none, some 128⟩, ()) }

/-- The state that a call of the first process leaves, if it returns. -/
def Syscall.after (w : World δ) (c : Syscall) (k : Kernel δ) : Kernel δ :=
  match c.run w 9 0 k with
  | .ok r => r.2
  | .error _ => k

theorem Syscall.completes {w : World δ} {c : Syscall} (live : (k.proc 0).state = .live)
    (done : (c.run w 9 0 k).isOk = true) : Completes w 9 0 c k (c.after w k) := by
  refine ⟨by decide, live, ?_⟩
  unfold Syscall.after
  cases run : c.run w 9 0 k with
  | error h =>
    rw [run] at done
    cases done
  | ok r => rfl

def intoA : Syscall := .chdir (cstr "/a")

/-- The first process in "/a". -/
def inA : Kernel Unit := intoA.after zeroWorld (boot () 2)

def openZero : Syscall := .openat AT_FDCWD (cstr "/zero") 0

def zeroOpen : Kernel Unit := openZero.after zeroWorld inA

/-- Opens "/a" by a path that begins with "/dev/zero". -/
def openRound : Syscall := .openat AT_FDCWD (cstr "/dev/zerox/../../a") 0

/-- "/a" goes by the name "zero" in the cache, where "/zero" stands before it. -/
def renamed : Kernel Unit := openRound.after zeroWorld zeroOpen

/-- Where a lookup in the root finds the name that `c` goes by. -/
def front (s : Ecache δ) (c : Nat) : Option Nat :=
  s.order.find? fun d => (s.ent d).hit root (s.ent c).filename

theorem calls_end : (intoA.run zeroWorld 9 0 (boot () 2)).isOk = true ∧
    (openZero.run zeroWorld 9 0 inA).isOk = true ∧ (openRound.run zeroWorld 9 0 zeroOpen).isOk = true ∧
    (inA.proc 0).state = .live ∧ (zeroOpen.proc 0).state = .live ∧
    (inA.below.state.ent 1).parent = some root ∧ front inA.below.state 1 = some 1 ∧
    (renamed.below.state.ent 1).parent = some root ∧ front renamed.below.state 1 = some 2 ∧
    (inA.below.state.ent root).isDir = true ∧ (inA.below.state.ent root).valid = 1 := by
  decide +kernel

theorem inA_completes : Completes zeroWorld 9 0 intoA (boot () 2) inA :=
  Syscall.completes rfl calls_end.1

theorem inA_shown : Shown inA.below.state 1 := by
  obtain ⟨-, -, -, -, -, up, hit, -, -, dir, valid⟩ := calls_end
  exact (leadsTo_iff_shown up).mp ⟨dir, valid, hit⟩

theorem getcwd_in_a : (inA.proc 0).cwd = some 1 ∧
    GetcwdLaw zeroWorld.toDisk inA 0 1 (absolutePath inA.below.state.ent [1]) := by
  have cwd : (inA.proc 0).cwd = some 1 := by decide +kernel
  have name : (inA.below.state.ent 1).filename = [97] := by decide +kernel
  have up : Climb inA.below.state.ent 1 [1] :=
    .up (p := root) (by decide +kernel) (.top (by decide +kernel))
  refine ⟨cwd, (getcwd_law_iff (inA_completes.ledger (boot_ledger () 2) trivial) cwd up ?_).mpr fun _ => ?_⟩
  · rw [List.forall_mem_singleton, name]
    constructor <;> decide
  · rw [List.forall_mem_singleton]
    exact inA_shown

theorem zeroOpen_completes : Completes zeroWorld 9 0 openZero inA zeroOpen :=
  Syscall.completes calls_end.2.2.2.1 calls_end.2.1

theorem renamed_completes : Completes zeroWorld 9 0 openRound zeroOpen renamed :=
  Syscall.completes calls_end.2.2.2.2.1 calls_end.2.2.1

theorem renamed_run : Relation.ReflTransGen (Sparing zeroWorld) (boot () 2) renamed :=
  ((Relation.ReflTransGen.single ⟨9, 0, _, inA_completes, trivial⟩).tail
    ⟨9, 0, _, zeroOpen_completes, trivial⟩).tail ⟨9, 0, _, renamed_completes, trivial⟩

theorem renamed_ledger : Ledger renamed 0 noLocks 0 :=
  renamed_completes.ledger (zeroOpen_completes.ledger (inA_completes.ledger (boot_ledger () 2) trivial)
    trivial) trivial

theorem renamed_not_shown : ¬Shown renamed.below.state 1 := by
  intro shown
  obtain ⟨-, -, -, -, -, -, -, up, other, -⟩ := calls_end
  have hit : front renamed.below.state 1 = some 1 := ((leadsTo_iff_shown up).mpr shown).hit
  rw [other] at hit
  cases hit

/-- The process is in "/a", gets the path "/zero", and comes to another directory. -/
theorem getcwd_elsewhere : ¬∀ k : Kernel Unit, Relation.ReflTransGen (Sparing zeroWorld) (boot () 2) k →
    ∀ e chain, (k.proc 0).cwd = some e → Climb k.below.state.ent e chain →
      (∀ c ∈ chain, Component (k.below.state.ent c).filename ∧ (k.below.state.ent c).valid = 1) →
      (k.below.state.ent root).valid = 1 →
      GetcwdLaw zeroWorld.toDisk k 0 e (absolutePath k.below.state.ent chain) := by
  intro law
  have cwd : (renamed.proc 0).cwd = some 1 := by decide +kernel
  have name : (renamed.below.state.ent 1).filename = [122, 101, 114, 111] := by decide +kernel
  have up : Climb renamed.below.state.ent 1 [1] :=
    .up (p := root) (by decide +kernel) (.top (by decide +kernel))
  have valid : Component (renamed.below.state.ent 1).filename := by
    rw [name]
    constructor <;> decide
  have fits : (absolutePath renamed.below.state.ent [1]).length < FAT32_MAX_PATH := by decide +kernel
  have kept := law renamed renamed_run 1 [1] cwd up
    (List.forall_mem_singleton.mpr ⟨valid, by decide +kernel⟩) (by decide +kernel)
  exact renamed_not_shown (kept.shown renamed_ledger cwd up (List.forall_mem_singleton.mpr valid)
    fits 1 List.mem_cons_self)

end AvxKernel.Fs
