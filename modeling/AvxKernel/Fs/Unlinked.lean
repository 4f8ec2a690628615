import AvxKernel.Fat.Contents
import AvxKernel.Fs.Beside

/-! A file that is removed while it is still open. Its entry stays in the cache, where it
is not found any more, and its clusters are given back with the last reference. -/
namespace AvxKernel.Fs

open Fat (Geometry Leaves Spared Elsewhere Withheld NoneBegins InDirectory Contents SameFile portion
  overlay Accepts)
open Fd (cstr)

variable {fat : Geometry} {cs : List Nat} {data bytes : List UInt8} {α : Type}
  {s t u : Shared (Ecache Mounted)} {me old n limit off count : Nat}

/-- None of the names for which `fileread` and `filewrite` do something else. -/
def Ordinary (name : Name) : Prop :=
  ∀ special ∈ ["tmpfile_", "zero", "urandom"], (cstr special).isPrefixOf name = false

instance (name : Name) : Decidable (Ordinary name) := inferInstanceAs (Decidable (∀ _ ∈ _, _))

/-- A regular file in use, of which no other entry of the cache and nothing else on the
volume comes to a cluster. -/
structure Alone (fat : Geometry) (old : Nat) (cs : List Nat) (data : List UInt8)
    (s : Shared (Ecache Mounted)) : Prop where
  notRoot : old ≠ root
  used : 0 < (s.state.ent old).ref
  free : s.holder old = none
  ordinary : Ordinary (s.state.ent old).filename
  contents : Contents fat cs data s.state.disk.bytes (direntAt s old)
  apart : Apart fat old cs s s

theorem Alone.beside (h : Alone fat old cs data s) (apart : Apart fat old cs s t) :
    Alone fat old cs data t where
  notRoot := h.notRoot
  used := apart.entry ▸ h.used
  free := apart.holder.trans h.free
  ordinary := apart.entry ▸ h.ordinary
  contents := apart.dirent ▸ h.contents.congr apart.spared
  apart := apart.rebase

/-! ### Reading and writing the file -/

theorem Surely.after {x : Cache Mounted α} {Q : α → Shared (Ecache Mounted) → Prop}
    (h : Surely me x s Q) : After me x s Q := by
  obtain ⟨a, t, run, post⟩ := h.returns
  exact Machine.Ends.of_ok run post

theorem onDisk_surely {x : (Nat → Dirent) → OnDisk Mounted α} {Q : α → Shared (Ecache Mounted) → Prop}
    {a : α} {disk : Mounted} (run : x s.state.ent s.state.disk = some (a, disk))
    (h : Q a (remount s disk)) : Surely me (onDisk x) s Q := by
  refine Prog.Ends.onState ?_
  unfold Machine.Ends
  dsimp only
  rw [run]
  exact h

theorem setEntry_after_total {e : Nat} {g : Dirent → Dirent} {Q : Unit → Shared (Ecache Mounted) → Prop}
    (h : Q () (edit s e g)) : Surely me (setEntry e g) s Q :=
  Prog.Ends.modify h

theorem onBytes_ok {β : Type} {x : Machine Fat.Disk α} {k : α → Mounted → β × Mounted} {v : Mounted}
    {a : α} {bytes : Fat.Disk} (run : x v.bytes = .ok (a, bytes)) :
    onBytes x k v = some (k a { v with bytes }) := by
  rw [onBytes, run]

/-- The file's own entry changes, and its chain, but nothing comes to lead to it. -/
theorem Apart.own {s₀ : Shared (Ecache Mounted)} (h : Apart fat old cs s₀ s)
    (others : ∀ e, e ≠ old → direntAt t e = direntAt s e ∧
      (t.state.ent e).parent = (s.state.ent e).parent)
    (parent : (t.state.ent old).parent = (s.state.ent old).parent)
    (spared : Spared fat cs t.state.disk.bytes t.state.disk.bytes) : Apart fat old cs t t := by
  refine ⟨rfl, rfl, rfl, rfl, spared, fun e ne valid => ?_, fun e => ?_⟩
  · obtain ⟨same, -⟩ := others e ne
    have before : (s.state.ent e).valid ≠ 0 := by
      rw [show (s.state.ent e).valid = (direntAt s e).valid from rfl, ← same]
      exact valid
    rw [same]
    exact h.elsewhere e ne before
  · rcases eq_or_ne e old with rfl | ne
    · rw [parent]
      exact h.parents e
    · rw [(others e ne).2]
      exact h.parents e

theorem Alone.own (h : Alone fat old cs data s) {data' : List UInt8}
    (others : ∀ e, e ≠ old → direntAt t e = direntAt s e ∧
      (t.state.ent e).parent = (s.state.ent e).parent)
    (used : 0 < (t.state.ent old).ref) (free : t.holder old = none)
    (parent : (t.state.ent old).parent = (s.state.ent old).parent)
    (name : (t.state.ent old).filename = (s.state.ent old).filename)
    (spared : Spared fat cs t.state.disk.bytes t.state.disk.bytes)
    (contents : Contents fat cs data' t.state.disk.bytes (direntAt t old)) :
    Alone fat old cs data' t where
  notRoot := h.notRoot
  used := used
  free := free
  ordinary := name ▸ h.ordinary
  contents := contents
  apart := h.apart.own others parent spared

theorem keep_dirent {e' : Fat.Dirent} (same : SameFile (direntAt s old) e') :
    direntAt (remount s (s.state.disk.keep old e')) old = e' := by
  obtain ⟨cur, cnt, rfl⟩ := same
  simp only [direntAt, remount, Mounted.keep, Mounted.dirent, Function.update_self]

theorem keep_dirent_other {e : Nat} (ne : e ≠ old) (d : Fat.Dirent) (bytes : Fat.Disk) :
    direntAt (remount s (Mounted.keep { s.state.disk with bytes } old d)) e = direntAt s e := by
  simp only [direntAt, remount, Mounted.keep, Mounted.dirent, Function.update_of_ne ne]

/-- The lock is given back, and nothing else is done. -/
theorem Alone.unlock (h : Alone fat old cs data s) {γ : Type} (r : γ) :
    Surely me (do
      eunlock old
      return r) { s with holder := Function.update s.holder old (some me) } fun r' t =>
        r' = r ∧ t = s := by
  refine Prog.Ends.bind (eunlock_surely h.used (Function.update_self ..)) ?_
  rintro _ t rfl
  refine Prog.Ends.pure ⟨rfl, ?_⟩
  have holder : Function.update (Function.update s.holder old (some me)) old none = s.holder := by
    rw [Function.update_idem, ← h.free, Function.update_eq_self]
  dsimp only
  rw [holder]

/-- Reads of the file give its bytes, but to a process with a `char_count`. -/
theorem Alone.readEntry (h : Alone fat old cs data s) (small : count < 2 ^ 32) (p : Caller) :
    Surely me (Fs.readEntry fat p old off count) s fun r t =>
      (¬0 < p.char_count →
        r = ((lowInt (portion data off count).length, portion data off count), p)) ∧
        Alone fat old cs data t ∧ t.state.ent = s.state.ent ∧
        t.state.disk.bytes = s.state.disk.bytes := by
  refine Prog.Ends.bind (elock_surely h.used h.free) ?_
  rintro _ _ rfl
  refine Prog.Ends.read_bind (Prog.Ends.ite (fun counted => ?_) fun idle => ?_)
  · refine (h.unlock _).mono ?_
    rintro r _ ⟨-, rfl⟩
    exact ⟨fun no => absurd counted no, h, rfl, rfl⟩
  have special := h.ordinary
  simp only [Ordinary, List.mem_cons, List.not_mem_nil, or_false, forall_eq_or_imp, forall_eq] at special
  obtain ⟨tmpfile, zero, urandom⟩ := special
  dsimp only
  rw [if_neg (by rw [tmpfile]; exact fun ⟨_, no⟩ => absurd no (by decide)), if_neg (by rw [zero]; decide),
    if_neg (by rw [urandom]; decide)]
  obtain ⟨e', run, same, contents⟩ := @Contents.eread_run _ _ _ _ _ off _ h.contents small
  refine Prog.Ends.bind (R := fun r t =>
    r = (lowInt (portion data off count).length, portion data off count) ∧
      t = remount { s with holder := Function.update s.holder old (some me) } (s.state.disk.keep old e'))
    (onDisk_surely (onBytes_ok run) ⟨rfl, rfl⟩) ?_
  rintro r _ ⟨rfl, rfl⟩
  refine Prog.Ends.bind (eunlock_surely h.used (Function.update_self ..)) ?_
  rintro _ t unlocked
  have state := congrArg Shared.state unlocked
  have free : t.holder old = none := by
    rw [unlocked]
    exact Function.update_self ..
  refine Prog.Ends.pure ⟨fun _ => rfl, ?_, by rw [state]; rfl, by rw [state]; rfl⟩
  have here : direntAt t old = e' := by
    rw [direntAt, state]
    exact keep_dirent same
  apply h.own
  · intro e ne
    rw [direntAt, state]
    exact ⟨keep_dirent_other ne e' s.state.disk.bytes, rfl⟩
  · rw [state]
    exact h.used
  · exact free
  · rw [state]
    rfl
  · rw [state]
    rfl
  · rw [state]
    exact h.apart.spared
  · rw [here, state]
    exact contents

/-- What the file holds after a write through one of its descriptors: a process with a
`char_count` only counts. -/
def written (p : Caller) (attr : Nat) (data : List UInt8) (off : Nat) (bytes : List UInt8) :
    List UInt8 :=
  if p.char_count = 0 ∧ Accepts attr data off bytes.length then overlay data off bytes else data

/-- A write that is taken stays within the clusters that the file has. -/
def Fits (fat : Geometry) (cs : List Nat) (p : Caller) (attr : Nat) (data : List UInt8) (off n : Nat) :
    Prop :=
  p.char_count = 0 → Accepts attr data off n → cs ≠ [] ∧ off + n ≤ cs.length * fat.byts_per_clus

/-- The entry as `ewrite` leaves it, whether it takes the bytes or not. -/
theorem Alone.ewrite_leaves (h : Alone fat old cs data s) (p : Caller) (idle : p.char_count = 0)
    (fits : Accepts (s.state.ent old).attr data off bytes.length →
      cs ≠ [] ∧ off + bytes.length ≤ cs.length * fat.byts_per_clus) :
    ∃ r file_size cur_clus clus_cnt dirty d',
      Fat.ewrite fat (direntAt s old) (.ofBytes bytes) off bytes.length s.state.disk.bytes =
        .ok ((r, { direntAt s old with file_size, cur_clus, clus_cnt, dirty }), d') ∧
      Contents fat cs (written p (s.state.ent old).attr data off bytes) d'
        { direntAt s old with file_size, cur_clus, clus_cnt, dirty } ∧
      ∀ a, Fat.Outside fat cs a → d' a = s.state.disk.bytes a := by
  by_cases accepts : Accepts (s.state.ent old).attr data off bytes.length
  · obtain ⟨some, room⟩ := fits accepts
    obtain ⟨file_size, cur, cnt, dirty, d', run, contents, away⟩ :=
      h.contents.ewrite_run accepts some room
    rw [written, if_pos ⟨idle, accepts⟩]
    exact ⟨_, file_size, cur, cnt, dirty, d', run, contents, away⟩
  · rw [written, if_neg fun taken => accepts taken.2]
    exact ⟨_, _, _, _, _, _, h.contents.ewrite_rejects accepts, h.contents, fun _ _ => rfl⟩

/-- Writes are laid down in the file, or refused. -/
theorem Alone.writeEntry (h : Alone fat old cs data s) (p : Caller)
    (fits : Fits fat cs p (s.state.ent old).attr data off bytes.length) :
    Surely me (Fs.writeEntry fat p old off bytes) s fun _ t =>
      Alone fat old cs (written p (s.state.ent old).attr data off bytes) t ∧
        (t.state.ent old).ref = (s.state.ent old).ref ∧
        (t.state.ent old).valid = (s.state.ent old).valid ∧
        (t.state.ent old).attr = (s.state.ent old).attr ∧
        ∀ c, fat.InRange c → fat.entry t.state.disk.bytes c = fat.entry s.state.disk.bytes c := by
  refine Prog.Ends.bind (elock_surely h.used h.free) ?_
  rintro _ _ rfl
  refine Prog.Ends.read_bind (Prog.Ends.ite (fun counted => ?_) fun idle => ?_)
  · refine (h.unlock _).mono ?_
    rintro r _ ⟨-, rfl⟩
    rw [written, if_neg fun taken => counted taken.1]
    exact ⟨h, rfl, rfl, rfl, fun _ _ => rfl⟩
  have idle : p.char_count = 0 := not_not.mp idle
  have special := h.ordinary
  simp only [Ordinary, List.mem_cons, List.not_mem_nil, or_false, forall_eq_or_imp, forall_eq] at special
  obtain ⟨tmpfile, -, -⟩ := special
  dsimp only
  rw [if_neg (by rw [tmpfile]; exact fun ⟨_, no⟩ => absurd no (by decide))]
  obtain ⟨r, file_size, cur, cnt, dirty, d', run, contents, away⟩ := h.ewrite_leaves p idle (fits idle)
  obtain ⟨spared, tables⟩ := h.apart.spared.own away
  generalize after : ({ direntAt s old with file_size, cur_clus := cur, clus_cnt := cnt, dirty } :
    Fat.Dirent) = e' at run contents
  refine Prog.Ends.bind (R := fun _ t => t = edit (remount
      { s with holder := Function.update s.holder old (some me) }
      (Mounted.keep { s.state.disk with bytes := d' } old e')) old fun d => { d with
        first_clus := e'.first_clus, file_size := e'.file_size, dirty := e'.dirty }) ?_ ?_
  · refine Prog.Ends.bind (R := fun r' t => r' = (r, e') ∧ t = remount
      { s with holder := Function.update s.holder old (some me) }
      (Mounted.keep { s.state.disk with bytes := d' } old e')) (onDisk_surely (onBytes_ok run) ⟨rfl, rfl⟩) ?_
    rintro _ _ ⟨rfl, rfl⟩
    refine Prog.Ends.bind (Prog.Ends.modify (Q := fun _ t => t = _) rfl) ?_
    rintro _ _ rfl
    exact Prog.Ends.pure rfl
  rintro r' t₁ rfl
  refine Prog.Ends.bind (eunlock_surely ?_ (Function.update_self ..)) ?_
  · rw [edit_self]
    exact h.used
  rintro _ t unlocked
  have state := congrArg Shared.state unlocked
  have free : t.holder old = none := by
    rw [unlocked]
    exact Function.update_self ..
  have here : direntAt t old = e' := by
    rw [direntAt, state, edit_self, ← after]
    simp only [edit, Ecache.set, remount, Mounted.keep, Mounted.dirent, direntAt, Function.update_self]
  refine Prog.Ends.pure ⟨?_, ?_, ?_, ?_, ?_⟩
  · apply h.own
    · intro e ne
      rw [direntAt, state, edit_of_ne ne]
      exact ⟨keep_dirent_other ne e' d', rfl⟩
    · rw [state, edit_self]
      exact h.used
    · exact free
    · rw [state, edit_self]
      rfl
    · rw [state, edit_self]
      rfl
    · rw [state]
      exact spared
    · rw [here, state]
      exact contents
  · rw [state, edit_self]
    rfl
  · rw [state, edit_self]
    rfl
  · rw [state, edit_self]
    rfl
  · intro c range
    rw [state]
    exact tables c range

/-! ### Removing and closing the file -/

theorem eunlock_frees {e : Nat} : After me (eunlock e) s fun _ t =>
    t.state = s.state ∧ t.holder e = none := by
  refine Prog.Ends.holding_bind (Prog.Ends.ite (fun _ => ?_) fun _ => Prog.Ends.panic trivial)
  refine Prog.Ends.read_bind (Prog.Ends.ite (fun _ => Prog.Ends.panic trivial) fun _ => ?_)
  exact Prog.Ends.step (Machine.Ends.of_ok rfl ⟨rfl, Function.update_self ..⟩)

/-- With references left, closing only counts. -/
theorem eput_shared {disk : Disk Mounted} (shared : 1 < (s.state.ent old).ref) :
    After me (eput disk limit old) s fun _ t => t = edit s old fun d => { d with ref := d.ref - 1 } := by
  cases limit with
  | zero => exact Prog.Ends.halt trivial
  | succ limit => exact (eput_counts (.inr (ne_of_gt shared))).after

/-- The count and the mark of the entry itself change. -/
theorem Alone.counted (h : Alone fat old cs data s) (same : t.state = s.state) (free : t.holder old = none)
    {valid ref : Dirent → Int} (used : 0 < ref (s.state.ent old)) :
    Alone fat old cs data (edit t old fun d => { d with valid := valid d, ref := ref d }) := by
  obtain ⟨state, holder, stray⟩ := t
  dsimp only at same free
  subst same
  apply h.own
  · intro e ne
    rw [direntAt, edit_of_ne ne]
    exact ⟨rfl, rfl⟩
  · rw [edit_self]
    exact used
  · exact free
  · rw [edit_self]
  · rw [edit_self]
  · exact h.apart.spared
  · rw [direntAt, edit_self]
    exact h.contents.mark (valid (s.state.ent old))

theorem Alone.close (h : Alone fat old cs data s) (shared : 1 < (s.state.ent old).ref) :
    After me (eput (fatDisk fat n) limit old) s fun _ t => Alone fat old cs data t ∧
      (t.state.ent old).valid = (s.state.ent old).valid ∧ (t.state.ent old).attr = (s.state.ent old).attr ∧
      t.state.disk.bytes = s.state.disk.bytes := by
  refine (eput_shared shared).mono ?_
  rintro _ _ rfl
  have used : 0 < (s.state.ent old).ref - 1 := by omega
  have counted := @Alone.counted _ _ _ _ _ _ h rfl h.free Dirent.valid (fun d => d.ref - 1) used
  refine ⟨counted, ?_, ?_, rfl⟩
  · rw [edit_self]
  · rw [edit_self]

/-- A removed entry is marked in the cache and in its directory; the file stays. -/
theorem Alone.remove (h : Alone fat old cs data s) (valid : (s.state.ent old).valid = 1)
    (shared : 1 < (s.state.ent old).ref)
    (inside : ∀ p, Up s old p → InDirectory fat s.state.disk.bytes (direntAt s p) (direntAt s old)) :
    After me (removeEntry (fatDisk fat n) limit old) s fun _ t => Alone fat old cs data t ∧
      (t.state.ent old).valid = -1 ∧ (t.state.ent old).attr = (s.state.ent old).attr ∧
      ∀ c ∈ cs, fat.entry t.state.disk.bytes c = fat.entry s.state.disk.bytes c := by
  refine Prog.Ends.bind (elock_surely h.used h.free).after ?_
  rintro _ t₁ eq₁
  have state₁ : t₁.state = s.state := by rw [eq₁]
  have h₁ : Apart fat old cs t₁ t₁ := by
    rw [eq₁]
    exact ⟨rfl, rfl, rfl, rfl, h.apart.spared, h.apart.elsewhere, h.apart.parents⟩
  have file : (t₁.state.ent old).isDir = false := by
    rw [state₁]
    exact h.contents.file
  refine Prog.Ends.bind (R := fun full t => full = false ∧ t₁ = t) ?_ ?_
  · refine Prog.Ends.read_bind ?_
    rw [if_neg (by rw [file]; decide)]
    exact Prog.Ends.pure ⟨rfl, rfl⟩
  rintro _ _ ⟨rfl, rfl⟩
  refine Prog.Ends.ite (fun no => absurd no (by decide)) fun _ => ?_
  cases parent : (s.state.ent old).parent with
  | none =>
    refine Prog.Ends.bind (R := fun _ _ => False) (Prog.Ends.read_bind ?_) fun _ _ => False.elim
    rw [state₁, parent]
    exact Prog.Ends.panic trivial
  | some p =>
    have other : p ≠ old := fun eq => h.apart.parents old (eq ▸ parent)
    refine Prog.Ends.bind (R := fun _ t => t.state = s.state ∧ Apart fat old cs t₁ t) ?_ ?_
    · refine Prog.Ends.read_bind ?_
      rw [state₁, parent]
      refine elock_after.mono ?_
      rintro _ t ⟨-, same, locks⟩
      exact ⟨same.trans state₁, h₁.locks same (locks old other.symm)⟩
    rintro _ t₂ ⟨state₂, h₂⟩
    refine Prog.Ends.bind (R := fun _ t => ∃ t₃, t = edit t₃ old (fun d => { d with valid := -1 }) ∧
      t₃.state.ent = s.state.ent ∧ Apart fat old cs t₁ t₃) ?_ ?_
    · refine Prog.Ends.read_bind (Prog.Ends.ite (fun not => ?_) fun _ => ?_)
      · rw [state₂] at not
        exact absurd valid not
      refine Prog.Ends.bind (R := fun _ t => t.state.ent = s.state.ent ∧ Apart fat old cs t₁ t) ?_ ?_
      · apply onDisk_after
        intro a disk run
        rw [state₂] at run
        simp only [fatDisk, parent] at run
        have there := inside p parent
        have away : Elsewhere cs (direntAt s p) := by
          obtain ⟨ds, i, dir, -⟩ := there
          apply h.apart.elsewhere p other
          rw [show (s.state.ent p).valid = 1 from dir.valid]
          decide
        obtain ⟨⟨dp', e'⟩, bytes, ⟨spared, -, cur⟩, eq⟩ :=
          onBytes_some (Fat.eremove_spared h.apart.spared away valid there) run
        cases eq
        have spared₁ : Spared fat cs t₁.state.disk.bytes bytes := by
          rw [state₁]
          exact spared
        have kept := (h₂.bytes spared₁).keep (d := dp') other fun _ => cur
        rw [state₂] at kept
        exact ⟨show t₂.state.ent = s.state.ent by rw [state₂], kept⟩
      · rintro _ t₃ ⟨ent₃, h₃⟩
        exact setEntry_after ⟨t₃, rfl, ent₃, h₃⟩
    rintro _ _ ⟨t₃, rfl, ent₃, h₃⟩
    have alone₃ : Contents fat cs data t₃.state.disk.bytes (direntAt t₃ old) := by
      rw [h₃.dirent, direntAt, state₁]
      apply h.contents.congr
      rw [← state₁]
      exact h₃.spared
    refine Prog.Ends.bind (R := fun _ t => t.state = (edit t₃ old fun d => { d with valid := -1 }).state) ?_ ?_
    · refine Prog.Ends.read_bind ?_
      rw [edit_self]
      cases (t₃.state.ent old).parent with
      | none => exact Prog.Ends.panic trivial
      | some p => exact eunlock_after.mono fun _ _ post => post.1
    rintro _ t₄ state₄
    refine Prog.Ends.bind eunlock_frees ?_
    rintro _ t₅ ⟨state₅, free₅⟩
    rw [state₄] at state₅
    have alone₅ : Alone fat old cs data t₅ := by
      refine ⟨h.notRoot, ?_, free₅, ?_, ?_, rfl, rfl, rfl, rfl, ?_, ?_, ?_⟩
      · rw [state₅, edit_self]
        show 0 < (t₃.state.ent old).ref
        rw [ent₃]
        exact h.used
      · rw [state₅, edit_self]
        show Ordinary (t₃.state.ent old).filename
        rw [ent₃]
        exact h.ordinary
      · rw [direntAt, state₅, edit_self]
        exact alone₃.mark (-1)
      · rw [state₅]
        exact h₃.spared.rebase
      · intro e ne
        rw [direntAt, state₅, edit_of_ne ne]
        exact h₃.elsewhere e ne
      · intro e
        rw [state₅, edit_field (f := Dirent.parent) rfl]
        exact h₃.parents e
    refine Prog.Ends.bind (alone₅.close ?_) ?_
    · rw [state₅, edit_self]
      show 1 < (t₃.state.ent old).ref
      rw [ent₃]
      exact shared
    rintro _ t₆ ⟨alone₆, valid₆, attr₆, bytes₆⟩
    refine Prog.Ends.pure ⟨alone₆, ?_, ?_, ?_⟩
    · rw [valid₆, state₅, edit_self]
    · rw [attr₆, state₅, edit_self]
      show (t₃.state.ent old).attr = _
      rw [ent₃]
    · intro c mem
      rw [bytes₆, state₅]
      show fat.entry t₃.state.disk.bytes c = _
      rw [h₃.spared.entries c mem, state₁]

/-- The clusters are all given back, and nothing leads to them any more. -/
structure GivenBack (fat : Geometry) (old : Nat) (cs : List Nat) (s : Shared (Ecache Mounted)) : Prop where
  free : ∀ c ∈ cs, fat.entry s.state.disk.bytes c = 0
  first : (s.state.ent old).first_clus = 0
  apart : Apart fat old cs s s

/-- The last reference is known to be the last, whoever looks for the file. -/
theorem eputFirst_last (notRoot : old ≠ root) (valid : (s.state.ent old).valid ≠ 0)
    (last : (s.state.ent old).ref = 1) (free : s.holder old = none) :
    Surely me (eputFirst old) s fun r t => r = true ∧ t.state.ent = s.state.ent ∧
      t.state.disk = s.state.disk ∧ ∀ e, e ≠ old → t.holder e = s.holder e := by
  refine Prog.Ends.step (Machine.Ends.get_bind ?_)
  dsimp only
  rw [if_pos ⟨notRoot, valid, last⟩, free]
  exact Machine.Ends.of_ok rfl ⟨rfl, rfl, rfl, fun e ne => Function.update_of_ne ne _ _⟩

theorem eputWrite_last (apart : Apart fat old cs s s)
    (contents : Contents fat cs data s.state.disk.bytes (direntAt s old))
    (removed : (s.state.ent old).valid = -1) (enough : fat.data_clus_cnt + 2 ≤ n) :
    Surely me (eputWrite (fatDisk fat n) old) s fun _ t =>
      fat.Cleared s.state.disk.bytes t.state.disk.bytes (· ∈ cs) ∧ GivenBack fat old cs t ∧
        (t.state.ent old).valid = -1 ∧ (t.state.ent old).ref = (s.state.ent old).ref ∧ Cleaner s t := by
  obtain ⟨e', d', run, cleared⟩ := contents.etrunc_run enough
  refine Prog.Ends.read_bind ?_
  rw [if_pos removed]
  refine Prog.Ends.bind (R := fun _ t => t = remount s { s.state.disk with bytes := d' })
    (onDisk_surely (onBytes_ok run) rfl) ?_
  rintro _ _ rfl
  apply setEntry_after_total
  refine ⟨cleared, ⟨?_, ?_, apart.own ?_ ?_ (apart.spared.cleared cleared)⟩, ?_, ?_, ?_⟩
  · intro c mem
    show fat.entry d' c = 0
    rw [cleared.entry_eq, if_pos mem]
  · rw [edit_self]
  · intro e ne
    rw [direntAt, edit_of_ne ne]
    exact ⟨rfl, rfl⟩
  · rw [edit_self]
    rfl
  · rw [edit_self]
    exact removed
  · rw [edit_self]
    rfl
  · apply Cleaner.trans (t := remount s { s.state.disk with bytes := d' }) (Cleaner.of_ent rfl)
    apply Cleaner.edit rfl
    intro valid
    have invalid : (s.state.ent old).valid = 1 := valid
    rw [removed] at invalid
    cases invalid

/-- `eput` frees the clusters of a removed file with its last reference, and no others. -/
theorem Alone.last (h : Alone fat old cs data s) (removed : (s.state.ent old).valid = -1)
    (last : (s.state.ent old).ref = 1) (enough : fat.data_clus_cnt + 2 ≤ n) :
    Surely me (do
      let _ ← eputFirst old
      eputWrite (fatDisk fat n) old) s fun _ t =>
        fat.Cleared s.state.disk.bytes t.state.disk.bytes (· ∈ cs) ∧ GivenBack fat old cs t := by
  refine Prog.Ends.bind (eputFirst_last h.notRoot (by rw [removed]; decide) last h.free) ?_
  rintro _ t ⟨-, ent, disk, -⟩
  have same : direntAt t old = direntAt s old := by rw [direntAt, ent, disk]; rfl
  have apart : Apart fat old cs t t := by
    apply h.apart.own
    · intro e _
      rw [direntAt, ent, disk]
      exact ⟨rfl, rfl⟩
    · rw [ent]
    · rw [disk]
      exact h.apart.spared
  refine (eputWrite_last apart (by rw [same, disk]; exact h.contents) (by rw [ent]; exact removed) enough).mono ?_
  rintro _ u ⟨cleared, back, -⟩
  rw [disk] at cleared
  exact ⟨cleared, back⟩

/-- They stay free where other entries are closed. -/
theorem GivenBack.beside (h : GivenBack fat old cs s) (apart : Apart fat old cs s t) :
    GivenBack fat old cs t where
  free c mem := (apart.spared.entries c mem).trans (h.free c mem)
  first := apart.entry ▸ h.first
  apart := apart.rebase

/-- What is left to do after that keeps the clusters free. -/
theorem Alone.closeLast (h : Alone fat old cs data s) (removed : (s.state.ent old).valid = -1)
    (last : (s.state.ent old).ref = 1) (enough : fat.data_clus_cnt + 2 ≤ n) (above : CleanAbove s old) :
    After me (eput (fatDisk fat n) limit old) s fun _ t => GivenBack fat old cs t ∧
      (t.state.ent old).valid = -1 ∧ (t.state.ent old).ref = 0 := by
  cases limit with
  | zero => exact Prog.Ends.halt trivial
  | succ limit =>
    refine Prog.Ends.bind
      (eputFirst_last h.notRoot (by rw [removed]; decide) last h.free).after ?_
    rintro _ t₁ ⟨rfl, ent₁, disk₁, -⟩
    have same₁ : direntAt t₁ old = direntAt s old := by
      rw [direntAt, ent₁, disk₁]
      rfl
    have apart₁ : Apart fat old cs t₁ t₁ := by
      apply h.apart.own
      · intro e _
        rw [direntAt, ent₁, disk₁]
        exact ⟨rfl, rfl⟩
      · rw [ent₁]
      · rw [disk₁]
        exact h.apart.spared
    have contents₁ : Contents fat cs data t₁.state.disk.bytes (direntAt t₁ old) := by
      rw [same₁, disk₁]
      exact h.contents
    refine Prog.Ends.ite (fun _ => ?_) fun no => absurd rfl no
    refine Prog.Ends.bind (eputWrite_last apart₁ contents₁ (ent₁ ▸ removed) enough).after ?_
    rintro _ t₂ ⟨-, back₂, valid₂, ref₂, cleaner₂⟩
    refine Prog.Ends.bind release_after ?_
    rintro _ t₃ ⟨state₃, -⟩
    refine Prog.Ends.read_bind ?_
    refine Prog.Ends.bind (R := fun _ t => t = edit t₃ old fun d => { d with ref := d.ref - 1 })
      (setEntry_after rfl) ?_
    rintro _ t₄ eq₄
    have ent₄ : t₄.state.ent old = { t₂.state.ent old with ref := (t₂.state.ent old).ref - 1 } := by
      rw [eq₄, edit_self, state₃]
    have others₄ : ∀ e, e ≠ old → t₄.state.ent e = t₂.state.ent e := by
      intro e ne
      rw [eq₄, edit_of_ne ne, state₃]
    have disk₄ : t₄.state.disk = t₂.state.disk := by
      rw [eq₄, ← state₃]
      rfl
    have back₄ : GivenBack fat old cs t₄ := by
      refine ⟨?_, ?_, back₂.apart.own ?_ ?_ ?_⟩
      · rw [disk₄]
        exact back₂.free
      · rw [ent₄]
        exact back₂.first
      · intro e ne
        rw [direntAt, others₄ e ne, disk₄]
        exact ⟨rfl, rfl⟩
      · rw [ent₄]
      · rw [disk₄]
        exact back₂.apart.spared
    have valid₄ : (t₄.state.ent old).valid = -1 := by
      rw [ent₄]
      exact valid₂
    have ref₄ : (t₄.state.ent old).ref = 0 := by
      rw [ent₄, ref₂, ent₁, last]
      rfl
    refine Prog.Ends.read_bind (Prog.Ends.ite (fun _ => ?_) fun _ => Prog.Ends.pure ⟨back₄, valid₄, ref₄⟩)
    cases parent : (t₃.state.ent old).parent with
    | none => exact Prog.Ends.halt trivial
    | some p =>
      rw [state₃] at parent
      have other : p ≠ old := fun eq => back₂.apart.parents old (eq ▸ parent)
      have cleaner₄ : Cleaner t₂ t₄ := by
        rw [eq₄]
        apply (Cleaner.of_ent (congrArg Ecache.ent state₃)).trans
        exact Cleaner.edit rfl fun valid => ⟨valid, id⟩
      have total : Cleaner s t₄ := (Cleaner.of_ent ent₁).trans (cleaner₂.trans cleaner₄)
      have up : Up t₄ old p := (cleaner₄ old).1.trans parent
      obtain ⟨above', back'⟩ := (above.mono total).parent up
      refine (eput_apart back₄.apart other back' above').mono ?_
      intro _ t apart
      exact ⟨back₄.beside apart, apart.entry ▸ valid₄, apart.entry ▸ ref₄⟩

end AvxKernel.Fs
