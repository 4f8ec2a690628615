import AvxKernel.Fat.Beside
import AvxKernel.Fs.Lookups
import AvxKernel.Fs.Mounted

/-! Calls on other entries of the cache beside a file. They leave the file and its chain
alone, as long as no other entry comes to its clusters. -/
namespace AvxKernel.Fs

open Fat (Geometry Leaves Spared Elsewhere Withheld StillUsed NoneBegins InDirectory)

variable {fat : Geometry} {cs : List Nat} {α β : Type} {s₀ s t : Shared (Ecache Mounted)}
  {me old e dp ep : Nat} {g : Dirent → Dirent}

/-! ### The loop of `dirlookup` -/

theorem lookupFrom_eq (filename : Name) (limit : Nat) (dp ep : Fat.Dirent) (off count : Nat) :
    Fat.lookupFrom fat filename limit dp ep off count = (do
      let (dp, ep, found, off) ← lookFrom fat filename limit dp ep off count
      return (if found then some { ep with off, valid := 1 } else none, dp, off)) := by
  induction limit generalizing dp ep off count with
  | zero => rfl
  | succ limit ih =>
    rw [Fat.lookupFrom, lookFrom, bind_assoc]
    congr 1
    funext r
    obtain ⟨type, dp, ep, count⟩ := r
    dsimp only
    by_cases done : type = -1
    · rw [if_pos done, if_pos done]
      rfl
    · rw [if_neg done, if_neg done]
      by_cases same : Fat.sameName filename ep.filename
      · rw [if_pos same, if_pos same]
        rfl
      · rw [if_neg same, if_neg same]
        exact ih dp ep _ _

/-- `dirlookup` is its loop, and what it makes of the entry that the loop leaves. -/
theorem dirlookup_eq {dp ep : Fat.Dirent} {filename : Name} (dir : dp.isDir = true)
    (valid : dp.valid = 1) (fresh : ep.valid ≠ 1) : Fat.dirlookup fat dp ep filename = (do
      let (dp, ep, found, off) ← (do
        let (_, dp) ← Fat.reloc_clus fat dp 0 false
        lookFrom fat filename (Fat.SLOTS + 1) dp ep 0 0)
      return (if found then some { ep with off, valid := 1 } else none, dp,
        if found then none else some off)) := by
  rw [Fat.dirlookup, if_neg (by simp [dir]), if_neg (by simp [valid]), if_neg fresh]
  generalize Fat.SLOTS + 1 = limit
  rw [bind_assoc]
  congr 1
  funext r
  obtain ⟨_, dp⟩ := r
  dsimp only
  rw [lookupFrom_eq, bind_assoc]
  congr 1
  funext r
  obtain ⟨dp, ep, found, off⟩ := r
  cases found <;> rfl

/-- Only the directory is read, and what a name is found to be is not in the chain. -/
theorem lookFrom_spared {d₀ d : Fat.Disk} {dp ep : Fat.Dirent} {filename : Name}
    (h : Spared fat cs d₀ d) (away : Elsewhere cs dp) (dir : dp.isDir = true) (valid : dp.valid = 1)
    (fresh : ep.valid ≠ 1) (named : filename ≠ []) (others : NoneBegins fat cs d dp) :
    Leaves (do
      let (_, dp) ← Fat.reloc_clus fat dp 0 false
      lookFrom fat filename (Fat.SLOTS + 1) dp ep 0 0) d fun r t =>
        t = d ∧ Elsewhere cs r.1 ∧ (r.2.2.1 = true → Elsewhere cs r.2.1) := by
  have reads := Fat.dirlookup_spared h away ep filename
  have finds := others.found named fresh
  rw [dirlookup_eq dir valid fresh] at reads finds
  apply Machine.Ends.of_runs
  · exact fun _ => trivial
  · rintro ⟨dp', ep', found, off⟩ t run
    have done := Machine.bind_of_ok (f := fun (r : Fat.Dirent × Fat.Dirent × Bool × Nat) =>
      (return (if r.2.2.1 then some { r.2.1 with off := r.2.2.2, valid := 1 } else none, r.1,
        if r.2.2.1 then none else some r.2.2.2) : Machine Fat.Disk _)) run
    obtain ⟨same, away'⟩ := reads.ok done
    refine ⟨same, away', ?_⟩
    rintro rfl
    obtain ⟨first, cur⟩ := finds.ok done _ rfl
    exact ⟨first, cur⟩

/-! ### What is left alone -/

/-- What holds if a program returns. -/
abbrev After (me : Nat) (x : Cache Mounted α) (s : Shared (Ecache Mounted))
    (Q : α → Shared (Ecache Mounted) → Prop) : Prop :=
  Prog.Ends me (fun _ => True) x s Q

/-- An entry of the cache as the volume knows it. -/
def direntAt (s : Shared (Ecache Mounted)) (e : Nat) : Fat.Dirent :=
  s.state.disk.dirent e (s.state.ent e)

/-- The file, its lock and its chain are as they were, and no other entry leads to it. -/
structure Apart (fat : Geometry) (old : Nat) (cs : List Nat) (s₀ s : Shared (Ecache Mounted)) :
    Prop where
  entry : s.state.ent old = s₀.state.ent old
  cur_clus : s.state.disk.cur_clus old = s₀.state.disk.cur_clus old
  clus_cnt : s.state.disk.clus_cnt old = s₀.state.disk.clus_cnt old
  holder : s.holder old = s₀.holder old
  spared : Spared fat cs s₀.state.disk.bytes s.state.disk.bytes
  elsewhere : ∀ e, e ≠ old → (s.state.ent e).valid ≠ 0 → Elsewhere cs (direntAt s e)
  parents : ∀ e, (s.state.ent e).parent ≠ some old

/-- The state with another volume. -/
def remount (s : Shared (Ecache Mounted)) (disk : Mounted) : Shared (Ecache Mounted) :=
  { s with state := { s.state with disk } }

theorem Apart.rebase (h : Apart fat old cs s₀ s) : Apart fat old cs s s :=
  ⟨rfl, rfl, rfl, rfl, h.spared.rebase, h.elsewhere, h.parents⟩

theorem Apart.dirent (h : Apart fat old cs s₀ s) : direntAt s old = direntAt s₀ old := by
  simp only [direntAt, Mounted.dirent, h.entry, h.cur_clus, h.clus_cnt]

/-- Another entry changes. -/
theorem Apart.edit (h : Apart fat old cs s₀ s) (ne : e ≠ old)
    (away : (g (s.state.ent e)).valid ≠ 0 → Elsewhere cs (s.state.disk.dirent e (g (s.state.ent e))))
    (parent : (g (s.state.ent e)).parent ≠ some old) : Apart fat old cs s₀ (edit s e g) where
  entry := (edit_of_ne ne.symm).trans h.entry
  cur_clus := h.cur_clus
  clus_cnt := h.clus_cnt
  holder := h.holder
  spared := h.spared
  elsewhere d other valid := by
    rw [direntAt]
    rcases eq_or_ne d e with rfl | apart
    · rw [edit_self] at valid ⊢
      exact away valid
    · rw [edit_of_ne apart] at valid ⊢
      exact h.elsewhere d other valid
  parents d := by
    rcases eq_or_ne d e with rfl | apart
    · rw [edit_self]
      exact parent
    · rw [edit_of_ne apart]
      exact h.parents d

/-- Only the counts of another entry change, or what is written back of it. -/
theorem Apart.edit_same (h : Apart fat old cs s₀ s) (ne : e ≠ old)
    (valid : (g (s.state.ent e)).valid ≠ 0 → (s.state.ent e).valid ≠ 0)
    (first : (g (s.state.ent e)).first_clus = (s.state.ent e).first_clus)
    (parent : (g (s.state.ent e)).parent = (s.state.ent e).parent) :
    Apart fat old cs s₀ (Fs.edit s e g) := by
  apply h.edit ne
  · intro some
    obtain ⟨out, cur⟩ := h.elsewhere e ne (valid some)
    refine ⟨?_, cur⟩
    show (g (s.state.ent e)).first_clus ∉ cs
    rw [first]
    exact out
  · rw [parent]
    exact h.parents e

/-- Locks of other entries are taken and freed. -/
theorem Apart.locks (h : Apart fat old cs s₀ s) (same : t.state = s.state)
    (holder : t.holder old = s.holder old) : Apart fat old cs s₀ t where
  entry := same ▸ h.entry
  cur_clus := same ▸ h.cur_clus
  clus_cnt := same ▸ h.clus_cnt
  holder := holder.trans h.holder
  spared := same ▸ h.spared
  elsewhere e ne := by
    rw [direntAt, same]
    exact h.elsewhere e ne
  parents := same ▸ h.parents

/-- The bytes of the volume change. -/
theorem Apart.bytes (h : Apart fat old cs s₀ s) {bytes : Fat.Disk}
    (spared : Spared fat cs s₀.state.disk.bytes bytes) :
    Apart fat old cs s₀ (remount s { s.state.disk with bytes }) :=
  ⟨h.entry, h.cur_clus, h.clus_cnt, h.holder, spared, h.elsewhere, h.parents⟩

/-- The cursor of another entry moves. -/
theorem Apart.keep (h : Apart fat old cs s₀ s) (ne : e ≠ old) {d : Fat.Dirent}
    (away : (s.state.ent e).valid ≠ 0 → d.cur_clus ∉ cs) :
    Apart fat old cs s₀ (remount s (s.state.disk.keep e d)) where
  entry := h.entry
  cur_clus := (Function.update_of_ne ne.symm ..).trans h.cur_clus
  clus_cnt := (Function.update_of_ne ne.symm ..).trans h.clus_cnt
  holder := h.holder
  spared := h.spared
  elsewhere d' other valid := by
    obtain ⟨out, cur⟩ := h.elsewhere d' other valid
    refine ⟨out, ?_⟩
    show Function.update s.state.disk.cur_clus e d.cur_clus d' ∉ cs
    rcases eq_or_ne d' e with rfl | apart
    · rw [Function.update_self]
      exact away valid
    · rw [Function.update_of_ne apart]
      exact cur
  parents := h.parents

/-! ### Steps -/

theorem onDisk_after {x : (Nat → Dirent) → OnDisk Mounted α} {Q : α → Shared (Ecache Mounted) → Prop}
    (h : ∀ a disk, x s.state.ent s.state.disk = some (a, disk) → Q a (remount s disk)) :
    After me (onDisk x) s Q := by
  refine Prog.Ends.onState ?_
  unfold Machine.Ends
  dsimp only
  cases run : x s.state.ent s.state.disk with
  | none => trivial
  | some r => exact h r.1 r.2 run

theorem onBytes_some {x : Machine Fat.Disk α} {k : α → Mounted → β × Mounted} {v : Mounted}
    {R : α → Fat.Disk → Prop} {r : β × Mounted} (call : Leaves x v.bytes R)
    (run : onBytes x k v = some r) : ∃ a bytes, R a bytes ∧ r = k a { v with bytes } := by
  rw [onBytes] at run
  split at run
  · next a bytes done =>
    cases run
    exact ⟨a, bytes, call.ok done, rfl⟩
  · cases run

theorem setEntry_after {Q : Unit → Shared (Ecache Mounted) → Prop} (h : Q () (edit s e g)) :
    After me (setEntry e g) s Q :=
  Prog.Ends.modify h

theorem elock_after : After me (elock e) s fun _ t =>
    0 < (s.state.ent e).ref ∧ t.state = s.state ∧ ∀ d, d ≠ e → t.holder d = s.holder d := by
  refine Prog.Ends.read_bind (Prog.Ends.ite (fun _ => Prog.Ends.panic trivial) fun used => ?_)
  exact Prog.Ends.acquire trivial fun _ =>
    ⟨Int.not_lt.mp used, rfl, fun _ ne => Function.update_of_ne ne _ _⟩

theorem release_after : After me (Prog.release e) s fun _ t =>
    t.state = s.state ∧ ∀ d, d ≠ e → t.holder d = s.holder d :=
  Prog.Ends.step (Machine.Ends.of_ok rfl ⟨rfl, fun _ ne => Function.update_of_ne ne _ _⟩)

theorem eunlock_after : After me (eunlock e) s fun _ t =>
    t.state = s.state ∧ ∀ d, d ≠ e → t.holder d = s.holder d := by
  refine Prog.Ends.holding_bind (Prog.Ends.ite (fun _ => ?_) fun _ => Prog.Ends.panic trivial)
  exact Prog.Ends.read_bind (Prog.Ends.ite (fun _ => Prog.Ends.panic trivial) fun _ => release_after)

/-! ### Giving a reference back -/

/-- One entry is the directory of another. -/
def Up (s : Shared (Ecache Mounted)) (e p : Nat) : Prop := (s.state.ent e).parent = some p

/-- An entry that is written back goes to its directory. -/
def PutsBack (fat : Geometry) (s : Shared (Ecache Mounted)) (e : Nat) : Prop :=
  (s.state.ent e).valid = 1 → (s.state.ent e).dirty = true →
    ∀ p, Up s e p → InDirectory fat s.state.disk.bytes (direntAt s p) (direntAt s e)

/-- None of the directories above is to be written back. -/
def CleanAbove (s : Shared (Ecache Mounted)) (e : Nat) : Prop :=
  ∀ a, Relation.TransGen (Up s) e a → (s.state.ent a).valid = 1 → (s.state.ent a).dirty = false

/-- Nothing has come to be in need of writing back. -/
def Cleaner (s t : Shared (Ecache Mounted)) : Prop :=
  ∀ a, (t.state.ent a).parent = (s.state.ent a).parent ∧ ((t.state.ent a).valid = 1 →
    (s.state.ent a).valid = 1 ∧ ((s.state.ent a).dirty = false → (t.state.ent a).dirty = false))

theorem Cleaner.refl (s : Shared (Ecache Mounted)) : Cleaner s s :=
  fun _ => ⟨rfl, fun valid => ⟨valid, id⟩⟩

theorem Cleaner.trans {u : Shared (Ecache Mounted)} (h : Cleaner s t) (h' : Cleaner t u) :
    Cleaner s u := by
  intro a
  obtain ⟨parent, clean⟩ := h a
  obtain ⟨parent', clean'⟩ := h' a
  refine ⟨parent'.trans parent, fun valid => ?_⟩
  obtain ⟨valid', still'⟩ := clean' valid
  obtain ⟨valid'', still⟩ := clean valid'
  exact ⟨valid'', fun before => still' (still before)⟩

theorem Cleaner.of_ent (same : t.state.ent = s.state.ent) : Cleaner s t := by
  intro a
  rw [same]
  exact Cleaner.refl s a

theorem Cleaner.edit (parent : (g (s.state.ent e)).parent = (s.state.ent e).parent)
    (clean : (g (s.state.ent e)).valid = 1 → (s.state.ent e).valid = 1 ∧
      ((s.state.ent e).dirty = false → (g (s.state.ent e)).dirty = false)) :
    Cleaner s (edit s e g) := by
  intro a
  rcases eq_or_ne a e with rfl | ne
  · rw [edit_self]
    exact ⟨parent, clean⟩
  · rw [edit_of_ne ne]
    exact Cleaner.refl s a

theorem CleanAbove.mono (h : CleanAbove s e) (cleaner : Cleaner s t) : CleanAbove t e := by
  intro a path valid
  have up : Up t = Up s := by
    funext x y
    rw [Up, Up, (cleaner x).1]
  rw [up] at path
  obtain ⟨before, still⟩ := (cleaner a).2 valid
  exact still (h a path before)

theorem CleanAbove.parent (h : CleanAbove s e) {p : Nat} (up : Up s e p) : CleanAbove s p ∧
    PutsBack fat s p := by
  constructor
  · exact fun a path => h a (.head up path)
  · intro valid dirty
    rw [h p (.single up) valid] at dirty
    cases dirty

variable {n limit : Nat}

theorem etrunc_apart (h : Apart fat old cs s₀ s) (ne : e ≠ old) (removed : (s.state.ent e).valid = -1) :
    After me (etrunc (fatDisk fat n) e) s fun _ t => Apart fat old cs s₀ t ∧ Cleaner s t := by
  obtain ⟨out, -⟩ := h.elsewhere e ne (by rw [removed]; decide)
  refine Prog.Ends.bind (R := fun _ t => Apart fat old cs s₀ t ∧ t.state.ent = s.state.ent) ?_ ?_
  · apply onDisk_after
    intro a disk run
    obtain ⟨_, bytes, spared, eq⟩ := onBytes_some (Fat.etrunc_spared h.spared out n) run
    cases eq
    exact ⟨h.bytes spared, rfl⟩
  · rintro _ t ⟨h₁, same⟩
    apply setEntry_after
    constructor
    · apply h₁.edit ne
      · intro valid
        obtain ⟨-, cur⟩ := h₁.elsewhere e ne valid
        exact ⟨Fat.not_mem_low h₁.spared.range (show 0 < 2 by decide), cur⟩
      · exact h₁.parents e
    · apply (Cleaner.of_ent same).trans
      apply Cleaner.edit rfl
      intro valid
      rw [same, removed] at valid
      cases valid

theorem eupdate_apart (h : Apart fat old cs s₀ s) (ne : e ≠ old) (back : PutsBack fat s e) :
    After me (eupdate (fatDisk fat n) e) s fun _ t => Apart fat old cs s₀ t ∧ Cleaner s t := by
  refine Prog.Ends.read_bind (Prog.Ends.ite (fun _ => Prog.Ends.pure ⟨h, Cleaner.refl s⟩) fun some => ?_)
  rw [not_or, Bool.not_eq_false, not_not] at some
  obtain ⟨dirty, valid⟩ := some
  refine Prog.Ends.bind (R := fun _ t => Apart fat old cs s₀ t ∧ t.state.ent = s.state.ent) ?_ ?_
  · apply onDisk_after
    intro a disk run
    cases parent : (s.state.ent e).parent with
    | none =>
      simp only [fatDisk, parent] at run
      cases run
    | some p =>
      simp only [fatDisk, parent] at run
      have inside := back valid dirty p parent
      have other : p ≠ old := fun eq => h.parents e (eq ▸ parent)
      have away : Elsewhere cs (direntAt s p) := by
        obtain ⟨ds, i, dir, -⟩ := inside
        apply h.elsewhere p other
        rw [show (s.state.ent p).valid = 1 from dir.valid]
        decide
      obtain ⟨⟨dp', e'⟩, bytes, ⟨spared, -, cur⟩, eq⟩ :=
        onBytes_some (Fat.eupdate_spared h.spared away fun _ _ => inside) run
      cases eq
      exact ⟨(h.bytes spared).keep other fun _ => cur, rfl⟩
  · rintro _ t ⟨h₁, same⟩
    apply setEntry_after
    constructor
    · exact h₁.edit_same ne id rfl rfl
    · apply (Cleaner.of_ent same).trans
      exact Cleaner.edit rfl fun valid => ⟨valid, fun _ => rfl⟩

theorem eputFirst_apart (h : Apart fat old cs s₀ s) (ne : e ≠ old) :
    After me (eputFirst e) s fun last t => Apart fat old cs s₀ t ∧
      if last then t.state.ent = s.state.ent ∧ t.state.disk = s.state.disk
      else t = edit s e fun d => { d with ref := d.ref - 1 } := by
  refine Prog.Ends.step (Machine.Ends.get_bind (Machine.Ends.ite (fun _ => ?_) fun _ => ?_))
  · cases held : s.holder e with
    | some q => exact Machine.Ends.of_error rfl trivial
    | none =>
      apply Machine.Ends.of_ok rfl
      have moved : Apart fat old cs s₀ { s with
          state := { s.state with order := e :: s.state.order.erase e } } :=
        ⟨h.entry, h.cur_clus, h.clus_cnt, h.holder, h.spared, h.elsewhere, h.parents⟩
      exact ⟨moved.locks rfl (Function.update_of_ne ne.symm _ _), rfl, rfl⟩
  · exact Machine.Ends.of_ok rfl ⟨h.edit_same ne id rfl rfl, rfl⟩

theorem eputWrite_apart (h : Apart fat old cs s₀ s) (ne : e ≠ old) (back : PutsBack fat s e) :
    After me (eputWrite (fatDisk fat n) e) s fun _ t => Apart fat old cs s₀ t ∧ Cleaner s t := by
  refine Prog.Ends.read_bind (Prog.Ends.ite (fun removed => etrunc_apart h ne removed) fun _ => ?_)
  refine Prog.Ends.read_bind ?_
  cases parent : (s.state.ent e).parent with
  | none => exact Prog.Ends.panic trivial
  | some p =>
    have other : p ≠ old := fun eq => h.parents e (eq ▸ parent)
    refine Prog.Ends.bind elock_after ?_
    rintro _ t₁ ⟨-, same, locks⟩
    have h₁ := h.locks same (locks old other.symm)
    have back₁ : PutsBack fat t₁ e := by
      simpa only [PutsBack, Up, direntAt, same] using back
    refine Prog.Ends.bind (eupdate_apart h₁ ne back₁) ?_
    rintro _ t₂ ⟨h₂, cleaner⟩
    refine Prog.Ends.read_bind ?_
    rw [(cleaner e).1, same, parent]
    refine eunlock_after.mono ?_
    rintro _ t₃ ⟨same₃, locks₃⟩
    refine ⟨h₂.locks same₃ (locks₃ old other.symm), ?_⟩
    exact (Cleaner.of_ent (congrArg Ecache.ent same)).trans
      (cleaner.trans (Cleaner.of_ent (congrArg Ecache.ent same₃)))

/-- Where another entry is closed, and with it the directories that are in use no longer. -/
theorem eput_apart (h : Apart fat old cs s₀ s) (ne : e ≠ old) (back : PutsBack fat s e)
    (above : CleanAbove s e) :
    After me (eput (fatDisk fat n) limit e) s fun _ t => Apart fat old cs s₀ t := by
  induction limit generalizing s e with
  | zero => exact Prog.Ends.halt trivial
  | succ limit ih =>
    refine Prog.Ends.bind (eputFirst_apart h ne) ?_
    rintro last t₁ ⟨h₁, first⟩
    refine Prog.Ends.ite (fun isLast => ?_) fun _ => Prog.Ends.pure h₁
    rw [if_pos isLast] at first
    obtain ⟨same, disk⟩ := first
    have back₁ : PutsBack fat t₁ e := by
      simpa only [PutsBack, Up, direntAt, same, disk] using back
    refine Prog.Ends.bind (eputWrite_apart h₁ ne back₁) ?_
    rintro _ t₂ ⟨h₂, cleaner⟩
    refine Prog.Ends.bind release_after ?_
    rintro _ t₃ ⟨same₃, locks⟩
    have h₃ := h₂.locks same₃ (locks old ne.symm)
    refine Prog.Ends.read_bind ?_
    refine Prog.Ends.bind (R := fun _ t => Apart fat old cs s₀ t ∧ Cleaner t₃ t)
      (setEntry_after ⟨h₃.edit_same ne id rfl rfl, Cleaner.edit rfl fun valid => ⟨valid, id⟩⟩) ?_
    rintro _ t₄ ⟨h₄, cleaner₄⟩
    refine Prog.Ends.read_bind (Prog.Ends.ite (fun _ => ?_) fun _ => Prog.Ends.pure h₄)
    cases parent : (t₃.state.ent e).parent with
    | none => exact Prog.Ends.halt trivial
    | some p =>
      have other : p ≠ old := fun eq => h₃.parents e (eq ▸ parent)
      have total : Cleaner s t₄ := (Cleaner.of_ent same).trans
        (cleaner.trans ((Cleaner.of_ent (congrArg Ecache.ent same₃)).trans cleaner₄))
      have up : Up t₄ e p := (cleaner₄ e).1.trans parent
      obtain ⟨above', back'⟩ := (above.mono total).parent up
      exact ih h₄ other back' above'

/-! ### Looking up -/

/-- Entries in use stay in use, and as valid as they are. -/
def StaysUsed (s t : Shared (Ecache Mounted)) : Prop := ∀ e, 0 < (s.state.ent e).ref →
  0 < (t.state.ent e).ref ∧ (t.state.ent e).valid = (s.state.ent e).valid

theorem StaysUsed.refl (s : Shared (Ecache Mounted)) : StaysUsed s s := fun _ used => ⟨used, rfl⟩

theorem StaysUsed.of_ent (h : StaysUsed s t) {u : Shared (Ecache Mounted)}
    (same : u.state.ent = t.state.ent) : StaysUsed s u := by
  intro e used
  rw [same]
  exact h e used

/-- An entry that was not in use changes. -/
theorem StaysUsed.edit_unused (h : StaysUsed s t) (unused : (s.state.ent e).ref = 0) :
    StaysUsed s (edit t e g) := by
  intro d used
  rw [edit_of_ne]
  · exact h d used
  · rintro rfl
    rw [unused] at used
    exact absurd used (by decide)

theorem StaysUsed.edit (h : StaysUsed s t)
    (ref : 0 < (t.state.ent e).ref → 0 < (g (t.state.ent e)).ref)
    (valid : (g (t.state.ent e)).valid = (t.state.ent e).valid) : StaysUsed s (edit t e g) := by
  intro d used
  rcases eq_or_ne d e with rfl | ne
  · rw [edit_self, valid]
    exact ⟨ref (h d used).1, (h d used).2⟩
  · rw [edit_of_ne ne]
    exact h d used

/-- An entry with one more reference. -/
def referenced (d : Dirent) : Dirent := { d with ref := d.ref + 1 }

theorem Apart.referenced (h : Apart fat old cs s₀ s) (ne : e ≠ old) :
    Apart fat old cs s₀ (Fs.edit s e Fs.referenced) :=
  h.edit_same ne id rfl rfl

theorem StaysUsed.referenced (h : StaysUsed s t) (e : Nat) :
    StaysUsed s (Fs.edit t e Fs.referenced) :=
  h.edit (fun used => Int.lt_add_one_of_le (Int.le_of_lt used)) rfl

theorem edup_apart (h : Apart fat old cs s₀ s) (ne : e ≠ old) :
    After me (edup e) s fun r t => e = r ∧ t = edit s e referenced ∧ Apart fat old cs s₀ t ∧
      StaysUsed s t := by
  refine Prog.Ends.bind (setEntry_after (Q := fun _ t => t = edit s e referenced) rfl) ?_
  rintro _ t rfl
  exact Prog.Ends.pure ⟨rfl, rfl, h.referenced ne, (StaysUsed.refl s).referenced e⟩

theorem eput_fresh_after {disk : Disk Mounted} (invalid : (s.state.ent e).valid = 0) :
    After me (eput disk limit e) s fun _ t => t = edit s e fun d => { d with ref := d.ref - 1 } := by
  cases limit with
  | zero => exact Prog.Ends.halt trivial
  | succ limit =>
    refine Prog.Ends.bind (R := fun last t => last = false ∧
      t = edit s e fun d => { d with ref := d.ref - 1 }) ?_ ?_
    · refine Prog.Ends.step (Machine.Ends.get_bind (Machine.Ends.ite (fun last => ?_) fun _ => ?_))
      · exact absurd invalid last.2.1
      · exact Machine.Ends.of_ok rfl ⟨rfl, rfl⟩
    · rintro _ t ⟨rfl, rfl⟩
      exact Prog.Ends.pure rfl

/-! ### Making an entry -/

/-- What a change of one entry leaves as it is, it leaves as it is in all. -/
theorem edit_field {γ : Type} {f : Dirent → γ} (same : f (g (s.state.ent e)) = f (s.state.ent e))
    {d : Nat} : f ((edit s e g).state.ent d) = f (s.state.ent d) := by
  rcases eq_or_ne d e with rfl | ne
  · rw [edit_self, same]
  · rw [edit_of_ne ne]

/-- No cursor has come into the chain, and no other cluster can be handed out yet. -/
structure Keeps (fat : Geometry) (cs : List Nat) (s t : Shared (Ecache Mounted)) : Prop where
  ent : t.state.ent = s.state.ent
  withheld : Withheld fat cs s.state.disk.bytes → Withheld fat cs t.state.disk.bytes
  cursors : ∀ e, s.state.disk.cur_clus e ∉ cs → t.state.disk.cur_clus e ∉ cs

theorem Keeps.elsewhere (h : Keeps fat cs s t) (away : Elsewhere cs (direntAt s e)) :
    Elsewhere cs (direntAt t e) := by
  obtain ⟨first, cur⟩ := away
  rw [Elsewhere, direntAt, h.ent]
  exact ⟨first, h.cursors e cur⟩

theorem emake_apart (h : Apart fat old cs s₀ s) (ne : dp ≠ old) (away : Elsewhere cs (direntAt s dp))
    (withheld : Withheld fat cs s.state.disk.bytes) (off : Nat) :
    After me (onDisk fun ent => (fatDisk fat n).emake ent dp ep off) s fun _ t =>
      Apart fat old cs s₀ t ∧ Keeps fat cs s t := by
  apply onDisk_after
  intro a disk run
  simp only [fatDisk] at run
  obtain ⟨dp', bytes, ⟨spared, still, -, cur⟩, eq⟩ :=
    onBytes_some (Fat.emake_spared h.spared away withheld _ off) run
  cases eq
  refine ⟨(h.bytes spared).keep ne fun _ => cur, rfl, fun before => before.mono still, fun e out => ?_⟩
  show Function.update s.state.disk.cur_clus dp dp'.cur_clus e ∉ cs
  rcases eq_or_ne e dp with rfl | apart
  · rw [Function.update_self]
    exact cur
  · rw [Function.update_of_ne apart]
    exact out

theorem alloc_clus_apart (h : Apart fat old cs s₀ s) (withheld : Withheld fat cs s.state.disk.bytes) :
    After me (onDisk fun _ => (fatDisk fat n).alloc_clus) s fun clus t =>
      Apart fat old cs s₀ t ∧ Keeps fat cs s t ∧ clus ∉ cs := by
  apply onDisk_after
  intro clus disk run
  simp only [fatDisk] at run
  obtain ⟨_, bytes, ⟨spared, still, out, -⟩, eq⟩ :=
    onBytes_some (Fat.alloc_clus_spared h.spared withheld) run
  cases eq
  exact ⟨h.bytes spared, ⟨rfl, fun before => before.mono still, fun _ cur => cur⟩, out⟩

theorem setCursor_apart (h : Apart fat old cs s₀ s) (ne : e ≠ old) {clus : Nat} (out : clus ∉ cs) :
    After me (onDisk fun _ => (fatDisk fat n).setCursor e clus) s fun _ t =>
      Apart fat old cs s₀ t ∧ t.state.ent = s.state.ent ∧ t.state.disk.bytes = s.state.disk.bytes ∧
        t.state.disk.cur_clus e = clus := by
  apply onDisk_after
  intro a disk run
  simp only [fatDisk] at run
  cases run
  exact ⟨h.keep (d := { Fat.blank with cur_clus := clus }) ne fun _ => out, rfl, rfl,
    Function.update_self ..⟩

/-- An entry that is being filled in, in a directory that is valid. -/
structure Filling (fat : Geometry) (old : Nat) (cs : List Nat) (s₀ : Shared (Ecache Mounted)) (dp ep : Nat)
    (s : Shared (Ecache Mounted)) : Prop where
  apart : Apart fat old cs s₀ s
  withheld : Withheld fat cs s.state.disk.bytes
  valid : (s.state.ent dp).valid ≠ 0
  away : Elsewhere cs (direntAt s ep)

theorem Filling.keeps (h : Filling fat old cs s₀ dp ep s) (apart : Apart fat old cs s₀ t)
    (keeps : Keeps fat cs s t) : Filling fat old cs s₀ dp ep t where
  apart := apart
  withheld := keeps.withheld h.withheld
  valid := keeps.ent ▸ h.valid
  away := keeps.elsewhere h.away

theorem Filling.emake (h : Filling fat old cs s₀ dp ep s) {d f : Nat} (ne : d ≠ old)
    (away : Elsewhere cs (direntAt s d)) (off : Nat) :
    After me (onDisk fun ent => (fatDisk fat n).emake ent d f off) s fun _ t =>
      Filling fat old cs s₀ dp ep t :=
  (emake_apart h.apart ne away h.withheld off).mono fun _ _ ⟨apart, keeps⟩ => h.keeps apart keeps

theorem Filling.edit (h : Filling fat old cs s₀ dp ep s) (notOld : ep ≠ old)
    (first : (g (s.state.ent ep)).first_clus ∉ cs)
    (valid : (g (s.state.ent ep)).valid = (s.state.ent ep).valid)
    (parent : (g (s.state.ent ep)).parent = (s.state.ent ep).parent) :
    Filling fat old cs s₀ dp ep (Fs.edit s ep g) where
  apart := h.apart.edit notOld (fun _ => ⟨first, h.away.2⟩) (parent ▸ h.apart.parents ep)
  withheld := h.withheld
  valid := by
    rw [edit_field valid]
    exact h.valid
  away := by
    rw [direntAt, edit_self]
    exact ⟨first, h.away.2⟩

theorem Filling.setCursor (h : Filling fat old cs s₀ dp ep s) (notOld : ep ≠ old) {clus : Nat}
    (out : clus ∉ cs) : After me (onDisk fun _ => (fatDisk fat n).setCursor ep clus) s fun _ t =>
      Filling fat old cs s₀ dp ep t := by
  refine (setCursor_apart h.apart notOld out).mono ?_
  rintro _ t ⟨apart, ent, bytes, cur⟩
  refine ⟨apart, bytes ▸ h.withheld, ent ▸ h.valid, ?_⟩
  rw [direntAt, ent]
  refine ⟨h.away.1, ?_⟩
  show t.state.disk.cur_clus ep ∉ cs
  rwa [cur]

theorem fillEntry_apart (h : Apart fat old cs s₀ s) (notOld : ep ≠ old) (ne : dp ≠ old)
    (withheld : Withheld fat cs s.state.disk.bytes) (valid : (s.state.ent dp).valid ≠ 0)
    {name : Name} {attr off : Nat} :
    After me (fillEntry (fatDisk fat n) dp ep name attr off) s fun _ t => Apart fat old cs s₀ t := by
  have low : 0 ∉ cs := Fat.not_mem_low h.spared.range (by decide)
  refine Prog.Ends.bind (setEntry_after (Q := fun _ t => t = edit s ep fun d => { d with
    attr := attr, file_size := 0, first_clus := 0 }) rfl) ?_
  rintro _ t₁ eq₁
  have h₁ : Apart fat old cs s₀ t₁ := by
    rw [eq₁]
    exact h.edit notOld (fun some => ⟨low, (h.elsewhere ep notOld some).2⟩) (h.parents ep)
  have first₁ : (t₁.state.ent ep).first_clus = 0 := by rw [eq₁, edit_self]
  have valid₁ : (t₁.state.ent dp).valid ≠ 0 := by
    rw [eq₁, edit_field (f := Dirent.valid) rfl]
    exact valid
  have bytes₁ : t₁.state.disk.bytes = s.state.disk.bytes := by rw [eq₁]; rfl
  refine Prog.Ends.bind (edup_apart h₁ ne) ?_
  rintro _ t₂ ⟨rfl, eq₂, h₂, -⟩
  refine Prog.Ends.bind (setEntry_after (Q := fun _ t => t = edit t₂ ep fun d => { d with
    parent := some dp, off, dirty := false, filename := name.take Fat.FAT32_MAX_FILENAME }) rfl) ?_
  rintro _ t₃ eq₃
  have h₃ : Apart fat old cs s₀ t₃ := by
    rw [eq₃]
    exact h₂.edit notOld (h₂.elsewhere ep notOld) fun eq => ne (Option.some.inj eq)
  refine Prog.Ends.bind (R := fun _ t => Filling fat old cs s₀ dp ep t) ?_ ?_
  · refine (setCursor_apart h₃ notOld low).mono ?_
    rintro _ t₄ ⟨h₄, ent₄, bytes₄, cur⟩
    have first₄ : (t₄.state.ent ep).first_clus = 0 := by
      rw [ent₄, eq₃, edit_field (f := Dirent.first_clus) rfl, eq₂, edit_field (f := Dirent.first_clus) rfl,
        first₁]
    refine ⟨h₄, ?_, ?_, ?_⟩
    · rw [bytes₄, eq₃]
      show Withheld fat cs t₂.state.disk.bytes
      rw [eq₂]
      show Withheld fat cs t₁.state.disk.bytes
      rw [bytes₁]
      exact withheld
    · rw [ent₄, eq₃, edit_field (f := Dirent.valid) rfl, eq₂, edit_field (f := Dirent.valid) rfl]
      exact valid₁
    · constructor
      · show (t₄.state.ent ep).first_clus ∉ cs
        rw [first₄]
        exact low
      · show t₄.state.disk.cur_clus ep ∉ cs
        rw [cur]
        exact low
  rintro _ t₄ h₄
  refine Prog.Ends.bind (R := fun _ t => Filling fat old cs s₀ dp ep t) ?_ ?_
  · refine Prog.Ends.ite (fun _ => ?_) fun _ => ?_
    · refine Prog.Ends.bind (alloc_clus_apart h₄.apart h₄.withheld) ?_
      rintro clus t₅ ⟨apart, keeps, out⟩
      have h₅ := h₄.keeps apart keeps
      refine Prog.Ends.bind (setEntry_after (Q := fun _ t => Filling fat old cs s₀ dp ep t)
        (h₅.edit notOld out rfl rfl)) ?_
      rintro _ t₆ h₆
      refine Prog.Ends.bind (h₆.setCursor notOld out) ?_
      rintro _ t₇ h₇
      refine Prog.Ends.bind (h₇.emake notOld h₇.away 0) ?_
      rintro _ t₈ h₈
      exact h₈.emake notOld h₈.away 32
    · exact setEntry_after (h₄.edit notOld h₄.away.1 rfl rfl)
  rintro _ t₅ h₅
  refine Prog.Ends.bind (h₅.emake ne (h₅.apart.elsewhere dp ne h₅.valid) off) ?_
  rintro _ t₆ h₆
  exact setEntry_after (h₆.apart.edit notOld (fun _ => h₆.away) (h₆.apart.parents ep))

section Removed

variable (removed : (s₀.state.ent old).valid = -1) (held : 0 < (s₀.state.ent old).ref)
include removed held

/-- The removed file is never hit, and being in use it is never recycled. -/
theorem eget_apart (h : Apart fat old cs s₀ s) {name : Name} :
    After me (eget dp name) s fun ep t => Apart fat old cs s₀ t ∧ ep ≠ old ∧ StaysUsed s t ∧
      t.state.disk = s.state.disk ∧ ((t.state.ent ep).valid = 1 ∨
        (s.state.ent ep).ref = 0 ∧ t = edit s ep recycled) := by
  refine Prog.Ends.onState (Machine.Ends.get_bind ?_)
  cases found : s.state.order.find? fun e => (s.state.ent e).hit dp name with
  | some ep =>
    have hit := List.find?_some found
    obtain ⟨valid, parent, -⟩ := (hit_iff _).mp hit
    have ne : ep ≠ old := by
      rintro rfl
      rw [h.entry, removed] at valid
      cases valid
    have other : dp ≠ old := by
      rintro rfl
      exact h.parents ep parent
    have h₁ := h.referenced ne
    have used₁ := (StaysUsed.refl s).referenced ep
    have valid₁ : ((edit s ep referenced).state.ent ep).valid = 1 := by
      rw [edit_self]
      exact valid
    by_cases unused : (s.state.ent ep).ref = 0
    · have run : (edit (edit s ep referenced) dp referenced).state =
          if (s.state.ent ep).ref = 0 then (edit (edit s ep referenced) dp referenced).state
          else (edit s ep referenced).state := (if_pos unused).symm
      refine Machine.Ends.of_ok (congrArg (fun t => Except.ok (ep, t)) run.symm)
        ⟨h₁.referenced other, ne, used₁.referenced dp, rfl, .inl ?_⟩
      rcases eq_or_ne ep dp with rfl | apart
      · rw [show ({ s with state := (edit (edit s ep referenced) ep referenced).state } : Shared _) =
          edit (edit s ep referenced) ep referenced from rfl, edit_self]
        exact valid₁
      · rw [show ({ s with state := (edit (edit s ep referenced) dp referenced).state } : Shared _) =
          edit (edit s ep referenced) dp referenced from rfl, edit_of_ne apart]
        exact valid₁
    · have run : (edit s ep referenced).state =
          if (s.state.ent ep).ref = 0 then (edit (edit s ep referenced) dp referenced).state
          else (edit s ep referenced).state := (if_neg unused).symm
      exact Machine.Ends.of_ok (congrArg (fun t => Except.ok (ep, t)) run.symm)
        ⟨h₁, ne, used₁, rfl, .inl valid₁⟩
  | none =>
    cases spare : s.state.order.reverse.find? fun e => (s.state.ent e).ref == 0 with
    | none => exact Machine.Ends.of_error rfl trivial
    | some ep =>
      have unused : (s.state.ent ep).ref = 0 := by simpa using List.find?_some spare
      have ne : ep ≠ old := by
        rintro rfl
        rw [h.entry] at unused
        omega
      refine Machine.Ends.of_ok (a := ep) (t := (edit s ep recycled).state) rfl
        ⟨?_, ne, ?_, rfl, .inr ⟨unused, rfl⟩⟩
      · exact h.edit ne (fun valid => absurd rfl valid) (h.parents ep)
      · exact (StaysUsed.refl s).edit_unused unused

/-- A name is looked up in a directory in use: of the volume nothing changes. -/
theorem dirlookup_apart (h : Apart fat old cs s₀ s) (notRoot : old ≠ root) (ne : dp ≠ old)
    (used : 0 < (s.state.ent dp).ref) {name : Name} (named : name ≠ [])
    (others : (s.state.ent dp).valid = 1 → NoneBegins fat cs s.state.disk.bytes (direntAt s dp)) :
    After me (dirlookup (fatDisk fat n) limit dp name) s fun _ t =>
      Apart fat old cs s₀ t ∧ StaysUsed s t ∧ t.state.disk.bytes = s.state.disk.bytes := by
  refine Prog.Ends.read_bind (Prog.Ends.ite (fun _ => Prog.Ends.panic trivial) fun dir => ?_)
  refine Prog.Ends.ite (fun _ => ?_) fun _ => Prog.Ends.ite (fun _ => ?_) fun _ => ?_
  · refine Prog.Ends.bind (edup_apart h ne) ?_
    rintro _ _ ⟨rfl, rfl, h₁, used₁⟩
    exact Prog.Ends.pure ⟨h₁, used₁, rfl⟩
  · refine Prog.Ends.ite (fun _ => ?_) fun _ => Prog.Ends.read_bind ?_
    · refine Prog.Ends.bind (edup_apart h notRoot.symm) ?_
      rintro _ _ ⟨rfl, rfl, h₁, used₁⟩
      exact Prog.Ends.pure ⟨h₁, used₁, rfl⟩
    · cases parent : (s.state.ent dp).parent with
      | none => exact Prog.Ends.pure ⟨h, StaysUsed.refl s, rfl⟩
      | some p =>
        have other : p ≠ old := fun eq => h.parents dp (eq ▸ parent)
        refine Prog.Ends.bind (edup_apart h other) ?_
        rintro _ _ ⟨rfl, rfl, h₁, used₁⟩
        exact Prog.Ends.pure ⟨h₁, used₁, rfl⟩
  · refine Prog.Ends.read_bind (Prog.Ends.ite (fun _ => ?_) fun valid => ?_)
    · exact Prog.Ends.pure ⟨h, StaysUsed.refl s, rfl⟩
    rw [not_not] at valid
    refine Prog.Ends.bind (eget_apart removed held h) ?_
    rintro ep t₁ ⟨h₁, notOld, used₁, disk₁, got⟩
    refine Prog.Ends.read_bind (Prog.Ends.ite (fun _ => ?_) fun fresh => ?_)
    · exact Prog.Ends.pure ⟨h₁, used₁, congrArg Mounted.bytes disk₁⟩
    obtain ⟨unused, rfl⟩ := got.resolve_left fresh
    have apart : dp ≠ ep := by
      rintro rfl
      omega
    have invalid : ((edit s ep recycled).state.ent ep).valid = 0 := by
      rw [edit_self]
      rfl
    have same : (edit s ep recycled).state.ent dp = s.state.ent dp := edit_of_ne apart
    have seen : direntAt (edit s ep recycled) dp = direntAt s dp := by
      rw [direntAt, same]
      rfl
    have isDir : (s.state.ent dp).isDir = true := by simpa using dir
    have away : Elsewhere cs (direntAt s dp) := h.elsewhere dp ne (by rw [valid]; decide)
    -- the entry that is being filled in is not valid before the end
    refine Prog.Ends.bind (R := fun found t => Apart fat old cs s₀ t ∧
      t.state.ent = (edit s ep recycled).state.ent ∧ t.state.disk.bytes = s.state.disk.bytes ∧
      (found.off.isSome = true → found.first_clus ∉ cs ∧ t.state.disk.cur_clus ep ∉ cs)) ?_ ?_
    · apply onDisk_after
      intro found disk run
      simp only [fatDisk] at run
      obtain ⟨⟨dp', ep', hit, off⟩, bytes, ⟨unchanged, ⟨-, cur⟩, into⟩, eq⟩ := onBytes_some
        (@lookFrom_spared _ _ _ _ (direntAt (edit s ep recycled) dp) (direntAt (edit s ep recycled) ep) _
          h₁.spared (seen ▸ away) (by rw [seen]; exact isDir) (by rw [seen]; exact valid)
          (show ((edit s ep recycled).state.ent ep).valid ≠ 1 by rw [invalid]; decide) named (by rw [seen]; exact others valid)) run
      cases eq
      refine ⟨((h₁.bytes (unchanged ▸ h₁.spared)).keep ne fun _ => cur).keep notOld ?_, rfl, unchanged, ?_⟩
      · intro some
        exact absurd invalid some
      · intro some
        cases hit with
        | false => cases some
        | true =>
          obtain ⟨first, cur'⟩ := into rfl
          refine ⟨first, ?_⟩
          show Function.update (Function.update s.state.disk.cur_clus dp dp'.cur_clus) ep ep'.cur_clus ep ∉ cs
          rw [Function.update_self]
          exact cur'
    rintro found t₂ ⟨h₂, ent₂, bytes₂, into⟩
    have invalid₂ : (t₂.state.ent ep).valid = 0 := by rw [ent₂, invalid]
    refine Prog.Ends.bind (setEntry_after (Q := fun _ t => t = edit t₂ ep fun d => { d with
      filename := found.filename, attr := found.attr, first_clus := found.first_clus
      file_size := found.file_size }) rfl) ?_
    rintro _ t₃ eq₃
    have invalid₃ : (t₃.state.ent ep).valid = 0 := by rw [eq₃, edit_self, invalid₂]
    have h₃ : Apart fat old cs s₀ t₃ := by
      rw [eq₃]
      exact h₂.edit notOld (fun some => absurd invalid₂ some) (h₂.parents ep)
    have used₃ : StaysUsed s t₃ := by
      rw [eq₃]
      exact (used₁.of_ent ent₂).edit_unused unused
    have first₃ : (t₃.state.ent ep).first_clus = found.first_clus := by rw [eq₃, edit_self]
    have disk₃ : t₃.state.disk = t₂.state.disk := by rw [eq₃]; rfl
    cases found_off : found.off with
    | some off =>
      obtain ⟨first, cur⟩ := into (by rw [found_off]; rfl)
      refine Prog.Ends.bind (edup_apart h₃ ne) ?_
      rintro _ t₄ ⟨rfl, eq₄, h₄, -⟩
      have ent₄ : t₄.state.ent ep = t₃.state.ent ep := by rw [eq₄, edit_of_ne (Ne.symm apart)]
      refine Prog.Ends.bind (setEntry_after (Q := fun _ t => t = edit t₄ ep fun d => { d with
        parent := some dp, off }) rfl) ?_
      rintro _ t₅ rfl
      have h₅ : Apart fat old cs s₀ (edit t₄ ep fun d => { d with parent := some dp, off }) := by
        apply h₄.edit notOld
        · intro some
          exact absurd (ent₄ ▸ invalid₃) some
        · exact fun eq => ne (Option.some.inj eq)
      refine Prog.Ends.bind (setEntry_after (Q := fun _ t => t = edit (edit t₄ ep fun d => { d with
        parent := some dp, off }) ep fun d => { d with valid := 1 }) rfl) ?_
      rintro _ t₆ rfl
      refine Prog.Ends.pure ⟨h₅.edit notOld (fun _ => ⟨?_, ?_⟩) (h₅.parents ep), ?_, ?_⟩
      · show ((edit t₄ ep _).state.ent ep).first_clus ∉ cs
        rw [edit_self, ent₄, first₃]
        exact first
      · show t₄.state.disk.cur_clus ep ∉ cs
        rw [eq₄]
        show t₃.state.disk.cur_clus ep ∉ cs
        rw [disk₃]
        exact cur
      · rw [eq₄]
        exact (((used₃.referenced dp).edit_unused unused).edit_unused unused)
      · show t₄.state.disk.bytes = _
        rw [eq₄]
        show t₃.state.disk.bytes = _
        rw [disk₃, bytes₂]
    | none =>
      refine Prog.Ends.bind (eput_fresh_after invalid₃) ?_
      rintro _ t₄ rfl
      refine Prog.Ends.pure ⟨h₃.edit_same notOld id rfl rfl, used₃.edit_unused unused, ?_⟩
      show t₃.state.disk.bytes = _
      rw [disk₃, bytes₂]

theorem ealloc_apart (h : Apart fat old cs s₀ s) (notRoot : old ≠ root) (ne : dp ≠ old)
    (used : 0 < (s.state.ent dp).ref) {name : Name} {attr : Nat}
    (named : ∀ name', Fat.formatname name = some name' → name' ≠ [])
    (others : (s.state.ent dp).valid = 1 → NoneBegins fat cs s.state.disk.bytes (direntAt s dp))
    (withheld : Withheld fat cs s.state.disk.bytes) :
    After me (ealloc (fatDisk fat n) limit dp name attr) s fun _ t => Apart fat old cs s₀ t := by
  refine Prog.Ends.read_bind (Prog.Ends.ite (fun _ => Prog.Ends.panic trivial) fun _ => ?_)
  refine Prog.Ends.ite (fun _ => Prog.Ends.pure h) fun valid => ?_
  rw [not_not] at valid
  cases legal : Fat.formatname name with
  | none => exact Prog.Ends.pure h
  | some name' =>
    refine Prog.Ends.bind
      (dirlookup_apart removed held h notRoot ne used (named name' legal) others) ?_
    rintro ⟨found, off⟩ t₁ ⟨h₁, used₁, bytes₁⟩
    cases found with
    | some ep => exact Prog.Ends.pure h₁
    | none =>
      obtain ⟨inUse₁, valid₁⟩ := used₁ dp used
      refine Prog.Ends.bind (eget_apart removed held h₁) ?_
      rintro ep t₂ ⟨h₂, notOld, used₂, disk₂, -⟩
      obtain ⟨-, valid₂⟩ := used₂ dp inUse₁
      refine Prog.Ends.bind elock_after ?_
      rintro _ t₃ ⟨-, same₃, locks₃⟩
      have h₃ := h₂.locks same₃ (locks₃ old notOld.symm)
      refine Prog.Ends.bind (fillEntry_apart h₃ notOld ne ?_ ?_) ?_
      · rw [same₃, disk₂, bytes₁]
        exact withheld
      · rw [same₃, valid₂, valid₁, valid]
        decide
      rintro _ t₄ h₄
      refine Prog.Ends.bind eunlock_after ?_
      rintro _ t₅ ⟨same₅, locks₅⟩
      exact Prog.Ends.pure (h₄.locks same₅ (locks₅ old notOld.symm))

section Directory

variable (notRoot : old ≠ root) (file : (s₀.state.ent old).isDir = false) {name : Name}
  (others : (s.state.ent dp).valid = 1 → NoneBegins fat cs s.state.disk.bytes (direntAt s dp))
include notRoot file others

/-- The file itself is no directory. -/
theorem lookupEntry_apart (h : Apart fat old cs s₀ s) (named : name ≠ []) :
    After me (lookupEntry (fatDisk fat n) limit dp name) s fun _ t => Apart fat old cs s₀ t := by
  refine Prog.Ends.bind elock_after ?_
  rintro _ t₁ ⟨used, same₁, locks₁⟩
  rcases eq_or_ne dp old with rfl | ne
  · refine Prog.Ends.bind (R := fun _ _ => False) (Prog.Ends.read_bind ?_) fun _ _ => False.elim
    rw [same₁, h.entry, if_pos file]
    exact Prog.Ends.panic trivial
  have h₁ := h.locks same₁ (locks₁ old ne.symm)
  refine Prog.Ends.bind (dirlookup_apart removed held h₁ notRoot ne (same₁ ▸ used) named ?_) ?_
  · simpa only [direntAt, same₁] using others
  rintro _ t₂ ⟨h₂, -, -⟩
  refine Prog.Ends.bind eunlock_after ?_
  rintro _ t₃ ⟨same₃, locks₃⟩
  exact Prog.Ends.pure (h₂.locks same₃ (locks₃ old ne.symm))

theorem createEntry_apart (h : Apart fat old cs s₀ s) {attr : Nat}
    (named : ∀ name', Fat.formatname name = some name' → name' ≠ [])
    (withheld : Withheld fat cs s.state.disk.bytes) :
    After me (createEntry (fatDisk fat n) limit dp name attr) s fun _ t => Apart fat old cs s₀ t := by
  refine Prog.Ends.bind elock_after ?_
  rintro _ t₁ ⟨used, same₁, locks₁⟩
  rcases eq_or_ne dp old with rfl | ne
  · refine Prog.Ends.bind (R := fun _ _ => False) (Prog.Ends.read_bind ?_) fun _ _ => False.elim
    rw [same₁, h.entry, if_pos file]
    exact Prog.Ends.panic trivial
  have h₁ := h.locks same₁ (locks₁ old ne.symm)
  refine Prog.Ends.bind (ealloc_apart removed held h₁ notRoot ne (same₁ ▸ used) named ?_ ?_) ?_
  · simpa only [direntAt, same₁] using others
  · rwa [same₁]
  rintro _ t₂ h₂
  refine Prog.Ends.bind eunlock_after ?_
  rintro _ t₃ ⟨same₃, locks₃⟩
  exact Prog.Ends.pure (h₂.locks same₃ (locks₃ old ne.symm))

end Directory

end Removed

/-! ### Reading and writing -/

theorem eread_apart (h : Apart fat old cs s₀ s) (ne : e ≠ old) (valid : (s.state.ent e).valid ≠ 0)
    (off count : Nat) :
    After me (eread fat e off count) s fun _ t => Apart fat old cs s₀ t := by
  apply onDisk_after
  intro a disk run
  obtain ⟨⟨r, got, e'⟩, bytes, ⟨unchanged, -, cur⟩, eq⟩ :=
    onBytes_some (Fat.eread_spared h.spared (h.elsewhere e ne valid) off count) run
  cases eq
  exact (h.bytes (unchanged ▸ h.spared)).keep ne fun _ => cur

theorem ewrite_apart (h : Apart fat old cs s₀ s) (ne : e ≠ old) (valid : (s.state.ent e).valid ≠ 0)
    (withheld : Withheld fat cs s.state.disk.bytes) (off : Nat) (bytes : List UInt8) :
    After me (ewrite fat e off bytes) s fun _ t => Apart fat old cs s₀ t := by
  refine Prog.Ends.bind (R := fun r t => Apart fat old cs s₀ t ∧ r.2.first_clus ∉ cs ∧
    t.state.disk.cur_clus e ∉ cs) ?_ ?_
  · apply onDisk_after
    intro a disk run
    obtain ⟨⟨r, e'⟩, after, ⟨spared, first, cur⟩, eq⟩ :=
      onBytes_some (Fat.ewrite_spared h.spared (h.elsewhere e ne valid) withheld off) run
    cases eq
    refine ⟨(h.bytes spared).keep ne fun _ => cur, first, ?_⟩
    show Function.update s.state.disk.cur_clus e e'.cur_clus e ∉ cs
    rw [Function.update_self]
    exact cur
  · rintro ⟨r, e'⟩ t ⟨h₁, first, cur⟩
    refine Prog.Ends.bind (setEntry_after (Q := fun _ t => Apart fat old cs s₀ t)
      (h₁.edit ne (fun _ => ⟨first, cur⟩) (h₁.parents e))) ?_
    exact fun _ _ h₂ => Prog.Ends.pure h₂

/-- What `fileread` and `filewrite` do of an entry, under its lock. -/
theorem readEntry_apart (h : Apart fat old cs s₀ s) (ne : e ≠ old) (valid : (s.state.ent e).valid ≠ 0)
    (p : Caller) (off count : Nat) :
    After me (readEntry fat p e off count) s fun _ t => Apart fat old cs s₀ t := by
  have frees : ∀ {t : Shared (Ecache Mounted)} {γ : Type} (r : γ), Apart fat old cs s₀ t →
      After me (do
        eunlock e
        return r) t fun _ u => Apart fat old cs s₀ u := by
    intro t γ r h₁
    refine Prog.Ends.bind eunlock_after ?_
    rintro _ u ⟨same, locks⟩
    exact Prog.Ends.pure (h₁.locks same (locks old ne.symm))
  refine Prog.Ends.bind elock_after ?_
  rintro _ t₁ ⟨-, same₁, locks₁⟩
  have h₁ := h.locks same₁ (locks₁ old ne.symm)
  refine Prog.Ends.read_bind (Prog.Ends.ite (fun _ => frees _ h₁) fun _ => ?_)
  refine Prog.Ends.ite (fun _ => frees _ h₁) fun _ => ?_
  refine Prog.Ends.bind (R := fun _ t => Apart fat old cs s₀ t) ?_ fun r t h₂ => frees (r, p) h₂
  refine Prog.Ends.ite (fun _ => Prog.Ends.pure h₁) fun _ => ?_
  refine Prog.Ends.ite (fun _ => Prog.Ends.pure h₁) fun _ => ?_
  exact eread_apart h₁ ne (same₁ ▸ valid) off count

theorem writeEntry_apart (h : Apart fat old cs s₀ s) (ne : e ≠ old) (valid : (s.state.ent e).valid ≠ 0)
    (withheld : Withheld fat cs s.state.disk.bytes) (p : Caller) (off : Nat) (bytes : List UInt8) :
    After me (writeEntry fat p e off bytes) s fun _ t => Apart fat old cs s₀ t := by
  have frees : ∀ {t : Shared (Ecache Mounted)} {γ : Type} (r : γ), Apart fat old cs s₀ t →
      After me (do
        eunlock e
        return r) t fun _ u => Apart fat old cs s₀ u := by
    intro t γ r h₁
    refine Prog.Ends.bind eunlock_after ?_
    rintro _ u ⟨same, locks⟩
    exact Prog.Ends.pure (h₁.locks same (locks old ne.symm))
  refine Prog.Ends.bind elock_after ?_
  rintro _ t₁ ⟨-, same₁, locks₁⟩
  have h₁ := h.locks same₁ (locks₁ old ne.symm)
  refine Prog.Ends.read_bind (Prog.Ends.ite (fun _ => frees _ h₁) fun _ => ?_)
  refine Prog.Ends.ite (fun _ => frees _ h₁) fun _ => ?_
  refine Prog.Ends.bind (ewrite_apart h₁ ne (same₁ ▸ valid) (same₁ ▸ withheld) off bytes) ?_
  exact fun r t h₂ => frees _ h₂

end AvxKernel.Fs
