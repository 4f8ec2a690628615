import AvxKernel.Fs.Ecache
import AvxKernel.Lib.RefCount
import AvxKernel.Lib.Triple

/-! What every reference count of the cache is made of: the children of the entry
that are in use, and the references that processes and files hold. Each call of
the cache is specified by the references and locks that it takes and gives back. -/
namespace AvxKernel.Fs

variable {δ α : Type} {s t : Shared (Ecache δ)} {T T' : Nat → Nat} {H : Nat → Option Nat} {n : Nat}
  {X X' : Option Nat}
  {e d dp me limit : Nat} {disk : Disk δ} {g : Dirent → Dirent}

/-- `root` and `ecache.entries` -/
def slots : Finset Nat := Finset.range (ENTRY_CACHE_NUM + 1)

/-- The parent that an entry in use holds a reference to. -/
def Dirent.link (d : Dirent) : Option Nat := if 0 < d.ref ∧ d.valid ≠ 0 then d.parent else none

/-- The number of entries in use whose parent is the one given. -/
def Ecache.children (s : Ecache δ) (d : Nat) : Nat := refs slots (fun c => (s.ent c).link) d

/-- A single reference. -/
def one (e : Nat) : Nat → Nat := fun d => if e = d then 1 else 0

@[simp] theorem one_self : one e e = 1 := if_pos rfl

/-- Beside the children of each entry, there are `T` references to it; the locks
are held as in `H`, and `n` have been freed by others than their holders. An entry
in use is valid or has been removed, except for `X`, which is being filled. -/
structure Owes (s : Shared (Ecache δ)) (T : Nat → Nat) (H : Nat → Option Nat) (n : Nat)
    (X : Option Nat) : Prop where
  holder : s.holder = H
  stray : s.stray = n
  listed : ∀ e ∈ s.state.order, e ∈ slots ∧ e ≠ root
  top : (s.state.ent root).parent = none
  rootValid : (s.state.ent root).valid ≠ 0
  settled : ∀ e, 0 < (s.state.ent e).ref → (s.state.ent e).valid = 0 → some e = X
  inside : ∀ e, 0 < (s.state.ent e).ref → e ∈ slots
  linked : ∀ e, e ≠ root → 0 < (s.state.ent e).ref → (s.state.ent e).valid ≠ 0 →
    ∃ p ∈ slots, (s.state.ent e).parent = some p
  count : ∀ d, (s.state.ent d).ref = T d + s.state.children d

theorem Owes.pos (h : Owes s T H n X) (held : 0 < T d) : 0 < (s.state.ent d).ref := by
  rw [h.count]
  omega

theorem Owes.nonneg (h : Owes s T H n X) (d : Nat) : 0 ≤ (s.state.ent d).ref := by
  rw [h.count]
  omega

/-- The parent of an entry in use is in use. -/
theorem Owes.parent_pos (h : Owes s T H n X) (used : 0 < (s.state.ent e).ref)
    (valid : (s.state.ent e).valid ≠ 0) {p : Nat} (parent : (s.state.ent e).parent = some p) :
    0 < (s.state.ent p).ref := by
  have points : (s.state.ent e).link = some p := by rw [Dirent.link, if_pos ⟨used, valid⟩, parent]
  have child : 0 < refs slots (fun c => (s.state.ent c).link) p :=
    refs_pos (h.inside e used) points
  rw [h.count, Ecache.children]
  omega

/-! ### Changes of one entry -/

/-- The state with one entry changed. -/
def edit (s : Shared (Ecache δ)) (e : Nat) (g : Dirent → Dirent) : Shared (Ecache δ) :=
  { s with state := s.state.set e g }

@[simp] theorem edit_holder : (edit s e g).holder = s.holder := rfl

@[simp] theorem edit_self : (edit s e g).state.ent e = g (s.state.ent e) := by
  simp [edit, Ecache.set]

theorem edit_of_ne (ne : d ≠ e) : (edit s e g).state.ent d = s.state.ent d := by
  simp [edit, Ecache.set, ne]

/-- What an entry points to, as a count. -/
def Dirent.points (d : Dirent) (p : Nat) : Nat := if d.link = some p then 1 else 0

theorem children_edit (he : e ∈ slots) (p : Nat) :
    (edit s e g).state.children p + (s.state.ent e).points p =
      s.state.children p + (g (s.state.ent e)).points p := by
  have moved := refs_update (fun c => (s.state.ent c).link) he (g (s.state.ent e)).link p
  have same : (fun c => ((edit s e g).state.ent c).link) =
      Function.update (fun c => (s.state.ent c).link) e (g (s.state.ent e)).link := by
    funext c
    rcases eq_or_ne c e with rfl | ne
    · rw [edit_self, Function.update_self]
    · rw [edit_of_ne ne, Function.update_of_ne ne]
  rw [Ecache.children, same]
  exact moved

/-- One entry changes: what it points to before and after, and the change of its
own count, are balanced by `T'`. -/
theorem Owes.edit (h : Owes s T H n X) (he : e ∈ slots)
    (top : e = root → (g (s.state.ent e)).parent = none ∧ (g (s.state.ent e)).valid ≠ 0)
    (linked : e ≠ root → 0 < (g (s.state.ent e)).ref → (g (s.state.ent e)).valid ≠ 0 →
      ∃ p ∈ slots, (g (s.state.ent e)).parent = some p)
    (settled : 0 < (g (s.state.ent e)).ref → (g (s.state.ent e)).valid = 0 → some e = X')
    (others : ∀ d, d ≠ e → some d = X → some d = X')
    (balance : ∀ d, (T' d : Int) + (g (s.state.ent e)).points d + (if e = d then (s.state.ent e).ref
      else 0) = T d + (s.state.ent e).points d + if e = d then (g (s.state.ent e)).ref else 0) :
    Owes (edit s e g) T' H n X' where
  holder := h.holder
  stray := h.stray
  listed := h.listed
  top := by
    rcases eq_or_ne root e with rfl | ne
    · rw [edit_self]
      exact (top rfl).1
    · rw [edit_of_ne ne]
      exact h.top
  rootValid := by
    rcases eq_or_ne root e with rfl | ne
    · rw [edit_self]
      exact (top rfl).2
    · rw [edit_of_ne ne]
      exact h.rootValid
  settled d used zero := by
    rcases eq_or_ne d e with rfl | ne
    · rw [edit_self] at used zero
      exact settled used zero
    · rw [edit_of_ne ne] at used zero
      exact others d ne (h.settled d used zero)
  inside d used := by
    rcases eq_or_ne d e with rfl | ne
    · exact he
    · rw [edit_of_ne ne] at used
      exact h.inside d used
  linked d notRoot used valid := by
    rcases eq_or_ne d e with rfl | ne
    · rw [edit_self] at used valid ⊢
      exact linked notRoot used valid
    · rw [edit_of_ne ne] at used valid ⊢
      exact h.linked d notRoot used valid
  count d := by
    have before := h.count d
    have moved := children_edit (s := s) (g := g) he d
    have balance := balance d
    rcases eq_or_ne e d with rfl | ne
    · rw [if_pos rfl, if_pos rfl] at balance
      rw [edit_self]
      omega
    · rw [if_neg ne, if_neg ne] at balance
      rw [edit_of_ne (Ne.symm ne)]
      omega

/-- Fields that no count depends on. -/
theorem Owes.edit_fields (h : Owes s T H n X) (he : e ∈ slots)
    (ref : (g (s.state.ent e)).ref = (s.state.ent e).ref)
    (valid : (g (s.state.ent e)).valid = (s.state.ent e).valid)
    (parent : (g (s.state.ent e)).parent = (s.state.ent e).parent) :
    Owes (Fs.edit s e g) T H n X := by
  refine h.edit he ?_ ?_ ?_ (fun _ _ => id) fun d => ?_
  · rintro rfl
    rw [parent, valid]
    exact ⟨h.top, h.rootValid⟩
  · rw [ref, valid, parent]
    exact h.linked e
  · rw [ref, valid]
    exact h.settled e
  · rw [Dirent.points, Dirent.points, Dirent.link, Dirent.link, ref, valid, parent]

/-- A change of the count alone, where the entry is in use before and after, is not
valid, or is the root. -/
theorem Owes.edit_ref (h : Owes s T H n X) (he : e ∈ slots) {r : Int}
    (same : (0 < (s.state.ent e).ref ∧ 0 < r) ∨ (s.state.ent e).valid = 0 ∨ e = root)
    (settled : 0 < r → (s.state.ent e).valid = 0 → some e = X')
    (others : ∀ d, d ≠ e → some d = X → some d = X')
    (balance : ∀ d, (T' d : Int) + (if e = d then (s.state.ent e).ref else 0) =
      T d + if e = d then r else 0) :
    Owes (Fs.edit s e fun d => { d with ref := r }) T' H n X' := by
  have link : ({ s.state.ent e with ref := r } : Dirent).link = (s.state.ent e).link := by
    rcases same with ⟨before, after⟩ | zero | rfl
    · simp only [Dirent.link, before, after, true_and]
    · simp only [Dirent.link, zero, ne_eq, not_true_eq_false, and_false]
    · simp only [Dirent.link, h.top, ite_self]
  refine h.edit he ?_ ?_ settled others fun d => ?_
  · rintro rfl
    exact ⟨h.top, h.rootValid⟩
  · intro notRoot used valid
    rcases same with ⟨before, -⟩ | zero | rfl
    · exact h.linked e notRoot before valid
    · exact absurd zero valid
    · exact absurd rfl notRoot
  · rw [Dirent.points, Dirent.points, link]
    have := balance d
    dsimp only
    omega

/-- Without a change of the entries. -/
theorem Owes.same {H' : Nat → Option Nat} (h : Owes s T H n X) (ent : t.state.ent = s.state.ent)
    (listed : ∀ e ∈ t.state.order, e ∈ slots ∧ e ≠ root) (holder : t.holder = H')
    (stray : t.stray = n) : Owes t T H' n X where
  holder := holder
  stray := stray
  listed := listed
  top := by rw [ent]; exact h.top
  rootValid := by rw [ent]; exact h.rootValid
  settled := by rw [ent]; exact h.settled
  inside := by rw [ent]; exact h.inside
  linked := by rw [ent]; exact h.linked
  count d := by
    rw [ent, Ecache.children, ent]
    exact h.count d

end AvxKernel.Fs
