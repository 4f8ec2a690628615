import AvxKernel.Fd.Calls
import AvxKernel.Lib.RefCount
import Mathlib.Algebra.Group.Pi.Basic
import Mathlib.Data.Finset.Prod

/-! The reference count of an open file is the number of descriptors that point
to it, as long as `sys_dup3` does not overwrite a descriptor in use. Within a
call the two differ by what the call has in hand. -/
namespace AvxKernel.Fd

variable {σ E P α : Type} {b : Below σ E P} {k k' : Kernel σ E P} {p q f fd : Nat}
  {X : Option Nat} {d : Nat → Int}

/-- The descriptors of all processes. -/
def places : Finset (Nat × Nat) := Finset.range NPROC ×ˢ Finset.range NOFILE

theorem mem_places : (p, fd) ∈ places ↔ p < NPROC ∧ fd < NOFILE := by
  simp [places]

def Kernel.slots (k : Kernel σ E P) (i : Nat × Nat) : Option Nat := (k.proc i.1).ofile i.2

/-- The number of descriptors that point to a file. -/
def Kernel.descriptors (k : Kernel σ E P) (f : Nat) : Nat := refs places k.slots f

/-- Every reference count is the number of descriptors, and only live processes
have any. -/
structure Balanced (k : Kernel σ E P) : Prop where
  inTable : ∀ q < NPROC, ∀ fd < NOFILE, ∀ f, (k.proc q).ofile fd = some f → f < NFILE
  empty : ∀ q < NPROC, (k.proc q).state ≠ .live → ∀ fd < NOFILE, (k.proc q).ofile fd = none
  count : ∀ f < NFILE, (k.file f).ref = k.descriptors f

/-- In the middle of a call of process `p`: the counts are off by `d`, and the
child `X` that is being made may have descriptors as well. -/
structure Owes (k : Kernel σ E P) (p : Nat) (X : Option Nat) (d : Nat → Int) : Prop where
  place : p < NPROC
  live : (k.proc p).state = .live
  inTable : ∀ q < NPROC, ∀ fd < NOFILE, ∀ f, (k.proc q).ofile fd = some f → f < NFILE
  empty : ∀ q < NPROC, (k.proc q).state ≠ .live → some q ≠ X → ∀ fd < NOFILE,
    (k.proc q).ofile fd = none
  surplus : ∀ f < NFILE, ((k.file f).ref : Int) = k.descriptors f + d f

theorem Balanced.owes (h : Balanced k) (place : p < NPROC) (live : (k.proc p).state = .live) :
    Owes k p none 0 where
  place := place
  live := live
  inTable := h.inTable
  empty q hq dead _ := h.empty q hq dead
  surplus f hf := by simp [h.count f hf]

theorem Owes.balanced (h : Owes k p none 0) : Balanced k where
  inTable := h.inTable
  empty q hq dead := h.empty q hq dead (by simp)
  count f hf := by
    have := h.surplus f hf
    simpa using this

/-- What a pointer counts for each file. -/
def held (v : Option Nat) : Nat → Int := fun f => if v = some f then 1 else 0

@[simp] theorem held_none : held none = 0 := rfl

/-! ### Calls that touch no count and no descriptor -/

structure Quiet (k k' : Kernel σ E P) : Prop where
  ref : ∀ f, (k'.file f).ref = (k.file f).ref
  ofile : ∀ q, (k'.proc q).ofile = (k.proc q).ofile
  state : ∀ q, (k'.proc q).state = (k.proc q).state

instance : Std.Refl (@Quiet σ E P) where
  refl _ := ⟨fun _ => rfl, fun _ => rfl, fun _ => rfl⟩

instance : IsTrans (Kernel σ E P) Quiet where
  trans _ _ _ h h' :=
    ⟨fun f => (h'.ref f).trans (h.ref f), fun q => (h'.ofile q).trans (h.ofile q),
      fun q => (h'.state q).trans (h.state q)⟩

theorem Quiet.slots (h : Quiet k k') : k'.slots = k.slots := by
  funext i
  rw [Kernel.slots, Kernel.slots, h.ofile]

theorem Owes.quiet (h : Owes k p X d) (same : Quiet k k') : Owes k' p X d where
  place := h.place
  live := by rw [same.state, h.live]
  inTable q hq fd hfd f := by
    rw [same.ofile]
    exact h.inTable q hq fd hfd f
  empty q hq := by
    rw [same.ofile, same.state]
    exact h.empty q hq
  surplus f hf := by
    rw [same.ref, Kernel.descriptors, same.slots]
    exact h.surplus f hf

/-- The processes are as they were, too. -/
structure Still (k k' : Kernel σ E P) : Prop where
  ref : ∀ f, (k'.file f).ref = (k.file f).ref
  proc : k'.proc = k.proc

instance : Std.Refl (@Still σ E P) where
  refl _ := ⟨fun _ => rfl, rfl⟩

instance : IsTrans (Kernel σ E P) Still where
  trans _ _ _ h h' := ⟨fun f => (h'.ref f).trans (h.ref f), h'.proc.trans h.proc⟩

theorem Still.quiet (h : Still k k') : Quiet k k' :=
  ⟨h.ref, fun q => by rw [h.proc], fun q => by rw [h.proc]⟩

theorem onBelow_still (x : Machine σ α) : Machine.Frame Still (onBelow (E := E) (P := P) x) := by
  refine Machine.Frame.zoom (R := fun _ _ => True) (fun _ _ _ _ => trivial) fun k s _ => ?_
  exact ⟨fun _ => rfl, rfl⟩

theorem setFile_still (f : Nat) (g : File E P → File E P) (same : ∀ file, (g file).ref = file.ref) :
    Machine.Frame Still (@setFile σ E P f g) := by
  refine Machine.Frame.modify _ fun k => ⟨fun f' => ?_, rfl⟩
  rcases eq_or_ne f' f with rfl | ne
  · simp [same]
  · simp [ne]

theorem onBelow_quiet (x : Machine σ α) : Machine.Frame Quiet (onBelow (E := E) (P := P) x) :=
  (onBelow_still x).mono fun _ _ => Still.quiet

theorem setFile_quiet (f : Nat) (g : File E P → File E P) (same : ∀ file, (g file).ref = file.ref) :
    Machine.Frame Quiet (@setFile σ E P f g) :=
  (setFile_still f g same).mono fun _ _ => Still.quiet

theorem setProc_quiet (q : Nat) (g : Proc E → Proc E)
    (same : ∀ pr, (g pr).ofile = pr.ofile ∧ (g pr).state = pr.state) :
    Machine.Frame Quiet (@setProc σ E P q g) := by
  refine Machine.Frame.modify _ fun k => ⟨fun _ => rfl, fun q' => ?_, fun q' => ?_⟩
  all_goals
    rcases eq_or_ne q' q with rfl | ne
    · simp [same]
    · simp [ne]

/-! ### Descriptors and counts -/

/-- The state in which a descriptor holds `v`. -/
def Kernel.put (k : Kernel σ E P) (q fd : Nat) (v : Option Nat) : Kernel σ E P :=
  let pr := k.proc q
  { k with proc := Function.update k.proc q { pr with ofile := Function.update pr.ofile fd v } }

section Put

variable {v : Option Nat}

@[simp] theorem put_file : (k.put q fd v).file = k.file := rfl

@[simp] theorem put_state (r : Nat) : ((k.put q fd v).proc r).state = (k.proc r).state := by
  rcases eq_or_ne r q with rfl | ne
  · simp [Kernel.put]
  · simp [Kernel.put, ne]

@[simp] theorem put_limit (r : Nat) : ((k.put q fd v).proc r).limit = (k.proc r).limit := by
  rcases eq_or_ne r q with rfl | ne
  · simp [Kernel.put, Proc.limit]
  · simp [Kernel.put, ne]

@[simp] theorem put_slots (k : Kernel σ E P) (q fd : Nat) (v : Option Nat) :
    (k.put q fd v).slots = Function.update k.slots (q, fd) v := by
  funext ⟨r, fd'⟩
  rcases eq_or_ne r q with rfl | ne
  · rcases eq_or_ne fd' fd with rfl | ne'
    · simp [Kernel.put, Kernel.slots]
    · simp [Kernel.put, Kernel.slots, ne']
  · simp [Kernel.put, Kernel.slots, ne]

theorem put_here : ((k.put q fd v).proc q).ofile fd = v := by
  simp [Kernel.put]

theorem put_other {r fd' : Nat} (ne : (r, fd') ≠ (q, fd)) :
    ((k.put q fd v).proc r).ofile fd' = (k.proc r).ofile fd' := by
  have := congrFun (put_slots k q fd v) (r, fd')
  rwa [Function.update_of_ne ne] at this

theorem put_owes (h : Owes k p X d) (hq : q < NPROC) (hfd : fd < NOFILE)
    (may : v ≠ none → (k.proc q).state = .live ∨ some q = X)
    (inTable : ∀ f, v = some f → f < NFILE) :
    Owes (k.put q fd v) p X (d + held ((k.proc q).ofile fd) - held v) where
  place := h.place
  live := by rw [put_state, h.live]
  inTable r hr fd' hfd' f := by
    rcases eq_or_ne (r, fd') (q, fd) with eq | ne
    · cases eq
      rw [put_here]
      exact inTable f
    · rw [put_other ne]
      exact h.inTable r hr fd' hfd' f
  empty r hr dead notX fd' hfd' := by
    rw [put_state] at dead
    rcases eq_or_ne (r, fd') (q, fd) with eq | ne
    · cases eq
      rw [put_here]
      by_contra some_v
      exact (may some_v).elim dead notX
    · rw [put_other ne]
      exact h.empty r hr dead notX fd' hfd'
  surplus f hf := by
    have before := h.surplus f hf
    have moved := refs_update k.slots (mem_places.mpr ⟨hq, hfd⟩) v f
    rw [Kernel.descriptors] at before ⊢
    rw [put_slots, put_file, before]
    simp only [Pi.add_apply, Pi.sub_apply, held]
    simp only [Kernel.slots] at moved
    have moved : ((refs places (Function.update k.slots (q, fd) v) f : Nat) : Int) +
        (if (k.proc q).ofile fd = some f then 1 else 0) =
        refs places k.slots f + (if v = some f then 1 else 0) := by exact_mod_cast moved
    omega

end Put

/-- A change of one count. -/
theorem setFile_owes {c : Int} {g : File E P → File E P} (h : Owes k p X d)
    (ref : ((g (k.file f)).ref : Int) = (k.file f).ref + c) :
    Owes { k with file := Function.update k.file f (g (k.file f)) } p X
      (d + fun f' => if f = f' then c else 0) where
  place := h.place
  live := h.live
  inTable := h.inTable
  empty := h.empty
  surplus f' hf' := by
    have before := h.surplus f' hf'
    have same : Kernel.descriptors
        { k with file := Function.update k.file f (g (k.file f)) } f' = k.descriptors f' := rfl
    rw [same, Pi.add_apply]
    rcases eq_or_ne f f' with rfl | ne
    · simp only [Function.update_self, if_true]
      omega
    · simp only [Function.update_of_ne (Ne.symm ne), if_neg ne]
      omega

theorem filealloc_owes {r : Option Nat} (h : Owes k p X d) (run : filealloc k = .ok (r, k')) :
    Owes k' p X (d + held r) ∧ k'.proc = k.proc ∧ ∀ f, r = some f → f < NFILE := by
  rw [filealloc, Machine.bind_of_ok (Machine.get_run k)] at run
  cases found : (List.range NFILE).find? fun f => (k.file f).ref == 0 with
  | none =>
    rw [found] at run
    cases run
    exact ⟨by simpa using h, rfl, by simp⟩
  | some f =>
    rw [found] at run
    have free := List.find?_some found
    have member := List.mem_of_find?_eq_some found
    rw [List.mem_range] at member
    rw [beq_iff_eq] at free
    cases run
    refine ⟨?_, rfl, fun f' eq => (Option.some.inj eq) ▸ member⟩
    have := setFile_owes (g := fun file => { file with ref := 1 }) (c := 1) (f := f) h
      (by simp [free])
    refine cast ?_ this
    congr 1
    funext f'
    simp [held]

theorem filedup_owes {r : Nat} (h : Owes k p X d) (run : filedup f k = .ok (r, k')) :
    r = f ∧ Owes k' p X (d + held (some f)) ∧ k'.proc = k.proc := by
  rw [filedup, Machine.bind_of_ok (Machine.get_run k)] at run
  split at run
  · cases run
  · cases run
    refine ⟨rfl, ?_, rfl⟩
    have := setFile_owes (g := fun file => { file with ref := file.ref + 1 }) (c := 1) (f := f) h
      (by simp)
    refine cast ?_ this
    congr 1
    funext f'
    simp [held]

theorem release_still (ff : File E P) : Machine.Frame Still (release b ff) := by
  rw [release]
  split
  · exact onBelow_still _
  · exact onBelow_still _
  · exact Machine.Frame.halt _
  · exact Machine.Frame.halt _
  · exact Machine.Frame.pure _

theorem fileclose_owes (h : Owes k p X d) (run : fileclose b f k = .ok ((), k')) :
    Owes k' p X (d - held (some f)) ∧ (∀ q, (k'.proc q).ofile = (k.proc q).ofile) ∧
    ∀ q, (k'.proc q).state = (k.proc q).state := by
  rw [fileclose, Machine.bind_of_ok (Machine.get_run k)] at run
  have minus : (d + fun f' => if f = f' then (-1 : Int) else 0) = d - held (some f) := by
    funext f'
    simp only [Pi.add_apply, Pi.sub_apply, held, Option.some.injEq]
    split <;> omega
  split at run
  · cases run
  · rename_i referred
    split at run
    · cases run
      have := setFile_owes (g := fun file => { file with ref := file.ref - 1 }) (c := -1) (f := f) h
        (by simp; omega)
      rw [minus] at this
      exact ⟨this, fun _ => rfl, fun _ => rfl⟩
    · obtain ⟨_, k₁, cleared, released⟩ := Machine.bind_ok.mp run
      cases cleared
      have := setFile_owes (g := fun file => { file with ref := 0, type := .none }) (c := -1)
        (f := f) h (by simp; omega)
      rw [minus] at this
      have quiet := (release_still _ _ _ _ released).quiet
      exact ⟨this.quiet quiet, quiet.ofile, quiet.state⟩

theorem Proc.limit_le (pr : Proc E) : pr.limit ≤ NOFILE := by
  rw [Proc.limit]
  split
  · exact Nat.le_of_lt ‹_›
  · exact Nat.le_refl _

/-- A new descriptor takes over a reference. -/
theorem fdalloc2_owes {start : Int} {r : Option Nat} (h : Owes k p X d) (hf : f < NFILE)
    (run : fdalloc2 p f start k = .ok (r, k')) :
    (r = none ∧ k' = k) ∨ ∃ fd < NOFILE, r = some fd ∧ (k.proc p).ofile fd = none ∧
      k' = k.put p fd (some f) ∧ Owes k' p X (d - held (some f)) := by
  rw [fdalloc2, Machine.bind_of_ok (Machine.get_run k)] at run
  cases found : (List.range (k.proc p).limit).find?
      fun fd => start.toNat ≤ fd && ((k.proc p).ofile fd).isNone with
  | none =>
    rw [found] at run
    cases run
    exact .inl ⟨rfl, rfl⟩
  | some fd =>
    rw [found] at run
    have free := List.find?_some found
    have member := List.mem_of_find?_eq_some found
    rw [List.mem_range] at member
    rw [Bool.and_eq_true, Option.isNone_iff_eq_none] at free
    have hfd : fd < NOFILE := Nat.lt_of_lt_of_le member (Proc.limit_le _)
    dsimp only at run
    split at run
    · cases run
      exact .inl ⟨rfl, rfl⟩
    · cases run
      have put := put_owes h h.place hfd (fun _ => .inl h.live)
        fun f' eq => (Option.some.inj eq) ▸ hf
      rw [free.2, held_none, add_zero] at put
      exact .inr ⟨fd, hfd, rfl, free.2, rfl, put⟩

theorem argfd_run {pfd : Bool} {n : Int} {r : Option Nat} (run : argfd p pfd n k = .ok (r, k')) :
    k' = k ∧ ∀ f, r = some f → n.toNat < NOFILE ∧ (k.proc p).ofile n.toNat = some f := by
  rw [argfd, Machine.bind_of_ok (Machine.get_run k)] at run
  split at run
  · split at run
    · cases run
      exact ⟨rfl, by simp⟩
    · cases run
  · split at run
    · cases run
      exact ⟨rfl, by simp⟩
    · rename_i inside
      cases run
      refine ⟨rfl, fun f points => ⟨?_, points⟩⟩
      omega

theorem argfd_range {pfd : Bool} {n : Int} (run : argfd p pfd n k = .ok (some f, k')) :
    0 ≤ n ∧ n < NOFILE := by
  rw [argfd, Machine.bind_of_ok (Machine.get_run k)] at run
  split at run
  · split at run <;> cases run
  · split at run
    · cases run
    · omega

theorem argfd_none {pfd : Bool} {n : Int} (run : argfd p pfd n k = .ok (none, k')) (low : 0 ≤ n)
    (high : n < NOFILE) : (k.proc p).ofile n.toNat ≠ some f := by
  rw [argfd, Machine.bind_of_ok (Machine.get_run k), if_neg (by omega), if_neg (by omega)] at run
  intro points
  rw [points] at run
  cases run

theorem Owes.argfd {pfd : Bool} {n : Int} (h : Owes k p X d)
    (run : argfd p pfd n k = .ok (some f, k')) :
    k' = k ∧ n.toNat < NOFILE ∧ (k.proc p).ofile n.toNat = some f ∧ f < NFILE := by
  obtain ⟨same, found⟩ := argfd_run run
  obtain ⟨hfd, points⟩ := found f rfl
  exact ⟨same, hfd, points, h.inTable p h.place _ hfd f points⟩

/-- What `allocFd` returns, a file with a descriptor, is in balance. -/
theorem allocFd_owes {r : Option (Nat × Nat)} (h : Owes k p X d)
    (run : allocFd b p k = .ok (r, k')) : Owes k' p X d := by
  obtain ⟨f, k₁, allocated, rest⟩ := Machine.bind_ok.mp run
  obtain ⟨h₁, -, table⟩ := filealloc_owes h allocated
  cases f with
  | none =>
    cases rest
    simpa using h₁
  | some f =>
    obtain ⟨found, k₂, pointed, rest₂⟩ := Machine.bind_ok.mp rest
    rcases fdalloc2_owes h₁ (table f rfl) pointed with ⟨rfl, rfl⟩ | ⟨fd, -, rfl, -, -, h₂⟩
    · obtain ⟨_, k₃, closed, rest₃⟩ := Machine.bind_ok.mp rest₂
      cases rest₃
      have h₃ := (fileclose_owes h₁ closed).1
      rwa [add_sub_cancel_right] at h₃
    · cases rest₂
      rwa [add_sub_cancel_right] at h₂

/-! ### Opening -/

theorem isDir_still (ep : E) : Machine.Frame Still (isDir b ep) :=
  Machine.Frame.bind Machine.Frame.get fun _ => Machine.Frame.pure _

theorem new_create_still (env cwd : Option E) (limit : Nat) (path : Path) (dir : Bool) :
    Machine.Frame Still (new_create b env cwd limit path dir) := by
  induction limit generalizing path dir with
  | zero => exact Machine.Frame.halt _
  | succ limit ih =>
    rw [new_create]
    refine Machine.Frame.bind (onBelow_still _) fun (dp, name) => ?_
    refine Machine.Frame.bind ?_ fun (dp, name) => ?_
    · cases dp with
      | none => exact Machine.Frame.bind (ih _ _) fun _ => Machine.Frame.pure _
      | some dp => exact Machine.Frame.bind (onBelow_still _) fun _ => Machine.Frame.pure _
    · cases dp with
      | none => exact Machine.Frame.pure _
      | some dp =>
        refine Machine.Frame.bind (onBelow_still _) fun ep => ?_
        cases ep with
        | none =>
          exact Machine.Frame.bind (onBelow_still _) fun _ =>
            Machine.Frame.bind (onBelow_still _) fun _ => Machine.Frame.pure _
        | some ep =>
          refine Machine.Frame.bind (isDir_still ep) fun _ => Machine.Frame.ite ?_ ?_
          · exact Machine.Frame.bind (onBelow_still _) fun _ =>
              Machine.Frame.bind (onBelow_still _) fun _ =>
              Machine.Frame.bind (onBelow_still _) fun _ => Machine.Frame.pure _
          · exact Machine.Frame.bind (onBelow_still _) fun _ =>
              Machine.Frame.bind (onBelow_still _) fun _ =>
              Machine.Frame.bind (onBelow_still _) fun _ => Machine.Frame.pure _

theorem openEntry_still (f : Nat) (ep : E) (flags : UInt32) :
    Machine.Frame Still (openEntry b f ep flags) := by
  refine Machine.Frame.bind (isDir_still ep) fun _ => Machine.Frame.ite ?_ ?_
  · exact Machine.Frame.bind (onBelow_still _) fun _ => Machine.Frame.bind Machine.Frame.get
      fun _ => Machine.Frame.bind (setFile_still f _ fun _ => rfl) fun _ => onBelow_still _
  · exact Machine.Frame.bind Machine.Frame.get fun _ =>
      Machine.Frame.bind (setFile_still f _ fun _ => rfl) fun _ => onBelow_still _

/-- The last steps of a failed or successful look-up. -/
theorem locked_still {c : Prop} [Decidable c] (ep : E) :
    Machine.Frame Still (if c then do
        onBelow (b.eunlock ep)
        onBelow (b.eput ep)
        return none
      else return some ep : Call σ E P (Option E)) :=
  Machine.Frame.ite (Machine.Frame.bind (onBelow_still _) fun _ =>
    Machine.Frame.bind (onBelow_still _) fun _ => Machine.Frame.pure _) (Machine.Frame.pure _)

theorem openLookup_still (limit : Nat) (cwd : Option E) (path : Path) (omode : UInt32) :
    Machine.Frame Still (openLookup b limit cwd path omode) := by
  refine Machine.Frame.ite (new_create_still _ _ _ _ _) ?_
  refine Machine.Frame.bind (onBelow_still _) fun ep => ?_
  cases ep with
  | none => exact Machine.Frame.pure _
  | some ep =>
    exact Machine.Frame.bind (onBelow_still _) fun _ =>
      Machine.Frame.bind (isDir_still ep) fun _ => locked_still ep

theorem openatDir_still (dirf : Option Nat) : Machine.Frame Still (openatDir b dirf) := by
  refine Machine.Frame.bind Machine.Frame.get fun k => ?_
  split
  · exact Machine.Frame.bind (isDir_still _) fun _ => Machine.Frame.ite
      (Machine.Frame.bind (onBelow_still _) fun _ => Machine.Frame.pure _) (Machine.Frame.pure _)
  · exact Machine.Frame.halt _
  · exact Machine.Frame.pure _

theorem openatLookup_still (limit : Nat) (dp cwd : Option E) (path : Path) (flags : UInt32) :
    Machine.Frame Still (openatLookup b limit dp cwd path flags) := by
  refine Machine.Frame.bind (onBelow_still _) fun ep => Machine.Frame.bind ?_ fun ep => ?_
  · cases ep with
    | none => exact Machine.Frame.ite (new_create_still _ _ _ _ _) (Machine.Frame.pure _)
    | some ep => exact Machine.Frame.bind (onBelow_still _) fun _ => Machine.Frame.pure _
  · cases ep with
    | none => exact Machine.Frame.pure _
    | some ep => exact Machine.Frame.bind (isDir_still ep) fun _ => locked_still ep

/-! ### The calls -/

/-- A call of process `p` that ends in balance if it began so. -/
def Stays (p : Nat) (k k' : Kernel σ E P) : Prop := Owes k p none 0 → Owes k' p none 0

instance : Std.Refl (@Stays σ E P p) where
  refl _ h := h

instance : IsTrans (Kernel σ E P) (Stays p) where
  trans _ _ _ h h' := h' ∘ h

theorem stays_of_quiet {x : Call σ E P α} (h : Machine.Frame Quiet x) :
    Machine.Frame (Stays p) x :=
  h.mono fun _ _ same owes => owes.quiet same

theorem stays_of_still {x : Call σ E P α} (h : Machine.Frame Still x) : Machine.Frame (Stays p) x :=
  stays_of_quiet (h.mono fun _ _ => Still.quiet)

theorem allocFd_stays : Machine.Frame (Stays p) (allocFd b p) :=
  fun _ _ _ run h => allocFd_owes h run

theorem open_stays (limit : Nat) (path : Path) (omode : UInt32) :
    Machine.Frame (Stays p) («open» b limit p path omode) := by
  refine Machine.Frame.bind Machine.Frame.get fun k => ?_
  refine Machine.Frame.bind (stays_of_still (openLookup_still _ _ _ _)) fun ep => ?_
  cases ep with
  | none => exact Machine.Frame.pure _
  | some ep =>
    refine Machine.Frame.bind allocFd_stays fun fd => ?_
    cases fd with
    | none =>
      exact Machine.Frame.bind (stays_of_quiet (onBelow_quiet _)) fun _ =>
        Machine.Frame.bind (stays_of_quiet (onBelow_quiet _)) fun _ => Machine.Frame.pure _
    | some fd =>
      exact Machine.Frame.bind (stays_of_still (openEntry_still _ _ _)) fun _ =>
        Machine.Frame.pure _

/-- Locks and unlocks of the directory, if there is one. -/
theorem forM_still (dp : Option E) (x : E → Machine σ Unit) :
    Machine.Frame Still (dp.forM fun dp => onBelow (x dp) : Call σ E P Unit) := by
  cases dp with
  | none => exact Machine.Frame.pure _
  | some dp => exact onBelow_still _

theorem sys_openat_stays (limit : Nat) (dirfd : Int) (path : Path) (flags : UInt32) :
    Machine.Frame (Stays p) (sys_openat b limit p dirfd path flags) := by
  have argfd_quiet : Machine.Frame Quiet (argfd p true dirfd : Call σ E P (Option Nat)) :=
    fun k r k' run => by
      rw [(argfd_run run).1]
      exact Std.Refl.refl k
  refine Machine.Frame.bind (stays_of_quiet argfd_quiet) fun dirf => Machine.Frame.ite ?_ ?_
  · refine Machine.Frame.bind allocFd_stays fun fd => ?_
    cases fd with
    | none => exact Machine.Frame.pure _
    | some fd =>
      exact Machine.Frame.bind (stays_of_quiet (setFile_quiet _ _ fun _ => rfl)) fun _ =>
        Machine.Frame.pure _
  · refine Machine.Frame.bind (stays_of_still (openatDir_still dirf)) fun dp => ?_
    refine Machine.Frame.bind Machine.Frame.get fun k => ?_
    refine Machine.Frame.bind (stays_of_still (openatLookup_still _ _ _ _ _)) fun ep => ?_
    cases ep with
    | none => exact Machine.Frame.pure _
    | some ep =>
      refine Machine.Frame.bind allocFd_stays fun fd => ?_
      cases fd with
      | none =>
        exact Machine.Frame.bind (stays_of_quiet (onBelow_quiet _)) fun _ =>
          Machine.Frame.bind (stays_of_quiet (onBelow_quiet _)) fun _ => Machine.Frame.pure _
      | some fd =>
        have last : Machine.Frame Still (do
            dp.forM fun dp => onBelow (b.eunlock dp)
            return (fd.2 : Int) : Call σ E P Int) :=
          Machine.Frame.bind (forM_still dp b.eunlock) fun _ => Machine.Frame.pure _
        refine Machine.Frame.bind (stays_of_still (openEntry_still _ _ _)) fun _ =>
          Machine.Frame.bind (stays_of_still (forM_still dp b.elock)) fun _ =>
          Machine.Frame.bind (stays_of_quiet (setProc_quiet _ _ fun _ => ⟨rfl, rfl⟩)) fun _ =>
          Machine.Frame.ite ?_ ?_
        · exact Machine.Frame.bind (stays_of_quiet (onBelow_quiet _)) fun _ => stays_of_still last
        · exact stays_of_still last

/-- `fdalloc2` and the `filedup` behind it. -/
theorem dup_owes {start : Int} {found : Option Nat} (h : Owes k p none 0) (hf : f < NFILE)
    (pointed : fdalloc2 p f start k = .ok (found, k')) {fd r : Nat} (some_fd : found = some fd)
    {k₂ : Kernel σ E P} (counted : filedup f k' = .ok (r, k₂)) : Owes k₂ p none 0 := by
  rcases fdalloc2_owes h hf pointed with ⟨rfl, -⟩ | ⟨fd', -, rfl, -, -, h₁⟩
  · cases some_fd
  · have h₂ := (filedup_owes h₁ counted).2.1
    rwa [sub_add_cancel] at h₂

theorem fdalloc2_none {start : Int} (h : Owes k p X d) (hf : f < NFILE)
    (pointed : fdalloc2 p f start k = .ok (none, k')) : k' = k := by
  rcases fdalloc2_owes h hf pointed with ⟨-, same⟩ | ⟨fd, -, eq, -⟩
  · exact same
  · cases eq

theorem sys_dup_stays (n : Int) : Machine.Frame (Stays p) (sys_dup p n : Call σ E P Int) := by
  intro k r k' run h
  obtain ⟨f, k₁, fetched, rest₁⟩ := Machine.bind_ok.mp run
  cases f with
  | none =>
    cases rest₁
    rwa [(argfd_run fetched).1]
  | some f =>
    obtain ⟨rfl, -, -, hf⟩ := h.argfd fetched
    obtain ⟨found, k₂, pointed, rest₂⟩ := Machine.bind_ok.mp rest₁
    cases found with
    | none =>
      cases rest₂
      rwa [fdalloc2_none h hf pointed]
    | some fd =>
      obtain ⟨_, k₃, counted, rest₃⟩ := Machine.bind_ok.mp rest₂
      cases rest₃
      exact dup_owes h hf pointed rfl counted

theorem sys_fcntl_stays (n cmd : Int) (arg : Nat) :
    Machine.Frame (Stays p) (sys_fcntl p n cmd arg : Call σ E P Int) := by
  intro k r k' run h
  obtain ⟨f, k₁, fetched, rest₁⟩ := Machine.bind_ok.mp run
  cases f with
  | none =>
    cases rest₁
    rwa [(argfd_run fetched).1]
  | some f =>
    obtain ⟨rfl, -, -, hf⟩ := h.argfd fetched
    obtain ⟨k₀, k₂, got, rest₂⟩ := Machine.bind_ok.mp rest₁
    cases got
    split at rest₂
    · cases rest₂
      exact h
    split at rest₂
    · obtain ⟨_, k₃, written, rest₃⟩ := Machine.bind_ok.mp rest₂
      cases rest₃
      exact h.quiet (setProc_quiet p (fun pr => { pr with
        exec_close := Function.update pr.exec_close n.toNat (u32 arg) }) (fun _ => ⟨rfl, rfl⟩) _ _ _ written)
    split at rest₂
    · obtain ⟨found, k₃, pointed, rest₃⟩ := Machine.bind_ok.mp rest₂
      cases found with
      | none =>
        cases rest₃
        rwa [fdalloc2_none h hf pointed]
      | some fd =>
        obtain ⟨_, k₄, counted, rest₄⟩ := Machine.bind_ok.mp rest₃
        cases rest₄
        exact dup_owes h hf pointed rfl counted
    split at rest₂
    · obtain ⟨found, k₃, pointed, rest₃⟩ := Machine.bind_ok.mp rest₂
      cases found with
      | none =>
        cases rest₃
        rwa [fdalloc2_none h hf pointed]
      | some fd =>
        obtain ⟨_, k₄, counted, rest₄⟩ := Machine.bind_ok.mp rest₃
        obtain ⟨_, k₅, written, rest₅⟩ := Machine.bind_ok.mp rest₄
        cases rest₅
        have h₄ := dup_owes h hf pointed rfl counted
        exact h₄.quiet (setProc_quiet p (fun pr => { pr with
          exec_close := Function.update pr.exec_close fd 1 }) (fun _ => ⟨rfl, rfl⟩) _ _ _ written)
    · cases rest₂
      exact h

/-- `sys_dup3(n, newfd)` puts another file in the place of one. -/
def Overwrites (k : Kernel σ E P) (p : Nat) (n newfd : Int) (f g : Nat) : Prop :=
  0 ≤ n ∧ n < NOFILE ∧ (k.proc p).ofile n.toNat = some f ∧
  0 ≤ newfd ∧ newfd < (k.proc p).limit ∧ (k.proc p).ofile newfd.toNat = some g ∧ g ≠ f

/-- `sys_dup3` does nothing, or puts a file into a descriptor and leaves what was
there without it. -/
theorem sys_dup3_cases {n newfd r : Int} (h : Owes k p none 0)
    (run : sys_dup3 p n newfd k = .ok (r, k')) :
    (Owes k' p none 0 ∧ ∀ f g, ¬Overwrites k p n newfd f g) ∨
    ∃ f, 0 ≤ n ∧ n < NOFILE ∧ (k.proc p).ofile n.toNat = some f ∧
      0 ≤ newfd ∧ newfd < (k.proc p).limit ∧ (k.proc p).ofile newfd.toNat ≠ some f ∧
      Owes k' p none (held ((k.proc p).ofile newfd.toNat)) := by
  obtain ⟨f, k₁, fetched, rest₁⟩ := Machine.bind_ok.mp run
  cases f with
  | none =>
    cases rest₁
    refine .inl ⟨by rwa [(argfd_run fetched).1], ?_⟩
    rintro f g ⟨low, high, points, -⟩
    exact argfd_none fetched low high points
  | some f =>
    obtain ⟨rfl, range, points, hf⟩ := h.argfd fetched
    obtain ⟨k₀, k₂, got, rest₂⟩ := Machine.bind_ok.mp rest₁
    cases got
    split at rest₂
    · rename_i negative
      cases rest₂
      exact .inl ⟨h, fun f g overwrites => absurd overwrites.2.2.2.1 (Int.not_le.mpr negative)⟩
    split at rest₂
    · rename_i above
      cases rest₂
      refine .inl ⟨h, fun f g overwrites => ?_⟩
      have below := overwrites.2.2.2.2.1
      omega
    split at rest₂
    · rename_i nonneg below other
      obtain ⟨f', k₃, counted, rest₃⟩ := Machine.bind_ok.mp rest₂
      obtain ⟨rfl, h₃, procs⟩ := filedup_owes h counted
      cases rest₃
      have hfd : newfd.toNat < NOFILE :=
        Nat.lt_of_lt_of_le (Nat.not_le.mp below) (Proc.limit_le _)
      have put := put_owes h₃ (v := some f') h.place hfd
        (fun _ => .inl (by rw [procs]; exact h.live)) fun g eq => (Option.some.inj eq) ▸ hf
      rw [procs, zero_add, add_sub_cancel_left] at put
      exact .inr ⟨f', (argfd_range fetched).1, (argfd_range fetched).2, points, by omega, by omega,
        other, put⟩
    · rename_i same
      cases rest₂
      refine .inl ⟨h, ?_⟩
      rintro f' g ⟨-, -, points', -, -, here, differ⟩
      rw [ne_eq, not_not] at same
      exact differ (Option.some.inj (here.symm.trans (same.trans (points.symm.trans points'))))

/-- `sys_dup3` stays in balance unless it overwrites a descriptor. -/
theorem sys_dup3_owes {n newfd r : Int} (h : Owes k p none 0)
    (run : sys_dup3 p n newfd k = .ok (r, k')) (spares : ∀ f g, ¬Overwrites k p n newfd f g) :
    Owes k' p none 0 := by
  rcases sys_dup3_cases h run with ⟨owes, -⟩ | ⟨f, low, high, points, low', high', other, owes⟩
  · exact owes
  · cases here : (k.proc p).ofile newfd.toNat with
    | none => rwa [here, held_none] at owes
    | some g =>
      exact absurd ⟨low, high, points, low', high', here, fun eq => other (eq ▸ here)⟩ (spares f g)

/-- The file overwritten keeps a reference that no descriptor accounts for. -/
theorem sys_dup3_leaks {n newfd r : Int} {g : Nat} (h : Owes k p none 0)
    (run : sys_dup3 p n newfd k = .ok (r, k')) (overwrites : Overwrites k p n newfd f g) :
    Owes k' p none (held (some g)) := by
  rcases sys_dup3_cases h run with ⟨-, spares⟩ | ⟨f', -, -, -, -, -, -, owes⟩
  · exact absurd overwrites (spares f g)
  · obtain ⟨-, -, -, -, -, here, -⟩ := overwrites
    rwa [here] at owes

theorem sys_close_stays (n : Int) : Machine.Frame (Stays p) (sys_close b p n) := by
  intro k r k' run h
  obtain ⟨f, k₁, fetched, rest₁⟩ := Machine.bind_ok.mp run
  cases f with
  | none =>
    cases rest₁
    rwa [(argfd_run fetched).1]
  | some f =>
    obtain ⟨rfl, hfd, points, -⟩ := h.argfd fetched
    obtain ⟨_, k₂, cleared, rest₂⟩ := Machine.bind_ok.mp rest₁
    cases cleared
    have h₂ := put_owes (v := none) h h.place hfd (by simp) (by simp)
    rw [points, held_none, sub_zero] at h₂
    obtain ⟨_, k₃, closed, rest₃⟩ := Machine.bind_ok.mp rest₂
    cases rest₃
    have h₃ := (fileclose_owes h₂ closed).1
    rwa [add_sub_cancel_right] at h₃

theorem pipealloc_owes {r : Option (Nat × Nat)} (h : Owes k p none 0)
    (run : pipealloc b k = .ok (r, k')) :
    (r = none ∧ Owes k' p none 0) ∨ ∃ rf < NFILE, ∃ wf < NFILE, r = some (rf, wf) ∧
      Owes k' p none (held (some rf) + held (some wf)) := by
  obtain ⟨f0, k₁, first, rest₁⟩ := Machine.bind_ok.mp run
  obtain ⟨h₁, -, table⟩ := filealloc_owes h first
  rw [zero_add] at h₁
  cases f0 with
  | none =>
    cases rest₁
    exact .inl ⟨rfl, h₁⟩
  | some f0 =>
    obtain ⟨f1, k₂, second, rest₂⟩ := Machine.bind_ok.mp rest₁
    obtain ⟨h₂, -, table'⟩ := filealloc_owes h₁ second
    cases f1 with
    | none =>
      obtain ⟨_, k₃, closed, rest₃⟩ := Machine.bind_ok.mp rest₂
      cases rest₃
      have h₃ := (fileclose_owes h₂ closed).1
      rw [held_none, add_zero, sub_self] at h₃
      exact .inl ⟨rfl, h₃⟩
    | some f1 =>
      obtain ⟨pi, k₃, page, rest₃⟩ := Machine.bind_ok.mp rest₂
      have h₃ := h₂.quiet (onBelow_quiet _ _ _ _ page)
      cases pi with
      | none =>
        obtain ⟨_, k₄, closed, rest₄⟩ := Machine.bind_ok.mp rest₃
        obtain ⟨_, k₅, closed', rest₅⟩ := Machine.bind_ok.mp rest₄
        cases rest₅
        have h₅ := (fileclose_owes (fileclose_owes h₃ closed).1 closed').1
        rw [add_sub_cancel_left, sub_self] at h₅
        exact .inl ⟨rfl, h₅⟩
      | some pi =>
        have fill : Machine.Frame Quiet (do
            setFile f0 fun file =>
              { file with type := .pipe, readable := true, writable := false, pipe := some pi }
            setFile f1 fun file =>
              { file with type := .pipe, readable := false, writable := true, pipe := some pi }
            return some (f0, f1) : Call σ E P (Option (Nat × Nat))) :=
          Machine.Frame.bind (setFile_quiet _ _ fun _ => rfl) fun _ =>
            Machine.Frame.bind (setFile_quiet _ _ fun _ => rfl) fun _ => Machine.Frame.pure _
        have quiet := fill _ _ _ rest₃
        cases rest₃
        exact .inr ⟨f0, table f0 rfl, f1, table' f1 rfl, rfl, h₃.quiet quiet⟩

theorem copyFds_quiet (fdarray fd0 fd1 : Nat) :
    Machine.Frame Quiet (copyFds b p fdarray fd0 fd1) :=
  Machine.Frame.bind (onBelow_quiet _) fun _ =>
    Machine.Frame.ite (onBelow_quiet _) (Machine.Frame.pure _)

/-- Taking a descriptor back. -/
theorem clear_owes (h : Owes k p none d) (hfd : fd < NOFILE)
    (points : (k.proc p).ofile fd = some f) :
    Owes (k.put p fd none) p none (d + held (some f)) := by
  have := put_owes (v := none) h h.place hfd (by simp) (by simp)
  rwa [points, held_none, sub_zero] at this

theorem sys_pipe_stays (fdarray : Nat) : Machine.Frame (Stays p) (sys_pipe b p fdarray) := by
  intro k r k' run h
  obtain ⟨ends, k₁, allocated, rest₁⟩ := Machine.bind_ok.mp run
  rcases pipealloc_owes h allocated with ⟨rfl, h₁⟩ | ⟨rf, hrf, wf, hwf, rfl, h₁⟩
  · cases rest₁
    exact h₁
  -- both files are closed again, whatever else has gone wrong
  have closes : ∀ {k₀ k'' : Kernel σ E P} {r' : Int},
      Owes k₀ p none (held (some rf) + held (some wf)) →
      (do fileclose b rf; fileclose b wf; return -1 : Call σ E P Int) k₀ = .ok (r', k'') →
      Owes k'' p none 0 := by
    intro k₀ k'' r' h₀ closing
    obtain ⟨_, k₂, closed, rest₂⟩ := Machine.bind_ok.mp closing
    obtain ⟨_, k₃, closed', rest₃⟩ := Machine.bind_ok.mp rest₂
    cases rest₃
    have h₃ := (fileclose_owes (fileclose_owes h₀ closed).1 closed').1
    rwa [add_sub_cancel_left, sub_self] at h₃
  obtain ⟨found, k₂, pointed, rest₂⟩ := Machine.bind_ok.mp rest₁
  rcases fdalloc2_owes h₁ hrf pointed with ⟨rfl, rfl⟩ | ⟨fd0, hfd0, rfl, -, first, h₂⟩
  · exact closes h₁ rest₂
  rw [add_sub_cancel_left] at h₂
  have here₂ : (k₂.proc p).ofile fd0 = some rf := by rw [first, put_here]
  obtain ⟨found', k₃, pointed', rest₃⟩ := Machine.bind_ok.mp rest₂
  rcases fdalloc2_owes h₂ hwf pointed' with ⟨rfl, rfl⟩ | ⟨fd1, hfd1, rfl, free, second, h₃⟩
  · obtain ⟨_, k₄, cleared, rest₄⟩ := Machine.bind_ok.mp rest₃
    cases cleared
    have h₄ := clear_owes h₂ hfd0 here₂
    rw [add_comm] at h₄
    exact closes h₄ rest₄
  rw [sub_self] at h₃
  have apart : fd0 ≠ fd1 := by
    rintro rfl
    rw [here₂] at free
    cases free
  have here₃ : (k₃.proc p).ofile fd0 = some rf := by
    rw [second, put_other (by simpa using apart), here₂]
  have there₃ : (k₃.proc p).ofile fd1 = some wf := by rw [second, put_here]
  obtain ⟨copied, k₄, copies, rest₄⟩ := Machine.bind_ok.mp rest₃
  have same := copyFds_quiet _ _ _ _ _ _ copies
  have h₄ := h₃.quiet same
  cases copied with
  | true =>
    cases rest₄
    exact h₄
  | false =>
    obtain ⟨_, k₅, cleared, rest₅⟩ := Machine.bind_ok.mp rest₄
    cases cleared
    obtain ⟨_, k₆, cleared', rest₆⟩ := Machine.bind_ok.mp rest₅
    cases cleared'
    have h₅ := clear_owes h₄ hfd0 ((congrFun (same.ofile p) fd0).trans here₃)
    have h₆ := clear_owes h₅ hfd1 (f := wf) (by
      rw [put_other (by simpa using apart.symm), same.ofile, there₃])
    rw [zero_add] at h₆
    exact closes h₆ rest₆

/-! ### `fork` and `exit` -/

theorem Owes.weaken (h : Owes k p none d) (X : Option Nat) : Owes k p X d where
  place := h.place
  live := h.live
  inTable := h.inTable
  empty q hq dead _ := h.empty q hq dead (by simp)
  surplus := h.surplus

theorem copyFiles_owes {np : Nat} (child : np < NPROC) {fds : List Nat}
    (once : fds.Nodup) (range : ∀ i ∈ fds, i < NOFILE) (h : Owes k p (some np) 0)
    (free : ∀ i ∈ fds, (k.proc np).ofile i = none)
    (run : copyFiles p np fds k = .ok ((), k')) : Owes k' p (some np) 0 := by
  induction fds generalizing k with
  | nil =>
    cases run
    exact h
  | cons i rest ih =>
    obtain ⟨_, k₁, first, rest₁⟩ := Machine.bind_ok.mp run
    have hi := range i List.mem_cons_self
    rw [copyFile, Machine.bind_of_ok (Machine.get_run k)] at first
    cases points : (k.proc p).ofile i with
    | none =>
      rw [points] at first
      cases first
      exact ih once.of_cons (fun j hj => range j (List.mem_cons_of_mem _ hj)) h
        (fun j hj => free j (List.mem_cons_of_mem _ hj)) rest₁
    | some f =>
      rw [points] at first
      obtain ⟨f', k₂, counted, put⟩ := Machine.bind_ok.mp first
      obtain ⟨rfl, h₂, procs⟩ := filedup_owes h counted
      cases put
      have hf := h.inTable p h.place i hi f' points
      have h₃ := put_owes (v := some f') h₂ child hi (fun _ => .inr rfl)
        fun g eq => (Option.some.inj eq) ▸ hf
      rw [procs, free i List.mem_cons_self, held_none, add_zero, add_sub_cancel_right] at h₃
      refine ih once.of_cons (fun j hj => range j (List.mem_cons_of_mem _ hj)) h₃
        (fun j hj => ?_) rest₁
      have apart : j ≠ i := fun eq => (List.nodup_cons.mp once).1 (eq ▸ hj)
      rw [put_other (by simpa using apart), procs]
      exact free j (List.mem_cons_of_mem _ hj)

/-- The child comes to life with its descriptors. -/
theorem Owes.born {np : Nat} (h : Owes k p (some np) 0) {g : Proc E → Proc E}
    (ofile : (g (k.proc np)).ofile = (k.proc np).ofile) (live : (g (k.proc np)).state = .live) :
    Balanced { k with proc := Function.update k.proc np (g (k.proc np)) } := by
  have same : ∀ q, (Function.update k.proc np (g (k.proc np)) q).ofile = (k.proc q).ofile := by
    intro q
    rcases eq_or_ne q np with rfl | ne
    · simp [ofile]
    · simp [ne]
  refine ⟨fun q hq fd hfd f points => ?_, fun q hq dead fd hfd => ?_, fun f hf => ?_⟩
  · exact h.inTable q hq fd hfd f (by rwa [← congrFun (same q) fd])
  · rcases eq_or_ne q np with rfl | ne
    · simp [live] at dead
    · simp only [Function.update_of_ne ne] at dead ⊢
      exact h.empty q hq dead (by simpa using ne) fd hfd
  · have slots : Kernel.slots { k with proc := Function.update k.proc np (g (k.proc np)) } =
        k.slots := by
      funext i
      exact congrFun (same i.1) i.2
    have := h.surplus f hf
    rw [Kernel.descriptors, slots]
    simpa [Kernel.descriptors] using this

theorem fork_balanced {r : Option Nat} (h : Owes k p none 0) (run : fork b p k = .ok (r, k')) :
    Balanced k' := by
  rw [fork, Machine.bind_of_ok (Machine.get_run k)] at run
  cases found : (List.range NPROC).find? fun np => (k.proc np).state = .unused with
  | none =>
    rw [found] at run
    cases run
    exact h.balanced
  | some np =>
    rw [found] at run
    have unused := List.find?_some found
    have child := List.mem_of_find?_eq_some found
    rw [List.mem_range] at child
    rw [decide_eq_true_iff] at unused
    obtain ⟨_, k₁, limited, rest₁⟩ := Machine.bind_ok.mp run
    have q₁ := setProc_quiet np (fun pr : Proc E => { pr with filelimit := NOFILE })
      (fun _ => ⟨rfl, rfl⟩) _ _ _ limited
    obtain ⟨allocated, k₂, alloc, rest₂⟩ := Machine.bind_ok.mp rest₁
    have q₂ := Trans.trans q₁ (onBelow_quiet _ _ _ _ alloc)
    cases allocated with
    | false =>
      cases rest₂
      exact (h.quiet q₂).balanced
    | true =>
      obtain ⟨_, k₃, fresh, rest₃⟩ := Machine.bind_ok.mp rest₂
      have q₃ := Trans.trans q₂ (setProc_quiet np (fun pr : Proc E =>
        { pr with exec_close := fun _ => 0 }) (fun _ => ⟨rfl, rfl⟩) _ _ _ fresh)
      obtain ⟨outcome, k₄, copied, rest₄⟩ := Machine.bind_ok.mp rest₃
      have q₄ := Trans.trans q₃ (onBelow_quiet _ _ _ _ copied)
      cases outcome with
      | uvmcopy =>
        obtain ⟨_, k₅, freed, rest₅⟩ := Machine.bind_ok.mp rest₄
        cases rest₅
        exact (h.quiet (Trans.trans q₄ (onBelow_quiet _ _ _ _ freed))).balanced
      | vma_map =>
        cases rest₄
        exact (h.quiet q₄).balanced
      | done =>
        obtain ⟨_, k₅, files, rest₅⟩ := Machine.bind_ok.mp rest₄
        have h₅ := copyFiles_owes child List.nodup_range (fun i => List.mem_range.mp)
          ((h.quiet q₄).weaken (some np)) (fun i hi => by
            rw [q₄.ofile]
            exact h.empty np child (by rw [unused]; simp) (by simp) i (List.mem_range.mp hi)) files
        rw [Machine.bind_of_ok (Machine.get_run k₅)] at rest₅
        cases dir : (k₅.proc p).cwd with
        | none =>
          rw [dir] at rest₅
          cases rest₅
        | some dir' =>
          rw [dir] at rest₅
          obtain ⟨cwd, k₆, dupped, rest₆⟩ := Machine.bind_ok.mp rest₅
          have h₆ := h₅.quiet (onBelow_quiet _ _ _ _ dupped)
          cases rest₆
          exact h₆.born (g := fun pr => { pr with cwd := some cwd, state := .live }) rfl rfl

theorem closeFiles_owes {fds : List Nat} (range : ∀ i ∈ fds, i < NOFILE) (h : Owes k p none 0)
    (run : closeFiles b p fds k = .ok ((), k')) : Owes k' p none 0 ∧
      ∀ i, i ∈ fds ∨ (k.proc p).ofile i = none → (k'.proc p).ofile i = none := by
  induction fds generalizing k with
  | nil =>
    cases run
    exact ⟨h, fun i closed => closed.resolve_left (by simp)⟩
  | cons i rest ih =>
    obtain ⟨_, k₁, first, rest₁⟩ := Machine.bind_ok.mp run
    have hi := range i List.mem_cons_self
    have tail : ∀ j ∈ rest, j < NOFILE := fun j hj => range j (List.mem_cons_of_mem _ hj)
    rw [closeFile, Machine.bind_of_ok (Machine.get_run k)] at first
    cases points : (k.proc p).ofile i with
    | none =>
      rw [points] at first
      cases first
      obtain ⟨h', closed⟩ := ih tail h rest₁
      refine ⟨h', fun j hj => closed j ?_⟩
      rcases hj with inside | none_there
      · rcases List.mem_cons.mp inside with rfl | later
        · exact .inr points
        · exact .inl later
      · exact .inr none_there
    | some f =>
      rw [points] at first
      obtain ⟨_, k₂, closing, cleared⟩ := Machine.bind_ok.mp first
      cases cleared
      obtain ⟨h₂, ofile, -⟩ := fileclose_owes h closing
      have h₃ := clear_owes h₂ hi ((congrFun (ofile p) i).trans points)
      rw [sub_add_cancel] at h₃
      obtain ⟨h', closed⟩ := ih tail h₃ rest₁
      refine ⟨h', fun j hj => closed j ?_⟩
      rcases eq_or_ne j i with rfl | ne
      · exact .inr put_here
      · rw [put_other (by simpa using ne), ofile]
        exact hj.imp_left fun inside => (List.mem_cons.mp inside).resolve_left ne

/-- A process without descriptors may change its state. -/
theorem Balanced.setState (h : Balanced k) (empty : ∀ i < NOFILE, (k.proc p).ofile i = none)
    {g : Proc E → Proc E} (ofile : (g (k.proc p)).ofile = (k.proc p).ofile) :
    Balanced { k with proc := Function.update k.proc p (g (k.proc p)) } := by
  have same : ∀ q, (Function.update k.proc p (g (k.proc p)) q).ofile = (k.proc q).ofile := by
    intro q
    rcases eq_or_ne q p with rfl | ne
    · simp [ofile]
    · simp [ne]
  refine ⟨fun q hq fd hfd f points => ?_, fun q hq dead fd hfd => ?_, fun f hf => ?_⟩
  · exact h.inTable q hq fd hfd f (by rwa [← congrFun (same q) fd])
  · rcases eq_or_ne q p with rfl | ne
    · exact (congrFun (same q) fd).trans (empty fd hfd)
    · simp only [Function.update_of_ne ne] at dead ⊢
      exact h.empty q hq dead fd hfd
  · have slots : Kernel.slots { k with proc := Function.update k.proc p (g (k.proc p)) } =
        k.slots := by
      funext i
      exact congrFun (same i.1) i.2
    rw [Kernel.descriptors, slots]
    exact h.count f hf

theorem exit_balanced {initproc : Nat} (h : Owes k p none 0)
    (run : exit b initproc p k = .ok ((), k')) : Balanced k' := by
  rw [exit] at run
  split at run
  · cases run
  · obtain ⟨_, k₁, closing, rest₁⟩ := Machine.bind_ok.mp run
    obtain ⟨h₁, closed⟩ := closeFiles_owes (fun i => List.mem_range.mp) h closing
    rw [Machine.bind_of_ok (Machine.get_run k₁)] at rest₁
    cases dir : (k₁.proc p).cwd with
    | none =>
      rw [dir] at rest₁
      cases rest₁
    | some dir' =>
      rw [dir] at rest₁
      obtain ⟨_, k₂, put, rest₂⟩ := Machine.bind_ok.mp rest₁
      have quiet := onBelow_quiet _ _ _ _ put
      cases rest₂
      refine (h₁.quiet quiet).balanced.setState (fun i hi => ?_)
        (g := fun pr => { pr with cwd := none, state := .zombie }) rfl
      rw [quiet.ofile]
      exact closed i (.inl (List.mem_range.mpr hi))

/-! ### Runs -/

inductive Syscall where
  | openat (dirfd : Int) (path : Path) (flags : UInt32)
  | open (path : Path) (omode : UInt32)
  | dup (fd : Int)
  | dup3 (fd newfd : Int)
  | fcntl (fd cmd : Int) (arg : Nat)
  | pipe (fdarray : Nat)
  | close (fd : Int)
  | fork
  | exit

/-- The call without its result. -/
def ignore (x : Call σ E P α) : Call σ E P Unit := do
  let _ ← x
  return

def Syscall.run (b : Below σ E P) (limit initproc p : Nat) : Syscall → Call σ E P Unit
  | .openat dirfd path flags => ignore (sys_openat b limit p dirfd path flags)
  | .open path omode => ignore (Fd.open b limit p path omode)
  | .dup fd => ignore (sys_dup p fd)
  | .dup3 fd newfd => ignore (sys_dup3 p fd newfd)
  | .fcntl fd cmd arg => ignore (sys_fcntl p fd cmd arg)
  | .pipe fdarray => ignore (sys_pipe b p fdarray)
  | .close fd => ignore (sys_close b p fd)
  | .fork => ignore (Fd.fork b p)
  | .exit => Fd.exit b initproc p

inductive Event where
  | call (p : Nat) (call : Syscall)
  /-- A parent has waited for the process. -/
  | reap (p : Nat)
  /-- `sys_prlimit64` -/
  | prlimit (p filelimit : Nat)

def Event.Ready (k : Kernel σ E P) : Event → Prop
  | .call p _ => p < NPROC ∧ (k.proc p).state = .live
  | .reap p => p < NPROC ∧ (k.proc p).state = .zombie
  | .prlimit .. => True

def Event.run (b : Below σ E P) (limit initproc : Nat) : Event → Call σ E P Unit
  | .call p s => s.run b limit initproc p
  | .reap p => Fd.reap b p
  | .prlimit p filelimit => setProc p fun pr => { pr with filelimit }

/-- A call that returns. -/
def Step (b : Below σ E P) (initproc : Nat) (k : Kernel σ E P) (e : Event) (k' : Kernel σ E P) :
    Prop :=
  e.Ready k ∧ ∃ limit, e.run b limit initproc k = .ok ((), k')

def Event.Overwrites (k : Kernel σ E P) : Event → Prop
  | .call p (.dup3 fd newfd) => ∃ f g, Fd.Overwrites k p fd newfd f g
  | _ => False

/-- No file is open, and no process has a descriptor. -/
structure Booted (k : Kernel σ E P) : Prop where
  ref : ∀ f, (k.file f).ref = 0
  ofile : ∀ q fd, (k.proc q).ofile fd = none

theorem Booted.balanced (h : Booted k) : Balanced k where
  inTable q _ fd _ f points := by
    rw [h.ofile] at points
    cases points
  empty q _ _ fd _ := h.ofile q fd
  count f _ := by
    rw [h.ref, Kernel.descriptors, eq_comm, refs_eq_zero]
    intro i _
    rw [Kernel.slots, h.ofile]
    simp

theorem ignore_ok {x : Call σ E P α} (run : ignore x k = .ok ((), k')) :
    ∃ r, x k = .ok (r, k') := by
  obtain ⟨r, k₁, ran, rest⟩ := Machine.bind_ok.mp run
  cases rest
  exact ⟨r, ran⟩

theorem Step.balanced {initproc : Nat} {e : Event} (h : Balanced k) (step : Step b initproc k e k')
    (spares : ¬e.Overwrites k) : Balanced k' := by
  obtain ⟨ready, limit, run⟩ := step
  cases e with
  | call p call =>
    have owes := h.owes ready.1 ready.2
    cases call with
    | openat dirfd path flags =>
      obtain ⟨r, ran⟩ := ignore_ok run
      exact (sys_openat_stays _ _ _ _ _ _ _ ran owes).balanced
    | «open» path omode =>
      obtain ⟨r, ran⟩ := ignore_ok run
      exact (open_stays _ _ _ _ _ _ ran owes).balanced
    | dup fd =>
      obtain ⟨r, ran⟩ := ignore_ok run
      exact (sys_dup_stays _ _ _ _ ran owes).balanced
    | dup3 fd newfd =>
      obtain ⟨r, ran⟩ := ignore_ok run
      exact (sys_dup3_owes owes ran fun f g overwrites => spares ⟨f, g, overwrites⟩).balanced
    | fcntl fd cmd arg =>
      obtain ⟨r, ran⟩ := ignore_ok run
      exact (sys_fcntl_stays _ _ _ _ _ _ ran owes).balanced
    | pipe fdarray =>
      obtain ⟨r, ran⟩ := ignore_ok run
      exact (sys_pipe_stays _ _ _ _ ran owes).balanced
    | close fd =>
      obtain ⟨r, ran⟩ := ignore_ok run
      exact (sys_close_stays _ _ _ _ ran owes).balanced
    | fork =>
      obtain ⟨r, ran⟩ := ignore_ok run
      exact fork_balanced owes ran
    | exit => exact exit_balanced owes run
  | reap p =>
    obtain ⟨_, k₁, freed, rest⟩ := Machine.bind_ok.mp run
    have quiet := onBelow_quiet _ _ _ _ freed
    cases rest
    refine Balanced.setState (g := fun pr => { pr with state := .unused }) ?_ (fun i hi => ?_) rfl
    · refine ⟨fun q hq fd hfd f points => ?_, fun q hq dead fd hfd => ?_, fun f hf => ?_⟩
      · exact h.inTable q hq fd hfd f (by rwa [← quiet.ofile])
      · rw [quiet.ofile]
        exact h.empty q hq (by rwa [← quiet.state]) fd hfd
      · rw [quiet.ref, Kernel.descriptors, quiet.slots]
        exact h.count f hf
    · rw [quiet.ofile]
      exact h.empty p ready.1 (by rw [ready.2]; simp) i hi
  | prlimit p filelimit =>
    have quiet := setProc_quiet p (fun pr : Proc E => { pr with filelimit })
      (fun _ => ⟨rfl, rfl⟩) _ _ _ run
    refine ⟨fun q hq fd hfd f points => ?_, fun q hq dead fd hfd => ?_, fun f hf => ?_⟩
    · exact h.inTable q hq fd hfd f (by rwa [← quiet.ofile])
    · rw [quiet.ofile]
      exact h.empty q hq (by rwa [← quiet.state]) fd hfd
    · rw [quiet.ref, Kernel.descriptors, quiet.slots]
      exact h.count f hf

/-- A step that overwrites no descriptor in use. -/
def Sparing (b : Below σ E P) (initproc : Nat) (k k' : Kernel σ E P) : Prop :=
  ∃ e, Step b initproc k e k' ∧ ¬e.Overwrites k

theorem Balanced.run {initproc : Nat} (h : Balanced k)
    (run : Relation.ReflTransGen (Sparing b initproc) k k') : Balanced k' := by
  induction run with
  | refl => exact h
  | tail _ step ih =>
    obtain ⟨e, step, spares⟩ := step
    exact step.balanced ih spares

theorem Step.leaks {initproc : Nat} {e : Event} (h : Balanced k) (step : Step b initproc k e k')
    (overwrites : e.Overwrites k) : ∃ f < NFILE, (k'.file f).ref = k'.descriptors f + 1 := by
  obtain ⟨ready, limit, run⟩ := step
  cases e with
  | call p call =>
    cases call with
    | dup3 fd newfd =>
      obtain ⟨f, g, overwrites⟩ := overwrites
      obtain ⟨r, ran⟩ := ignore_ok run
      have owes := h.owes ready.1 ready.2
      have range : newfd.toNat < NOFILE := by
        have := (k.proc p).limit_le
        have := overwrites.2.2.2.1
        have := overwrites.2.2.2.2.1
        omega
      have hg := h.inTable p ready.1 _ range g overwrites.2.2.2.2.2.1
      have leaked := (sys_dup3_leaks owes ran overwrites).surplus g hg
      refine ⟨g, hg, ?_⟩
      rw [held, if_pos rfl] at leaked
      exact_mod_cast leaked
    | _ => exact overwrites.elim
  | reap p => exact overwrites.elim
  | prlimit p filelimit => exact overwrites.elim

/-- The reference counts are the numbers of descriptors as long as no `sys_dup3`
overwrites one that stands for another file, and no longer. -/
theorem ref_counts {initproc : Nat} (boot : Booted k)
    (run : Relation.ReflTransGen (Sparing b initproc) k k') :
    (∀ f < NFILE, (k'.file f).ref = k'.descriptors f ∧
      ((k'.file f).ref = 0 ↔ ∀ q < NPROC, ∀ fd < NOFILE, (k'.proc q).ofile fd ≠ some f)) ∧
    ∀ e k'', Step b initproc k' e k'' →
      ((∀ f < NFILE, (k''.file f).ref = k''.descriptors f) ↔ ¬e.Overwrites k') := by
  have balanced := boot.balanced.run run
  refine ⟨fun f hf => ⟨balanced.count f hf, ?_⟩, fun e k'' step => ⟨fun counts overwrites => ?_,
    fun spares => (step.balanced balanced spares).count⟩⟩
  · rw [balanced.count f hf, Kernel.descriptors, refs_eq_zero]
    exact ⟨fun none_points q hq fd hfd => none_points (q, fd) (mem_places.mpr ⟨hq, hfd⟩),
      fun none_points i hi => none_points i.1 (mem_places.mp hi).1 i.2 (mem_places.mp hi).2⟩
  · obtain ⟨f, hf, leaked⟩ := step.leaks balanced overwrites
    rw [counts f hf] at leaked
    omega

/-- A kernel without a file system, in which every call below succeeds. -/
def bareBelow : Below Unit Unit Unit where
  attr _ _ := 0
  file_size _ _ := 0
  new_ename _ _ _ := return some ()
  new_enameparent _ _ _ := return (some (), [])
  ealloc _ _ _ := return some ()
  elock _ := return
  eunlock _ := return
  eput _ := return
  edup _ := return ()
  etrunc _ := return
  setZero _ := return
  kallocPipe := return some ()
  kfreePipe _ := return
  pipeclose _ _ := return
  copyout _ _ _ := return true
  allocproc _ := return true
  forkCopy _ _ := return .done
  freeproc _ := return

def bareKernel : Kernel Unit Unit Unit where
  file _ := ⟨.none, 0, false, false, none, none, 0⟩
  proc p := ⟨if p = 0 then .live else .unused, fun _ => none, NOFILE, fun _ => 0, some ()⟩
  below := ()

theorem bareKernel_booted : Booted bareKernel := ⟨fun _ => rfl, fun _ _ => rfl⟩

/-- A pipe, and its read end put in the place of its write end. -/
theorem bareKernel_run : ∃ k₁ k₂, Step bareBelow 1 bareKernel (.call 0 (.pipe 0)) k₁ ∧
    Step bareBelow 1 k₁ (.call 0 (.dup3 0 1)) k₂ ∧ (k₁.proc 0).ofile 0 = some 0 ∧
    (k₁.proc 0).ofile 1 = some 1 ∧ (k₁.proc 0).limit = NOFILE :=
  ⟨_, _, ⟨⟨by decide, rfl⟩, 0, rfl⟩, ⟨⟨by decide, rfl⟩, 0, rfl⟩, rfl, rfl, rfl⟩

theorem ref_counts_pipe : ∃ k', Relation.ReflTransGen (Sparing bareBelow 1) bareKernel k' ∧
    (k'.proc 0).ofile 0 = some 0 ∧ (k'.file 0).ref = k'.descriptors 0 := by
  obtain ⟨k', -, step, -, first, -⟩ := bareKernel_run
  have run : Relation.ReflTransGen (Sparing bareBelow 1) bareKernel k' :=
    .single ⟨_, step, fun overwrites => overwrites⟩
  exact ⟨k', run, first, ((ref_counts bareKernel_booted run).1 0 (by decide)).1⟩

/-- `sys_dup3(0, 1)` behind a `sys_pipe` leaves the write end of the pipe open. -/
theorem dup3_leaves_file_open : ¬∀ k k' : Kernel Unit Unit Unit, Booted k →
    Relation.ReflTransGen (fun k k' => ∃ e, Step bareBelow 1 k e k') k k' →
    ∀ f < NFILE, (k'.file f).ref = k'.descriptors f := by
  intro counts
  obtain ⟨k₁, k₂, step₁, step₂, first, second, limit⟩ := bareKernel_run
  have balanced := step₁.balanced bareKernel_booted.balanced fun overwrites => overwrites
  have overwrites : Event.Overwrites k₁ (.call 0 (.dup3 0 1)) :=
    ⟨0, 1, by decide, by decide, first, by decide, by rw [limit]; decide, second, by decide⟩
  obtain ⟨f, hf, leaked⟩ := step₂.leaks balanced overwrites
  have := counts bareKernel k₂ bareKernel_booted
    (.tail (.single ⟨_, step₁⟩) ⟨_, step₂⟩) f hf
  omega

end AvxKernel.Fd
