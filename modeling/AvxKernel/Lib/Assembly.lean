import AvxKernel.Lib.Bytes
import Mathlib.Logic.Function.Basic

/-! Straight-line code of a load-store processor: general registers, control registers and a
memory that is reached through an address translation. Every load and store moves eight
bytes. Save sequences and restore sequences are treated as a whole: the first leaves a
frame that holds the registers, the second takes them from it. -/
namespace AvxKernel.Assembly

/-! ### Frames -/

section

variable {Reg : Type} {m m' : Memory} {v w : Reg → BitVec 64} {slots : List (Reg × Nat)}
  {slot : Reg × Nat} {a n x : Nat}

/-- Registers have places at offsets. Every place is inside the frame of `n` bytes, and no
two of them meet. -/
def LaidOut (n : Nat) (slots : List (Reg × Nat)) : Prop :=
  (∀ slot ∈ slots, slot.2 + 8 ≤ n) ∧
    slots.Pairwise fun slot slot' => slot.2 + 8 ≤ slot'.2 ∨ slot'.2 + 8 ≤ slot.2

instance (n : Nat) (slots : List (Reg × Nat)) : Decidable (LaidOut n slots) :=
  inferInstanceAs (Decidable (_ ∧ _))

def stored (v : Reg → BitVec 64) (a : Nat) (slots : List (Reg × Nat)) (m : Memory) : Memory :=
  slots.foldl (fun m slot => m.store (a + slot.2) 8 (v slot.1).toNat) m

/-- The frame at `a` holds the values of the registers. -/
def Holds (m : Memory) (a : Nat) (slots : List (Reg × Nat)) (v : Reg → BitVec 64) : Prop :=
  ∀ slot ∈ slots, m.fetch (a + slot.2) 8 = (v slot.1).toNat

theorem LaidOut.tail (laid : LaidOut n (slot :: slots)) : LaidOut n slots :=
  ⟨fun other member => laid.1 other (List.mem_cons_of_mem _ member), laid.2.of_cons⟩

theorem stored_outside (out : ∀ slot ∈ slots, x < a + slot.2 ∨ a + slot.2 + 8 ≤ x) :
    stored v a slots m x = m x := by
  induction slots generalizing m with
  | nil => rfl
  | cons slot slots ih =>
    have rest : stored v a (slot :: slots) m x = m.store (a + slot.2) 8 (v slot.1).toNat x :=
      ih fun other member => out other (List.mem_cons_of_mem _ member)
    rw [rest]
    exact m.store_outside (out slot List.mem_cons_self)

theorem stored_away (laid : LaidOut n slots) (out : x < a ∨ a + n ≤ x) : stored v a slots m x = m x := by
  apply stored_outside
  intro slot member
  have inside := laid.1 slot member
  omega

/-- A field of the frame in which no register is saved. -/
theorem fetch_stored_field (apart : ∀ slot ∈ slots, x + 8 ≤ slot.2 ∨ slot.2 + 8 ≤ x) :
    (stored v a slots m).fetch (a + x) 8 = m.fetch (a + x) 8 := by
  apply Memory.fetch_congr
  intro i small
  apply stored_outside
  intro slot member
  have clear := apart slot member
  omega

theorem stored_holds (laid : LaidOut n slots) : Holds (stored v a slots m) a slots v := by
  induction slots generalizing m with
  | nil => simp [Holds]
  | cons slot slots ih =>
    rintro other member
    rcases List.mem_cons.mp member with rfl | later
    · have clear := (List.pairwise_cons.mp laid.2).1
      refine (fetch_stored_field fun next member => clear next member).trans ?_
      exact m.fetch_store_same (v other.1).isLt
    · exact ih laid.tail other later

namespace Holds

theorem tail (holds : Holds m a (slot :: slots) v) : Holds m a slots v :=
  fun other member => holds other (List.mem_cons_of_mem _ member)

theorem congr (holds : Holds m a slots v) (laid : LaidOut n slots)
    (same : ∀ x, a ≤ x → x < a + n → m' x = m x) : Holds m' a slots v := by
  intro slot member
  rw [← holds slot member]
  apply Memory.fetch_congr
  intro i small
  have inside := laid.1 slot member
  exact same _ (by omega) (by omega)

theorem agree (holds : Holds m a slots v) (same : ∀ slot ∈ slots, w slot.1 = v slot.1) :
    Holds m a slots w := by
  intro slot member
  rw [holds slot member, same slot member]

theorem store_field (holds : Holds m a slots v) (value : Nat)
    (apart : ∀ slot ∈ slots, x + 8 ≤ slot.2 ∨ slot.2 + 8 ≤ x) :
    Holds (m.store (a + x) 8 value) a slots v := by
  intro slot member
  rw [← holds slot member]
  have clear := apart slot member
  exact m.fetch_store_other (by omega)

/-- One register gets another value in the frame. -/
theorem store_slot [DecidableEq Reg] (holds : Holds m a slots v) {r : Reg} (value : BitVec 64)
    (apart : ∀ slot ∈ slots, slot = (r, x) ∨ slot.1 ≠ r ∧ (x + 8 ≤ slot.2 ∨ slot.2 + 8 ≤ x)) :
    Holds (m.store (a + x) 8 value.toNat) a slots (Function.update v r value) := by
  intro slot member
  rcases apart slot member with rfl | ⟨other, clear⟩
  · rw [Function.update_self]
    exact m.fetch_store_same value.isLt
  · rw [Function.update_of_ne other, ← holds slot member]
    exact m.fetch_store_other (by omega)

end Holds

end

/-! ### Code -/

/-- A processor with the memory, up to its program counter. -/
structure State (Reg Csr : Type) where
  reg : Reg → BitVec 64
  csr : Csr → BitVec 64
  mem : Memory

inductive Instr (Reg Csr : Type) where
  | st_d (rd rj : Reg) (si : Nat)
  | ld_d (rd rj : Reg) (si : Nat)
  | addi_d (rd rj : Reg) (si : Int)
  | csrrd (rd : Reg) (csr : Csr)
  | csrwr (rd : Reg) (csr : Csr)
  | invtlb

/-- Where a virtual address lies, by what the control registers hold. -/
abbrev Mmu (Csr : Type) := (Csr → BitVec 64) → BitVec 64 → Option Nat

/-- The `n` bytes at the virtual address lie together at a physical one. -/
def Mapped {Csr : Type} (mmu : Mmu Csr) (csr : Csr → BitVec 64) (va : BitVec 64) (a n : Nat) : Prop :=
  ∀ si, si + 8 ≤ n → mmu csr (va + BitVec.ofNat 64 si) = some (a + si)

variable {Reg Csr : Type} [DecidableEq Reg] [DecidableEq Csr]

namespace State

def setReg (s : State Reg Csr) (r : Reg) (v : BitVec 64) : State Reg Csr :=
  { s with reg := Function.update s.reg r v }

omit [DecidableEq Csr] in
@[simp] theorem setReg_self (s : State Reg Csr) (r : Reg) (v : BitVec 64) : (s.setReg r v).reg r = v :=
  Function.update_self ..

omit [DecidableEq Csr] in
@[simp] theorem setReg_of_ne (s : State Reg Csr) {r r' : Reg} (v : BitVec 64) (other : r' ≠ r) :
    (s.setReg r v).reg r' = s.reg r' := Function.update_of_ne other ..

def setCsr (s : State Reg Csr) (c : Csr) (v : BitVec 64) : State Reg Csr :=
  { s with csr := Function.update s.csr c v }

end State

/-- `none` where the access has no translation. -/
def Instr.exec (mmu : Mmu Csr) (s : State Reg Csr) : Instr Reg Csr → Option (State Reg Csr)
  | .st_d rd rj si => (mmu s.csr (s.reg rj + BitVec.ofNat 64 si)).map fun a =>
      { s with mem := s.mem.store a 8 (s.reg rd).toNat }
  | .ld_d rd rj si => (mmu s.csr (s.reg rj + BitVec.ofNat 64 si)).map fun a =>
      s.setReg rd (BitVec.ofNat 64 (s.mem.fetch a 8))
  | .addi_d rd rj si => some (s.setReg rd (s.reg rj + BitVec.ofInt 64 si))
  | .csrrd rd c => some (s.setReg rd (s.csr c))
  -- the two registers change places
  | .csrwr rd c => some ((s.setReg rd (s.csr c)).setCsr c (s.reg rd))
  | .invtlb => some s

def run (mmu : Mmu Csr) : List (Instr Reg Csr) → State Reg Csr → Option (State Reg Csr)
  | [], s => some s
  | i :: code, s => (i.exec mmu s).bind (run mmu code)

@[simp] theorem run_nil (mmu : Mmu Csr) (s : State Reg Csr) : run mmu [] s = some s := rfl

@[simp] theorem run_cons (mmu : Mmu Csr) (i : Instr Reg Csr) (code : List (Instr Reg Csr))
    (s : State Reg Csr) : run mmu (i :: code) s = (i.exec mmu s).bind (run mmu code) := rfl

theorem run_append (mmu : Mmu Csr) (first rest : List (Instr Reg Csr)) (s : State Reg Csr) :
    run mmu (first ++ rest) s = (run mmu first s).bind (run mmu rest) := by
  induction first generalizing s with
  | nil => rfl
  | cons i first ih => simp [ih, Option.bind_assoc]

variable {mmu : Mmu Csr} {s t : State Reg Csr} {base : Reg} {slots : List (Reg × Nat)}
  {v : Reg → BitVec 64} {a n si : Nat} {first rest : List (Instr Reg Csr)}

theorem run_append_of (ran : run mmu first s = some t) : run mmu (first ++ rest) s = run mmu rest t := by
  rw [run_append, ran, Option.bind_some]

theorem exec_st_d (mapped : Mapped mmu s.csr (s.reg base) a n) (inside : si + 8 ≤ n) (r : Reg) :
    Instr.exec mmu s (.st_d r base si) = some { s with mem := s.mem.store (a + si) 8 (s.reg r).toNat } := by
  simp [Instr.exec, mapped si inside]

theorem exec_ld_d (mapped : Mapped mmu s.csr (s.reg base) a n) (inside : si + 8 ≤ n) (r : Reg) :
    Instr.exec mmu s (.ld_d r base si) =
      some (s.setReg r (BitVec.ofNat 64 (s.mem.fetch (a + si) 8))) := by
  simp [Instr.exec, mapped si inside]

theorem run_st_d (mapped : Mapped mmu s.csr (s.reg base) a n) (inside : si + 8 ≤ n) (r : Reg) :
    run mmu (.st_d r base si :: rest) s =
      run mmu rest { s with mem := s.mem.store (a + si) 8 (s.reg r).toNat } := by
  rw [run_cons, exec_st_d mapped inside, Option.bind_some]

theorem run_ld_d (mapped : Mapped mmu s.csr (s.reg base) a n) (inside : si + 8 ≤ n) (r : Reg) :
    run mmu (.ld_d r base si :: rest) s =
      run mmu rest (s.setReg r (BitVec.ofNat 64 (s.mem.fetch (a + si) 8))) := by
  rw [run_cons, exec_ld_d mapped inside, Option.bind_some]

omit [DecidableEq Csr] in
/-- Another register may be loaded. -/
theorem Mapped.setReg (mapped : Mapped mmu s.csr (s.reg base) a n) {r : Reg} (other : base ≠ r)
    (value : BitVec 64) : Mapped mmu (s.setReg r value).csr ((s.setReg r value).reg base) a n := by
  rw [State.setReg_of_ne s value other]
  exact mapped

def save (base : Reg) (slots : List (Reg × Nat)) : List (Instr Reg Csr) :=
  slots.map fun slot => .st_d slot.1 base slot.2

def restore (base : Reg) (slots : List (Reg × Nat)) : List (Instr Reg Csr) :=
  slots.map fun slot => .ld_d slot.1 base slot.2

theorem run_save (mapped : Mapped mmu s.csr (s.reg base) a n) (laid : LaidOut n slots) :
    run mmu (save base slots) s = some { s with mem := stored s.reg a slots s.mem } := by
  induction slots generalizing s with
  | nil => rfl
  | cons slot slots ih =>
    have stores := exec_st_d mapped (laid.1 slot List.mem_cons_self) slot.1
    simp only [save, List.map_cons, run_cons, stores, Option.bind_some]
    exact ih mapped laid.tail

/-- The base may be one of the registers, if the frame holds it. -/
theorem run_restore (mapped : Mapped mmu s.csr (s.reg base) a n) (laid : LaidOut n slots)
    (holds : Holds s.mem a slots v) (kept : base ∈ slots.map Prod.fst → v base = s.reg base) :
    run mmu (restore base slots) s =
      some { s with reg := fun r => if r ∈ slots.map Prod.fst then v r else s.reg r } := by
  induction slots generalizing s with
  | nil => simp [restore]
  | cons slot slots ih =>
    have value : BitVec.ofNat 64 (s.mem.fetch (a + slot.2) 8) = v slot.1 := by
      rw [holds slot List.mem_cons_self, BitVec.ofNat_toNat, BitVec.setWidth_eq]
    have loads := exec_ld_d mapped (laid.1 slot List.mem_cons_self) slot.1
    rw [value] at loads
    have still : (s.setReg slot.1 (v slot.1)).reg base = s.reg base := by
      by_cases same : base = slot.1
      · simp [State.setReg, ← same, kept (by simp [same])]
      · simp [State.setReg, same]
    simp only [restore, List.map_cons, run_cons, loads, Option.bind_some]
    refine (ih (s := s.setReg slot.1 (v slot.1)) (still ▸ mapped) laid.tail holds.tail ?_).trans ?_
    · intro later
      rw [still]
      exact kept (List.mem_cons_of_mem _ later)
    · simp only [State.setReg, Option.some.injEq, State.mk.injEq, and_true]
      funext r
      by_cases first : r = slot.1
      · simp [first]
      · rw [Function.update_of_ne first]
        exact if_congr (by simp [first]) rfl rfl

end AvxKernel.Assembly
