import AvxKernel.Params
import Mathlib.Data.Nat.Bitwise

/-! Page-table entries and the direct-map window: the macros of `loongarch.h`
and `memlayout.h`, and the facts about their bits that keep frames, flags and
the window apart. -/
namespace AvxKernel.Vm

def DMWIN_MASK : Nat := 0x9000000000000000

def PTE_V : Nat := 1 <<< 0
def PTE_D : Nat := 1 <<< 1
def PTE_PLV3 : Nat := 3 <<< 2
def PTE_MAT : Nat := 1 <<< 4
def PTE_P : Nat := 1 <<< 7
def PTE_W : Nat := 1 <<< 8

def PAMASK : Nat := 0xFFFFFFFFF <<< 12

/-- `PAMASK` has no parentheses of its own, and `&` binds tighter than `|`. -/
def PTE2PA (pte : Nat) : Nat := pte &&& PAMASK ||| DMWIN_MASK

def PA2PTE (pa : Nat) : Nat := pa &&& PAMASK

def PTE_FLAGS (pte : Nat) : Nat := pte &&& 0xE0000000000001FF

def PXSHIFT (level : Nat) : Nat := 12 + 9 * level

def PX (level va : Nat) : Nat := va >>> PXSHIFT level &&& 0x1FF

def MAXVA : Nat := 1 <<< (9 + 9 + 9 + 9 + 12 - 2)

theorem MAXVA_eq : MAXVA = 2 ^ 46 := rfl

def PGROUNDDOWN (a : Nat) : Nat := a / PGSIZE * PGSIZE

def PGROUNDUP (sz : Nat) : Nat := u64 (sz + PGSIZE - 1) / PGSIZE * PGSIZE

def TRAMPOLINE : Nat := MAXVA - PGSIZE
def TRAPFRAME : Nat := TRAMPOLINE - PGSIZE
def SIGTRAMPOLINE : Nat := TRAPFRAME - PGSIZE
def VKSTACK : Nat := SIGTRAMPOLINE - PGSIZE
def KSTACKSIZE : Nat := 6 * PGSIZE
def EXTRASIZE : Nat := 2 * PGSIZE

def PROCVKSTACK (paddrnum : Nat) : Nat :=
  VKSTACK - (paddrnum + 1) % (NPROC + 1) * (KSTACKSIZE + EXTRASIZE) + EXTRASIZE

def RAMBASE : Nat := 0x90000000 ||| DMWIN_MASK
def RAMSTOP : Nat := RAMBASE + 128 * 1024 * 1024

/-- A page-aligned address in the window, as the kernel hands out memory. -/
def Frame (pa : Nat) : Prop := ∃ x < 2 ^ 48, PGSIZE ∣ x ∧ pa = DMWIN_MASK ||| x

theorem testBit_PAMASK (i : Nat) : PAMASK.testBit i = decide (12 ≤ i ∧ i < 48) := by
  rw [PAMASK, show 0xFFFFFFFFF = 2 ^ 36 - 1 by rfl, Nat.testBit_shiftLeft,
    Nat.testBit_two_pow_sub_one, ← Bool.decide_and]
  exact decide_eq_decide.mpr (by omega)

theorem testBit_DMWIN_MASK (i : Nat) : DMWIN_MASK.testBit i = decide (i = 60 ∨ i = 63) := by
  rw [DMWIN_MASK, show 0x9000000000000000 = 2 ^ 60 ||| 2 ^ 63 by decide, Nat.testBit_or,
    Nat.testBit_two_pow, Nat.testBit_two_pow, ← Bool.decide_or]
  exact decide_eq_decide.mpr (by omega)

theorem testBit_flags (i : Nat) :
    Nat.testBit 0xE0000000000001FF i = decide (i < 9 ∨ 61 ≤ i ∧ i < 64) := by
  rw [show 0xE0000000000001FF = (2 ^ 9 - 1) ||| (2 ^ 3 - 1) <<< 61 by decide, Nat.testBit_or,
    Nat.testBit_shiftLeft, Nat.testBit_two_pow_sub_one, Nat.testBit_two_pow_sub_one,
    ← Bool.decide_and, ← Bool.decide_or]
  exact decide_eq_decide.mpr (by omega)

theorem and_PAMASK (n : Nat) : n &&& PAMASK = PGSIZE * (n / 2 ^ 12 % 2 ^ 36) := by
  apply Nat.eq_of_testBit_eq
  intro i
  rw [show PGSIZE = 2 ^ 12 by rfl, Nat.testBit_two_pow_mul, Nat.testBit_mod_two_pow,
    Nat.testBit_div_two_pow, Nat.testBit_and, testBit_PAMASK]
  by_cases low : 12 ≤ i
  · have : i - 12 < 36 ↔ i < 48 := by omega
    simp [low, this, Bool.and_comm]
  · simp [low]

theorem DMWIN_MASK_or {x : Nat} (h : x < 2 ^ 48) : DMWIN_MASK ||| x = DMWIN_MASK + x := by
  rw [DMWIN_MASK, show 0x9000000000000000 = 2 ^ 48 * 0x9000 by rfl]
  exact (Nat.two_pow_add_eq_or_of_lt h _).symm

theorem PTE2PA_frame (pte : Nat) : Frame (PTE2PA pte) := by
  have small : pte / 2 ^ 12 % 2 ^ 36 < 2 ^ 36 := Nat.mod_lt _ (by decide)
  refine ⟨pte &&& PAMASK, ?_, ?_, by rw [PTE2PA, Nat.or_comm]⟩
  · rw [and_PAMASK, PGSIZE]
    omega
  · rw [and_PAMASK]
    exact Nat.dvd_mul_right _ _

theorem Frame.eq_add {pa : Nat} (h : Frame pa) : ∃ k < 2 ^ 36, pa = DMWIN_MASK + PGSIZE * k := by
  obtain ⟨x, hx, ⟨k, rfl⟩, rfl⟩ := h
  refine ⟨k, ?_, DMWIN_MASK_or hx⟩
  rw [PGSIZE] at hx
  omega

theorem Frame.dvd {pa : Nat} (h : Frame pa) : PGSIZE ∣ pa := by
  obtain ⟨k, _, rfl⟩ := h.eq_add
  exact Nat.dvd_add (by decide) (Nat.dvd_mul_right _ _)

theorem Frame.lt {pa : Nat} (h : Frame pa) : pa < 2 ^ 64 := by
  obtain ⟨k, hk, rfl⟩ := h.eq_add
  rw [DMWIN_MASK, PGSIZE]
  omega

theorem Frame.pos {pa : Nat} (h : Frame pa) : 0 < pa := by
  obtain ⟨k, _, rfl⟩ := h.eq_add
  rw [DMWIN_MASK]
  omega

/-- Distinct frames share no byte. -/
theorem Frame.disjoint {pa pb i : Nat} (ha : Frame pa) (hb : Frame pb) (ne : pa ≠ pb)
    (hi : pa ≤ i ∧ i < pa + PGSIZE) : i < pb ∨ pb + PGSIZE ≤ i := by
  obtain ⟨k, _, rfl⟩ := ha.eq_add
  obtain ⟨l, _, rfl⟩ := hb.eq_add
  rw [PGSIZE] at *
  omega

theorem Frame.apart {pa pb : Nat} (ha : Frame pa) (hb : Frame pb) (ne : pa ≠ pb) :
    pa + PGSIZE ≤ pb ∨ pb + PGSIZE ≤ pa := by
  obtain ⟨k, _, rfl⟩ := ha.eq_add
  obtain ⟨l, _, rfl⟩ := hb.eq_add
  rw [PGSIZE] at *
  omega

/-- The frame bits survive a trip through an entry. -/
theorem PTE2PA_PA2PTE {pa flags : Nat} (h : Frame pa)
    (apart : ∀ i, 12 ≤ i → i < 48 → flags.testBit i = false) :
    PTE2PA (PA2PTE pa ||| flags) = pa := by
  obtain ⟨k, hk, rfl⟩ := h.eq_add
  have hx : PGSIZE * k < 2 ^ 48 := by
    rw [PGSIZE]
    omega
  rw [← DMWIN_MASK_or hx]
  apply Nat.eq_of_testBit_eq
  intro i
  have low : (PGSIZE * k).testBit i = true → 12 ≤ i ∧ i < 48 := by
    intro set
    rw [show PGSIZE = 2 ^ 12 by rfl, Nat.testBit_two_pow_mul] at set
    simp only [Bool.and_eq_true, decide_eq_true_eq] at set
    refine ⟨set.1, ?_⟩
    by_contra high
    rw [Nat.testBit_lt_two_pow (lt_of_lt_of_le hk (Nat.pow_le_pow_right (by omega) (by omega)))]
      at set
    exact absurd set.2 (by simp)
  simp only [PTE2PA, PA2PTE, Nat.testBit_or, Nat.testBit_and, testBit_PAMASK, testBit_DMWIN_MASK]
  by_cases inside : 12 ≤ i ∧ i < 48
  · have window : ¬(i = 60 ∨ i = 63) := by omega
    simp [inside, window, apart i inside.1 inside.2]
  · have clear : (PGSIZE * k).testBit i = false := by
      by_contra set
      exact inside (low (by simpa using set))
    simp only [inside, decide_false, Bool.and_false, Bool.false_or, clear, Bool.or_false]

/-- What `walk` stores for a table page. -/
def pde (pa : Nat) : Nat := PA2PTE pa ||| PTE_V ||| DMWIN_MASK

/-- What `mappages` stores for a frame. -/
def leaf (pa perm : Nat) : Nat := PA2PTE pa ||| perm ||| PTE_V ||| PTE_MAT ||| PTE_D

theorem leaf_eq (pa perm : Nat) :
    leaf pa perm = PA2PTE pa ||| (perm ||| PTE_V ||| PTE_MAT ||| PTE_D) := by
  simp only [leaf, Nat.or_assoc]

theorem flags_lt {perm : Nat} (low : perm < 2 ^ 9) : perm ||| PTE_V ||| PTE_MAT ||| PTE_D < 2 ^ 9 :=
  Nat.or_lt_two_pow (Nat.or_lt_two_pow (Nat.or_lt_two_pow low (by decide)) (by decide)) (by decide)

theorem testBit_above {n k i : Nat} (low : n < 2 ^ k) (h : k ≤ i) : n.testBit i = false :=
  Nat.testBit_lt_two_pow (lt_of_lt_of_le low (Nat.pow_le_pow_right (by omega) h))

theorem PTE2PA_pde {pa : Nat} (h : Frame pa) : PTE2PA (pde pa) = pa := by
  rw [pde, Nat.or_assoc]
  apply PTE2PA_PA2PTE h
  intro i low high
  have window : ¬(i = 60 ∨ i = 63) := by omega
  have valid : ¬0 = i := by omega
  rw [Nat.testBit_or, testBit_DMWIN_MASK, show PTE_V = 2 ^ 0 by rfl, Nat.testBit_two_pow]
  simp [window, valid]

theorem PTE2PA_leaf {pa perm : Nat} (h : Frame pa) (low : perm < 2 ^ 9) :
    PTE2PA (leaf pa perm) = pa := by
  rw [leaf_eq]
  exact PTE2PA_PA2PTE h fun i hi _ => testBit_above (flags_lt low) (by omega)

theorem PTE_FLAGS_leaf (pa : Nat) {perm : Nat} (low : perm < 2 ^ 9) :
    PTE_FLAGS (leaf pa perm) = perm ||| PTE_V ||| PTE_MAT ||| PTE_D := by
  apply Nat.eq_of_testBit_eq
  intro i
  rw [PTE_FLAGS, leaf_eq, Nat.testBit_and, testBit_flags, Nat.testBit_or, PA2PTE, Nat.testBit_and,
    testBit_PAMASK]
  by_cases hi : i < 9
  · have : ¬(12 ≤ i ∧ i < 48) := by omega
    simp [hi, this]
  · rw [testBit_above (flags_lt low) (by omega)]
    by_cases inside : 12 ≤ i ∧ i < 48
    · have : ¬(i < 9 ∨ 61 ≤ i ∧ i < 64) := by omega
      simp [this]
    · simp [inside]

theorem and_PTE_V (n : Nat) : n &&& PTE_V = n % 2 := Nat.and_one_is_mod n

theorem odd_of_testBit {n : Nat} (h : n.testBit 0 = true) : n % 2 = 1 := by
  simpa [Nat.testBit_zero] using h

theorem pde_valid (pa : Nat) : pde pa &&& PTE_V ≠ 0 := by
  have : pde pa % 2 = 1 := odd_of_testBit (by simp [pde, PTE_V])
  rw [and_PTE_V]
  omega

theorem leaf_valid (pa perm : Nat) : leaf pa perm &&& PTE_V ≠ 0 := by
  have : leaf pa perm % 2 = 1 := odd_of_testBit (by simp [leaf, PTE_V])
  rw [and_PTE_V]
  omega

theorem PA2PTE_lt (pa : Nat) : PA2PTE pa < 2 ^ 64 :=
  lt_of_le_of_lt Nat.and_le_right (by decide)

theorem pde_lt (pa : Nat) : pde pa < 2 ^ 64 :=
  Nat.or_lt_two_pow (Nat.or_lt_two_pow (PA2PTE_lt pa) (by decide)) (by decide)

theorem leaf_lt (pa : Nat) {perm : Nat} (low : perm < 2 ^ 9) : leaf pa perm < 2 ^ 64 := by
  rw [leaf_eq]
  exact Nat.or_lt_two_pow (PA2PTE_lt pa) (lt_trans (flags_lt low) (by decide))

/-- A leaf entry is never taken for an interior one. -/
theorem PTE_FLAGS_leaf_ne (pa : Nat) {perm : Nat} (low : perm < 2 ^ 9) :
    PTE_FLAGS (leaf pa perm) ≠ PTE_V := by
  rw [PTE_FLAGS_leaf pa low]
  intro h
  have : (perm ||| PTE_V ||| PTE_MAT ||| PTE_D).testBit 1 = PTE_V.testBit 1 := by rw [h]
  rw [Nat.testBit_or, show PTE_D.testBit 1 = true by decide, show PTE_V.testBit 1 = false by decide,
    Bool.or_true] at this
  cases this

theorem PX_lt (level va : Nat) : PX level va < 512 :=
  lt_of_le_of_lt Nat.and_le_right (by decide)

theorem PX_eq (level va : Nat) : PX level va = va / 2 ^ PXSHIFT level % 512 := by
  rw [PX, Nat.shiftRight_eq_div_pow, show 0x1FF = 2 ^ 9 - 1 by rfl, Nat.and_two_pow_sub_one_eq_mod]

/-- An address below `MAXVA` is not in the window. -/
theorem window_of_lt {va : Nat} (h : va < MAXVA) : va &&& DMWIN_MASK = 0 := by
  apply Nat.eq_of_testBit_eq
  intro i
  rw [Nat.testBit_and, testBit_DMWIN_MASK, Nat.zero_testBit]
  by_cases hi : i = 60 ∨ i = 63
  · rw [testBit_above (show va < 2 ^ 46 from h) (by omega), Bool.false_and]
  · simp [hi]

/-- Rounding down to a page keeps the window bits. -/
theorem window_PGROUNDDOWN (va : Nat) : PGROUNDDOWN va &&& DMWIN_MASK = va &&& DMWIN_MASK := by
  apply Nat.eq_of_testBit_eq
  intro i
  rw [Nat.testBit_and, Nat.testBit_and, testBit_DMWIN_MASK]
  by_cases hi : i = 60 ∨ i = 63
  · have high : 12 ≤ i := by omega
    rw [PGROUNDDOWN, Nat.mul_comm, show PGSIZE = 2 ^ 12 by rfl, Nat.testBit_two_pow_mul,
      Nat.testBit_div_two_pow, Nat.sub_add_cancel high]
    simp [high]
  · simp [hi]

end AvxKernel.Vm
