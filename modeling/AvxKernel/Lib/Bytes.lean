import Mathlib.Data.List.GetD
import Mathlib.Data.List.Range
import Mathlib.Tactic.Ring

/-! Byte-addressed memory and little-endian fields. A disk, the kernel's
physical memory and a 32-byte directory slot are all such memories; addresses
are unbounded, so the wrap-around of a machine address belongs to the program
that computes it. -/
namespace AvxKernel

abbrev Memory := Nat → UInt8

/-- The bytes of a little-endian field, least significant first. -/
def bytesOf (v : Nat) : Nat → List UInt8
  | 0 => []
  | w + 1 => UInt8.ofNat v :: bytesOf (v / 256) w

def valueOf : List UInt8 → Nat
  | [] => 0
  | b :: rest => b.toNat + 256 * valueOf rest

theorem bytesOf_succ (v w : Nat) : bytesOf v (w + 1) = UInt8.ofNat v :: bytesOf (v / 256) w := rfl

theorem valueOf_cons (b : UInt8) (rest : List UInt8) : valueOf (b :: rest) = b.toNat + 256 * valueOf rest := rfl

@[simp] theorem bytesOf_length (v w : Nat) : (bytesOf v w).length = w := by
  induction w generalizing v with
  | zero => rfl
  | succ w ih => rw [bytesOf_succ, List.length_cons, ih]

theorem valueOf_lt (bs : List UInt8) : valueOf bs < 256 ^ bs.length := by
  induction bs with
  | nil => exact Nat.one_pos
  | cons b rest ih =>
    have hb := b.toNat_lt
    rw [valueOf_cons, List.length_cons, Nat.pow_succ]
    omega

theorem valueOf_bytesOf {v w : Nat} (h : v < 256 ^ w) : valueOf (bytesOf v w) = v := by
  induction w generalizing v with
  | zero =>
    rw [Nat.pow_zero, Nat.lt_one_iff] at h
    rw [h]
    rfl
  | succ w ih =>
    have small : v / 256 < 256 ^ w := by
      apply (Nat.div_lt_iff_lt_mul (by decide)).mpr
      simpa only [Nat.pow_succ] using h
    have byte : (UInt8.ofNat v).toNat = v % 256 := by simp
    rw [bytesOf_succ, valueOf_cons, ih small, byte]
    omega

theorem valueOf_bytesOf_mod (v w : Nat) : valueOf (bytesOf v w) = v % 256 ^ w := by
  induction w generalizing v with
  | zero => exact (Nat.mod_one v).symm
  | succ w ih =>
    have byte : (UInt8.ofNat v).toNat = v % 256 := by simp
    rw [bytesOf_succ, valueOf_cons, ih, byte, Nat.pow_succ', Nat.mod_mul]

/-- A little-endian field of a record, given by its offset and its width. -/
def field (bytes : List UInt8) (off w : Nat) : Nat := valueOf ((bytes.drop off).take w)

theorem field_append_left {xs ys : List UInt8} {off w : Nat} (h : off + w ≤ xs.length) :
    field (xs ++ ys) off w = field xs off w := by
  rw [field, field, List.drop_append_of_le_length (by omega), List.take_append_of_le_length]
  rw [List.length_drop]
  omega

theorem field_append_right {xs ys : List UInt8} {off w : Nat} (h : xs.length ≤ off) :
    field (xs ++ ys) off w = field ys (off - xs.length) w := by
  rw [field, field, List.drop_append, List.drop_eq_nil_of_le h, List.nil_append]

theorem field_take {xs : List UInt8} {n off w : Nat} (h : off + w ≤ n) :
    field (xs.take n) off w = field xs off w := by
  rw [field, field, List.drop_take, List.take_take, Nat.min_eq_left (by omega)]

theorem field_drop (xs : List UInt8) (n off w : Nat) :
    field (xs.drop n) off w = field xs (n + off) w := by
  rw [field, field, List.drop_drop]

theorem field_bytesOf {v w : Nat} (h : v < 256 ^ w) : field (bytesOf v w) 0 w = v := by
  rw [field, List.drop_zero, List.take_of_length_le (by simp), valueOf_bytesOf h]

theorem field_one (xs : List UInt8) (off : Nat) : field xs off 1 = (xs.getD off 0).toNat := by
  rw [field, List.getD_eq_getElem?_getD]
  cases h : xs[off]? with
  | none =>
    rw [List.drop_eq_nil_of_le (List.getElem?_eq_none_iff.mp h)]
    rfl
  | some b =>
    obtain ⟨lt, hb⟩ := List.getElem?_eq_some_iff.mp h
    rw [List.drop_eq_getElem_cons lt, hb]
    simp [valueOf]

namespace Memory

/-- The `n` bytes from address `a` on. -/
def window (m : Memory) (a n : Nat) : List UInt8 :=
  (List.range n).map fun i => m (a + i)

/-- Lay a list of bytes down at address `a`. -/
def blit (m : Memory) (a : Nat) (bs : List UInt8) : Memory := fun i =>
  if a ≤ i ∧ i < a + bs.length then bs.getD (i - a) 0 else m i

/-- `memset`. -/
def fill (m : Memory) (a n : Nat) (b : UInt8) : Memory := fun i =>
  if a ≤ i ∧ i < a + n then b else m i

/-- `memmove`: the source is read before any byte of the target is written. -/
def copy (m : Memory) (dst src n : Nat) : Memory := fun i =>
  if dst ≤ i ∧ i < dst + n then m (src + (i - dst)) else m i

def fetch (m : Memory) (a w : Nat) : Nat :=
  valueOf (m.window a w)

def store (m : Memory) (a w v : Nat) : Memory :=
  m.blit a (bytesOf v w)

@[simp] theorem window_length (m : Memory) (a n : Nat) : (m.window a n).length = n := by
  simp [window]

theorem window_getElem (m : Memory) (a n i : Nat) (h : i < (m.window a n).length) :
    (m.window a n)[i] = m (a + i) := by
  simp [window]

/-- Windows of two memories, at places of their own. -/
theorem window_eq {m m' : Memory} {a b n : Nat} (h : ∀ i < n, m (a + i) = m' (b + i)) :
    m.window a n = m'.window b n := by
  apply List.map_congr_left
  intro i hi
  exact h i (List.mem_range.mp hi)

theorem window_congr {m m' : Memory} {a n : Nat} (h : ∀ i < n, m (a + i) = m' (a + i)) :
    m.window a n = m'.window a n :=
  window_eq h

theorem window_append (m : Memory) (a n k : Nat) :
    m.window a (n + k) = m.window a n ++ m.window (a + n) k := by
  simp only [window, List.range_add, List.map_append, List.map_map, Nat.add_assoc]
  rfl

theorem blit_outside (m : Memory) {a i : Nat} {bs : List UInt8}
    (h : i < a ∨ a + bs.length ≤ i) : m.blit a bs i = m i := by
  have : ¬ (a ≤ i ∧ i < a + bs.length) := by omega
  simp [blit, this]

theorem blit_inside (m : Memory) (a : Nat) {bs : List UInt8} {i : Nat} (h : i < bs.length) :
    m.blit a bs (a + i) = bs[i] := by
  simp [blit, h]

theorem window_blit_same (m : Memory) (a : Nat) (bs : List UInt8) :
    (m.blit a bs).window a bs.length = bs := by
  apply List.ext_getElem
  · simp
  · intro i h₁ h₂
    rw [window_getElem, blit_inside m a h₂]

theorem window_blit_outside (m : Memory) {a b n : Nat} {bs : List UInt8}
    (h : b + n ≤ a ∨ a + bs.length ≤ b) : (m.blit a bs).window b n = m.window b n := by
  apply window_congr
  intro i hi
  exact m.blit_outside (by omega)

theorem blit_append (m : Memory) (a : Nat) (xs ys : List UInt8) :
    (m.blit a xs).blit (a + xs.length) ys = m.blit a (xs ++ ys) := by
  funext i
  simp only [blit, List.length_append]
  by_cases first : a ≤ i ∧ i < a + xs.length
  · rw [if_neg (by omega), if_pos first, if_pos (by omega), List.getD_append _ _ _ _ (by omega)]
  · by_cases second : a + xs.length ≤ i ∧ i < a + xs.length + ys.length
    · have shift : i - a - xs.length = i - (a + xs.length) := by omega
      rw [if_pos second, if_pos (by omega), List.getD_append_right _ _ _ _ (by omega), shift]
    · rw [if_neg second, if_neg first, if_neg (by omega)]

theorem blit_nil (m : Memory) (a : Nat) : m.blit a [] = m := by
  funext i
  exact m.blit_outside (by simp; omega)

theorem fill_outside (m : Memory) {a n i : Nat} {b : UInt8} (h : i < a ∨ a + n ≤ i) :
    m.fill a n b i = m i := by
  have : ¬ (a ≤ i ∧ i < a + n) := by omega
  simp [fill, this]

theorem fill_inside (m : Memory) {a n i : Nat} {b : UInt8} (h : a ≤ i) (h' : i < a + n) :
    m.fill a n b i = b := by
  simp [fill, h, h']

theorem fill_zero (m : Memory) (a : Nat) (b : UInt8) : m.fill a 0 b = m :=
  funext fun _ => if_neg (by omega)

theorem fill_succ (m : Memory) (a n : Nat) (b : UInt8) :
    (m.fill a n b).fill (a + n) 1 b = m.fill a (n + 1) b := by
  funext i
  simp only [fill]
  by_cases last : i = a + n
  · rw [if_pos (by omega), if_pos (by omega)]
  · rw [if_neg (by omega)]
    exact if_congr (by omega) rfl rfl

theorem copy_outside (m : Memory) {dst src n i : Nat} (h : i < dst ∨ dst + n ≤ i) :
    m.copy dst src n i = m i := by
  have : ¬ (dst ≤ i ∧ i < dst + n) := by omega
  simp [copy, this]

theorem fetch_lt (m : Memory) (a w : Nat) : m.fetch a w < 256 ^ w := by
  simpa [fetch] using valueOf_lt (m.window a w)

theorem fetch_congr {m m' : Memory} {a w : Nat} (h : ∀ i < w, m (a + i) = m' (a + i)) :
    m.fetch a w = m'.fetch a w := by
  rw [fetch, fetch, window_congr h]

theorem fetch_store_same (m : Memory) {a w v : Nat} (h : v < 256 ^ w) :
    (m.store a w v).fetch a w = v := by
  have hw := window_blit_same m a (bytesOf v w)
  rw [bytesOf_length] at hw
  rw [fetch, store, hw, valueOf_bytesOf h]

theorem fetch_store (m : Memory) (a w v : Nat) : (m.store a w v).fetch a w = v % 256 ^ w := by
  have hw := window_blit_same m a (bytesOf v w)
  rw [bytesOf_length] at hw
  rw [fetch, Memory.store, hw, valueOf_bytesOf_mod]

theorem store_outside (m : Memory) {a w v i : Nat} (h : i < a ∨ a + w ≤ i) :
    m.store a w v i = m i :=
  m.blit_outside (by simpa using h)

theorem fetch_store_other (m : Memory) {a w v b u : Nat} (h : b + u ≤ a ∨ a + w ≤ b) :
    (m.store a w v).fetch b u = m.fetch b u := by
  apply fetch_congr
  intro i hi
  exact m.store_outside (by omega)

theorem valueOf_replicate_zero (n : Nat) : valueOf (List.replicate n 0) = 0 := by
  induction n with
  | zero => rfl
  | succ n ih => simp [List.replicate_succ, valueOf_cons, ih]

theorem fetch_zero {m : Memory} {b w : Nat} (h : ∀ i < w, m (b + i) = 0) : m.fetch b w = 0 := by
  have hw : m.window b w = List.replicate w 0 := by
    apply List.ext_getElem
    · simp
    · intro i h₁ h₂
      rw [window_length] at h₁
      rw [window_getElem, h i h₁]
      simp
  rw [fetch, hw, valueOf_replicate_zero]

theorem valueOf_eq_zero {bs : List UInt8} (h : valueOf bs = 0) : ∀ b ∈ bs, b = 0 := by
  induction bs with
  | nil => simp
  | cons b rest ih =>
    rw [valueOf_cons] at h
    intro b' hb
    rcases List.mem_cons.mp hb with rfl | later
    · exact UInt8.toNat_inj.mp (by rw [UInt8.toNat_zero]; omega)
    · exact ih (by omega) b' later

theorem fetch_eq_zero {m : Memory} {b w : Nat} : m.fetch b w = 0 ↔ ∀ i < w, m (b + i) = 0 := by
  constructor
  · intro zero i hi
    exact valueOf_eq_zero zero _ (List.mem_map.mpr ⟨i, List.mem_range.mpr hi, rfl⟩)
  · exact fetch_zero

theorem fetch_fill_zero (m : Memory) {a n b w : Nat} (h : a ≤ b) (h' : b + w ≤ a + n) :
    (m.fill a n 0).fetch b w = 0 :=
  fetch_zero fun _ hi => fill_inside m (by omega) (by omega)

end Memory

end AvxKernel
