import AvxKernel.Lib.Bytes

/-! Bytes that a program lays down one by one at scattered places: what is at
the places afterwards, and that nothing else has changed. Two such runs, one
after the other, are one run over the places of both. -/
namespace AvxKernel

/-- `m'` is `m` with the bytes `value 0`, …, `value (n - 1)` at the places
`place 0`, …, `place (n - 1)`. -/
structure Laid (m m' : Memory) (place : Nat → Nat) (value : Nat → UInt8) (n : Nat) : Prop where
  here : ∀ i < n, m' (place i) = value i
  away : ∀ a, (∀ i < n, place i ≠ a) → m' a = m a

namespace Laid

variable {m m' m'' : Memory} {place place' : Nat → Nat} {value value' : Nat → UInt8} {n k a : Nat}

theorem nil : Laid m m place value 0 where
  here := fun i hi => absurd hi (Nat.not_lt_zero i)
  away := fun _ _ => rfl

theorem congr (h : Laid m m' place value n) (places : ∀ i < n, place' i = place i)
    (values : ∀ i < n, value' i = value i) : Laid m m' place' value' n where
  here := fun i hi => by rw [places i hi, values i hi, h.here i hi]
  away := fun a out => h.away a fun i hi => places i hi ▸ out i hi

/-- The places of the second run are none of the first. -/
theorem append (first : Laid m m' place value k)
    (rest : Laid m' m'' (fun i => place (k + i)) (fun i => value (k + i)) n)
    (apart : ∀ i < k, ∀ j < n, place (k + j) ≠ place i) : Laid m m'' place value (k + n) where
  here := by
    intro i hi
    by_cases early : i < k
    · rw [rest.away _ (apart i early), first.here i early]
    · obtain ⟨j, rfl⟩ := Nat.exists_eq_add_of_le (Nat.le_of_not_lt early)
      exact rest.here j (by omega)
  away := by
    intro a out
    rw [rest.away a fun j hj => out (k + j) (by omega)]
    exact first.away a fun i hi => out i (by omega)

/-- `memmove`. -/
theorem copy (m : Memory) (dst src n : Nat) :
    Laid m (m.copy dst src n) (fun i => dst + i) (fun i => m (src + i)) n where
  here := by
    intro i hi
    have inside : dst ≤ dst + i ∧ dst + i < dst + n := by omega
    rw [Memory.copy, if_pos inside, Nat.add_sub_cancel_left]
  away := by
    intro a out
    apply m.copy_outside
    by_contra inside
    exact out (a - dst) (by omega) (by omega)

theorem blit (m : Memory) (a : Nat) (bs : List UInt8) :
    Laid m (m.blit a bs) (fun i => a + i) (fun i => bs.getD i 0) bs.length where
  here := by
    intro i hi
    rw [m.blit_inside a hi, List.getD_eq_getElem _ _ hi]
  away := by
    intro x out
    apply m.blit_outside
    by_contra inside
    exact out (x - a) (by omega) (by omega)

/-- One byte. -/
theorem fill (m : Memory) (a : Nat) (b : UInt8) :
    Laid m (m.fill a 1 b) (fun i => a + i) (fun _ => b) 1 where
  here := fun i hi => m.fill_inside (by omega) (by omega)
  away := by
    intro x out
    apply m.fill_outside
    have := out 0 Nat.one_pos
    omega

/-- Bytes laid down side by side. -/
theorem window (h : Laid m m' (fun i => a + i) value n) :
    m'.window a n = (List.range n).map value :=
  List.map_congr_left fun i hi => h.here i (List.mem_range.mp hi)

/-- Bytes laid down side by side leave the others as they were. -/
theorem outside (h : Laid m m' (fun i => a + i) value n) {x : Nat} (out : x < a ∨ a + n ≤ x) :
    m' x = m x :=
  h.away x fun i hi => by omega

variable {size : Nat} {xs ys : List UInt8}

/-- Bytes laid down in a ring of so many places, before its end. -/
theorem ring (m : Memory) (inside : a + xs.length ≤ size) :
    Laid m (m.blit a xs) (fun i => (a + i) % size) (fun i => xs.getD i 0) xs.length := by
  apply (blit m a xs).congr
  · intro i hi
    exact Nat.mod_eq_of_lt (by omega)
  · exact fun _ _ => rfl

/-- Bytes laid down across the end of a ring. -/
theorem ring_across (m : Memory) (meets : a + xs.length = size) (short : ys.length ≤ a) :
    Laid m ((m.blit a xs).blit 0 ys) (fun i => (a + i) % size) (fun i => (xs ++ ys).getD i 0)
      (xs ++ ys).length := by
  have back (j : Nat) (hj : j < ys.length) : (a + (xs.length + j)) % size = j := by
    rw [← Nat.add_assoc, meets, Nat.add_mod_left, Nat.mod_eq_of_lt (by omega)]
  have first : Laid m (m.blit a xs) (fun i => (a + i) % size) (fun i => (xs ++ ys).getD i 0) xs.length := by
    apply (ring m (Nat.le_of_eq meets)).congr
    · exact fun _ _ => rfl
    · exact fun i hi => List.getD_append _ _ _ _ hi
  have rest : Laid (m.blit a xs) ((m.blit a xs).blit 0 ys) (fun j => (a + (xs.length + j)) % size)
      (fun j => (xs ++ ys).getD (xs.length + j) 0) ys.length := by
    apply (blit (m.blit a xs) 0 ys).congr
    · exact fun j hj => (back j hj).trans (Nat.zero_add j).symm
    · intro j _
      rw [List.getD_append_right _ _ _ _ (Nat.le_add_right _ _), Nat.add_sub_cancel_left]
  rw [List.length_append]
  apply first.append rest
  intro i hi j hj
  rw [back j hj, Nat.mod_eq_of_lt (show a + i < size by omega)]
  omega

end Laid

namespace Memory

variable {m : Memory} {a n k size : Nat}

/-- Bytes of a ring that lie before its end. -/
theorem window_ring (inside : a + n ≤ size) :
    m.window a n = (List.range n).map fun i => m ((a + i) % size) := by
  apply List.map_congr_left
  intro i hi
  have hi := List.mem_range.mp hi
  rw [Nat.mod_eq_of_lt (show a + i < size by omega)]

/-- Bytes of a ring that lie across its end. -/
theorem window_ring_across (meets : a + n = size) (short : k ≤ size) :
    m.window a n ++ m.window 0 k = (List.range (n + k)).map fun i => m ((a + i) % size) := by
  rw [window_ring (Nat.le_of_eq meets), List.range_add, List.map_append, List.map_map]
  congr 1
  apply List.map_congr_left
  intro i hi
  have hi := List.mem_range.mp hi
  rw [Function.comp_apply, ← Nat.add_assoc, meets, Nat.add_mod_left, Nat.mod_eq_of_lt (by omega),
    Nat.zero_add]

end Memory

end AvxKernel
