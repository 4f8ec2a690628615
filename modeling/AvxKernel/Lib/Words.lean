import AvxKernel.Lib.Bytes

/-! Tables of 64-bit words in a memory. -/
namespace AvxKernel

/-- The words of a table, from address `a` on. -/
def Words (m : Memory) (a : Nat) (ws : List Nat) : Prop :=
  ∀ i (h : i < ws.length), m.fetch (a + 8 * i) 8 = ws[i]

namespace Words

variable {m m' : Memory} {a b w n : Nat} {xs ys ws : List Nat}

theorem nil : Words m a [] := fun _ h => absurd h (Nat.not_lt_zero _)

theorem cons_iff : Words m a (w :: ws) ↔ m.fetch a 8 = w ∧ Words m (a + 8) ws := by
  constructor
  · intro h
    constructor
    · exact h 0 (Nat.succ_pos _)
    · intro i hi
      have next := h (i + 1) (Nat.succ_lt_succ hi)
      rw [Nat.mul_add_one, Nat.add_comm (8 * i) 8, ← Nat.add_assoc] at next
      exact next
  · rintro ⟨first, rest⟩ i hi
    cases i with
    | zero => exact first
    | succ i =>
      rw [Nat.mul_add_one, Nat.add_comm (8 * i) 8, ← Nat.add_assoc]
      exact rest i (Nat.lt_of_succ_lt_succ hi)

theorem singleton_iff : Words m a [w] ↔ m.fetch a 8 = w := by
  rw [cons_iff]
  exact and_iff_left nil

theorem append_iff : Words m a (xs ++ ys) ↔ Words m a xs ∧ Words m (a + 8 * xs.length) ys := by
  induction xs generalizing a with
  | nil => exact (and_iff_right nil).symm
  | cons x xs ih =>
    have shift : a + 8 + 8 * xs.length = a + 8 * (x :: xs).length := by
      rw [List.length_cons]
      omega
    rw [List.cons_append, cons_iff, cons_iff, ih, shift, and_assoc]

theorem append (first : Words m a xs) (rest : Words m b ys) (next : b = a + 8 * xs.length) :
    Words m a (xs ++ ys) :=
  append_iff.mpr ⟨first, next ▸ rest⟩

theorem cons (first : m.fetch a 8 = w) (rest : Words m (a + 8) ws) : Words m a (w :: ws) :=
  cons_iff.mpr ⟨first, rest⟩

theorem congr (h : Words m a ws) (same : ∀ x, a ≤ x → x < a + 8 * ws.length → m' x = m x) :
    Words m' a ws := by
  intro i hi
  rw [← h i hi]
  apply Memory.fetch_congr
  intro j hj
  exact same _ (by omega) (by omega)

/-- A table and a store outside it. -/
theorem store_other (h : Words m a ws) {v : Nat} (apart : a + 8 * ws.length ≤ b ∨ b + n ≤ a) :
    Words (m.store b n v) a ws :=
  h.congr fun _ _ _ => Memory.store_outside _ (by omega)

/-- One more word at the end. -/
theorem store_next (h : Words m a ws) (next : b = a + 8 * ws.length) (v : Nat) :
    Words (m.store b 8 v) a (ws ++ [v % 2 ^ 64]) := by
  apply append (h.store_other (.inl (Nat.le_of_eq next.symm))) _ next
  exact singleton_iff.mpr (Memory.fetch_store m b 8 v)

theorem copied {k : Memory} {src : Nat} (h : Words k src ws) (all : 8 * ws.length ≤ n) :
    Words (m.blit a (k.window src n)) a ws := by
  intro i hi
  rw [← h i hi, Memory.fetch, Memory.fetch]
  apply congrArg
  apply Memory.window_eq
  intro j hj
  have inside : 8 * i + j < (k.window src n).length := by
    rw [Memory.window_length]
    omega
  rw [Nat.add_assoc, Memory.blit_inside _ a inside, Memory.window_getElem, Nat.add_assoc]

theorem of_fill {k : Nat} (inside : b ≤ a) (enough : a + 8 * k ≤ b + n) :
    Words (m.fill b n 0) a (List.replicate k 0) := by
  intro i hi
  rw [List.length_replicate] at hi
  rw [List.getElem_replicate]
  exact m.fetch_fill_zero (by omega) (by omega)

end Words

end AvxKernel
