import Mathlib.Data.List.Infix
import Mathlib.Data.Nat.ModEq

/-! A queue in an array, with free-running counters that wrap around. The
counters number the elements that have ever gone in and come out; only their
remainders are kept. Elements, the size of the array and the modulus of the
counters are arbitrary, as long as the size divides the modulus. -/
namespace AvxKernel

variable {α : Type} {size modulus : Nat} {data data' : Nat → α} {nread nwrite : Nat}
  {removed inserted : List α}

/-- The array and the two counters hold what has been inserted and not yet been
removed. -/
structure Fifo (size modulus : Nat) (data : Nat → α) (nread nwrite : Nat)
    (removed inserted : List α) : Prop where
  read : nread = removed.length % modulus
  write : nwrite = inserted.length % modulus
  order : removed <+: inserted
  room : inserted.length ≤ removed.length + size
  stored : ∀ k (h : k < inserted.length), removed.length ≤ k → data (k % size) = inserted[k]

namespace Fifo

theorem empty : Fifo size modulus data 0 0 [] [] where
  read := (Nat.zero_mod _).symm
  write := (Nat.zero_mod _).symm
  order := List.prefix_refl _
  room := Nat.zero_le _
  stored k h := absurd h (Nat.not_lt_zero k)

/-- The distance of the counters is the number of elements held, if the counters
are not a whole turn apart. -/
theorem distance_of_lt (h : Fifo size modulus data nread nwrite removed inserted)
    (near : inserted.length < removed.length + modulus) :
    (nwrite + (modulus - nread)) % modulus = inserted.length - removed.length := by
  have le := h.order.length_le
  have wrapped : removed.length % modulus < modulus := Nat.mod_lt _ (by omega)
  rw [h.read, h.write]
  obtain ⟨held, hheld⟩ := Nat.exists_eq_add_of_le le
  have split := Nat.div_add_mod removed.length modulus
  have total : inserted.length + (modulus - removed.length % modulus) =
      held + modulus * (removed.length / modulus + 1) := by
    rw [Nat.mul_add]
    omega
  rw [Nat.mod_add_mod, total, Nat.add_mul_mod_self_left, Nat.mod_eq_of_lt (by omega)]
  omega

theorem distance (h : Fifo size modulus data nread nwrite removed inserted)
    (small : size < modulus) :
    (nwrite + (modulus - nread)) % modulus = inserted.length - removed.length :=
  h.distance_of_lt (h.room.trans_lt (Nat.add_lt_add_left small _))

theorem not_full (h : Fifo size modulus data nread nwrite removed inserted)
    (free : nwrite ≠ (nread + size) % modulus) : inserted.length < removed.length + size := by
  refine Nat.lt_of_le_of_ne h.room fun full => free ?_
  rw [h.read, h.write, full, Nat.mod_add_mod]

theorem not_empty (h : Fifo size modulus data nread nwrite removed inserted)
    (differ : nread ≠ nwrite) : removed.length < inserted.length := by
  refine Nat.lt_of_le_of_ne h.order.length_le fun same => differ ?_
  rw [h.read, h.write, same]

theorem index (h : Fifo size modulus data nread nwrite removed inserted)
    (divides : size ∣ modulus) :
    nread % size = removed.length % size ∧ nwrite % size = inserted.length % size := by
  rw [h.read, h.write]
  exact ⟨Nat.mod_mod_of_dvd _ divides, Nat.mod_mod_of_dvd _ divides⟩

theorem index_add (h : Fifo size modulus data nread nwrite removed inserted)
    (divides : size ∣ modulus) (i : Nat) :
    (nread + i) % size = (removed.length + i) % size ∧
      (nwrite + i) % size = (inserted.length + i) % size := by
  obtain ⟨read, write⟩ := h.index divides
  constructor
  · rw [Nat.add_mod, read, ← Nat.add_mod]
  · rw [Nat.add_mod, write, ← Nat.add_mod]

/-- Two numbers that are not `size` apart have places of their own. -/
theorem place_ne {j k : Nat} (before : j < k) (near : k < j + size) : j % size ≠ k % size := by
  intro same
  have divides := (Nat.modEq_iff_dvd' (Nat.le_of_lt before)).mp same
  have := Nat.le_of_dvd (by omega) divides
  omega

/-- Elements go in behind the last, into the places that follow the write counter. -/
theorem pushes (h : Fifo size modulus data nread nwrite removed inserted)
    (divides : size ∣ modulus) {xs : List α}
    (room : inserted.length + xs.length ≤ removed.length + size)
    (new : ∀ i (hi : i < xs.length), data' ((nwrite + i) % size) = xs[i])
    (old : ∀ k, (∀ i < xs.length, (nwrite + i) % size ≠ k) → data' k = data k) :
    Fifo size modulus data' nread ((nwrite + xs.length) % modulus) removed (inserted ++ xs) := by
  constructor
  · exact h.read
  · rw [h.write, Nat.mod_add_mod, List.length_append]
  · exact h.order.trans (List.prefix_append _ _)
  · rwa [List.length_append]
  · intro k hk low
    rw [List.length_append] at hk
    rcases Nat.lt_or_ge k inserted.length with before | behind
    · rw [List.getElem_append_left before, ← h.stored k before low]
      apply old
      intro i hi
      rw [(h.index_add divides i).2]
      exact (place_ne (by omega) (by omega)).symm
    · obtain ⟨i, rfl⟩ := Nat.exists_eq_add_of_le behind
      have hi : i < xs.length := Nat.lt_of_add_lt_add_left hk
      rw [List.getElem_append_right behind, ← (h.index_add divides i).2, new i hi]
      simp only [Nat.add_sub_cancel_left]

/-- An element goes in behind the last. -/
theorem push (h : Fifo size modulus data nread nwrite removed inserted)
    (divides : size ∣ modulus) (free : nwrite ≠ (nread + size) % modulus) (a : α) :
    Fifo size modulus (Function.update data (nwrite % size) a) nread ((nwrite + 1) % modulus)
      removed (inserted ++ [a]) := by
  change Fifo size modulus _ nread ((nwrite + [a].length) % modulus) removed (inserted ++ [a])
  apply h.pushes divides
  · exact h.not_full free
  · intro i hi
    obtain rfl : i = 0 := Nat.lt_one_iff.mp hi
    exact Function.update_self _ _ _
  · intro k away
    exact Function.update_of_ne (away 0 Nat.one_pos).symm _ _

/-- What the places from the read counter on hold. -/
theorem front (h : Fifo size modulus data nread nwrite removed inserted)
    (divides : size ∣ modulus) {n : Nat} (held : removed.length + n ≤ inserted.length) :
    (List.range n).map (fun i => data ((nread + i) % size)) = (inserted.drop removed.length).take n := by
  apply List.ext_getElem
  · rw [List.length_map, List.length_range, List.length_take, List.length_drop]
    omega
  · intro i hi _
    rw [List.length_map, List.length_range] at hi
    rw [List.getElem_map, List.getElem_range, List.getElem_take, List.getElem_drop,
      (h.index_add divides i).1]
    exact h.stored _ (by omega) (Nat.le_add_right _ _)

/-- The first elements come out. -/
theorem pops (h : Fifo size modulus data nread nwrite removed inserted) {n : Nat}
    (held : removed.length + n ≤ inserted.length) :
    Fifo size modulus data ((nread + n) % modulus) nwrite
      (removed ++ (inserted.drop removed.length).take n) inserted := by
  obtain ⟨rest, rfl⟩ := h.order
  rw [List.length_append] at held
  have count : (rest.take n).length = n := List.length_take_of_le (Nat.le_of_add_le_add_left held)
  rw [List.drop_left]
  constructor
  · rw [h.read, Nat.mod_add_mod, List.length_append, count]
  · exact h.write
  · exact (List.prefix_append_right_inj removed).mpr (List.take_prefix n rest)
  · have room := h.room
    rw [@List.length_append _ removed (rest.take n), count]
    omega
  · intro k hk low
    rw [@List.length_append _ removed (rest.take n)] at low
    exact h.stored k hk (Nat.le_of_add_right_le low)

/-- The first element comes out. -/
theorem pop (h : Fifo size modulus data nread nwrite removed inserted)
    (divides : size ∣ modulus) (differ : nread ≠ nwrite) :
    Fifo size modulus data ((nread + 1) % modulus) nwrite
      (removed ++ [data (nread % size)]) inserted := by
  have some_left : removed.length + 1 ≤ inserted.length := h.not_empty differ
  have first : [data (nread % size)] = (inserted.drop removed.length).take 1 :=
    h.front divides some_left
  rw [first]
  exact h.pops some_left

/-- The last element is taken back, if it is still there. -/
theorem retract {a : α} (h : Fifo size modulus data nread nwrite removed (inserted ++ [a]))
    (kept : removed.length ≤ inserted.length) (pos : 0 < modulus) :
    Fifo size modulus data nread ((nwrite + (modulus - 1)) % modulus) removed inserted := by
  refine ⟨h.read, ?_, ?_, ?_, fun k hk low => ?_⟩
  · rw [h.write, List.length_append, List.length_singleton, Nat.mod_add_mod]
    have back : inserted.length + 1 + (modulus - 1) = inserted.length + modulus := by omega
    rw [back, Nat.add_mod_right]
  · exact List.prefix_of_prefix_length_le h.order (List.prefix_append _ _) kept
  · have room := h.room
    rw [List.length_append, List.length_singleton] at room
    omega
  · have stored := h.stored k (by
      rw [List.length_append]
      omega) low
    rwa [List.getElem_append_left hk] at stored

/-- Where the last element is. -/
theorem last {a : α} (h : Fifo size modulus data nread nwrite removed (inserted ++ [a]))
    (kept : removed.length ≤ inserted.length) (pos : 0 < modulus) (divides : size ∣ modulus) :
    data ((nwrite + (modulus - 1)) % modulus % size) = a := by
  rw [((h.retract kept pos).index divides).2,
    h.stored inserted.length (by simp) kept, List.getElem_concat_length rfl]

/-- The counters tell a full array. -/
theorem full_iff (h : Fifo size modulus data nread nwrite removed inserted)
    (small : size < modulus) :
    nwrite = (nread + size) % modulus ↔ inserted.length = removed.length + size := by
  constructor
  · intro full
    have held := h.order.length_le
    have room := h.room
    rw [h.read, h.write, Nat.mod_add_mod] at full
    have divides := (Nat.modEq_iff_dvd' room).mp full
    have missing := Nat.eq_zero_of_dvd_of_lt divides (by omega)
    omega
  · intro full
    rw [h.read, h.write, full, Nat.mod_add_mod]

end Fifo

end AvxKernel
