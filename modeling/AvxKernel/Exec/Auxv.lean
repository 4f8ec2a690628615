import AvxKernel.Exec.Push

/-! The auxiliary vector of a new program, filled in the kernel and copied out, and
the two vectors of pointers that go below it. -/
namespace AvxKernel.Exec

open Vm

/-- The pairs that `fillAux` allocates, in order. -/
def auxv (elf : Elfhdr) (ph_vaddr interp_start_addr random : Nat) : List (Nat × Nat) :=
  [(AT_HWCAP, 0), (AT_PAGESZ, PGSIZE), (AT_PHDR, ph_vaddr), (AT_PHENT, elf.phentsize),
    (AT_PHNUM, elf.phnum), (AT_BASE, interp_start_addr), (AT_ENTRY, elf.entry), (AT_UID, 0),
    (AT_EUID, 0), (AT_GID, 0), (AT_EGID, 0), (AT_SECURE, 0), (AT_RANDOM, random)]

/-- The words of the pairs. -/
def auxWords (pairs : List (Nat × Nat)) : List Nat := pairs.flatMap fun pair => [u64 pair.1, u64 pair.2]

/-- The array: a count of pairs, the pairs, and the pair that ends them. -/
structure AuxVec (kernel : Memory) (aux : Nat) (pairs : List (Nat × Nat)) : Prop where
  count : kernel.fetch aux 8 = pairs.length
  words : Words kernel (aux + 8) (auxWords pairs ++ [0, 0])

theorem auxWords_length (pairs : List (Nat × Nat)) : (auxWords pairs).length = 2 * pairs.length := by
  induction pairs with
  | nil => rfl
  | cons pair rest ih =>
    have split : auxWords (pair :: rest) = [u64 pair.1, u64 pair.2] ++ auxWords rest := rfl
    simp only [split, List.length_append, List.length_cons, List.length_nil, ih]
    omega

theorem AuxVec.congr {kernel kernel' : Memory} {aux : Nat} {pairs : List (Nat × Nat)}
    (h : AuxVec kernel aux pairs)
    (same : ∀ x, aux ≤ x → x < aux + 8 * (2 * pairs.length + 3) → kernel' x = kernel x) :
    AuxVec kernel' aux pairs where
  count := by
    rw [← h.count]
    apply Memory.fetch_congr
    intro i hi
    exact same _ (by omega) (by omega)
  words := by
    apply h.words.congr
    intro x low high
    rw [List.length_append, auxWords_length, List.length_cons, List.length_singleton] at high
    exact same x (by omega) (by omega)

variable {s₀ s : Ram} {root base top sp aux atid value words src : Nat} {node : Nodes}
  {kernel user : Memory} {pairs : List (Nat × Nat)}

/-- One more pair at the end. -/
theorem alloc_aux_run (view : View s₀ root node kernel user s)
    (array : Private s₀ root node aux (8 * (MAXARG * 2 + 3))) (vec : AuxVec kernel aux pairs)
    (room : pairs.length < MAXARG - 1) :
    ∃ t kernel', alloc_aux aux atid value s = .ok ((), t) ∧ View s₀ root node kernel' user t ∧
      AuxVec kernel' aux (pairs ++ [(atid, value)]) ∧
      ∀ x, x < aux ∨ aux + 8 * (MAXARG * 2 + 3) ≤ x → kernel' x = kernel x := by
  have limit : MAXARG = 32 := rfl
  have length := auxWords_length pairs
  generalize hn : pairs.length = n at *
  have reach : aux + 8 * (n * 2 + 4) < 2 ^ 64 := mapped_lt (array.mapped _ (by omega))
  have place : ∀ i ≤ n * 2 + 4, u64 (aux + 8 * i) = aux + 8 * i ∧ Private s₀ root node (aux + 8 * i) 8 := by
    intro i hi
    exact ⟨Nat.mod_eq_of_lt (by omega), private_sub array (by omega) (by omega)⟩
  obtain ⟨word₁, own₁⟩ := place (n * 2 + 1) (by omega)
  obtain ⟨word₂, own₂⟩ := place (n * 2 + 2) (by omega)
  obtain ⟨word₃, own₃⟩ := place (n * 2 + 3) (by omega)
  obtain ⟨word₄, own₄⟩ := place (n * 2 + 4) (by omega)
  have first : Private s₀ root node aux 8 := private_sub array (Nat.le_refl _) (by omega)
  have argc := view.peek_run first (by decide)
  rw [vec.count, hn] at argc
  obtain ⟨s₁, run₁, view₁⟩ := view.poke_run own₁ (by decide) atid
  obtain ⟨s₂, run₂, view₂⟩ := view₁.poke_run own₂ (by decide) value
  obtain ⟨s₃, run₃, view₃⟩ := view₂.poke_run own₃ (by decide) 0
  obtain ⟨s₄, run₄, view₄⟩ := view₃.poke_run own₄ (by decide) 0
  have again := view₄.peek_run first (by decide)
  rw [Memory.fetch_store_other _ (.inl (by omega)), Memory.fetch_store_other _ (.inl (by omega)),
    Memory.fetch_store_other _ (.inl (by omega)), Memory.fetch_store_other _ (.inl (by omega)),
    vec.count, hn] at again
  obtain ⟨s₅, run₅, view₅⟩ := view₄.poke_run first (by decide) (u64 (n + 1))
  refine ⟨s₅, _, ?_, view₅, ?_, ?_⟩
  · rw [alloc_aux, Machine.bind_of_ok argc, word₁, Machine.bind_of_ok run₁, word₂,
      Machine.bind_of_ok run₂, word₃, Machine.bind_of_ok run₃, word₄, Machine.bind_of_ok run₄,
      Machine.bind_of_ok again]
    exact run₅
  · constructor
    · have small : n + 1 < 2 ^ 64 := by omega
      rw [List.length_append, hn, Memory.fetch_store, u64, Nat.mod_eq_of_lt small]
      exact Nat.mod_eq_of_lt small
    · have more : auxWords (pairs ++ [(atid, value)]) ++ [0, 0] =
          auxWords pairs ++ [u64 atid] ++ [u64 value] ++ [0] ++ [0] := by
        simp only [auxWords, List.flatMap_append, List.append_assoc]
        rfl
      have old : Words kernel (aux + 8) (auxWords pairs) := (Words.append_iff.mp vec.words).1
      have next : ∀ i, aux + 8 * (n * 2 + (1 + i)) = aux + 8 + 8 * (2 * n + i) := fun i => by omega
      rw [more]
      apply Words.store_other _ (.inr (Nat.le_refl _))
      apply Words.store_next _ _ 0
      apply Words.store_next _ _ 0
      apply Words.store_next _ _ value
      apply Words.store_next old _ atid
      · rw [length]
        exact next 0
      · rw [List.length_append, length]
        exact next 1
      · rw [List.length_append, List.length_append, length]
        exact next 2
      · rw [List.length_append, List.length_append, List.length_append, length]
        exact next 3
  · intro x out
    rw [limit] at out
    rw [Memory.store_outside _ (by omega), Memory.store_outside _ (by omega),
      Memory.store_outside _ (by omega), Memory.store_outside _ (by omega),
      Memory.store_outside _ (by omega)]

theorem alloc_auxs_run (view : View s₀ root node kernel user s)
    (array : Private s₀ root node aux (8 * (MAXARG * 2 + 3))) (vec : AuxVec kernel aux pairs)
    (more : List (Nat × Nat)) (room : pairs.length + more.length < MAXARG) :
    ∃ t kernel', more.forM (fun pair => alloc_aux aux pair.1 pair.2) s = .ok ((), t) ∧
      View s₀ root node kernel' user t ∧ AuxVec kernel' aux (pairs ++ more) ∧
      ∀ x, x < aux ∨ aux + 8 * (MAXARG * 2 + 3) ≤ x → kernel' x = kernel x := by
  induction more generalizing s kernel pairs with
  | nil =>
    rw [List.append_nil]
    exact ⟨s, kernel, rfl, view, vec, fun _ _ => rfl⟩
  | cons pair more ih =>
    rw [List.length_cons] at room
    obtain ⟨t, kernel', run, view', vec', outside⟩ :=
      @alloc_aux_run _ _ _ _ pair.1 pair.2 _ _ _ _ view array vec (by omega)
    have length : (pairs ++ [(pair.1, pair.2)]).length = pairs.length + 1 := by
      rw [List.length_append, List.length_singleton]
    obtain ⟨u, kernel'', rest, view'', vec'', outside'⟩ := ih view' vec' (by omega)
    rw [List.append_assoc] at vec''
    refine ⟨u, kernel'', ?_, view'', vec'', fun x out => (outside' x out).trans (outside x out)⟩
    exact (Machine.bind_of_ok run).trans rest

variable {image : Image} {elf : Elfhdr} {ph_vaddr interp_start_addr random : Nat}

theorem fillAux_run (view : View s₀ root node kernel user s)
    (array : Private s₀ root node image.aux (8 * (MAXARG * 2 + 3))) :
    ∃ t kernel', fillAux image elf ph_vaddr interp_start_addr random s = .ok ((), t) ∧
      View s₀ root node kernel' user t ∧
      AuxVec kernel' image.aux (auxv elf ph_vaddr interp_start_addr random) ∧
      ∀ x, x < image.aux ∨ image.aux + 8 * (MAXARG * 2 + 3) ≤ x → kernel' x = kernel x := by
  have sequence : fillAux image elf ph_vaddr interp_start_addr random = (do
      memset image.aux 0 ((MAXARG * 2 + 3) * 8)
      (auxv elf ph_vaddr interp_start_addr random).forM fun pair =>
        alloc_aux image.aux pair.1 pair.2) := by
    simp only [fillAux, auxv, List.forM, bind_pure_unit]
  rw [Nat.mul_comm 8] at array
  obtain ⟨s₁, run, view₁⟩ := view.memset_run array
  have empty : AuxVec (kernel.fill image.aux ((MAXARG * 2 + 3) * 8) 0) image.aux [] := by
    constructor
    · exact kernel.fetch_fill_zero (Nat.le_refl _) (Nat.add_le_add_left (by decide) _)
    · apply @Words.of_fill _ _ _ _ 2
      · exact Nat.le_add_right _ _
      · rw [Nat.add_assoc]
        exact Nat.add_le_add_left (by decide) _
  rw [Nat.mul_comm _ 8] at array
  obtain ⟨t, kernel', rest, view', vec, outside⟩ := alloc_auxs_run view₁ array empty
    (auxv elf ph_vaddr interp_start_addr random) (show 0 + 13 < MAXARG by decide)
  refine ⟨t, kernel', ?_, view', vec, fun x out => (outside x out).trans ?_⟩
  · rw [sequence, Machine.bind_of_ok run]
    exact rest
  · rw [Nat.mul_comm 8] at out
    exact kernel.fill_outside out

/-- A vector of words that is copied out below `sp`. -/
theorem copied_below {n place : Nat} {ws : List Nat} (view : View s₀ root node kernel user s)
    (own : Private s₀ root node src n) (words : Words kernel src ws) (all : n = 8 * ws.length)
    (opens : ∀ v, base ≤ v → v < top → OpenPage s₀ root v) (pos : 0 < n) (inside : base ≤ place)
    (under : place + n ≤ sp) (below : sp ≤ top) (low : top ≤ 2 ^ 31) :
    ∃ t, copyout root place src n s = .ok (0, t) ∧
      ∃ user', View s₀ root node kernel user' t ∧ (∀ v, v < place ∨ sp ≤ v → user' v = user v) ∧
        Words user' place ws := by
  have opened : ∀ v, span place n v → OpenPage s₀ root v := by
    intro v hv
    simp only [span] at hv
    exact opens v (by omega) (by omega)
  have user_low : place ≤ MAXVA := by
    rw [MAXVA_eq]
    omega
  obtain ⟨t, run, view'⟩ := view.copyout_run opened user_low own pos
  refine ⟨t, run, _, view', ?_, words.copied (Nat.le_of_eq all.symm)⟩
  intro v out
  apply Memory.blit_outside
  rw [Memory.window_length]
  omega

/-- The vector goes below the strings, without a gap. -/
theorem loadaux_outcome (view : View s₀ root node kernel user s)
    (array : Private s₀ root node aux (8 * (MAXARG * 2 + 3))) (vec : AuxVec kernel aux pairs)
    (some_ : 0 < pairs.length) (few : pairs.length < MAXARG)
    (opens : ∀ v, base ≤ v → v < top → OpenPage s₀ root v) (pos : 0 < base) (below : sp ≤ top)
    (low : top ≤ 2 ^ 31) :
    Outcome (loadaux root sp base aux s) (· ≠ 2 ^ 64 - 1) (base ≤ sp - 8 * (2 * pairs.length + 2))
      (sp - 8 * (2 * pairs.length + 2))
      fun t => ∃ kernel' user', View s₀ root node kernel' user' t ∧
        (∀ x, x < aux ∨ aux + 8 * (MAXARG * 2 + 3) ≤ x → kernel' x = kernel x) ∧
        (∀ v, v < sp - 8 * (2 * pairs.length + 2) ∨ sp ≤ v → user' v = user v) ∧
        Words user' (sp - 8 * (2 * pairs.length + 2)) (auxWords pairs ++ [0, 0]) := by
  have most : MAXARG = 32 := rfl
  have first : Private s₀ root node aux 8 := private_sub array (Nat.le_refl _) (by omega)
  have argc := view.peek_run first (by decide)
  rw [vec.count] at argc
  have length : (auxWords pairs ++ [0, 0]).length = 2 * pairs.length + 2 := by
    rw [List.length_append, auxWords_length]
    rfl
  generalize pairs.length = n at *
  have size : u64 (s32 (2 * n + 2) * 8) = 8 * (2 * n + 2) := by
    rw [s32_of_lt (by omega), u64]
    omega
  rw [loadaux]
  apply Outcome.after argc
  rw [s32_of_lt (by omega), if_neg (by omega), size]
  by_cases inside : 8 * (2 * n + 2) ≤ sp
  · have taken : u64 (sp + (2 ^ 64 - 8 * (2 * n + 2))) = sp - 8 * (2 * n + 2) := by
      rw [u64]
      omega
    rw [taken]
    by_cases short : sp - 8 * (2 * n + 2) < base
    · rw [if_pos short]
      constructor
      · intro fits
        omega
      · rintro _ r t ⟨⟩ ne
        exact ne rfl
    · rw [if_neg short]
      obtain ⟨s₁, poked, view₁⟩ := view.poke_run first (by decide) 0
      have words : Words (kernel.store aux 8 0) (aux + 8) (auxWords pairs ++ [0, 0]) :=
        vec.words.store_other (.inr (Nat.le_refl _))
      have own : Private s₀ root node (aux + 8) (8 * (2 * n + 2)) :=
        private_sub array (by omega) (by omega)
      obtain ⟨t, copied, user', view₂, around, words'⟩ :=
        copied_below view₁ own words (by rw [length]) opens (by omega) (by omega)
          (show sp - 8 * (2 * n + 2) + 8 * (2 * n + 2) ≤ sp by omega) below low
      apply Outcome.after poked
      apply Outcome.after copied
      rw [if_neg (by decide), s32_of_lt (by omega)]
      refine Outcome.congr (Outcome.of_ok rfl ?_) (iff_of_true (by omega) trivial) fun _ done => done
      refine ⟨_, user', view₂, fun x out => Memory.store_outside _ ?_, around, words'⟩
      rw [most] at out
      omega
  · have wrapped : u64 (sp + (2 ^ 64 - 8 * (2 * n + 2))) = 2 ^ 64 + sp - 8 * (2 * n + 2) := by
      rw [u64]
      omega
    rw [wrapped]
    constructor
    · intro fits
      omega
    · intro _ r t run
      split at run
      · cases run
        exact fun ne => ne rfl
      · obtain ⟨s₁, poked, view₁⟩ := view.poke_run first (by decide) 0
        have high : MAXVA < 2 ^ 64 + sp - 8 * (2 * n + 2) := by
          rw [MAXVA_eq]
          omega
        rw [Machine.bind_of_ok poked, copyout, if_pos high] at run
        cases run

theorem pushVector_outcome {ws : List Nat} (alignFirst : Bool) (view : View s₀ root node kernel user s)
    (own : Private s₀ root node src (8 * words)) (vec : Words kernel src ws) (all : words = ws.length)
    (some_ : 0 < words) (few : words < 2 ^ 10) (aligned : base % 16 = 0)
    (opens : ∀ v, base ≤ v → v < top → OpenPage s₀ root v) (pos : 0 < base) (below : sp ≤ top)
    (low : top ≤ 2 ^ 31) :
    Outcome (pushVector alignFirst root sp base src words s) (·.isSome = true)
      (base ≤ down sp (8 * words)) (some (down sp (8 * words)))
      fun t => ∃ user', View s₀ root node kernel user' t ∧
        (∀ v, v < down sp (8 * words) ∨ sp ≤ v → user' v = user v) ∧
        Words user' (down sp (8 * words)) ws := by
  have size : u64 (words * 8) = 8 * words := by
    rw [u64]
    omega
  rw [pushVector, size]
  by_cases inside : 8 * words ≤ sp
  · have taken : u64 (sp + (2 ^ 64 - 8 * words)) = sp - 8 * words := by
      rw [u64]
      omega
    have place : sp - 8 * words - (sp - 8 * words) % 16 = down sp (8 * words) := rfl
    have under := down_le sp (8 * words)
    have checked : (if alignFirst = true then down sp (8 * words) else sp - 8 * words) < base ↔
        down sp (8 * words) < base := by
      split
      · exact Iff.rfl
      · rw [down]
        omega
    rw [taken, place]
    by_cases short : down sp (8 * words) < base
    · rw [if_pos (checked.mpr short)]
      constructor
      · intro fits
        omega
      · rintro _ r t ⟨⟩
        exact Bool.false_ne_true
    · rw [if_neg (mt checked.mp short)]
      obtain ⟨t, copied, user', view', around, words'⟩ :=
        copied_below view own vec (by rw [all]) opens (by omega) (by omega)
          (show down sp (8 * words) + 8 * words ≤ sp by omega) below low
      apply Outcome.after copied
      rw [if_neg (by decide)]
      refine Outcome.congr (Outcome.of_ok rfl ?_) (iff_of_true (by omega) trivial) fun _ done => done
      exact ⟨user', view', around, words'⟩
  · have wrapped : u64 (sp + (2 ^ 64 - 8 * words)) = 2 ^ 64 + sp - 8 * words := by
      rw [u64]
      omega
    have zero : down sp (8 * words) = 0 := by
      rw [down, Nat.sub_eq_zero_of_le (by omega)]
    have high : MAXVA < 2 ^ 64 + sp - 8 * words - (2 ^ 64 + sp - 8 * words) % 16 := by
      rw [MAXVA_eq]
      omega
    rw [wrapped]
    generalize 2 ^ 64 + sp - 8 * words = w at high ⊢
    constructor
    · intro fits
      omega
    · intro _ r t run
      by_cases stop : (if alignFirst = true then w - w % 16 else w) < base
      · rw [if_pos stop] at run
        cases run
        exact Bool.false_ne_true
      · rw [if_neg stop, copyout, if_pos high] at run
        cases run

end AvxKernel.Exec
