import AvxKernel.Exec.Stack

/-! What the start-up code of a program relies on: from the stack pointer on, the count
of its arguments, the pointers to them, those to its environment and the auxiliary
vector, one behind the other, since it walks over them without their lengths. -/
namespace AvxKernel.Exec

open Vm

/-- The bytes of a user address space. -/
def userMem (s : Ram) (root : Nat) : Memory := fun v => (userByte s root v).getD 0

/-- The words that a program finds at its stack pointer. -/
def startupTable (pairs : List (Nat × Nat)) (argc : Nat) (ps qs : List Nat) : List Nat :=
  argc :: ps ++ 0 :: qs ++ 0 :: auxWords pairs ++ [0, 0]

/-- The bytes of the strings that the pointers point to. -/
def extents (ps : List Nat) (texts : List (List UInt8)) : List (Nat × Nat) :=
  (ps.zip texts).map fun area => (area.1, area.2.length + 1)

/-- The new stack, and what has changed for it. -/
structure Startup (s t : Ram) (root : Nat) (image : Image) (pairs : List (Nat × Nat)) (base top : Nat)
    (args envs : List (List UInt8)) (r : Args) : Prop where
  argc : r.argc = args.length
  aligned : r.sp % 16 = 0
  tables : ∃ ps qs, Words (userMem t root) r.sp (startupTable pairs args.length ps qs) ∧
    Held (userMem t root) ps args ∧ Held (userMem t root) qs envs ∧
    (∀ area ∈ (r.sp, 8 * (startupTable pairs args.length ps qs).length) ::
      (extents ps args ++ extents qs envs), base ≤ area.1 ∧ area.1 + area.2 ≤ top) ∧
    ((r.sp, 8 * (startupTable pairs args.length ps qs).length) ::
      (extents ps args ++ extents qs envs)).Pairwise Apart
  kept : ∀ a, (∀ area ∈ arrays image (MAXARG + 1) (MAXARG + 1), Apart (a, 1) area) →
    (∀ v, base ≤ v → v < top → physical s root v ≠ a) → t.mem a = s.mem a

variable {s t : Ram} {root limit base top argWords envWords argv env ph_vaddr interp_start_addr : Nat}
  {node : Nodes} {image : Image} {elf : Elfhdr} {args envs : List (List UInt8)} {kernel user old : Memory}
  {ps qs : List Nat} {pairs : List (Nat × Nat)} {r : Args}

theorem startupTable_length (pairs : List (Nat × Nat)) (argc : Nat) (ps qs : List Nat) :
    (startupTable pairs argc ps qs).length = ps.length + qs.length + 2 * pairs.length + 5 := by
  simp only [startupTable, List.length_append, List.length_cons, List.length_nil, auxWords_length]
  omega

theorem auxv_length (elf : Elfhdr) (ph_vaddr interp_start_addr random : Nat) :
    (auxv elf ph_vaddr interp_start_addr random).length = 13 := rfl

/-! ### Where the tables lie -/

/-- The tables below the strings, each aligned by itself. -/
theorem tablesAt_gaps (sp : Nat) (aligned : sp % 16 = 0) (inside : 0 < (tablesAt sp args envs).argv) :
    (tablesAt sp args envs).argv % 16 = 0 ∧
      (tablesAt sp args envs).argv + 8 * (args.length + 2) + 8 * (args.length % 2) =
        (tablesAt sp args envs).envp ∧
      (tablesAt sp args envs).envp + 8 * (envs.length + 2) + 8 * (envs.length % 2) =
        (tablesAt sp args envs).aux ∧
      (tablesAt sp args envs).aux + 224 = stringsEnd sp args envs := by
  have strings : stringsEnd sp args envs % 16 = 0 := pushedEnd_aligned (pushedEnd_aligned aligned)
  simp only [tablesAt, places, down] at inside ⊢
  omega

theorem pushedEnd_le_pushed (sp : Nat) (texts : List (List UInt8)) :
    ∀ q ∈ pushed sp texts, pushedEnd sp texts ≤ q := by
  induction texts generalizing sp with
  | nil => exact nofun
  | cons text rest ih =>
    intro q mem
    rcases List.mem_cons.mp mem with rfl | later
    · exact pushedEnd_le (down sp (text.length + 1)) rest
    · exact ih _ q later

/-- What the table says of the places in it. -/
theorem startupTable_words {m : Memory} {sp argc : Nat} (length : ps.length = argc)
    (table : Words m sp (startupTable pairs argc ps qs)) :
    m.fetch (sp + 8 * (argc + 1)) 8 = 0 ∧
      m.fetch (sp + 8 * (argc + 2 + qs.length)) 8 = 0 ∧
      Words m (sp + 8 * (argc + 3 + qs.length)) (auxWords pairs) := by
  obtain ⟨front, -⟩ := Words.append_iff.mp table
  obtain ⟨vectors, aux⟩ := Words.append_iff.mp front
  obtain ⟨-, envp⟩ := Words.append_iff.mp vectors
  have start : sp + 8 * (argc :: ps).length = sp + 8 * (argc + 1) := by
    rw [List.length_cons, length]
  have next : sp + 8 * (argc :: ps ++ 0 :: qs).length = sp + 8 * (argc + 2 + qs.length) := by
    rw [List.length_append, List.length_cons, List.length_cons, length]
    omega
  have last : sp + 8 * (argc + 2 + qs.length) + 8 = sp + 8 * (argc + 3 + qs.length) := by omega
  rw [start] at envp
  rw [next] at aux
  refine ⟨(Words.cons_iff.mp envp).1, (Words.cons_iff.mp aux).1, ?_⟩
  rw [← last]
  exact (Words.cons_iff.mp aux).2

/-- A table that is read without a gap has none. -/
theorem even_of_startup {m : Memory} {sp p w envp aux : Nat} {ps' qs' : List Nat}
    {rest : List (Nat × Nat)} (shape : pairs = (AT_HWCAP, 0) :: rest) (length : ps.length = args.length)
    (envc_eq : qs.length = envs.length + 1) (length' : ps'.length = args.length)
    (envc_eq' : qs'.length = envs.length) (pointers : ∀ q ∈ p :: qs', 0 < q)
    (table : Words m sp (startupTable pairs args.length ps qs))
    (argTable : Words m sp (args.length :: ps' ++ [w])) (envTable : Words m envp (p :: qs' ++ [0]))
    (auxTable : Words m aux (auxWords pairs ++ [0, 0]))
    (argGap : sp + 8 * (args.length + 2) + 8 * (args.length % 2) = envp)
    (envGap : envp + 8 * (envs.length + 2) + 8 * (envs.length % 2) = aux) :
    args.length % 2 = 0 ∧ envs.length % 2 = 0 ∧ w = 0 := by
  obtain ⟨argNull, envNull, auxWords⟩ := startupTable_words length table
  rw [envc_eq] at envNull auxWords
  have last : m.fetch (sp + 8 * (args.length + 1)) 8 = w := by
    have := (Words.append_iff.mp argTable).2
    rw [List.length_cons, length'] at this
    exact Words.singleton_iff.mp this
  have argEven : args.length % 2 = 0 := by
    by_contra odd
    -- the null pointer is read where the last pointer of the environment is
    have few : envs.length < (p :: qs').length := by
      rw [List.length_cons, envc_eq']
      exact Nat.lt_succ_self _
    have pointer := (Words.append_iff.mp envTable).1 envs.length few
    have place : sp + 8 * (args.length + 2 + (envs.length + 1)) = envp + 8 * envs.length := by omega
    rw [place, pointer] at envNull
    have := pointers _ (List.getElem_mem few)
    omega
  have envEven : envs.length % 2 = 0 := by
    by_contra odd
    -- the value of the first pair is read where its id is
    have place : sp + 8 * (args.length + 3 + (envs.length + 1)) + 8 = aux := by omega
    subst shape
    have value := (Words.cons_iff.mp (Words.cons_iff.mp auxWords).2).1
    rw [place] at value
    have id_ := (Words.cons_iff.mp (Words.append_iff.mp auxTable).1).1
    rw [value] at id_
    exact absurd id_ (by decide)
  exact ⟨argEven, envEven, last.symm.trans argNull⟩

/-- Where each table starts where the one before it ends, they are one. -/
theorem startup_of_even {m : Memory} {sp p envp aux : Nat} {ps' qs' : List Nat}
    (length' : ps'.length = args.length) (envc_eq' : qs'.length = envs.length)
    (argTable : Words m sp (args.length :: ps' ++ [0])) (envTable : Words m envp (p :: qs' ++ [0]))
    (auxTable : Words m aux (auxWords pairs ++ [0, 0]))
    (argNext : sp + 8 * (args.length + 2) = envp) (envNext : envp + 8 * (envs.length + 2) = aux) :
    Words m sp (startupTable pairs args.length ps' (p :: qs')) := by
  have whole : startupTable pairs args.length ps' (p :: qs') =
      (args.length :: ps' ++ [0]) ++ ((p :: qs' ++ [0]) ++ (auxWords pairs ++ [0, 0])) := by
    simp only [startupTable, List.append_assoc, List.cons_append, List.nil_append]
  rw [whole]
  apply Words.append argTable
  · apply Words.append envTable auxTable
    rw [← envNext, List.length_append, List.length_cons, List.length_singleton, envc_eq']
  · rw [← argNext, List.length_append, List.length_cons, List.length_singleton, length']

/-! ### What is where, and what is not in two places -/

theorem extents_places {sp : Nat} (pos : 0 < pushedEnd sp args) :
    (∀ area ∈ extents (pushed sp args) args, pushedEnd sp args ≤ area.1 ∧ area.1 + area.2 ≤ sp) ∧
      (extents (pushed sp args) args).Pairwise Apart := by
  obtain ⟨inside, apart⟩ := pushed_places pos
  constructor
  · intro area mem
    obtain ⟨string, there, rfl⟩ := List.mem_map.mp mem
    exact inside string there
  · exact List.pairwise_map.mpr apart

/-- The tables at the bottom, then the strings of the environment, those of the
arguments, and the first of the environment at the top. -/
theorem startup_extents {sp p size first : Nat} {text : List UInt8}
    (pos : 0 < pushedEnd (pushedEnd sp args) envs) (bottom : base ≤ first) (tables : first + size = pushedEnd (pushedEnd sp args) envs) (above : sp ≤ p)
    (room : p + (text.length + 1) ≤ top) :
    (∀ area ∈ (first, size) :: (extents (pushed sp args) args ++
        extents (p :: pushed (pushedEnd sp args) envs) (text :: envs)),
      base ≤ area.1 ∧ area.1 + area.2 ≤ top) ∧
    ((first, size) :: (extents (pushed sp args) args ++
      extents (p :: pushed (pushedEnd sp args) envs) (text :: envs))).Pairwise Apart := by
  have under := pushedEnd_le sp args
  have under' := pushedEnd_le (pushedEnd sp args) envs
  obtain ⟨argPlaces, argApart⟩ := @extents_places args sp (by omega)
  obtain ⟨envPlaces, envApart⟩ := @extents_places envs (pushedEnd sp args) pos
  have top_first : extents (p :: pushed (pushedEnd sp args) envs) (text :: envs) =
      (p, text.length + 1) :: extents (pushed (pushedEnd sp args) envs) envs := rfl
  rw [top_first]
  constructor
  · intro area mem
    rcases List.mem_cons.mp mem with rfl | mem
    · exact ⟨bottom, by dsimp only; omega⟩
    rcases List.mem_append.mp mem with mem | mem
    · have := argPlaces area mem
      omega
    rcases List.mem_cons.mp mem with rfl | mem
    · exact ⟨by dsimp only; omega, room⟩
    · have := envPlaces area mem
      omega
  · apply List.Pairwise.cons
    · intro area mem
      apply Or.inl
      rcases List.mem_append.mp mem with mem | mem
      · have := argPlaces area mem
        dsimp only
        omega
      rcases List.mem_cons.mp mem with rfl | mem
      · dsimp only
        omega
      · have := envPlaces area mem
        dsimp only
        omega
    apply List.pairwise_append.mpr
    refine ⟨argApart, ?_, ?_⟩
    · apply List.Pairwise.cons
      · intro area mem
        have := envPlaces area mem
        exact .inr (by dsimp only; omega)
      · exact envApart
    · intro area mem other mem'
      have := argPlaces area mem
      rcases List.mem_cons.mp mem' with rfl | mem'
      · exact .inl (by dsimp only; omega)
      · have := envPlaces other mem'
        exact .inr (by omega)

/-! ### When the program can rely on it -/

/-- What `buildStack` has left, as the program sees it. -/
structure Seen (s t : Ram) (root : Nat) (elf : Elfhdr) (ph_vaddr interp_start_addr base top : Nat)
    (args envs : List (List UInt8)) (w : Nat) : Prop where
  argTable : Words (userMem t root) (tablesAt (randomAt top) args envs).argv
    (args.length :: pushed (randomAt top) args ++ [w])
  envTable : Words (userMem t root) (tablesAt (randomAt top) args envs).envp
    (down top (UB_BINDIR.length + 1) :: pushed (pushedEnd (randomAt top) args) envs ++ [0])
  auxTable : Words (userMem t root) (tablesAt (randomAt top) args envs).aux
    (auxWords (auxv elf ph_vaddr interp_start_addr (randomAt top)) ++ [0, 0])
  argStrings : Held (userMem t root) (pushed (randomAt top) args) args
  envStrings : Held (userMem t root)
    (down top (UB_BINDIR.length + 1) :: pushed (pushedEnd (randomAt top) args) envs) (UB_BINDIR :: envs)

theorem randomAt_place (inside : 0 < randomAt top) :
    randomAt top % 16 = 0 ∧ randomAt top + 16 = down top (UB_BINDIR.length + 1) ∧
      down top (UB_BINDIR.length + 1) + (UB_BINDIR.length + 1) ≤ top := by
  simp only [randomAt, down] at inside ⊢
  omega

theorem seen_of_built (stack : ∀ v, base ≤ v → v < top → UserPage s root v)
    (inside : base ≤ (tablesAt (randomAt top) args envs).argv) (pos : 0 < base)
    (view : View s root node kernel user t)
    (first : Held old [down top (UB_BINDIR.length + 1)] [UB_BINDIR])
    (built : Built s.mem old image argWords envWords (auxv elf ph_vaddr interp_start_addr (randomAt top))
      (down top (UB_BINDIR.length + 1)) (randomAt top) args envs kernel user) :
    Seen s t root elf ph_vaddr interp_start_addr base top args envs
      (kernel.fetch (image.ustack + 8 * (args.length + 1)) 8) := by
  have seen : ∀ v, base ≤ v → v < top → userMem t root v = user v := by
    intro v from_ to_
    rw [userMem, view.userByte (stack v from_ to_).isOpen.inPage]
    rfl
  have low := pushedEnd_le (pushedEnd (randomAt top) args) envs
  have mid := pushedEnd_le (randomAt top) args
  have bottom := tablesAt_le (randomAt top) args envs
  obtain ⟨aligned, place, room⟩ := @randomAt_place top (by omega)
  constructor
  · apply built.argTable.congr
    intro x from_ to_
    simp only [List.length_append, List.length_cons, List.length_nil, pushed_length] at to_
    exact seen x (by omega) (by omega)
  · apply built.envTable.congr
    intro x from_ to_
    simp only [List.length_append, List.length_cons, List.length_nil, pushed_length] at to_
    exact seen x (by omega) (by omega)
  · apply built.auxTable.congr
    intro x from_ to_
    rw [List.length_append, auxWords_length, auxv_length, List.length_cons, List.length_singleton] at to_
    exact seen x (by omega) (by omega)
  · have spots := (@pushed_places (randomAt top) args (by omega)).1
    apply built.argStrings.congr
    intro area mem i hi
    have := spots area mem
    exact seen _ (by omega) (by omega)
  · have spots := (@pushed_places (pushedEnd (randomAt top) args) envs (by omega)).1
    apply List.Forall₂.cons
    · obtain ⟨window, -⟩ := List.forall₂_cons.mp first
      rw [← window]
      apply Memory.window_congr
      intro i hi
      rw [seen _ (by omega) (by omega)]
      exact built.around _ (.inr (by omega))
    · apply built.envStrings.congr
      intro area mem i hi
      have := spots area mem
      exact seen _ (by omega) (by omega)

/-- As many strings of each kind as keep the tables together and stay in the arrays.
Without an argument there is no string whose push stores the null pointer. -/
structure Matched (s : Ram) (image : Image) (args envs : List (List UInt8)) : Prop where
  argEven : args.length % 2 = 0
  argFew : args.length < MAXARG
  envEven : envs.length % 2 = 0
  envFew : envs.length + 1 < MAXARG
  noArgs : args = [] → s.mem.fetch (image.ustack + 8) 8 = 0

/-- Where the strings reach behind an array, the last word there is not zero, so that
the null pointer that is stored to it shows. -/
structure Guarded (s : Ram) (image : Image) (args envs : List (List UInt8)) : Prop where
  args : MAXARG ≤ args.length → s.mem.fetch (image.ustack + 8 * (args.length + 1)) 8 ≠ 0
  envs : MAXARG ≤ envs.length + 1 → s.mem.fetch (image.envp + 8 * (envs.length + 2)) 8 ≠ 0

theorem kept_of_built (view : View s root node kernel user t)
    (inside : base ≤ (tablesAt (randomAt top) args envs).argv) (low : randomAt top ≤ top)
    (around : ∀ v, v < randomAt top ∨ top ≤ v → old v = s.mem (physical s root v)) (under : base ≤ randomAt top) {p : Nat}
    (built : Built s.mem old image argWords envWords pairs p (randomAt top) args envs kernel user) (a : Nat)
    (outside : ∀ area ∈ arrays image argWords envWords, Apart (a, 1) area)
    (away : ∀ v, base ≤ v → v < top → physical s root v ≠ a) : t.mem a = s.mem a := by
  by_cases there : ∃ v, InPage s root v ∧ physical s root v = a
  · obtain ⟨v, within, rfl⟩ := there
    have out : v < base ∨ top ≤ v := by
      by_contra neither
      exact away v (by omega) (by omega) rfl
    rw [view.user v within, built.around v (by omega), around v (by omega)]
  · rw [view.kernel a fun v within same => there ⟨v, within, same⟩]
    exact built.kept a outside

section Behind

variable (work : Workspace s root node image argWords envWords) {i : Nat} (out : MAXARG + 1 ≤ i)
include work out

/-- A word behind the array of the arguments is in none of the arrays. -/
theorem ustack_behind (reach : i + 1 ≤ argWords) (least : MAXARG + 1 ≤ envWords) :
    ∀ area ∈ arrays image (MAXARG + 1) (MAXARG + 1), Apart (image.ustack + 8 * i, 8) area := by
  have envp := work.ustack_envp
  have aux := work.ustack_aux
  have random := work.ustack_random
  simp only [Apart] at envp aux random
  simp only [arrays, List.forall_mem_cons, Apart]
  refine ⟨.inr (by omega), by omega, by omega, by omega, List.forall_mem_nil _⟩

theorem envp_behind (reach : i + 1 ≤ envWords) (least : MAXARG + 1 ≤ argWords) :
    ∀ area ∈ arrays image (MAXARG + 1) (MAXARG + 1), Apart (image.envp + 8 * i, 8) area := by
  have ustack := work.ustack_envp
  have aux := work.envp_aux
  have random := work.envp_random
  simp only [Apart] at ustack aux random
  simp only [arrays, List.forall_mem_cons, Apart]
  refine ⟨by omega, .inr (by omega), by omega, by omega, List.forall_mem_nil _⟩

end Behind

/-- Nothing is stored to a word outside the arrays and the stack. -/
theorem word_of_kept (stack : ∀ v, base ≤ v → v < top → UserPage s root v)
    (view : View s root node kernel user t) {a : Nat} (own : Private s root node a 8)
    (kept : ∀ a, (∀ area ∈ arrays image (MAXARG + 1) (MAXARG + 1), Apart (a, 1) area) →
      (∀ v, base ≤ v → v < top → physical s root v ≠ a) → t.mem a = s.mem a)
    (outside : ∀ area ∈ arrays image (MAXARG + 1) (MAXARG + 1), Apart (a, 8) area) :
    kernel.fetch a 8 = s.mem.fetch a 8 := by
  rw [← view.fetch own]
  apply Memory.fetch_congr
  intro i hi
  apply kept
  · intro area mem
    have := outside area mem
    rw [Apart] at this ⊢
    omega
  · intro v from_ to_
    exact own.away hi (stack v from_ to_).isOpen.inPage

/-- The stack of a program that `buildStack` returns from is as its start-up code needs
it, and nothing but the arrays and the stack is stored to, exactly where the numbers of
strings match. -/
theorem startup_matched (h : Prepared s root node image (max (MAXARG + 1) (args.length + 2))
      (max (MAXARG + 1) (envs.length + 3)) argv env base top args envs)
    (aligned : base % 16 = 0) (pos : 0 < base) (low : top ≤ 2 ^ 31)
    (run : buildStack limit image elf ph_vaddr interp_start_addr root argv env top base s =
      .ok (some r, t)) :
    (Guarded s image args envs →
      Startup s t root image (auxv elf ph_vaddr interp_start_addr (randomAt top)) base top args
        (UB_BINDIR :: envs) r → Matched s image args envs) ∧
    (Matched s image args envs →
      Startup s t root image (auxv elf ph_vaddr interp_start_addr (randomAt top)) base top args
        (UB_BINDIR :: envs) r) := by
  obtain ⟨fits, value, kernel, user, old, view, first, around, built⟩ :=
    (buildStack_outcome h aligned pos low).of_good run rfl
  obtain rfl : r = ⟨args.length, (tablesAt (randomAt top) args envs).argv, none, none⟩ :=
    Option.some.inj value
  obtain ⟨-, -, argFits, envFits, -, -, inside⟩ := fits
  have seen := seen_of_built h.stack inside pos view first built
  have under := pushedEnd_le (pushedEnd (randomAt top) args) envs
  have mid := pushedEnd_le (randomAt top) args
  have bottom := tablesAt_le (randomAt top) args envs
  obtain ⟨onRandom, place, room⟩ := @randomAt_place top (by omega)
  obtain ⟨onTables, argGap, envGap, strings⟩ := @tablesAt_gaps args envs _ onRandom (by omega)
  rw [stringsEnd] at strings
  constructor
  · intro guarded startup
    obtain ⟨ps, qs, table, argHeld, envHeld, -, -⟩ := startup.tables
    have pointers : ∀ q ∈ down top (UB_BINDIR.length + 1) :: pushed (pushedEnd (randomAt top) args) envs,
        0 < q := by
      intro q mem
      rcases List.mem_cons.mp mem with rfl | later
      · omega
      · have := pushedEnd_le_pushed _ _ q later
        omega
    obtain ⟨argEven, envEven, null⟩ := even_of_startup rfl argHeld.length_eq envHeld.length_eq
      (pushed_length _ _) (pushed_length _ _) pointers table seen.argTable seen.envTable seen.auxTable
      argGap envGap
    constructor
    · exact argEven
    · by_contra many
      have some_ : args ≠ [] := by
        rintro rfl
        exact many (by decide)
      apply guarded.args (by omega)
      have own := private_sub h.work.ustack
        (show image.ustack ≤ image.ustack + 8 * (args.length + 1) by omega)
        (show image.ustack + 8 * (args.length + 1) + 8 ≤ _ by omega)
      rw [← word_of_kept h.stack view own startup.kept
        (ustack_behind h.work (by omega) (by omega) (Nat.le_max_left _ _))]
      exact built.argNull some_
    · exact envEven
    · by_contra many
      apply guarded.envs (by omega)
      have own := private_sub h.work.envp (show image.envp ≤ image.envp + 8 * (envs.length + 2) by omega)
        (show image.envp + 8 * (envs.length + 2) + 8 ≤ _ by omega)
      rw [← word_of_kept h.stack view own startup.kept
        (envp_behind h.work (by omega) (by omega) (Nat.le_max_left _ _))]
      exact built.envNull
    · intro none
      rw [← built.noArgs none, ← null, none]
      rfl
  · intro matched
    have null : kernel.fetch (image.ustack + 8 * (args.length + 1)) 8 = 0 := by
      by_cases none : args = []
      · have word := (built.noArgs none).trans (matched.noArgs none)
        rw [none]
        exact word
      · exact built.argNull none
    have argTable := seen.argTable
    rw [null] at argTable
    have argEven := matched.argEven
    have envEven := matched.envEven
    have table := startup_of_even (pushed_length _ _) (pushed_length _ _) argTable seen.envTable
      seen.auxTable (by omega) (by omega)
    have size : (startupTable (auxv elf ph_vaddr interp_start_addr (randomAt top)) args.length
        (pushed (randomAt top) args) (down top (UB_BINDIR.length + 1) ::
          pushed (pushedEnd (randomAt top) args) envs)).length = args.length + envs.length + 32 := by
      rw [startupTable_length, List.length_cons, pushed_length, pushed_length, auxv_length]
      omega
    obtain ⟨within, apart⟩ := @startup_extents base top args envs (randomAt top)
      (down top (UB_BINDIR.length + 1)) (8 * (args.length + envs.length + 32)) _ UB_BINDIR (by omega) inside
      (by omega) (by omega) room
    constructor
    · rfl
    · exact onTables
    · rw [← size] at within apart
      exact ⟨_, _, table, seen.argStrings, seen.envStrings, within, apart⟩
    · have argFew := matched.argFew
      have envFew := matched.envFew
      have argWords : max (MAXARG + 1) (args.length + 2) = MAXARG + 1 := Nat.max_eq_left (by omega)
      have envWords : max (MAXARG + 1) (envs.length + 3) = MAXARG + 1 := Nat.max_eq_left (by omega)
      rw [argWords, envWords] at built
      exact kept_of_built view inside (by omega) around (by omega) built

end AvxKernel.Exec
