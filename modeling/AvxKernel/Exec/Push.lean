import AvxKernel.Exec.View
import AvxKernel.Lib.Outcome
import AvxKernel.Lib.Words

/-! `user_stack_push_str` and the loops over it: strings that go below one another
on the new stack, and an array of the pointers to them. -/
namespace AvxKernel.Exec

open Vm

/-! ### Strings and arrays in the kernel's memory -/

theorem private_sub {s : Ram} {root : Nat} {node : Nodes} {a n b w : Nat}
    (own : Private s root node a n) (low : a ≤ b) (high : b + w ≤ a + n) : Private s root node b w := by
  obtain ⟨d, rfl⟩ := Nat.exists_eq_add_of_le low
  exact (own.skip (by omega)).take (by omega)

/-- The kernel's addresses lie at both ends of the address space. -/
theorem mapped_ends {a : Nat} (h : mapped a = true) : a < 2 ^ 60 ∨ 8 * 2 ^ 60 ≤ a ∧ a < 10 * 2 ^ 60 := by
  simp only [mapped, Bool.or_eq_true, beq_iff_eq, Bool.and_eq_true, decide_eq_true_eq,
    List.any_eq_true, Nat.shiftRight_eq_div_pow] at h
  have top : TRAMPOLINE + PGSIZE < 2 ^ 60 := by decide
  have signal : SIGTRAMPOLINE + PGSIZE < 2 ^ 60 := by decide
  rcases h with (((h | h) | h) | h) | ⟨p, _, h⟩
  · omega
  · omega
  · omega
  · omega
  · have stack : PROCVKSTACK p + KSTACKSIZE < 2 ^ 60 := by
      have high : PROCVKSTACK p ≤ VKSTACK + EXTRASIZE := by
        rw [PROCVKSTACK]
        omega
      exact lt_of_le_of_lt (Nat.add_le_add_right high _) (by decide)
    omega

/-- A string and its NUL. -/
structure Text (s₀ : Ram) (root : Nat) (node : Nodes) (kernel : Memory) (str : Nat)
    (text : List UInt8) : Prop where
  own : Private s₀ root node str (text.length + 1)
  here : kernel.window str (text.length + 1) = text ++ [0]
  plain : 0 ∉ text

/-- A count, as many pointers, and a null pointer once there is one before it. -/
structure Vec (kernel : Memory) (arr : Nat) (ptrs : List Nat) : Prop where
  words : Words kernel arr (ptrs.length :: ptrs)
  null : ptrs ≠ [] → kernel.fetch (arr + 8 * (ptrs.length + 1)) 8 = 0

/-- Where `n` bytes go that are pushed at `sp`. -/
def down (sp n : Nat) : Nat := (sp - n) - (sp - n) % 16

variable {s₀ s : Ram} {root limit base top sp arr cap str n : Nat} {node : Nodes}
  {kernel kernel' user : Memory} {text : List UInt8} {ptrs : List Nat}

theorem down_le (sp n : Nat) : down sp n ≤ sp - n := Nat.sub_le _ _

theorem down_aligned (sp n : Nat) : down sp n % 16 = 0 := by
  rw [down]
  omega

theorem s32_of_lt (small : n < 2 ^ 31) : s32 n = n := by
  have word : u32 n = n := Nat.mod_eq_of_lt (by omega)
  rw [s32, word, if_pos small]

theorem Vec.congr (h : Vec kernel arr ptrs)
    (same : ∀ x, arr ≤ x → x < arr + 8 * (ptrs.length + 2) → kernel' x = kernel x) :
    Vec kernel' arr ptrs where
  words := h.words.congr fun x low high => same x low (by rw [List.length_cons] at high; omega)
  null := fun some_ => by
    rw [← h.null some_]
    apply Memory.fetch_congr
    intro i hi
    exact same _ (by omega) (by omega)

namespace Text

theorem congr (h : Text s₀ root node kernel str text)
    (same : ∀ x, str ≤ x → x < str + (text.length + 1) → kernel' x = kernel x) :
    Text s₀ root node kernel' str text where
  own := h.own
  here := by
    rw [← h.here]
    apply Memory.window_congr
    intro i hi
    exact same _ (by omega) (by omega)
  plain := h.plain

variable (h : Text s₀ root node kernel str text)
include h

theorem char {i : Nat} (hi : i < text.length) : kernel (str + i) = text[i] := by
  have whole : i < (kernel.window str (text.length + 1)).length := by
    rw [Memory.window_length]
    omega
  rw [← Memory.window_getElem kernel str _ i whole]
  simp only [h.here]
  exact List.getElem_append_left hi

theorem nul : kernel (str + text.length) = 0 := by
  have whole : text.length < (kernel.window str (text.length + 1)).length := by
    rw [Memory.window_length]
    exact Nat.lt_succ_self _
  rw [← Memory.window_getElem kernel str _ _ whole]
  simp only [h.here]
  exact List.getElem_concat_length rfl _

theorem char_ne {i : Nat} (hi : i < text.length) : kernel (str + i) ≠ 0 := by
  rw [h.char hi]
  intro zero
  exact h.plain (zero ▸ List.getElem_mem hi)

theorem window : kernel.window str text.length = text := by
  have whole := h.here
  rw [Memory.window_append] at whole
  exact List.append_inj_left whole (Memory.window_length _ _ _)

/-- The kernel maps no stretch of addresses that is longer. -/
theorem short : text.length < 2 ^ 62 := by
  by_contra long
  have byte : ∀ i ≤ 2 ^ 62, str + i < 2 ^ 60 ∨ 8 * 2 ^ 60 ≤ str + i ∧ str + i < 10 * 2 ^ 60 :=
    fun i hi => mapped_ends (h.own.mapped i (by omega))
  rcases byte 0 (Nat.zero_le _) with low | ⟨high, -⟩
  · have gap := byte (2 ^ 61 - str) (by omega)
    omega
  · have past := byte (2 ^ 62) (Nat.le_refl _)
    omega

end Text

/-- `strlen` stops at the NUL if its rounds last. -/
theorem strlen_outcome (view : View s₀ root node kernel user s) (h : Text s₀ root node kernel str text) :
    Outcome (strlen limit str s) (fun _ => True) (text.length < limit) text.length (· = s) := by
  have rounds : ∀ fuel n, n ≤ text.length →
      Outcome (Machine.loop (fun n => do
        if (← loadByte (str + n)) = 0 then return .inr n else return .inl (n + 1)) fuel n s)
        (fun _ => True) (text.length < n + fuel) text.length (· = s) := by
    intro fuel
    induction fuel with
    | zero =>
      intro n le
      constructor
      · intro short
        omega
      · intro _ r t run
        cases run
    | succ fuel ih =>
      intro n le
      have load := view.loadByte_run h.own (i := n) (by omega)
      rw [Machine.loop]
      by_cases last : n = text.length
      · subst last
        have round : (do
            if (← loadByte (str + text.length)) = 0 then return .inr text.length
            else return .inl (text.length + 1) : Machine Ram (Nat ⊕ Nat)) s =
              .ok (.inr text.length, s) := by
          rw [Machine.bind_of_ok load, if_pos h.nul]
          rfl
        apply Outcome.after round
        have done : Outcome (.ok (text.length, s)) (fun _ => True) True text.length (· = s) :=
          Outcome.of_ok rfl rfl
        apply done.congr
        · exact iff_of_true (by omega) trivial
        · exact fun _ same => same
      · have round : (do
            if (← loadByte (str + n)) = 0 then return .inr n
            else return .inl (n + 1) : Machine Ram (Nat ⊕ Nat)) s = .ok (.inl (n + 1), s) := by
          rw [Machine.bind_of_ok load, if_neg (h.char_ne (by omega))]
          rfl
        apply Outcome.after round
        apply (ih (n + 1) (by omega)).congr
        · omega
        · exact fun _ same => same
  apply (rounds limit 0 (Nat.zero_le _)).congr
  · rw [Nat.zero_add]
  · exact fun _ same => same

/-! ### One string -/

theorem Vec.push {k₁ k₂ k₃ : Memory} {p : Nat} (vec : Vec kernel arr ptrs) (small : p < 2 ^ 64)
    (count : k₁ = kernel.store arr 8 (ptrs.length + 1))
    (pointer : k₂ = k₁.store (arr + 8 * (ptrs.length + 1)) 8 p)
    (null : k₃ = k₂.store (arr + 8 * (ptrs.length + 2)) 8 0)
    (few : ptrs.length + 1 < 2 ^ 64) : Vec k₃ arr (ptrs ++ [p]) := by
  have length : (ptrs ++ [p]).length = ptrs.length + 1 := by
    rw [List.length_append, List.length_singleton]
  have old : Words k₃ (arr + 8) ptrs := by
    subst count pointer null
    apply Words.store_other _ (.inl (by omega))
    apply Words.store_other _ (.inl (by omega))
    apply Words.store_other _ (.inr (Nat.le_refl _))
    exact (Words.cons_iff.mp vec.words).2
  have new : k₃.fetch (arr + 8 + 8 * ptrs.length) 8 = p := by
    have place : arr + 8 + 8 * ptrs.length = arr + 8 * (ptrs.length + 1) := by omega
    subst pointer null
    rw [place, Memory.fetch_store_other _ (.inl (by omega)), Memory.fetch_store_same _ (by omega)]
  have first : k₃.fetch arr 8 = ptrs.length + 1 := by
    subst count pointer null
    rw [Memory.fetch_store_other _ (.inl (by omega)), Memory.fetch_store_other _ (.inl (by omega)),
      Memory.fetch_store_same _ (by omega)]
  constructor
  · rw [length]
    apply Words.cons first
    exact Words.append old (Words.singleton_iff.mpr new) rfl
  · intro _
    subst null
    rw [length]
    exact Memory.fetch_store_same _ (by decide)

theorem push_outcome (view : View s₀ root node kernel user s)
    (array : Private s₀ root node arr (8 * cap)) (vec : Vec kernel arr ptrs)
    (room : ptrs.length + 3 ≤ cap) (h : Text s₀ root node kernel str text)
    (apart : Apart (str, text.length + 1) (arr, 8 * cap))
    (opens : ∀ v, base ≤ v → v < top → OpenPage s₀ root v) (pos : 0 < base) (below : sp ≤ top)
    (low : top ≤ 2 ^ 31) :
    Outcome (user_stack_push_str limit root arr str sp base s) (· ≠ 2 ^ 64 - 1)
      (text.length < limit ∧ ptrs.length ≤ MAXARG ∧ base ≤ down sp (text.length + 1))
      (down sp (text.length + 1))
      (fun t => ∃ kernel', View s₀ root node kernel'
          (user.blit (down sp (text.length + 1)) (text ++ [0])) t ∧
        Vec kernel' arr (ptrs ++ [down sp (text.length + 1)]) ∧
        ∀ x, x < arr ∨ arr + 8 * cap ≤ x → kernel' x = kernel x) := by
  have reach : arr + 8 * (ptrs.length + 2) < 2 ^ 64 := mapped_lt (array.mapped _ (by omega))
  have argc : kernel.fetch arr 8 = ptrs.length := (Words.cons_iff.mp vec.words).1
  have word : u64 (ptrs.length + 1) = ptrs.length + 1 := Nat.mod_eq_of_lt (by omega)
  have first : Private s₀ root node arr 8 := private_sub array (Nat.le_refl _) (by omega)
  have peeked := view.peek_run first (by decide)
  rw [argc] at peeked
  obtain ⟨s₁, poked, view₁⟩ := view.poke_run first (by decide) (ptrs.length + 1)
  rw [user_stack_push_str]
  apply Outcome.after peeked
  rw [word]
  apply Outcome.after poked
  by_cases many : MAXARG + 1 < ptrs.length + 1
  · rw [if_pos many]
    have full : Outcome ((pure (2 ^ 64 - 1) : Machine Ram Nat) s₁) (· ≠ 2 ^ 64 - 1) False
        (down sp (text.length + 1)) (fun _ => False) := by
      apply Outcome.of_fail
      rintro r t ⟨⟩ ne
      exact ne rfl
    apply full.congr
    · exact iff_of_false (fun fits => by omega) id
    · exact fun _ => False.elim
  · rw [if_neg many]
    have h₁ : Text s₀ root node (kernel.store arr 8 (ptrs.length + 1)) str text :=
      h.congr fun x from_ to_ => Memory.store_outside _ (by rw [Apart] at apart; omega)
    have whole := h.short
    generalize hn : text.length + 1 = n at *
    have length : u64 n = n := Nat.mod_eq_of_lt (by omega)
    have same : text.length < limit ∧ ptrs.length ≤ MAXARG ∧ base ≤ down sp n ↔
        text.length < limit ∧ base ≤ down sp n := by
      apply and_congr_right
      intro _
      exact and_iff_right (by omega)
    refine Outcome.congr (Outcome.bind (strlen_outcome view₁ h₁) ?_ fun r t no => absurd trivial no)
      same fun _ done => done
    rintro - _ rfl
    dsimp only
    rw [hn, length]
    by_cases inside : n ≤ sp
    · have taken : u64 (sp + (2 ^ 64 - n)) = sp - n := by
        rw [u64]
        omega
      have place : sp - n - (sp - n) % 16 = down sp n := rfl
      rw [taken, place]
      by_cases short : down sp n < base
      · rw [if_pos short]
        constructor
        · intro fits
          omega
        · rintro _ r t ⟨⟩ ne
          exact ne rfl
      · rw [if_neg short]
        have under := down_le sp n
        have opened : ∀ v, span (down sp n) n v → OpenPage s₀ root v := by
          intro v hv
          simp only [span] at hv
          exact opens v (by omega) (by omega)
        have own₁ := h₁.own
        rw [hn] at own₁
        have user_low : down sp n ≤ MAXVA := by
          rw [MAXVA_eq]
          omega
        obtain ⟨s₂, copied, view₂⟩ := view₁.copyout_run opened user_low own₁ (by omega)
        have whole₁ := h₁.here
        rw [hn] at whole₁
        rw [whole₁] at view₂
        have second : Private s₀ root node (arr + 8 * (ptrs.length + 1)) 8 :=
          private_sub array (by omega) (by omega)
        have third : Private s₀ root node (arr + 8 * (ptrs.length + 2)) 8 :=
          private_sub array (by omega) (by omega)
        obtain ⟨s₃, poked₃, view₃⟩ := view₂.poke_run second (by decide) (down sp n)
        obtain ⟨s₄, poked₄, view₄⟩ := view₃.poke_run third (by decide) 0
        have word₁ : u64 (arr + 8 * (ptrs.length + 1)) = arr + 8 * (ptrs.length + 1) :=
          Nat.mod_eq_of_lt (by omega)
        have word₂ : u64 (arr + 8 * (ptrs.length + 1 + 1)) = arr + 8 * (ptrs.length + 2) :=
          Nat.mod_eq_of_lt (by omega)
        rw [word₁, word₂, s32_of_lt (by omega)]
        apply Outcome.after copied
        rw [if_neg (by decide)]
        apply Outcome.after poked₃
        apply Outcome.after poked₄
        refine Outcome.congr (Outcome.of_ok rfl ?_) (iff_of_true (by omega) trivial) fun _ done => done
        refine ⟨_, view₄, ?_, ?_⟩
        · exact vec.push (by omega) rfl rfl rfl (by omega)
        · intro x out
          rw [Memory.store_outside _ (by omega), Memory.store_outside _ (by omega),
            Memory.store_outside _ (by omega)]
    · -- the pointer wraps round to the top, where no user page is
      have wrapped : u64 (sp + (2 ^ 64 - n)) = 2 ^ 64 + sp - n := by
        rw [u64]
        omega
      have zero : down sp n = 0 := by
        rw [down, Nat.sub_eq_zero_of_le (by omega)]
      rw [wrapped]
      constructor
      · intro fits
        omega
      · intro _ r t run
        split at run
        · cases run
          exact fun ne => ne rfl
        · have high : MAXVA < 2 ^ 64 + sp - n - (2 ^ 64 + sp - n) % 16 := by
            rw [MAXVA_eq]
            omega
          rw [copyout, if_pos high] at run
          cases run

/-! ### One string after the other -/

/-- Where the strings go that are pushed at `sp`. -/
def pushed : Nat → List (List UInt8) → List Nat
  | _, [] => []
  | sp, text :: rest => down sp (text.length + 1) :: pushed (down sp (text.length + 1)) rest

/-- The last of these places, or `sp` where there is none. -/
def pushedEnd : Nat → List (List UInt8) → Nat
  | sp, [] => sp
  | sp, text :: rest => pushedEnd (down sp (text.length + 1)) rest

/-- Whether all of them can be pushed, after `c` others. -/
def Fits (limit base most : Nat) : Nat → Nat → List (List UInt8) → Prop
  | _, _, [] => True
  | c, sp, text :: rest =>
    (text.length < limit ∧ c < most ∧ base ≤ down sp (text.length + 1)) ∧
      Fits limit base most (c + 1) (down sp (text.length + 1)) rest

/-- Each of the strings is where its pointer points to. -/
def Held (user : Memory) (ps : List Nat) (texts : List (List UInt8)) : Prop :=
  List.Forall₂ (fun p text => user.window p (text.length + 1) = text ++ [0]) ps texts

/-- What is in the kernel's own memory, away from its arrays. -/
structure Own (s₀ : Ram) (root : Nat) (node : Nodes) (arrays : List (Nat × Nat)) (a n : Nat) : Prop where
  own : Private s₀ root node a n
  apart : ∀ r ∈ arrays, Apart (a, n) r

/-- A table of pointers to strings, up to a null pointer. -/
def Strings (s₀ : Ram) (root : Nat) (node : Nodes) (arrays : List (Nat × Nat)) (kernel : Memory) :
    Nat → List (List UInt8) → Prop
  | p, [] => Own s₀ root node arrays p 8 ∧ kernel.fetch p 8 = 0
  | p, text :: rest =>
    Own s₀ root node arrays p 8 ∧ kernel.fetch p 8 ≠ 0 ∧
      Text s₀ root node kernel (kernel.fetch p 8) text ∧
      (∀ r ∈ arrays, Apart (kernel.fetch p 8, text.length + 1) r) ∧
      Strings s₀ root node arrays kernel (p + 8) rest

/-- The strings in user memory, and the array of the pointers to them. -/
structure Pushed (arr cap sp : Nat) (texts : List (List UInt8)) (ptrs : List Nat)
    (kernel user kernel' user' : Memory) : Prop where
  vec : Vec kernel' arr (ptrs ++ pushed sp texts)
  outside : ∀ x, x < arr ∨ arr + 8 * cap ≤ x → kernel' x = kernel x
  around : ∀ v, v < pushedEnd sp texts ∨ sp ≤ v → user' v = user v
  held : Held user' (pushed sp texts) texts
  idle : texts = [] → kernel' = kernel

variable {p c most : Nat} {texts : List (List UInt8)} {arrays : List (Nat × Nat)} {user' : Memory}

theorem pushed_length (sp : Nat) (texts : List (List UInt8)) : (pushed sp texts).length = texts.length := by
  induction texts generalizing sp with
  | nil => rfl
  | cons text rest ih => rw [pushed, List.length_cons, List.length_cons, ih]

theorem pushedEnd_le (sp : Nat) (texts : List (List UInt8)) : pushedEnd sp texts ≤ sp := by
  induction texts generalizing sp with
  | nil => exact Nat.le_refl _
  | cons text rest ih =>
    have first := down_le sp (text.length + 1)
    exact (ih _).trans (first.trans (Nat.sub_le _ _))

theorem pushedEnd_aligned (aligned : sp % 16 = 0) : pushedEnd sp texts % 16 = 0 := by
  induction texts generalizing sp with
  | nil => exact aligned
  | cons text rest ih => exact ih (down_aligned _ _)

theorem Fits.base_le (fits : Fits limit base most c sp texts) (inside : base ≤ sp) :
    base ≤ pushedEnd sp texts := by
  induction texts generalizing c sp with
  | nil => exact inside
  | cons text rest ih => exact ih fits.2 fits.1.2.2

theorem Fits.count (fits : Fits limit base most c sp texts) (before : c ≤ most) :
    c + texts.length ≤ most := by
  induction texts generalizing c sp with
  | nil => exact before
  | cons text rest ih =>
    have more := ih fits.2 fits.1.2.1
    rw [List.length_cons]
    omega

/-- The places of the strings lie below one another. -/
theorem pushed_places (pos : 0 < pushedEnd sp texts) :
    (∀ area ∈ (pushed sp texts).zip texts, pushedEnd sp texts ≤ area.1 ∧ area.1 + (area.2.length + 1) ≤ sp) ∧
      ((pushed sp texts).zip texts).Pairwise fun r q =>
        Apart (r.1, r.2.length + 1) (q.1, q.2.length + 1) := by
  induction texts generalizing sp with
  | nil => exact ⟨nofun, .nil⟩
  | cons text rest ih =>
    obtain ⟨inside, apart⟩ := ih pos
    have first := down_le sp (text.length + 1)
    have last := pushedEnd_le (down sp (text.length + 1)) rest
    have lower : 0 < pushedEnd (down sp (text.length + 1)) rest := pos
    rw [pushed, List.zip_cons_cons, pushedEnd]
    constructor
    · intro area mem
      rcases List.mem_cons.mp mem with rfl | later
      · exact ⟨last, by dsimp only; omega⟩
      · have := inside area later
        omega
    · apply List.Pairwise.cons
      · intro area later
        have := inside area later
        exact .inr (by omega)
      · exact apart

theorem Held.congr {ps : List Nat} (held : Held user ps texts)
    (same : ∀ area ∈ ps.zip texts, ∀ i < area.2.length + 1, user' (area.1 + i) = user (area.1 + i)) :
    Held user' ps texts := by
  induction held with
  | nil => exact .nil
  | @cons p text ps texts here rest ih =>
    apply List.Forall₂.cons
    · rw [← here]
      apply Memory.window_congr
      exact same (p, text) List.mem_cons_self
    · exact ih fun area mem => same area (List.mem_cons_of_mem _ mem)

theorem Strings.congr (h : Strings s₀ root node arrays kernel p texts)
    (same : ∀ x, (∀ r ∈ arrays, Apart (x, 1) r) → kernel' x = kernel x) :
    Strings s₀ root node arrays kernel' p texts := by
  have bytes : ∀ {a n}, (∀ r ∈ arrays, Apart (a, n) r) → ∀ i < n, kernel' (a + i) = kernel (a + i) := by
    intro a n apart i hi
    apply same
    intro r mem
    have away := apart r mem
    rw [Apart] at away ⊢
    omega
  induction texts generalizing p with
  | nil =>
    obtain ⟨own, zero⟩ := h
    exact ⟨own, (Memory.fetch_congr (bytes own.apart)).trans zero⟩
  | cons text rest ih =>
    obtain ⟨own, ne, here, apart, later⟩ := h
    have pointer : kernel'.fetch p 8 = kernel.fetch p 8 := Memory.fetch_congr (bytes own.apart)
    rw [Strings, pointer]
    refine ⟨own, ne, here.congr ?_, apart, ih later⟩
    intro x from_ to_
    obtain ⟨i, rfl⟩ := Nat.exists_eq_add_of_le from_
    exact bytes apart i (by omega)

theorem Pushed.nil (vec : Vec kernel arr ptrs) : Pushed arr cap sp [] ptrs kernel user kernel user where
  vec := by
    rw [pushed, List.append_nil]
    exact vec
  outside := fun _ _ => rfl
  around := fun _ _ => rfl
  held := .nil
  idle := fun _ => rfl

theorem Pushed.cons {kernel₁ : Memory} (pos : 0 < down sp (text.length + 1))
    (outside : ∀ x, x < arr ∨ arr + 8 * cap ≤ x → kernel₁ x = kernel x)
    (rest : Pushed arr cap (down sp (text.length + 1)) texts (ptrs ++ [down sp (text.length + 1)]) kernel₁
      (user.blit (down sp (text.length + 1)) (text ++ [0])) kernel' user') :
    Pushed arr cap sp (text :: texts) ptrs kernel user kernel' user' where
  vec := by
    have vec := rest.vec
    rw [List.append_assoc] at vec
    exact vec
  outside := fun x out => (rest.outside x out).trans (outside x out)
  around := by
    intro v out
    have under := down_le sp (text.length + 1)
    have last := pushedEnd_le (down sp (text.length + 1)) texts
    rw [pushedEnd] at out
    rw [rest.around v (by omega)]
    apply Memory.blit_outside
    rw [List.length_append, List.length_singleton]
    omega
  held := by
    apply List.Forall₂.cons
    · have stored := Memory.window_blit_same user (down sp (text.length + 1)) (text ++ [0])
      rw [List.length_append, List.length_singleton] at stored
      rw [← stored]
      apply Memory.window_congr
      intro i _
      rw [rest.around _ (.inr (Nat.le_add_right _ _))]
    · exact rest.held
  idle := nofun

/-- The rounds of a loop over a table of strings: the end of the table ends it, and
a string is pushed or ends it too. -/
structure Pusher (s₀ : Ram) (root : Nat) (node : Nodes) (arrays : List (Nat × Nat))
    (limit base top most extra tbl arr cap : Nat) (plain : List UInt8 → Prop) {β γ : Type}
    (body : β → Machine Ram (β ⊕ Option γ)) (state : Nat → Nat → β) (result : Nat → Nat → γ) :
    Prop where
  ends : ∀ {i sp s kernel user}, View s₀ root node kernel user s → Own s₀ root node arrays (tbl + 8 * i) 8 →
    kernel.fetch (tbl + 8 * i) 8 = 0 → body (state i sp) s = .ok (.inr (some (result i sp)), s)
  pushes : ∀ {i sp s kernel user ptrs text}, View s₀ root node kernel user s → Vec kernel arr ptrs →
    ptrs.length = i + extra → ptrs.length + 3 ≤ cap → Own s₀ root node arrays (tbl + 8 * i) 8 →
    kernel.fetch (tbl + 8 * i) 8 ≠ 0 → Text s₀ root node kernel (kernel.fetch (tbl + 8 * i) 8) text →
    Apart (kernel.fetch (tbl + 8 * i) 8, text.length + 1) (arr, 8 * cap) → plain text → sp ≤ top →
    Outcome (body (state i sp) s) (· ≠ .inr none)
      (text.length < limit ∧ ptrs.length < most ∧ base ≤ down sp (text.length + 1))
      (.inl (state (i + 1) (down sp (text.length + 1))))
      fun t => ∃ kernel', View s₀ root node kernel'
          (user.blit (down sp (text.length + 1)) (text ++ [0])) t ∧
        Vec kernel' arr (ptrs ++ [down sp (text.length + 1)]) ∧
        ∀ x, x < arr ∨ arr + 8 * cap ≤ x → kernel' x = kernel x

variable {extra tbl : Nat} {plain : List UInt8 → Prop} {β γ : Type}
  {body : β → Machine Ram (β ⊕ Option γ)} {state : Nat → Nat → β} {result : Nat → Nat → γ}

/-- All strings of the table, one below the other. -/
theorem Pusher.outcome
    (pusher : Pusher s₀ root node arrays limit base top most extra tbl arr cap plain body state result)
    (array : (arr, 8 * cap) ∈ arrays) (pos : 0 < base) {i fuel : Nat}
    (view : View s₀ root node kernel user s) (vec : Vec kernel arr ptrs)
    (count : ptrs.length = i + extra) (room : ptrs.length + texts.length + 2 ≤ cap)
    (strings : Strings s₀ root node arrays kernel (tbl + 8 * i) texts)
    (plains : ∀ text ∈ texts, plain text) (below : sp ≤ top) :
    Outcome (Machine.loop body fuel (state i sp) s) (·.isSome = true)
      (texts.length < fuel ∧ Fits limit base most ptrs.length sp texts)
      (some (result (i + texts.length) (pushedEnd sp texts)))
      fun t => ∃ kernel' user', View s₀ root node kernel' user' t ∧
        Pushed arr cap sp texts ptrs kernel user kernel' user' := by
  induction texts generalizing i sp s kernel user ptrs fuel with
  | nil =>
    cases fuel with
    | zero =>
      constructor
      · rintro ⟨none, -⟩
        exact absurd none (Nat.lt_irrefl _)
      · intro _ r t run
        cases run
    | succ fuel =>
      obtain ⟨own, zero⟩ := strings
      apply Outcome.after (pusher.ends view own zero)
      refine Outcome.congr (Outcome.of_ok rfl ?_) (iff_of_true ⟨Nat.succ_pos _, trivial⟩ trivial)
        fun _ done => done
      exact ⟨kernel, user, view, .nil vec⟩
  | cons text rest ih =>
    rw [List.length_cons] at room
    obtain ⟨own, ne, here, apart, later⟩ := strings
    cases fuel with
    | zero =>
      constructor
      · rintro ⟨none, -⟩
        exact absurd none (Nat.not_lt_zero _)
      · intro _ r t run
        cases run
    | succ fuel =>
      have first := pusher.pushes view vec count (by omega) own ne here (apart _ array)
        (plains text List.mem_cons_self) below
      have under := down_le sp (text.length + 1)
      have all : i + (rest.length + 1) = i + 1 + rest.length := by omega
      rw [Machine.loop, List.length_cons, all, pushedEnd]
      have length : (ptrs ++ [down sp (text.length + 1)]).length = ptrs.length + 1 := by
        rw [List.length_append, List.length_singleton]
      have next : tbl + 8 * i + 8 = tbl + 8 * (i + 1) := by omega
      have same : rest.length + 1 < fuel + 1 ∧ Fits limit base most ptrs.length sp (text :: rest) ↔
          (text.length < limit ∧ ptrs.length < most ∧ base ≤ down sp (text.length + 1)) ∧
            rest.length < fuel ∧ Fits limit base most (ptrs.length + 1) (down sp (text.length + 1)) rest := by
        rw [Fits, Nat.add_lt_add_iff_right]
        exact and_left_comm
      refine Outcome.congr (first.bind (fun fits t done => ?_) ?_) same fun _ done => done
      · obtain ⟨kernel₁, view₁, vec₁, outside⟩ := done
        have strings₁ : Strings s₀ root node arrays kernel₁ (tbl + 8 * (i + 1)) rest := by
          rw [next] at later
          apply later.congr
          intro x away
          have := away _ array
          rw [Apart] at this
          exact outside x (by omega)
        have later := @ih _ (down sp (text.length + 1)) _ _ _ (i + 1) fuel view₁ vec₁ (by omega) (by omega)
          strings₁
          (fun other mem => plains other (List.mem_cons_of_mem _ mem)) (by omega)
        rw [length] at later
        apply later.congr Iff.rfl
        rintro u ⟨kernel', user', view', more⟩
        exact ⟨kernel', user', view', .cons (by omega) outside more⟩
      · intro r t no r' t' run
        obtain rfl := not_not.mp no
        cases run
        exact Bool.false_ne_true

/-! ### The loops of `exec` -/

theorem cstring_outcome (view : View s₀ root node kernel user s) (h : Text s₀ root node kernel str text) :
    Outcome (cstring limit str s) (fun _ => True) (text.length < limit) text (· = s) := by
  rw [cstring]
  refine Outcome.congr ((strlen_outcome view h).bind (fun _ t done => ?_) fun r t no =>
    absurd trivial no) (and_iff_left trivial).symm fun _ done => done
  subst done
  apply Outcome.after (Machine.get_run t)
  refine Outcome.of_ok ?_ rfl
  have read : t.mem.window str text.length = text := by
    rw [view.window (private_sub h.own (Nat.le_refl _) (Nat.le_succ _)), h.window]
  rw [read]
  rfl

variable {image : Image} {argv env : Nat}

/-- No string is a token of a redirection. -/
def NotRedirection (text : List UInt8) : Prop := text ≠ [62] ∧ text ≠ [62, 62]

/-- A pushed string goes on with the loop, and one that is not ends it. -/
theorem push_or_end {next : Nat → β} {post : Ram → Prop} {fits : Prop} {sp' : Nat}
    (pushed : Outcome (user_stack_push_str limit root arr str sp base s) (· ≠ 2 ^ 64 - 1) fits sp' post)
    (small : sp' < 2 ^ 31) :
    Outcome ((do
      let sp ← user_stack_push_str limit root arr str sp base
      if sp = 2 ^ 64 - 1 then return .inr none else return .inl (next sp) :
        Machine Ram (β ⊕ Option γ)) s) (· ≠ .inr none) fits (.inl (next sp')) post := by
  refine Outcome.congr (pushed.bind (fun _ t done => ?_) ?_) (and_iff_left trivial).symm
    fun _ done => done
  · rw [if_neg (by omega)]
    exact Outcome.of_ok rfl done
  · intro r t no r' t' run
    rw [if_pos (not_not.mp no)] at run
    cases run
    exact fun ne => ne rfl

section Loops

variable (opens : ∀ v, base ≤ v → v < top → OpenPage s₀ root v) (pos : 0 < base) (low : top ≤ 2 ^ 31)
include opens pos low

theorem pushArgs_pusher (array : Private s₀ root node image.ustack (8 * cap)) :
    ∃ body, (∀ sp, pushArgs limit image root argv sp base =
        Machine.loop body limit ⟨0, sp, none, none⟩) ∧
      Pusher s₀ root node arrays limit base top MAXARG 0 argv image.ustack cap NotRedirection body
        (fun argc sp => Args.mk argc sp none none) fun argc sp => Args.mk argc sp none none := by
  refine ⟨_, fun _ => rfl, ?_, ?_⟩
  · intro i sp s kernel user view own zero
    have word : u64 (argv + 8 * i) = argv + 8 * i :=
      Nat.mod_eq_of_lt (mapped_lt (own.own.mapped 0 (by decide)))
    have read := view.peek_run own.own (by decide)
    dsimp only
    rw [word, Machine.bind_of_ok read, if_pos zero]
    rfl
  · intro i sp s kernel user ptrs text view vec count room own ne here apart plain below
    have word : u64 (argv + 8 * i) = argv + 8 * i :=
      Nat.mod_eq_of_lt (mapped_lt (own.own.mapped 0 (by decide)))
    have read := view.peek_run own.own (by decide)
    have under := down_le sp (text.length + 1)
    dsimp only
    rw [word]
    apply Outcome.after read
    rw [if_neg ne]
    have same : text.length < limit ∧ ptrs.length < MAXARG ∧ base ≤ down sp (text.length + 1) ↔
        text.length < limit ∧ text.length < limit ∧ ptrs.length < MAXARG ∧
          base ≤ down sp (text.length + 1) := and_self_left.symm
    refine Outcome.congr ((cstring_outcome view here).bind (fun _ t done => ?_) fun r t no =>
      absurd trivial no) same fun _ done => done
    subst done
    rw [if_neg plain.1, if_neg plain.2, if_neg (fun both => Bool.false_ne_true both.1)]
    by_cases full : MAXARG ≤ i
    · rw [if_pos full]
      constructor
      · intro fits
        omega
      · rintro _ r u ⟨⟩ no
        exact no rfl
    · rw [if_neg full]
      have pushed : Outcome (user_stack_push_str limit root _ _ sp base _) _ _ _ _ :=
        push_outcome view array vec room here apart opens pos below low
      apply (push_or_end pushed _).congr
      · omega
      · exact fun _ done => done
      · omega

theorem pushEnv_pusher (array : Private s₀ root node image.envp (8 * cap)) (there : env ≠ 0) :
    ∃ body, (∀ sp, pushEnv limit image root env sp base = Machine.loop body limit (0, sp)) ∧
      Pusher s₀ root node arrays limit base top (MAXARG + 1) 1 env image.envp cap (fun _ => True) body
        (fun envnum sp => (envnum, sp)) fun _ sp => sp := by
  refine ⟨_, fun _ => if_neg there, ?_, ?_⟩
  · intro i sp s kernel user view own zero
    have word : u64 (env + 8 * i) = env + 8 * i :=
      Nat.mod_eq_of_lt (mapped_lt (own.own.mapped 0 (by decide)))
    have read := view.peek_run own.own (by decide)
    dsimp only
    rw [word, Machine.bind_of_ok read, if_pos zero]
    rfl
  · intro i sp s kernel user ptrs text view vec count room own ne here apart _ below
    have word : u64 (env + 8 * i) = env + 8 * i :=
      Nat.mod_eq_of_lt (mapped_lt (own.own.mapped 0 (by decide)))
    have read := view.peek_run own.own (by decide)
    have under := down_le sp (text.length + 1)
    dsimp only
    rw [word]
    apply Outcome.after read
    rw [if_neg ne]
    have pushed : Outcome (user_stack_push_str limit root _ _ sp base _) _ _ _ _ :=
      push_outcome view array vec room here apart opens pos below low
    apply (push_or_end pushed _).congr
    · omega
    · exact fun _ done => done
    · omega

end Loops

end AvxKernel.Exec
