import AvxKernel.Exec.Auxv

/-! The new stack of a program as `buildStack` leaves it: strings at the top, then the
auxiliary vector, the pointers to the environment and those to the arguments. -/
namespace AvxKernel.Exec

open Vm

/-- The arrays on the kernel stack, with room for so many words of pointers. -/
def arrays (image : Image) (argWords envWords : Nat) : List (Nat × Nat) :=
  [(image.ustack, 8 * argWords), (image.envp, 8 * envWords), (image.aux, 8 * (MAXARG * 2 + 3)),
    (image.random, 16)]

/-- Arrays that the kernel alone uses, none of them part of another. -/
structure Workspace (s₀ : Ram) (root : Nat) (node : Nodes) (image : Image) (argWords envWords : Nat) :
    Prop where
  own : ∀ r ∈ arrays image argWords envWords, Private s₀ root node r.1 r.2
  apart : (arrays image argWords envWords).Pairwise Apart

/-! ### The three tables -/

/-- Where the tables go that are laid out below `sp`. -/
structure Places where
  aux : Nat
  envp : Nat
  argv : Nat

def places (sp pairs envs args : Nat) : Places where
  aux := sp - 8 * (2 * pairs + 2)
  envp := down (sp - 8 * (2 * pairs + 2)) (8 * (envs + 1))
  argv := down (down (sp - 8 * (2 * pairs + 2)) (8 * (envs + 1))) (8 * (args + 2))

theorem places_le (sp pairs envs args : Nat) :
    (places sp pairs envs args).argv + 8 * (args + 2) ≤ (places sp pairs envs args).envp ∧
      (places sp pairs envs args).envp + 8 * (envs + 1) ≤ (places sp pairs envs args).aux ∧
      (places sp pairs envs args).aux + 8 * (2 * pairs + 2) ≤ sp ∨ (places sp pairs envs args).argv = 0 := by
  simp only [places, down]
  omega

/-- The end of `buildStack`, from the auxiliary vector on. -/
def pushTables (image : Image) (pagetable sp stackbase : Nat) (args : Args) :
    Machine Ram (Option Args) := do
  let sp ← loadaux pagetable sp stackbase image.aux
  if sp = 2 ^ 64 - 1 then
    return none
  else
    let argc ← peek image.envp 8
    match ← (if argc = 0 then return some sp
      else pushVector false pagetable sp stackbase (image.envp + 8) (argc + 1)) with
    | none => return none
    | some sp =>
      let argc ← peek image.ustack 8
      match ← pushVector true pagetable sp stackbase image.ustack (argc + 2) with
      | none => return none
      | some sp => return some { args with argc, sp }

variable {s₀ s : Ram} {root limit base top sp argWords envWords : Nat} {node : Nodes}
  {kernel user : Memory} {image : Image} {ps es : List Nat} {pairs : List (Nat × Nat)} {args : Args}

namespace Workspace

variable (work : Workspace s₀ root node image argWords envWords)
include work

theorem ustack : Private s₀ root node image.ustack (8 * argWords) :=
  work.own (image.ustack, _) (by simp [arrays])

theorem envp : Private s₀ root node image.envp (8 * envWords) :=
  work.own (image.envp, _) (by simp [arrays])

theorem aux : Private s₀ root node image.aux (8 * (MAXARG * 2 + 3)) :=
  work.own (image.aux, _) (by simp [arrays])

theorem random : Private s₀ root node image.random 16 := work.own (image.random, _) (by simp [arrays])

omit work in
theorem ustack_mem : (image.ustack, 8 * argWords) ∈ arrays image argWords envWords := by
  simp [arrays]

omit work in
theorem envp_mem : (image.envp, 8 * envWords) ∈ arrays image argWords envWords := by
  simp [arrays]

theorem ustack_envp : Apart (image.ustack, 8 * argWords) (image.envp, 8 * envWords) :=
  (List.pairwise_cons.mp work.apart).1 _ (by simp)

theorem ustack_aux : Apart (image.ustack, 8 * argWords) (image.aux, 8 * (MAXARG * 2 + 3)) :=
  (List.pairwise_cons.mp work.apart).1 _ (by simp)

theorem ustack_random : Apart (image.ustack, 8 * argWords) (image.random, 16) :=
  (List.pairwise_cons.mp work.apart).1 _ (by simp)

theorem envp_aux : Apart (image.envp, 8 * envWords) (image.aux, 8 * (MAXARG * 2 + 3)) :=
  (List.pairwise_cons.mp (List.pairwise_cons.mp work.apart).2).1 _ (by simp)

theorem envp_random : Apart (image.envp, 8 * envWords) (image.random, 16) :=
  (List.pairwise_cons.mp (List.pairwise_cons.mp work.apart).2).1 _ (by simp)

end Workspace

/-- Each table goes below the one before it. -/
theorem pushTables_outcome (args : Args) (work : Workspace s₀ root node image argWords envWords)
    (view : View s₀ root node kernel user s) (argv : Vec kernel image.ustack ps)
    (envp : Vec kernel image.envp es) (aux : AuxVec kernel image.aux pairs)
    (argRoom : ps.length + 2 ≤ argWords)
    (envRoom : es.length + 2 ≤ envWords) (some_ : 0 < es.length) (few : ps.length + es.length < 2 ^ 9)
    (aux_some : 0 < pairs.length) (aux_few : pairs.length < MAXARG) (aligned : base % 16 = 0)
    (opens : ∀ v, base ≤ v → v < top → OpenPage s₀ root v) (pos : 0 < base) (below : sp ≤ top)
    (low : top ≤ 2 ^ 31) :
    Outcome (pushTables image root sp base args s) (·.isSome = true)
      (base ≤ (places sp pairs.length es.length ps.length).aux ∧
        base ≤ (places sp pairs.length es.length ps.length).envp ∧
        base ≤ (places sp pairs.length es.length ps.length).argv)
      (some { args with
        argc := ps.length
        sp := (places sp pairs.length es.length ps.length).argv })
      fun t => ∃ kernel' user', View s₀ root node kernel' user' t ∧
        (∀ x, x < image.aux ∨ image.aux + 8 * (MAXARG * 2 + 3) ≤ x → kernel' x = kernel x) ∧
        (∀ v, v < (places sp pairs.length es.length ps.length).argv ∨ sp ≤ v → user' v = user v) ∧
        Words user' (places sp pairs.length es.length ps.length).aux (auxWords pairs ++ [0, 0]) ∧
        Words user' (places sp pairs.length es.length ps.length).envp (es ++ [0]) ∧
        Words user' (places sp pairs.length es.length ps.length).argv
          (ps.length :: ps ++ [kernel.fetch (image.ustack + 8 * (ps.length + 1)) 8]) := by
  have ustack_aux := work.ustack_aux
  have envp_aux := work.envp_aux
  rw [Apart] at ustack_aux envp_aux
  dsimp only at ustack_aux envp_aux
  rw [pushTables, places]
  dsimp only
  have first := loadaux_outcome view work.aux aux aux_some aux_few opens pos below low
  refine first.bind (fun fits t done => ?_) ?_
  · obtain ⟨kernel₁, user₁, view₁, outside, around₁, words₁⟩ := done
    rw [if_neg (by omega)]
    have argv₁ : Vec kernel₁ image.ustack ps := argv.congr fun x from_ to_ => outside x (by omega)
    have envp₁ : Vec kernel₁ image.envp es := envp.congr fun x from_ to_ => outside x (by omega)
    have last : kernel₁.fetch (image.ustack + 8 * (ps.length + 1)) 8 =
        kernel.fetch (image.ustack + 8 * (ps.length + 1)) 8 :=
      Memory.fetch_congr fun i hi => outside _ (by omega)
    have es_words : Words kernel₁ (image.envp + 8) (es ++ [0]) := by
      apply Words.append (Words.cons_iff.mp envp₁.words).2 _ rfl
      apply Words.singleton_iff.mpr
      rw [Nat.add_assoc, Nat.add_comm 8, ← Nat.mul_add_one]
      exact envp₁.null (List.ne_nil_of_length_pos some_)
    have ps_words : Words kernel₁ image.ustack
        (ps.length :: ps ++ [kernel.fetch (image.ustack + 8 * (ps.length + 1)) 8]) :=
      Words.append argv₁.words (Words.singleton_iff.mpr last) rfl
    have envc := view₁.peek_run (private_sub work.envp (Nat.le_refl _) (show image.envp + 8 ≤ _ by omega))
      (by decide)
    rw [(Words.cons_iff.mp envp₁.words).1] at envc
    apply Outcome.after envc
    rw [if_neg (by omega)]
    have second := pushVector_outcome false view₁
      (private_sub work.envp (show image.envp ≤ image.envp + 8 by omega)
        (show image.envp + 8 + 8 * (es.length + 1) ≤ _ by omega)) es_words (by simp) (by omega) (by omega)
      aligned opens pos (show sp - 8 * (2 * pairs.length + 2) ≤ top by omega) low
    refine second.bind (fun fits₂ t₂ done₂ => ?_) ?_
    · obtain ⟨user₂, view₂, around₂, words₂⟩ := done₂
      have argc := view₂.peek_run
        (private_sub work.ustack (Nat.le_refl _) (show image.ustack + 8 ≤ _ by omega)) (by decide)
      rw [(Words.cons_iff.mp argv₁.words).1] at argc
      have under := down_le (sp - 8 * (2 * pairs.length + 2)) (8 * (es.length + 1))
      have under₃ := down_le (down (sp - 8 * (2 * pairs.length + 2)) (8 * (es.length + 1)))
        (8 * (ps.length + 2))
      have third := pushVector_outcome true view₂
        (private_sub work.ustack (Nat.le_refl _)
          (show image.ustack + 8 * (ps.length + 2) ≤ _ by omega)) ps_words (by simp) (by omega) (by omega)
        aligned opens pos
        (show down (sp - 8 * (2 * pairs.length + 2)) (8 * (es.length + 1)) ≤ top by omega) low
      dsimp only
      apply Outcome.after argc
      refine Outcome.congr (third.bind (fun fits₃ t₃ done₃ => ?_) ?_) (and_iff_left trivial).symm
        fun _ done => done
      · obtain ⟨user₃, view₃, around₃, words₃⟩ := done₃
        refine Outcome.of_ok rfl ⟨kernel₁, user₃, view₃, outside, ?_, ?_, ?_, words₃⟩
        · intro v out
          rw [around₃ v (by omega), around₂ v (by omega), around₁ v (by omega)]
        · apply words₁.congr
          intro x low_ _
          rw [around₃ x (by omega), around₂ x (by omega)]
        · apply words₂.congr
          intro x low_ _
          exact around₃ x (.inr low_)
      · intro r t no r' t' run
        cases r with
        | none =>
          cases run
          exact Bool.false_ne_true
        | some r => exact absurd rfl no
    · intro r t no r' t' run
      cases r with
      | none =>
        cases run
        exact Bool.false_ne_true
      | some r => exact absurd rfl no
  · intro r t no r' t' run
    rw [if_pos (not_not.mp no)] at run
    cases run
    exact Bool.false_ne_true

/-! ### The strings -/

/-- Where the last string goes, below `sp`. -/
def stringsEnd (sp : Nat) (args envs : List (List UInt8)) : Nat := pushedEnd (pushedEnd sp args) envs

/-- Where the tables go, below the strings. -/
def tablesAt (sp : Nat) (args envs : List (List UInt8)) : Places :=
  places (stringsEnd sp args envs) 13 (envs.length + 1) args.length

theorem tablesAt_le (sp : Nat) (args envs : List (List UInt8)) :
    (tablesAt sp args envs).argv + 8 * (args.length + 2) ≤ (tablesAt sp args envs).envp ∧
      (tablesAt sp args envs).envp + 8 * (envs.length + 1 + 1) ≤ (tablesAt sp args envs).aux ∧
      (tablesAt sp args envs).aux + 8 * (2 * 13 + 2) ≤ pushedEnd (pushedEnd sp args) envs ∨
      (tablesAt sp args envs).argv = 0 :=
  places_le _ 13 _ _

/-- `buildStack` below the random bytes. -/
def pushStrings (limit : Nat) (image : Image) (elf : Elfhdr)
    (ph_vaddr interp_start_addr pagetable argv env sp stackbase : Nat) : Machine Ram (Option Args) := do
  fillAux image elf ph_vaddr interp_start_addr sp
  poke image.ustack 8 0
  match ← pushArgs limit image pagetable argv sp stackbase with
  | none => return none
  | some args =>
    match ← pushEnv limit image pagetable env args.sp stackbase with
    | none => return none
    | some sp => pushTables image pagetable sp stackbase args

/-- The stack has room for all below `sp`, and no loop runs out of rounds. -/
def StringsFit (limit base env sp : Nat) (args envs : List (List UInt8)) : Prop :=
  (args.length < limit ∧ Fits limit base MAXARG 0 sp args) ∧
    (env ≠ 0 → envs.length < limit ∧ Fits limit base (MAXARG + 1) 1 (pushedEnd sp args) envs) ∧
    base ≤ (tablesAt sp args envs).aux ∧ base ≤ (tablesAt sp args envs).envp ∧
    base ≤ (tablesAt sp args envs).argv

/-- The stack once it is built below `sp`, and the arrays behind it; `p` points to the
first string of the environment. -/
structure Built (mem old : Memory) (image : Image) (argWords envWords : Nat) (pairs : List (Nat × Nat))
    (p sp : Nat) (args envs : List (List UInt8)) (kernel user : Memory) : Prop where
  kept : ∀ x, (∀ r ∈ arrays image argWords envWords, Apart (x, 1) r) → kernel x = mem x
  around : ∀ v, v < (tablesAt sp args envs).argv ∨ sp ≤ v → user v = old v
  argStrings : Held user (pushed sp args) args
  envStrings : Held user (pushed (pushedEnd sp args) envs) envs
  auxTable : Words user (tablesAt sp args envs).aux (auxWords pairs ++ [0, 0])
  envTable : Words user (tablesAt sp args envs).envp (p :: pushed (pushedEnd sp args) envs ++ [0])
  argTable : Words user (tablesAt sp args envs).argv
    (args.length :: pushed sp args ++ [kernel.fetch (image.ustack + 8 * (args.length + 1)) 8])
  argNull : args ≠ [] → kernel.fetch (image.ustack + 8 * (args.length + 1)) 8 = 0
  noArgs : args = [] → kernel.fetch (image.ustack + 8) 8 = mem.fetch (image.ustack + 8) 8
  envNull : kernel.fetch (image.envp + 8 * (envs.length + 2)) 8 = 0

variable {cap argv env : Nat} {envs : List (List UInt8)} {texts : List (List UInt8)}

theorem pushArgs_outcome (opens : ∀ v, base ≤ v → v < top → OpenPage s₀ root v) (pos : 0 < base)
    (low : top ≤ 2 ^ 31) {areas : List (Nat × Nat)} (array : Private s₀ root node image.ustack (8 * cap))
    (mem : (image.ustack, 8 * cap) ∈ areas) (view : View s₀ root node kernel user s)
    (vec : Vec kernel image.ustack []) (room : texts.length + 2 ≤ cap)
    (strings : Strings s₀ root node areas kernel argv texts) (plain : ∀ text ∈ texts, NotRedirection text)
    (below : sp ≤ top) :
    Outcome (pushArgs limit image root argv sp base s) (·.isSome = true)
      (texts.length < limit ∧ Fits limit base MAXARG 0 sp texts)
      (some ⟨texts.length, pushedEnd sp texts, none, none⟩)
      fun t => ∃ kernel' user', View s₀ root node kernel' user' t ∧
        Pushed image.ustack cap sp texts [] kernel user kernel' user' := by
  obtain ⟨body, loop, pusher⟩ := @pushArgs_pusher _ _ limit base top cap _ areas image argv opens pos low array
  rw [loop]
  have run : Outcome (Machine.loop body limit _ s) _ _ _ _ :=
    pusher.outcome mem pos view vec rfl (by simpa using room) strings plain below
  rw [Nat.zero_add] at run
  exact run

theorem pushEnv_outcome (opens : ∀ v, base ≤ v → v < top → OpenPage s₀ root v) (pos : 0 < base)
    (low : top ≤ 2 ^ 31) {areas : List (Nat × Nat)} (array : Private s₀ root node image.envp (8 * cap))
    (mem : (image.envp, 8 * cap) ∈ areas) {p : Nat}
    (view : View s₀ root node kernel user s) (vec : Vec kernel image.envp [p])
    (room : texts.length + 3 ≤ cap) (noEnv : env = 0 → texts = [])
    (strings : env ≠ 0 → Strings s₀ root node areas kernel env texts) (below : sp ≤ top) :
    Outcome (pushEnv limit image root env sp base s) (·.isSome = true)
      (env ≠ 0 → texts.length < limit ∧ Fits limit base (MAXARG + 1) 1 sp texts)
      (some (pushedEnd sp texts))
      fun t => ∃ kernel' user', View s₀ root node kernel' user' t ∧
        Pushed image.envp cap sp texts [p] kernel user kernel' user' := by
  by_cases there : env = 0
  · obtain rfl := noEnv there
    rw [pushEnv, if_pos there]
    refine Outcome.congr (Outcome.of_ok rfl ?_) (iff_of_true (fun ne => absurd there ne) trivial)
      fun _ done => done
    exact ⟨kernel, user, view, .nil vec⟩
  · obtain ⟨body, loop, pusher⟩ := @pushEnv_pusher _ _ limit base top cap _ areas image env opens pos low
      array there
    rw [loop]
    apply (pusher.outcome mem pos view vec rfl (by simpa [Nat.add_comm] using room)
      (strings there) (fun _ _ => trivial) below).congr
    · exact forall_prop_of_true there
    · exact fun _ done => done

theorem pushStrings_outcome {args envs : List (List UInt8)} {elf : Elfhdr}
    {ph_vaddr interp_start_addr p : Nat} (work : Workspace s₀ root node image argWords envWords)
    (view : View s₀ root node kernel user s) (vec : Vec kernel image.envp [p])
    (argStrings : Strings s₀ root node (arrays image argWords envWords) kernel argv args)
    (noEnv : env = 0 → envs = [])
    (envStrings : env ≠ 0 → Strings s₀ root node (arrays image argWords envWords) kernel env envs)
    (plain : ∀ text ∈ args, NotRedirection text) (argRoom : args.length + 2 ≤ argWords)
    (envRoom : envs.length + 3 ≤ envWords) (aligned : base % 16 = 0)
    (opens : ∀ v, base ≤ v → v < top → OpenPage s₀ root v) (pos : 0 < base) (inside : base ≤ sp)
    (below : sp ≤ top) (low : top ≤ 2 ^ 31) :
    Outcome (pushStrings limit image elf ph_vaddr interp_start_addr root argv env sp base s)
      (·.isSome = true) (StringsFit limit base env sp args envs)
      (some ⟨args.length, (tablesAt sp args envs).argv, none, none⟩)
      fun t => ∃ kernel' user', View s₀ root node kernel' user' t ∧
        Built kernel user image argWords envWords (auxv elf ph_vaddr interp_start_addr sp) p sp args envs
          kernel' user' := by
  have ustack_envp := work.ustack_envp
  have ustack_aux := work.ustack_aux
  have envp_aux := work.envp_aux
  have most : MAXARG = 32 := rfl
  simp only [Apart] at ustack_envp ustack_aux envp_aux
  rw [pushStrings, StringsFit]
  obtain ⟨s₁, k₁, run₁, view₁, aux₁, out₁⟩ :=
    @fillAux_run _ _ _ _ _ _ image elf ph_vaddr interp_start_addr sp view work.aux
  apply Outcome.after run₁
  obtain ⟨s₂, run₂, view₂⟩ := view₁.poke_run
    (private_sub work.ustack (Nat.le_refl _) (show image.ustack + 8 ≤ _ by omega)) (by decide) 0
  apply Outcome.after run₂
  have arg₂ : Vec (k₁.store image.ustack 8 0) image.ustack [] :=
    ⟨Words.singleton_iff.mpr (Memory.fetch_store _ _ _ _), fun no => absurd rfl no⟩
  have kept₂ : ∀ x, (∀ r ∈ arrays image argWords envWords, Apart (x, 1) r) →
      k₁.store image.ustack 8 0 x = kernel x := by
    intro x away
    simp only [arrays, Apart, List.forall_mem_cons] at away
    rw [Memory.store_outside _ (by omega), out₁ x (by omega)]
  -- the arguments
  refine (pushArgs_outcome opens pos low work.ustack Workspace.ustack_mem view₂ arg₂ argRoom
    (argStrings.congr kept₂) plain below).bind (fun fits₃ s₃ done₃ => ?_) ?_
  · obtain ⟨k₃, user₃, view₃, done₃⟩ := done₃
    have base₃ := fits₃.2.base_le inside
    have under₃ := pushedEnd_le sp args
    have count₃ := fits₃.2.count (Nat.zero_le _)
    have kept₃ : ∀ x, (∀ r ∈ arrays image argWords envWords, Apart (x, 1) r) → k₃ x = kernel x := by
      intro x away
      have outside := away _ Workspace.ustack_mem
      rw [Apart] at outside
      rw [done₃.outside x (by omega), kept₂ x away]
    have env₃ : Vec k₃ image.envp [p] := by
      apply vec.congr
      intro x from_ to_
      have near : x < image.envp + 24 := to_
      rw [done₃.outside x (by omega), Memory.store_outside _ (by omega), out₁ x (by omega)]
    -- the rest of the environment
    refine (pushEnv_outcome opens pos low work.envp Workspace.envp_mem view₃ env₃ envRoom noEnv
      (fun there => (envStrings there).congr kept₃) (show pushedEnd sp args ≤ top by omega)).bind
      (fun fits₄ s₄ done₄ => ?_) ?_
    · obtain ⟨k₄, user₄, view₄, done₄⟩ := done₄
      have base₄ : base ≤ pushedEnd (pushedEnd sp args) envs ∧ envs.length ≤ MAXARG := by
        by_cases there : env = 0
        · rw [noEnv there]
          exact ⟨base₃, Nat.zero_le _⟩
        · have fits := (fits₄ there).2
          have count := fits.count (by decide)
          exact ⟨fits.base_le base₃, by omega⟩
      have under₄ := pushedEnd_le (pushedEnd sp args) envs
      have kept₄ : ∀ x, (∀ r ∈ arrays image argWords envWords, Apart (x, 1) r) → k₄ x = kernel x := by
        intro x away
        have outside := away _ Workspace.envp_mem
        rw [Apart] at outside
        rw [done₄.outside x (by omega), kept₃ x away]
      have aux₄ : AuxVec k₄ image.aux (auxv elf ph_vaddr interp_start_addr sp) := by
        apply aux₁.congr
        intro x from_ to_
        have near : x < image.aux + 8 * 29 := to_
        rw [done₄.outside x (by omega), done₃.outside x (by omega), Memory.store_outside _ (by omega)]
      have arg₄ : Vec k₄ image.ustack (pushed sp args) := by
        apply done₃.vec.congr
        intro x from_ to_
        rw [List.nil_append, pushed_length] at to_
        exact done₄.outside x (by omega)
      have length₄ : (p :: pushed (pushedEnd sp args) envs).length = envs.length + 1 := by
        rw [List.length_cons, pushed_length]
      have env₄ : Vec k₄ image.envp (p :: pushed (pushedEnd sp args) envs) := done₄.vec
      -- the tables
      have tables := pushTables_outcome ⟨args.length, pushedEnd sp args, none, none⟩ work view₄
        arg₄ env₄ aux₄ (by rw [pushed_length]; omega)
        (by rw [length₄]; omega) (by rw [length₄]; omega) (by rw [length₄, pushed_length]; omega)
        (show 0 < 13 by decide) (show 13 < MAXARG by decide) aligned opens pos
        (show pushedEnd (pushedEnd sp args) envs ≤ top by omega) low
      rw [length₄, pushed_length] at tables
      apply Outcome.congr tables Iff.rfl
      rintro t ⟨k₅, user₅, view₅, outside₅, around₅, aux₅, envp₅, argv₅⟩
      have same : places (pushedEnd (pushedEnd sp args) envs) (auxv elf ph_vaddr interp_start_addr sp).length
          (envs.length + 1) args.length = tablesAt sp args envs := rfl
      have bottom := tablesAt_le sp args envs
      rw [same] at around₅
      have word : ∀ i < argWords, k₅.fetch (image.ustack + 8 * i) 8 = k₄.fetch (image.ustack + 8 * i) 8 :=
        fun i hi => Memory.fetch_congr fun j hj => outside₅ _ (by omega)
      refine ⟨k₅, user₅, view₅, ?_, ?_, ?_, ?_, aux₅, envp₅, ?_, ?_, ?_, ?_⟩
      · intro x away
        have outside := (away _ (show (image.aux, 8 * (MAXARG * 2 + 3)) ∈ _ by simp [arrays]))
        rw [Apart] at outside
        rw [outside₅ x (by omega), kept₄ x away]
      · intro v out
        rw [around₅ v (by omega), done₄.around v (by omega), done₃.around v (by omega)]
      · have spots := (@pushed_places sp args (by omega)).1
        apply done₃.held.congr
        intro area mem i _
        have := spots area mem
        rw [around₅ _ (by omega), done₄.around _ (by omega)]
      · have spots := (@pushed_places (pushedEnd sp args) envs (by omega)).1
        apply done₄.held.congr
        intro area mem i _
        have := spots area mem
        exact around₅ _ (by omega)
      · rw [word _ (by omega)]
        exact argv₅
      · intro some_
        have null := arg₄.null fun none => some_ (List.length_eq_zero_iff.mp (by
          rw [← pushed_length sp args, none]
          rfl))
        rw [pushed_length] at null
        rw [word _ (by omega), null]
      · rintro rfl
        have idle := done₃.idle rfl
        have first : k₁.fetch (image.ustack + 8) 8 = kernel.fetch (image.ustack + 8) 8 :=
          Memory.fetch_congr fun j hj => out₁ _ (by omega)
        have second : k₄.fetch (image.ustack + 8) 8 = k₃.fetch (image.ustack + 8) 8 :=
          Memory.fetch_congr fun j hj => done₄.outside _ (by omega)
        have last := word 1 (by omega)
        rw [last, second, idle, Memory.fetch_store_other _ (.inr (Nat.le_refl _)), first]
      · have null := env₄.null (List.cons_ne_nil _ _)
        rw [length₄] at null
        rw [← null]
        exact Memory.fetch_congr fun j hj => outside₅ _ (by omega)
    · intro r t no r' t' run
      cases r with
      | none =>
        cases run
        exact Bool.false_ne_true
      | some r => exact absurd rfl no
  · intro r t no r' t' run
    cases r with
    | none =>
      cases run
      exact Bool.false_ne_true
    | some r => exact absurd rfl no

/-! ### The whole stack -/

/-- `UB_BINDIR=.` -/
def UB_BINDIR : List UInt8 := [85, 66, 95, 66, 73, 78, 68, 73, 82, 61, 46]

/-- What `exec` has before it builds the stack: a table that maps the pages of the
stack, the arrays, and the strings elsewhere in the kernel's own memory. Each array
is taken to end behind the last word that so many strings reach. -/
structure Prepared (s : Ram) (root : Nat) (node : Nodes) (image : Image) (argWords envWords : Nat)
    (argv env base top : Nat) (args envs : List (List UInt8)) : Prop where
  space : UserSpace s root node
  stack : ∀ v, base ≤ v → v < top → UserPage s root v
  work : Workspace s root node image argWords envWords
  argRoom : args.length + 2 ≤ argWords
  envRoom : envs.length + 3 ≤ envWords
  ub_bindir : Text s root node s.mem image.ub_bindir UB_BINDIR
  ub_apart : ∀ r ∈ arrays image argWords envWords, Apart (image.ub_bindir, UB_BINDIR.length + 1) r
  argStrings : Strings s root node (arrays image argWords envWords) s.mem argv args
  noEnv : env = 0 → envs = []
  envStrings : env ≠ 0 → Strings s root node (arrays image argWords envWords) s.mem env envs
  plain : ∀ text ∈ args, NotRedirection text

/-- Where the random bytes go, below the first string of the environment. -/
def randomAt (top : Nat) : Nat := down top (UB_BINDIR.length + 1) - 16

/-- The stack has room for all, and no loop runs out of rounds. -/
def StackFits (limit base top env : Nat) (args envs : List (List UInt8)) : Prop :=
  (UB_BINDIR.length < limit ∧ 0 ≤ MAXARG ∧ base ≤ down top (UB_BINDIR.length + 1)) ∧
    ¬randomAt top < base ∧ StringsFit limit base env (randomAt top) args envs

theorem buildStack_outcome {args envs : List (List UInt8)} {elf : Elfhdr} {ph_vaddr interp_start_addr : Nat}
    (h : Prepared s root node image argWords envWords argv env base top args envs)
    (aligned : base % 16 = 0) (pos : 0 < base) (low : top ≤ 2 ^ 31) :
    Outcome (buildStack limit image elf ph_vaddr interp_start_addr root argv env top base s)
      (·.isSome = true) (StackFits limit base top env args envs)
      (some ⟨args.length, (tablesAt (randomAt top) args envs).argv, none, none⟩)
      fun t => ∃ kernel user old, View s root node kernel user t ∧
        Held old [down top (UB_BINDIR.length + 1)] [UB_BINDIR] ∧
        (∀ v, v < randomAt top ∨ top ≤ v → old v = s.mem (physical s root v)) ∧
        Built s.mem old image argWords envWords (auxv elf ph_vaddr interp_start_addr (randomAt top))
          (down top (UB_BINDIR.length + 1)) (randomAt top) args envs kernel user := by
  have opens : ∀ v, base ≤ v → v < top → OpenPage s root v :=
    fun v from_ to_ => (h.stack v from_ to_).isOpen
  have argRoom := h.argRoom
  have envRoom := h.envRoom
  have work := h.work
  have ustack_envp := work.ustack_envp
  have ustack_random := work.ustack_random
  have envp_random := work.envp_random
  simp only [Apart] at ustack_envp ustack_random envp_random
  rw [buildStack, StackFits]
  -- the first string of the environment
  obtain ⟨s₁, run₁, view₁⟩ := (View.refl h.space).poke_run
    (private_sub work.envp (Nat.le_refl _) (show image.envp + 8 ≤ _ by omega)) (by decide) 0
  apply Outcome.after run₁
  have vec₁ : Vec (s.mem.store image.envp 8 0) image.envp [] :=
    ⟨Words.singleton_iff.mpr (Memory.fetch_store _ _ _ _), fun no => absurd rfl no⟩
  have text₁ : Text s root node (s.mem.store image.envp 8 0) image.ub_bindir UB_BINDIR := by
    have away := h.ub_apart _ Workspace.envp_mem
    rw [Apart] at away
    exact h.ub_bindir.congr fun x from_ to_ => Memory.store_outside _ (by omega)
  have pushed : Outcome (user_stack_push_str limit root image.envp image.ub_bindir top base s₁) _ _ _ _ :=
    push_outcome view₁ work.envp vec₁ (show 0 + 3 ≤ _ by omega) text₁
      (h.ub_apart _ Workspace.envp_mem) opens pos (Nat.le_refl _) low
  refine pushed.bind (fun fits₁ s₂ done₁ => ?_) ?_
  · obtain ⟨k₂, view₂, vec₂, out₂⟩ := done₁
    have under := down_le top (UB_BINDIR.length + 1)
    have on := down_aligned top (UB_BINDIR.length + 1)
    have first := fits₁.2.2
    rw [if_neg (by omega)]
    -- the random bytes
    obtain ⟨s₃, run₃, view₃⟩ := view₂.poke_run
      (private_sub work.random (Nat.le_refl _) (show image.random + 8 ≤ _ by omega)) (by decide)
      0xcde142a16cb93072
    apply Outcome.after run₃
    obtain ⟨s₄, run₄, view₄⟩ := view₃.poke_run
      (private_sub work.random (Nat.le_add_right _ 8) (show image.random + 8 + 8 ≤ _ by omega)) (by decide)
      0x128a39c127d8bbf2
    apply Outcome.after run₄
    have taken : u64 (down top (UB_BINDIR.length + 1) + (2 ^ 64 - 16)) = randomAt top := by
      rw [u64, randomAt]
      omega
    have place : randomAt top + 16 = down top (UB_BINDIR.length + 1) := by
      rw [randomAt]
      omega
    rw [taken]
    apply Outcome.check
    · rintro r t ⟨⟩
      exact Bool.false_ne_true
    intro inside
    have opened : ∀ v, span (randomAt top) 16 v → OpenPage s root v := by
      intro v hv
      simp only [span] at hv
      exact opens v (by omega) (by omega)
    have user_low : randomAt top ≤ MAXVA := by
      rw [MAXVA_eq]
      omega
    obtain ⟨s₅, run₅, view₅⟩ := view₄.copyout_run opened user_low work.random (by decide)
    apply Outcome.after run₅
    rw [if_neg (by decide)]
    generalize hk : (k₂.store image.random 8 0xcde142a16cb93072).store (image.random + 8) 8
      0x128a39c127d8bbf2 = k₄ at *
    have out₄ : ∀ x, x < image.random ∨ image.random + 16 ≤ x → k₄ x = k₂ x := by
      intro x out
      rw [← hk, Memory.store_outside _ (by omega), Memory.store_outside _ (by omega)]
    have kept₄ : ∀ x, (∀ r ∈ arrays image argWords envWords, Apart (x, 1) r) → k₄ x = s.mem x := by
      intro x away
      simp only [arrays, Apart, List.forall_mem_cons] at away
      rw [out₄ x (by omega), out₂ x (by omega), Memory.store_outside _ (by omega)]
    have env₄ : Vec k₄ image.envp [down top (UB_BINDIR.length + 1)] := by
      apply vec₂.congr
      intro x from_ to_
      have near : x < image.envp + 24 := to_
      exact out₄ x (by omega)
    have strings := @pushStrings_outcome _ _ _ limit _ _ _ _ _ _ _ _ _ argv env args envs elf ph_vaddr
      interp_start_addr _ work view₅ env₄ (h.argStrings.congr kept₄) h.noEnv
      (fun there => (h.envStrings there).congr kept₄) h.plain argRoom envRoom aligned opens pos
      (Nat.le_of_not_lt inside) (show randomAt top ≤ top by omega) low
    apply Outcome.congr strings Iff.rfl
    rintro t ⟨k₅, user₅, view₆, built⟩
    have held : Held ((Memory.blit (fun v => s.mem (physical s root v)) (down top (UB_BINDIR.length + 1))
        (UB_BINDIR ++ [0])).blit (randomAt top) (k₄.window image.random 16))
        [down top (UB_BINDIR.length + 1)] [UB_BINDIR] := by
      apply List.Forall₂.cons _ .nil
      have stored := Memory.window_blit_same (fun v => s.mem (physical s root v))
        (down top (UB_BINDIR.length + 1)) (UB_BINDIR ++ [0])
      refine Eq.trans (Memory.window_congr fun i _ => ?_) stored
      apply Memory.blit_outside
      rw [Memory.window_length]
      omega
    refine ⟨k₅, user₅, _, view₆, held, ?_, { built with kept := ?_, noArgs := ?_ }⟩
    · intro v out
      rw [Memory.blit_outside _ (by rw [Memory.window_length]; omega), Memory.blit_outside]
      rw [List.length_append, List.length_singleton]
      omega
    · exact fun x away => (built.kept x away).trans (kept₄ x away)
    · intro none
      rw [built.noArgs none]
      apply Memory.fetch_congr
      intro i hi
      rw [out₄ _ (by omega), out₂ _ (by omega), Memory.store_outside _ (by omega)]
  · intro r t no r' t' run
    rw [if_pos (not_not.mp no)] at run
    cases run
    exact Bool.false_ne_true

end AvxKernel.Exec
