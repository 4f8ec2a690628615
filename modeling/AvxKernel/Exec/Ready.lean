import AvxKernel.Exec.Layout
import AvxKernel.Vm.Grow

/-! A page table that `uvmalloc1` has mapped the pages of a stack in, and kernel memory
beside it: what `exec` builds a stack in. -/
namespace AvxKernel.Exec

open Vm

theorem filled_page {v x pa p : Nat} {frames : List Nat} {perm : Nat → Nat}
    (hm : PageMap.fill (fun _ => none) v frames perm x = some (pa, p)) :
    ∃ h : x - v < frames.length, pa = frames[x - v] ∧ v ≤ x := by
  rw [PageMap.fill] at hm
  split at hm
  · next inside =>
    have short : x - v < frames.length := by omega
    rw [List.getD_eq_getElem _ _ short] at hm
    cases hm
    exact ⟨short, rfl, inside.1⟩
  · cases hm

section Filled

variable {s t : Ram} {root v va : Nat} {node node' : Nodes} {free free' frames : List Nat}
  {perm : Nat → Nat} {content : Nat → Nat → UInt8}
  (filled : Filled s t root node node' free free' [] (fun _ => none) v frames perm content)
include filled

/-- Fresh pages have frames of their own. -/
theorem filled_space : UserSpace t root node' := by
  have nodup : frames.Nodup := by
    have := filled.pool.nodup
    rw [List.append_nil] at this
    exact (List.nodup_append.mp this).2.1
  apply filled.pool.tree.space filled.maps.entries filled.maps.frames
  · intro x pa p hm
    obtain ⟨short, rfl, -⟩ := filled_page hm
    apply filled.pool.apart
    rw [List.append_nil]
    exact List.mem_append_right _ (List.getElem_mem short)
  · intro x y pa p p' hx hy
    obtain ⟨short, same, low⟩ := filled_page hx
    obtain ⟨short', same', low'⟩ := filled_page hy
    have := (List.Nodup.getElem_inj_iff nodup).mp (same.symm.trans same')
    omega

theorem filled_user (low : va < MAXVA) (from_ : v ≤ va / PGSIZE) (to_ : va / PGSIZE < v + frames.length)
    (user : perm (va / PGSIZE) &&& PTE_PLV3 = PTE_PLV3) : UserPage t root va := by
  have found := filled.pool.tree.translation filled.maps.entries filled.maps.frames low
  rw [PageMap.fill, if_pos ⟨from_, to_⟩] at found
  refine ⟨_, _, (if_pos low).trans found, ?_⟩
  simp only [Nat.and_or_distrib_right, user]
  decide

/-- Memory that is neither in the table nor in the list it took its pages from. -/
theorem filled_private {a n : Nat} (reach : ∀ i < n, mapped (a + i) = true)
    (apart : ∀ page, page ∈ free ∨ node.Has page → ∀ i < n, a + i < page ∨ page + PGSIZE ≤ a + i) :
    Private t root node' a n where
  mapped := reach
  apart := fun i hi page has => apart page ((filled.has page has).symm) i hi
  hidden := by
    intro i hi va pa flags hpage
    rw [page] at hpage
    split at hpage
    · next low =>
      rw [filled.pool.tree.translation filled.maps.entries filled.maps.frames low,
        Option.map_eq_some_iff] at hpage
      obtain ⟨⟨pa', p⟩, hm, eq⟩ := hpage
      cases eq
      obtain ⟨short, rfl, -⟩ := filled_page hm
      exact apart _ (.inl (filled.source _ (List.getElem_mem short))) i hi
    · cases hpage

end Filled

/-! ### A stack of a hundred pages -/

/-- The pages of the free list. -/
def POOL : Nat := 600

/-- The page behind them, which holds what `exec` reads and its arrays. -/
def DATA : Nat := RAMBASE + POOL * PGSIZE

def poolPages : List Nat := (List.range POOL).map fun i => RAMBASE + i * PGSIZE

/-- The first word of each page is the address of the next. -/
def poolLinks : Memory := fun a =>
  let i := (a - RAMBASE) / PGSIZE
  if RAMBASE ≤ a ∧ i + 1 < POOL then
    (bytesOf (RAMBASE + (i + 1) * PGSIZE) 8).getD ((a - RAMBASE) % PGSIZE) 0
  else
    0

/-- With two strings and a table of two pointers to the second of them in the page `d`. -/
def withData (m : Memory) (d : Nat) : Memory :=
  (((m.blit (d + 3072) (UB_BINDIR ++ [0])).store (d + 3328) 8 (d + 3584)).store
    (d + 3336) 8 (d + 3584)).blit (d + 3584) [97, 0]

def readyMem : Memory := withData poolLinks DATA

/-- The page of an empty table. -/
def ROOT : Nat := DATA + PGSIZE

def readyImage : Image where
  trampoline := 0
  signalTrampoline := 0
  ub_bindir := DATA + 3072
  ustack := DATA
  envp := DATA + 512
  aux := DATA + 1024
  random := DATA + 2048
  ph_vaddr := 0

/-- Before the table is made. -/
def beforeReady : Ram where
  mem := readyMem
  freelist := RAMBASE
  npage := POOL
  kernel_end := RAMBASE
  allocated := []
  freed := []
  touched := []

theorem poolLinks_fetch (i : Nat) :
    poolLinks.fetch (RAMBASE + i * PGSIZE) 8 = if i + 1 < POOL then RAMBASE + (i + 1) * PGSIZE else 0 := by
  have index : ∀ j < 8, (RAMBASE + i * PGSIZE + j - RAMBASE) / PGSIZE = i ∧
      (RAMBASE + i * PGSIZE + j - RAMBASE) % PGSIZE = j := by
    intro j hj
    rw [PGSIZE]
    omega
  split
  · next more =>
    have bytes : poolLinks.window (RAMBASE + i * PGSIZE) 8 = bytesOf (RAMBASE + (i + 1) * PGSIZE) 8 := by
      apply List.ext_getElem
      · simp
      · intro j h₁ h₂
        rw [bytesOf_length] at h₂
        obtain ⟨at_, off⟩ := index j h₂
        rw [Memory.window_getElem, poolLinks, at_, off, if_pos ⟨by omega, more⟩,
          List.getD_eq_getElem _ _ (by rwa [bytesOf_length])]
    have small : RAMBASE + (i + 1) * PGSIZE < 256 ^ 8 := by
      have high : RAMBASE + POOL * PGSIZE < 256 ^ 8 := by decide
      have := Nat.mul_le_mul_right PGSIZE more.le
      omega
    rw [Memory.fetch, bytes, valueOf_bytesOf small]
  · next last =>
    apply Memory.fetch_zero
    intro j hj
    rw [poolLinks, (index j hj).1]
    exact if_neg fun both => last both.2

theorem withData_low (m : Memory) {d a : Nat} (low : a < d + 3072) : withData m d a = m a := by
  have size : (UB_BINDIR ++ [0]).length = 12 := rfl
  rw [withData, Memory.blit_outside _ (.inl (by omega)), Memory.store_outside _ (.inl (by omega)),
    Memory.store_outside _ (.inl (by omega)), Memory.blit_outside _ (.inl low)]

set_option maxRecDepth 8000 in
theorem ready_links : FreeList readyMem RAMBASE poolPages := by
  have chain : ∀ n i, i + n = POOL → FreeList readyMem (if i < POOL then RAMBASE + i * PGSIZE else 0)
      ((List.range' i n).map fun i => RAMBASE + i * PGSIZE) := by
    intro n
    induction n with
    | zero =>
      intro i all
      rw [if_neg (by omega)]
      rfl
    | succ n ih =>
      intro i all
      have inside : i < POOL := by omega
      rw [if_pos inside]
      refine ⟨rfl, ?_⟩
      have same : readyMem.fetch (RAMBASE + i * PGSIZE) 8 = poolLinks.fetch (RAMBASE + i * PGSIZE) 8 := by
        apply Memory.fetch_congr
        intro j hj
        have := Nat.mul_le_mul_right PGSIZE inside.le
        apply withData_low
        rw [DATA]
        omega
      rw [same, poolLinks_fetch i]
      exact ih (i + 1) (by omega)
  have first : (0 : Nat) < POOL := by decide
  have whole := chain POOL 0 (Nat.zero_add _)
  rw [if_pos first, Nat.zero_mul, Nat.add_zero, ← List.range_eq_range'] at whole
  exact whole

theorem withData_high (m : Memory) {d a : Nat} (high : d + PGSIZE ≤ a) : withData m d a = m a := by
  have size : (UB_BINDIR ++ [0]).length = 12 := rfl
  have page : PGSIZE = 4096 := rfl
  rw [withData, Memory.blit_outside, Memory.store_outside _ (.inr (by omega)),
    Memory.store_outside _ (.inr (by omega)), Memory.blit_outside _ (.inr (by omega))]
  right
  rw [List.length_cons, List.length_singleton]
  omega

theorem poolLinks_high {a : Nat} (high : DATA ≤ a) : poolLinks a = 0 := by
  have past : POOL ≤ (a - RAMBASE) / PGSIZE := by
    rw [DATA] at high
    apply (Nat.le_div_iff_mul_le (by decide)).mpr
    omega
  rw [poolLinks]
  exact if_neg (by omega)

section Data

variable (m : Memory) (d : Nat)

theorem withData_ub_bindir : (withData m d).window (d + 3072) 12 = UB_BINDIR ++ [0] := by
  rw [withData, Memory.window_blit_outside _ (.inl (by omega))]
  refine Eq.trans (Memory.window_congr fun i hi => ?_)
    (Memory.window_blit_same m (d + 3072) (UB_BINDIR ++ [0]))
  rw [Memory.store_outside _ (.inl (by omega)), Memory.store_outside _ (.inl (by omega))]

theorem withData_string : (withData m d).window (d + 3584) 2 = [97, 0] :=
  Memory.window_blit_same _ _ [97, 0]

variable {d}

theorem withData_first (small : d + 3584 < 256 ^ 8) : (withData m d).fetch (d + 3328) 8 = d + 3584 := by
  rw [withData, Memory.fetch_congr fun i hi => Memory.blit_outside _ (.inl (by omega)),
    Memory.fetch_store_other _ (.inl (by omega)), Memory.fetch_store_same _ small]

theorem withData_second (small : d + 3584 < 256 ^ 8) : (withData m d).fetch (d + 3336) 8 = d + 3584 := by
  rw [withData, Memory.fetch_congr fun i hi => Memory.blit_outside _ (.inl (by omega)),
    Memory.fetch_store_same _ small]

theorem withData_null : (withData m d).fetch (d + 3344) 8 = m.fetch (d + 3344) 8 := by
  have size : (UB_BINDIR ++ [0]).length = 12 := rfl
  rw [withData, Memory.fetch_congr fun i hi => Memory.blit_outside _ (.inl (by omega)),
    Memory.fetch_store_other _ (.inr (by omega)), Memory.fetch_store_other _ (.inr (by omega))]
  exact Memory.fetch_congr fun i hi => Memory.blit_outside _ (.inr (by omega))

end Data

theorem poolPages_below {page : Nat} (mem : page ∈ poolPages) : page + PGSIZE ≤ DATA := by
  obtain ⟨i, hi, rfl⟩ := List.mem_map.mp mem
  have inside := Nat.mul_le_mul_right PGSIZE (Nat.succ_le_of_lt (List.mem_range.mp hi))
  rw [Nat.succ_mul] at inside
  rw [DATA]
  omega

theorem pool_or_root {page : Nat} (mem : page ∈ poolPages ∨ (rootOnly ROOT).Has page) :
    page + PGSIZE ≤ DATA ∨ page = ROOT := by
  rcases mem with mem | ⟨l, p, has⟩
  · exact .inl (poolPages_below mem)
  · rw [rootOnly] at has
    split at has
    · exact .inr (Option.some.inj has).symm
    · cases has

theorem data_reach (k : Nat) (inside : k ≤ 4096) : DATA + k ≤ ROOT := Nat.add_le_add_left inside _

theorem frame_DATA : Frame DATA := frame_RAMBASE_add (by decide) (Nat.dvd_mul_left _ _)

theorem frame_ROOT : Frame ROOT := by
  have place : ROOT = RAMBASE + (POOL + 1) * PGSIZE := by
    rw [ROOT, DATA, Nat.succ_mul, Nat.add_assoc]
  rw [place]
  exact frame_RAMBASE_add (by decide) (Nat.dvd_mul_left _ _)

set_option maxRecDepth 8000 in
/-- The pool of pages and the empty table. -/
theorem ready_pool : Pool beforeReady ROOT (rootOnly ROOT) poolPages [] ∧
    Maps beforeReady (rootOnly ROOT) fun _ => none := by
  have zero : ∀ i < PGSIZE, beforeReady.mem (ROOT + i) = 0 := by
    intro i _
    have high : DATA + PGSIZE ≤ ROOT + i := Nat.le_add_right _ _
    refine (withData_high poolLinks high).trans (poolLinks_high ?_)
    exact (Nat.le_add_right _ _).trans high
  have made : Refines beforeReady ROOT (rootOnly ROOT) [ROOT] fun _ => none := .empty frame_ROOT zero
  constructor
  · constructor
    · exact made.tree
    · exact ready_links
    · intro page mem
      rw [List.append_nil] at mem
      obtain ⟨i, hi, rfl⟩ := List.mem_map.mp mem
      exact usable_RAMBASE_add rfl (lt_trans (List.mem_range.mp hi) (by decide))
    · rw [List.append_nil]
      apply List.Nodup.map _ List.nodup_range
      intro i j same
      exact Nat.eq_of_mul_eq_mul_right (by decide) (Nat.add_left_cancel same)
    · intro page mem has
      rw [List.append_nil] at mem
      have below := poolPages_below mem
      obtain rfl : page = ROOT := List.mem_singleton.mp ((made.pages page).mp has)
      have size : 0 < PGSIZE := by decide
      rw [ROOT] at below
      omega
  · exact ⟨made.entries, nofun⟩

theorem lacking_le (node : Nodes) (l v n : Nat) : lacking node l v n ≤ n := by
  apply (Finset.card_filter_le _ _).trans
  apply Finset.card_image_le.trans
  rw [Nat.card_Ico]
  omega

/-- The flags of `alloc_vma_stack`. -/
def STACK_FLAGS : Nat := PTE_P ||| PTE_W ||| PTE_PLV3 ||| PTE_D

/-- The stack is mapped. -/
theorem ready_stack : ∃ t node' free' frames,
    uvmalloc1 ROOT (USER_STACK_TOP - INIT_STACK_SIZE) USER_STACK_TOP STACK_FLAGS beforeReady = .ok (0, t) ∧
      frames.length = 100 ∧
      Filled beforeReady t ROOT (rootOnly ROOT) node' poolPages free' [] (fun _ => none)
        (heapPages (USER_STACK_TOP - INIT_STACK_SIZE)) frames (fun _ => STACK_FLAGS) fun _ _ => 0 := by
  obtain ⟨pool, maps⟩ := ready_pool
  have whole := (uvmalloc_all_or_nothing pool maps (show STACK_FLAGS ||| PTE_PLV3 < 2 ^ 9 by decide)
    (show USER_STACK_TOP ≤ MAXVA by decide)
    fun x (_ : USER_STACK_TOP - INIT_STACK_SIZE ≤ x * PGSIZE) _ => rfl).2.2.1 (by decide) (by decide)
  have count : addedPages (USER_STACK_TOP - INIT_STACK_SIZE) USER_STACK_TOP = 100 := by decide
  rw [count] at whole
  have enough : need (rootOnly ROOT) (heapPages (USER_STACK_TOP - INIT_STACK_SIZE)) 100 ≤
      poolPages.length := by
    have length : poolPages.length = 600 := by
      rw [poolPages, List.length_map, List.length_range, POOL]
    have first := lacking_le (rootOnly ROOT) 0 (heapPages (USER_STACK_TOP - INIT_STACK_SIZE)) 100
    have second := lacking_le (rootOnly ROOT) 1 (heapPages (USER_STACK_TOP - INIT_STACK_SIZE)) 100
    have third := lacking_le (rootOnly ROOT) 2 (heapPages (USER_STACK_TOP - INIT_STACK_SIZE)) 100
    rw [need, length]
    omega
  obtain ⟨t, node', free', frames, run, full, filled⟩ := whole.all enough
  exact ⟨t, node', free', frames, run, full, filled⟩

section Ready

variable {t : Ram} {node' : Nodes} {free' frames : List Nat} (full : frames.length = 100)
  (filled : Filled beforeReady t ROOT (rootOnly ROOT) node' poolPages free' [] (fun _ => none)
    (heapPages (USER_STACK_TOP - INIT_STACK_SIZE)) frames (fun _ => STACK_FLAGS) fun _ _ => 0)
include filled

theorem data_private {a n : Nat} (low : DATA ≤ a) (high : a + n ≤ ROOT) : Private t ROOT node' a n := by
  apply filled_private filled
  · intro i hi
    obtain ⟨d, rfl⟩ := Nat.exists_eq_add_of_le low
    rw [ROOT] at high
    rw [Nat.add_assoc]
    exact mapped_frame frame_DATA (by omega)
  · intro page mem i hi
    rcases pool_or_root mem with below | rfl
    · exact .inr (by omega)
    · exact .inl (by omega)

theorem data_kept {a : Nat} (low : DATA ≤ a) (high : a < ROOT) : t.mem a = withData poolLinks DATA a := by
  obtain ⟨d, rfl⟩ := Nat.exists_eq_add_of_le low
  rw [ROOT] at high
  apply filled.within.kept DATA frame_DATA _ d (by omega)
  intro mem
  have size : 0 < PGSIZE := by decide
  rcases pool_or_root mem with below | same
  · omega
  · rw [ROOT] at same
    omega

theorem data_fetch {a : Nat} (low : DATA ≤ a) (high : a + 8 ≤ ROOT) :
    t.mem.fetch a 8 = (withData poolLinks DATA).fetch a 8 :=
  Memory.fetch_congr fun i hi => data_kept filled (by omega) (by omega)

theorem data_window {a n : Nat} (low : DATA ≤ a) (high : a + n ≤ ROOT) :
    t.mem.window a n = (withData poolLinks DATA).window a n :=
  Memory.window_congr fun i hi => data_kept filled (by omega) (by omega)

theorem data_own {a n : Nat} (low : DATA + 3072 ≤ a) (high : a + n ≤ ROOT) :
    Own t ROOT node' (arrays readyImage (MAXARG + 1) (MAXARG + 1)) a n where
  own := data_private filled ((Nat.le_add_right _ _).trans low) high
  apart := by
    have most : MAXARG = 32 := rfl
    simp only [arrays, readyImage, Apart, List.forall_mem_cons]
    refine ⟨?_, ?_, ?_, ?_, List.forall_mem_nil _⟩ <;> omega

theorem ready_string : Text t ROOT node' t.mem (DATA + 3584) [97] where
  own := data_private filled (Nat.le_add_right _ _) (data_reach 3586 (by decide))
  here := (data_window filled (Nat.le_add_right _ _) (data_reach 3586 (by decide))).trans
    (withData_string poolLinks DATA)
  plain := by decide

/-- As many arguments as the table has pointers from there on. -/
theorem ready_strings : Strings t ROOT node' (arrays readyImage (MAXARG + 1) (MAXARG + 1)) t.mem
      (DATA + 3336) [[97]] ∧
    Strings t ROOT node' (arrays readyImage (MAXARG + 1) (MAXARG + 1)) t.mem
      (DATA + 3328) [[97], [97]] := by
  have small : DATA + 3584 < 256 ^ 8 := by decide
  have first : t.mem.fetch (DATA + 3328) 8 = DATA + 3584 :=
    (data_fetch filled (Nat.le_add_right _ _) (data_reach 3336 (by decide))).trans
      (withData_first poolLinks small)
  have second : t.mem.fetch (DATA + 3336) 8 = DATA + 3584 :=
    (data_fetch filled (Nat.le_add_right _ _) (data_reach 3344 (by decide))).trans
      (withData_second poolLinks small)
  have null : t.mem.fetch (DATA + 3344) 8 = 0 := by
    rw [data_fetch filled (Nat.le_add_right _ _) (data_reach 3352 (by decide)), withData_null poolLinks]
    apply Memory.fetch_zero
    intro i _
    exact poolLinks_high (by omega)
  have string := ready_string filled
  have away := (data_own filled (a := DATA + 3584) (n := 2) (by omega) (data_reach 3586 (by decide))).apart
  have one : Strings t ROOT node' (arrays readyImage (MAXARG + 1) (MAXARG + 1)) t.mem
      (DATA + 3336) [[97]] := by
    refine ⟨data_own filled (by omega) (data_reach 3344 (by decide)), ?_, ?_, ?_,
      data_own filled (by omega) (data_reach 3352 (by decide)), null⟩
    · rw [second]
      omega
    · rwa [second]
    · rwa [second]
  refine ⟨one, data_own filled (by omega) (data_reach 3336 (by decide)), ?_, ?_, ?_, one⟩
  · rw [first]
    omega
  · rwa [first]
  · rwa [first]

include full in
/-- What `exec` has with these arguments and no environment. -/
theorem ready_prepared {argv : Nat} {args : List (List UInt8)}
    (strings : Strings t ROOT node' (arrays readyImage (MAXARG + 1) (MAXARG + 1)) t.mem argv args)
    (plain : ∀ text ∈ args, NotRedirection text) (few : args.length + 2 ≤ MAXARG + 1) :
    Prepared t ROOT node' readyImage (MAXARG + 1) (MAXARG + 1) argv 0 (USER_STACK_TOP - INIT_STACK_SIZE)
      USER_STACK_TOP args [] where
  space := filled_space filled
  stack := by
    intro v from_ to_
    apply filled_user filled
    · exact lt_of_lt_of_le to_ (by decide)
    · exact (Nat.le_div_iff_mul_le (by decide)).mpr (le_trans (by decide) from_)
    · rw [full]
      exact (Nat.div_lt_iff_lt_mul (by decide)).mpr (lt_of_lt_of_le to_ (by decide))
    · decide
  work := by
    have most : MAXARG = 32 := rfl
    constructor
    · simp only [arrays, readyImage, List.forall_mem_cons]
      refine ⟨data_private filled (by omega) ?_, data_private filled (by omega) ?_,
        data_private filled (by omega) ?_, data_private filled (by omega) ?_, List.forall_mem_nil _⟩
      all_goals
        rw [ROOT, PGSIZE]
        omega
    · simp only [arrays, readyImage, Apart, List.pairwise_cons, List.forall_mem_cons]
      refine ⟨⟨?_, ?_, ?_, List.forall_mem_nil _⟩, ⟨?_, ?_, List.forall_mem_nil _⟩,
        ⟨?_, List.forall_mem_nil _⟩, List.forall_mem_nil _, .nil⟩
      all_goals omega
  argRoom := few
  envRoom := by decide
  ub_bindir := {
    own := data_private filled (Nat.le_add_right _ _) (data_reach 3084 (by decide))
    here := (data_window filled (Nat.le_add_right _ _) (data_reach 3084 (by decide))).trans
      (withData_ub_bindir poolLinks DATA)
    plain := by decide }
  ub_apart := (@data_own _ _ _ _ filled _ 12 (Nat.le_refl _) (data_reach 3084 (by decide))).apart
  argStrings := strings
  noEnv := fun _ => rfl
  envStrings := fun no => absurd rfl no
  plain := plain

end Ready

/-! ### The stack that `exec` builds -/

/-- `exec` gives the start-up code what it needs, and stores to nothing else, for even
numbers of strings below `MAXARG`. -/
theorem exec_stack_startup {s t : Ram} {root limit argv env ph_vaddr interp_start_addr : Nat} {node : Nodes}
    {image : Image} {elf : Elfhdr} {args envs : List (List UInt8)} {r : Args}
    (h : Prepared s root node image (max (MAXARG + 1) (args.length + 2)) (max (MAXARG + 1) (envs.length + 3))
      argv env (USER_STACK_TOP - INIT_STACK_SIZE) USER_STACK_TOP args envs)
    (run : buildStack limit image elf ph_vaddr interp_start_addr root argv env USER_STACK_TOP
      (USER_STACK_TOP - INIT_STACK_SIZE) s = .ok (some r, t)) :
    (Guarded s image args envs →
      Startup s t root image (auxv elf ph_vaddr interp_start_addr (randomAt USER_STACK_TOP))
        (USER_STACK_TOP - INIT_STACK_SIZE) USER_STACK_TOP args (UB_BINDIR :: envs) r →
      Matched s image args envs) ∧
    (Matched s image args envs →
      Startup s t root image (auxv elf ph_vaddr interp_start_addr (randomAt USER_STACK_TOP))
        (USER_STACK_TOP - INIT_STACK_SIZE) USER_STACK_TOP args (UB_BINDIR :: envs) r) :=
  startup_matched h (by decide) (by decide) (by decide) run

def readyElf : Elfhdr where
  magic := 0
  entry := 0
  phoff := 0
  phentsize := 56
  phnum := 1

/-- It builds the stack of one or two such arguments. -/
theorem ready_run {t : Ram} {node' : Nodes} {argv : Nat} {args : List (List UInt8)}
    (prepared : Prepared t ROOT node' readyImage (MAXARG + 1) (MAXARG + 1) argv 0
      (USER_STACK_TOP - INIT_STACK_SIZE) USER_STACK_TOP args [])
    (fits : StackFits 100 (USER_STACK_TOP - INIT_STACK_SIZE) USER_STACK_TOP 0 args []) :
    ∃ r u, buildStack 100 readyImage readyElf 0 0 ROOT argv 0 USER_STACK_TOP
      (USER_STACK_TOP - INIT_STACK_SIZE) t = .ok (some r, u) := by
  obtain ⟨u, run, -⟩ := (buildStack_outcome prepared (by decide) (by decide) (by decide)).succeeds fits
  exact ⟨_, u, run⟩

/-- The stack of a program with two arguments. -/
theorem exec_stack_two : ∃ s t node r,
    Prepared s ROOT node readyImage (MAXARG + 1) (MAXARG + 1) (DATA + 3328) 0
      (USER_STACK_TOP - INIT_STACK_SIZE) USER_STACK_TOP [[97], [97]] [] ∧
    buildStack 100 readyImage readyElf 0 0 ROOT (DATA + 3328) 0 USER_STACK_TOP
      (USER_STACK_TOP - INIT_STACK_SIZE) s = .ok (some r, t) ∧
    Startup s t ROOT readyImage (auxv readyElf 0 0 (randomAt USER_STACK_TOP))
      (USER_STACK_TOP - INIT_STACK_SIZE) USER_STACK_TOP [[97], [97]] [UB_BINDIR] r := by
  obtain ⟨s, node, free, frames, -, full, filled⟩ := ready_stack
  have prepared := ready_prepared full filled (ready_strings filled).2 (by simp [NotRedirection]) (by decide)
  obtain ⟨r, t, run⟩ := ready_run prepared (by simp only [StackFits, StringsFit, Fits]; decide)
  refine ⟨s, t, node, r, prepared, run, (exec_stack_startup prepared run).2 ?_⟩
  constructor
  · rfl
  · decide
  · rfl
  · decide
  · exact fun none => absurd none (List.cons_ne_nil _ _)

/-- With one argument, there is a gap in front of the environment. -/
theorem exec_stack_odd : ∃ s t node r,
    Prepared s ROOT node readyImage (MAXARG + 1) (MAXARG + 1) (DATA + 3336) 0
      (USER_STACK_TOP - INIT_STACK_SIZE) USER_STACK_TOP [[97]] [] ∧
    buildStack 100 readyImage readyElf 0 0 ROOT (DATA + 3336) 0 USER_STACK_TOP
      (USER_STACK_TOP - INIT_STACK_SIZE) s = .ok (some r, t) ∧
    ¬Startup s t ROOT readyImage (auxv readyElf 0 0 (randomAt USER_STACK_TOP))
      (USER_STACK_TOP - INIT_STACK_SIZE) USER_STACK_TOP [[97]] [UB_BINDIR] r := by
  obtain ⟨s, node, free, frames, -, full, filled⟩ := ready_stack
  have prepared := ready_prepared full filled (ready_strings filled).1 (by simp [NotRedirection]) (by decide)
  obtain ⟨r, t, run⟩ := ready_run prepared (by simp only [StackFits, StringsFit, Fits]; decide)
  refine ⟨s, t, node, r, prepared, run, fun startup => ?_⟩
  have guarded : Guarded s readyImage [[97]] [] :=
    ⟨fun many => absurd many (by decide), fun many => absurd many (by decide)⟩
  have matched := (startup_matched prepared (by decide) (by decide) (by decide) run).1 guarded startup
  exact absurd matched.argEven (by decide)

end AvxKernel.Exec
