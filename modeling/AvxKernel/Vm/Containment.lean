import AvxKernel.Vm.Copy
import AvxKernel.Vm.Refinement

/-! What the user copies touch. `walkaddr` lets a page through when any of its
two privilege bits is set, and passes addresses in the direct-map window as
they are; the copies below are contained in the user's own pages exactly when
neither happens on their way. -/
namespace AvxKernel.Vm

/-- The frame and flags under which a table maps an address below `MAXVA`. -/
def page (pagetable va : Nat) (s : Ram) : Option (Nat × Nat) :=
  if va < MAXVA then translation pagetable va s else none

/-- Valid, with privilege level 3. -/
def UserPage (s : Ram) (pagetable va : Nat) : Prop :=
  ∃ pa flags, page pagetable va s = some (pa, flags) ∧ flags &&& PTE_PLV3 = PTE_PLV3

/-- What `walkaddr` asks of a page: valid, with a privilege level other than 0. -/
def OpenPage (s : Ram) (pagetable va : Nat) : Prop :=
  ∃ pa flags, page pagetable va s = some (pa, flags) ∧ flags &&& PTE_PLV3 ≠ 0

/-- The kernel's address for a user byte. -/
def physical (s : Ram) (pagetable va : Nat) : Nat :=
  match page pagetable va s with
  | some (pa, _) => pa + va % PGSIZE
  | none => 0

/-- A copy that returns, that touches user bytes inside valid PLV3 pages only,
and that returns -1 when a byte it needs is in no such page. -/
def Contained (s : Ram) (pagetable : Nat) (needed : Nat → Prop)
    (result : Except Halt (Int × Ram)) : Prop :=
  ∃ r t new, result = .ok (r, t) ∧ t.touched = new ++ s.touched ∧
    (∀ x ∈ new, UserPage s pagetable x.1 ∧ x.2 = physical s pagetable x.1) ∧
    ((∃ va, needed va ∧ ¬UserPage s pagetable va) → r = -1)

/-- The first needed byte outside the valid PLV3 pages, if there is one, is not
in a page of privilege level 1 or 2. -/
def Tidy (s : Ram) (pagetable : Nat) (needed : Nat → Prop) : Prop :=
  ∀ va, needed va → (∀ v < va, needed v → UserPage s pagetable v) →
    OpenPage s pagetable va → UserPage s pagetable va

/-- What the loops do: they touch the needed bytes in order while the pages are open. -/
def Traced (s : Ram) (pagetable : Nat) (needed : Nat → Prop)
    (result : Except Halt (Int × Ram)) : Prop :=
  ∃ r t new, result = .ok (r, t) ∧ t.touched = new ++ s.touched ∧
    (∀ x ∈ new, needed x.1 ∧ (∀ v ≤ x.1, needed v → OpenPage s pagetable v) ∧
      x.2 = physical s pagetable x.1) ∧
    (∀ va, needed va → (∀ v ≤ va, needed v → OpenPage s pagetable v) → ∃ x ∈ new, x.1 = va) ∧
    ((∃ va, needed va ∧ ¬OpenPage s pagetable va) → r = -1)

variable {s t : Ram} {root : Nat} {node : Nodes} {needed : Nat → Prop}
  {result : Except Halt (Int × Ram)}

theorem UserPage.isOpen {va : Nat} (h : UserPage s root va) : OpenPage s root va := by
  obtain ⟨pa, flags, hp, hf⟩ := h
  exact ⟨pa, flags, hp, by rw [hf]; decide⟩

theorem contained_iff_tidy (traced : Traced s root needed result) :
    Contained s root needed result ↔ Tidy s root needed := by
  obtain ⟨r, t, new, hr, hnew, touched, reached, stopped⟩ := traced
  constructor
  · rintro ⟨r', t', new', hr', hnew', inside, _⟩ va need before isOpen
    rw [hr] at hr'
    cases hr'
    obtain rfl : new = new' := List.append_cancel_right (hnew.symm.trans hnew')
    obtain ⟨x, hx, rfl⟩ := reached va need fun v hv hn => by
      rcases Nat.lt_or_eq_of_le hv with lt | rfl
      · exact (before v lt hn).isOpen
      · exact isOpen
    exact (inside x hx).1
  · intro tidy
    have user : ∀ va, (∀ v ≤ va, needed v → OpenPage s root v) → needed va →
        UserPage s root va := by
      intro va
      induction va using Nat.strong_induction_on with
      | _ va ih =>
        intro isOpen need
        exact tidy va need (fun v hv hn => ih v hv (fun w hw => isOpen w (by omega)) hn)
          (isOpen va (Nat.le_refl va) need)
    refine ⟨r, t, new, hr, hnew, fun x hx => ?_, fun outside => stopped ?_⟩
    · obtain ⟨need, isOpen, phys⟩ := touched x hx
      exact ⟨user x.1 isOpen need, phys⟩
    · by_contra none
      obtain ⟨va, need, hno⟩ := outside
      refine hno (user va (fun v _ hn => ?_) need)
      by_contra shut
      exact none ⟨v, hn, shut⟩

/-! ### `walkaddr` -/

theorem flags_PLV3 (entry : Nat) : PTE_FLAGS entry &&& PTE_PLV3 = entry &&& PTE_PLV3 := by
  rw [PTE_FLAGS, Nat.and_assoc, show 0xE0000000000001FF &&& PTE_PLV3 = PTE_PLV3 by decide]

theorem walkaddr_page (tree : Tree s.mem root node) {va : Nat} (window : va &&& DMWIN_MASK = 0) :
    ∃ pa, walkaddr root va s = .ok (pa, s) ∧ (pa ≠ 0 ↔ OpenPage s root va) ∧
      (OpenPage s root va → va < MAXVA ∧ ∃ flags, page root va s = some (pa, flags)) := by
  rw [walkaddr, if_neg (by simp [window])]
  by_cases low : va < MAXVA
  · have hpage : page root va s = translation root va s := if_pos low
    have found := walk_find tree low
    simp only [translation, found] at hpage
    rw [if_neg (by omega)]
    cases hb : node 0 (above 0 va) with
    | none =>
      have shut : ¬OpenPage s root va := by
        rintro ⟨pa, flags, hp, _⟩
        simp [hpage, hb, decode] at hp
      rw [hb, Option.elim_none] at found
      rw [Machine.bind_of_ok found, if_pos rfl]
      exact ⟨0, rfl, by simp [shut], fun h => absurd h shut⟩
    | some b =>
      have pos := (tree.frame hb).pos
      simp only [hb, Option.elim_some] at hpage found
      rw [Machine.bind_of_ok found, if_neg (by omega), Machine.bind_of_ok (load_run _ s)]
      by_cases valid : s.mem.fetch (b + 8 * PX 0 va) 8 &&& PTE_V = 0
      · rw [decode, if_pos (.inr valid)] at hpage
        have shut : ¬OpenPage s root va := by
          rintro ⟨pa, flags, hp, _⟩
          simp [hpage] at hp
        rw [if_pos valid]
        exact ⟨0, rfl, by simp [shut], fun h => absurd h shut⟩
      · rw [decode, if_neg (by omega)] at hpage
        rw [if_neg valid]
        by_cases level : s.mem.fetch (b + 8 * PX 0 va) 8 &&& PTE_PLV3 = 0
        · have shut : ¬OpenPage s root va := by
            rintro ⟨pa, flags, hp, hf⟩
            rw [hpage, Option.some.injEq, Prod.mk.injEq] at hp
            rw [← hp.2, flags_PLV3] at hf
            exact hf level
          rw [if_pos level]
          exact ⟨0, rfl, by simp [shut], fun h => absurd h shut⟩
        · have pos' := (PTE2PA_frame (s.mem.fetch (b + 8 * PX 0 va) 8)).pos
          rw [if_neg level]
          refine ⟨_, rfl, ?_, fun _ => ⟨low, _, hpage⟩⟩
          constructor
          · exact fun _ => ⟨_, _, hpage, by rwa [flags_PLV3]⟩
          · intro _
            omega
  · have shut : ¬OpenPage s root va := by
      rintro ⟨pa, flags, hp, _⟩
      rw [page, if_neg low] at hp
      cases hp
    rw [if_pos (by omega)]
    exact ⟨0, rfl, by simp [shut], fun h => absurd h shut⟩

/-! ### Pages -/

theorem page_same_page (tree : Tree s.mem root node) {v w : Nat} (h : v / PGSIZE = w / PGSIZE) :
    page root v s = page root w s := by
  have hv := page_of_index v
  have hw := page_of_index w
  have hpv := PX_lt 0 v
  have hpw := PX_lt 0 w
  have same : above 0 v = above 0 w ∧ PX 0 v = PX 0 w := by omega
  have bound : v < MAXVA ↔ w < MAXVA := by
    rw [MAXVA_eq]
    rw [PGSIZE] at h
    omega
  rw [page, page]
  by_cases low : v < MAXVA
  · rw [if_pos low, if_pos (bound.mp low)]
    simp only [translation, walk_find tree low, walk_find tree (bound.mp low), same.1, same.2]
  · rw [if_neg low, if_neg (fun h => low (bound.mpr h))]

/-- Two states with the same table pages. -/
def SameTable (node : Nodes) (s t : Ram) : Prop :=
  ∀ p, node.Has p → ∀ i < PGSIZE, t.mem (p + i) = s.mem (p + i)

theorem Tree.same (tree : Tree s.mem root node) (same : SameTable node s t) :
    Tree t.mem root node :=
  tree.congr fun ha => same _ ⟨_, _, ha⟩

theorem page_same_table (tree : Tree s.mem root node) (same : SameTable node s t) (va : Nat) :
    page root va t = page root va s := by
  rw [page, page]
  by_cases low : va < MAXVA
  · rw [if_pos low, if_pos low]
    simp only [translation, walk_find tree low, walk_find (tree.same same) low]
    cases hb : node 0 (above 0 va) with
    | none => simp [decode]
    | some b =>
      have hpx := PX_lt 0 va
      have keep : t.mem.fetch (b + 8 * PX 0 va) 8 = s.mem.fetch (b + 8 * PX 0 va) 8 := by
        apply Memory.fetch_congr
        intro j hj
        rw [Nat.add_assoc]
        exact same b ⟨_, _, hb⟩ _ (by rw [PGSIZE]; omega)
      simp only [Option.elim_some]
      rw [keep]
  · rw [if_neg low, if_neg low]

theorem openPage_congr {va : Nat} (h : page root va t = page root va s) :
    OpenPage t root va ↔ OpenPage s root va := by
  rw [OpenPage, OpenPage, h]

theorem openPage_congr_page {v w : Nat} (h : page root v s = page root w s) :
    OpenPage s root v ↔ OpenPage s root w := by
  rw [OpenPage, OpenPage, h]

theorem frame_byte {pa off : Nat} (h : Frame pa) (small : off < PGSIZE) :
    pa + off ||| DMWIN_MASK = pa + off ∧ mapped (pa + off) = true := by
  obtain ⟨k, hk, rfl⟩ := h.eq_add
  have hx : PGSIZE * k + off < 2 ^ 48 := by
    rw [PGSIZE] at small ⊢
    omega
  rw [Nat.add_assoc]
  constructor
  · rw [← DMWIN_MASK_or hx, Nat.or_comm, ← Nat.or_assoc, Nat.or_self]
  · have top : (DMWIN_MASK + (PGSIZE * k + off)) >>> 60 = 9 := by
      rw [Nat.shiftRight_eq_div_pow, DMWIN_MASK]
      omega
    rw [mapped, top]
    rfl

theorem mapped_lt {a : Nat} (h : mapped a = true) : a < 2 ^ 64 := by
  simp only [mapped, Bool.or_eq_true, beq_iff_eq, Bool.and_eq_true, decide_eq_true_eq,
    List.any_eq_true, Nat.shiftRight_eq_div_pow] at h
  have hmax := MAXVA_eq
  rcases h with (((h | h) | h) | h) | ⟨p, _, h⟩
  · omega
  · omega
  · exact lt_trans h.2 (by decide)
  · exact lt_trans h.2 (by decide)
  · refine lt_trans h.2 ?_
    have : PROCVKSTACK p ≤ VKSTACK + EXTRASIZE := by
      rw [PROCVKSTACK]
      omega
    exact lt_of_le_of_lt (Nat.add_le_add_right this _) (by decide)

/-- A kernel buffer: mapped, and no part of the table. -/
structure Buffer (node : Nodes) (a n : Nat) : Prop where
  mapped : ∀ i < n, mapped (a + i) = true
  apart : ∀ i < n, ∀ p, node.Has p → a + i < p ∨ p + PGSIZE ≤ a + i

theorem Buffer.take {a n k : Nat} (h : Buffer node a n) (le : k ≤ n) : Buffer node a k where
  mapped := fun i hi => h.mapped i (by omega)
  apart := fun i hi => h.apart i (by omega)

theorem Buffer.drop {a n k : Nat} (h : Buffer node a n) (le : k ≤ n) :
    Buffer node (u64 (a + k)) (n - k) := by
  by_cases more : k < n
  · have small : u64 (a + k) = a + k := Nat.mod_eq_of_lt (mapped_lt (h.mapped k more))
    rw [small]
    constructor
    · intro i hi
      rw [Nat.add_assoc]
      exact h.mapped (k + i) (by omega)
    · intro i hi
      rw [Nat.add_assoc]
      exact h.apart (k + i) (by omega)
  · exact ⟨fun i hi => by omega, fun i hi => by omega⟩

/-! ### The shared loop -/

/-- A call of `memmove` that works between a kernel buffer and a piece of a user
frame, and leaves the table alone. -/
def Moves (node : Nodes) (move : Nat → Nat → Nat → Machine Ram Unit) : Prop :=
  ∀ kernel a n pa s, Buffer node kernel n → Frame pa → ¬node.Has pa → pa ≤ a → a + n ≤ pa + PGSIZE →
    ∃ t, move kernel a n s = .ok ((), t) ∧ t.touched = s.touched ∧ SameTable node s t

/-- No frame that the table maps is one of its own pages. -/
def Separate (s : Ram) (root : Nat) (node : Nodes) : Prop :=
  ∀ va pa flags, page root va s = some (pa, flags) → ¬node.Has pa

def span (va len : Nat) (v : Nat) : Prop := va ≤ v ∧ v < va + len

@[simp] theorem touch_run (va a n : Nat) (s : Ram) :
    touch va a n s =
      .ok ((), { s with touched := (List.range n).map (fun i => (va + i, a + i)) ++ s.touched }) :=
  rfl

theorem page_frame {va pa flags : Nat} (h : page root va s = some (pa, flags)) : Frame pa := by
  rw [page] at h
  split at h
  · rw [translation] at h
    split at h
    · rw [decode] at h
      split at h
      · cases h
      · cases h
        exact PTE2PA_frame _
    · cases h
  · cases h

theorem window_of_le {va : Nat} (h : va ≤ MAXVA) : va &&& DMWIN_MASK = 0 := by
  rcases Nat.lt_or_eq_of_le h with lt | rfl
  · exact window_of_lt lt
  · decide

/-- What one page adds to a trace: its own bytes, before those of the rest. -/
theorem Traced.cons (chunk : Nat → Prop) {rest : Nat → Prop} {first : List (Nat × Nat)} {u : Ram}
    (opens : ∀ v, chunk v → OpenPage s root v)
    (first_mem : ∀ x ∈ first, chunk x.1 ∧ x.2 = physical s root x.1)
    (first_all : ∀ v, chunk v → ∃ x ∈ first, x.1 = v)
    (cover : ∀ v, needed v ↔ chunk v ∨ rest v) (later : ∀ v w, chunk v → rest w → v < w)
    (pages : ∀ v, page root v u = page root v s) (log : u.touched = first ++ s.touched)
    (traced : Traced u root rest result) : Traced s root needed result := by
  obtain ⟨r, t, new, hr, hnew, touched, reached, stopped⟩ := traced
  have same : ∀ v, OpenPage u root v ↔ OpenPage s root v := fun v => openPage_congr (pages v)
  have phys : ∀ v, physical u root v = physical s root v := fun v => by
    rw [physical, physical, pages]
  refine ⟨r, t, new ++ first, hr, by rw [hnew, log, List.append_assoc], ?_, ?_, ?_⟩
  · intro x hx
    rw [List.mem_append] at hx
    rcases hx with hx | hx
    · obtain ⟨need, before, hp⟩ := touched x hx
      refine ⟨(cover _).mpr (.inr need), fun v hv hn => ?_, by rw [hp, phys]⟩
      rcases (cover v).mp hn with here | there
      · exact opens v here
      · exact (same v).mp (before v hv there)
    · obtain ⟨here, hp⟩ := first_mem x hx
      refine ⟨(cover _).mpr (.inl here), fun v hv hn => ?_, hp⟩
      rcases (cover v).mp hn with here' | there
      · exact opens v here'
      · have := later x.1 v here there
        omega
  · intro v need before
    rcases (cover v).mp need with here | there
    · obtain ⟨x, hx, hxv⟩ := first_all v here
      exact ⟨x, List.mem_append_right _ hx, hxv⟩
    · obtain ⟨x, hx, hxv⟩ := reached v there fun w hw hn =>
        (same w).mpr (before w hw ((cover w).mpr (.inr hn)))
      exact ⟨x, List.mem_append_left _ hx, hxv⟩
  · rintro ⟨v, need, shut⟩
    refine stopped ⟨v, ?_, fun h => shut ((same v).mp h)⟩
    rcases (cover v).mp need with here | there
    · exact absurd (opens v here) shut
    · exact there

/-- The bytes of a chunk within one page: open with it, at the frame's offsets. -/
theorem chunk_page (tree : Tree s.mem root node) {va n v pa flags : Nat}
    (hpage : page root (PGROUNDDOWN va) s = some (pa, flags)) (within : n ≤ PGSIZE - va % PGSIZE)
    (hv : span va n v) :
    page root v s = some (pa, flags) ∧ pa + va % PGSIZE + (v - va) = physical s root v := by
  simp only [span] at hv
  have same : page root v s = page root (PGROUNDDOWN va) s := by
    apply page_same_page tree
    rw [PGROUNDDOWN, Nat.mul_div_cancel _ (by decide)]
    rw [PGSIZE] at *
    omega
  refine ⟨same.trans hpage, ?_⟩
  rw [physical, same, hpage]
  simp only
  rw [PGSIZE] at *
  omega

theorem copyPages_traced {move : Nat → Nat → Nat → Machine Ram Unit} (moves : Moves node move)
    (tree : Tree s.mem root node) (separate : Separate s root node) {kernel va len : Nat}
    (window : va &&& DMWIN_MASK = 0) (buffer : Buffer node kernel len) :
    Traced s root (span va len) (copyPages root move kernel va len s) := by
  induction len using Nat.strong_induction_on generalizing s kernel va with
  | _ len ih =>
    rw [copyPages]
    by_cases done : len = 0
    · rw [if_pos done]
      exact ⟨0, s, [], rfl, rfl, by simp, fun v h => by simp only [span] at h; omega,
        fun ⟨v, h, _⟩ => by simp only [span] at h; omega⟩
    · rw [if_neg done]
      have round : PGROUNDDOWN va ≤ va := Nat.div_mul_le_self _ _
      have offset : va - PGROUNDDOWN va = va % PGSIZE := by
        have := Nat.mod_add_div' va PGSIZE
        rw [PGROUNDDOWN]
        omega
      have base : PGROUNDDOWN va / PGSIZE = va / PGSIZE := Nat.mul_div_cancel _ (by decide)
      have same₀ := page_same_page tree base
      obtain ⟨pa, hwalk, open_iff, opened⟩ :=
        walkaddr_page tree ((window_PGROUNDDOWN va).trans window)
      rw [Machine.bind_of_ok hwalk]
      by_cases shut : pa = 0
      · have shut' : ¬OpenPage s root va := by
          rw [← openPage_congr_page same₀, ← open_iff]
          simpa using shut
        rw [if_pos shut]
        have here : span va len va := ⟨Nat.le_refl va, by omega⟩
        refine ⟨-1, s, [], rfl, rfl, by simp, fun v need before => ?_, fun _ => rfl⟩
        exact absurd (before va need.1 here) shut'
      · obtain ⟨low, flags, hpage⟩ := opened (open_iff.mp shut)
        have frame := page_frame hpage
        have small : va % PGSIZE < PGSIZE := Nat.mod_lt _ (by decide)
        have byte := (frame_byte frame small).1
        have chunk := chunk_pos va
        have low' : PGROUNDDOWN va < 2 ^ 46 := low
        have top : PGROUNDDOWN va + PGSIZE ≤ 2 ^ 46 := by
          rw [PGROUNDDOWN, PGSIZE] at low' ⊢
          omega
        have next : u64 (PGROUNDDOWN va + PGSIZE) = PGROUNDDOWN va + PGSIZE :=
          Nat.mod_eq_of_lt (by omega)
        rw [if_neg shut, Machine.bind_of_ok (touch_run _ _ _ _)]
        simp only [offset, byte, next] at chunk ⊢
        generalize hn : min (PGSIZE - va % PGSIZE) len = n
        have hn' : n ≤ PGSIZE - va % PGSIZE ∧ n ≤ len ∧ 0 < n ∧ (n < len → n = PGSIZE - va % PGSIZE) := by
          omega
        obtain ⟨inside, short, pos, full⟩ := hn'
        obtain ⟨t, hmove, hlog, htable⟩ := moves kernel (pa + va % PGSIZE) n pa _ (buffer.take short)
          frame (separate _ _ _ hpage) (by omega) (by omega)
        rw [Machine.bind_of_ok hmove]
        have htable' : SameTable node s t := htable
        have pages : ∀ v, page root v t = page root v s := page_same_table tree htable'
        have window' : PGROUNDDOWN va + PGSIZE &&& DMWIN_MASK = 0 := window_of_le top
        have later := ih (len - n) (by omega) (tree.same htable')
          (fun v pa flags hp => separate v pa flags (by rwa [← pages])) window' (buffer.drop short)
        have isOpen : flags &&& PTE_PLV3 ≠ 0 := by
          obtain ⟨pa', flags', hp, hf⟩ := open_iff.mp shut
          rw [hpage] at hp
          cases hp
          exact hf
        refine Traced.cons (span va n) (fun v hv => ?_) ?_ (fun v hv => ?_) ?_ ?_ pages hlog later
        · exact ⟨pa, flags, (chunk_page tree hpage inside hv).1, isOpen⟩
        · intro x hx
          obtain ⟨i, hi, rfl⟩ := List.mem_map.mp hx
          rw [List.mem_range] at hi
          have here : span va n (va + i) := ⟨by omega, by omega⟩
          have := (chunk_page tree hpage inside here).2
          rw [Nat.add_sub_cancel_left] at this
          exact ⟨here, this⟩
        · refine ⟨(v, pa + va % PGSIZE + (v - va)), List.mem_map.mpr ⟨v - va, ?_, ?_⟩, rfl⟩
          · rw [List.mem_range]
            have := hv.1
            have := hv.2
            omega
          · have := hv.1
            simp only [Prod.mk.injEq, and_true]
            omega
        · intro v
          simp only [span]
          rw [PGROUNDDOWN, PGSIZE] at *
          omega
        · intro v w hv hw
          simp only [span] at hv hw
          rw [PGROUNDDOWN, PGSIZE] at *
          omega

/-! ### `copyin` and `copyout` -/

theorem memmove_run {dst src n : Nat} (s : Ram) (small : n ≤ PGSIZE)
    (hsrc : ∀ i < n, mapped (src + i) = true) (hdst : ∀ i < n, mapped (dst + i) = true) :
    memmove dst src n s = .ok ((), s.setMem (s.mem.copy dst src n)) := by
  have count : u32 n = n := Nat.mod_eq_of_lt (lt_of_le_of_lt small (by decide))
  rw [memmove, Machine.bind_of_ok (Machine.get_run s), count, if_pos]
  · rfl
  · simp only [List.all_eq_true, List.mem_range, Bool.and_eq_true]
    exact fun i hi => ⟨hsrc i hi, hdst i hi⟩

theorem frame_bytes {pa a n : Nat} (frame : Frame pa) (above : pa ≤ a) (below : a + n ≤ pa + PGSIZE) :
    ∀ i < n, mapped (a + i) = true := by
  intro i hi
  have := (frame_byte frame (show a - pa + i < PGSIZE by omega)).2
  rwa [← Nat.add_assoc, Nat.add_sub_cancel' above] at this

theorem moves_in : Moves node fun dst src n => memmove dst src n := by
  intro dst src n pa s buffer frame _ above below
  refine ⟨_, memmove_run s (by omega) (frame_bytes frame above below) buffer.mapped, rfl, ?_⟩
  intro p hp i hi
  apply Memory.copy_outside
  by_contra inside
  have := buffer.apart (p + i - dst) (by omega) p hp
  omega

theorem moves_out (frames : ∀ p, node.Has p → Frame p) :
    Moves node fun src dst n => memmove dst src n := by
  intro src dst n pa s buffer frame apart above below
  refine ⟨_, memmove_run s (by omega) buffer.mapped (frame_bytes frame above below), rfl, ?_⟩
  intro p hp i hi
  have ne : p ≠ pa := by
    rintro rfl
    exact apart hp
  have := (frames p hp).disjoint frame ne (i := p + i) ⟨by omega, by omega⟩
  exact s.mem.copy_outside (by omega)

theorem not_contained_of_error {h : Halt} : ¬Contained s root needed (.error h) := by
  rintro ⟨r, t, new, hr, _⟩
  cases hr

variable (tree : Tree s.mem root node) (separate : Separate s root node)
include tree separate

theorem copyin_contained {dst srcva len : Nat} (buffer : Buffer node dst len) :
    Contained s root (span srcva len) (copyin root dst srcva len s) ↔
      ¬(MAXVA < srcva ∧ srcva &&& DMWIN_MASK ≠ 0) ∧ Tidy s root (span srcva len) := by
  rw [copyin]
  by_cases window : MAXVA < srcva ∧ srcva &&& DMWIN_MASK ≠ 0
  · rw [if_pos window]
    exact ⟨fun h => absurd h not_contained_of_error, fun h => absurd window h.1⟩
  · have clear : srcva &&& DMWIN_MASK = 0 := by
      by_cases high : MAXVA < srcva
      · by_contra set
        exact window ⟨high, set⟩
      · exact window_of_le (by omega)
    rw [if_neg window, contained_iff_tidy (copyPages_traced moves_in tree separate clear buffer)]
    exact ⟨fun h => ⟨window, h⟩, fun h => h.2⟩

theorem copyout_contained {dstva src len : Nat} (buffer : Buffer node src len) :
    Contained s root (span dstva len) (copyout root dstva src len s) ↔
      dstva ≤ MAXVA ∧ PROCVKSTACK (NPROC - 1) ≤ src ∧ Tidy s root (span dstva len) := by
  rw [copyout]
  by_cases high : MAXVA < dstva
  · rw [if_pos high]
    exact ⟨fun h => absurd h not_contained_of_error, fun h => by omega⟩
  · rw [if_neg high]
    by_cases below : src < PROCVKSTACK (NPROC - 1)
    · rw [if_pos below]
      exact ⟨fun h => absurd h not_contained_of_error, fun h => by omega⟩
    · have frames : ∀ p, node.Has p → Frame p := fun p ⟨_, _, hp⟩ => tree.frame hp
      rw [if_neg below, contained_iff_tidy (copyPages_traced (moves_out frames) tree separate
        (window_of_le (by omega)) buffer)]
      exact ⟨fun h => ⟨by omega, by omega, h⟩, fun h => h.2.2⟩

omit separate in
/-- `copyout_zero` is right only where it does nothing: its copy from address 0 faults. -/
theorem copyout_zero_contained {dstva len : Nat} :
    Contained s root (span dstva len) (copyout_zero root dstva len s) ↔
      len = 0 ∨ dstva &&& DMWIN_MASK = 0 ∧ ¬OpenPage s root dstva := by
  rw [copyout_zero, copyPages]
  by_cases done : len = 0
  · rw [if_pos done]
    refine ⟨fun _ => .inl done, fun _ => ⟨0, s, [], rfl, rfl, by simp, ?_⟩⟩
    rintro ⟨v, hv, _⟩
    simp only [span] at hv
    omega
  · have chunk := chunk_pos dstva
    have base : PGROUNDDOWN dstva / PGSIZE = dstva / PGSIZE := Nat.mul_div_cancel _ (by decide)
    have same := openPage_congr_page (page_same_page tree base)
    have fault : ∀ (dst : Nat) (u : Ram),
        memmove dst 0 (min (PGSIZE - (dstva - PGROUNDDOWN dstva)) len) u = .error .fault := by
      intro dst u
      have count : u32 (min (PGSIZE - (dstva - PGROUNDDOWN dstva)) len) ≠ 0 := by
        rw [u32, PGSIZE]
        rw [PGSIZE] at chunk
        omega
      rw [memmove, Machine.bind_of_ok (Machine.get_run u), if_neg]
      · rfl
      · simp only [List.all_eq_true, List.mem_range, Bool.and_eq_true, not_forall]
        refine ⟨0, by omega, fun h => ?_⟩
        exact absurd h.1 (by decide)
    rw [if_neg done]
    by_cases window : dstva &&& DMWIN_MASK = 0
    · obtain ⟨pa, hwalk, open_iff, _⟩ :=
        walkaddr_page tree ((window_PGROUNDDOWN dstva).trans window)
      rw [Machine.bind_of_ok hwalk]
      by_cases shut : pa = 0
      · have shut' : ¬OpenPage s root dstva := by
          rw [← same, ← open_iff]
          simpa using shut
        rw [if_pos shut]
        exact ⟨fun _ => .inr ⟨window, shut'⟩,
          fun _ => ⟨-1, s, [], rfl, rfl, by simp, fun _ => rfl⟩⟩
      · rw [if_neg shut, Machine.bind_of_ok (touch_run _ _ _ _),
          Machine.bind_of_error (fault _ _)]
        refine ⟨fun h => absurd h not_contained_of_error, fun h => ?_⟩
        rcases h with h | h
        · exact absurd h done
        · exact absurd (same.mp (open_iff.mp shut)) h.2
    · have window' : PGROUNDDOWN dstva &&& DMWIN_MASK ≠ 0 := by
        rwa [window_PGROUNDDOWN]
      have ne : PGROUNDDOWN dstva ≠ 0 := by
        intro zero
        rw [zero, Nat.zero_and] at window'
        exact window' rfl
      have hwalk : walkaddr root (PGROUNDDOWN dstva) s = .ok (PGROUNDDOWN dstva, s) := by
        rw [walkaddr, if_pos window']
        rfl
      rw [Machine.bind_of_ok hwalk, if_neg ne, Machine.bind_of_ok (touch_run _ _ _ _),
        Machine.bind_of_error (fault _ _)]
      refine ⟨fun h => absurd h not_contained_of_error, fun h => ?_⟩
      rcases h with h | h
      · exact absurd h done
      · exact absurd h.1 window

/-! ### `copyinstr` -/

omit tree separate

/-- The byte a user address holds. -/
def userByte (s : Ram) (pagetable va : Nat) : Option UInt8 :=
  (page pagetable va s).map fun (pa, _) => s.mem (pa + va % PGSIZE)

/-- The addresses a string copy needs: those before `max` up to the first NUL. -/
def string (s : Ram) (pagetable va max v : Nat) : Prop :=
  span va max v ∧ ∀ w, va ≤ w → w < v → userByte s pagetable w ≠ some 0

/-- Two states with the same table and the same bytes in every frame it maps. -/
structure Keeps (root : Nat) (node : Nodes) (s t : Ram) : Prop where
  table : SameTable node s t
  data : ∀ {va pa flags}, page root va s = some (pa, flags) → ∀ off < PGSIZE,
    t.mem (pa + off) = s.mem (pa + off)

/-- A kernel buffer that is no part of any user frame either. -/
structure Private (s : Ram) (root : Nat) (node : Nodes) (a n : Nat) : Prop
    extends Buffer node a n where
  hidden : ∀ i < n, ∀ va pa flags, page root va s = some (pa, flags) →
    a + i < pa ∨ pa + PGSIZE ≤ a + i

theorem Keeps.page (h : Keeps root node s t) (tree : Tree s.mem root node) (va : Nat) :
    page root va t = page root va s := page_same_table tree h.table va

theorem Keeps.userByte (h : Keeps root node s t) (tree : Tree s.mem root node) (va : Nat) :
    userByte t root va = userByte s root va := by
  rw [Vm.userByte, Vm.userByte, h.page tree]
  cases hp : Vm.page root va s with
  | none => rfl
  | some q => exact congrArg some (h.data hp _ (Nat.mod_lt _ (by decide)))

theorem Keeps.trans {u : Ram} (tree : Tree s.mem root node) (h : Keeps root node s t)
    (h' : Keeps root node t u) : Keeps root node s u where
  table := fun p hp i hi => (h'.table p hp i hi).trans (h.table p hp i hi)
  data := fun hp off hoff => (h'.data ((h.page tree _).trans hp) off hoff).trans (h.data hp off hoff)

theorem Private.keeps (tree : Tree s.mem root node) {a n : Nat} (h : Private s root node a n)
    (k : Keeps root node s t) : Private t root node a n where
  toBuffer := h.toBuffer
  hidden := fun i hi va pa flags hp => h.hidden i hi va pa flags (by rwa [← k.page tree])

theorem Private.take {a n k : Nat} (h : Private s root node a n) (le : k ≤ n) :
    Private s root node a k where
  toBuffer := h.toBuffer.take le
  hidden := fun i hi => h.hidden i (by omega)

theorem Private.skip {a n k : Nat} (h : Private s root node a n) (le : k ≤ n) :
    Private s root node (a + k) (n - k) where
  mapped := fun i hi => by
    rw [Nat.add_assoc]
    exact h.mapped (k + i) (by omega)
  apart := fun i hi => by
    rw [Nat.add_assoc]
    exact h.apart (k + i) (by omega)
  hidden := fun i hi => by
    rw [Nat.add_assoc]
    exact h.hidden (k + i) (by omega)

theorem storeByte_keeps {a n : Nat} (h : Private s root node a (n + 1)) (b : UInt8) :
    ∃ t, storeByte a b s = .ok ((), t) ∧ t.touched = s.touched ∧ Keeps root node s t := by
  have here : mapped a = true := h.mapped 0 (by omega)
  refine ⟨s.setMem (s.mem.fill a 1 b), ?_, rfl, ⟨fun p hp i hi => ?_, fun hp off hoff => ?_⟩⟩
  · rw [storeByte, Machine.bind_of_ok (Machine.get_run s), if_pos here]
    rfl
  · have := h.apart 0 (by omega) p hp
    exact s.mem.fill_outside (by omega)
  · have := h.hidden 0 (by omega) _ _ _ hp
    exact s.mem.fill_outside (by omega)

theorem loadByte_run {a : Nat} (h : mapped a = true) (s : Ram) : loadByte a s = .ok (s.mem a, s) := by
  rw [loadByte, Machine.bind_of_ok (Machine.get_run s), if_pos h]
  rfl

/-- The inner loop, over bytes of one frame at `p`: it touches them up to the
first NUL and says whether there is one. -/
theorem copyinstrBytes_run (tree : Tree s.mem root node) {va v pa flags i p dst n : Nat}
    (hpage : page root v s = some (pa, flags)) (above : pa ≤ p) (below : p + n ≤ pa + PGSIZE)
    (buffer : Private s root node dst n) :
    ∃ got t first, copyinstrBytes va i p dst n s = .ok (got, t) ∧
      t.touched = first ++ s.touched ∧ Keeps root node s t ∧
      (∀ x, x ∈ first ↔ ∃ j < n, x = (va + (i + j), p + j) ∧ ∀ l < j, s.mem (p + l) ≠ 0) ∧
      (got = true ↔ ∃ j < n, s.mem (p + j) = 0) := by
  induction n generalizing s i p dst with
  | zero =>
    exact ⟨false, s, [], rfl, rfl, ⟨fun _ _ _ _ => rfl, fun _ _ _ => rfl⟩, by simp, by simp⟩
  | succ n ih =>
    have frame := page_frame hpage
    have here : mapped p = true := frame_bytes frame above below 0 (by omega)
    let s₁ : Ram := { s with touched := (va + i, p) :: s.touched }
    have k₁ : Keeps root node s s₁ := ⟨fun _ _ _ _ => rfl, fun _ _ _ => rfl⟩
    have touch₁ : touch (va + i) p 1 s = .ok ((), s₁) := rfl
    rw [copyinstrBytes, Machine.bind_of_ok touch₁, Machine.bind_of_ok (loadByte_run here _)]
    have tree₁ := tree.same k₁.table
    have byte : s₁.mem p = s.mem p := rfl
    rw [byte]
    obtain ⟨t₁, hstore, hlog, k₂⟩ := storeByte_keeps (buffer.keeps tree k₁) (s.mem p)
    by_cases nul : s.mem p = 0
    · rw [nul] at hstore
      rw [if_pos nul, Machine.bind_of_ok hstore]
      refine ⟨true, t₁, [(va + i, p)], rfl, hlog, k₁.trans tree k₂, fun x => ?_, ?_⟩
      · rw [List.mem_singleton]
        constructor
        · rintro rfl
          exact ⟨0, by omega, rfl, fun l hl => by omega⟩
        · rintro ⟨j, _, rfl, before⟩
          rcases Nat.eq_zero_or_pos j with rfl | pos
          · rfl
          · exact absurd nul (before 0 pos)
      · exact ⟨fun _ => ⟨0, by omega, nul⟩, fun _ => rfl⟩
    · have k := k₁.trans tree k₂
      have buffer₁ : Private t₁ root node (dst + 1) n := (buffer.skip (k := 1) (by omega)).keeps tree k
      obtain ⟨got, t, first, hrun, hfirst, k₃, touched, found⟩ := ih (i := i + 1) (p := p + 1)
        (tree.same k.table) ((k.page tree v).trans hpage) (by omega) (by omega) buffer₁
      have bytes : ∀ j < n, t₁.mem (p + 1 + j) = s.mem (p + (j + 1)) := by
        intro j hj
        have := k.data hpage (p + (j + 1) - pa) (by omega)
        rw [Nat.add_sub_cancel' (by omega)] at this
        rwa [Nat.add_assoc, Nat.add_comm 1 j]
      rw [if_neg nul, Machine.bind_of_ok hstore]
      refine ⟨got, t, first ++ [(va + i, p)], hrun, by rw [hfirst, hlog]; simp [s₁],
        k.trans tree k₃, fun x => ?_, found.trans ?_⟩
      · rw [List.mem_append, List.mem_singleton, touched]
        constructor
        · rintro (⟨j, hj, rfl, before⟩ | rfl)
          · refine ⟨j + 1, by omega, by simp only [Prod.mk.injEq]; omega, fun l hl => ?_⟩
            rcases Nat.eq_zero_or_pos l with rfl | pos
            · exact nul
            · obtain ⟨l, rfl⟩ : ∃ l', l = l' + 1 := ⟨l - 1, by omega⟩
              rw [← bytes l (by omega)]
              exact before l (by omega)
          · exact ⟨0, by omega, rfl, fun l hl => by omega⟩
        · rintro ⟨j, hj, rfl, before⟩
          rcases Nat.eq_zero_or_pos j with rfl | pos
          · exact .inr rfl
          · obtain ⟨j, rfl⟩ : ∃ j', j = j' + 1 := ⟨j - 1, by omega⟩
            refine .inl ⟨j, by omega, by simp only [Prod.mk.injEq]; omega, fun l hl => ?_⟩
            rw [bytes l (by omega)]
            exact before (l + 1) (by omega)
      · constructor
        · rintro ⟨j, hj, zero⟩
          exact ⟨j + 1, by omega, by rw [← bytes j hj]; exact zero⟩
        · rintro ⟨j, hj, zero⟩
          rcases Nat.eq_zero_or_pos j with rfl | pos
          · exact absurd zero nul
          · obtain ⟨j, rfl⟩ : ∃ j', j = j' + 1 := ⟨j - 1, by omega⟩
            exact ⟨j, by omega, by rw [bytes j (by omega)]; exact zero⟩

theorem string_tail {va n max : Nat} (clean : ∀ w, span va n w → userByte s root w ≠ some 0)
    (short : n ≤ max) (v : Nat) :
    string s root va max v ↔ span va n v ∨ string s root (va + n) (max - n) v := by
  constructor
  · rintro ⟨hv, before⟩
    simp only [span] at hv
    by_cases here : v < va + n
    · exact .inl ⟨hv.1, here⟩
    · exact .inr ⟨⟨by omega, by omega⟩, fun w hw => before w (by omega)⟩
  · rintro (hv | ⟨hv, before⟩)
    · refine ⟨⟨hv.1, by have := hv.2; omega⟩, fun w hw hwv => clean w ⟨hw, by have := hv.2; omega⟩⟩
    · simp only [span] at hv
      refine ⟨⟨by omega, by omega⟩, fun w hw hwv => ?_⟩
      by_cases here : w < va + n
      · exact clean w ⟨hw, here⟩
      · exact before w (by omega) hwv

theorem string_keeps (tree : Tree s.mem root node) (k : Keeps root node s t) (va max v : Nat) :
    string t root va max v ↔ string s root va max v := by
  simp only [string, k.userByte tree]

theorem copyinstr_traced (tree : Tree s.mem root node) {dst va max : Nat}
    (window : va &&& DMWIN_MASK = 0) (buffer : Private s root node dst max) :
    Traced s root (string s root va max) (copyinstr root dst va max s) := by
  induction max using Nat.strong_induction_on generalizing s dst va with
  | _ max ih =>
    rw [copyinstr]
    by_cases done : max = 0
    · rw [if_pos done]
      refine ⟨-1, s, [], rfl, rfl, by simp, fun v h => ?_, fun _ => rfl⟩
      have := h.1.1
      have := h.1.2
      omega
    · rw [if_neg done]
      have round : PGROUNDDOWN va ≤ va := Nat.div_mul_le_self _ _
      have offset : va - PGROUNDDOWN va = va % PGSIZE := by
        have := Nat.mod_add_div' va PGSIZE
        rw [PGROUNDDOWN]
        omega
      have base : PGROUNDDOWN va / PGSIZE = va / PGSIZE := Nat.mul_div_cancel _ (by decide)
      have same₀ := page_same_page tree base
      obtain ⟨pa, hwalk, open_iff, opened⟩ :=
        walkaddr_page tree ((window_PGROUNDDOWN va).trans window)
      rw [Machine.bind_of_ok hwalk]
      by_cases shut : pa = 0
      · have shut' : ¬OpenPage s root va := by
          rw [← openPage_congr_page same₀, ← open_iff]
          simpa using shut
        rw [if_pos shut]
        have here : string s root va max va := ⟨⟨Nat.le_refl va, by omega⟩, fun w hw hwv => by omega⟩
        refine ⟨-1, s, [], rfl, rfl, by simp, fun v need before => ?_, fun _ => rfl⟩
        exact absurd (before va need.1.1 here) shut'
      · obtain ⟨low, flags, hpage⟩ := opened (open_iff.mp shut)
        have frame := page_frame hpage
        have small : va % PGSIZE < PGSIZE := Nat.mod_lt _ (by decide)
        have byte := (frame_byte frame small).1
        have low' : PGROUNDDOWN va < 2 ^ 46 := low
        have top : PGROUNDDOWN va + PGSIZE ≤ 2 ^ 46 := by
          rw [PGROUNDDOWN, PGSIZE] at low' ⊢
          omega
        have next : u64 (PGROUNDDOWN va + PGSIZE) = PGROUNDDOWN va + PGSIZE :=
          Nat.mod_eq_of_lt (by omega)
        have isOpen : flags &&& PTE_PLV3 ≠ 0 := by
          obtain ⟨pa', flags', hp, hf⟩ := open_iff.mp shut
          rw [hpage] at hp
          cases hp
          exact hf
        rw [if_neg shut]
        simp only [offset, byte, next]
        generalize hn : min (PGSIZE - va % PGSIZE) max = n
        have hn' : n ≤ PGSIZE - va % PGSIZE ∧ n ≤ max ∧ 0 < n ∧
            (n < max → va + n = PGROUNDDOWN va + PGSIZE) := by
          omega
        obtain ⟨inside, short, pos, full⟩ := hn'
        obtain ⟨got, t, first, hrun, hlog, k, touched, found⟩ := copyinstrBytes_run (i := 0) tree hpage
          (Nat.le_add_right pa (va % PGSIZE)) (by omega) (buffer.take short)
        rw [Machine.bind_of_ok hrun]
        have bytes : ∀ j < n, userByte s root (va + j) = some (s.mem (pa + va % PGSIZE + j)) := by
          intro j hj
          obtain ⟨hp, hphys⟩ := chunk_page tree hpage inside (v := va + j) ⟨by omega, by omega⟩
          rw [Nat.add_sub_cancel_left, physical, hp] at hphys
          rw [userByte, hp, Option.map_some, hphys]
        have chunk_mem : ∀ x ∈ first, string s root va n x.1 ∧ x.2 = physical s root x.1 := by
          intro x hx
          obtain ⟨j, hj, rfl, before⟩ := (touched x).mp hx
          rw [Nat.zero_add]
          have here : span va n (va + j) := ⟨by omega, by omega⟩
          have hphys := (chunk_page tree hpage inside here).2
          rw [Nat.add_sub_cancel_left] at hphys
          refine ⟨⟨here, fun w hw hwv => ?_⟩, hphys⟩
          obtain ⟨l, rfl⟩ : ∃ l, w = va + l := ⟨w - va, by omega⟩
          rw [bytes l (by omega)]
          simpa using before l (by simpa using hwv)
        have chunk_all : ∀ v, string s root va n v → ∃ x ∈ first, x.1 = v := by
          rintro v ⟨hv, before⟩
          obtain ⟨j, rfl⟩ : ∃ j, v = va + j := ⟨v - va, by have := hv.1; omega⟩
          have hj : j < n := by
            have := hv.2
            omega
          refine ⟨(va + (0 + j), pa + va % PGSIZE + j), (touched _).mpr ⟨j, hj, rfl, fun l hl => ?_⟩,
            by simp⟩
          have := before (va + l) (by omega) (by omega)
          rw [bytes l (by omega)] at this
          simpa using this
        have opens : ∀ v, string s root va n v → OpenPage s root v := fun v hv =>
          ⟨pa, flags, (chunk_page tree hpage inside hv.1).1, isOpen⟩
        cases got with
        | true =>
          obtain ⟨j, hj, zero⟩ := found.mp rfl
          rw [if_pos rfl]
          have stop : Traced t root (fun _ => False) (.ok (0, t)) :=
            ⟨0, t, [], rfl, rfl, by simp, fun v h => h.elim, by rintro ⟨_, no, _⟩; exact no.elim⟩
          refine Traced.cons (string s root va n) opens chunk_mem chunk_all (fun v => ?_)
            (fun v w _ h => h.elim) (k.page tree) hlog stop
          rw [or_false]
          constructor
          · rintro ⟨hv, before⟩
            refine ⟨⟨hv.1, ?_⟩, before⟩
            by_contra far
            have := before (va + j) (by omega) (by omega)
            rw [bytes j hj, zero] at this
            exact this rfl
          · rintro ⟨hv, before⟩
            exact ⟨⟨hv.1, by have := hv.2; omega⟩, before⟩
        | false =>
          have clean : ∀ w, span va n w → userByte s root w ≠ some 0 := by
            rintro w hw
            obtain ⟨j, rfl⟩ : ∃ j, w = va + j := ⟨w - va, by have := hw.1; omega⟩
            have hj : j < n := by
              have := hw.2
              omega
            rw [bytes j hj]
            intro zero
            exact absurd (found.mpr ⟨j, hj, Option.some.inj zero⟩) (by simp)
          have window' : PGROUNDDOWN va + PGSIZE &&& DMWIN_MASK = 0 := window_of_le top
          have rest := ih (max - n) (by omega) (tree.same k.table) window'
            ((buffer.skip short).keeps tree k)
          have same : string t root (PGROUNDDOWN va + PGSIZE) (max - n) =
              string s root (PGROUNDDOWN va + PGSIZE) (max - n) :=
            funext fun v => propext (string_keeps tree k _ _ v)
          rw [same] at rest
          rw [if_neg (by decide)]
          refine Traced.cons (string s root va n) opens chunk_mem chunk_all (fun v => ?_)
            (fun v w hv hw => ?_) (k.page tree) hlog rest
          · rw [string_tail clean short]
            have whole : string s root va n v ↔ span va n v :=
              ⟨fun h => h.1, fun h => ⟨h, fun w hw hwv => clean w ⟨hw, by have := h.2; omega⟩⟩⟩
            rw [whole]
            by_cases last : n < max
            · rw [full last]
            · have none : ∀ a, ¬string s root a (max - n) v := by
                intro a h
                have := h.1.1
                have := h.1.2
                omega
              simp only [none, or_false]
          · have := hv.1.2
            have := hw.1.1
            omega

/-- The record of touched bytes only ever grows. -/
def Grows (s t : Ram) : Prop := ∃ new, t.touched = new ++ s.touched

instance : Std.Refl Grows := ⟨fun _ => ⟨[], rfl⟩⟩

instance : IsTrans Ram Grows where
  trans := by
    rintro s t u ⟨new, h⟩ ⟨later, h'⟩
    exact ⟨later ++ new, by rw [h', h, List.append_assoc]⟩

theorem grows_load (a : Nat) : Machine.Frame Grows (load a) := .bind .get fun _ => .pure _

theorem grows_loadByte (a : Nat) : Machine.Frame Grows (loadByte a) :=
  .bind .get fun _ => .ite (.pure _) (.halt _)

theorem grows_storeByte (a : Nat) (b : UInt8) : Machine.Frame Grows (storeByte a b) := by
  intro s v t h
  rw [storeByte, Machine.bind_of_ok (Machine.get_run s)] at h
  split at h
  · cases h
    exact ⟨[], rfl⟩
  · cases h

theorem grows_touch (va a n : Nat) : Machine.Frame Grows (touch va a n) :=
  .modify _ fun _ => ⟨_, rfl⟩

theorem grows_walk (pagetable va : Nat) : Machine.Frame Grows (walk pagetable va false) := by
  have levels : ∀ l a, Machine.Frame Grows (walkLevels false va l a) := by
    intro l
    induction l with
    | zero => exact fun a => .pure _
    | succ l ih =>
      intro a
      exact .bind (grows_load _) fun entry => .ite (ih _) (.ite (.pure _) (.bind (by
        intro s r t h
        rcases kalloc_cases h with ⟨_, rfl⟩ | ⟨_, _, rfl⟩
        · exact ⟨[], rfl⟩
        · exact ⟨[], rfl⟩) fun page => .ite (.pure _) (.bind (.modify _ fun _ => ⟨[], rfl⟩) fun _ =>
          .bind (.modify _ fun _ => ⟨[], rfl⟩) fun _ => ih _)))
  exact .ite (.pure _) (.ite (.panic _) (levels 3 pagetable))

theorem grows_walkaddr (pagetable va : Nat) : Machine.Frame Grows (walkaddr pagetable va) :=
  .ite (.pure _) (.ite (.pure _) (.bind (grows_walk _ _) fun _ =>
    .ite (.pure _) (.bind (grows_load _) fun _ => .ite (.pure _) (.ite (.pure _) (.pure _)))))

theorem grows_copyinstrBytes (va i p dst n : Nat) :
    Machine.Frame Grows (copyinstrBytes va i p dst n) := by
  induction n generalizing i p dst with
  | zero => exact .pure _
  | succ n ih =>
    exact .bind (grows_touch _ _ _) fun _ => .bind (grows_loadByte _) fun b =>
      .ite (.bind (grows_storeByte _ _) fun _ => .pure _) (.bind (grows_storeByte _ _) fun _ => ih _ _ _)

theorem grows_copyinstr (pagetable dst va max : Nat) :
    Machine.Frame Grows (copyinstr pagetable dst va max) := by
  induction max using Nat.strong_induction_on generalizing dst va with
  | _ max ih =>
    rw [copyinstr]
    by_cases done : max = 0
    · rw [if_pos done]
      exact .pure _
    · have := chunk_pos va
      rw [if_neg done]
      exact .bind (grows_walkaddr _ _) fun pa => .ite (.pure _) (.bind (grows_copyinstrBytes _ _ _ _ _)
        fun got => .ite (.pure _) (ih _ (by omega) _ _))

/-- Through a window address the first byte read is outside every user page. -/
theorem copyinstr_window {dst va max : Nat} (window : va &&& DMWIN_MASK ≠ 0) (pos : 0 < max) :
    ¬Contained s root needed (copyinstr root dst va max s) := by
  rintro ⟨r, t, new, hr, hnew, inside, _⟩
  have high : ¬va < MAXVA := fun low => window (window_of_lt low)
  have window' : PGROUNDDOWN va &&& DMWIN_MASK ≠ 0 := by
    rwa [window_PGROUNDDOWN]
  have ne : PGROUNDDOWN va ≠ 0 := by
    intro zero
    rw [zero, Nat.zero_and] at window'
    exact window' rfl
  have hwalk : walkaddr root (PGROUNDDOWN va) s = .ok (PGROUNDDOWN va, s) := by
    rw [walkaddr, if_pos window']
    rfl
  have chunk := chunk_pos va
  obtain ⟨n, hn⟩ : ∃ n, min (PGSIZE - (va - PGROUNDDOWN va)) max = n + 1 :=
    ⟨min (PGSIZE - (va - PGROUNDDOWN va)) max - 1, by omega⟩
  rw [copyinstr, if_neg (by omega), Machine.bind_of_ok hwalk, if_neg ne] at hr
  simp only [hn] at hr
  obtain ⟨got, u, hbytes, rest⟩ := Machine.bind_ok.mp hr
  rw [copyinstrBytes] at hbytes
  obtain ⟨⟨⟩, u', htouch, hbytes⟩ := Machine.bind_ok.mp hbytes
  have grow : Grows u' u := (Machine.Frame.bind (grows_loadByte _) fun b =>
    Machine.Frame.ite (.bind (grows_storeByte _ _) fun _ => .pure _)
      (.bind (grows_storeByte _ _) fun _ => grows_copyinstrBytes _ _ _ _ _)) _ _ _ hbytes
  have grow' : Grows u t := (Machine.Frame.ite (.pure _) (grows_copyinstr _ _ _ _)) _ _ _ rest
  obtain ⟨more, hmore⟩ := Trans.trans grow grow'
  rw [touch_run] at htouch
  cases htouch
  obtain rfl : new = more ++ [(va, PGROUNDDOWN va + (va - PGROUNDDOWN va) ||| DMWIN_MASK)] := by
    have both : new ++ s.touched =
        (more ++ [(va, PGROUNDDOWN va + (va - PGROUNDDOWN va) ||| DMWIN_MASK)]) ++ s.touched := by
      rw [← hnew, hmore]
      simp
    exact List.append_cancel_right both
  obtain ⟨pa, flags, hp, _⟩ := (inside _ (List.mem_append_right _ List.mem_cons_self)).1
  rw [page, if_neg high] at hp
  cases hp

theorem copyinstr_contained (tree : Tree s.mem root node) {dst srcva max : Nat}
    (buffer : Private s root node dst max) :
    Contained s root (string s root srcva max) (copyinstr root dst srcva max s) ↔
      (max = 0 ∨ srcva &&& DMWIN_MASK = 0) ∧ Tidy s root (string s root srcva max) := by
  by_cases window : srcva &&& DMWIN_MASK = 0
  · rw [contained_iff_tidy (copyinstr_traced tree window buffer)]
    exact ⟨fun h => ⟨.inr window, h⟩, fun h => h.2⟩
  · rcases Nat.eq_zero_or_pos max with rfl | pos
    · have none : ∀ v, ¬string s root srcva 0 v := fun v h => by
        have := h.1.1
        have := h.1.2
        omega
      rw [copyinstr, if_pos rfl]
      exact ⟨fun _ => ⟨.inl rfl, fun v h => absurd h (none v)⟩,
        fun _ => ⟨-1, s, [], rfl, rfl, by simp, fun _ => rfl⟩⟩
    · refine ⟨fun h => absurd h (copyinstr_window window pos), fun h => ?_⟩
      rcases h.1 with zero | clear
      · omega
      · exact absurd clear window

/-- When the four copies keep to the user's own pages, over every well-formed
table, every user address and every length. `copyin` panics on an address in the
window and `copyout` on one above `MAXVA`, `copyinstr` reads through the window,
`copyout_zero` copies from address 0, and all but the last let pages of
privilege level 1 and 2 through. -/
theorem user_copies_contained (tree : Tree s.mem root node) (separate : Separate s root node) :
    (∀ dst srcva len, Buffer node dst len →
      (Contained s root (span srcva len) (copyin root dst srcva len s) ↔
        ¬(MAXVA < srcva ∧ srcva &&& DMWIN_MASK ≠ 0) ∧ Tidy s root (span srcva len))) ∧
    (∀ dstva src len, Buffer node src len →
      (Contained s root (span dstva len) (copyout root dstva src len s) ↔
        dstva ≤ MAXVA ∧ PROCVKSTACK (NPROC - 1) ≤ src ∧ Tidy s root (span dstva len))) ∧
    (∀ dst srcva max, Private s root node dst max →
      (Contained s root (string s root srcva max) (copyinstr root dst srcva max s) ↔
        (max = 0 ∨ srcva &&& DMWIN_MASK = 0) ∧ Tidy s root (string s root srcva max))) ∧
    ∀ dstva len, (Contained s root (span dstva len) (copyout_zero root dstva len s) ↔
      len = 0 ∨ dstva &&& DMWIN_MASK = 0 ∧ ¬OpenPage s root dstva) :=
  ⟨fun _ _ _ buffer => copyin_contained tree separate buffer,
    fun _ _ _ buffer => copyout_contained tree separate buffer,
    fun _ _ _ buffer => copyinstr_contained tree buffer,
    fun _ _ => copyout_zero_contained tree⟩

/-! ### A table with one user page -/

theorem oneMapping_page {va pa flags : Nat} (h : page RAMBASE va oneMapping = some (pa, flags)) :
    pa = RAMSTOP ∧ flags = PTE_PLV3 ||| PTE_V ||| PTE_MAT ||| PTE_D := by
  obtain ⟨node, refined⟩ := oneMapping_built.refines
  rw [page] at h
  split at h
  · rename_i low
    rw [refined.translation low] at h
    simp only [PageMap.mapRange] at h
    split at h
    · rename_i here
      have zero : va / PGSIZE = 0 := by omega
      rw [zero] at h
      cases h
      exact ⟨rfl, rfl⟩
    · cases h
  · cases h

theorem oneMapping_tree : ∃ node, Tree oneMapping.mem RAMBASE node ∧
    Separate oneMapping RAMBASE node ∧ ∀ p, node.Has p ↔ p ∈ oneMappingPages := by
  obtain ⟨node, refined⟩ := oneMapping_built.refines
  refine ⟨node, refined.tree, fun va pa flags h => ?_, refined.pages⟩
  rw [refined.pages, (oneMapping_page h).1]
  decide

theorem oneMapping_open : OpenPage oneMapping RAMBASE 0 := by
  obtain ⟨node, refined⟩ := oneMapping_built.refines
  refine ⟨_, _, (if_pos (by decide)).trans (refined.translation (by decide)), by decide⟩

/-- Eight bytes from page 0 to kernel memory. -/
theorem user_copies_contained_oneMapping :
    Contained oneMapping RAMBASE (span 0 8) (copyin RAMBASE (RAMSTOP + PGSIZE) 0 8 oneMapping) := by
  obtain ⟨node, tree, separate, pages⟩ := oneMapping_tree
  have buffer : Buffer node (RAMSTOP + PGSIZE) 8 := by
    refine ⟨by decide, fun i hi p hp => .inr ?_⟩
    have above : ∀ p ∈ oneMappingPages, p + PGSIZE ≤ RAMSTOP + PGSIZE := by decide
    exact le_trans (above p ((pages p).mp hp)) (Nat.le_add_right _ _)
  refine ((user_copies_contained tree separate).1 _ 0 8 buffer).mpr ⟨by decide, ?_⟩
  rintro va _ _ ⟨pa, flags, hp, _⟩
  exact ⟨pa, flags, hp, by rw [(oneMapping_page hp).2]; decide⟩

/-- The addresses that the user tests try, and a page to be cleared. -/
theorem user_copies_not_contained :
    ¬Contained oneMapping RAMBASE (span 0xffffffffffffffff 8192)
      (copyin RAMBASE (RAMSTOP + PGSIZE) 0xffffffffffffffff 8192 oneMapping) ∧
    ¬Contained oneMapping RAMBASE (span 0xffffffffffffffff 8192)
      (copyout RAMBASE 0xffffffffffffffff (RAMSTOP + PGSIZE) 8192 oneMapping) ∧
    ¬Contained oneMapping RAMBASE (string oneMapping RAMBASE 0xffffffffffffffff 260)
      (copyinstr RAMBASE (RAMSTOP + PGSIZE) 0xffffffffffffffff 260 oneMapping) ∧
    ¬Contained oneMapping RAMBASE (span 0 8) (copyout_zero RAMBASE 0 8 oneMapping) := by
  obtain ⟨node, tree, _, _⟩ := oneMapping_tree
  refine ⟨?_, ?_, copyinstr_window (by decide) (by decide), ?_⟩
  · rw [copyin, if_pos (by decide)]
    exact not_contained_of_error
  · rw [copyout, if_pos (by decide)]
    exact not_contained_of_error
  · rw [copyout_zero_contained tree]
    rintro (zero | ⟨_, shut⟩)
    · exact absurd zero (by decide)
    · exact shut oneMapping_open

end AvxKernel.Vm
