import AvxKernel.Lib.Scatter
import AvxKernel.Vm.Containment

/-! A user address space as it looks from inside: a flat row of bytes, each in a
frame that the page table chooses. What `copyout` writes is what `copyin` reads
there, and `copyinstr` delivers a string whole or not at all. -/
namespace AvxKernel.Vm

/-- A page table whose mapped pages have frames of their own. -/
structure UserSpace (s : Ram) (root : Nat) (node : Nodes) : Prop where
  tree : Tree s.mem root node
  separate : Separate s root node
  distinct : ∀ {v w pa flags flags'}, page root v s = some (pa, flags) →
    page root w s = some (pa, flags') → v / PGSIZE = w / PGSIZE

variable {s t : Ram} {root va len : Nat} {node : Nodes}

/-- A table that says what a map of pages says, with a frame for each page and
none of the frames a page of its own. -/
theorem Tree.space {m : PageMap} (tree : Tree s.mem root node)
    (entries : ∀ va < MAXVA, entryAt s.mem node va = entryOf (m (va / PGSIZE)))
    (frames : ∀ {v pa perm}, m v = some (pa, perm) → Frame pa ∧ perm < 2 ^ 9)
    (apart : ∀ {v pa perm}, m v = some (pa, perm) → ¬node.Has pa)
    (distinct : ∀ {v w pa perm perm'}, m v = some (pa, perm) → m w = some (pa, perm') → v = w) :
    UserSpace s root node := by
  have found : ∀ {va pa flags}, page root va s = some (pa, flags) →
      ∃ perm, m (va / PGSIZE) = some (pa, perm) := by
    intro va pa flags hpage
    rw [page] at hpage
    split at hpage
    · next low =>
      rw [tree.translation entries frames low, Option.map_eq_some_iff] at hpage
      obtain ⟨⟨pa', perm⟩, hm, eq⟩ := hpage
      cases eq
      exact ⟨perm, hm⟩
    · cases hpage
  constructor
  · exact tree
  · intro va pa flags hpage
    obtain ⟨perm, hm⟩ := found hpage
    exact apart hm
  · intro v w pa flags flags' pageV pageW
    obtain ⟨perm, hv⟩ := found pageV
    obtain ⟨perm', hw⟩ := found pageW
    exact distinct hv hw

/-- In a page that the table maps, whatever its privilege level. -/
def InPage (s : Ram) (root va : Nat) : Prop := ∃ pa flags, page root va s = some (pa, flags)

theorem OpenPage.inPage {v : Nat} (isOpen : OpenPage s root v) : InPage s root v := by
  obtain ⟨pa, flags, hpage, _⟩ := isOpen
  exact ⟨pa, flags, hpage⟩

theorem InPage.userByte {v : Nat} (within : InPage s root v) :
    userByte s root v = some (s.mem (physical s root v)) := by
  obtain ⟨pa, flags, hpage⟩ := within
  rw [Vm.userByte, physical, hpage]
  rfl

/-! ### The places of user bytes -/

theorem physical_eq {v pa flags : Nat} (hpage : page root v s = some (pa, flags)) :
    physical s root v = pa + v % PGSIZE := by
  rw [physical, hpage]

theorem physical_mapped {v : Nat} (within : InPage s root v) :
    mapped (physical s root v) = true := by
  obtain ⟨pa, flags, hpage⟩ := within
  rw [physical_eq hpage]
  exact mapped_frame (page_frame hpage) (Nat.mod_lt _ (by decide))

/-- Bytes of different pages are at different places. -/
theorem UserSpace.physical_inj (space : UserSpace s root node) {v w : Nat} (hv : InPage s root v)
    (hw : InPage s root w) (same : physical s root v = physical s root w) : v = w := by
  obtain ⟨pa, flags, pageV⟩ := hv
  obtain ⟨pb, flags', pageW⟩ := hw
  rw [physical_eq pageV, physical_eq pageW] at same
  have lowV := Nat.mod_lt v (show 0 < PGSIZE by decide)
  have lowW := Nat.mod_lt w (show 0 < PGSIZE by decide)
  have frame : pa = pb := by
    by_contra differ
    have := (page_frame pageV).disjoint (page_frame pageW) differ
      ⟨Nat.le_add_right pa (v % PGSIZE), by omega⟩
    omega
  subst frame
  have number := space.distinct pageV pageW
  have := Nat.div_add_mod v PGSIZE
  have := Nat.div_add_mod w PGSIZE
  rw [number] at *
  omega

/-- No byte of a user page is in the table. -/
theorem UserSpace.physical_apart (space : UserSpace s root node) {v p : Nat} (within : InPage s root v)
    (has : node.Has p) : physical s root v < p ∨ p + PGSIZE ≤ physical s root v := by
  obtain ⟨pa, flags, hpage⟩ := within
  have low := Nat.mod_lt v (show 0 < PGSIZE by decide)
  have ne : pa ≠ p := by
    rintro rfl
    exact space.separate v _ flags hpage has
  obtain ⟨l, q, hp⟩ := has
  rw [physical_eq hpage]
  exact (page_frame hpage).disjoint (space.tree.frame hp) ne ⟨Nat.le_add_right _ _, by omega⟩

theorem UserSpace.same (space : UserSpace s root node) (same : SameTable node s t) :
    UserSpace t root node := by
  have pages := page_same_table space.tree same
  constructor
  · exact space.tree.same same
  · intro v pa flags hpage
    exact space.separate v pa flags ((pages v).symm.trans hpage)
  · intro v w pa flags flags' pageV pageW
    exact space.distinct ((pages v).symm.trans pageV) ((pages w).symm.trans pageW)

theorem physical_same (pages : ∀ v, page root v t = page root v s) (v : Nat) :
    physical t root v = physical s root v := by
  rw [physical, physical, pages]

/-- Up to the end of its page an address is followed by the addresses of one frame. -/
theorem chunk_open (tree : Tree s.mem root node) (isOpen : OpenPage s root va) :
    ∃ pa, walkaddr root (PGROUNDDOWN va) s = .ok (pa, s) ∧ pa ≠ 0 ∧
      pa + (va - PGROUNDDOWN va) = physical s root va ∧
      physical s root va ||| DMWIN_MASK = physical s root va ∧
      u64 (PGROUNDDOWN va + PGSIZE) = va + (PGSIZE - (va - PGROUNDDOWN va)) ∧
      ∀ i < PGSIZE - (va - PGROUNDDOWN va),
        OpenPage s root (va + i) ∧ physical s root (va + i) = physical s root va + i := by
  have round : PGROUNDDOWN va ≤ va := Nat.div_mul_le_self _ _
  have offset : va - PGROUNDDOWN va = va % PGSIZE := by
    have := Nat.mod_add_div' va PGSIZE
    rw [PGROUNDDOWN]
    omega
  have small : va % PGSIZE < PGSIZE := Nat.mod_lt _ (by decide)
  have base : PGROUNDDOWN va / PGSIZE = va / PGSIZE := Nat.mul_div_cancel _ (by decide)
  have same := page_same_page tree base
  have openBase : OpenPage s root (PGROUNDDOWN va) := (openPage_congr_page same).mpr isOpen
  have low : va < MAXVA := by
    obtain ⟨_, _, hpage, _⟩ := isOpen
    by_contra high
    rw [page, if_neg high] at hpage
    cases hpage
  have window : PGROUNDDOWN va &&& DMWIN_MASK = 0 :=
    (window_PGROUNDDOWN va).trans (window_of_lt low)
  obtain ⟨pa, hwalk, open_iff, opened⟩ := walkaddr_page tree window
  obtain ⟨_, flags, hbase⟩ := opened openBase
  have hpage : page root va s = some (pa, flags) := same.symm.trans hbase
  have here : physical s root va = pa + va % PGSIZE := physical_eq hpage
  refine ⟨pa, hwalk, open_iff.mpr openBase, ?_, ?_, ?_, ?_⟩
  · rw [offset, here]
  · rw [here]
    exact (frame_byte (page_frame hpage) small).1
  · have room : PGROUNDDOWN va + PGSIZE < 2 ^ 64 := by
      rw [MAXVA_eq] at low
      rw [PGSIZE]
      omega
    rw [u64, Nat.mod_eq_of_lt room]
    omega
  · intro i hi
    rw [offset] at hi
    have inside : span va (PGSIZE - va % PGSIZE) (va + i) := ⟨by omega, by omega⟩
    obtain ⟨hp, place⟩ := chunk_page tree hbase (Nat.le_refl _) inside
    refine ⟨(openPage_congr_page (hp.trans hbase.symm)).mpr openBase, ?_⟩
    rw [← place, here, Nat.add_sub_cancel_left]

/-! ### The shared loop -/

/-- Which of the two addresses of a copy a byte goes to, or comes from. -/
abbrev Side := Nat → Nat → Nat

def kernelSide : Side := fun kernel _ => kernel

def userSide : Side := fun _ user => user

/-- A `memmove` from one side to the other. -/
def Copies (dst src : Side) (move : Nat → Nat → Nat → Machine Ram Unit) : Prop :=
  ∀ kernel user n s, n ≤ PGSIZE → (∀ i < n, mapped (kernel + i) = true) →
    (∀ i < n, mapped (user + i) = true) →
    ∃ t, move kernel user n s = .ok ((), t) ∧
      Laid s.mem t.mem (fun i => dst (kernel + i) (user + i))
        (fun i => s.mem (src (kernel + i) (user + i))) n

theorem copies_in : Copies kernelSide userSide fun dst src n => memmove dst src n := by
  intro dst src n s small kernel user
  exact ⟨_, memmove_run s small user kernel, .copy s.mem dst src n⟩

theorem copies_out : Copies userSide kernelSide fun src dst n => memmove dst src n := by
  intro src dst n s small kernel user
  exact ⟨_, memmove_run s small kernel user, .copy s.mem dst src n⟩

theorem sameTable_of_laid {place : Nat → Nat} {value : Nat → UInt8} {n : Nat}
    (laid : Laid s.mem t.mem place value n)
    (apart : ∀ i < n, ∀ p, node.Has p → place i < p ∨ p + PGSIZE ≤ place i) :
    SameTable node s t := by
  intro p has i hi
  apply laid.away
  intro j hj eq
  have := apart j hj p has
  omega

/-- Page after page, the loop copies every byte of the range between its place in
the kernel's buffer and its place in the user's frames. -/
theorem copyPages_laid {dst src : Side} {move : Nat → Nat → Nat → Machine Ram Unit}
    (copies : Copies dst src move) {kernel : Nat} (tree : Tree s.mem root node)
    (opens : ∀ v, span va len v → OpenPage s root v)
    (reach : ∀ i < len, mapped (kernel + i) = true)
    (apart : ∀ i < len, ∀ p, node.Has p → dst (kernel + i) (physical s root (va + i)) < p ∨
      p + PGSIZE ≤ dst (kernel + i) (physical s root (va + i)))
    (places : ∀ i < len, ∀ j < len, i ≠ j →
      dst (kernel + i) (physical s root (va + i)) ≠ dst (kernel + j) (physical s root (va + j)))
    (sources : ∀ i < len, ∀ j < len,
      dst (kernel + i) (physical s root (va + i)) ≠ src (kernel + j) (physical s root (va + j))) :
    ∃ t, copyPages root move kernel va len s = .ok (0, t) ∧
      Laid s.mem t.mem (fun i => dst (kernel + i) (physical s root (va + i)))
        (fun i => s.mem (src (kernel + i) (physical s root (va + i)))) len := by
  induction len using Nat.strong_induction_on generalizing s kernel va with
  | _ len ih =>
    rw [copyPages]
    by_cases done : len = 0
    · subst done
      exact ⟨s, rfl, .nil⟩
    · have chunk := chunk_pos va
      obtain ⟨pa, hwalk, found, here, window, next, along⟩ := chunk_open tree (opens va ⟨le_refl va, by omega⟩)
      rw [if_neg done, Machine.bind_of_ok hwalk, if_neg found, Machine.bind_of_ok (touch_run _ _ _ _)]
      simp only [here, window, next]
      generalize hn : min (PGSIZE - (va - PGROUNDDOWN va)) len = n
      have inside : n ≤ PGSIZE - (va - PGROUNDDOWN va) := by omega
      have short : n ≤ len := by omega
      have first : ∀ i < n, physical s root (va + i) = physical s root va + i := fun i hi =>
        (along i (by omega)).2
      obtain ⟨t, hmove, laid⟩ := copies kernel (physical s root va) n _ (by omega)
        (fun i hi => reach i (by omega))
        (fun i hi => first i hi ▸ physical_mapped (opens _ ⟨by omega, by omega⟩).inPage)
      rw [Machine.bind_of_ok hmove]
      have laid' : Laid s.mem t.mem (fun i => dst (kernel + i) (physical s root (va + i)))
          (fun i => s.mem (src (kernel + i) (physical s root (va + i)))) n :=
        laid.congr (fun i hi => by rw [first i hi]) fun i hi => by rw [first i hi]
      have table : SameTable node s t := sameTable_of_laid laid' fun i hi => apart i (by omega)
      have pages := page_same_table tree table
      by_cases last : n = len
      · subst last
        rw [Nat.sub_self, copyPages, if_pos rfl]
        exact ⟨t, rfl, laid'⟩
      · have full : n = PGSIZE - (va - PGROUNDDOWN va) := by omega
        have ahead : u64 (kernel + n) = kernel + n :=
          Nat.mod_eq_of_lt (mapped_lt (reach n (by omega)))
        have shift : ∀ i, physical t root (va + n + i) = physical s root (va + (n + i)) := by
          intro i
          rw [physical_same pages, Nat.add_assoc]
        have opens' : ∀ v, span (va + n) (len - n) v → OpenPage t root v := by
          intro v hv
          simp only [span] at hv
          exact (openPage_congr (pages v)).mpr (opens v ⟨by omega, by omega⟩)
        have reach' : ∀ i < len - n, mapped (kernel + n + i) = true := by
          intro i hi
          rw [Nat.add_assoc]
          exact reach (n + i) (by omega)
        obtain ⟨u, hrest, rest⟩ := ih (len - n) (by omega) (tree.same table) opens' reach'
          (by
            intro i hi
            rw [shift, Nat.add_assoc]
            exact apart (n + i) (by omega))
          (by
            intro i hi j hj ne
            rw [shift, shift, Nat.add_assoc, Nat.add_assoc]
            exact places (n + i) (by omega) (n + j) (by omega) (by omega))
          (by
            intro i hi j hj
            rw [shift, shift, Nat.add_assoc, Nat.add_assoc]
            exact sources (n + i) (by omega) (n + j) (by omega))
        refine ⟨u, ?_, ?_⟩
        · rw [ahead, ← full]
          exact hrest
        · rw [← Nat.add_sub_cancel' short]
          apply laid'.append
          · apply rest.congr
            · intro i hi
              rw [shift, Nat.add_assoc]
            · intro i hi
              rw [shift, Nat.add_assoc]
              exact (laid'.away _ fun j hj => sources j (by omega) (n + i) (by omega)).symm
          · intro i hi j hj
            exact places (n + j) (by omega) i (by omega) (by omega)

/-! ### `copyout` and `copyin` -/

theorem Private.away {a n i v : Nat} (buffer : Private s root node a n) (hi : i < n)
    (within : InPage s root v) : physical s root v ≠ a + i := by
  obtain ⟨pa, flags, hpage⟩ := within
  have low := Nat.mod_lt v (show 0 < PGSIZE by decide)
  have := buffer.hidden i hi v pa flags hpage
  rw [physical_eq hpage]
  omega

/-- The bytes of a range, in the places that the table gives them. -/
def Stored (s t : Ram) (root va : Nat) (value : Nat → UInt8) (len : Nat) : Prop :=
  Laid s.mem t.mem (fun i => physical s root (va + i)) value len

theorem copyout_stored (space : UserSpace s root node) {src : Nat} (low : va ≤ MAXVA)
    (opens : ∀ v, span va len v → OpenPage s root v) (kernel : PROCVKSTACK (NPROC - 1) ≤ src)
    (buffer : Private s root node src len) :
    ∃ t, copyout root va src len s = .ok (0, t) ∧
      Stored s t root va (fun i => s.mem (src + i)) len := by
  have inside : ∀ i < len, InPage s root (va + i) := fun i hi =>
    (opens _ ⟨by omega, by omega⟩).inPage
  rw [copyout, if_neg (by omega), if_neg (by omega)]
  apply copyPages_laid copies_out space.tree opens buffer.mapped
  · intro i hi p has
    exact space.physical_apart (inside i hi) has
  · intro i hi j hj ne same
    have := space.physical_inj (inside i hi) (inside j hj) same
    omega
  · intro i hi j hj
    exact buffer.away hj (inside i hi)

theorem copyin_laid (space : UserSpace s root node) {dst : Nat} (low : va ≤ MAXVA)
    (opens : ∀ v, span va len v → OpenPage s root v) (buffer : Private s root node dst len) :
    ∃ t, copyin root dst va len s = .ok (0, t) ∧
      Laid s.mem t.mem (fun i => dst + i) (fun i => s.mem (physical s root (va + i))) len := by
  have inside : ∀ i < len, InPage s root (va + i) := fun i hi =>
    (opens _ ⟨by omega, by omega⟩).inPage
  rw [copyin, if_neg (by omega)]
  apply copyPages_laid copies_in space.tree opens buffer.mapped
  · intro i hi p has
    exact buffer.apart i hi p has
  · intro i hi j hj ne
    simp only [kernelSide]
    omega
  · intro i hi j hj same
    exact buffer.away hi (inside j hj) same.symm

section Stored

variable {value : Nat → UInt8} (space : UserSpace s root node)
  (opens : ∀ v, span va len v → OpenPage s root v) (stored : Stored s t root va value len)
include space opens stored

theorem Stored.sameTable : SameTable node s t :=
  sameTable_of_laid stored fun _ hi _ has =>
    space.physical_apart (opens _ ⟨by omega, by omega⟩).inPage has

theorem Stored.page (v : Nat) : page root v t = page root v s :=
  page_same_table space.tree (stored.sameTable space opens) v

/-- One range after the other. -/
theorem Stored.append {u : Ram} {n : Nat} (opens' : ∀ v, span (va + len) n v → OpenPage s root v)
    (rest : Stored t u root (va + len) (fun i => value (len + i)) n) :
    Stored s u root va value (len + n) := by
  have pages := stored.page space opens
  refine Laid.append stored (rest.congr ?_ fun _ _ => rfl) ?_
  · intro i hi
    rw [physical_same pages, Nat.add_assoc]
  · intro i hi j hj same
    have first := (opens (va + i) ⟨by omega, by omega⟩).inPage
    have second := (opens' (va + (len + j)) ⟨by omega, by omega⟩).inPage
    have := space.physical_inj second first same
    omega

/-- The flat row of bytes after bytes have been stored. -/
theorem Stored.userByte (v : Nat) :
    userByte t root v = if va ≤ v ∧ v < va + len then some (value (v - va)) else userByte s root v := by
  have pages := stored.page space opens
  by_cases here : va ≤ v ∧ v < va + len
  · obtain ⟨i, rfl⟩ := Nat.exists_eq_add_of_le here.1
    have isOpen := (openPage_congr (pages _)).mpr (opens _ here)
    rw [if_pos here, isOpen.inPage.userByte, physical_same pages,
      Nat.add_sub_cancel_left]
    exact congrArg some (stored.here i (by omega))
  · rw [if_neg here, Vm.userByte, Vm.userByte, pages]
    cases hpage : Vm.page root v s with
    | none => rfl
    | some q =>
      obtain ⟨pa, flags⟩ := q
      apply congrArg some
      apply stored.away
      intro i hi same
      have byte : physical s root (va + i) = physical s root v := same.trans (physical_eq hpage).symm
      have := space.physical_inj (opens _ ⟨by omega, by omega⟩).inPage ⟨pa, flags, hpage⟩ byte
      omega

end Stored

/-! ### `copyinstr` -/

/-- What the copy of a string leaves behind: the text up to its NUL, or `max`
bytes without one. -/
inductive Delivered (m m' : Memory) (dst : Nat) (text : Nat → UInt8) (max : Nat) : Bool → Prop
  | whole {k : Nat} (short : k < max) (laid : Laid m m' (fun i => dst + i) text (k + 1))
      (nul : text k = 0) (before : ∀ i < k, text i ≠ 0) : Delivered m m' dst text max true
  | cut (laid : Laid m m' (fun i => dst + i) text max) (clean : ∀ i < max, text i ≠ 0) :
      Delivered m m' dst text max false

namespace Delivered

variable {m m' m'' : Memory} {dst max n : Nat} {text text' : Nat → UInt8} {got : Bool}

theorem congr (h : Delivered m m' dst text max got) (same : ∀ i < max, text' i = text i) :
    Delivered m m' dst text' max got := by
  cases h with
  | whole short laid nul before =>
    apply Delivered.whole short
    · exact laid.congr (fun _ _ => rfl) fun i hi => same i (by omega)
    · rw [same _ short, nul]
    · intro i hi
      rw [same i (by omega)]
      exact before i hi
  | cut laid clean =>
    apply Delivered.cut
    · exact laid.congr (fun _ _ => rfl) same
    · intro i hi
      rw [same i hi]
      exact clean i hi

/-- A piece without a NUL, and what follows it. -/
theorem append (first : Delivered m m' dst text n false)
    (rest : Delivered m' m'' (dst + n) (fun i => text (n + i)) max got) :
    Delivered m m'' dst text (n + max) got := by
  obtain - | ⟨early, clean⟩ := first
  cases rest with
  | @whole k short laid nul before =>
    apply Delivered.whole (k := n + k) (by omega)
    · rw [Nat.add_assoc]
      apply early.append
      · exact laid.congr (fun i _ => (Nat.add_assoc dst n i).symm) fun _ _ => rfl
      · intro i hi j hj
        omega
    · exact nul
    · intro i hi
      by_cases here : i < n
      · exact clean i here
      · obtain ⟨j, rfl⟩ := Nat.exists_eq_add_of_le (Nat.le_of_not_lt here)
        exact before j (by omega)
  | cut laid clean' =>
    apply Delivered.cut
    · apply early.append
      · exact laid.congr (fun i _ => (Nat.add_assoc dst n i).symm) fun _ _ => rfl
      · intro i hi j hj
        omega
    · intro i hi
      by_cases here : i < n
      · exact clean i here
      · obtain ⟨j, rfl⟩ := Nat.exists_eq_add_of_le (Nat.le_of_not_lt here)
        exact clean' j (by omega)

end Delivered

theorem storeByte_run {a : Nat} (h : mapped a = true) (b : UInt8) (s : Ram) :
    storeByte a b s = .ok ((), s.setMem (s.mem.fill a 1 b)) := by
  rw [storeByte, Machine.bind_of_ok (Machine.get_run s), if_pos h]
  rfl

theorem copyinstrBytes_delivered {i p dst n : Nat} (reach : ∀ j < n, mapped (p + j) = true)
    (room : ∀ j < n, mapped (dst + j) = true) (apart : ∀ j < n, ∀ l < n, dst + j ≠ p + l) :
    ∃ got t, copyinstrBytes va i p dst n s = .ok (got, t) ∧
      Delivered s.mem t.mem dst (fun j => s.mem (p + j)) n got := by
  induction n generalizing s i p dst with
  | zero =>
    refine ⟨false, s, rfl, .cut .nil ?_⟩
    intro j hj
    omega
  | succ n ih =>
    have hp : mapped p = true := reach 0 n.succ_pos
    have hd : mapped dst = true := room 0 n.succ_pos
    let s₁ : Ram := { s with touched := (va + i, p) :: s.touched }
    have touched : touch (va + i) p 1 s = .ok ((), s₁) := rfl
    rw [copyinstrBytes, Machine.bind_of_ok touched, Machine.bind_of_ok (loadByte_run hp s₁)]
    by_cases nul : s₁.mem p = 0
    · rw [if_pos nul, Machine.bind_of_ok (storeByte_run hd 0 s₁)]
      refine ⟨true, _, rfl, .whole (k := 0) n.succ_pos ?_ nul ?_⟩
      · apply (Laid.fill s.mem dst 0).congr (fun _ _ => rfl)
        intro j hj
        rw [Nat.lt_one_iff.mp hj]
        exact nul
      · intro j hj
        omega
    · let s₂ := s₁.setMem (s₁.mem.fill dst 1 (s₁.mem p))
      have first : Delivered s.mem s₂.mem dst (fun j => s.mem (p + j)) 1 false := by
        apply Delivered.cut
        · apply (Laid.fill s.mem dst (s.mem p)).congr (fun _ _ => rfl)
          intro j hj
          rw [Nat.lt_one_iff.mp hj, Nat.add_zero]
        · intro j hj
          rw [Nat.lt_one_iff.mp hj]
          exact nul
      have reach' : ∀ j < n, mapped (p + 1 + j) = true := by
        intro j hj
        rw [Nat.add_assoc]
        exact reach (1 + j) (by omega)
      have room' : ∀ j < n, mapped (dst + 1 + j) = true := by
        intro j hj
        rw [Nat.add_assoc]
        exact room (1 + j) (by omega)
      obtain ⟨got, t, hrun, rest⟩ := ih (s := s₂) (i := i + 1) reach' room' fun j hj l hl => by
        have := apart (j + 1) (by omega) (l + 1) (by omega)
        omega
      rw [if_neg nul, Machine.bind_of_ok (storeByte_run hd _ s₁)]
      refine ⟨got, t, hrun, ?_⟩
      rw [Nat.add_comm n 1]
      apply first.append
      apply rest.congr
      intro j hj
      have ne := apart 0 (by omega) (1 + j) (by omega)
      rw [Nat.add_assoc]
      exact (s.mem.fill_outside (by omega)).symm

theorem Private.keeps_of_laid {dst n : Nat} {value : Nat → UInt8}
    (buffer : Private s root node dst n) (laid : Laid s.mem t.mem (fun i => dst + i) value n) :
    Keeps root node s t where
  table := sameTable_of_laid laid buffer.apart
  data := by
    intro v pa flags hpage off hoff
    apply laid.away
    intro i hi same
    have := buffer.hidden i hi v pa flags hpage
    omega

theorem Delivered.keeps {dst max : Nat} {text : Nat → UInt8} {got : Bool}
    (delivered : Delivered s.mem t.mem dst text max got) (buffer : Private s root node dst max) :
    Keeps root node s t := by
  cases delivered with
  | whole short laid => exact (buffer.take short).keeps_of_laid laid
  | cut laid => exact buffer.keeps_of_laid laid

/-- The bytes from an address on. -/
def userText (s : Ram) (root va i : Nat) : UInt8 := (userByte s root (va + i)).getD 0

theorem InPage.userText {i : Nat} (within : InPage s root (va + i)) :
    userText s root va i = s.mem (physical s root (va + i)) := by
  rw [Vm.userText, within.userByte]
  rfl

/-- Page after page, up to the first NUL or the limit. -/
theorem copyinstr_delivered {dst max : Nat} (tree : Tree s.mem root node)
    (opens : ∀ v, string s root va max v → OpenPage s root v)
    (buffer : Private s root node dst max) :
    ∃ got t, copyinstr root dst va max s = .ok (if got then 0 else -1, t) ∧
      Delivered s.mem t.mem dst (userText s root va) max got := by
  induction max using Nat.strong_induction_on generalizing s dst va with
  | _ max ih =>
    rw [copyinstr]
    by_cases done : max = 0
    · subst done
      refine ⟨false, s, rfl, .cut .nil ?_⟩
      intro i hi
      omega
    · have chunk := chunk_pos va
      have start : string s root va max va := ⟨⟨le_refl va, by omega⟩, fun w _ _ => by omega⟩
      obtain ⟨pa, hwalk, found, here, window, next, along⟩ := chunk_open tree (opens va start)
      rw [if_neg done, Machine.bind_of_ok hwalk, if_neg found]
      simp only [here, window, next]
      generalize hn : min (PGSIZE - (va - PGROUNDDOWN va)) max = n
      have inside : n ≤ PGSIZE - (va - PGROUNDDOWN va) := by omega
      have short : n ≤ max := by omega
      have first : ∀ i < n, physical s root (va + i) = physical s root va + i := fun i hi =>
        (along i (by omega)).2
      have within : ∀ i < n, InPage s root (va + i) := fun i hi => (along i (by omega)).1.inPage
      obtain ⟨got, t, hrun, delivered⟩ := @copyinstrBytes_delivered s va 0 _ _ _
        (fun i hi => first i hi ▸ physical_mapped (within i hi)) (buffer.take short).mapped
        fun i hi j hj eq => buffer.away (by omega) (within j hj) ((first j hj).trans eq.symm)
      have text : Delivered s.mem t.mem dst (userText s root va) n got :=
        delivered.congr fun i hi => by rw [(within i hi).userText, first i hi]
      rw [Machine.bind_of_ok hrun]
      have keeps := text.keeps (buffer.take short)
      cases text with
      | @whole k early laid nul before =>
        exact ⟨true, t, rfl, .whole (by omega) laid nul before⟩
      | cut laid clean =>
        have plain : ∀ w, span va n w → userByte s root w ≠ some 0 := by
          intro w hw
          obtain ⟨i, rfl⟩ := Nat.exists_eq_add_of_le hw.1
          have hi : i < n := by
            have := hw.2
            omega
          intro zero
          apply clean i hi
          rw [userText, zero]
          rfl
        have opens' : ∀ v, string t root (va + n) (max - n) v → OpenPage t root v := by
          intro v hv
          rw [string_keeps tree keeps] at hv
          exact (openPage_congr (keeps.page tree v)).mpr
            (opens v ((string_tail plain short v).mpr (.inr hv)))
        have rest : ∃ got u,
            copyinstr root (dst + n) (va + (PGSIZE - (va - PGROUNDDOWN va))) (max - n) t =
              .ok (if got then 0 else -1, u) ∧
            Delivered t.mem u.mem (dst + n) (fun i => userText s root va (n + i)) (max - n) got := by
          by_cases last : n = max
          · rw [last, Nat.sub_self, copyinstr, if_pos rfl]
            refine ⟨false, t, rfl, .cut .nil ?_⟩
            intro i hi
            omega
          · have full : n = PGSIZE - (va - PGROUNDDOWN va) := by omega
            obtain ⟨got, u, hrest, later⟩ := ih (max - n) (by omega) (tree.same keeps.table) opens'
              ((buffer.skip short).keeps tree keeps)
            rw [← full]
            refine ⟨got, u, hrest, later.congr ?_⟩
            intro i _
            rw [userText, userText, keeps.userByte tree, Nat.add_assoc]
        obtain ⟨got, u, hrest, later⟩ := rest
        refine ⟨got, u, hrest, ?_⟩
        rw [← Nat.add_sub_cancel' short]
        exact (Delivered.cut laid clean).append later

/-! ### Out and in again -/

theorem mapped_above {a : Nat} (h : mapped a = true) : PROCVKSTACK (NPROC - 1) ≤ a := by
  simp only [mapped, Bool.or_eq_true, beq_iff_eq, Bool.and_eq_true, decide_eq_true_eq,
    List.any_eq_true, List.mem_range, Nat.shiftRight_eq_div_pow] at h
  have lowest : PROCVKSTACK (NPROC - 1) < 2 ^ 60 := by decide
  rcases h with (((top | top) | h) | h) | ⟨p, hp, h⟩
  · omega
  · omega
  · exact le_trans (by decide) h.1
  · exact le_trans (by decide) h.1
  · refine le_trans ?_ h.1
    have number : (p + 1) % (NPROC + 1) = p + 1 := Nat.mod_eq_of_lt (by omega)
    have before : p + 1 ≤ (NPROC - 1 + 1) % (NPROC + 1) := hp
    rw [PROCVKSTACK, PROCVKSTACK, number]
    exact Nat.add_le_add_right (Nat.sub_le_sub_left (Nat.mul_le_mul_right _ before) _) _

/-- The string at `va` ends with its first NUL, `k` bytes further on. -/
def Ends (s : Ram) (root va k : Nat) : Prop :=
  userByte s root (va + k) = some 0 ∧ ∀ i < k, userByte s root (va + i) ≠ some 0

theorem string_of_before {max i : Nat} (short : i < max)
    (before : ∀ j < i, userByte s root (va + j) ≠ some 0) : string s root va max (va + i) := by
  refine ⟨⟨by omega, by omega⟩, ?_⟩
  intro w above below
  obtain ⟨j, rfl⟩ := Nat.exists_eq_add_of_le above
  exact before j (by omega)

theorem ends_iff {max k : Nat} (opens : ∀ v, string s root va max v → OpenPage s root v)
    (short : k < max) :
    Ends s root va k ↔ userText s root va k = 0 ∧ ∀ i < k, userText s root va i ≠ 0 := by
  have byte : ∀ i < max, (∀ j < i, userByte s root (va + j) ≠ some 0) →
      userByte s root (va + i) = some (userText s root va i) := by
    intro i hi before
    have within := (opens _ (string_of_before hi before)).inPage
    rw [within.userText, within.userByte]
  constructor
  · rintro ⟨nul, before⟩
    constructor
    · rw [userText, nul]
      rfl
    · intro i hi zero
      apply before i hi
      rw [byte i (by omega) fun j hj => before j (by omega), zero]
  · rintro ⟨nul, before⟩
    have before' : ∀ i < k, userByte s root (va + i) ≠ some 0 := by
      intro i hi zero
      apply before i hi
      rw [userText, zero]
      rfl
    refine ⟨?_, before'⟩
    rw [byte k short before', nul]

/-- What is written out comes back in, and the flat row of bytes changes in the
range only; a string comes in up to its NUL if that is within the limit. -/
theorem copy_round_trip (space : UserSpace s root node) :
    (∀ va len src dst, va + len ≤ MAXVA → (∀ v, span va len v → UserPage s root v) →
      mapped src = true → Private s root node src len → Private s root node dst len →
      ∃ t u, copyout root va src len s = .ok (0, t) ∧ copyin root dst va len t = .ok (0, u) ∧
        u.mem.window dst len = s.mem.window src len ∧
        (∀ v, userByte t root v =
          if va ≤ v ∧ v < va + len then some (s.mem (src + (v - va))) else userByte s root v) ∧
        ∀ v, userByte u root v = userByte t root v) ∧
    ∀ va max dst, (∀ v, string s root va max v → UserPage s root v) →
      Private s root node dst max →
      (∀ k < max, Ends s root va k → ∃ t, copyinstr root dst va max s = .ok (0, t) ∧
        (∀ i ≤ k, some (t.mem (dst + i)) = userByte s root (va + i)) ∧
        ∀ a, a < dst ∨ dst + k < a → t.mem a = s.mem a) ∧
      ((∀ k < max, ¬Ends s root va k) → ∃ t, copyinstr root dst va max s = .ok (-1, t) ∧
        ∀ v, userByte t root v = userByte s root v) := by
  constructor
  · intro va len src dst low user kernel source target
    have opens : ∀ v, span va len v → OpenPage s root v := fun v hv => (user v hv).isOpen
    obtain ⟨t, out, stored⟩ :=
      copyout_stored space (by omega) opens (mapped_above kernel) source
    have table := stored.sameTable space opens
    have pages := stored.page space opens
    have space' := space.same table
    have opens' : ∀ v, span va len v → OpenPage t root v := fun v hv =>
      (openPage_congr (pages v)).mpr (opens v hv)
    have target' : Private t root node dst len :=
      ⟨target.toBuffer, fun i hi v pa flags hp => target.hidden i hi v pa flags (by rwa [← pages])⟩
    obtain ⟨u, back, laid⟩ := copyin_laid space' (by omega) opens' target'
    refine ⟨t, u, out, back, ?_, stored.userByte space opens, ?_⟩
    · apply Memory.window_eq
      intro i hi
      rw [laid.here i hi, physical_same pages]
      exact stored.here i hi
    · exact (target'.keeps_of_laid laid).userByte space'.tree
  · intro va max dst user buffer
    have opens : ∀ v, string s root va max v → OpenPage s root v := fun v hv => (user v hv).isOpen
    obtain ⟨got, t, run, delivered⟩ := copyinstr_delivered space.tree opens buffer
    have keeps := delivered.keeps buffer
    constructor
    · intro k short ends
      obtain ⟨nul, before⟩ := (ends_iff opens short).mp ends
      cases delivered with
      | @whole l early laid zero plain =>
        obtain rfl : l = k := by
          rcases Nat.lt_trichotomy l k with less | same | more
          · exact absurd zero (before l less)
          · exact same
          · exact absurd nul (plain k more)
        refine ⟨t, run, fun i hi => ?_, fun a out => laid.outside (by omega)⟩
        have needed : string s root va max (va + i) :=
          string_of_before (by omega) fun j hj => ends.2 j (by omega)
        have within := (opens _ needed).inPage
        rw [laid.here i (by omega), within.userText, within.userByte]
      | cut laid clean => exact absurd nul (clean k short)
    · intro never
      cases delivered with
      | whole early laid zero plain =>
        exact absurd ((ends_iff opens early).mpr ⟨zero, plain⟩) (never _ early)
      | cut laid clean => exact ⟨t, run, keeps.userByte space.tree⟩

/-! ### A table with one user page -/

theorem oneMapping_space : ∃ node, UserSpace oneMapping RAMBASE node ∧
    ∀ p, node.Has p ↔ p ∈ oneMappingPages := by
  obtain ⟨node, refined⟩ := oneMapping_built.refines
  have only : ∀ {v pa perm}, PageMap.mapRange (fun _ => none) 0 1 RAMSTOP PTE_PLV3 v = some (pa, perm) →
      v = 0 ∧ pa = RAMSTOP := by
    intro v pa perm hm
    rw [PageMap.mapRange] at hm
    split at hm
    · next inside =>
      obtain rfl : v = 0 := by omega
      cases hm
      exact ⟨rfl, rfl⟩
    · cases hm
  refine ⟨node, refined.tree.space refined.entries refined.frames ?_ ?_, refined.pages⟩
  · intro v pa perm hm
    rw [refined.pages, (only hm).2]
    decide
  · intro v w pa perm perm' hv hw
    rw [(only hv).1, (only hw).1]

theorem oneMapping_user {v : Nat} (low : v < PGSIZE) : UserPage oneMapping RAMBASE v := by
  obtain ⟨node, refined⟩ := oneMapping_built.refines
  have below : v < MAXVA := lt_trans low (by decide)
  have number : v / PGSIZE = 0 := Nat.div_eq_of_lt low
  have found := refined.translation below
  rw [number] at found
  exact ⟨_, _, (if_pos below).trans found, by decide⟩

/-- Kernel memory that is neither the table's nor its page's. -/
theorem oneMapping_private {node : Nodes} (pages : ∀ p, node.Has p ↔ p ∈ oneMappingPages) {a n : Nat}
    (above : RAMSTOP + PGSIZE ≤ a) (below : a + n ≤ RAMSTOP + 3 * PGSIZE) :
    Private oneMapping RAMBASE node a n where
  mapped := by
    intro i hi
    have base : RAMSTOP = 9 * 2 ^ 60 + 0x98000000 := by decide
    have top : (a + i) >>> 60 = 9 := by
      rw [Nat.shiftRight_eq_div_pow]
      rw [PGSIZE] at *
      omega
    rw [Vm.mapped, top]
    rfl
  apart := by
    intro i hi p has
    have low : ∀ p ∈ oneMappingPages, p + PGSIZE ≤ RAMSTOP + PGSIZE := by decide
    have := low p ((pages p).mp has)
    omega
  hidden := by
    intro i hi va pa flags hpage
    rw [(oneMapping_page hpage).1]
    omega

/-- Eight bytes out to the end of page 0 and in again. -/
theorem copy_round_trip_oneMapping :
    ∃ t u, copyout RAMBASE 4088 (RAMSTOP + PGSIZE) 8 oneMapping = .ok (0, t) ∧
      copyin RAMBASE (RAMSTOP + 2 * PGSIZE) 4088 8 t = .ok (0, u) ∧
      u.mem.window (RAMSTOP + 2 * PGSIZE) 8 = oneMapping.mem.window (RAMSTOP + PGSIZE) 8 := by
  obtain ⟨node, space, pages⟩ := oneMapping_space
  obtain ⟨t, u, out, back, same, -⟩ := (copy_round_trip space).1 4088 8 (RAMSTOP + PGSIZE)
    (RAMSTOP + 2 * PGSIZE) (by decide)
    (fun v hv => oneMapping_user (by have := hv.2; rw [PGSIZE]; omega)) (by decide)
    (oneMapping_private pages (by decide) (by decide))
    (oneMapping_private pages (by decide) (by decide))
  exact ⟨t, u, out, back, same⟩

end AvxKernel.Vm
