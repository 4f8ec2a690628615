import AvxKernel.Vm.Paging

/-! A four-level table as a tree of pages. A node is a page, known by its level
and by the part of the address above the bits that its own index uses; the
entries of a page agree with the nodes below it. `walk` finds its way by the
nodes, and grows the tree only where the tree ends. -/
namespace AvxKernel.Vm

/-- The table pages: level and address prefix. -/
abbrev Nodes := Nat → Nat → Option Nat

/-- The part of an address that picks the table page of a level. -/
def above (level va : Nat) : Nat := va / 2 ^ PXSHIFT (level + 1)

structure Tree (mem : Memory) (root : Nat) (node : Nodes) : Prop where
  root : node 3 0 = some root
  frame : ∀ {l p a}, node l p = some a → Frame a
  apart : ∀ {l p l' p' a}, node l p = some a → node l' p' = some a → l = l' ∧ p = p'
  entry : ∀ {l p a}, l < 3 → node (l + 1) p = some a → ∀ i < 512,
    match node l (p * 512 + i) with
    | some b => mem.fetch (a + 8 * i) 8 &&& PTE_V ≠ 0 ∧ PTE2PA (mem.fetch (a + 8 * i) 8) = b
    | none => mem.fetch (a + 8 * i) 8 &&& PTE_V = 0
  parent : ∀ {l q b}, l < 3 → node l q = some b → ∃ a, node (l + 1) (q / 512) = some a

/-- The entry that translates an address, or 0 where the tree ends. -/
def entryAt (mem : Memory) (node : Nodes) (va : Nat) : Nat :=
  match node 0 (above 0 va) with
  | some a => mem.fetch (a + 8 * PX 0 va) 8
  | none => 0

theorem above_succ (l va : Nat) : above l va = above (l + 1) va * 512 + PX (l + 1) va := by
  have split : va / 2 ^ PXSHIFT (l + 1 + 1) = va / 2 ^ PXSHIFT (l + 1) / 512 := by
    rw [Nat.div_div_eq_div_mul, show 512 = 2 ^ 9 by rfl, ← Nat.pow_add]
    rfl
  rw [above, above, PX_eq, split]
  omega

theorem above_top {va : Nat} (h : va < MAXVA) : above 3 va = 0 :=
  Nat.div_eq_of_lt (lt_of_lt_of_le (show va < 2 ^ 46 from h) (by decide))

/-- Two addresses with the same leaf entry lie on one page. -/
theorem page_of_index (va : Nat) : va / PGSIZE = above 0 va * 512 + PX 0 va := by
  rw [above, PX_eq, PGSIZE, PXSHIFT, PXSHIFT]
  omega

variable {mem mem' : Memory} {root : Nat} {node : Nodes} {s t : Ram}

section Tree

variable (tree : Tree mem root node)
include tree

theorem Tree.above_none {va l : Nat} (hl : l < 3) (h : node (l + 1) (above (l + 1) va) = none) :
    node l (above l va) = none := by
  cases hn : node l (above l va) with
  | none => rfl
  | some b =>
    obtain ⟨a, ha⟩ := tree.parent hl hn
    have : above l va / 512 = above (l + 1) va := by
      have := PX_lt (l + 1) va
      rw [above_succ]
      omega
    rw [this, h] at ha
    cases ha

theorem Tree.leaf_none {va l : Nat} (hl : l ≤ 3) (h : node l (above l va) = none) :
    node 0 (above 0 va) = none := by
  induction l with
  | zero => exact h
  | succ l ih => exact ih (by omega) (tree.above_none (by omega) h)

theorem Tree.step {va l a : Nat} (hl : l < 3) (h : node (l + 1) (above (l + 1) va) = some a) :
    match node l (above l va) with
    | some b => mem.fetch (a + 8 * PX (l + 1) va) 8 &&& PTE_V ≠ 0 ∧
        PTE2PA (mem.fetch (a + 8 * PX (l + 1) va) 8) = b
    | none => mem.fetch (a + 8 * PX (l + 1) va) 8 &&& PTE_V = 0 := by
  have := tree.entry hl h (PX (l + 1) va) (PX_lt _ _)
  rwa [← above_succ] at this

/-- The bytes of the table pages decide the table. -/
theorem Tree.congr (same : ∀ {l p a}, node l p = some a → ∀ i < PGSIZE, mem' (a + i) = mem (a + i)) :
    Tree mem' root node where
  root := tree.root
  frame := tree.frame
  apart := tree.apart
  parent := tree.parent
  entry := by
    intro l p a hl ha i hi
    have keep : mem'.fetch (a + 8 * i) 8 = mem.fetch (a + 8 * i) 8 := by
      apply Memory.fetch_congr
      intro j hj
      rw [Nat.add_assoc]
      exact same ha _ (by rw [PGSIZE]; omega)
    rw [keep]
    exact tree.entry hl ha i hi

omit tree in
theorem entryAt_congr (va : Nat)
    (same : ∀ {p a}, node 0 p = some a → ∀ i < PGSIZE, mem' (a + i) = mem (a + i)) :
    entryAt mem' node va = entryAt mem node va := by
  simp only [entryAt]
  cases hn : node 0 (above 0 va) with
  | none => rfl
  | some a =>
    apply Memory.fetch_congr
    intro j hj
    have := PX_lt 0 va
    rw [Nat.add_assoc]
    exact same hn _ (by rw [PGSIZE]; omega)

end Tree

/-! ### Finding an entry -/

@[simp] theorem load_run (a : Nat) (s : Ram) : load a s = .ok (s.mem.fetch a 8, s) := rfl

@[simp] theorem store_run (a v : Nat) (s : Ram) :
    store a v s = .ok ((), s.setMem (s.mem.store a 8 v)) := rfl

@[simp] theorem memset_run (dst c n : Nat) (s : Ram) :
    memset dst c n s = .ok ((), s.setMem (s.mem.fill dst n (UInt8.ofNat c))) := rfl

theorem frame_window {pa : Nat} (h : Frame pa) : pa ||| DMWIN_MASK = pa := by
  obtain ⟨x, _, _, rfl⟩ := h
  rw [Nat.or_comm, ← Nat.or_assoc, Nat.or_self]

theorem walkLevels_find (tree : Tree s.mem root node) {va l a : Nat} (hl : l ≤ 3)
    (h : node l (above l va) = some a) :
    walkLevels false va l a s =
      .ok ((node 0 (above 0 va)).elim 0 (fun b => b + 8 * PX 0 va), s) := by
  induction l generalizing a with
  | zero => rw [h, walkLevels, Machine.pure_run, Option.elim_some]
  | succ l ih =>
    have step := tree.step (by omega) h
    rw [walkLevels, Machine.bind_of_ok (load_run _ s)]
    cases hn : node l (above l va) with
    | some b =>
      simp only [hn] at step
      rw [if_pos step.1, step.2, frame_window (tree.frame hn)]
      exact ih (by omega) hn
    | none =>
      simp only [hn] at step
      rw [if_neg (by simpa using step), if_pos rfl, tree.leaf_none (by omega) hn,
        Machine.pure_run, Option.elim_none]

theorem walk_find (tree : Tree s.mem root node) {va : Nat} (h : va < MAXVA) :
    walk root va false s = .ok ((node 0 (above 0 va)).elim 0 (fun b => b + 8 * PX 0 va), s) := by
  rw [walk, if_neg (by simp [window_of_lt h]), if_neg (by omega)]
  exact walkLevels_find tree (Nat.le_refl 3) (by rw [above_top h, tree.root])

/-! ### Growing the tree -/

/-- Entries of different pages share no byte. -/
theorem Frame.entries_apart {a b i j : Nat} (ha : Frame a) (hb : Frame b) (ne : b ≠ a)
    (hi : i < 512) (hj : j < 512) : b + 8 * j + 8 ≤ a + 8 * i ∨ a + 8 * i + 8 ≤ b + 8 * j := by
  obtain ⟨k, _, hk⟩ := ha.eq_add
  obtain ⟨k', _, hk'⟩ := hb.eq_add
  rw [PGSIZE] at hk hk'
  omega

def Nodes.graft (node : Nodes) (l q r : Nat) : Nodes := fun l' q' =>
  if l' = l ∧ q' = q then some r else node l' q'

section Tree

variable (tree : Tree mem root node)
include tree

theorem Tree.entries_apart {l p a i l' p' b j : Nat} (ha : node l p = some a)
    (hb : node l' p' = some b) (ne : b ≠ a) (hi : i < 512) (hj : j < 512) :
    b + 8 * j + 8 ≤ a + 8 * i ∨ a + 8 * i + 8 ≤ b + 8 * j :=
  (tree.frame ha).entries_apart (tree.frame hb) ne hi hj

variable {l p a i r : Nat} (hl : l < 3) (ha : node (l + 1) p = some a) (hi : i < 512)
  (gap : node l (p * 512 + i) = none) (hr : Frame r) (fresh : ∀ l q, node l q ≠ some r)
  (zero : ∀ j < 512, mem'.fetch (r + 8 * j) 8 = 0) (link : mem'.fetch (a + 8 * i) 8 = pde r)
  (rest : ∀ x, (x < r ∨ r + PGSIZE ≤ x) → (x < a + 8 * i ∨ a + 8 * i + 8 ≤ x) → mem' x = mem x)

include hr fresh rest in
theorem Tree.graft_kept {l' p' b j : Nat} (hb : node l' p' = some b) (hj : j < 512)
    (away : b + 8 * j + 8 ≤ a + 8 * i ∨ a + 8 * i + 8 ≤ b + 8 * j) :
    mem'.fetch (b + 8 * j) 8 = mem.fetch (b + 8 * j) 8 := by
  apply Memory.fetch_congr
  intro k hk
  have ne : b ≠ r := by
    rintro rfl
    exact fresh l' p' hb
  rw [Nat.add_assoc]
  refine rest _ ?_ (by omega)
  exact (tree.frame hb).disjoint hr ne ⟨by omega, by rw [PGSIZE]; omega⟩

include hl ha hi gap hr fresh zero link rest

/-- A zeroed page hung under an empty entry. -/
theorem Tree.graft : Tree mem' root (node.graft l (p * 512 + i) r) where
  root := by
    have : ¬(3 = l ∧ 0 = p * 512 + i) := by omega
    rw [Nodes.graft, if_neg this, tree.root]
  frame := by
    intro l' p' b hb
    rw [Nodes.graft] at hb
    split at hb
    · cases hb
      exact hr
    · exact tree.frame hb
  apart := by
    intro l₁ p₁ l₂ p₂ b h₁ h₂
    rw [Nodes.graft] at h₁ h₂
    split at h₁ <;> split at h₂
    · omega
    · cases h₁
      exact absurd h₂ (fresh _ _)
    · cases h₂
      exact absurd h₁ (fresh _ _)
    · exact tree.apart h₁ h₂
  parent := by
    intro l' q b hl' hb
    rw [Nodes.graft] at hb
    split at hb
    · rename_i here
      obtain ⟨rfl, rfl⟩ := here
      have above : (p * 512 + i) / 512 = p := by omega
      have away : ¬(l' + 1 = l' ∧ p = p * 512 + i) := by omega
      exact ⟨a, by rw [above, Nodes.graft, if_neg away, ha]⟩
    · obtain ⟨c, hc⟩ := tree.parent hl' hb
      rw [Nodes.graft]
      split
      · exact ⟨r, rfl⟩
      · exact ⟨c, hc⟩
  entry := by
    intro l' p' b hl' hb j hj
    rw [Nodes.graft] at hb
    split at hb
    · rename_i here
      cases hb
      -- the new page has no entries, and nothing was below it
      have below : node.graft l (p * 512 + i) r l' (p' * 512 + j) = none := by
        have away : ¬(l' = l ∧ p' * 512 + j = p * 512 + i) := by omega
        rw [Nodes.graft, if_neg away]
        cases hn : node l' (p' * 512 + j) with
        | none => rfl
        | some c =>
          obtain ⟨d, hd⟩ := tree.parent hl' hn
          have : (p' * 512 + j) / 512 = p' := by omega
          rw [this, here.1, here.2, gap] at hd
          cases hd
      rw [below]
      simp only [zero j hj, Nat.zero_and]
    · rename_i away
      by_cases here : b = a
      · subst b
        obtain ⟨level, prefix'⟩ := tree.apart hb ha
        obtain rfl : l' = l := by omega
        subst p'
        by_cases slot : j = i
        · subst j
          rw [Nodes.graft, if_pos ⟨rfl, rfl⟩, link]
          exact ⟨pde_valid r, PTE2PA_pde hr⟩
        · have other : ¬(l' = l' ∧ p * 512 + j = p * 512 + i) := by omega
          rw [Nodes.graft, if_neg other, tree.graft_kept hr fresh rest ha hj (by omega)]
          exact tree.entry hl ha j hj
      · have other : ¬(l' = l ∧ p' * 512 + j = p * 512 + i) := by
          rintro ⟨rfl, same⟩
          obtain rfl : p' = p := by omega
          rw [ha] at hb
          exact here (Option.some.inj hb).symm
        rw [Nodes.graft, if_neg other,
          tree.graft_kept hr fresh rest hb hj (tree.entries_apart ha hb here hi hj)]
        exact tree.entry hl' hb j hj

theorem Tree.graft_entryAt (va : Nat) :
    entryAt mem' (node.graft l (p * 512 + i) r) va = entryAt mem node va := by
  simp only [entryAt, Nodes.graft]
  by_cases here : 0 = l ∧ above 0 va = p * 512 + i
  · obtain ⟨rfl, same⟩ := here
    rw [if_pos ⟨rfl, same⟩, same, gap]
    exact zero (PX 0 va) (PX_lt 0 va)
  · rw [if_neg here]
    cases hb : node 0 (above 0 va) with
    | none => rfl
    | some b =>
      have ne : b ≠ a := by
        rintro rfl
        have := (tree.apart hb ha).1
        omega
      exact tree.graft_kept hr fresh rest hb (PX_lt 0 va) (tree.entries_apart ha hb ne hi (PX_lt 0 va))

end Tree

/-- A new value for one leaf entry. -/
theorem Tree.setLeaf (tree : Tree mem root node) {va b : Nat} (v : Nat)
    (hb : node 0 (above 0 va) = some b) :
    Tree (mem.store (b + 8 * PX 0 va) 8 v) root node where
  root := tree.root
  frame := tree.frame
  apart := tree.apart
  parent := tree.parent
  entry := by
    intro l p a hl ha i hi
    have ne : a ≠ b := by
      rintro rfl
      have := (tree.apart ha hb).1
      omega
    rw [Memory.fetch_store_other _ (tree.entries_apart hb ha ne (PX_lt 0 va) hi)]
    exact tree.entry hl ha i hi

theorem Tree.setLeaf_entryAt (tree : Tree mem root node) {va b v : Nat} (small : v < 2 ^ 64)
    (hb : node 0 (above 0 va) = some b) (x : Nat) :
    entryAt (mem.store (b + 8 * PX 0 va) 8 v) node x =
      if x / PGSIZE = va / PGSIZE then v else entryAt mem node x := by
  have hx := page_of_index x
  have hva := page_of_index va
  have hpx := PX_lt 0 x
  have hpva := PX_lt 0 va
  split
  · have same : above 0 x = above 0 va ∧ PX 0 x = PX 0 va := by omega
    rw [entryAt, same.1, same.2, hb]
    exact Memory.fetch_store_same _ small
  · simp only [entryAt]
    cases hc : node 0 (above 0 x) with
    | none => rfl
    | some c =>
      apply Memory.fetch_store_other
      by_cases ne : c = b
      · subst c
        have := (tree.apart hc hb).2
        omega
      · exact tree.entries_apart hb hc ne (PX_lt 0 va) (PX_lt 0 x)

/-! ### Walking with allocation -/

theorem kalloc_cases {r : Nat} (h : kalloc s = .ok (r, t)) :
    (r = 0 ∧ t = s) ∨
    (r ≠ 0 ∧ r = s.freelist ∧ t = { s with
      mem := s.mem.fill r PGSIZE 5
      freelist := s.mem.fetch r 8
      npage := u64 (s.npage + (2 ^ 64 - 1))
      allocated := r :: s.allocated }) := by
  rw [kalloc, Machine.bind_of_ok (Machine.get_run s)] at h
  split at h
  · simp only [Machine.pure_run, Except.ok.injEq, Prod.mk.injEq] at h
    exact .inl ⟨h.1.symm, h.2.symm⟩
  · rename_i some
    rw [Machine.bind_of_ok (load_run _ s), Machine.bind_of_ok (Machine.modify_run _ s),
      Machine.bind_of_ok (memset_run _ _ _ _), Machine.pure_run] at h
    simp only [Except.ok.injEq, Prod.mk.injEq] at h
    obtain ⟨rfl, rfl⟩ := h
    exact .inr ⟨some, rfl, rfl⟩

/-- A table page of the tree. -/
def Nodes.Has (node : Nodes) (page : Nat) : Prop := ∃ l p, node l p = some page

theorem Nodes.graft_has {l q r page : Nat} (gap : node l q = none) :
    (node.graft l q r).Has page ↔ node.Has page ∨ page = r := by
  constructor
  · rintro ⟨l', p', h⟩
    rw [Nodes.graft] at h
    split at h
    · exact .inr (Option.some.inj h).symm
    · exact .inl ⟨l', p', h⟩
  · rintro (⟨l', p', h⟩ | rfl)
    · refine ⟨l', p', ?_⟩
      rw [Nodes.graft, if_neg]
      · exact h
      · rintro ⟨rfl, rfl⟩
        rw [gap] at h
        cases h
    · exact ⟨l, q, by simp [Nodes.graft]⟩

/-- `walk` with allocation only ever adds to the log. -/
theorem walkLevels_log {alloc : Bool} {va l a pte : Nat}
    (h : walkLevels alloc va l a s = .ok (pte, t)) : ∃ new, t.allocated = new ++ s.allocated := by
  induction l generalizing a s with
  | zero =>
    rw [walkLevels, Machine.pure_run] at h
    cases h
    exact ⟨[], rfl⟩
  | succ l ih =>
    rw [walkLevels, Machine.bind_of_ok (load_run _ s)] at h
    split at h
    · exact ih h
    · split at h
      · cases h
        exact ⟨[], rfl⟩
      · obtain ⟨r, u, hr, rest⟩ := Machine.bind_ok.mp h
        rcases kalloc_cases hr with ⟨rfl, rfl⟩ | ⟨got, rfl, rfl⟩
        · rw [if_pos rfl] at rest
          cases rest
          exact ⟨[], rfl⟩
        · rw [if_neg got, Machine.bind_of_ok (memset_run _ _ _ _),
            Machine.bind_of_ok (store_run _ _ _)] at rest
          obtain ⟨new, hnew⟩ := ih rest
          exact ⟨new ++ [s.freelist], by simpa using hnew⟩

/-- What `walk` with allocation leaves: a tree that has the old pages and the new ones and
translates as before, whose root has at most a new link; and if the walk succeeds, it
reaches the leaf entry. -/
structure Grown (s t : Ram) (root : Nat) (node : Nodes) (new : List Nat) (va pte : Nat)
    (node' : Nodes) : Prop where
  tree : Tree t.mem root node'
  found : pte ≠ 0 → ∃ b, node' 0 (above 0 va) = some b ∧ pte = b + 8 * PX 0 va
  same : ∀ x, entryAt t.mem node' x = entryAt s.mem node x
  pages : ∀ page, node'.Has page ↔ node.Has page ∨ page ∈ new
  slots : ∀ i < 512, t.mem.fetch (root + 8 * i) 8 = s.mem.fetch (root + 8 * i) 8 ∨
    ∃ page, t.mem.fetch (root + 8 * i) 8 = pde page
  top : ∀ l q, 3 ≤ l → node' l q = node l q

theorem walkLevels_grow (tree : Tree s.mem root node) {va l a pte : Nat} {new : List Nat}
    (hl : l ≤ 3) (h : node l (above l va) = some a)
    (run : walkLevels true va l a s = .ok (pte, t))
    (log : t.allocated = new ++ s.allocated) (frames : ∀ page ∈ new, Frame page)
    (nodup : new.Nodup) (fresh : ∀ page ∈ new, ¬node.Has page) :
    ∃ node', Grown s t root node new va pte node' := by
  induction l generalizing s a node new with
  | zero =>
    rw [walkLevels, Machine.pure_run] at run
    cases run
    obtain rfl : new = [] := by simpa using log
    exact ⟨node, tree, fun _ => ⟨a, h, rfl⟩, fun _ => rfl, by simp, fun _ _ => .inl rfl,
      fun _ _ _ => rfl⟩
  | succ l ih =>
    have step := tree.step (by omega) h
    rw [walkLevels, Machine.bind_of_ok (load_run _ s)] at run
    cases hn : node l (above l va) with
    | some b =>
      simp only [hn] at step
      rw [if_pos step.1, step.2, frame_window (tree.frame hn)] at run
      exact ih tree (by omega) hn run log frames nodup fresh
    | none =>
      simp only [hn] at step
      rw [if_neg (by simpa using step), if_neg (by decide)] at run
      obtain ⟨r, u, hr, rest⟩ := Machine.bind_ok.mp run
      rcases kalloc_cases hr with ⟨rfl, rfl⟩ | ⟨got, rfl, rfl⟩
      · rw [if_pos rfl] at rest
        cases rest
        obtain rfl : new = [] := by simpa using log
        exact ⟨node, tree, fun ne => absurd rfl ne, fun _ => rfl, by simp, fun _ _ => .inl rfl,
          fun _ _ _ => rfl⟩
      · rw [if_neg got, Machine.bind_of_ok (memset_run _ _ _ _),
          Machine.bind_of_ok (store_run _ _ _)] at rest
        obtain ⟨later, hlater⟩ := walkLevels_log rest
        obtain rfl : new = later ++ [s.freelist] := by
          have : new ++ s.allocated = (later ++ [s.freelist]) ++ s.allocated := by
            rw [← log, hlater]
            simp
          exact List.append_cancel_right this
        obtain ⟨nodup', _, apart'⟩ := List.nodup_append.mp nodup
        have hr : Frame s.freelist := frames _ (by simp)
        have fresh' : ∀ l q, node l q ≠ some s.freelist :=
          fun l q hq => fresh s.freelist (by simp) ⟨l, q, hq⟩
        have ha := tree.frame h
        have ne' : s.freelist ≠ a := by
          rintro he
          exact fresh' _ _ (he ▸ h)
        have hpx := PX_lt (l + 1) va
        have gap : node l (above (l + 1) va * 512 + PX (l + 1) va) = none := by
          rw [← above_succ, hn]
        have zero : ∀ j < 512, (((s.mem.fill s.freelist PGSIZE 5).fill s.freelist PGSIZE 0).store
            (a + 8 * PX (l + 1) va) 8 (pde s.freelist)).fetch (s.freelist + 8 * j) 8 = 0 := by
          intro j hj
          rw [Memory.fetch_store_other _ (ha.entries_apart hr ne' hpx hj),
            Memory.fetch_fill_zero _ (by omega) (by rw [PGSIZE]; omega)]
        have link : (((s.mem.fill s.freelist PGSIZE 5).fill s.freelist PGSIZE 0).store
            (a + 8 * PX (l + 1) va) 8 (pde s.freelist)).fetch (a + 8 * PX (l + 1) va) 8 =
              pde s.freelist := Memory.fetch_store_same _ (pde_lt _)
        have outside : ∀ x, (x < s.freelist ∨ s.freelist + PGSIZE ≤ x) →
            (x < a + 8 * PX (l + 1) va ∨ a + 8 * PX (l + 1) va + 8 ≤ x) →
            (((s.mem.fill s.freelist PGSIZE 5).fill s.freelist PGSIZE 0).store
              (a + 8 * PX (l + 1) va) 8 (pde s.freelist)) x = s.mem x := by
          intro x out out'
          rw [Memory.store_outside _ out', Memory.fill_outside _ out, Memory.fill_outside _ out]
        have graft := tree.graft (by omega) h hpx gap hr fresh' zero link outside
        have keep := tree.graft_entryAt (by omega) h hpx gap hr fresh' zero link outside
        have has : ∀ page, (node.graft l _ s.freelist).Has page ↔ _ := fun _ => Nodes.graft_has gap
        obtain ⟨node', grown⟩ := ih graft (by omega) (by rw [above_succ l va, Nodes.graft, if_pos ⟨rfl, rfl⟩])
          rest hlater (fun page hp => frames page (List.mem_append_left _ hp)) nodup' (by
            intro page hp hpage
            rcases (has page).mp hpage with old | rfl
            · exact fresh page (List.mem_append_left _ hp) old
            · exact apart' _ hp _ (by simp) rfl)
        refine ⟨node', grown.tree, grown.found, fun x => (grown.same x).trans (keep x), fun page => ?_,
          fun i hi => ?_, fun l' q high => (grown.top l' q high).trans ?_⟩
        · rw [grown.pages, has, List.mem_append, List.mem_singleton, or_assoc,
            or_comm (a := page = s.freelist)]
        · -- the new page is not the root, and of the root's entries only the link is stored
          rcases grown.slots i hi with later | linked
          · rw [later]
            by_cases here : a = root ∧ PX (l + 1) va = i
            · obtain ⟨rfl, rfl⟩ := here
              exact .inr ⟨_, link⟩
            · refine .inl (tree.graft_kept hr fresh' outside tree.root hi ?_)
              by_cases same : root = a
              · subst same
                have : PX (l + 1) va ≠ i := fun eq => here ⟨rfl, eq⟩
                omega
              · exact tree.entries_apart h tree.root same hpx hi
          · exact .inr linked
        · rw [Nodes.graft, if_neg (by omega)]

end AvxKernel.Vm
