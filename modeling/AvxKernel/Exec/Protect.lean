import AvxKernel.Exec.Anonymous

/-! The permissions of mapped pages: those that `mmap` gives them, and those that
`sys_mprotect` gives them later. `experm` only ever adds flags. -/
namespace AvxKernel.Exec

open Vm

variable {s t : Ram} {root va perm n : Nat} {node : Nodes} {m : PageMap}

def experm (pagetable va perm : Nat) : Machine Ram Nat :=
  if MAXVA ≤ va then
    return 0
  else do
    let pte ← walk pagetable va false
    if pte = 0 then
      return 0
    else
      let entry ← load pte
      if entry &&& PTE_V = 0 then
        return 0
      else if entry &&& PTE_PLV3 = 0 then
        return 0
      else
        store pte (entry ||| perm)
        return PTE2PA (entry ||| perm)

/-- The permissions that `sys_mprotect` asks for. They are an `int` here too, so that there
is no bit to take away for `PROT_READ` and `PROT_EXEC`. -/
def mprotectPerm (prot : Nat) : Nat :=
  let perm := PTE_PLV3 ||| PTE_MAT ||| PTE_D
  let perm := if prot &&& PROT_WRITE ≠ 0 then perm ||| PTE_W else perm
  if prot &&& PROT_EXEC ≠ 0 then perm ||| PTE_MAT ||| PTE_P else perm

/-- The loop of `sys_mprotect`, from `va` on. -/
def mprotectFrom (pagetable perm : Nat) : Nat → Nat → Machine Ram Unit
  | 0, _ => return ()
  | n + 1, va => do
    let _ ← experm pagetable va perm
    mprotectFrom pagetable perm n (u64 (va + PGSIZE))

/-- `page_n`, an `int`: the rounds of the loop. -/
def protectedPages (len : Nat) : Nat :=
  let page_n := u32 (PGROUNDUP len >>> 12)
  if page_n < 2 ^ 31 then page_n else 0

def sys_mprotect {F : Type} (addr len prot : Nat) : Machine (Kernel F) Nat := do
  let p ← myproc
  onRam (mprotectFrom p.pagetable (mprotectPerm prot) (protectedPages len) addr)
  return 0

/-! ### The table as a map -/

theorem mprotectPerm_lt (prot : Nat) : mprotectPerm prot < 2 ^ 9 := by
  simp only [mprotectPerm]
  split_ifs <;> decide

/-- Other permissions for the pages that are there. -/
def regrant (m : PageMap) (f : Nat → Nat → Nat) : PageMap := fun x =>
  (m x).map fun (pa, perm) => (pa, f x perm)

theorem regrant_regrant (f g : Nat → Nat → Nat) :
    regrant (regrant m f) g = regrant m fun x perm => g x (f x perm) := by
  funext x
  simp only [regrant, Option.map_map]
  rfl

theorem leaf_or (pa old perm : Nat) : leaf pa old ||| perm = leaf pa (old ||| perm) := by
  simp only [leaf, Nat.or_assoc, Nat.or_comm perm]

/-- The flags that neither the frame nor `mappages` sets are those of the permissions. -/
theorem flags_and {mask : Nat} (old : Nat) (apart : (PTE_V ||| PTE_MAT ||| PTE_D) &&& mask = 0) :
    (old ||| PTE_V ||| PTE_MAT ||| PTE_D) &&& mask = old &&& mask := by
  rw [Nat.or_assoc, Nat.or_assoc, ← Nat.or_assoc PTE_V, Nat.and_or_distrib_right, apart, Nat.or_zero]

theorem leaf_and {mask : Nat} (pa old : Nat) (low : PAMASK &&& mask = 0)
    (apart : (PTE_V ||| PTE_MAT ||| PTE_D) &&& mask = 0) : leaf pa old &&& mask = old &&& mask := by
  rw [leaf_eq, Nat.and_or_distrib_right, flags_and old apart, PA2PTE, Nat.and_assoc, low, Nat.and_zero,
    Nat.zero_or]

/-- What `experm` makes of the permissions of a page, for each page that it is called for. -/
def grant (pages : Nat → Bool) (perm x old : Nat) : Nat :=
  if pages x ∧ old &&& PTE_PLV3 ≠ 0 then old ||| perm else old

theorem grant_lt {pages : Nat → Bool} {x old : Nat} (flags : perm < 2 ^ 9) (low : old < 2 ^ 9) :
    grant pages perm x old < 2 ^ 9 := by
  rw [grant]
  split
  · exact Nat.or_lt_two_pow low flags
  · exact low

/-- A grant makes a page no more and no less one of the user. -/
theorem grant_user {pages : Nat → Bool} {x old : Nat} :
    grant pages perm x old &&& PTE_PLV3 = 0 ↔ old &&& PTE_PLV3 = 0 := by
  rw [grant]
  split
  · next h =>
    refine iff_of_false (fun zero => h.2 ?_) h.2
    rw [Nat.and_or_distrib_right] at zero
    exact (Nat.or_eq_zero_iff.mp zero).1
  · exact Iff.rfl

theorem grant_grant (first later : Nat → Bool) (perm x old : Nat) :
    grant later perm x (grant first perm x old) = grant (fun x => first x || later x) perm x old := by
  by_cases user : old &&& PTE_PLV3 = 0
  · have still (pages : Nat → Bool) : grant pages perm x old = old := if_neg fun h => h.2 user
    rw [still, still, still]
  · rw [grant]
    simp only [ne_eq, grant_user, user, not_false_eq_true, and_true]
    cases here : first x
    · simp [grant, here, user]
    · simp [grant, here, user]

/-- Where nothing is granted, the table stays. -/
theorem Maps.regrant_none (page : Nat) (maps : Maps s node m)
    (none : page * PGSIZE < MAXVA → ∀ pa old, m page = some (pa, old) → old &&& PTE_PLV3 = 0)
    (flags : perm < 2 ^ 9) :
    Maps s node (regrant m (grant (· = page) perm)) where
  entries va low := by
    rw [maps.entries va low, regrant]
    cases here : m (va / PGSIZE) with
    | none => rfl
    | some q =>
      obtain ⟨pa, old⟩ := q
      have still : grant (· = page) perm (va / PGSIZE) old = old := by
        refine if_neg ?_
        rintro ⟨same, user⟩
        obtain rfl : va / PGSIZE = page := of_decide_eq_true same
        exact user (none (Nat.lt_of_le_of_lt (Nat.div_mul_le_self _ _) low) pa old here)
      simp only [Option.map_some, still]
  frames := by
    intro x pa q here
    obtain ⟨⟨pa', old⟩, old', same⟩ := Option.map_eq_some_iff.mp here
    cases same
    obtain ⟨frame, low⟩ := maps.frames old'
    exact ⟨frame, grant_lt flags low⟩

/-- A page gets the permissions, if it is mapped for the user. -/
theorem experm_run (va : Nat) (tree : Tree s.mem root node) (maps : Maps s node m) (flags : perm < 2 ^ 9) :
    ∃ r t, experm root va perm s = .ok (r, t) ∧ Tree t.mem root node ∧
      Maps t node (regrant m (grant (· = va / PGSIZE) perm)) := by
  by_cases high : MAXVA ≤ va
  · refine ⟨0, s, by rw [experm, if_pos high, Machine.pure_run], tree, Maps.regrant_none _ maps ?_ flags⟩
    intro low
    have above : MAXVA / PGSIZE ≤ va / PGSIZE := Nat.div_le_div_right high
    have whole : MAXVA / PGSIZE * PGSIZE = MAXVA := by decide
    exact absurd (Nat.mul_le_mul_right PGSIZE above) (by omega)
  · have low : va < MAXVA := Nat.not_le.mp high
    rw [experm, if_neg high]
    cases here : m (va / PGSIZE) with
    | none =>
      have same := Maps.regrant_none (va / PGSIZE) maps (fun _ pa old some => by
        rw [here] at some
        cases some) flags
      have entry := maps.entries va low
      have walked := walk_find tree low
      rw [here, entryOf, entryAt] at entry
      rw [Machine.bind_of_ok walked]
      cases hb : node 0 (above 0 va) with
      | none => exact ⟨0, s, by rw [Option.elim_none, if_pos rfl, Machine.pure_run], tree, same⟩
      | some b =>
        rw [hb] at entry
        have pos := (tree.frame hb).pos
        refine ⟨0, s, ?_, tree, same⟩
        rw [Option.elim_some, if_neg (by omega), Machine.bind_of_ok (load_run _ s),
          show s.mem.fetch (b + 8 * PX 0 va) 8 = 0 from entry, if_pos (Nat.zero_and _), Machine.pure_run]
    | some q =>
      obtain ⟨pa, old⟩ := q
      obtain ⟨frame, small⟩ := maps.frames here
      have entry := maps.entries va low
      have walked := walk_find tree low
      have valid := leaf_valid pa old
      rw [here, entryOf, entryAt] at entry
      rw [Machine.bind_of_ok walked]
      cases hb : node 0 (above 0 va) with
      | none =>
        rw [hb] at entry
        rw [← entry, Nat.zero_and] at valid
        exact absurd rfl valid
      | some b =>
        rw [hb] at entry
        have pos := (tree.frame hb).pos
        have level : leaf pa old &&& PTE_PLV3 = old &&& PTE_PLV3 := leaf_and pa old (by decide) (by decide)
        rw [Option.elim_some, if_neg (by omega), Machine.bind_of_ok (load_run _ s),
          show s.mem.fetch (b + 8 * PX 0 va) 8 = leaf pa old from entry, if_neg valid, level]
        by_cases user : old &&& PTE_PLV3 = 0
        · refine ⟨0, s, by rw [if_pos user, Machine.pure_run], tree, Maps.regrant_none _ maps ?_ flags⟩
          rintro - pa' old' here'
          rw [here] at here'
          cases here'
          exact user
        · rw [if_neg user, leaf_or, Machine.bind_of_ok (store_run _ _ s), Machine.pure_run]
          refine ⟨_, _, rfl, tree.setLeaf _ hb, ?_⟩
          have set := maps.setLeaf tree frame (Nat.or_lt_two_pow small flags) hb
          have same : (fun x => if x = va / PGSIZE then some (pa, old ||| perm) else m x) =
              regrant m (grant (· = va / PGSIZE) perm) := by
            funext x
            rw [regrant]
            by_cases this : x = va / PGSIZE
            · subst this
              have now : grant (· = va / PGSIZE) perm (va / PGSIZE) old = old ||| perm :=
                if_pos ⟨decide_eq_true rfl, user⟩
              simp only [if_pos, here, Option.map_some, now]
            · have keep (q : Nat) : grant (· = va / PGSIZE) perm x q = q :=
                if_neg fun h => this (of_decide_eq_true h.1)
              simp only [if_neg this, keep, Prod.mk.eta, Option.map_id']
          rwa [← same]

/-- The pages that a loop of `n` rounds comes to. -/
def reached (va n x : Nat) : Bool := (List.range n).any fun i => u64 (va + i * PGSIZE) / PGSIZE = x

theorem reached_succ (small : va < 2 ^ 64) (x : Nat) :
    reached va (n + 1) x = (decide (va / PGSIZE = x) || reached (u64 (va + PGSIZE)) n x) := by
  rw [reached, List.range_succ_eq_map, List.any_cons, List.any_map, reached]
  have first : u64 (va + 0 * PGSIZE) = va := Nat.mod_eq_of_lt (by omega)
  have later (i : Nat) : u64 (va + (i + 1) * PGSIZE) = u64 (u64 (va + PGSIZE) + i * PGSIZE) := by
    rw [u64, u64, u64, Nat.mod_add_mod, Nat.add_mul]
    congr 1
    omega
  simp only [first, Function.comp_def, later]

/-- All pages that the loop comes to get the permissions. -/
theorem mprotectFrom_run (small : va < 2 ^ 64) (flags : perm < 2 ^ 9) (tree : Tree s.mem root node)
    (maps : Maps s node m) : ∃ t, mprotectFrom root perm n va s = .ok ((), t) ∧ Tree t.mem root node ∧
      Maps t node (regrant m (grant (reached va n) perm)) := by
  induction n generalizing s va m with
  | zero =>
    have same : regrant m (grant (reached va 0) perm) = m := by
      funext x
      simp [regrant, grant, reached]
    exact ⟨s, rfl, tree, same.symm ▸ maps⟩
  | succ n ih =>
    obtain ⟨r, u, run, tree', maps'⟩ := experm_run va tree maps flags
    obtain ⟨t, rest, tree'', maps''⟩ := ih (Nat.mod_lt _ (by decide)) tree' maps'
    refine ⟨t, ?_, tree'', ?_⟩
    · rw [mprotectFrom, Machine.bind_of_ok run]
      exact rest
    · have pages : reached va (n + 1) = fun x => decide (x = va / PGSIZE) || reached (u64 (va + PGSIZE)) n x :=
        funext fun x => by rw [reached_succ small]; simp only [eq_comm]
      rw [regrant_regrant] at maps''
      simp only [grant_grant] at maps''
      rw [pages]
      exact maps''

/-! ### Calls one after the other -/

/-- The arguments of a call of `sys_mprotect`. -/
structure Change where
  addr : Nat
  len : Nat
  prot : Nat

/-- The pages whose entries a call sets. -/
def Change.reaches (c : Change) : Nat → Bool := reached c.addr (protectedPages c.len)

def mprotects {F : Type} : List Change → Machine (Kernel F) Unit
  | [] => return ()
  | c :: cs => do
    let _ ← sys_mprotect c.addr c.len c.prot
    mprotects cs

/-- The permissions of a page after some calls. -/
def granted (cs : List Change) (x old : Nat) : Nat :=
  cs.foldl (fun perm c => grant c.reaches (mprotectPerm c.prot) x perm) old

theorem granted_lt {cs : List Change} {x old : Nat} (low : old < 2 ^ 9) : granted cs x old < 2 ^ 9 := by
  induction cs generalizing old with
  | nil => exact low
  | cons c cs ih => exact ih (grant_lt (mprotectPerm_lt _) low)

theorem mprotectPerm_W (prot : Nat) : mprotectPerm prot &&& PTE_W ≠ 0 ↔ prot &&& PROT_WRITE ≠ 0 := by
  simp only [mprotectPerm]
  split_ifs with exec write write
  · exact iff_of_true (by decide) write
  · exact iff_of_false (by decide) write
  · exact iff_of_true (by decide) write
  · exact iff_of_false (by decide) write

/-- Write permission is never taken away. -/
theorem granted_W {cs : List Change} {x old : Nat} : granted cs x old &&& PTE_W ≠ 0 ↔
    old &&& PTE_W ≠ 0 ∨
      old &&& PTE_PLV3 ≠ 0 ∧ ∃ c ∈ cs, c.reaches x = true ∧ c.prot &&& PROT_WRITE ≠ 0 := by
  induction cs generalizing old with
  | nil => simp [granted]
  | cons c cs ih =>
    have first : grant c.reaches (mprotectPerm c.prot) x old &&& PTE_W ≠ 0 ↔ old &&& PTE_W ≠ 0 ∨
        old &&& PTE_PLV3 ≠ 0 ∧ c.reaches x = true ∧ c.prot &&& PROT_WRITE ≠ 0 := by
      rw [grant]
      split
      · next h =>
        rw [Nat.and_or_distrib_right, ne_eq, Nat.or_eq_zero_iff, not_and_or, ← ne_eq, ← ne_eq, mprotectPerm_W]
        exact or_congr_right ⟨fun write => ⟨h.2, h.1, write⟩, fun h => h.2.2⟩
      · next h => exact ⟨.inl, fun k => k.resolve_right fun k => h ⟨k.2.1, k.1⟩⟩
    have step : granted (c :: cs) x old = granted cs x (grant c.reaches (mprotectPerm c.prot) x old) := rfl
    rw [step, ih, first, ne_eq, ne_eq (grant _ _ _ _ &&& PTE_PLV3), grant_user]
    simp only [List.mem_cons, exists_eq_or_imp]
    constructor
    · rintro ((set | ⟨user, this⟩) | ⟨user, later⟩)
      · exact .inl set
      · exact .inr ⟨user, .inl this⟩
      · exact .inr ⟨user, .inr later⟩
    · rintro (set | ⟨user, this | later⟩)
      · exact .inl (.inl set)
      · exact .inl (.inr ⟨user, this⟩)
      · exact .inr ⟨user, later⟩

theorem mprotects_run {F : Type} {k : Kernel F} {cs : List Change} (small : ∀ c ∈ cs, c.addr < 2 ^ 64)
    (tree : Tree k.ram.mem k.p.pagetable node) (maps : Maps k.ram node m) :
    ∃ t, mprotects cs k = .ok ((), { k with ram := t }) ∧ Tree t.mem k.p.pagetable node ∧
      Maps t node (regrant m (granted cs)) := by
  induction cs generalizing k m with
  | nil =>
    have same : regrant m (granted []) = m := by
      funext x
      simp [regrant, granted]
    exact ⟨k.ram, rfl, tree, same.symm ▸ maps⟩
  | cons c cs ih =>
    obtain ⟨u, run, tree', maps'⟩ := mprotectFrom_run (n := protectedPages c.len)
      (small c (by simp)) (mprotectPerm_lt c.prot) tree maps
    have call : sys_mprotect c.addr c.len c.prot k = .ok (0, { k with ram := u }) := by
      have me : (myproc : Machine (Kernel F) Proc) k = .ok (k.p, k) := rfl
      rw [sys_mprotect, Machine.bind_of_ok me, Machine.bind_of_ok (onRam_of_ok run), Machine.pure_run]
    obtain ⟨t, rest, tree'', maps''⟩ := ih (k := { k with ram := u })
      (fun c hc => small c (List.mem_cons_of_mem _ hc)) tree' maps'
    refine ⟨t, ?_, tree'', ?_⟩
    · rw [mprotects, Machine.bind_of_ok call]
      exact rest
    · rw [regrant_regrant] at maps''
      exact maps''

/-! ### The pages of a mapping -/

instance (r len x : Nat) : Decidable (Covers r len x) :=
  decidable_of_iff (len ≠ 0 ∧ r / PGSIZE ≤ x ∧ x < (r + len + PGSIZE - 1) / PGSIZE) (by
    constructor
    · exact fun ⟨more, inside⟩ => (covers_iff more).mpr inside
    · intro covers
      have more : len ≠ 0 := by
        rintro rfl
        exact covers_zero covers
      exact ⟨more, (covers_iff more).mp covers⟩)

/-- The `prot` that was given last for a page. -/
def lastProt (prot : Nat) (cs : List Change) (x : Nat) : Nat :=
  cs.foldl (fun last c => if Covers c.addr c.len x then c.prot else last) prot

/-- The flags are those that a `prot` asks for. -/
def Allows (prot flags : Nat) : Prop :=
  (flags &&& PTE_W ≠ 0 ↔ prot &&& PROT_WRITE ≠ 0) ∧
  (flags &&& PTE_NR = 0 ↔ prot &&& PROT_READ ≠ 0) ∧ (flags &&& PTE_NX = 0 ↔ prot &&& PROT_EXEC ≠ 0)

/-- After the calls, every page of the mapping from `r` on has its frame still and the
permissions last asked for, and no other page has changed. -/
def Follows {F : Type} (k : Kernel F) (r len prot : Nat) (cs : List Change) : Prop :=
  ∃ k', mprotects cs k = .ok ((), k') ∧
    (∀ x, Covers r len x → x * PGSIZE < MAXVA ∧ ∃ pa flags flags',
      translation k.p.pagetable (x * PGSIZE) k.ram = some (pa, flags) ∧
      translation k.p.pagetable (x * PGSIZE) k'.ram = some (pa, flags') ∧
      Allows (lastProt prot cs x) flags') ∧
    ∀ va < MAXVA, (∀ c ∈ cs, ¬Covers c.addr c.len (va / PGSIZE)) →
      translation k.p.pagetable va k'.ram = translation k.p.pagetable va k.ram

/-- `PTE_NR` and `PTE_NX` are never set. -/
theorem allows_iff {prot perm : Nat} (low : perm < 2 ^ 9) :
    Allows prot (perm ||| PTE_V ||| PTE_MAT ||| PTE_D) ↔
      (perm &&& PTE_W ≠ 0 ↔ prot &&& PROT_WRITE ≠ 0) ∧ prot &&& PROT_READ ≠ 0 ∧ prot &&& PROT_EXEC ≠ 0 := by
  have clear (k : Nat) (high : 9 ≤ k) : (perm ||| PTE_V ||| PTE_MAT ||| PTE_D) &&& 1 <<< k = 0 := by
    rw [Nat.one_shiftLeft, Nat.and_two_pow, testBit_above (flags_lt low) high]
    exact Nat.zero_mul _
  have readable := clear 61 (by decide)
  have executable := clear 62 (by decide)
  rw [← PTE_NR] at readable
  rw [← PTE_NX] at executable
  rw [Allows, readable, executable, flags_and perm (by decide)]
  simp only [true_iff]

/-- A call comes to pages of its range only. -/
theorem Change.covers_of_reaches {c : Change} {x : Nat} (fits : c.addr + c.len ≤ 2 ^ 64)
    (here : c.reaches x = true) : Covers c.addr c.len x := by
  obtain ⟨i, hi, there⟩ := List.any_eq_true.mp here
  have there := of_decide_eq_true there
  have rounds : protectedPages c.len ≤ PGROUNDUP c.len >>> 12 := by
    rw [protectedPages]
    split
    · exact Nat.mod_le _ _
    · exact Nat.zero_le _
  have whole : PGROUNDUP c.len >>> 12 ≤ (c.len + PGSIZE - 1) / PGSIZE := by
    rw [PGROUNDUP, Nat.shiftRight_eq_div_pow, show 2 ^ 12 = PGSIZE by rfl, page_index]
    exact Nat.div_le_div_right (Nat.mod_le _ _)
  have before : i < (c.len + PGSIZE - 1) / PGSIZE :=
    Nat.lt_of_lt_of_le (List.mem_range.mp hi) (rounds.trans whole)
  have inside : i * PGSIZE < c.len := by
    rw [PGSIZE] at before ⊢
    omega
  have same : u64 (c.addr + i * PGSIZE) = c.addr + i * PGSIZE := Nat.mod_eq_of_lt (by omega)
  rw [same] at there
  exact ⟨_, Nat.le_add_right _ _, Nat.add_lt_add_left inside _, there⟩

theorem granted_unreached {cs : List Change} {x old : Nat} (none : ∀ c ∈ cs, c.reaches x = false) :
    granted cs x old = old := by
  induction cs with
  | nil => rfl
  | cons c cs ih =>
    have still : grant c.reaches (mprotectPerm c.prot) x old = old :=
      if_neg fun h => by simp [none c] at h
    have step : granted (c :: cs) x old = granted cs x (grant c.reaches (mprotectPerm c.prot) x old) := rfl
    rw [step, still]
    exact ih fun c hc => none c (List.mem_cons_of_mem _ hc)

section Follows

variable {F : Type} {k k' : Kernel F} {cs : List Change} {r len prot : Nat}

theorem follows_iff (tree : Tree k.ram.mem k.p.pagetable node) (maps : Maps k.ram node m)
    (sub : ∀ c ∈ cs, c.addr < 2 ^ 64 ∧ ∀ x, Covers c.addr c.len x → Covers r len x) :
    Follows k r len prot cs ↔ ∀ x, Covers r len x → x * PGSIZE < MAXVA ∧ ∃ pa old,
      m x = some (pa, old) ∧ (granted cs x old &&& PTE_W ≠ 0 ↔ lastProt prot cs x &&& PROT_WRITE ≠ 0) ∧
      lastProt prot cs x &&& PROT_READ ≠ 0 ∧ lastProt prot cs x &&& PROT_EXEC ≠ 0 := by
  obtain ⟨t, run, tree', maps'⟩ := mprotects_run (fun c hc => (sub c hc).1) tree maps
  have before {va : Nat} (low : va < MAXVA) := tree.translation maps.entries maps.frames low
  have later {va : Nat} (low : va < MAXVA) := tree'.translation maps'.entries maps'.frames low
  constructor
  · rintro ⟨k', run', each, -⟩ x hx
    cases run.symm.trans run'
    obtain ⟨low, pa, flags, flags', was, now, allows⟩ := each x hx
    refine ⟨low, ?_⟩
    rw [later low, page_index, regrant] at now
    cases here : m x with
    | none =>
      rw [here] at now
      cases now
    | some q =>
      obtain ⟨pa', old⟩ := q
      rw [here] at now
      cases now
      exact ⟨pa, old, rfl, (allows_iff (granted_lt (maps.frames here).2)).mp allows⟩
  · intro each
    refine ⟨_, run, fun x hx => ?_, fun va low away => ?_⟩
    · obtain ⟨low, pa, old, here, allows⟩ := each x hx
      refine ⟨low, pa, old ||| PTE_V ||| PTE_MAT ||| PTE_D,
        granted cs x old ||| PTE_V ||| PTE_MAT ||| PTE_D, ?_, ?_,
        (allows_iff (granted_lt (maps.frames here).2)).mpr allows⟩
      · rw [before low, page_index, here]
        rfl
      · rw [later low, page_index, regrant, here]
        rfl
    · have fits (c : Change) (hc : c ∈ cs) : c.addr + c.len ≤ 2 ^ 64 := by
        by_cases more : c.len = 0
        · rw [more]
          exact (sub c hc).1.le
        · have last := (sub c hc).2 _ ⟨c.addr + c.len - 1, by omega, by omega, rfl⟩
          have low := (each _ last).1
          rw [MAXVA_eq, PGSIZE] at low
          omega
      have none (c : Change) (hc : c ∈ cs) : c.reaches (va / PGSIZE) = false := by
        by_contra here
        exact away c hc (Change.covers_of_reaches (fits c hc) (by simpa using here))
      rw [later low, before low, regrant]
      cases m (va / PGSIZE) with
      | none => rfl
      | some q => simp only [Option.map_some, granted_unreached none]

end Follows

/-- Where the range that a request returns starts. -/
def rangeStart (s : Ram) (p : Proc) (node : Nodes) (free nodes : List Nat) (m : PageMap)
    (start len flags : Nat) : Nat :=
  let addr := placedAddr s.mem nodes start len
  if flags &&& MAP_FIXED ≠ 0 then start
  else match answer s p node free nodes m addr len with
    | .inside a => areaAddr s.mem a
    | _ => firstPage addr * PGSIZE

/-- A page that a request maps. -/
def Fresh (s : Ram) (p : Proc) (node : Nodes) (free nodes : List Nat) (m : PageMap)
    (start len x : Nat) : Prop :=
  let addr := placedAddr s.mem nodes start len
  answer s p node free nodes m addr len = .entered ∧ firstPage addr ≤ x ∧ x < endPage addr len

/-- When the entries follow `prot`: a page must be mapped, by the request or before it; the
last `prot` given for it must have `PROT_READ` and `PROT_EXEC`; and it must have
`PROT_WRITE` for a page that the request maps. For a page that was mapped before, it must
have `PROT_WRITE` just when the entry had `PTE_W` or a call since has set it. -/
def Permitted (s : Ram) (p : Proc) (node : Nodes) (free nodes : List Nat) (m : PageMap)
    (start len prot flags : Nat) (cs : List Change) : Prop :=
  ∀ x, Covers (rangeStart s p node free nodes m start len flags) len x → x * PGSIZE < MAXVA ∧
    lastProt prot cs x &&& PROT_READ ≠ 0 ∧ lastProt prot cs x &&& PROT_EXEC ≠ 0 ∧
    (Fresh s p node free nodes m start len x ∧ lastProt prot cs x &&& PROT_WRITE ≠ 0 ∨
      ¬Fresh s p node free nodes m start len x ∧ ∃ pa old, m x = some (pa, old) ∧
        (lastProt prot cs x &&& PROT_WRITE ≠ 0 ↔ old &&& PTE_W ≠ 0 ∨ old &&& PTE_PLV3 ≠ 0 ∧
          ∃ c ∈ cs, c.reaches x = true ∧ c.prot &&& PROT_WRITE ≠ 0))

theorem mmapPerm_W (prot : Nat) : mmapPerm prot &&& PTE_W ≠ 0 := by
  simp only [mmapPerm]
  split_ifs <;> decide

section Requests

variable {F : Type} {k k' : Kernel F} {fsys : FileSystem F} {cs : List Change}
  {limit start len prot flags r : Nat} {free nodes : List Nat}
  (anchored : Anchored k.ram k.p node free nodes m) (more : 2 ^ 20 < limit) (small : start < 2 ^ 64)
  (run : mmap limit fsys start len prot flags (-1) 0 k = .ok (r, k')) (success : r ≠ 2 ^ 64 - 1)
  (sub : ∀ c ∈ cs, c.addr < 2 ^ 64 ∧ ∀ x, Covers c.addr c.len x → Covers r len x)
include anchored more run sub

theorem follows_inside {a : Nat}
    (gives : answer k.ram k.p node free nodes m (placedAddr k.ram.mem nodes start len) len = .inside a) :
    Follows k' r len prot cs ↔ Permitted k.ram k.p node free nodes m start len prot flags cs := by
  obtain ⟨alloc, member⟩ := anchored.space.alloc_mmap_inside (mmapPerm prot) 0 (-1)
    (fun _ => anchored.first.1) more gives
  have frame := anchored.space.node_frame (List.mem_cons_of_mem _ member)
  have after := anchored.space.setFile 0 (-1) member
  have addr := (areas_setFile k.ram.mem (-1) 0 frame frame).2.1
  rw [mmap_anonymous frame alloc, Ram.setMem_mem, addr] at run
  cases run
  have range : rangeStart k.ram k.p node free nodes m start len flags =
      if flags &&& MAP_FIXED = 0 then areaAddr k.ram.mem a else start := by
    simp only [rangeStart, gives, ne_eq, ite_not]
  have old (x : Nat) : ¬Fresh k.ram k.p node free nodes m start len x := by
    simp [Fresh, gives]
  rw [follows_iff after.pool.tree after.maps sub, Permitted, range]
  refine forall_congr' fun x => imp_congr_right fun _ => and_congr_right fun _ => ?_
  constructor
  · rintro ⟨pa, perm, here, write, read, exec⟩
    exact ⟨read, exec, .inr ⟨old x, pa, perm, here, write.symm.trans granted_W⟩⟩
  · rintro ⟨read, exec, ⟨new, -⟩ | ⟨-, pa, perm, here, write⟩⟩
    · exact absurd new (old x)
    · exact ⟨pa, perm, here, granted_W.trans write.symm, read, exec⟩

include small in
theorem follows_entered
    (gives : answer k.ram k.p node free nodes m (placedAddr k.ram.mem nodes start len) len = .entered) :
    Follows k' r len prot cs ↔ Permitted k.ram k.p node free nodes m start len prot flags cs := by
  obtain ⟨page, t, node', free', nodes', frames, alloc, entered, -, whole⟩ :=
    anchored.space.alloc_mmap_entered 0 (-1) (fun _ => anchored.first.1) more
      (mmapPerm_lt prot) (anchored.placed_small small) gives
  rw [mmap_anonymous entered.new alloc, entered.addr] at run
  cases run
  have range : rangeStart k.ram k.p node free nodes m start len flags =
      if flags &&& MAP_FIXED = 0 then firstPage (placedAddr k.ram.mem nodes start len) * PGSIZE
      else start := by
    simp only [rangeStart, gives, ne_eq, ite_not]
  rw [follows_iff entered.pool.tree entered.maps sub, Permitted, range]
  refine forall_congr' fun x => imp_congr_right fun covers => and_congr_right fun _ => ?_
  have more : len ≠ 0 := by
    rintro rfl
    exact covers_zero covers
  obtain ⟨lt, count⟩ := whole more
  by_cases new : Fresh k.ram k.p node free nodes m start len x
  · have inside := new.2
    have here : m.fill (firstPage (placedAddr k.ram.mem nodes start len)) frames (fun _ => mmapPerm prot) x =
        some (frames.getD (x - firstPage (placedAddr k.ram.mem nodes start len)) 0, mmapPerm prot) := by
      rw [PageMap.fill, if_pos ⟨inside.1, by omega⟩]
    have write : granted cs x (mmapPerm prot) &&& PTE_W ≠ 0 := granted_W.mpr (.inl (mmapPerm_W prot))
    constructor
    · rintro ⟨pa, perm, here', same, read, exec⟩
      cases here.symm.trans here'
      exact ⟨read, exec, .inl ⟨new, same.mp write⟩⟩
    · rintro ⟨read, exec, ⟨-, asked⟩ | ⟨old, -⟩⟩
      · exact ⟨_, _, here, iff_of_true write asked, read, exec⟩
      · exact absurd new old
  · have here : m.fill (firstPage (placedAddr k.ram.mem nodes start len)) frames (fun _ => mmapPerm prot) x =
        m x := if_neg fun h => new ⟨gives, h.1, by omega⟩
    rw [here]
    constructor
    · rintro ⟨pa, perm, here, write, read, exec⟩
      exact ⟨read, exec, .inr ⟨new, pa, perm, here, write.symm.trans granted_W⟩⟩
    · rintro ⟨read, exec, ⟨fresh, -⟩ | ⟨-, pa, perm, here, write⟩⟩
      · exact absurd fresh new
      · exact ⟨pa, perm, here, granted_W.trans write.symm, read, exec⟩

variable (cs) in
omit sub in
/-- A request that returns has a range in the table, or starts in the direct window. -/
theorem not_stuck
    (gives : answer k.ram k.p node free nodes m (placedAddr k.ram.mem nodes start len) len = .stuck) :
    start &&& DMWIN_MASK ≠ 0 ∧ ¬Permitted k.ram k.p node free nodes m start len prot flags cs := by
  have window : start &&& DMWIN_MASK ≠ 0 := by
    intro window
    obtain ⟨e, alloc⟩ := anchored.space.alloc_mmap_stuck 0 (-1)
      (fun _ => anchored.first.1) more (mmapPerm_lt prot) (anchored.placed_window window) gives
    rw [mmap_anonymous_error alloc] at run
    cases run
  refine ⟨window, fun permitted => ?_⟩
  have high : MAXVA ≤ start := by
    by_contra low
    exact window (window_of_lt (Nat.not_le.mp low))
  have placed : placedAddr k.ram.mem nodes start len = start := by
    refine if_neg fun h => ?_
    rw [h.1] at high
    exact absurd high (by decide)
  have long := answer_stuck gives
  have range : rangeStart k.ram k.p node free nodes m start len flags / PGSIZE = start / PGSIZE := by
    rw [placed] at gives
    rw [rangeStart]
    simp only [placed, gives, firstPage]
    split
    · rfl
    · exact page_index _
  have first := (permitted _ ⟨_, Nat.le_refl _, by omega, rfl⟩).1
  rw [range] at first
  rw [MAXVA_eq, PGSIZE] at *
  omega

include success small

/-- The entries follow `prot` if the condition holds, and only then where the request
starts outside the direct window. -/
theorem mprotect_follows_iff :
    (Permitted k.ram k.p node free nodes m start len prot flags cs → Follows k' r len prot cs) ∧
    (start &&& DMWIN_MASK = 0 → Follows k' r len prot cs →
      Permitted k.ram k.p node free nodes m start len prot flags cs) := by
  cases gives : answer k.ram k.p node free nodes m (placedAddr k.ram.mem nodes start len) len with
  | inside a =>
    have same := follows_inside anchored more run sub gives
    exact ⟨same.mpr, fun _ => same.mp⟩
  | entered =>
    have same := follows_entered anchored more small run sub gives
    exact ⟨same.mpr, fun _ => same.mp⟩
  | stuck =>
    obtain ⟨inside, never⟩ := not_stuck cs anchored more run gives
    exact ⟨fun permitted => absurd permitted never, fun outside => absurd outside inside⟩
  | refused =>
    obtain ⟨t, node', free', alloc, -⟩ := anchored.space.alloc_mmap_refused 0 (-1)
      (fun _ => anchored.first.1) more (mmapPerm_lt prot) gives
    rw [mmap_anonymous_refused alloc] at run
    split at run
    · cases run
    · cases run
      exact absurd rfl success

end Requests

/-- A page for reading and execution is writable. -/
theorem mmap_writable : ∃ k',
    mmap (2 ^ 20 + 1) noFiles PGSIZE PGSIZE (PROT_READ ||| PROT_EXEC) 0 (-1) 0 roomyProcess =
      .ok (PGSIZE, k') ∧
    ¬Follows k' PGSIZE PGSIZE (PROT_READ ||| PROT_EXEC) [] := by
  obtain ⟨k', nodes, anchored, run, placed, gives⟩ := roomyProcess_request (PROT_READ ||| PROT_EXEC)
  refine ⟨k', run, fun follows => ?_⟩
  have permitted := (follows_entered anchored (by decide) (by decide) run
    (fun _ none => absurd none List.not_mem_nil) (by rw [placed]; exact gives)).mp follows
  have range : rangeStart roomyProcess.ram roomyProcess.p (rootOnly RAMBASE)
      ([3, 4, 5, 6, 7].map fun i => RAMBASE + i * PGSIZE) nodes (fun _ => none) PGSIZE PGSIZE 0 = PGSIZE := by
    rw [rangeStart]
    simp only [placed, gives]
    decide
  have covers : Covers PGSIZE PGSIZE 1 := ⟨PGSIZE, Nat.le_refl _, by decide, by decide⟩
  obtain ⟨-, -, -, ⟨-, write⟩ | ⟨-, pa, old, here, -⟩⟩ := permitted 1 (by rw [range]; exact covers)
  · exact absurd write (by decide)
  · cases here

/-- All that may be asked for, and asked for again. -/
theorem mprotect_follows_iff_all : ∃ k',
    mmap (2 ^ 20 + 1) noFiles PGSIZE PGSIZE 7 0 (-1) 0 roomyProcess = .ok (PGSIZE, k') ∧
    Follows k' PGSIZE PGSIZE 7 [⟨PGSIZE, PGSIZE, 7⟩] := by
  obtain ⟨k', nodes, anchored, run, placed, gives⟩ := roomyProcess_request 7
  have sub : ∀ c ∈ [(⟨PGSIZE, PGSIZE, 7⟩ : Change)],
      c.addr < 2 ^ 64 ∧ ∀ x, Covers c.addr c.len x → Covers PGSIZE PGSIZE x := by
    intro c hc
    obtain rfl := List.mem_singleton.mp hc
    exact ⟨by decide, fun x hx => hx⟩
  refine ⟨k', run, (mprotect_follows_iff anchored (by decide) (by decide) run (by decide) sub).1 ?_⟩
  have range : rangeStart roomyProcess.ram roomyProcess.p (rootOnly RAMBASE)
      ([3, 4, 5, 6, 7].map fun i => RAMBASE + i * PGSIZE) nodes (fun _ => none) PGSIZE PGSIZE 0 = PGSIZE := by
    rw [rangeStart]
    simp only [placed, gives]
    decide
  intro x hx
  rw [range] at hx
  obtain rfl : x = 1 := by
    obtain ⟨b, low, high, rfl⟩ := hx
    rw [PGSIZE] at *
    omega
  refine ⟨by decide, by decide, by decide, .inl ⟨⟨?_, ?_, ?_⟩, by decide⟩⟩
  · rw [placed]
    exact gives
  · rw [placed]
    decide
  · rw [placed]
    decide

end AvxKernel.Exec
