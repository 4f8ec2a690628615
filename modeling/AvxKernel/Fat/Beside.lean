import AvxKernel.Fat.Marks
import AvxKernel.Fat.File
import AvxKernel.Fat.Remove
import AvxKernel.Lib.Triple

/-! Calls on other entries beside a chain. They leave its clusters and its entries in
the table alone, as long as no cluster of it is handed out to them: nothing outside the
chain points into it. -/
namespace AvxKernel.Fat

variable {fat : Geometry} {cs : List Nat} {d₀ d d' : Disk} {c k : Nat} {α : Type}

/-- A call that may stop in any way. -/
abbrev Leaves (x : Machine Disk α) (d : Disk) (Q : α → Disk → Prop) : Prop :=
  Machine.Ends (fun _ => True) x d Q

/-- A chain that nothing else points into, as it was on `d₀`. -/
structure Spared (fat : Geometry) (cs : List Nat) (d₀ d : Disk) : Prop where
  range : ∀ c ∈ cs, fat.InRange c
  closed : ∀ c, fat.InRange c → c ∉ cs → fat.entry d c ∉ cs
  entries : ∀ c ∈ cs, fat.entry d c = fat.entry d₀ c
  bytes : ∀ c ∈ cs, ∀ i < fat.byts_per_clus, d (fat.clusterAt c + i) = d₀ (fat.clusterAt c + i)

/-- No free entry is that of a cluster of the chain, or two before it, so that none of them
is handed out. -/
def Withheld (fat : Geometry) (cs : List Nat) (d : Disk) : Prop :=
  ∀ k < fat.entries, fat.entry d k = 0 → k ∉ cs ∧ u32 (k + 2) ∉ cs

/-- Entries that are used stay used. -/
def StillUsed (fat : Geometry) (d d' : Disk) : Prop :=
  ∀ k < fat.entries, fat.entry d' k = 0 → fat.entry d k = 0

theorem StillUsed.refl (d : Disk) : StillUsed fat d d := fun _ _ zero => zero

theorem StillUsed.trans {d'' : Disk} (h : StillUsed fat d d') (h' : StillUsed fat d' d'') :
    StillUsed fat d d'' := fun k hk zero => h k hk (h' k hk zero)

theorem Withheld.mono (h : Withheld fat cs d) (still : StillUsed fat d d') : Withheld fat cs d' :=
  fun k hk zero => h k hk (still k hk zero)

theorem not_mem_low (range : ∀ c ∈ cs, fat.InRange c) (low : c < 2) : c ∉ cs := fun mem =>
  absurd (range c mem).1 (Nat.not_le.mpr low)

theorem not_mem_mark (range : ∀ c ∈ cs, fat.InRange c) (mark : FAT32_EOC ≤ c) : c ∉ cs := fun mem =>
  absurd (range c mem).lt_EOC (Nat.not_lt.mpr mark)

/-- Entries outside the chain change, to what is outside too. -/
theorem Spared.change (h : Spared fat cs d₀ d)
    (tables : ∀ c, fat.InRange c → fat.entry d' c = fat.entry d c ∨ c ∉ cs ∧ fat.entry d' c ∉ cs)
    (bytes : ∀ c ∈ cs, ∀ i < fat.byts_per_clus, d' (fat.clusterAt c + i) = d (fat.clusterAt c + i)) :
    Spared fat cs d₀ d' := by
  have same : ∀ c ∈ cs, fat.entry d' c = fat.entry d c := fun c mem =>
    (tables c (h.range c mem)).resolve_right fun ⟨out, _⟩ => out mem
  constructor
  · exact h.range
  · intro c range out
    rcases tables c range with eq | ⟨-, away⟩
    · rw [eq]
      exact h.closed c range out
    · exact away
  · exact fun c mem => (same c mem).trans (h.entries c mem)
  · exact fun c mem i hi => (bytes c mem i hi).trans (h.bytes c mem i hi)

theorem Spared.rebase (h : Spared fat cs d₀ d) : Spared fat cs d d :=
  ⟨h.range, h.closed, fun _ _ => rfl, fun _ _ _ _ => rfl⟩

/-- The data area begins behind the table. -/
theorem entryAt_lt_data (hk : k < fat.entries) (c : Nat) : fat.entryAt k + 4 ≤ fat.clusterAt c := by
  have before := fat.before
  have table : (fat.rsvd_sec_cnt + fat.fat_sz) * BSIZE ≤ fat.clusterAt c :=
    Nat.mul_le_mul_right _ (by omega)
  have last : ¬fat.Outside (fat.entryAt k + 3) := entry_table hk (by decide)
  rw [Geometry.Outside, not_or] at last
  omega

theorem entry_store_other (d : Disk) {k' : Nat} (ne : k' ≠ k) (v : Nat) :
    fat.entry (d.store (fat.entryAt k) 4 v) k' = fat.entry d k' := by
  rw [Geometry.entry, Geometry.entry, Memory.fetch_store_other]
  rw [Geometry.entryAt, Geometry.entryAt]
  omega

/-- An entry outside the chain is written. -/
theorem Spared.store (h : Spared fat cs d₀ d) (hk : k < fat.entries) (out : k ∉ cs) {v : Nat}
    (small : v < 2 ^ 32) (away : v ∉ cs) : Spared fat cs d₀ (d.store (fat.entryAt k) 4 v) := by
  apply h.change
  · intro c _
    by_cases here : c = k
    · subst here
      right
      rw [Geometry.entry, Memory.fetch_store_same _ small]
      exact ⟨out, away⟩
    · exact .inl (entry_store_other d here v)
  · intro c _ i _
    apply Memory.store_outside
    have := @entryAt_lt_data fat k hk c
    omega

theorem StillUsed.store {v : Nat} (some : v ≠ 0) (small : v < 2 ^ 32) :
    StillUsed fat d (d.store (fat.entryAt k) 4 v) := by
  intro k' _ zero
  by_cases here : k' = k
  · rw [here, Geometry.entry, Memory.fetch_store_same _ small] at zero
    exact absurd zero some
  · rwa [entry_store_other d here] at zero

/-- What lies in a cluster outside the chain is written. -/
theorem Spared.data (h : Spared fat cs d₀ d) (range : fat.InRange c) (out : c ∉ cs)
    (within : ∀ x, x < fat.clusterAt c ∨ fat.clusterAt c + fat.byts_per_clus ≤ x → d' x = d x) :
    Spared fat cs d₀ d' ∧ ∀ k < fat.entries, fat.entry d' k = fat.entry d k := by
  have tables : ∀ k < fat.entries, fat.entry d' k = fat.entry d k := by
    intro k hk
    have := entryAt_lt_data hk c
    apply Memory.fetch_congr
    intro i hi
    exact within _ (.inl (by omega))
  constructor
  · apply h.change
    · exact fun c' range' => .inl (tables c' range'.lt_entries)
    · intro c' mem i hi
      have ne : c' ≠ c := fun eq => out (eq ▸ mem)
      have := Geometry.clusterAt_disjoint (h.range c' mem) range ne
      exact within _ (by omega)
  · exact tables

/-! ### The table -/

theorem read_fat_spared (h : Spared fat cs d₀ d) (out : c ∉ cs) :
    Leaves (read_fat fat c) d fun r t => t = d ∧ r ∉ cs := by
  by_cases range : fat.InRange c
  · exact Machine.Ends.of_ok (read_fat_run range) ⟨rfl, h.closed c range out⟩
  · rw [read_fat]
    apply Machine.Ends.ite
    · exact fun _ => Machine.Ends.halt trivial
    intro low
    apply Machine.Ends.ite
    · exact fun _ => Machine.Ends.pure ⟨rfl, out⟩
    intro _
    apply Machine.Ends.ite
    · exact fun _ => Machine.Ends.pure ⟨rfl, not_mem_low h.range (by decide)⟩
    intro inside
    rw [Geometry.u32_last] at inside
    exact absurd ⟨Nat.not_lt.mp low, Nat.not_lt.mp inside⟩ range

theorem out_of_range (out : ¬fat.InRange c) : fat.OutOfRange c := by
  by_contra inside
  rw [Volume.OutOfRange, Geometry.u32_last, not_or, Nat.not_lt, Nat.not_lt] at inside
  exact out inside

theorem write_fat_ends (v : Nat) {Q : Unit → Disk → Prop}
    (done : fat.InRange c → Q () (d.store (fat.entryAt c) 4 v)) : Leaves (write_fat fat c v) d Q := by
  by_cases range : fat.InRange c
  · exact Machine.Ends.of_ok (write_fat_run range v) (done range)
  · rw [write_fat]
    apply Machine.Ends.ite
    · exact fun _ => Machine.Ends.halt trivial
    intro _
    apply Machine.Ends.bind (R := fun _ _ => False)
    · rw [fat_sec_of_clus, if_pos (out_of_range range)]
      exact Machine.Ends.halt trivial
    · exact fun _ _ impossible => impossible.elim

theorem write_fat_spared (h : Spared fat cs d₀ d) (out : c ∉ cs) {v : Nat} (away : v ∉ cs)
    (some : v ≠ 0) (small : v < 2 ^ 32) :
    Leaves (write_fat fat c v) d fun _ t => Spared fat cs d₀ t ∧ StillUsed fat d t :=
  write_fat_ends v fun range => ⟨h.store range.lt_entries out small away, .store some small⟩

theorem zero_clus_ends (c : Nat) {Q : Unit → Disk → Prop} (done : fat.InRange c → ∀ t : Disk,
      (∀ x, x < fat.clusterAt c ∨ fat.clusterAt c + fat.byts_per_clus ≤ x → t x = d x) → Q () t) :
    Leaves (zero_clus fat c) d Q := by
  by_cases range : fat.InRange c
  · have last := range.sector_lt
    have fits := fat.fits
    rw [zero_clus, if_neg range.not_out]
    apply Machine.Ends.bind (R := fun sec t =>
      sec = (c - 2) * fat.sec_per_clus + fat.first_data_sec ∧ d = t)
    · exact Machine.Ends.of_ok (first_sec_of_clus_run range) ⟨rfl, rfl⟩
    rintro _ _ ⟨rfl, rfl⟩
    -- the sectors that are still to go
    have sectors : ∀ l : List Nat, (∀ i ∈ l, i < fat.sec_per_clus) → ∀ d₁ : Disk,
        (∀ x, x < fat.clusterAt c ∨ fat.clusterAt c + fat.byts_per_clus ≤ x → d₁ x = d x) →
        Leaves (l.forM fun i => modify fun b : Disk =>
          b.fill (u32 ((c - 2) * fat.sec_per_clus + fat.first_data_sec + i) * BSIZE) BSIZE 0) d₁ Q := by
      intro l
      induction l with
      | nil => exact fun _ d₁ same => Machine.Ends.pure (done range d₁ same)
      | cons i l ih =>
        intro inside d₁ same
        apply Machine.Ends.bind (R := fun _ t =>
          ∀ x, x < fat.clusterAt c ∨ fat.clusterAt c + fat.byts_per_clus ≤ x → t x = d x)
        · apply Machine.Ends.modify
          intro x out
          have hi := inside i List.mem_cons_self
          have next := Nat.mul_le_mul_right BSIZE (Nat.succ_le_of_lt hi)
          rw [u32, Nat.mod_eq_of_lt (by omega), Nat.add_mul, ← Geometry.clusterAt, Memory.fill_outside]
          · exact same x out
          · rw [Nat.succ_mul] at next
            rw [Geometry.byts_per_clus] at out
            omega
        · exact fun _ t same => ih (fun j mem => inside j (List.mem_cons_of_mem _ mem)) t same
    exact sectors _ (fun i mem => List.mem_range.mp mem) d fun _ _ => rfl
  · rw [zero_clus, if_pos (out_of_range range)]
    exact Machine.Ends.halt trivial

/-- A cluster that is handed out is outside the chain. -/
theorem alloc_clus_spared (h : Spared fat cs d₀ d) (withheld : Withheld fat cs d) :
    Leaves (alloc_clus fat) d fun r t => Spared fat cs d₀ t ∧ StillUsed fat d t ∧ r ∉ cs ∧
      fat.InRange r := by
  unfold Leaves Machine.Ends
  rw [alloc_clus_run]
  cases found : (List.range (fat.fat_sz * (BSIZE / 4))).find? fun k => d.fetch (fat.byIndex k) 4 == 0 with
  | none => trivial
  | some k =>
    have hk : k < fat.entries := List.mem_range.mp (List.mem_of_find?_eq_some found)
    have free : fat.entry d k = 0 := by
      have zero := List.find?_some found
      rw [byIndex_eq fat hk, beq_iff_eq] at zero
      exact zero
    obtain ⟨out, away⟩ := withheld k hk free
    have marked := h.store hk out (show FAT32_EOF < 2 ^ 32 by decide) (not_mem_mark h.range (by decide))
    have still : StillUsed fat d (d.store (fat.entryAt k) 4 FAT32_EOF) := .store (by decide) (by decide)
    change Machine.Ends (fun _ => True) (do
      zero_clus fat (u32 (k + 2))
      return u32 (k + 2)) (d.store (fat.byIndex k) 4 FAT32_EOF) _
    rw [byIndex_eq fat hk]
    apply Machine.Ends.bind (R := fun _ t => Spared fat cs d₀ t ∧ StillUsed fat d t ∧
      u32 (k + 2) ∉ cs ∧ fat.InRange (u32 (k + 2)))
    · apply zero_clus_ends
      intro range t same
      obtain ⟨spared, tables⟩ := marked.data range away same
      refine ⟨spared, ?_, away, range⟩
      intro k' hk' zero
      rw [tables k' hk'] at zero
      exact still k' hk' zero
    · exact fun _ t post => Machine.Ends.pure post

/-! ### The clusters -/

/-- Bytes are written to a cluster outside the chain. -/
theorem rw_clus_write_spared (h : Spared fat cs d₀ d) (out : c ∉ cs) {off : Nat} {bytes : List UInt8}
    (pos : 0 < bytes.length) (small : off + bytes.length < 2 ^ 32) :
    Leaves (rw_clus_write fat c (.ofBytes bytes) off bytes.length) d fun r t =>
      Spared fat cs d₀ t ∧ StillUsed fat d t ∧ r = bytes.length := by
  have whole : u32 (off + bytes.length) = off + bytes.length := Nat.mod_eq_of_lt small
  by_cases range : fat.InRange c
  · by_cases inside : off + bytes.length ≤ fat.byts_per_clus
    · apply Machine.Ends.of_ok (rw_clus_write_run range pos inside)
      have within : ∀ x, x < fat.clusterAt c ∨ fat.clusterAt c + fat.byts_per_clus ≤ x →
          d.blit (fat.clusterAt c + off) bytes x = d x := fun x away => Memory.blit_outside _ (by omega)
      obtain ⟨spared, tables⟩ := h.data range out within
      exact ⟨spared, fun k hk zero => (tables k hk).symm.trans zero, rfl⟩
    · rw [rw_clus_write, whole, if_pos (Nat.lt_of_not_le inside)]
      exact Machine.Ends.halt trivial
  · rw [rw_clus_write, first_sec_of_clus, if_pos (out_of_range range)]
    apply Machine.Ends.ite
    · exact fun _ => Machine.Ends.halt trivial
    · exact fun _ => Machine.Ends.bind (R := fun _ _ => False) (Machine.Ends.halt trivial) fun _ _ no => no.elim

theorem rw_clus_read_spared (c off n : Nat) :
    Leaves (rw_clus_read fat c off n) d fun _ t => t = d := by
  rw [rw_clus_read]
  apply Machine.Ends.ite
  · exact fun _ => Machine.Ends.halt trivial
  intro _
  apply Machine.Ends.bind (R := fun _ t => t = d)
  · rw [first_sec_of_clus]
    exact Machine.Ends.ite (fun _ => Machine.Ends.halt trivial) fun _ => Machine.Ends.pure rfl
  · rintro _ _ rfl
    exact Machine.Ends.get_bind (Machine.Ends.pure rfl)

/-! ### Along another chain -/

/-- The first and the current cluster of the entry are outside the chain. -/
def Elsewhere (cs : List Nat) (e : Dirent) : Prop := e.first_clus ∉ cs ∧ e.cur_clus ∉ cs

variable {e dp ep : Dirent} {off n : Nat}

/-- The first loop gives up only where it may not allocate, and then has not. -/
theorem relocForward_spared (h : Spared fat cs d₀ d) (away : Elsewhere cs e) {alloc : Bool}
    (withheld : alloc = true → Withheld fat cs d) (more : Nat) :
    Leaves (relocForward fat alloc more e) d fun r t => Spared fat cs d₀ t ∧ StillUsed fat d t ∧
      Elsewhere cs r.2 ∧ if alloc then r.1 = true else t = d := by
  induction more generalizing e d with
  | zero =>
    refine Machine.Ends.pure ⟨h, .refl d, away, ?_⟩
    split
    · rfl
    · rfl
  | succ more ih =>
    rw [relocForward]
    apply Machine.Ends.bind (read_fat_spared h away.2)
    rintro clus _ ⟨rfl, next⟩
    apply Machine.Ends.ite
    · intro _
      apply Machine.Ends.ite
      · rintro rfl
        apply Machine.Ends.bind (alloc_clus_spared h (withheld rfl))
        rintro clus t ⟨spared, still, out, range⟩
        have small : clus < 2 ^ 32 := lt_trans range.lt (by decide)
        have some : clus ≠ 0 := by
          have := range.1
          omega
        apply Machine.Ends.bind (write_fat_spared spared away.2 out some small)
        rintro _ u ⟨spared', still'⟩
        have both := still.trans still'
        apply (ih (e := e.advance clus) spared' ⟨away.1, out⟩ fun _ => (withheld rfl).mono both).mono
        rintro r v ⟨spared'', still'', away', there⟩
        exact ⟨spared'', both.trans still'', away', there⟩
      · intro not
        refine Machine.Ends.pure ⟨h, .refl _, ⟨away.1, away.1⟩, ?_⟩
        rw [if_neg not]
    · intro _
      apply Machine.Ends.ite
      · exact fun _ => Machine.Ends.halt trivial
      · exact fun _ => ih (e := e.advance clus) h ⟨away.1, next⟩ withheld

theorem relocFromStart_spared (h : Spared fat cs d₀ d) (away : Elsewhere cs e) (more : Nat) :
    Leaves (relocFromStart fat more e) d fun r t => t = d ∧ Elsewhere cs r := by
  induction more generalizing e with
  | zero => exact Machine.Ends.pure ⟨rfl, away⟩
  | succ more ih =>
    rw [relocFromStart]
    apply Machine.Ends.bind (read_fat_spared h away.2)
    rintro clus _ ⟨rfl, next⟩
    apply Machine.Ends.ite
    · exact fun _ => Machine.Ends.halt trivial
    · exact fun _ => ih ⟨away.1, next⟩

theorem reloc_clus_spared (h : Spared fat cs d₀ d) (away : Elsewhere cs e) {alloc : Bool}
    (withheld : alloc = true → Withheld fat cs d) (off : Nat) :
    Leaves (reloc_clus fat e off alloc) d fun r t => Spared fat cs d₀ t ∧ StillUsed fat d t ∧
      Elsewhere cs r.2 ∧ if alloc then r.1 = some (off % fat.byts_per_clus) else t = d := by
  rw [reloc_clus]
  apply Machine.Ends.bind (relocForward_spared h away withheld _)
  rintro ⟨there, e₁⟩ t ⟨spared, still, away₁, found⟩
  apply Machine.Ends.ite
  · rintro rfl
    refine Machine.Ends.pure ⟨spared, still, away₁, ?_⟩
    cases alloc with
    | true => cases found
    | false => exact found
  intro _
  apply Machine.Ends.bind (R := fun r u => u = t ∧ Elsewhere cs r)
  · apply Machine.Ends.ite
    · exact fun _ => relocFromStart_spared spared (e := e₁.rewind) ⟨away₁.1, away₁.1⟩ _
    · exact fun _ => Machine.Ends.pure ⟨rfl, away₁⟩
  · rintro e₂ _ ⟨rfl, away₂⟩
    refine Machine.Ends.pure ⟨spared, still, away₂, ?_⟩
    cases alloc with
    | true => rfl
    | false => exact found

/-- Without allocating, `reloc_clus` only reads. -/
theorem reloc_clus_reads (h : Spared fat cs d₀ d) (away : Elsewhere cs e) (off : Nat) :
    Leaves (reloc_clus fat e off false) d fun r t => t = d ∧ Elsewhere cs r.2 := by
  have withheld : false = true → Withheld fat cs d := nofun
  apply (reloc_clus_spared h away withheld off).mono
  rintro r t ⟨-, -, away₁, same⟩
  exact ⟨same, away₁⟩

/-! ### Making an entry -/

theorem putSlot_spared (h : Spared fat cs d₀ d) (away : Elsewhere cs dp) (withheld : Withheld fat cs d)
    (off : Nat) {de : Slot} (len : de.length = 32) :
    Leaves (putSlot fat dp off de) d fun r t => Spared fat cs d₀ t ∧ StillUsed fat d t ∧
      Elsewhere cs r := by
  rw [putSlot]
  apply Machine.Ends.bind (reloc_clus_spared h away (fun _ => withheld) off)
  rintro ⟨off₂, dp₁⟩ t ⟨spared, still, away₁, rfl⟩
  have small : off % fat.byts_per_clus < 2 ^ 17 :=
    (Nat.mod_lt _ Geometry.byts_per_clus_pos).trans fat.byts_per_clus_lt
  have write := @rw_clus_write_spared fat cs d₀ t _ spared away₁.2 (off % fat.byts_per_clus) de
    (by omega) (by omega)
  rw [len] at write
  apply Machine.Ends.bind write
  rintro _ u ⟨spared', still', -⟩
  exact Machine.Ends.pure ⟨spared', still.trans still', away₁⟩

theorem emakeLong_spared (h : Spared fat cs d₀ d) (away : Elsewhere cs dp)
    (withheld : Withheld fat cs d) (ep : Dirent) (entcnt : Nat) (checksum : UInt8) (i off : Nat) :
    Leaves (emakeLong fat ep entcnt checksum i dp off) d fun r t => Spared fat cs d₀ t ∧
      StillUsed fat d t ∧ Elsewhere cs r.1 := by
  induction i generalizing dp d off with
  | zero => exact Machine.Ends.pure ⟨h, .refl d, away⟩
  | succ i ih =>
    rw [emakeLong]
    apply Machine.Ends.bind (putSlot_spared h away withheld off (longSlot_length (nameUnits_length _)))
    rintro dp₁ t ⟨spared, still, away₁⟩
    apply (ih spared away₁ (withheld.mono still) _).mono
    rintro r u ⟨spared', still', away₂⟩
    exact ⟨spared', still.trans still', away₂⟩

theorem emake_spared (h : Spared fat cs d₀ d) (away : Elsewhere cs dp) (withheld : Withheld fat cs d)
    (ep : Dirent) (off : Nat) :
    Leaves (emake fat dp ep off) d fun r t => Spared fat cs d₀ t ∧ StillUsed fat d t ∧
      Elsewhere cs r := by
  rw [emake]
  apply Machine.Ends.ite
  · exact fun _ => Machine.Ends.halt trivial
  intro _
  apply Machine.Ends.ite
  · exact fun _ => Machine.Ends.halt trivial
  intro _
  apply Machine.Ends.ite
  · intro _
    apply putSlot_spared h away withheld
    apply shortSlot_length
    split
    · rfl
    · rfl
  · intro _
    apply Machine.Ends.bind (emakeLong_spared h away withheld _ _ _ _ _)
    rintro ⟨dp₁, off₁⟩ t ⟨spared, still, away₁⟩
    apply (putSlot_spared spared away₁ (withheld.mono still) off₁
      (shortSlot_length (generate_shortname_length _) _ _ _)).mono
    rintro r u ⟨spared', still', away₂⟩
    exact ⟨spared', still.trans still', away₂⟩

/-! ### Looking for an entry -/

theorem enextFrom_spared (h : Spared fat cs d₀ d) (away : Elsewhere cs dp) (limit off : Nat) (s : Scan) :
    Leaves (enextFrom fat limit dp off s) d fun r t => t = d ∧ Elsewhere cs r.2.1 := by
  induction limit generalizing dp off s with
  | zero => exact Machine.Ends.halt trivial
  | succ limit ih =>
    rw [enextFrom]
    apply Machine.Ends.bind (reloc_clus_reads h away off)
    rintro ⟨off₂, dp₁⟩ t ⟨rfl, away₁⟩
    cases off₂ with
    | none => exact Machine.Ends.pure ⟨rfl, away₁⟩
    | some off₂ =>
      apply Machine.Ends.bind (rw_clus_read_spared _ _ _)
      rintro de u rfl
      apply Machine.Ends.bind (R := fun _ t => t = u)
      · exact Machine.Ends.lift (fun _ _ => trivial) fun _ _ => rfl
      rintro ⟨type, s₁⟩ _ rfl
      cases type with
      | some type => exact Machine.Ends.pure ⟨rfl, away₁⟩
      | none => exact ih away₁ _ _

theorem enext_spared (h : Spared fat cs d₀ d) (away : Elsewhere cs dp) (ep : Dirent) (off count : Nat) :
    Leaves (enext fat dp ep off count) d fun r t => t = d ∧ Elsewhere cs r.2.1 := by
  rw [enext]
  apply Machine.Ends.ite
  · exact fun _ => Machine.Ends.halt trivial
  intro _
  apply Machine.Ends.ite
  · exact fun _ => Machine.Ends.halt trivial
  intro _
  apply Machine.Ends.ite
  · exact fun _ => Machine.Ends.pure ⟨rfl, away⟩
  intro _
  apply Machine.Ends.bind (enextFrom_spared h away _ _ _)
  rintro ⟨type, dp₁, s⟩ _ ⟨rfl, away₁⟩
  exact Machine.Ends.pure ⟨rfl, away₁⟩

theorem lookupFrom_spared (h : Spared fat cs d₀ d) (away : Elsewhere cs dp) (filename : List UInt8)
    (limit : Nat) (ep : Dirent) (off count : Nat) :
    Leaves (lookupFrom fat filename limit dp ep off count) d fun r t => t = d ∧ Elsewhere cs r.2.1 := by
  induction limit generalizing dp ep off count with
  | zero => exact Machine.Ends.halt trivial
  | succ limit ih =>
    rw [lookupFrom]
    apply Machine.Ends.bind (enext_spared h away ep off count)
    rintro ⟨type, dp₁, ep₁, count₁⟩ _ ⟨rfl, away₁⟩
    apply Machine.Ends.ite
    · exact fun _ => Machine.Ends.pure ⟨rfl, away₁⟩
    intro _
    apply Machine.Ends.ite
    · exact fun _ => Machine.Ends.pure ⟨rfl, away₁⟩
    · exact fun _ => ih away₁ _ _ _

theorem dirlookup_spared (h : Spared fat cs d₀ d) (away : Elsewhere cs dp) (ep : Dirent)
    (filename : List UInt8) :
    Leaves (dirlookup fat dp ep filename) d fun r t => t = d ∧ Elsewhere cs r.2.1 := by
  rw [dirlookup]
  apply Machine.Ends.ite
  · exact fun _ => Machine.Ends.halt trivial
  intro _
  apply Machine.Ends.ite
  · exact fun _ => Machine.Ends.pure ⟨rfl, away⟩
  intro _
  apply Machine.Ends.ite
  · exact fun _ => Machine.Ends.pure ⟨rfl, away⟩
  intro _
  apply Machine.Ends.bind (reloc_clus_reads h away 0)
  rintro ⟨off₂, dp₁⟩ _ ⟨rfl, away₁⟩
  apply Machine.Ends.bind (lookupFrom_spared h away₁ filename _ _ _ _)
  rintro ⟨found, dp₂, off⟩ _ ⟨rfl, away₂⟩
  exact Machine.Ends.pure ⟨rfl, away₂⟩

/-- The first cluster that a short-name slot gives. -/
def Slot.first (de : Slot) : Nat := field de 20 2 * 2 ^ 16 + field de 26 2

/-- A directory in order, of which no file begins in the chain. -/
def NoneBegins (fat : Geometry) (cs : List Nat) (d : Disk) (dp : Dirent) : Prop :=
  ∃ ds items tail, Directory fat d ds dp ∧ Lists (slotsOf fat d ds) items tail ∧
    ∀ de ∈ slotsOf fat d ds, de.attr ≠ ATTR_LONG_NAME → de.order ≠ EMPTY_ENTRY → de.first ∉ cs

/-- An entry is complete only at a short-name slot. -/
theorem Scan.slot_info {s r : Scan} {de : Slot} (step : s.slot de = .ok (some 1, r)) :
    de.attr ≠ ATTR_LONG_NAME ∧ de.order ≠ EMPTY_ENTRY ∧ ∃ e, r.ep = read_entry_info e de := by
  rw [Scan.slot] at step
  split at step
  · cases step
  · split at step
    · cases step
    · next full =>
      split at step
      · split at step
        · cases step
        · cases step
      · split at step
        · next long =>
          dsimp only at step
          split at step
          · cases step
          · split at step
            · cases step
            · split at step
              · cases step
              · cases step
        · next short =>
          split at step
          · cases step
            exact ⟨short, full, _, rfl⟩
          · cases step
            exact ⟨short, full, _, rfl⟩

theorem scan_info {slots : List Slot} {s r : Scan} (found : scan slots s = .ok (1, r)) :
    ∃ de ∈ slots, de.attr ≠ ATTR_LONG_NAME ∧ de.order ≠ EMPTY_ENTRY ∧
      ∃ e, r.ep = read_entry_info e de := by
  induction slots generalizing s with
  | nil => cases found
  | cons de rest ih =>
    rw [scan] at found
    split at found
    · cases found
    · next type s' step =>
      cases found
      exact ⟨de, List.mem_cons_self, Scan.slot_info step⟩
    · next s' step =>
      obtain ⟨de', mem, what⟩ := ih found
      exact ⟨de', List.mem_cons_of_mem _ mem, what⟩

/-- The entry of a name comes from a slot of the directory. -/
theorem searchFrom_info {slots tail : List Slot} {items : List Item} {filename : List UInt8}
    {limit i count last : Nat} (lists : Lists (slots.drop i) items tail) (named : filename ≠ [])
    (found : searchFrom filename slots limit ep i count = .ok (some e, last)) :
    ∃ de ∈ slots, de.attr ≠ ATTR_LONG_NAME ∧ de.order ≠ EMPTY_ENTRY ∧
      e.first_clus = de.first ∧ e.cur_clus = de.first := by
  induction limit generalizing ep i count items with
  | zero => cases found
  | succ limit ih =>
    obtain ⟨type, s, run, goes⟩ := lists.goes ep count
    rw [searchFrom, run] at found
    dsimp only at found
    by_cases done : type = -1
    · rw [if_pos done] at found
      cases found
    · rw [if_neg done] at found
      by_cases same : sameName filename s.ep.filename
      · rw [if_pos same] at found
        cases found
        have complete : type = 1 := by
          cases goes with
          | ends ends => exact absurd ends done
          | file first => exact first
          | gap _ _ _ _ unnamed =>
            rw [unnamed, sameName_clear] at same
            exact absurd same named
        rw [complete] at run
        obtain ⟨de, mem, short, full, e, read⟩ := scan_info run
        exact ⟨de, List.mem_of_mem_drop mem, short, full, by rw [read]; rfl, by rw [read]; rfl⟩
      · rw [if_neg same] at found
        obtain ⟨front, items', -, split, counted, -⟩ := goes.front done
        apply ih _ found
        · exact items'
        · rw [← List.drop_drop, counted]
          rw [split] at lists
          exact lists.drop

/-- What a name is found to be does not begin in the chain. -/
theorem NoneBegins.found (none : NoneBegins fat cs d dp) {filename : List UInt8} (named : filename ≠ [])
    (fresh : ep.valid ≠ 1) : Leaves (dirlookup fat dp ep filename) d fun r _ =>
      ∀ e, r.1 = some e → Elsewhere cs e := by
  obtain ⟨ds, items, tail, dir, lists, others⟩ := none
  obtain ⟨k, -, ⟨found, last⟩, searched, run⟩ := dirlookup_run dir lists fresh filename
  apply Machine.Ends.of_ok run
  rintro e rfl
  obtain ⟨de, mem, short, full, first, cur⟩ :=
    searchFrom_info (show Lists (List.drop 0 _) items tail from lists) named searched
  exact ⟨first ▸ others de mem short full, cur ▸ others de mem short full⟩

/-! ### Reading and writing another file -/

theorem ereadFrom_spared (h : Spared fat cs d₀ d) (away : Elsewhere cs e) (n limit tot off : Nat) :
    Leaves (ereadFrom fat n limit e tot off) d fun r t => t = d ∧ Elsewhere cs r.2 := by
  induction limit generalizing e tot off with
  | zero => exact Machine.Ends.halt trivial
  | succ limit ih =>
    rw [ereadFrom]
    apply Machine.Ends.ite
    · intro _
      apply Machine.Ends.bind (reloc_clus_reads h away off)
      rintro ⟨off₂, e₁⟩ _ ⟨rfl, away₁⟩
      apply Machine.Ends.bind (rw_clus_read_spared _ _ _)
      rintro bytes _ rfl
      apply Machine.Ends.bind (ih away₁ _ _)
      rintro ⟨rest, e₂⟩ _ ⟨rfl, away₂⟩
      exact Machine.Ends.pure ⟨rfl, away₂⟩
    · exact fun _ => Machine.Ends.pure ⟨rfl, away⟩

theorem eread_spared (h : Spared fat cs d₀ d) (away : Elsewhere cs e) (off n : Nat) :
    Leaves (eread fat e off n) d fun r t => t = d ∧ Elsewhere cs r.2.2 := by
  rw [eread]
  apply Machine.Ends.ite
  · exact fun _ => Machine.Ends.pure ⟨rfl, away⟩
  intro _
  apply Machine.Ends.bind (ereadFrom_spared h away _ _ _ _)
  rintro ⟨bytes, e₁⟩ _ ⟨rfl, away₁⟩
  exact Machine.Ends.pure ⟨rfl, away₁⟩

theorem ewriteFrom_spared {bytes : List UInt8} (h : Spared fat cs d₀ d) (away : Elsewhere cs e)
    (withheld : Withheld fat cs d) (limit tot off : Nat) :
    Leaves (ewriteFrom fat (.ofBytes bytes) bytes.length limit e tot off) d fun r t =>
      Spared fat cs d₀ t ∧ Elsewhere cs r.2.2 := by
  induction limit generalizing e d tot off with
  | zero => exact Machine.Ends.halt trivial
  | succ limit ih =>
    rw [ewriteFrom]
    apply Machine.Ends.ite
    · intro more
      apply Machine.Ends.bind (reloc_clus_spared h away (fun _ => withheld) off)
      rintro ⟨off₂, e₁⟩ t ⟨spared, still, away₁, -⟩
      obtain ⟨pos, within⟩ := step_length fat off (show 0 < bytes.length - tot by omega)
      have small := fat.byts_per_clus_lt
      generalize step : min (fat.byts_per_clus - off % fat.byts_per_clus) (bytes.length - tot) = m
        at pos within
      have length : ((bytes.drop tot).take m).length = m := by
        rw [List.length_take, List.length_drop]
        omega
      have write := @rw_clus_write_spared fat cs d₀ t _ spared away₁.2 (off % fat.byts_per_clus)
        ((bytes.drop tot).take m) (by omega) (by omega)
      rw [length, ← rw_clus_write_take, ← ofBytes_from] at write
      apply Machine.Ends.bind write
      rintro r u ⟨spared', still', -⟩
      apply Machine.Ends.ite
      · exact fun _ => Machine.Ends.pure ⟨spared', away₁⟩
      · exact fun _ => ih spared' away₁ (withheld.mono (still.trans still')) _ _
    · exact fun _ => Machine.Ends.pure ⟨h, away⟩

theorem ewrite_spared {bytes : List UInt8} (h : Spared fat cs d₀ d) (away : Elsewhere cs e)
    (withheld : Withheld fat cs d) (off : Nat) :
    Leaves (ewrite fat e (.ofBytes bytes) off bytes.length) d fun r t =>
      Spared fat cs d₀ t ∧ Elsewhere cs r.2 := by
  rw [ewrite]
  apply Machine.Ends.ite
  · exact fun _ => Machine.Ends.pure ⟨h, away⟩
  intro _
  apply Machine.Ends.bind (R := fun r t => Spared fat cs d₀ t ∧ Withheld fat cs t ∧ Elsewhere cs r)
  · apply Machine.Ends.ite
    · intro _
      apply Machine.Ends.bind (alloc_clus_spared h withheld)
      rintro clus t ⟨spared, still, out, -⟩
      exact Machine.Ends.pure ⟨spared, withheld.mono still, out, out⟩
    · exact fun _ => Machine.Ends.pure ⟨h, withheld, away⟩
  · rintro e₁ t ⟨spared, withheld₁, away₁⟩
    apply Machine.Ends.bind (ewriteFrom_spared spared away₁ withheld₁ _ _ _)
    rintro ⟨tot, off₁, e₂⟩ u ⟨spared', away₂⟩
    apply Machine.Ends.pure
    refine ⟨spared', ?_⟩
    dsimp only
    split
    · exact away₂
    · exact away₂

/-! ### Giving clusters back -/

theorem etruncFrom_spared (h : Spared fat cs d₀ d) (out : c ∉ cs) (limit : Nat) :
    Leaves (etruncFrom fat limit c) d fun _ t => Spared fat cs d₀ t := by
  induction limit generalizing c d with
  | zero => exact Machine.Ends.halt trivial
  | succ limit ih =>
    rw [etruncFrom]
    apply Machine.Ends.ite
    · intro _
      apply Machine.Ends.bind (read_fat_spared h out)
      rintro next _ ⟨rfl, away⟩
      apply Machine.Ends.bind (R := fun _ t => Spared fat cs d₀ t)
      · exact write_fat_ends 0 fun range =>
          h.store range.lt_entries out (by decide) (not_mem_low h.range (by decide))
      · exact fun _ t spared => ih spared away
    · exact fun _ => Machine.Ends.pure h

theorem etrunc_spared (h : Spared fat cs d₀ d) (out : e.first_clus ∉ cs) (limit : Nat) :
    Leaves (etrunc fat limit e) d fun _ t => Spared fat cs d₀ t := by
  rw [etrunc]
  apply Machine.Ends.bind (etruncFrom_spared h out limit)
  exact fun _ t spared => Machine.Ends.pure spared

/-- A whole chain is followed, and each of its entries is cleared. -/
theorem Clusters.etruncFrom_run {rest : List Nat} {limit : Nat} (clusters : Clusters fat d (c :: rest))
    (enough : rest.length + 1 < limit) : ∃ d', etruncFrom fat limit c d = .ok ((), d') ∧
      fat.Cleared d d' (· ∈ c :: rest) := by
  induction rest generalizing c d limit with
  | nil =>
    obtain ⟨limit, rfl⟩ : ∃ l, limit = l + 2 := ⟨limit - 2, by omega⟩
    have range := clusters.range c List.mem_cons_self
    obtain ⟨last, read, mark⟩ := clusters.read_last (i := 0) rfl
    have stop : ¬Goes last := fun goes => absurd goes.2 (Nat.not_lt.mpr mark.1)
    refine ⟨fat.freed d c, ?_, ?_⟩
    · rw [etruncFrom, if_pos range.goes]
      refine (Machine.bind_of_ok read).trans ?_
      rw [Machine.bind_of_ok (free_clus_run range), etruncFrom, if_neg stop]
      rfl
    · have nothing : fat.Cleared (fat.freed d c) (fat.freed d c) fun _ => False :=
        ⟨fun _ _ none => none.elim, fun _ _ => rfl⟩
      refine nothing.freed ?_
      intro c'
      rw [List.mem_singleton, or_false]
  | cons next rest ih =>
    obtain ⟨limit, rfl⟩ : ∃ l, limit = l + 1 := ⟨limit - 1, by omega⟩
    have range := clusters.range c List.mem_cons_self
    have read := (clusters.read_next (i := 0) (Nat.succ_lt_succ (Nat.succ_pos _))).1
    have once : c ∉ next :: rest := (List.nodup_cons.mp clusters.chain.nodup).1
    have behind : Clusters fat d (next :: rest) :=
      ⟨clusters.chain.tail, fun c' mem => clusters.range c' (List.mem_cons_of_mem _ mem)⟩
    have kept : Clusters fat (fat.freed d c) (next :: rest) := by
      apply behind.congr
      intro c' mem
      have other : c' ≠ c := fun eq => once (eq ▸ mem)
      have same := @freed_entry fat d c c'
      rwa [if_neg other] at same
    obtain ⟨d', run, cleared⟩ := ih kept (Nat.lt_of_succ_lt_succ enough)
    refine ⟨d', ?_, cleared.freed fun c' => List.mem_cons⟩
    rw [etruncFrom, if_pos range.goes]
    refine (Machine.bind_of_ok read).trans ?_
    rw [Machine.bind_of_ok (free_clus_run range)]
    exact run

theorem Geometry.Cleared.entry_eq (cleared : fat.Cleared d d' (· ∈ cs)) (c : Nat) :
    fat.entry d' c = if c ∈ cs then 0 else fat.entry d c := by
  obtain ⟨zero, kept⟩ := cleared
  split
  · next mem =>
    have zeros : Memory.fetch (fun _ => 0) (fat.entryAt c) 4 = 0 := rfl
    rw [← zeros]
    exact Memory.fetch_congr fun i hi => zero c _ mem ⟨by omega, by omega⟩
  · next out =>
    apply Memory.fetch_congr
    intro i hi
    apply kept
    rintro c' mem ⟨low, high⟩
    have here : c' = c := by
      rw [Geometry.entryAt, Geometry.entryAt] at low high
      omega
    exact out (here ▸ mem)

/-- The chain has been given back: it is still one that nothing points into. -/
theorem Spared.cleared (h : Spared fat cs d₀ d) (cleared : fat.Cleared d d' (· ∈ cs)) :
    Spared fat cs d' d' := by
  constructor
  · exact h.range
  · intro c range out
    rw [cleared.entry_eq, if_neg out]
    exact h.closed c range out
  · exact fun _ _ => rfl
  · exact fun _ _ _ _ => rfl

/-! ### Writing back and removing -/

/-- All slots that `eremove` and `eupdate` go to are in the directory. -/
def InDirectory (fat : Geometry) (d : Disk) (dp e : Dirent) : Prop :=
  ∃ ds i, Directory fat d ds dp ∧ e.off = 32 * i ∧
    i + entryCount (d (fat.slotAt ds i)).toNat < capacity fat ds

variable {ds : List Nat}

theorem Spared.next_out (h : Spared fat cs d₀ d) (clusters : Clusters fat d ds) {i : Nat}
    (low : i < ds.length) (hi : i + 1 < ds.length) (out : ds[i] ∉ cs) : ds[i + 1] ∉ cs := by
  have range := clusters.range ds[i] (List.getElem_mem _)
  have read := (clusters.read_next hi).1
  rw [read_fat_run range, Except.ok.injEq, Prod.mk.injEq] at read
  rw [← read.1]
  exact h.closed _ range out

/-- A chain that begins outside stays outside. -/
theorem Spared.chain_out (h : Spared fat cs d₀ d) (clusters : Clusters fat d ds) (cursor : Cursor dp ds)
    (away : Elsewhere cs dp) : ∀ c ∈ ds, c ∉ cs := by
  have out : ∀ i (hi : i < ds.length), ds[i] ∉ cs := by
    intro i
    induction i with
    | zero =>
      intro hi
      have first := cursor.first
      rw [List.getElem?_eq_getElem hi] at first
      rw [Option.some.inj first]
      exact away.1
    | succ i ih =>
      intro hi
      exact h.next_out clusters (Nat.lt_of_succ_lt hi) hi (ih (Nat.lt_of_succ_lt hi))
  intro c mem
  obtain ⟨i, hi, rfl⟩ := List.getElem_of_mem mem
  exact out i hi

theorem Elsewhere.seek (away : Elsewhere cs dp) (out : ∀ c ∈ ds, c ∉ cs) {k : Nat} (hk : k < ds.length) :
    Elsewhere cs (dp.seek ds k) := by
  refine ⟨away.1, ?_⟩
  rw [Dirent.seek, List.getD_eq_getElem _ _ hk]
  exact out _ (List.getElem_mem _)

/-- The slots of a directory outside the chain are written. -/
theorem Spared.slots (h : Spared fat cs d₀ d) (clusters : Clusters fat d ds) (out : ∀ c ∈ ds, c ∉ cs)
    (within : ∀ x, (∀ i < capacity fat ds, x < fat.slotAt ds i ∨ fat.slotAt ds i + 32 ≤ x) → d' x = d x) :
    Spared fat cs d₀ d' := by
  apply h.change
  · intro c range
    left
    apply Memory.fetch_congr
    intro i hi
    apply within
    intro j _
    have := Geometry.entryAt_lt_slotAt ds range j
    omega
  · intro c mem i hi
    apply within
    intro j hj
    have range := clusters.slot_range hj
    have ne : c ≠ ds.getD (j / fat.slots) 0 := by
      rintro rfl
      rw [List.getD_eq_getElem _ _ (cluster_lt hj)] at mem
      exact out _ (List.getElem_mem _) mem
    have apart := Geometry.clusterAt_disjoint (h.range c mem) range ne
    have inside := slot_in_cluster fat j
    rw [Geometry.slotAt]
    omega

theorem eremove_spared (h : Spared fat cs d₀ d) (away : Elsewhere cs dp) (valid : e.valid = 1)
    (inside : InDirectory fat d dp e) :
    Leaves (eremove fat dp e) d fun r t => Spared fat cs d₀ t ∧ Elsewhere cs r.1 := by
  obtain ⟨ds, i, dir, off, fit⟩ := inside
  have out := h.chain_out dir.clusters dir.cursor away
  obtain ⟨k, hk, run⟩ := eremove_run dir valid off rfl fit
  apply Machine.Ends.of_ok run
  refine ⟨h.slots dir.clusters out fun x outside => ?_, away.seek out hk⟩
  rw [Geometry.erased, if_neg]
  rintro ⟨j, hj, rfl⟩
  have := outside (i + j) (by omega)
  omega

theorem eupdate_spared (h : Spared fat cs d₀ d) (away : Elsewhere cs dp)
    (inside : e.valid = 1 → e.dirty = true → InDirectory fat d dp e) :
    Leaves (eupdate fat dp e) d fun r t => Spared fat cs d₀ t ∧ Elsewhere cs r.1 := by
  by_cases idle : e.dirty = false ∨ e.valid ≠ 1
  · rw [eupdate, if_pos idle]
    exact Machine.Ends.pure ⟨h, away⟩
  · rw [not_or, Bool.not_eq_false, not_not] at idle
    obtain ⟨dirty, valid⟩ := idle
    obtain ⟨ds, i, dir, off, fit⟩ := inside valid dirty
    have out := h.chain_out dir.clusters dir.cursor away
    have small := dir.small
    have target : u32 (32 * i + entryCount (d (fat.slotAt ds i)).toNat <<< 5) =
        32 * (i + entryCount (d (fat.slotAt ds i)).toNat) := by
      rw [Nat.shiftLeft_eq, u32, Nat.mod_eq_of_lt (by omega)]
      omega
    apply Machine.Ends.of_ok (eupdate_slot dir valid dirty off rfl (by omega) target fit)
    refine ⟨h.slots dir.clusters out fun x outside => ?_, away.seek out (cluster_lt fit)⟩
    have length := Slot.update_length (d.window_length (fat.slotAt ds
      (i + entryCount (d (fat.slotAt ds i)).toNat)) 32) e.first_clus e.file_size
    apply Memory.blit_outside
    rw [length]
    exact outside _ fit

/-! ### What follows for the chain -/

/-- Nothing outside the chain leads to it. -/
theorem Spared.unreached (h : Spared fat cs d₀ d) {first : Nat} (out : first ∉ cs)
    (reach : fat.Reachable d first c) : c ∉ cs := by
  obtain ⟨-, path⟩ := reach
  induction path with
  | refl => exact out
  | tail _ step ih =>
    obtain ⟨range, -, rfl⟩ := step
    exact h.closed _ range ih

end AvxKernel.Fat
