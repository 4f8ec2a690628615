import AvxKernel.Fat.Alloc
import AvxKernel.Fat.Truncate
import AvxKernel.Lib.Paired

/-! Volumes whose tables end their chains with different marks. Entries are compared in
full, as numbers of 32 bits; any number from `FAT32_EOC` on is a mark, whatever its top
bits are. -/
namespace AvxKernel.Fat

variable {fat : Geometry} {d d' : Disk} {c k v w : Nat} {M : Nat → Prop}
  {L : Nat → Nat → Prop}

/-- The mark of an end, for an unsigned number. -/
def isMark (clus : Nat) : Prop := FAT32_EOC ≤ clus

/-- Two entries that are the same, but that a mark stands for any other. -/
def SameLink (M : Nat → Prop) (v w : Nat) : Prop := v = w ∨ M v ∧ M w

/-- Two entries that differ in the top four bits only. -/
def SameLow (v w : Nat) : Prop := v % 2 ^ 28 = w % 2 ^ 28

/-- The entries that the table has room for. -/
def Geometry.entries (fat : Geometry) : Nat := fat.fat_sz * (BSIZE / 4)

/-- An address outside the table. -/
def Geometry.Outside (fat : Geometry) (x : Nat) : Prop :=
  x < fat.rsvd_sec_cnt * BSIZE ∨ (fat.rsvd_sec_cnt + fat.fat_sz) * BSIZE ≤ x

/-- Two disks of which only the tables differ, and these as `L` says. -/
structure SameTable (fat : Geometry) (L : Nat → Nat → Prop) (d d' : Disk) : Prop where
  links : ∀ k < fat.entries, L (fat.entry d k) (fat.entry d' k)
  others : ∀ x, fat.Outside x → d x = d' x

/-- The clusters that are given back between two states of a disk. -/
def Geometry.Freed (fat : Geometry) (d d₁ : Disk) (k : Nat) : Prop :=
  fat.entry d k ≠ 0 ∧ fat.entry d₁ k = 0

/-- Two ends of `etrunc`: the same stop, or the same entry and the same clusters freed. -/
def SameFreed (fat : Geometry) (d d' : Disk) :
    Except Halt (Dirent × Disk) → Except Halt (Dirent × Disk) → Prop
  | .ok (e, d₁), .ok (e', d₁') => e = e' ∧ ∀ k < fat.entries, fat.Freed d d₁ k ↔ fat.Freed d' d₁' k
  | .error h, .error h' => h = h'
  | _, _ => False

/-- On both disks the same clusters are allocated, found and freed. -/
structure SameResults (fat : Geometry) (d d' : Disk) : Prop where
  alloc : (alloc_clus fat d).map Prod.fst = (alloc_clus fat d').map Prod.fst
  reloc : ∀ entry off alloc, (reloc_clus fat entry off alloc d).map Prod.fst =
    (reloc_clus fat entry off alloc d').map Prod.fst
  trunc : ∀ limit entry, SameFreed fat d d' (etrunc fat limit entry d) (etrunc fat limit entry d')

/-! ### Entries -/

theorem Geometry.InRange.lt_entries (h : fat.InRange c) : c < fat.entries := by
  have covers := fat.covers
  have high := h.2
  rw [Geometry.entries]
  rw [BSIZE] at covers ⊢
  omega

theorem entry_table (hk : k < fat.entries) {i : Nat} (hi : i < 4) :
    ¬fat.Outside (fat.entryAt k + i) := by
  rw [Geometry.entries, BSIZE] at hk
  rw [Geometry.Outside, Geometry.entryAt, Nat.add_mul, BSIZE]
  omega

theorem SameLink.zero (marks : ∀ v, M v → isMark v) (same : SameLink M v w) : v = 0 ↔ w = 0 := by
  rcases same with rfl | ⟨first, second⟩
  · exact Iff.rfl
  · have high := marks v first
    have high' := marks w second
    rw [isMark, FAT32_EOC] at high high'
    omega

theorem entry_stored (d : Disk) (c content : Nat) :
    fat.entry (d.store (fat.entryAt c) 4 content) c = valueOf (bytesOf content 4) := by
  have bytes := Memory.window_blit_same d (fat.entryAt c) (bytesOf content 4)
  rw [bytesOf_length] at bytes
  rw [Geometry.entry, Memory.fetch, Memory.store, bytes]

/-- An entry is written on both. -/
theorem SameTable.store (same : SameTable fat L d d') (hc : c < fat.entries)
    (link : L (valueOf (bytesOf v 4)) (valueOf (bytesOf w 4))) :
    SameTable fat L (d.store (fat.entryAt c) 4 v) (d'.store (fat.entryAt c) 4 w) where
  links k hk := by
    by_cases here : k = c
    · rw [here, entry_stored, entry_stored]
      exact link
    · have apart : fat.entryAt k + 4 ≤ fat.entryAt c ∨ fat.entryAt c + 4 ≤ fat.entryAt k := by
        rw [Geometry.entryAt, Geometry.entryAt]
        omega
      have kept := same.links k hk
      rw [Geometry.entry, Geometry.entry] at kept ⊢
      rw [Memory.fetch_store_other _ apart, Memory.fetch_store_other _ apart]
      exact kept
  others x out := by
    have outside : x < fat.entryAt c ∨ fat.entryAt c + 4 ≤ x := by
      by_contra inside
      have := entry_table hc (show x - fat.entryAt c < 4 by omega)
      rw [Nat.add_sub_cancel' (by omega)] at this
      exact this out
    rw [Memory.store_outside _ outside, Memory.store_outside _ outside]
    exact same.others x out

/-- The same is written outside the table. -/
theorem SameTable.fill (same : SameTable fat L d d') {a n : Nat}
    (out : (fat.rsvd_sec_cnt + fat.fat_sz) * BSIZE ≤ a) :
    SameTable fat L (d.fill a n 0) (d'.fill a n 0) where
  links k hk := by
    have kept := same.links k hk
    have before : fat.entryAt k + 4 ≤ a := by
      have last : ¬fat.Outside (fat.entryAt k + 3) := entry_table hk (by decide)
      rw [Geometry.Outside, not_or] at last
      omega
    have kept' : ∀ m : Disk, fat.entry (m.fill a n 0) k = fat.entry m k := fun m =>
      Memory.fetch_congr fun i hi => m.fill_outside (.inl (by omega))
    rw [kept', kept']
    exact kept
  others x out' := by
    rw [Memory.fill, Memory.fill]
    split
    · rfl
    · exact same.others x out'

/-! ### Single calls -/

section Calls

variable (fat) (M)

theorem read_fat_paired (c : Nat) :
    Machine.Paired (SameTable fat (SameLink M)) (SameLink M) (read_fat fat c) (read_fat fat c) := by
  by_cases range : fat.InRange c
  · intro d d' same
    rw [read_fat_run range, read_fat_run range]
    exact ⟨same.links c range.lt_entries, same⟩
  · apply Machine.Paired.ite Iff.rfl fun _ => Machine.Paired.panic _
    intro low
    apply Machine.Paired.ite Iff.rfl fun _ => Machine.Paired.pure (.inl rfl)
    intro small
    apply Machine.Paired.ite Iff.rfl fun _ => Machine.Paired.pure (.inl rfl)
    intro inside
    rw [Geometry.u32_last] at inside
    exact absurd ⟨Nat.not_lt.mp low, Nat.not_lt.mp inside⟩ range

theorem write_fat_paired (c content : Nat) :
    Machine.Paired (SameTable fat (SameLink M)) Eq (write_fat fat c content) (write_fat fat c content) := by
  by_cases range : fat.InRange c
  · intro d d' same
    rw [write_fat_run range, write_fat_run range]
    exact ⟨rfl, same.store range.lt_entries (.inl rfl)⟩
  · apply Machine.Paired.ite Iff.rfl fun _ => Machine.Paired.panic _
    intro low
    have out : fat.OutOfRange c := by
      by_contra inside
      rw [Volume.OutOfRange, Geometry.u32_last, not_or, Nat.not_lt, Nat.not_lt] at inside
      exact range inside
    rw [fat_sec_of_clus, if_pos out]
    exact fun _ _ _ => rfl

theorem zero_clus_paired (c : Nat) :
    Machine.Paired (SameTable fat (SameLink M)) Eq (zero_clus fat c) (zero_clus fat c) := by
  by_cases range : fat.InRange c
  · have last := range.sector_lt
    have before := fat.before
    have fits := fat.fits
    rw [zero_clus, if_neg range.not_out]
    apply Machine.Paired.bind (show Machine.Paired (SameTable fat (SameLink M))
      (fun sec sec' => sec = sec' ∧ sec = (c - 2) * fat.sec_per_clus + fat.first_data_sec) _ _ from ?_)
    · rintro sec _ ⟨rfl, place⟩
      apply Machine.Paired.forM
      intro i mem
      have inside := List.mem_range.mp mem
      apply Machine.Paired.modify
      intro d d' same
      apply same.fill
      rw [u32, Nat.mod_eq_of_lt (by omega)]
      exact Nat.mul_le_mul_right _ (by omega)
    · intro d d' same
      rw [first_sec_of_clus_run range, first_sec_of_clus_run range]
      exact ⟨⟨rfl, rfl⟩, same⟩
  · have out : fat.OutOfRange c := by
      rw [Volume.OutOfRange, Geometry.u32_last]
      by_contra inside
      rw [not_or, Nat.not_lt, Nat.not_lt] at inside
      exact range inside
    rw [zero_clus, if_pos out]
    exact Machine.Paired.panic _

/-- A place in the table is that of the cluster of this number. -/
theorem byIndex_eq (hk : k < fat.entries) : fat.byIndex k = fat.entryAt k := by
  have before := fat.before
  have fits := fat.fits
  rw [Geometry.entries, BSIZE] at hk
  rw [Volume.byIndex, Geometry.entryAt, BSIZE, u32, Nat.mod_eq_of_lt (by omega)]
  omega

variable {M} in
theorem alloc_clus_paired (marks : ∀ v, M v → isMark v) :
    Machine.Paired (SameTable fat (SameLink M)) Eq (alloc_clus fat) (alloc_clus fat) := by
  intro d d' same
  have found : ((List.range (fat.fat_sz * (BSIZE / 4))).find? fun k => d.fetch (fat.byIndex k) 4 == 0) =
      (List.range (fat.fat_sz * (BSIZE / 4))).find? fun k => d'.fetch (fat.byIndex k) 4 == 0 := by
    apply List.find?_congr
    intro k mem
    have hk : k < fat.entries := List.mem_range.mp mem
    have zero := (same.links k hk).zero marks
    rw [byIndex_eq fat hk, Bool.eq_iff_iff, beq_iff_eq, beq_iff_eq]
    exact zero
  rw [alloc_clus_run, alloc_clus_run, ← found]
  cases here : (List.range (fat.fat_sz * (BSIZE / 4))).find? fun k =>
      d.fetch (fat.byIndex k) 4 == 0 with
  | none => rfl
  | some k =>
    have hk : k < fat.entries := List.mem_range.mp (List.mem_of_find?_eq_some here)
    dsimp only
    apply Machine.Paired.bind (zero_clus_paired fat M (u32 (k + 2))) fun _ _ _ =>
      Machine.Paired.pure rfl
    rw [byIndex_eq fat hk]
    exact same.store hk (.inl rfl)

/-! ### Along a chain -/

theorem relocForward_paired (alloc : Bool) (more : Nat) (entry : Dirent) :
    Machine.Paired (SameTable fat (SameLink isEnd)) Eq (relocForward fat alloc more entry)
      (relocForward fat alloc more entry) := by
  induction more generalizing entry with
  | zero => exact Machine.Paired.pure rfl
  | succ more ih =>
    apply Machine.Paired.bind (read_fat_paired fat isEnd entry.cur_clus)
    intro v w link
    apply Machine.Paired.ite
    · rcases link with rfl | ⟨first, second⟩
      · exact Iff.rfl
      · exact iff_of_true first second
    · intro _
      apply Machine.Paired.ite Iff.rfl
      · intro _
        apply Machine.Paired.bind (alloc_clus_paired fat fun v mark => mark.1)
        rintro clus _ rfl
        exact Machine.Paired.bind (write_fat_paired fat isEnd _ _) fun _ _ _ => ih _
      · exact fun _ => Machine.Paired.pure rfl
    · intro goes
      obtain rfl := link.resolve_right fun ⟨first, _⟩ => goes first
      exact Machine.Paired.ite Iff.rfl (fun _ => Machine.Paired.panic _) fun _ => ih _

theorem relocFromStart_paired (more : Nat) (entry : Dirent) :
    Machine.Paired (SameTable fat (SameLink isEnd)) Eq (relocFromStart fat more entry)
      (relocFromStart fat more entry) := by
  induction more generalizing entry with
  | zero => exact Machine.Paired.pure rfl
  | succ more ih =>
    apply Machine.Paired.bind (read_fat_paired fat isEnd entry.cur_clus)
    intro v w link
    apply Machine.Paired.ite
    · rcases link with rfl | ⟨first, second⟩
      · exact Iff.rfl
      · exact iff_of_true first.1 second.1
    · exact fun _ => Machine.Paired.panic _
    · intro goes
      obtain rfl := link.resolve_right fun ⟨first, _⟩ => goes first.1
      exact ih _

theorem reloc_clus_paired (entry : Dirent) (off : Nat) (alloc : Bool) :
    Machine.Paired (SameTable fat (SameLink isEnd)) Eq (reloc_clus fat entry off alloc)
      (reloc_clus fat entry off alloc) := by
  apply Machine.Paired.bind (relocForward_paired fat alloc _ entry)
  rintro ⟨there, e⟩ _ rfl
  apply Machine.Paired.ite Iff.rfl fun _ => Machine.Paired.pure rfl
  intro _
  apply Machine.Paired.bind (Q := Eq)
  · exact Machine.Paired.ite Iff.rfl (fun _ => relocFromStart_paired fat _ _) fun _ =>
      Machine.Paired.pure rfl
  · rintro e' _ rfl
    exact Machine.Paired.pure rfl

theorem etruncFrom_paired (limit : Nat) (link : SameLink isMark v w) :
    Machine.Paired (SameTable fat (SameLink isMark)) Eq (etruncFrom fat limit v) (etruncFrom fat limit w) := by
  induction limit generalizing v w with
  | zero => exact Machine.Paired.halt _
  | succ limit ih =>
    apply Machine.Paired.ite
    · rcases link with rfl | ⟨first, second⟩
      · exact Iff.rfl
      · exact iff_of_false (fun goes => absurd goes.2 (Nat.not_lt.mpr first))
          fun goes => absurd goes.2 (Nat.not_lt.mpr second)
    · intro goes
      obtain rfl := link.resolve_right fun ⟨first, _⟩ => absurd goes.2 (Nat.not_lt.mpr first)
      apply Machine.Paired.bind (read_fat_paired fat isMark v)
      intro next next' link
      exact Machine.Paired.bind (write_fat_paired fat isMark v 0) fun _ _ _ => ih link
    · exact fun _ => Machine.Paired.pure rfl

end Calls

/-! ### Whole calls -/

theorem SameTable.mono {N : Nat → Prop} (same : SameTable fat (SameLink M) d d') (le : ∀ v, M v → N v) :
    SameTable fat (SameLink N) d d' where
  links k hk := (same.links k hk).imp id fun ⟨first, second⟩ => ⟨le _ first, le _ second⟩
  others := same.others

theorem SameTable.freed {d₁ d₁' : Disk} (same : SameTable fat (SameLink isMark) d d')
    (same₁ : SameTable fat (SameLink isMark) d₁ d₁') (hk : k < fat.entries) :
    fat.Freed d d₁ k ↔ fat.Freed d' d₁' k := by
  have before := (same.links k hk).zero fun _ mark => mark
  have after := (same₁.links k hk).zero fun _ mark => mark
  rw [Geometry.Freed, Geometry.Freed, Ne, Ne, before, after]

theorem etrunc_same (same : SameTable fat (SameLink isMark) d d') (limit : Nat) (entry : Dirent) :
    SameFreed fat d d' (etrunc fat limit entry d) (etrunc fat limit entry d') := by
  have walked := etruncFrom_paired fat limit (.inl rfl : SameLink isMark entry.first_clus _) d d' same
  cases run : etruncFrom fat limit entry.first_clus d with
  | error h =>
    cases run' : etruncFrom fat limit entry.first_clus d' with
    | error h' =>
      rw [run, run'] at walked
      rw [etrunc, Machine.bind_of_error run, Machine.bind_of_error run']
      exact walked
    | ok r =>
      rw [run, run'] at walked
      exact walked.elim
  | ok r =>
    cases run' : etruncFrom fat limit entry.first_clus d' with
    | error h' =>
      rw [run, run'] at walked
      exact walked.elim
    | ok r' =>
      obtain ⟨u, d₁⟩ := r
      obtain ⟨u', d₁'⟩ := r'
      rw [run, run'] at walked
      rw [etrunc, Machine.bind_of_ok run, Machine.bind_of_ok run']
      exact ⟨rfl, fun k hk => same.freed walked.2 hk⟩

/-- Where only marks differ, the same clusters are allocated and freed; and where the
marks are not negative as an `int`, the same clusters are found as well. -/
theorem marks_alike (fat : Geometry) (d d' : Disk) :
    (SameTable fat (SameLink isEnd) d d' → SameResults fat d d') ∧
    (SameTable fat (SameLink isMark) d d' →
      (alloc_clus fat d).map Prod.fst = (alloc_clus fat d').map Prod.fst ∧
      ∀ limit entry, SameFreed fat d d' (etrunc fat limit entry d) (etrunc fat limit entry d')) := by
  constructor
  · intro same
    have marks : SameTable fat (SameLink isMark) d d' := same.mono fun _ mark => mark.1
    exact ⟨(alloc_clus_paired fat (fun _ mark => mark) d d' marks).value,
      fun entry off alloc => (reloc_clus_paired fat entry off alloc d d' same).value,
      etrunc_same marks⟩
  · intro same
    exact ⟨(alloc_clus_paired fat (fun _ mark => mark) d d' same).value, etrunc_same same⟩

theorem linkDisk_same {v' w' : Nat} (alike : ∀ v, L v v)
    (first : L (valueOf (bytesOf v 4)) (valueOf (bytesOf v' 4)))
    (second : L (valueOf (bytesOf w 4)) (valueOf (bytesOf w' 4))) :
    SameTable ringVolume L (linkDisk v w) (linkDisk v' w') := by
  have blank : SameTable ringVolume L (fun _ => 0) fun _ => 0 := ⟨fun k _ => alike _, fun _ _ => rfl⟩
  exact (blank.store (by decide) first).store (by decide) second

/-- A chain that ends with another mark. -/
theorem marks_alike_pair : SameResults ringVolume pairDisk (linkDisk 3 0x1fffffff) :=
  (marks_alike ringVolume pairDisk (linkDisk 3 0x1fffffff)).1
    (linkDisk_same (fun _ => .inl rfl) (.inl rfl) (.inr ⟨by decide, by decide⟩))

/-- A successor with a bit above the lower 28 is taken for the mark of an end. -/
theorem top_bits_count : ¬∀ d d', SameTable ringVolume SameLow d d' → SameResults ringVolume d d' := by
  intro alike
  have wide : SameTable ringVolume SameLow pairDisk (linkDisk 0x10000003 FAT32_EOF) :=
    linkDisk_same (fun _ => rfl) (show _ % _ = _ % _ by decide) rfl
  have found := (alike _ _ wide).reloc pairFile 512 false
  obtain ⟨chain, cursor⟩ := pairFile_whole.chain (by decide)
  rw [reloc_clus_inside chain cursor false (by decide)] at found
  have two := (@linkDisk_entry 0x10000003 FAT32_EOF (by decide) (by decide)).1
  have read := read_fat_run (d := linkDisk 0x10000003 FAT32_EOF) (show ringVolume.InRange 2 by decide)
  rw [show (linkDisk 0x10000003 FAT32_EOF).fetch _ 4 = _ from two] at read
  have lost : relocForward ringVolume false 1 pairFile (linkDisk 0x10000003 FAT32_EOF) =
      .ok ((false, pairFile.rewind), linkDisk 0x10000003 FAT32_EOF) := by
    rw [relocForward, show pairFile.cur_clus = 2 from rfl, Machine.bind_of_ok read,
      if_pos (by decide), if_neg (by decide)]
    rfl
  have nowhere : reloc_clus ringVolume pairFile 512 false (linkDisk 0x10000003 FAT32_EOF) =
      .ok ((none, pairFile.rewind), linkDisk 0x10000003 FAT32_EOF) := by
    rw [reloc_clus]
    exact Machine.bind_of_ok lost
  rw [nowhere] at found
  exact absurd (congrArg (·.1) (Except.ok.inj found)) (Option.some_ne_none _)

end AvxKernel.Fat
