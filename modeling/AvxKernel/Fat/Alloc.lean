import AvxKernel.Fat.Volume

/-! The cluster allocator. It finds a free entry by its place in the table, where
entry `k` belongs to cluster `k`, marks that entry, and hands out cluster
`k + 2`: two away from the one whose entry it has marked. -/
namespace AvxKernel.Fat

variable {fat : Volume} {d d' d'' : Disk} {c k : Nat}

/-! ### What an allocation is for -/

/-- An allocation of cluster `c`, by what is read through `read_fat` and by the
data sectors that have changed. -/
structure Allocated (fat : Volume) (d : Disk) (c : Nat) (d' : Disk) : Prop where
  low : 2 ≤ c
  high : c ≤ fat.data_clus_cnt + 1
  free : read_fat fat c d = .ok (0, d)
  marked : read_fat fat c d' = .ok (FAT32_EOF, d')
  others : ∀ c', 2 ≤ c' → c' ≤ fat.data_clus_cnt + 1 → c' ≠ c →
    ∀ content, read_fat fat c' d' = .ok (content, d') ↔ read_fat fat c' d = .ok (content, d)
  within : ∀ a, fat.first_data_sec * BSIZE ≤ a → d' a ≠ d a →
    ∃ i < fat.sec_per_clus, a / BSIZE = (c - 2) * fat.sec_per_clus + fat.first_data_sec + i

/-! ### The two ways to an entry -/

/-- Where `read_fat` finds the entry of a cluster. -/
def Volume.byCluster (fat : Volume) (c : Nat) : Nat :=
  u32 (fat.rsvd_sec_cnt + u32 (c <<< 2) / BSIZE + fat.fat_sz * (1 - 1)) * BSIZE +
    u32 (c <<< 2) % BSIZE

/-- Where `alloc_clus` finds the entry that it counts as number `k`. -/
def Volume.byIndex (fat : Volume) (k : Nat) : Nat :=
  u32 (fat.rsvd_sec_cnt + k / (BSIZE / 4)) * BSIZE + 4 * (k % (BSIZE / 4))

/-- The entry that is marked is not that of the cluster handed out: already
within a sector they differ by eight bytes. -/
theorem byIndex_apart (fat : Volume) (k : Nat) :
    fat.byCluster (u32 (k + 2)) + 4 ≤ fat.byIndex k ∨
      fat.byIndex k + 4 ≤ fat.byCluster (u32 (k + 2)) := by
  have shifted : u32 (u32 (k + 2) <<< 2) % BSIZE = 4 * ((k + 2) % 128) := by
    rw [u32, u32, Nat.shiftLeft_eq, BSIZE]
    omega
  rw [Volume.byCluster, Volume.byIndex, shifted, BSIZE]
  omega

theorem read_fat_mark (h : FAT32_EOC ≤ c) : read_fat fat c d = .ok (c, d) := by
  have low : ¬c < 2 := by
    rw [FAT32_EOC] at h
    omega
  rw [read_fat, if_neg low, if_pos h]
  rfl

theorem read_fat_ok {content : Nat} (small : c < FAT32_EOC) (range : ¬fat.OutOfRange c)
    (h : read_fat fat c d = .ok (content, d'')) : d.fetch (fat.byCluster c) 4 = content := by
  have low : ¬c < 2 := fun lt => range (.inl lt)
  have high : ¬u32 (fat.data_clus_cnt + 1) < c := fun lt => range (.inr lt)
  rw [read_fat, if_neg low, if_neg (Nat.not_le.mpr small), if_neg high] at h
  obtain ⟨sec, d₁, found, h⟩ := Machine.bind_ok.mp h
  rw [fat_sec_of_clus, if_neg range, Machine.ite_run] at found
  split at found
  · cases found
  · cases found
    rw [fat_offset_of_clus, if_neg range] at h
    cases h
    rfl

/-! ### What an allocation does -/

/-- Nothing but zeros has been written. -/
def Blanked (d d' : Disk) : Prop := ∀ a, d' a = d a ∨ d' a = 0

instance : Std.Refl Blanked where
  refl _ _ := .inl rfl

instance : IsTrans Disk Blanked where
  trans d d₁ d₂ first second a := by
    rcases second a with same | zero
    · rw [same]
      exact first a
    · exact .inr zero

theorem Blanked.fetch_zero (h : Blanked d d') {a w : Nat} (zero : d.fetch a w = 0) :
    d'.fetch a w = 0 := by
  have bytes := Memory.fetch_eq_zero.mp zero
  apply Memory.fetch_zero
  intro i hi
  rcases h (a + i) with same | blank
  · rw [same, bytes i hi]
  · exact blank

theorem zero_clus_blanked (fat : Volume) (c : Nat) : Machine.Frame Blanked (zero_clus fat c) := by
  apply Machine.Frame.ite
  · exact Machine.Frame.panic _
  · apply Machine.Frame.bind
    · apply Machine.Frame.ite
      · exact Machine.Frame.panic _
      · exact Machine.Frame.pure _
    · intro sec
      apply Machine.Frame.forM
      intro i
      apply Machine.Frame.modify
      intro b a
      rw [Memory.fill]
      split
      · exact .inr rfl
      · exact .inl rfl

theorem zero_clus_range {u : Unit} (h : zero_clus fat c d = .ok (u, d')) : ¬fat.OutOfRange c := by
  intro out
  rw [zero_clus, if_pos out] at h
  cases h

theorem alloc_clus_run (fat : Volume) (d : Disk) : alloc_clus fat d =
    match (List.range (fat.fat_sz * (BSIZE / 4))).find? fun k =>
      d.fetch (fat.byIndex k) 4 == 0 with
    | some k => (do
        zero_clus fat (u32 (k + 2))
        return u32 (k + 2) : Machine Disk Nat) (d.store (fat.byIndex k) 4 FAT32_EOF)
    | none => .error (.panic "no clusters") := by
  rw [alloc_clus]
  dsimp only
  rw [Machine.bind_of_ok (Machine.get_run d)]
  simp only [Volume.byIndex]
  cases (List.range (fat.fat_sz * (BSIZE / 4))).find? fun k =>
    d.fetch (u32 (fat.rsvd_sec_cnt + k / (BSIZE / 4)) * BSIZE + 4 * (k % (BSIZE / 4))) 4 == 0 <;> rfl

theorem alloc_clus_ok (h : alloc_clus fat d = .ok (c, d')) :
    ∃ k, d.fetch (fat.byIndex k) 4 = 0 ∧ c = u32 (k + 2) ∧ ¬fat.OutOfRange c ∧
      Blanked (d.store (fat.byIndex k) 4 FAT32_EOF) d' := by
  rw [alloc_clus_run] at h
  split at h
  next k found =>
    have free := List.find?_some found
    obtain ⟨_, _, zeroed, h⟩ := Machine.bind_ok.mp h
    cases h
    exact ⟨k, by simpa using free, rfl, zero_clus_range zeroed, zero_clus_blanked fat _ _ _ _ zeroed⟩
  next =>
    cases h

/-- The cluster handed out reads as free afterwards, where it did before. -/
theorem alloc_clus_free (h : alloc_clus fat d = .ok (c, d'))
    (free : read_fat fat c d = .ok (0, d)) :
    read_fat fat c d' ≠ .ok (FAT32_EOF, d') := by
  obtain ⟨k, -, rfl, range, zeroed⟩ := alloc_clus_ok h
  have small : u32 (k + 2) < FAT32_EOC := by
    by_contra mark
    rw [read_fat_mark (Nat.not_lt.mp mark), Except.ok.injEq, Prod.mk.injEq] at free
    exact mark (by rw [free.1]; decide)
  have unmarked : (d.store (fat.byIndex k) 4 FAT32_EOF).fetch (fat.byCluster (u32 (k + 2))) 4 =
      d.fetch (fat.byCluster (u32 (k + 2))) 4 :=
    Memory.fetch_store_other d (byIndex_apart fat k)
  have after := zeroed.fetch_zero (unmarked.trans (read_fat_ok small range free))
  intro marked
  rw [read_fat_ok small range marked] at after
  exact absurd after (by decide)

/-- No allocation is the one asked for. -/
theorem alloc_clus_unmarked (fat : Volume) (d : Disk) :
    ¬∃ c d', alloc_clus fat d = .ok (c, d') ∧ Allocated fat d c d' := by
  rintro ⟨c, d', run, allocated⟩
  exact alloc_clus_free run allocated.free allocated.marked

/-- A volume of seven clusters. -/
def smallVolume : Geometry where
  first_data_sec := 2
  data_clus_cnt := 7
  sec_per_clus := 1
  rsvd_sec_cnt := 1
  fat_cnt := 1
  fat_sz := 1
  root_clus := 2
  sectors := by decide
  narrow := by decide
  tables := by decide
  before := by decide
  covers := by decide
  fits := by decide
  unmarked := by decide

/-- Clusters 4 and 5 are free; cluster 6 is a file's and holds a letter. -/
def smallDisk : Disk :=
  (((Memory.store (fun _ => 0) (smallVolume.entryAt 0) 16 (2 ^ 128 - 1)).store
    (smallVolume.entryAt 6) 4 FAT32_EOF).store (smallVolume.clusterAt 6) 1 65)

/-- Cluster 4 is free, and the file's cluster 6 is handed out and zeroed. -/
theorem alloc_clus_takes :
    (∃ c, smallVolume.InRange c ∧ read_fat smallVolume c smallDisk = .ok (0, smallDisk)) ∧
    read_fat smallVolume 6 smallDisk = .ok (FAT32_EOF, smallDisk) ∧
    ∃ d', alloc_clus smallVolume smallDisk = .ok (6, d') ∧
      smallDisk (smallVolume.clusterAt 6) = 65 ∧ d' (smallVolume.clusterAt 6) = 0 ∧
      ¬Allocated smallVolume smallDisk 6 d' := by
  have used : read_fat smallVolume 6 smallDisk = .ok (FAT32_EOF, smallDisk) := by
    rw [read_fat_run (by decide)]
    rfl
  refine ⟨⟨4, by decide, ?_⟩, used, _, rfl, by decide, by decide, fun allocated => ?_⟩
  · rw [read_fat_run (by decide)]
    rfl
  · have free := allocated.free
    rw [used] at free
    cases free

end AvxKernel.Fat
