import AvxKernel.Fat.Volume

/-! `fat32_init`: the geometry is worked out from eight fields of the boot
sector, of which only the sector size and the signature are checked. -/
namespace AvxKernel.Fat

def u16 (n : Nat) : Nat := n % 2 ^ 16

/-- The fields of the boot sector that are read. -/
structure Bpb where
  byts_per_sec : Nat
  sec_per_clus : Nat
  rsvd_sec_cnt : Nat
  fat_cnt : Nat
  hidd_sec : Nat
  tot_sec : Nat
  fat_sz : Nat
  root_clus : Nat
deriving DecidableEq

/-- Sector 0, with the fields where the source looks for them. -/
def readBpb (b : Disk) : Bpb where
  byts_per_sec := b.fetch 11 2
  sec_per_clus := b.fetch 13 1
  rsvd_sec_cnt := b.fetch 14 2
  fat_cnt := b.fetch 16 1
  hidd_sec := b.fetch 28 4
  tot_sec := b.fetch 32 4
  fat_sz := b.fetch 36 4
  root_clus := b.fetch 44 4

/-- The variable `fat`. -/
structure Mounted extends Volume where
  data_sec_cnt : Nat
  byts_per_clus : Nat
  byts_per_sec : Nat
  hidd_sec : Nat
  tot_sec : Nat

instance : Coe Mounted Volume := ⟨Mounted.toVolume⟩

/-- `FAT32` -/
def signature : List UInt8 := [70, 65, 84, 51, 50]

/-- A division by zero is not checked and leaves whatever the machine makes of
it: `byZero`, for the dividend. -/
def fat32_init (byZero : Nat → Nat) : Machine Disk Mounted := do
  let b ← get
  let bpb := readBpb b
  if b.window 82 5 ≠ signature then
    Machine.panic "not FAT32 volume"
  else
    let rsvd_sec_cnt := u16 (bpb.rsvd_sec_cnt + bpb.hidd_sec)
    let first_data_sec := u32 (rsvd_sec_cnt + bpb.fat_cnt * bpb.fat_sz)
    let data_sec_cnt := u32 (bpb.tot_sec + 2 ^ 32 - first_data_sec)
    let data_clus_cnt :=
      if bpb.sec_per_clus = 0 then byZero data_sec_cnt else data_sec_cnt / bpb.sec_per_clus
    if BSIZE ≠ bpb.byts_per_sec then
      Machine.panic "byts_per_sec != BSIZE"
    else
      return {
        first_data_sec, data_clus_cnt, rsvd_sec_cnt, data_sec_cnt
        sec_per_clus := bpb.sec_per_clus
        fat_cnt := bpb.fat_cnt
        fat_sz := bpb.fat_sz
        root_clus := bpb.root_clus
        byts_per_clus := bpb.sec_per_clus * bpb.byts_per_sec
        byts_per_sec := bpb.byts_per_sec
        hidd_sec := bpb.hidd_sec
        tot_sec := bpb.tot_sec }

/-! ### What a mounted volume should be -/

def Mounted.IsCluster (fat : Mounted) (c : Nat) : Prop := 2 ≤ c ∧ c ≤ fat.data_clus_cnt + 1

/-- The geometry was worked out without a division by zero, a truncation to 16
bits or an unsigned underflow, and the addresses of clusters and of their
entries lie where they belong. -/
structure Sound (bpb : Bpb) (fat : Mounted) (d : Disk) : Prop where
  divides : bpb.sec_per_clus ≠ 0
  whole : u16 (bpb.rsvd_sec_cnt + bpb.hidd_sec) = bpb.rsvd_sec_cnt + bpb.hidd_sec
  subtracts : fat.first_data_sec ≤ bpb.tot_sec
  inside : ∀ c, fat.IsCluster c → ∃ sec, first_sec_of_clus fat c d = .ok (sec, d) ∧
    fat.first_data_sec ≤ sec ∧ sec + fat.sec_per_clus ≤ fat.tot_sec
  apart : ∀ c c', fat.IsCluster c → fat.IsCluster c' → c ≠ c' → ∀ sec sec',
    first_sec_of_clus fat c d = .ok (sec, d) → first_sec_of_clus fat c' d = .ok (sec', d) →
    sec + fat.sec_per_clus ≤ sec' ∨ sec' + fat.sec_per_clus ≤ sec
  listed : ∀ c, fat.IsCluster c → ∃ sec, fat_sec_of_clus fat c 1 d = .ok (sec, d) ∧
    fat.rsvd_sec_cnt ≤ sec ∧ sec < fat.rsvd_sec_cnt + fat.fat_sz

/-- The sectors before the data. -/
def Bpb.meta (bpb : Bpb) : Nat := (bpb.rsvd_sec_cnt + bpb.hidd_sec + bpb.fat_cnt * bpb.fat_sz) % 2 ^ 32

/-- The clusters that the rest has room for. -/
def Bpb.clusters (bpb : Bpb) : Nat := (bpb.tot_sec - bpb.meta) / bpb.sec_per_clus

/-- A boot sector whose fields fit together. The number of a cluster loses its
two highest bits on the way to its entry. -/
structure Bpb.Fitting (bpb : Bpb) : Prop where
  sectors : bpb.sec_per_clus ≠ 0
  reserved : bpb.rsvd_sec_cnt + bpb.hidd_sec < 2 ^ 16
  room : bpb.meta ≤ bpb.tot_sec
  table : bpb.clusters ≠ 0 → 1 ≤ bpb.fat_cnt ∧ bpb.clusters + 1 < 2 ^ 32 ∧
    min (bpb.clusters + 1) (2 ^ 30 - 1) / 128 < bpb.fat_sz

variable {byZero : Nat → Nat} {d d' : Disk} {fat : Mounted}

/-! ### What `fat32_init` makes of a boot sector -/

/-- The volume of an accepted boot sector. -/
theorem fat32_init_ok (h : fat32_init byZero d = .ok (fat, d')) :
    d' = d ∧ fat.sec_per_clus = (readBpb d).sec_per_clus ∧ fat.fat_cnt = (readBpb d).fat_cnt ∧
    fat.fat_sz = (readBpb d).fat_sz ∧ fat.tot_sec = (readBpb d).tot_sec ∧
    fat.rsvd_sec_cnt = u16 ((readBpb d).rsvd_sec_cnt + (readBpb d).hidd_sec) ∧
    fat.first_data_sec = u32 (fat.rsvd_sec_cnt + (readBpb d).fat_cnt * (readBpb d).fat_sz) ∧
    fat.data_sec_cnt = u32 ((readBpb d).tot_sec + 2 ^ 32 - fat.first_data_sec) ∧
    ((readBpb d).sec_per_clus ≠ 0 →
      fat.data_clus_cnt = fat.data_sec_cnt / (readBpb d).sec_per_clus) := by
  rw [fat32_init, Machine.bind_of_ok (Machine.get_run d)] at h
  dsimp only at h
  rw [Machine.ite_run] at h
  split at h
  · cases h
  · rw [Machine.ite_run] at h
    split at h
    · cases h
    · cases h
      exact ⟨rfl, rfl, rfl, rfl, rfl, rfl, rfl, rfl, fun sectors => if_neg sectors⟩

/-- The fields have their widths. -/
theorem readBpb_lt (d : Disk) : (readBpb d).sec_per_clus < 2 ^ 8 ∧ (readBpb d).tot_sec < 2 ^ 32 ∧
    (readBpb d).fat_sz < 2 ^ 32 :=
  ⟨d.fetch_lt 13 1, d.fetch_lt 32 4, d.fetch_lt 36 4⟩

/-! ### The addresses on a mounted volume -/

variable {c : Nat}

theorem not_OutOfRange (h : fat.IsCluster c) (fits : fat.data_clus_cnt + 1 < 2 ^ 32) :
    ¬fat.OutOfRange c := by
  have low := h.1
  have high := h.2
  rw [Volume.OutOfRange, u32, Nat.mod_eq_of_lt fits]
  omega

theorem mounted_sector (h : fat.IsCluster c) (fits : fat.data_clus_cnt + 1 < 2 ^ 32)
    (room : fat.first_data_sec + fat.data_clus_cnt * fat.sec_per_clus < 2 ^ 32) :
    first_sec_of_clus fat c d = .ok ((c - 2) * fat.sec_per_clus + fat.first_data_sec, d) ∧
    (c - 2) * fat.sec_per_clus + fat.first_data_sec + fat.sec_per_clus ≤
      fat.first_data_sec + fat.data_clus_cnt * fat.sec_per_clus := by
  have low := h.1
  have high := h.2
  have below : c - 2 + 1 ≤ fat.data_clus_cnt := by omega
  have last := Nat.mul_le_mul_right fat.sec_per_clus below
  rw [Nat.add_mul] at last
  constructor
  · rw [first_sec_of_clus, if_neg (not_OutOfRange h fits), u32, Nat.mod_eq_of_lt (by omega)]
    rfl
  · omega

theorem mounted_entry (h : fat.IsCluster c) (fits : fat.data_clus_cnt + 1 < 2 ^ 32)
    (tables : 1 ≤ fat.fat_cnt) (reserved : fat.rsvd_sec_cnt < 2 ^ 16) :
    fat_sec_of_clus fat c 1 d = .ok (fat.rsvd_sec_cnt + c % 2 ^ 30 / 128, d) := by
  have sector : u32 (fat.rsvd_sec_cnt + u32 (c <<< 2) / BSIZE + fat.fat_sz * (1 - 1)) =
      fat.rsvd_sec_cnt + c % 2 ^ 30 / 128 := by
    rw [u32, u32, Nat.shiftLeft_eq, BSIZE, Nat.sub_self, Nat.mul_zero]
    omega
  rw [fat_sec_of_clus, if_neg (not_OutOfRange h fits), if_neg (by omega), sector]
  rfl

/-- Over all clusters, the last entry that is asked for. -/
theorem entries_within {n limit : Nat} (pos : n ≠ 0) :
    (∀ c, 2 ≤ c → c ≤ n + 1 → c % 2 ^ 30 / 128 < limit) ↔
      min (n + 1) (2 ^ 30 - 1) / 128 < limit := by
  constructor
  · intro all
    have last := all (min (n + 1) (2 ^ 30 - 1)) (by omega) (by omega)
    rwa [Nat.mod_eq_of_lt (by omega)] at last
  · intro last c low high
    have : c % 2 ^ 30 ≤ min (n + 1) (2 ^ 30 - 1) := by omega
    exact Nat.lt_of_le_of_lt (Nat.div_le_div_right this) last

/-- Without the three accidents the volume has the numbers that the fields say. -/
theorem mounted_numbers (h : fat32_init byZero d = .ok (fat, d'))
    (sectors : (readBpb d).sec_per_clus ≠ 0)
    (reserved : (readBpb d).rsvd_sec_cnt + (readBpb d).hidd_sec < 2 ^ 16)
    (room : fat.first_data_sec ≤ (readBpb d).tot_sec) :
    fat.rsvd_sec_cnt < 2 ^ 16 ∧ fat.first_data_sec = (readBpb d).meta ∧
    fat.data_clus_cnt = (readBpb d).clusters ∧
    fat.first_data_sec + fat.data_clus_cnt * fat.sec_per_clus ≤ fat.tot_sec := by
  obtain ⟨-, spc, -, -, tot, rsvd, first, data, clus⟩ := fat32_init_ok h
  obtain ⟨-, small, -⟩ := readBpb_lt d
  rw [u16, Nat.mod_eq_of_lt reserved] at rsvd
  rw [rsvd] at first
  have start : fat.first_data_sec = (readBpb d).meta := first
  have rest : fat.data_sec_cnt = (readBpb d).tot_sec - fat.first_data_sec := by
    rw [data, u32]
    omega
  have count := clus sectors
  have fills := Nat.div_mul_le_self fat.data_sec_cnt (readBpb d).sec_per_clus
  refine ⟨by omega, start, ?_, ?_⟩
  · rw [count, rest, start, Bpb.clusters]
  · rw [spc, tot, count]
    omega

theorem Fitting_of_Sound (h : fat32_init byZero d = .ok (fat, d'))
    (sound : Sound (readBpb d) fat d) : (readBpb d).Fitting := by
  have reserved : (readBpb d).rsvd_sec_cnt + (readBpb d).hidd_sec < 2 ^ 16 := by
    rw [← sound.whole]
    exact Nat.mod_lt _ (by decide)
  obtain ⟨narrow, start, count, fills⟩ :=
    mounted_numbers h sound.divides reserved sound.subtracts
  obtain ⟨-, spc, cnt, sz, tot, -⟩ := fat32_init_ok h
  obtain ⟨-, small, -⟩ := readBpb_lt d
  refine ⟨sound.divides, reserved, start ▸ sound.subtracts, fun some => ?_⟩
  rw [← count] at some ⊢
  have two : fat.IsCluster 2 := ⟨Nat.le_refl 2, by omega⟩
  have fits : fat.data_clus_cnt + 1 < 2 ^ 32 := by
    obtain ⟨sec, found, -⟩ := sound.inside 2 two
    have range : ¬fat.OutOfRange 2 := by
      intro out
      rw [first_sec_of_clus, if_pos out] at found
      cases found
    by_contra wraps
    have pos : 1 ≤ fat.sec_per_clus := spc ▸ Nat.one_le_iff_ne_zero.mpr sound.divides
    have := Nat.mul_le_mul_left fat.data_clus_cnt pos
    have last : fat.data_clus_cnt + 1 = 2 ^ 32 := by omega
    exact range (.inr (by rw [last]; decide))
  have tables : 1 ≤ fat.fat_cnt := by
    obtain ⟨sec, found, -⟩ := sound.listed 2 two
    by_contra none
    rw [fat_sec_of_clus, if_neg (not_OutOfRange two fits), if_pos (by omega)] at found
    cases found
  refine ⟨cnt ▸ tables, fits, ?_⟩
  rw [← sz, ← entries_within some]
  intro c low high
  obtain ⟨sec, found, -, below⟩ := sound.listed c ⟨low, high⟩
  rw [mounted_entry ⟨low, high⟩ fits tables narrow] at found
  cases found
  omega

theorem Sound_of_Fitting (h : fat32_init byZero d = .ok (fat, d'))
    (fitting : (readBpb d).Fitting) : Sound (readBpb d) fat d := by
  obtain ⟨-, spc, cnt, sz, tot, rsvd, first, -⟩ := fat32_init_ok h
  obtain ⟨-, small, -⟩ := readBpb_lt d
  have whole : u16 ((readBpb d).rsvd_sec_cnt + (readBpb d).hidd_sec) =
      (readBpb d).rsvd_sec_cnt + (readBpb d).hidd_sec := Nat.mod_eq_of_lt fitting.reserved
  have room : fat.first_data_sec ≤ (readBpb d).tot_sec := by
    rw [first, rsvd, whole]
    exact fitting.room
  obtain ⟨narrow, start, count, fills⟩ :=
    mounted_numbers h fitting.sectors fitting.reserved room
  have table : ∀ c, fat.IsCluster c → 1 ≤ fat.fat_cnt ∧ fat.data_clus_cnt + 1 < 2 ^ 32 ∧
      c % 2 ^ 30 / 128 < fat.fat_sz := by
    intro c hc
    have some : (readBpb d).clusters ≠ 0 := by
      have := hc.1
      have := hc.2
      omega
    obtain ⟨tables, fits, last⟩ := fitting.table some
    rw [cnt, sz, count]
    exact ⟨tables, fits, (entries_within some).mpr last c hc.1 (count ▸ hc.2)⟩
  have below : fat.first_data_sec + fat.data_clus_cnt * fat.sec_per_clus < 2 ^ 32 := by omega
  refine ⟨fitting.sectors, whole, room, fun c hc => ?_, fun c c' hc hc' ne => ?_, fun c hc => ?_⟩
  · obtain ⟨found, last⟩ := mounted_sector (d := d) hc (table c hc).2.1 below
    exact ⟨_, found, Nat.le_add_left _ _, by omega⟩
  · have spread : ∀ {a b}, fat.IsCluster a → fat.IsCluster b → a < b → ∀ sec sec',
        first_sec_of_clus fat a d = .ok (sec, d) → first_sec_of_clus fat b d = .ok (sec', d) →
        sec + fat.sec_per_clus ≤ sec' := by
      intro a b ha hb lt sec sec' found found'
      rw [(mounted_sector ha (table a ha).2.1 below).1] at found
      rw [(mounted_sector hb (table b hb).2.1 below).1] at found'
      cases found
      cases found'
      have low := ha.1
      have step : a - 2 + 1 ≤ b - 2 := by omega
      have := Nat.mul_le_mul_right fat.sec_per_clus step
      rw [Nat.add_mul] at this
      omega
    intro sec sec' found found'
    rcases Nat.lt_or_gt_of_ne ne with lt | gt
    · exact .inl (spread hc hc' lt sec sec' found found')
    · exact .inr (spread hc' hc gt sec' sec found' found)
  · obtain ⟨tables, fits, last⟩ := table c hc
    exact ⟨_, mounted_entry hc fits tables narrow, Nat.le_add_right _ _, by omega⟩

/-- A boot sector that is accepted gives a sound volume exactly if its fields
fit together. -/
theorem fat32_init_sound_iff (h : fat32_init byZero d = .ok (fat, d')) :
    Sound (readBpb d) fat d ↔ (readBpb d).Fitting :=
  ⟨Fitting_of_Sound h, Sound_of_Fitting h⟩

/-- The boot sector with these fields. -/
def bootSector (bpb : Bpb) : Disk :=
  ((((((((Memory.blit (fun _ => 0) 82 signature).store 11 2 bpb.byts_per_sec).store 13 1
    bpb.sec_per_clus).store 14 2 bpb.rsvd_sec_cnt).store 16 1 bpb.fat_cnt).store 28 4
    bpb.hidd_sec).store 32 4 bpb.tot_sec).store 36 4 bpb.fat_sz).store 44 4 bpb.root_clus

/-- A volume of 64 MB without hidden sectors. -/
def commonBpb : Bpb := ⟨512, 1, 32, 2, 0, 131072, 1009, 2⟩

theorem fat32_init_common : ∃ fat, fat32_init (fun _ => 0) (bootSector commonBpb) =
      .ok (fat, bootSector commonBpb) ∧
    Sound (readBpb (bootSector commonBpb)) fat (bootSector commonBpb) := by
  have accepted : ∃ fat, fat32_init (fun _ => 0) (bootSector commonBpb) =
      .ok (fat, bootSector commonBpb) := ⟨_, rfl⟩
  have fields : readBpb (bootSector commonBpb) = commonBpb := by decide
  obtain ⟨fat, run⟩ := accepted
  refine ⟨fat, run, (fat32_init_sound_iff run).mpr ?_⟩
  rw [fields]
  exact ⟨by decide, by decide, by decide, fun _ => by decide⟩

/-- The same volume in a partition that begins at sector 65536. -/
def hiddenBpb : Bpb := { commonBpb with hidd_sec := 65536 }

/-- The partition's start is lost. -/
theorem fat32_init_hidden : ∃ fat, fat32_init (fun _ => 0) (bootSector hiddenBpb) =
      .ok (fat, bootSector hiddenBpb) ∧
    fat.rsvd_sec_cnt = 32 ∧ ¬Sound (readBpb (bootSector hiddenBpb)) fat (bootSector hiddenBpb) :=
  ⟨_, rfl, by decide, fun sound => absurd sound.whole (by decide)⟩

/-! ### Sound volumes as geometries -/

/-- Where also the tables end before the data and the marks are no cluster
numbers, the volume is one whose numbers fit together. -/
theorem fat32_init_geometry (h : fat32_init byZero d = .ok (fat, d'))
    (fitting : (readBpb d).Fitting) (some : (readBpb d).clusters ≠ 0)
    (tables : (readBpb d).rsvd_sec_cnt + (readBpb d).hidd_sec +
      (readBpb d).fat_cnt * (readBpb d).fat_sz < 2 ^ 32)
    (marks : (readBpb d).clusters + 2 ≤ FAT32_BAD) :
    ∃ geometry : Geometry, geometry.toVolume = fat.toVolume := by
  obtain ⟨-, spc, cnt, sz, tot, rsvd, first, -⟩ := fat32_init_ok h
  obtain ⟨narrow, small, -⟩ := readBpb_lt d
  have sound := Sound_of_Fitting h fitting
  obtain ⟨-, start, count, fills⟩ :=
    mounted_numbers h fitting.sectors fitting.reserved sound.subtracts
  obtain ⟨one, -, last⟩ := fitting.table some
  rw [sound.whole] at rsvd
  rw [Bpb.meta, Nat.mod_eq_of_lt tables] at start
  have first_table := Nat.mul_le_mul_right (readBpb d).fat_sz one
  have below : (readBpb d).clusters + 1 < 2 ^ 30 - 1 := by
    rw [FAT32_BAD] at marks
    omega
  rw [Nat.min_eq_left (Nat.le_of_lt below)] at last
  refine ⟨⟨fat.toVolume, ?_, ?_, ?_, ?_, ?_, ?_, ?_⟩, rfl⟩
  · rw [spc]
    exact Nat.pos_of_ne_zero fitting.sectors
  · rwa [spc]
  · rwa [cnt]
  · rw [rsvd, sz, start]
    omega
  · rw [count, sz, BSIZE]
    omega
  · omega
  · rwa [count]

end AvxKernel.Fat
