import AvxKernel.Lib.Bytes
import AvxKernel.Lib.Chain
import AvxKernel.Lib.Machine
import AvxKernel.Params

/-! The volume of `fat32.c`: its geometry, its file allocation table, and
transfers to and from its clusters. The disk is the memory that the buffer cache
shows, byte `off` of sector `sec` at address `sec * BSIZE + off`. Every entry's
device number is 0, as the root's is, and is left out. -/
namespace AvxKernel.Fat

def FAT32_BAD : Nat := 0x0ffffff7
def FAT32_EOC : Nat := 0x0ffffff8
def FAT32_EOF : Nat := 0x0fffffff

abbrev Disk := Memory

/-- The numbers of `fat` in `fat32.c`: what `fat32_init` reads from the boot
sector and what it derives. `fat32_init` itself checks that a sector has `BSIZE`
bytes. -/
structure Volume where
  first_data_sec : Nat
  data_clus_cnt : Nat
  sec_per_clus : Nat
  rsvd_sec_cnt : Nat
  fat_cnt : Nat
  fat_sz : Nat
  root_clus : Nat

/-- A volume whose numbers fit together. -/
structure Geometry extends Volume where
  /-- A cluster has a sector. -/
  sectors : 0 < sec_per_clus
  /-- A byte of the boot sector. -/
  narrow : sec_per_clus < 2 ^ 8
  /-- There is a table. -/
  tables : 0 < fat_cnt
  /-- The first table ends before the data. -/
  before : rsvd_sec_cnt + fat_sz ≤ first_data_sec
  /-- The table has an entry for each cluster. -/
  covers : 4 * (data_clus_cnt + 2) ≤ fat_sz * BSIZE
  /-- Sector numbers are 32 bits wide. -/
  fits : first_data_sec + data_clus_cnt * sec_per_clus < 2 ^ 32
  /-- Cluster numbers stay below the marks. -/
  unmarked : data_clus_cnt + 2 ≤ FAT32_BAD

instance : Coe Geometry Volume := ⟨Geometry.toVolume⟩

section Volume

variable (fat : Volume)

/-- The checks of a cluster's number: the largest is worked out in 32 bits. -/
def Volume.OutOfRange (cluster : Nat) : Prop :=
  cluster < 2 ∨ u32 (fat.data_clus_cnt + 1) < cluster

instance (cluster : Nat) : Decidable (fat.OutOfRange cluster) :=
  inferInstanceAs (Decidable (_ ∨ _))

def first_sec_of_clus (cluster : Nat) : Machine Disk Nat :=
  if fat.OutOfRange cluster then
    Machine.panic "cluster number error\n"
  else
    return u32 ((cluster - 2) * fat.sec_per_clus + fat.first_data_sec)

def fat_sec_of_clus (cluster fat_num : Nat) : Machine Disk Nat :=
  if fat.OutOfRange cluster then
    Machine.panic "cluster number error"
  else if fat.fat_cnt < fat_num then
    Machine.panic "FAT number error"
  else
    return u32 (fat.rsvd_sec_cnt + u32 (cluster <<< 2) / BSIZE + fat.fat_sz * (fat_num - 1))

def fat_offset_of_clus (cluster : Nat) : Machine Disk Nat :=
  if fat.OutOfRange cluster then
    Machine.panic "cluster number error"
  else
    return u32 (cluster <<< 2) % BSIZE

def read_fat (cluster : Nat) : Machine Disk Nat :=
  if cluster < 2 then
    Machine.panic "cluster number error when read FAT "
  else if FAT32_EOC ≤ cluster then
    return cluster
  else if u32 (fat.data_clus_cnt + 1) < cluster then
    return 0
  else do
    let fat_sec ← fat_sec_of_clus fat cluster 1
    let off ← fat_offset_of_clus fat cluster
    let b ← get
    return b.fetch (fat_sec * BSIZE + off) 4

def write_fat (cluster content : Nat) : Machine Disk Unit :=
  if cluster < 2 then
    Machine.panic "cluster number error when write in FAT\n"
  else do
    let fat_sec ← fat_sec_of_clus fat cluster 1
    let off ← fat_offset_of_clus fat cluster
    modify fun b => b.store (fat_sec * BSIZE + off) 4 content

def free_clus (cluster : Nat) : Machine Disk Unit := write_fat fat cluster 0

def zero_clus (cluster : Nat) : Machine Disk Unit :=
  if fat.OutOfRange cluster then
    Machine.panic "cluster number error"
  else do
    let sec ← first_sec_of_clus fat cluster
    (List.range fat.sec_per_clus).forM fun i =>
      modify fun b => b.fill (u32 (sec + i) * BSIZE) BSIZE 0

/-- The sectors of the table are searched one after the other, each from its
first entry. The number returned is two above that of the entry. -/
def alloc_clus : Machine Disk Nat := do
  let ent_per_sec := BSIZE / 4
  let b ← get
  let entry (k : Nat) :=
    u32 (fat.rsvd_sec_cnt + k / ent_per_sec) * BSIZE + 4 * (k % ent_per_sec)
  match (List.range (fat.fat_sz * ent_per_sec)).find? fun k => b.fetch (entry k) 4 == 0 with
  | some k =>
    set (b.store (entry k) 4 FAT32_EOF)
    let clus := u32 (k + 2)
    zero_clus fat clus
    return clus
  | none => Machine.panic "no clusters"

end Volume

variable (fat : Geometry)

def Geometry.byts_per_clus : Nat := fat.sec_per_clus * BSIZE

/-- The number of a cluster of the volume. -/
def Geometry.InRange (cluster : Nat) : Prop := 2 ≤ cluster ∧ cluster ≤ fat.data_clus_cnt + 1

instance (cluster : Nat) : Decidable (fat.InRange cluster) :=
  inferInstanceAs (Decidable (_ ∧ _))

/-- The rounds of the loop of `rw_clus`, of which there are at most as many as
bytes: for each the address on the disk, the number of bytes done before it and
the number it moves. -/
def rounds (n : Nat) : Nat → Nat → Nat → Nat → List (Nat × Nat × Nat)
  | 0, _, _, _ => []
  | limit + 1, sec, off, tot =>
    if tot < n then
      let m := min (BSIZE - off % BSIZE) (n - tot)
      (sec * BSIZE + off % BSIZE, tot, m) :: rounds n limit (u32 (sec + 1)) (off + m) (tot + m)
    else
      []

/-- The transfers of `rw_clus`, as far as the first that fails. -/
def transfer (move : Nat × Nat × Nat → Machine Disk Bool) (n : Nat) :
    List (Nat × Nat × Nat) → Machine Disk Nat
  | [] => return n
  | round :: rest => do
    if ← move round then transfer move n rest else return round.2.1

/-- Where the bytes of a write come from: for an offset into them and a count,
the bytes that `either_copyin` has copied when it returns, and whether it has
copied all of them. -/
structure Source where
  copy : Nat → Nat → List UInt8 × Bool
  length_le : ∀ off n, (copy off n).1.length ≤ n

/-- Bytes of the kernel's own. -/
def Source.ofBytes (bytes : List UInt8) : Source where
  copy off n := ((bytes.drop off).take n, true)
  length_le off n := by simp

/-- `rw_clus` with `write` set: the number of bytes written. -/
def rw_clus_write (cluster : Nat) (data : Source) (off n : Nat) : Machine Disk Nat :=
  if fat.byts_per_clus < u32 (off + n) then
    Machine.panic "offset out of range"
  else do
    let sec ← first_sec_of_clus fat cluster
    transfer (fun (a, tot, m) => do
      modify fun b => b.blit a (data.copy tot m).1
      return (data.copy tot m).2) n (rounds n n (u32 (sec + off / BSIZE)) (off % BSIZE) 0)

/-- `rw_clus` into the kernel's own memory, which does not fail. -/
def rw_clus_read (cluster off n : Nat) : Machine Disk (List UInt8) :=
  if fat.byts_per_clus < u32 (off + n) then
    Machine.panic "offset out of range"
  else do
    let sec ← first_sec_of_clus fat cluster
    let b ← get
    return (rounds n n (u32 (sec + off / BSIZE)) (off % BSIZE) 0).flatMap
      fun (a, _, m) => b.window a m

/-! ### Where entries and clusters lie -/

/-- The address of a cluster's entry in the first table. -/
def Geometry.entryAt (cluster : Nat) : Nat := fat.rsvd_sec_cnt * BSIZE + 4 * cluster

/-- The address of a cluster's first byte. -/
def Geometry.clusterAt (cluster : Nat) : Nat :=
  ((cluster - 2) * fat.sec_per_clus + fat.first_data_sec) * BSIZE

variable {fat} {d : Disk} {c : Nat}

theorem Geometry.byts_per_clus_pos : 0 < fat.byts_per_clus :=
  Nat.mul_pos fat.sectors (by decide)

theorem Geometry.InRange.lt (h : fat.InRange c) : c < FAT32_BAD := by
  have := fat.unmarked
  have := h.2
  omega

theorem Geometry.InRange.lt_EOC (h : fat.InRange c) : c < FAT32_EOC := by
  have := h.lt
  simp only [FAT32_BAD, FAT32_EOC] at *
  omega

/-- Cluster numbers do not wrap around. -/
theorem Geometry.u32_last : u32 (fat.data_clus_cnt + 1) = fat.data_clus_cnt + 1 := by
  have := fat.unmarked
  simp only [FAT32_BAD] at this
  exact Nat.mod_eq_of_lt (by omega)

theorem Geometry.InRange.not_out (h : fat.InRange c) : ¬fat.OutOfRange c := by
  rw [Volume.OutOfRange, Geometry.u32_last]
  have := h.1
  have := h.2
  omega

/-- A cluster's last sector is one of the volume's. -/
theorem Geometry.InRange.sector_lt (h : fat.InRange c) :
    (c - 2) * fat.sec_per_clus + fat.first_data_sec + fat.sec_per_clus ≤
      fat.first_data_sec + fat.data_clus_cnt * fat.sec_per_clus := by
  have below : c - 2 + 1 ≤ fat.data_clus_cnt := by
    have := h.1
    have := h.2
    omega
  have := Nat.mul_le_mul_right fat.sec_per_clus below
  rw [Nat.add_mul] at this
  omega

theorem first_sec_of_clus_run (h : fat.InRange c) :
    first_sec_of_clus fat c d = .ok ((c - 2) * fat.sec_per_clus + fat.first_data_sec, d) := by
  have small : (c - 2) * fat.sec_per_clus + fat.first_data_sec < 2 ^ 32 := by
    have := h.sector_lt
    have := fat.fits
    omega
  rw [first_sec_of_clus, if_neg h.not_out, u32, Nat.mod_eq_of_lt small]
  rfl

theorem Geometry.InRange.shift (h : fat.InRange c) : u32 (c <<< 2) = 4 * c := by
  have := h.lt
  simp only [FAT32_BAD] at this
  rw [Nat.shiftLeft_eq, u32, Nat.mod_eq_of_lt (by omega)]
  omega

/-- The sector and the offset of a cluster's entry are those of its address. -/
theorem fat_sec_of_clus_run (h : fat.InRange c) : ∃ sec, fat_sec_of_clus fat c 1 d = .ok (sec, d) ∧
    sec * BSIZE + 4 * c % BSIZE = fat.entryAt c := by
  have covered : 4 * c / BSIZE < fat.fat_sz := by
    rw [Nat.div_lt_iff_lt_mul (by decide)]
    have := fat.covers
    have := h.2
    omega
  have small : fat.rsvd_sec_cnt + 4 * c / BSIZE < 2 ^ 32 := by
    have := fat.before
    have := fat.fits
    omega
  refine ⟨fat.rsvd_sec_cnt + 4 * c / BSIZE, ?_, ?_⟩
  · rw [fat_sec_of_clus, if_neg h.not_out, if_neg (by
      have := fat.tables
      omega), h.shift, Nat.sub_self, Nat.mul_zero, Nat.add_zero, u32, Nat.mod_eq_of_lt small]
    rfl
  · rw [Geometry.entryAt, Nat.add_mul, Nat.add_assoc, Nat.div_add_mod']

theorem fat_offset_of_clus_run (h : fat.InRange c) :
    fat_offset_of_clus fat c d = .ok (4 * c % BSIZE, d) := by
  rw [fat_offset_of_clus, if_neg h.not_out, h.shift]
  rfl

theorem read_fat_run (h : fat.InRange c) :
    read_fat fat c d = .ok (d.fetch (fat.entryAt c) 4, d) := by
  obtain ⟨sec, hsec, at_entry⟩ := fat_sec_of_clus_run (d := d) h
  have low := h.1
  have high := h.2
  rw [read_fat, if_neg (by omega), if_neg (Nat.not_le.mpr h.lt_EOC),
    if_neg (by rw [Geometry.u32_last]; omega),
    Machine.bind_of_ok hsec, Machine.bind_of_ok (fat_offset_of_clus_run h),
    Machine.bind_of_ok (Machine.get_run d), at_entry]
  rfl

theorem write_fat_run (h : fat.InRange c) (content : Nat) :
    write_fat fat c content d = .ok ((), d.store (fat.entryAt c) 4 content) := by
  obtain ⟨sec, hsec, at_entry⟩ := fat_sec_of_clus_run (d := d) h
  have low := h.1
  rw [write_fat, if_neg (by omega), Machine.bind_of_ok hsec,
    Machine.bind_of_ok (fat_offset_of_clus_run h), Machine.modify_run, at_entry]

/-- The table ends before the first cluster begins. -/
theorem Geometry.entryAt_lt_clusterAt {c' : Nat} (h : fat.InRange c) :
    fat.entryAt c + 4 ≤ fat.clusterAt c' := by
  have covered := fat.covers
  have before := fat.before
  have high := h.2
  have table : fat.entryAt c + 4 ≤ (fat.rsvd_sec_cnt + fat.fat_sz) * BSIZE := by
    rw [Geometry.entryAt, Nat.add_mul]
    omega
  have data : (fat.rsvd_sec_cnt + fat.fat_sz) * BSIZE ≤ fat.clusterAt c' :=
    Nat.mul_le_mul_right _ (by omega)
  omega

theorem Geometry.clusterAt_disjoint {c' : Nat} (h : fat.InRange c) (h' : fat.InRange c')
    (ne : c ≠ c') :
    fat.clusterAt c + fat.byts_per_clus ≤ fat.clusterAt c' ∨
    fat.clusterAt c' + fat.byts_per_clus ≤ fat.clusterAt c := by
  have spread : ∀ {a b : Nat}, 2 ≤ a → a < b →
      fat.clusterAt a + fat.byts_per_clus ≤ fat.clusterAt b := by
    intro a b low lt
    have step : a - 2 + 1 ≤ b - 2 := by omega
    have := Nat.mul_le_mul_right fat.sec_per_clus step
    rw [Geometry.clusterAt, Geometry.clusterAt, Geometry.byts_per_clus, ← Nat.add_mul]
    apply Nat.mul_le_mul_right
    rw [Nat.add_mul] at this
    omega
  rcases Nat.lt_or_gt_of_ne ne with lt | gt
  · exact .inl (spread h.1 lt)
  · exact .inr (spread h'.1 gt)

/-! ### Transfers within one cluster -/

/-- The sectors are one after the other on the disk. -/
theorem rounds_cons (limit : Nat) {n sec off tot : Nat} (more : tot < n)
    (low : sec * BSIZE + off % BSIZE + (n - tot) ≤ 2 ^ 32 * BSIZE) :
    ∃ m, 0 < m ∧ m ≤ n - tot ∧ rounds n (limit + 1) sec off tot =
      (sec * BSIZE + off % BSIZE, tot, m) :: rounds n limit (u32 (sec + 1)) (off + m) (tot + m) ∧
    (m < n - tot → u32 (sec + 1) * BSIZE + (off + m) % BSIZE = sec * BSIZE + off % BSIZE + m) := by
  have within : off % BSIZE < BSIZE := Nat.mod_lt _ (by decide)
  refine ⟨min (BSIZE - off % BSIZE) (n - tot), by omega, by omega,
    by rw [rounds, if_pos more], fun rest => ?_⟩
  have whole : min (BSIZE - off % BSIZE) (n - tot) = BSIZE - off % BSIZE := by omega
  rw [whole] at rest ⊢
  have next : (off + (BSIZE - off % BSIZE)) % BSIZE = 0 := by
    have := Nat.div_add_mod off BSIZE
    have : off + (BSIZE - off % BSIZE) = BSIZE * (off / BSIZE + 1) := by
      rw [Nat.mul_add]
      omega
    rw [this, Nat.mul_mod_right]
  have small : sec + 1 < 2 ^ 32 := by
    rw [BSIZE] at *
    omega
  rw [next, u32, Nat.mod_eq_of_lt small, Nat.add_mul]
  omega

theorem rounds_window {n limit sec off tot : Nat} (enough : n - tot ≤ limit)
    (low : sec * BSIZE + off % BSIZE + (n - tot) ≤ 2 ^ 32 * BSIZE) :
    ((rounds n limit sec off tot).flatMap fun (a, _, m) => d.window a m) =
      d.window (sec * BSIZE + off % BSIZE) (n - tot) := by
  induction limit generalizing sec off tot with
  | zero =>
    have none : n - tot = 0 := by omega
    rw [none]
    rfl
  | succ limit ih =>
    rcases Nat.lt_or_ge tot n with more | done
    · obtain ⟨m, pos, le, cons, next⟩ := rounds_cons limit more low
      rw [cons, List.flatMap_cons]
      have split : n - tot = m + (n - (tot + m)) := by omega
      rw [split, Memory.window_append]
      congr 1
      rcases Nat.lt_or_ge m (n - tot) with rest | last
      · rw [ih (by omega) (by rw [next rest]; omega), next rest]
      · have none : n - (tot + m) = 0 := by omega
        rw [none]
        cases limit <;> simp [rounds, Memory.window, show ¬tot + m < n by omega]
    · have none : n - tot = 0 := by omega
      rw [rounds, if_neg (by omega), none]
      rfl

theorem transfer_ofBytes {bytes : List UInt8} {limit sec off tot : Nat}
    (enough : bytes.length - tot ≤ limit)
    (low : sec * BSIZE + off % BSIZE + (bytes.length - tot) ≤ 2 ^ 32 * BSIZE) :
    transfer (fun (a, tot, m) => do
      modify fun b => b.blit a ((Source.ofBytes bytes).copy tot m).1
      return ((Source.ofBytes bytes).copy tot m).2) bytes.length
      (rounds bytes.length limit sec off tot) d =
      .ok (bytes.length, d.blit (sec * BSIZE + off % BSIZE) (bytes.drop tot)) := by
  induction limit generalizing sec off tot d with
  | zero =>
    rw [List.drop_of_length_le (by omega), Memory.blit_nil]
    rfl
  | succ limit ih =>
    rcases Nat.lt_or_ge tot bytes.length with more | done
    · obtain ⟨m, pos, le, cons, next⟩ := rounds_cons limit more low
      rw [cons]
      have moved : ((bytes.drop tot).take m).length = m := by
        rw [List.length_take, List.length_drop]
        omega
      have split : bytes.drop tot = (bytes.drop tot).take m ++ bytes.drop (tot + m) := by
        rw [← List.drop_drop, List.take_append_drop]
      rcases Nat.lt_or_ge m (bytes.length - tot) with rest | last
      · have tail := @ih (d.blit (sec * BSIZE + off % BSIZE) ((bytes.drop tot).take m))
          (u32 (sec + 1)) (off + m) (tot + m)
          (by omega) (by rw [next rest]; omega)
        rw [next rest] at tail
        refine tail.trans ?_
        rw [← congrArg (_ + ·) moved, Memory.blit_append, ← split]
      · have none : rounds bytes.length limit (u32 (sec + 1)) (off + m) (tot + m) = [] := by
          cases limit <;> simp [rounds, show ¬tot + m < bytes.length by omega]
        rw [none]
        have all : (bytes.drop tot).take m = bytes.drop tot := by
          rw [List.take_of_length_le]
          rw [List.length_drop]
          omega
        show Except.ok (_, d.blit _ ((bytes.drop tot).take m)) = _
        rw [all]
    · rw [rounds, if_neg (by omega), List.drop_of_length_le (by omega), Memory.blit_nil]
      rfl

theorem Geometry.byts_per_clus_lt (fat : Geometry) : fat.byts_per_clus < 2 ^ 17 := by
  have := fat.narrow
  rw [Geometry.byts_per_clus, BSIZE]
  omega

/-- The sector that a transfer starts in, as `rw_clus` works it out. -/
theorem Geometry.InRange.sector (h : fat.InRange c) {off n : Nat} (pos : 0 < n)
    (inside : off + n ≤ fat.byts_per_clus) :
    u32 ((c - 2) * fat.sec_per_clus + fat.first_data_sec + off / BSIZE) * BSIZE +
      off % BSIZE % BSIZE = fat.clusterAt c + off ∧
    fat.clusterAt c + off + n ≤ 2 ^ 32 * BSIZE := by
  have last := h.sector_lt
  have fits := fat.fits
  have sector : off / BSIZE < fat.sec_per_clus := by
    rw [Nat.div_lt_iff_lt_mul (by decide)]
    rw [Geometry.byts_per_clus] at inside
    omega
  constructor
  · rw [u32, Nat.mod_eq_of_lt (by omega), Nat.mod_mod, Nat.add_mul, Nat.add_assoc,
      Nat.div_add_mod']
    rfl
  · have below : (c - 2) * fat.sec_per_clus + fat.first_data_sec + fat.sec_per_clus ≤ 2 ^ 32 := by
      omega
    have := Nat.mul_le_mul_right BSIZE below
    rw [Nat.add_mul] at this
    rw [Geometry.byts_per_clus] at inside
    rw [Geometry.clusterAt]
    omega

theorem rw_clus_read_run (h : fat.InRange c) {off n : Nat} (pos : 0 < n)
    (inside : off + n ≤ fat.byts_per_clus) :
    rw_clus_read fat c off n d = .ok (d.window (fat.clusterAt c + off) n, d) := by
  have small := fat.byts_per_clus_lt
  obtain ⟨start, low⟩ := h.sector pos inside
  rw [rw_clus_read, u32, Nat.mod_eq_of_lt (by omega), if_neg (by omega),
    Machine.bind_of_ok (first_sec_of_clus_run h), Machine.bind_of_ok (Machine.get_run d),
    rounds_window (by omega) (by rw [start]; omega), start]
  rfl

theorem rw_clus_write_run (h : fat.InRange c) {off : Nat} {bytes : List UInt8}
    (pos : 0 < bytes.length) (inside : off + bytes.length ≤ fat.byts_per_clus) :
    rw_clus_write fat c (.ofBytes bytes) off bytes.length d =
      .ok (bytes.length, d.blit (fat.clusterAt c + off) bytes) := by
  have small := fat.byts_per_clus_lt
  obtain ⟨start, low⟩ := h.sector pos inside
  rw [rw_clus_write, u32, Nat.mod_eq_of_lt (by omega), if_neg (by omega),
    Machine.bind_of_ok (first_sec_of_clus_run h),
    transfer_ofBytes (by omega) (by rw [start]; omega), start, List.drop_zero]

end AvxKernel.Fat
