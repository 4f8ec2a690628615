import AvxKernel.Exec.Load
import AvxKernel.Fat.File
import AvxKernel.Vm.RoundTrip

/-! What `loadseg` leaves of a segment in memory, with the file on a FAT volume.
A segment that starts within a page has the whole rest of that page read, so one
that also ends there takes bytes that are not its own. -/
namespace AvxKernel.Exec

open Vm

/-- The entries in memory, and the volume. -/
structure Volume where
  entries : Nat → Fat.Dirent
  disk : Fat.Disk

def Volume.put (v : Volume) (ep : Nat) (entry : Fat.Dirent) : Volume :=
  { v with entries := Function.update v.entries ep entry }

@[simp] theorem Volume.put_entry (v : Volume) (ep : Nat) (entry : Fat.Dirent) :
    (v.put ep entry).entries ep = entry := Function.update_self ..

@[simp] theorem Volume.put_disk (v : Volume) (ep : Nat) (entry : Fat.Dirent) :
    (v.put ep entry).disk = v.disk := rfl

/-- `eread` of `fat32.c`, for a buffer of the kernel's. -/
def readEntry (fat : Fat.Geometry) (ep off n : Nat) : Machine Volume (List UInt8) := do
  let v ← get
  let (_, bytes, entry) ← Machine.zoom Volume.disk (fun disk v => { v with disk })
    (Fat.eread fat (v.entries ep) off n)
  modify fun v => v.put ep entry
  return bytes

/-- A file system that reads from the volume; its other calls are of no concern here. -/
def FileSystem.reads (fsys : FileSystem Volume) (fat : Fat.Geometry) : FileSystem Volume :=
  { fsys with eread := readEntry fat }

/-- A regular file and its bytes. -/
structure FileAt (fat : Fat.Geometry) (ep : Nat) (cs : List Nat) (file : List UInt8) (v : Volume) :
    Prop where
  plain : (v.entries ep).isDir = false
  size : (v.entries ep).file_size = file.length
  regular : file ≠ [] → Fat.Regular fat v.disk cs (v.entries ep)
  bytes : ∀ i < file.length, Fat.fileBytes fat v.disk cs i = file.getD i 0

variable {fat : Fat.Geometry} {ep : Nat} {cs : List Nat} {file : List UInt8} {v : Volume}
  {fsys : FileSystem Volume} {k k' : Kernel Volume} {off n : Nat}

/-! ### Reading -/

theorem FileAt.narrow (h : FileAt fat ep cs file v) : file.length < 2 ^ 32 := by
  by_cases empty : file = []
  · rw [empty]
    exact Nat.two_pow_pos 32
  · rw [← h.size]
    exact (h.regular empty).narrow

/-- The file after its entry has changed its cursor only. -/
theorem FileAt.put (h : FileAt fat ep cs file v) {entry : Fat.Dirent}
    (plain : entry.isDir = (v.entries ep).isDir)
    (size : entry.file_size = (v.entries ep).file_size)
    (regular : file ≠ [] → Fat.Regular fat v.disk cs entry) :
    FileAt fat ep cs file (v.put ep entry) where
  plain := by rw [Volume.put_entry, plain, h.plain]
  size := by rw [Volume.put_entry, size, h.size]
  regular := by rwa [Volume.put_entry]
  bytes := h.bytes

theorem readEntry_of {r : Int} {bytes : List UInt8} {entry : Fat.Dirent}
    (run : Fat.eread fat (v.entries ep) off n v.disk = .ok ((r, bytes, entry), v.disk)) :
    readEntry fat ep off n v = .ok (bytes, v.put ep entry) := by
  have zoomed : Machine.zoom Volume.disk (fun disk v => { v with disk })
      (Fat.eread fat (v.entries ep) off n) v = .ok ((r, bytes, entry), v) :=
    Machine.zoom_ok.mpr ⟨v.disk, run, rfl⟩
  rw [readEntry, Machine.bind_of_ok (Machine.get_run v), Machine.bind_of_ok zoomed]
  rfl

theorem eread_past {entry : Fat.Dirent} {d : Fat.Disk}
    (past : entry.file_size < off ∨ u32 (off + n) < off) :
    Fat.eread fat entry off n d = .ok ((0, [], entry), d) := by
  rw [Fat.eread, if_pos (past.imp_right .inl)]
  rfl

theorem eread_empty {entry : Fat.Dirent} {d : Fat.Disk} (plain : entry.isDir = false)
    (empty : entry.file_size = 0) (pos : 0 < n) (small : n < 2 ^ 32) :
    Fat.eread fat entry off n d = .ok ((0, [], entry), d) := by
  by_cases past : 0 < off
  · exact eread_past (.inl (by omega))
  · obtain rfl : off = 0 := by omega
    have whole : u32 (0 + n) = n := by
      rw [Nat.zero_add]
      exact Nat.mod_eq_of_lt small
    rw [Fat.eread, whole, if_neg (by simp [plain]), empty, if_pos pos, Fat.ereadFrom,
      if_neg (by omega)]
    rfl

/-- A read delivers as much as the file holds. -/
theorem readEntry_run (h : FileAt fat ep cs file v) (pos : 0 < n) (small : n < 2 ^ 32)
    (low : off < 2 ^ 32) :
    ∃ bytes v', readEntry fat ep off n v = .ok (bytes, v') ∧ FileAt fat ep cs file v' ∧
      bytes.length ≤ n ∧ (bytes.length = n ↔ off + n ≤ file.length) ∧
      ∀ i < bytes.length, bytes.getD i 0 = file.getD (off + i) 0 := by
  have narrow := h.narrow
  have size := h.size
  have plain := h.plain
  by_cases past : 2 ^ 32 ≤ off + n ∨ file = []
  · -- nothing is read where `off + n` wraps, or of an empty file
    have run : Fat.eread fat (v.entries ep) off n v.disk =
        .ok ((0, [], v.entries ep), v.disk) := by
      rcases past with wraps | empty
      · have cut : u32 (off + n) = off + n - 2 ^ 32 := by
          rw [u32]
          omega
        exact eread_past (.inr (by omega))
      · apply eread_empty plain _ pos small
        rw [size, empty]
        rfl
    refine ⟨[], _, readEntry_of run, h.put rfl rfl h.regular, Nat.zero_le n, ?_, ?_⟩
    · rw [List.length_nil]
      constructor
      · intro none
        omega
      · intro fits
        rcases past with wraps | empty
        · omega
        · rw [empty, List.length_nil] at fits
          omega
    · intro i hi
      exact absurd hi (Nat.not_lt_zero i)
  · obtain ⟨whole, nonempty⟩ := not_or.mp past
    have regular := h.regular nonempty
    obtain ⟨c, hc, run⟩ := Fat.eread_run regular (show off + n < 2 ^ 32 by omega)
    refine ⟨_, _, readEntry_of run, ?_, ?_, ?_, ?_⟩
    · exact h.put rfl rfl fun _ => { regular with cursor := regular.cursor.seek hc }
    · rw [Memory.window_length]
      exact Nat.min_le_left _ _
    · rw [Memory.window_length, size]
      omega
    · intro i hi
      rw [List.getD_eq_getElem _ _ hi, Memory.window_getElem]
      rw [Memory.window_length, size] at hi
      exact h.bytes _ (by omega)

theorem deliver_run {dst : Nat} {bytes : List UInt8} (s : Ram)
    (reach : ∀ i < bytes.length, mapped (dst + i) = true) :
    deliver dst bytes s = .ok ((), s.setMem (s.mem.blit dst bytes)) := by
  rw [deliver, Machine.bind_of_ok (Machine.get_run s), if_pos]
  · rfl
  · rw [List.all_eq_true]
    exact fun i hi => reach i (List.mem_range.mp hi)

theorem eread_run (fsys : FileSystem Volume) (h : FileAt fat ep cs file k.fs) (pos : 0 < n) (small : n < 2 ^ 32)
    (low : off < 2 ^ 32) {pa : Nat} (reach : ∀ i < n, mapped (pa + i) = true) :
    ∃ r k', eread (fsys.reads fat) ep pa off n k = .ok (r, k') ∧ FileAt fat ep cs file k'.fs ∧
      (r = n ↔ off + n ≤ file.length) ∧
      (r = n → Laid k.ram.mem k'.ram.mem (fun i => pa + i) (fun i => file.getD (off + i) 0) n) := by
  obtain ⟨bytes, v, read, at', short, whole, same⟩ := readEntry_run h pos small low
  have delivered := deliver_run k.ram fun i hi => reach i (hi.trans_le short)
  have onFile : onFs ((fsys.reads fat).eread ep off n) k = .ok (bytes, { k with fs := v }) :=
    onFs_of_ok read
  have onMemory : onRam (deliver pa bytes) ({ k with fs := v } : Kernel Volume) =
      .ok ((), { k with fs := v, ram := k.ram.setMem (k.ram.mem.blit pa bytes) }) :=
    onRam_of_ok delivered
  refine ⟨bytes.length, { k with fs := v, ram := k.ram.setMem (k.ram.mem.blit pa bytes) }, ?_, at',
    whole, ?_⟩
  · rw [eread, Machine.bind_of_ok onFile, Machine.bind_of_ok onMemory]
    rfl
  · intro full
    apply Laid.congr (full ▸ Laid.blit k.ram.mem pa bytes) fun _ _ => rfl
    intro i hi
    exact (same i (by omega)).symm

/-- The loop of `loadseg`, from `i` bytes on. -/
def loadPages (limit : Nat) {F : Type} (fsys : FileSystem F) (pagetable ep offset sz i va : Nat) :
    Machine (Kernel F) Int :=
  Machine.loop (fun (i, va) => do
    if i < sz then
      let pa ← onRam (walkaddr pagetable va)
      if pa = 0 then
        Machine.panic "loadseg: address should exist"
      else
        let n := if sz - i < PGSIZE then sz - i else PGSIZE
        if (← eread fsys ep pa (u32 (offset + i)) n) ≠ n then
          return .inr (-1)
        else
          return .inl (u32 (i + n), u64 (va + PGSIZE))
    else
      return .inr 0) limit (i, va)

theorem loadPages_succ {limit : Nat} {F : Type} {fsys : FileSystem F}
    {pagetable offset sz i va : Nat} :
    loadPages (limit + 1) fsys pagetable ep offset sz i va =
      if i < sz then do
        let pa ← onRam (walkaddr pagetable va)
        if pa = 0 then
          Machine.panic "loadseg: address should exist"
        else
          let n := if sz - i < PGSIZE then sz - i else PGSIZE
          if (← eread fsys ep pa (u32 (offset + i)) n) ≠ n then
            return -1
          else
            loadPages limit fsys pagetable ep offset sz (u32 (i + n)) (u64 (va + PGSIZE))
      else
        return 0 := by
  rw [loadPages, Machine.loop]
  by_cases more : i < sz
  · simp only [if_pos more, bind_assoc]
    apply bind_congr
    intro pa
    by_cases found : pa = 0
    · rw [if_pos found, if_pos found]
      rfl
    · rw [if_neg found, if_neg found, bind_assoc]
      apply bind_congr
      intro r
      by_cases short : r ≠ if sz - i < PGSIZE then sz - i else PGSIZE
      · rw [if_pos short, if_pos short]
        rfl
      · rw [if_neg short, if_neg short]
        rfl
  · simp only [if_neg more]
    rfl

theorem loadPages_done {limit : Nat} {F : Type} {fsys : FileSystem F} {k : Kernel F}
    {pagetable offset sz i va : Nat} (done : sz ≤ i) :
    loadPages (limit + 1) fsys pagetable ep offset sz i va k = .ok (0, k) := by
  rw [loadPages_succ, if_neg (by omega)]
  rfl

variable {limit root va offset sz i : Nat} {node : Nodes}

/-- The whole pages of a segment and the start of the last. -/
theorem loadPages_run (fsys : FileSystem Volume) (space : UserSpace k.ram root node)
    (on : FileAt fat ep cs file k.fs)
    (fits : offset + sz ≤ file.length) (le : i ≤ sz) (aligned : va % PGSIZE = 0)
    (opens : ∀ v, span va (sz - i) v → OpenPage k.ram root v)
    (enough : (sz - i) / PGSIZE + 2 ≤ limit) :
    ∃ k', loadPages limit (fsys.reads fat) root ep offset sz i va k = .ok (0, k') ∧
      Stored k.ram k'.ram root va (fun j => file.getD (offset + i + j) 0) (sz - i) := by
  induction limit generalizing i va k with
  | zero => exact absurd enough (Nat.not_succ_le_zero _)
  | succ limit ih =>
    have enough' : 1 ≤ limit := Nat.le_of_succ_le_succ (le_trans (Nat.le_add_left 2 _) enough)
    by_cases more : i < sz
    · have narrow := on.narrow
      have start : PGROUNDDOWN va = va := by
        have := Nat.mod_add_div' va PGSIZE
        rw [PGROUNDDOWN]
        omega
      obtain ⟨pa, hwalk, found, here, window, next, along⟩ :=
        chunk_open space.tree (opens va ⟨le_refl va, by omega⟩)
      rw [start, Nat.sub_self, Nat.add_zero] at here
      rw [start] at hwalk
      rw [start, Nat.sub_self, Nat.sub_zero] at next
      rw [start, Nat.sub_self, Nat.sub_zero] at along
      rw [loadPages_succ, if_pos more, Machine.bind_of_ok (onRam_of_ok hwalk), if_neg found]
      generalize hn : (if sz - i < PGSIZE then sz - i else PGSIZE) = n
      have small : n ≤ PGSIZE ∧ n ≤ sz - i ∧ 0 < n := by
        have : 0 < PGSIZE := by decide
        split at hn <;> omega
      have offset' : u32 (offset + i) = offset + i := Nat.mod_eq_of_lt (by omega)
      have reach : ∀ j < n, mapped (pa + j) = true := by
        intro j hj
        obtain ⟨isOpen, place⟩ := along j (by omega)
        rw [here, ← place]
        exact physical_mapped isOpen.inPage
      obtain ⟨r, k₁, run, on₁, whole, laid⟩ :=
        eread_run fsys on small.2.2 (by rw [PGSIZE] at small; omega)
          (show offset + i < 2 ^ 32 by omega) reach
      have full : r = n := whole.mpr (by omega)
      rw [offset', Machine.bind_of_ok run, if_neg (not_not.mpr full)]
      have stored : Stored k.ram k₁.ram root va (fun j => file.getD (offset + i + j) 0) n := by
        apply (laid full).congr
        · intro j hj
          rw [here, (along j (by omega)).2]
        · intro j _
          rfl
      have opens₁ : ∀ v, span va n v → OpenPage k.ram root v := by
        intro v hv
        exact opens v ⟨hv.1, by have := hv.2; omega⟩
      have opens₂ : ∀ v, span (va + n) (sz - (i + n)) v → OpenPage k.ram root v := by
        intro v hv
        exact opens v ⟨by have := hv.1; omega, by have := hv.2; omega⟩
      have pages := stored.page space opens₁
      have here' : u32 (i + n) = i + n := Nat.mod_eq_of_lt (by omega)
      rw [here']
      by_cases last : sz ≤ i + n
      · obtain ⟨limit, rfl⟩ := Nat.exists_eq_add_of_le' enough'
        rw [loadPages_done last, show sz - i = n by omega]
        exact ⟨k₁, rfl, stored⟩
      · have page : n = PGSIZE := by
          split at hn <;> omega
        have fewer : (sz - i) / PGSIZE = (sz - (i + n)) / PGSIZE + 1 := by
          rw [show sz - i = sz - (i + n) + PGSIZE by omega, Nat.add_div_right _ (by decide)]
        rw [fewer] at enough
        rw [next, ← page]
        obtain ⟨k₂, run₂, rest⟩ := ih (space.same (stored.sameTable space opens₁)) on₁ (by omega)
          (by rw [page, Nat.add_mod_right, aligned])
          (fun v hv => (openPage_congr (pages v)).mpr (opens₂ v hv)) (Nat.le_of_succ_le_succ enough)
        refine ⟨k₂, run₂, ?_⟩
        rw [show sz - i = n + (sz - (i + n)) by omega]
        apply stored.append space opens₁ opens₂
        apply rest.congr (fun _ _ => rfl)
        intro j _
        rw [Nat.add_assoc, Nat.add_assoc, Nat.add_assoc]
    · rw [loadPages_done (by omega)]
      refine ⟨k, rfl, ?_⟩
      rw [show sz - i = 0 by omega]
      exact .nil

/-- A segment from the start of a page on. -/
theorem loadseg_aligned {F : Type} {fsys : FileSystem F} {pagetable : Nat}
    (aligned : va % PGSIZE = 0) :
    loadseg limit fsys pagetable va ep offset sz = loadPages limit fsys pagetable ep offset sz 0 va := by
  rw [loadseg, aligned]
  rfl

/-- A segment from within a page on: the rest of the page, and the loop. -/
theorem loadseg_unaligned {F : Type} {fsys : FileSystem F} {pagetable : Nat}
    (unaligned : va % PGSIZE ≠ 0) :
    loadseg limit fsys pagetable va ep offset sz = (do
      let pa ← onRam (walkaddr pagetable (va - va % PGSIZE))
      if pa = 0 then
        Machine.panic "loadseg: address should exist"
      else if (← eread fsys ep (pa + va % PGSIZE) offset (PGSIZE - va % PGSIZE)) ≠
          PGSIZE - va % PGSIZE then
        return -1
      else
        loadPages limit fsys pagetable ep offset sz (PGSIZE - va % PGSIZE)
          (u64 (va - va % PGSIZE + PGSIZE))) := by
  rw [loadseg]
  simp only [if_pos unaligned, bind_assoc]
  apply bind_congr
  intro pa
  by_cases found : pa = 0
  · rw [if_pos found, if_pos found]
    rfl
  · rw [if_neg found, if_neg found, bind_assoc]
    apply bind_congr
    intro r
    split <;> rfl

/-! ### The whole segment -/

/-- The segment is in the address space, and every other byte of it is as it was. -/
def Loads (k : Kernel Volume) (root va sz : Nat) (segment : Nat → UInt8)
    (result : Except Halt (Int × Kernel Volume)) : Prop :=
  ∃ k', result = .ok (0, k') ∧ ∀ v, userByte k'.ram root v =
    if va ≤ v ∧ v < va + sz then some (segment (v - va)) else userByte k.ram root v

/-- The rest of the page that a segment ends in holds already what follows the
segment in the file. -/
def SameRest (k : Kernel Volume) (root va offset sz : Nat) (file : List UInt8) : Prop :=
  OpenPage k.ram root va ∧ offset + (PGSIZE - va % PGSIZE) ≤ file.length ∧
    ∀ i, sz ≤ i → i < PGSIZE - va % PGSIZE →
      userByte k.ram root (va + i) = some (file.getD (offset + i) 0)

theorem Loads.of_stored {segment : Nat → UInt8} (space : UserSpace k.ram root node)
    (opens : ∀ v, span va sz v → OpenPage k.ram root v)
    (stored : Stored k.ram k'.ram root va segment sz) :
    Loads k root va sz segment (.ok (0, k')) :=
  ⟨k', rfl, stored.userByte space opens⟩

/-- The rest of the first page, where the segment starts within a page of the user's. -/
theorem loadseg_first (fsys : FileSystem Volume) (limit sz : Nat) (space : UserSpace k.ram root node)
    (on : FileAt fat ep cs file k.fs)
    (low : offset < 2 ^ 32) (unaligned : va % PGSIZE ≠ 0) (isOpen : OpenPage k.ram root va) :
    (offset + (PGSIZE - va % PGSIZE) ≤ file.length → ∃ k', FileAt fat ep cs file k'.fs ∧
      Stored k.ram k'.ram root va (fun i => file.getD (offset + i) 0) (PGSIZE - va % PGSIZE) ∧
      loadseg limit (fsys.reads fat) root va ep offset sz k =
        loadPages limit (fsys.reads fat) root ep offset sz (PGSIZE - va % PGSIZE)
          (va + (PGSIZE - va % PGSIZE)) k') ∧
    (file.length < offset + (PGSIZE - va % PGSIZE) →
      ∃ k', loadseg limit (fsys.reads fat) root va ep offset sz k = .ok (-1, k')) := by
  have start : PGROUNDDOWN va = va - va % PGSIZE := by
    have := Nat.mod_add_div' va PGSIZE
    rw [PGROUNDDOWN]
    omega
  have inside : va % PGSIZE < PGSIZE := Nat.mod_lt _ (by decide)
  have le : va % PGSIZE ≤ va := Nat.mod_le _ _
  have rest : va - (va - va % PGSIZE) = va % PGSIZE := by omega
  obtain ⟨pa, hwalk, found, here, window, next, along⟩ := chunk_open space.tree isOpen
  rw [start, rest] at here
  rw [start] at hwalk
  rw [start, rest] at next
  rw [start, rest] at along
  have reach : ∀ j < PGSIZE - va % PGSIZE, mapped (pa + va % PGSIZE + j) = true := by
    intro j hj
    obtain ⟨within, place⟩ := along j hj
    rw [here, ← place]
    exact physical_mapped within.inPage
  obtain ⟨r, k₁, run, on₁, whole, laid⟩ := eread_run fsys on
    (show 0 < PGSIZE - va % PGSIZE by omega) (by rw [PGSIZE] at *; omega) low reach
  rw [loadseg_unaligned unaligned, Machine.bind_of_ok (onRam_of_ok hwalk), if_neg found,
    Machine.bind_of_ok run]
  constructor
  · intro fits
    have full := whole.mpr fits
    rw [if_neg (not_not.mpr full), next]
    refine ⟨k₁, on₁, ?_, rfl⟩
    apply (laid full).congr
    · intro j hj
      rw [here, (along j hj).2]
    · intro j _
      rfl
  · intro short
    have cut : r ≠ PGSIZE - va % PGSIZE := fun full => absurd (whole.mp full) (by omega)
    rw [if_pos cut]
    exact ⟨k₁, rfl⟩

theorem openPage_rest (space : UserSpace k.ram root node) (isOpen : OpenPage k.ram root va) {v : Nat}
    (hv : span va (PGSIZE - va % PGSIZE) v) : OpenPage k.ram root v := by
  have same : v / PGSIZE = va / PGSIZE := by
    simp only [span] at hv
    rw [PGSIZE] at *
    omega
  exact (openPage_congr_page (page_same_page space.tree same)).mpr isOpen

/-- Where the first page has more room than the segment needs, it is filled up. -/
theorem loads_iff_sameRest (space : UserSpace k.ram root node) (isOpen : OpenPage k.ram root va)
    (short : sz < PGSIZE - va % PGSIZE) (fits : offset + (PGSIZE - va % PGSIZE) ≤ file.length)
    (stored : Stored k.ram k'.ram root va (fun i => file.getD (offset + i) 0) (PGSIZE - va % PGSIZE)) :
    Loads k root va sz (fun i => file.getD (offset + i) 0) (.ok (0, k')) ↔
      SameRest k root va offset sz file := by
  have bytes := stored.userByte space fun v hv => openPage_rest space isOpen hv
  constructor
  · rintro ⟨k'', run, loaded⟩
    cases run
    refine ⟨isOpen, fits, ?_⟩
    intro i above below
    have before := loaded (va + i)
    have after := bytes (va + i)
    rw [if_neg (by omega)] at before
    rw [if_pos (by omega), Nat.add_sub_cancel_left] at after
    exact before.symm.trans after
  · rintro ⟨-, -, same⟩
    refine ⟨k', rfl, ?_⟩
    intro v
    rw [bytes v]
    by_cases segment : va ≤ v ∧ v < va + sz
    · rw [if_pos segment, if_pos (by omega)]
    · rw [if_neg segment]
      by_cases page : va ≤ v ∧ v < va + (PGSIZE - va % PGSIZE)
      · obtain ⟨i, rfl⟩ := Nat.exists_eq_add_of_le page.1
        rw [if_pos page, same i (by omega) (by omega), Nat.add_sub_cancel_left]
      · rw [if_neg page]

/-- The page that a segment without bytes would start in is looked up all the same. -/
theorem loadseg_shut (space : UserSpace k.ram root node) (low : va ≤ MAXVA)
    (unaligned : va % PGSIZE ≠ 0) (shut : ¬OpenPage k.ram root va) :
    loadseg limit (fsys.reads fat) root va ep offset sz k =
      .error (.panic "loadseg: address should exist") := by
  have start : PGROUNDDOWN va = va - va % PGSIZE := by
    have := Nat.mod_add_div' va PGSIZE
    rw [PGROUNDDOWN]
    omega
  have base : PGROUNDDOWN va / PGSIZE = va / PGSIZE := Nat.mul_div_cancel _ (by decide)
  have same := openPage_congr_page (page_same_page space.tree base)
  obtain ⟨pa, hwalk, open_iff, -⟩ :=
    walkaddr_page space.tree ((window_PGROUNDDOWN va).trans (window_of_le low))
  have none : pa = 0 := by
    by_contra found
    exact shut (same.mp (open_iff.mp found))
  rw [start, none] at hwalk
  rw [loadseg_unaligned unaligned, Machine.bind_of_ok (onRam_of_ok hwalk), if_pos rfl]
  rfl

/-- When `loadseg` loads a segment and nothing else: where the segment starts a
page or reaches the end of the page it starts in. Otherwise it reads past the
segment, which fails at the end of the file and goes unseen only where the page
holds the bytes already. -/
theorem loadseg_loads_iff (space : UserSpace k.ram root node) (on : FileAt fat ep cs file k.fs)
    (low : va ≤ MAXVA) (opens : ∀ v, span va sz v → OpenPage k.ram root v)
    (fits : offset + sz ≤ file.length) (enough : sz / PGSIZE + 2 ≤ limit) :
    Loads k root va sz (fun i => file.getD (offset + i) 0)
        (loadseg limit (fsys.reads fat) root va ep offset sz k) ↔
      va % PGSIZE = 0 ∨ PGSIZE - va % PGSIZE ≤ sz ∨ SameRest k root va offset sz file := by
  have narrow := on.narrow
  have room : 0 < PGSIZE - va % PGSIZE := Nat.sub_pos_of_lt (Nat.mod_lt va (by decide))
  by_cases aligned : va % PGSIZE = 0
  · rw [loadseg_aligned aligned]
    obtain ⟨k', run, stored⟩ := loadPages_run fsys space on fits (Nat.zero_le sz) aligned opens enough
    rw [run]
    exact ⟨fun _ => .inl aligned, fun _ => .of_stored space opens stored⟩
  · by_cases isOpen : OpenPage k.ram root va
    · obtain ⟨reads, fails⟩ := loadseg_first fsys limit sz space on
        (show offset < 2 ^ 32 by omega) aligned isOpen
      by_cases long : offset + (PGSIZE - va % PGSIZE) ≤ file.length
      · obtain ⟨k₁, on₁, first, run⟩ := reads long
        rw [run]
        by_cases reaches : PGSIZE - va % PGSIZE ≤ sz
        · refine ⟨fun _ => .inr (.inl reaches), fun _ => ?_⟩
          have opens₁ : ∀ v, span va (PGSIZE - va % PGSIZE) v → OpenPage k.ram root v :=
            fun v hv => openPage_rest space isOpen hv
          have opens₂ : ∀ v, span (va + (PGSIZE - va % PGSIZE)) (sz - (PGSIZE - va % PGSIZE)) v →
              OpenPage k.ram root v := fun v hv =>
            opens v ⟨by have := hv.1; omega, by have := hv.2; omega⟩
          have pages := first.page space opens₁
          have aligned' : (va + (PGSIZE - va % PGSIZE)) % PGSIZE = 0 := by
            rw [PGSIZE] at *
            omega
          have fewer : (sz - (PGSIZE - va % PGSIZE)) / PGSIZE ≤ sz / PGSIZE :=
            Nat.div_le_div_right (Nat.sub_le _ _)
          obtain ⟨k₂, run₂, rest⟩ := loadPages_run fsys
            (space.same (first.sameTable space opens₁)) on₁ fits reaches aligned'
            (fun v hv => (openPage_congr (pages v)).mpr (opens₂ v hv))
            (le_trans (Nat.add_le_add_right fewer 2) enough)
          rw [run₂]
          apply Loads.of_stored space opens
          rw [← Nat.add_sub_cancel' reaches]
          apply first.append space opens₁ opens₂
          apply rest.congr (fun _ _ => rfl)
          intro j _
          rw [Nat.add_assoc]
        · obtain ⟨limit, rfl⟩ := Nat.exists_eq_add_of_le' (le_trans (Nat.le_add_left 1 _) enough)
          rw [loadPages_done (by omega), loads_iff_sameRest space isOpen (by omega) long first]
          exact ⟨fun same => .inr (.inr same), fun h => (h.resolve_left aligned).resolve_left reaches⟩
      · obtain ⟨k₁, run⟩ := fails (by omega)
        rw [run]
        constructor
        · rintro ⟨k', run', -⟩
          cases run'
        · rintro (start | reaches | rest)
          · exact absurd start aligned
          · omega
          · exact absurd rest.2.1 long
    · rw [loadseg_shut space low aligned isOpen]
      constructor
      · rintro ⟨k', run, -⟩
        cases run
      · rintro (start | reaches | rest)
        · exact absurd start aligned
        · exact absurd (opens va ⟨le_refl va, by omega⟩) isOpen
        · exact absurd rest.1 isOpen

/-! ### A file of three bytes -/

/-- A file system whose calls other than reads find and do nothing. -/
def readsOnly : FileSystem Volume where
  ename _ := return 0
  elock _ := return ()
  eunlock _ := return ()
  eput _ := return ()
  eread _ _ _ := return []
  fileclose _ := return ()
  filedup _ := return ()
  seek _ _ := return ()
  file_open _ _ ofile := return (-1, ofile)

def threeByteFile : Fat.Dirent := { Fat.shortFile with file_size := 3 }

def threeBytes : List UInt8 := (Fat.fileBytes Fat.bareVolume Fat.bareDisk [2]).window 0 3

def threeByteVolume : Volume := ⟨fun _ => threeByteFile, Fat.bareDisk⟩

/-- A process with one page, and the file open. -/
def oneSegment : Kernel Volume where
  ram := oneMapping
  p :=
    { sz := PGSIZE
      pagetable := RAMBASE
      trapframe := 0
      vma := 0
      filelimit := 0
      ofile := fun _ => 0
      exec_close := fun _ => 0
      name := [] }
  fs := threeByteVolume

theorem threeBytes_length : threeBytes.length = 3 := Memory.window_length _ _ _

theorem threeByteFile_regular : Fat.Regular Fat.bareVolume Fat.bareDisk [2] threeByteFile where
  clusters := Fat.bareRoot_clusters
  cursor := ⟨rfl, rfl⟩
  file := by decide
  covered := by decide
  narrow := by decide

theorem threeByteVolume_file : FileAt Fat.bareVolume 0 [2] threeBytes threeByteVolume := by
  rw [threeByteVolume]
  constructor
  · exact threeByteFile_regular.file
  · exact threeBytes_length.symm
  · dsimp only
    exact fun _ => threeByteFile_regular
  · intro i hi
    have byte : threeBytes[i] = Fat.fileBytes Fat.bareVolume Fat.bareDisk [2] (0 + i) :=
      Memory.window_getElem _ _ _ _ hi
    rw [List.getD_eq_getElem _ _ hi, byte, Nat.zero_add]

theorem oneSegment_open {v : Nat} (low : v < PGSIZE) : OpenPage oneSegment.ram RAMBASE v :=
  (oneMapping_user low).isOpen

/-- At the start of the page. -/
theorem loadseg_loads_page :
    Loads oneSegment RAMBASE 0 3 (fun i => threeBytes.getD (0 + i) 0)
      (loadseg 2 (readsOnly.reads Fat.bareVolume) RAMBASE 0 0 0 3 oneSegment) := by
  obtain ⟨node, space, -⟩ := oneMapping_space
  have opens : ∀ v, span 0 3 v → OpenPage oneSegment.ram RAMBASE v := fun v hv =>
    oneSegment_open (lt_trans hv.2 (by decide))
  exact (loadseg_loads_iff space threeByteVolume_file (Nat.zero_le _) opens (Nat.le_refl 3)
    (Nat.le_refl 2)).mpr (.inl rfl)

/-- Within the page, at the end of the file. -/
theorem loadseg_reads_past : ∃ node, UserSpace oneSegment.ram RAMBASE node ∧
    FileAt Fat.bareVolume 0 [2] threeBytes oneSegment.fs ∧
    (∀ v, span 16 3 v → OpenPage oneSegment.ram RAMBASE v) ∧ threeBytes.length = 0 + 3 ∧
    ¬Loads oneSegment RAMBASE 16 3 (fun i => threeBytes.getD (0 + i) 0)
      (loadseg 2 (readsOnly.reads Fat.bareVolume) RAMBASE 16 0 0 3 oneSegment) := by
  obtain ⟨node, space, -⟩ := oneMapping_space
  refine ⟨node, space, threeByteVolume_file, ?_, threeBytes_length, ?_⟩
  · intro v hv
    exact oneSegment_open (lt_trans hv.2 (by decide))
  · have low : 0 < 2 ^ 32 := by decide
    have past : threeBytes.length < 0 + (PGSIZE - 16 % PGSIZE) := by
      rw [threeBytes_length]
      decide
    obtain ⟨k', run⟩ := (loadseg_first readsOnly 2 3 space threeByteVolume_file low
      (show 16 % PGSIZE ≠ 0 by decide) (oneSegment_open (by decide))).2 past
    rw [run]
    rintro ⟨k'', loaded, -⟩
    cases loaded

end AvxKernel.Exec
