import AvxKernel.Fs.Unlinked

/-! Runs of calls after a file has been removed that is still open. -/
namespace AvxKernel.Fs

open Fat (Geometry Elsewhere Withheld NoneBegins InDirectory portion)

variable {fat : Geometry} {cs : List Nat} {data data' : List UInt8} {s t u : Shared (Ecache Mounted)}
  {me old n limit : Nat}

/-- What may be called: on open files, whose offsets and counts are 32 bits wide, by any
process, and with names in directories. -/
inductive Op where
  | read (p : Caller) (e : Nat) (off count : UInt32)
  | write (p : Caller) (e : Nat) (off : UInt32) (bytes : List UInt8)
  | lookup (dp : Nat) (name : Name)
  | create (dp : Nat) (name : Name) (attr : Nat)
  | close (e : Nat)

variable (fat n limit) in
def Op.call : Op → Cache Mounted Unit
  | read p e off count => do
    let _ ← readEntry fat p e off.toNat count.toNat
  | write p e off bytes => do
    let _ ← writeEntry fat p e off.toNat bytes
  | lookup dp name => do
    let _ ← lookupEntry (fatDisk fat n) limit dp name
  | create dp name attr => do
    let _ ← createEntry (fatDisk fat n) limit dp name attr
  | close e => eput (fatDisk fat n) limit e

/-- What the removed file holds after a call. -/
def Op.leaves (old attr : Nat) (data : List UInt8) : Op → List UInt8
  | write p e off bytes => if e = old then written p attr data off.toNat bytes else data
  | _ => data

/-- The call stays away from the clusters of the removed file: where it allocates, no free
entry leads to one of them, and a write to the file stays within them. Directories are
in order, and the file is not closed for the last time. -/
def Meets (fat : Geometry) (old : Nat) (cs : List Nat) (data : List UInt8) (s : Shared (Ecache Mounted)) :
    Op → Prop
  | .read _ e _ _ => e ≠ old → (s.state.ent e).valid ≠ 0
  | .write p e off bytes =>
    if e = old then Fits fat cs p (s.state.ent old).attr data off.toNat bytes.length
    else (s.state.ent e).valid ≠ 0 ∧ Withheld fat cs s.state.disk.bytes
  | .lookup dp name => name ≠ [] ∧
    ((s.state.ent dp).valid = 1 → NoneBegins fat cs s.state.disk.bytes (direntAt s dp))
  | .create dp name _ => (∀ name', Fat.formatname name = some name' → name' ≠ []) ∧
    ((s.state.ent dp).valid = 1 → NoneBegins fat cs s.state.disk.bytes (direntAt s dp)) ∧
      Withheld fat cs s.state.disk.bytes
  | .close e => if e = old then 1 < (s.state.ent old).ref else PutsBack fat s e ∧ CleanAbove s e

/-- A run of such calls, with what the file holds. -/
inductive Run (fat : Geometry) (n limit old : Nat) (cs : List Nat) (s : Shared (Ecache Mounted))
    (data : List UInt8) : Shared (Ecache Mounted) → List UInt8 → Prop where
  | refl : Run fat n limit old cs s data s data
  | step {me : Nat} {op : Op} {t u : Shared (Ecache Mounted)} {data' : List UInt8}
      (run : Run fat n limit old cs s data t data') (meets : Meets fat old cs data' t op)
      (done : Prog.run me (op.call fat n limit) t = .ok ((), u)) :
      Run fat n limit old cs s data u (op.leaves old (t.state.ent old).attr data')

/-- A removed file that is still open, with its clusters as they were. -/
structure Orphan (fat : Geometry) (old : Nat) (cs : List Nat) (bytes₀ : Fat.Disk) (data : List UInt8)
    (s : Shared (Ecache Mounted)) : Prop where
  alone : Alone fat old cs data s
  removed : (s.state.ent old).valid = -1
  linked : ∀ c ∈ cs, fat.entry s.state.disk.bytes c = fat.entry bytes₀ c

variable {bytes₀ : Fat.Disk}

theorem Orphan.beside (h : Orphan fat old cs bytes₀ data s) (apart : Apart fat old cs s t) :
    Orphan fat old cs bytes₀ data t where
  alone := h.alone.beside apart
  removed := apart.entry ▸ h.removed
  linked c mem := (apart.spared.entries c mem).trans (h.linked c mem)

theorem after_discard {α : Type} {x : Cache Mounted α} {Q : Shared (Ecache Mounted) → Prop}
    (h : After me x s fun _ t => Q t) : After me (do let _ ← x) s fun _ t => Q t :=
  Prog.Ends.bind h fun _ _ post => Prog.Ends.pure post

theorem Orphan.step (h : Orphan fat old cs bytes₀ data s) {op : Op} (meets : Meets fat old cs data s op) :
    After me (op.call fat n limit) s fun _ t =>
      Orphan fat old cs bytes₀ (op.leaves old (s.state.ent old).attr data) t := by
  have apart := h.alone.apart
  have file : (s.state.ent old).isDir = false := h.alone.contents.file
  cases op with
  | read p e off count =>
    apply after_discard
    rcases eq_or_ne e old with rfl | ne
    · refine (h.alone.readEntry (UInt32.toNat_lt count) p).after.mono ?_
      rintro _ t ⟨-, alone, ent, bytes⟩
      refine ⟨alone, ent ▸ h.removed, ?_⟩
      rw [bytes]
      exact h.linked
    · exact (readEntry_apart apart ne (meets ne) p _ _).mono fun _ _ => h.beside
  | write p e off bytes =>
    apply after_discard
    rcases eq_or_ne e old with rfl | ne
    · rw [Meets, if_pos rfl] at meets
      rw [Op.leaves, if_pos rfl]
      refine (h.alone.writeEntry p meets).after.mono ?_
      rintro _ t ⟨alone, -, valid, -, linked⟩
      refine ⟨alone, valid.trans h.removed, fun c mem => ?_⟩
      rw [linked c (h.alone.apart.spared.range c mem)]
      exact h.linked c mem
    · rw [Meets, if_neg ne] at meets
      obtain ⟨valid, withheld⟩ := meets
      rw [Op.leaves, if_neg ne]
      exact (writeEntry_apart apart ne valid withheld p _ bytes).mono fun _ _ => h.beside
  | lookup dp name =>
    obtain ⟨named, others⟩ := meets
    apply after_discard
    exact (lookupEntry_apart h.removed h.alone.used h.alone.notRoot file others apart named).mono
      fun _ _ => h.beside
  | create dp name attr =>
    obtain ⟨named, others, withheld⟩ := meets
    apply after_discard
    exact (createEntry_apart h.removed h.alone.used h.alone.notRoot file others apart named withheld).mono
      fun _ _ => h.beside
  | close e =>
    rcases eq_or_ne e old with rfl | ne
    · rw [Meets, if_pos rfl] at meets
      refine (h.alone.close meets).mono ?_
      rintro _ t ⟨alone, valid, -, bytes⟩
      refine ⟨alone, valid.trans h.removed, ?_⟩
      rw [bytes]
      exact h.linked
    · rw [Meets, if_neg ne] at meets
      obtain ⟨back, above⟩ := meets
      exact (eput_apart apart ne back above).mono fun _ _ => h.beside

theorem Run.orphan (run : Run fat n limit old cs s data t data') (h : Orphan fat old cs bytes₀ data s) :
    Orphan fat old cs bytes₀ data' t := by
  induction run with
  | refl => exact h
  | step _ meets done ih => exact Machine.Ends.ok (a := ()) (ih.step meets) done

/-- What is to hold of a file that was removed in a state and is still open. -/
structure KeptOpen (fat : Geometry) (n old : Nat) (cs : List Nat) (data : List UInt8)
    (s t : Shared (Ecache Mounted)) : Prop where
  /-- To a process with no `char_count`. -/
  reads : ∀ me p (off count : UInt32), ¬0 < p.char_count → ∃ u,
    Prog.run me (readEntry fat p old off.toNat count.toNat) t =
      .ok (((lowInt (portion data off.toNat count.toNat).length,
        portion data off.toNat count.toNat), p), u)
  unshared : ∀ e, e ≠ old → (t.state.ent e).valid ≠ 0 → ∀ c,
    fat.Reachable t.state.disk.bytes (t.state.ent e).first_clus c → c ∉ cs
  linked : ∀ c ∈ cs, fat.entry t.state.disk.bytes c = fat.entry s.state.disk.bytes c ∧
    fat.entry s.state.disk.bytes c ≠ 0
  /-- The last close frees the chain, and no other cluster. -/
  freed : (t.state.ent old).ref = 1 → ∀ me, ∃ u,
    Prog.run me (do
      let _ ← eputFirst old
      eputWrite (fatDisk fat n) old) t = .ok ((), u) ∧
      fat.Cleared t.state.disk.bytes u.state.disk.bytes (· ∈ cs)
  /-- What is left to close leaves them free, and the entry without clusters. -/
  closed : (t.state.ent old).ref = 1 → CleanAbove t old → ∀ me limit u,
    Prog.run me (eput (fatDisk fat n) limit old) t = .ok ((), u) →
      (∀ c ∈ cs, fat.entry u.state.disk.bytes c = 0) ∧ (u.state.ent old).first_clus = 0 ∧
        (u.state.ent old).valid = -1 ∧ (u.state.ent old).ref = 0

theorem linked_of_contents {d : Fat.Disk} {e : Fat.Dirent} (h : Fat.Contents fat cs data d e) :
    ∀ c ∈ cs, fat.entry d c ≠ 0 := by
  intro c mem
  rcases h.chain with regular | ⟨rfl, -⟩
  · exact regular.clusters.entry_ne_zero mem
  · exact absurd mem List.not_mem_nil

theorem Orphan.keptOpen (h : Orphan fat old cs s.state.disk.bytes data t)
    (used : ∀ c ∈ cs, fat.entry s.state.disk.bytes c ≠ 0) (enough : fat.data_clus_cnt + 2 ≤ n) :
    KeptOpen fat n old cs data s t where
  reads me p off count idle := by
    have read : Surely me (Fs.readEntry fat p old off.toNat count.toNat) t _ :=
      h.alone.readEntry (UInt32.toNat_lt count) p
    obtain ⟨r, u, run, same, -⟩ := read.returns
    exact ⟨u, same idle ▸ run⟩
  unshared e ne valid c reach :=
    h.alone.apart.spared.unreached (h.alone.apart.elsewhere e ne valid).1 reach
  linked c mem := ⟨h.linked c mem, used c mem⟩
  freed last me := by
    have given : Surely me _ t _ := h.alone.last h.removed last enough
    obtain ⟨_, u, run, cleared, -⟩ := given.returns
    exact ⟨u, run, cleared⟩
  closed last above me limit u run := by
    obtain ⟨back, valid, ref⟩ := (h.alone.closeLast h.removed last enough above).ok run
    exact ⟨back.free, back.first, valid, ref⟩

/-- A file that is removed while it is open stays as it is for those who have it open, in
every run in which no free entry leads to its clusters where something is allocated, until
it is closed for the last time. -/
theorem removed_keptOpen {r : Int} (alone : Alone fat old cs data s) (valid : (s.state.ent old).valid = 1)
    (shared : 1 < (s.state.ent old).ref)
    (inside : ∀ p, Up s old p → InDirectory fat s.state.disk.bytes (direntAt s p) (direntAt s old))
    (enough : fat.data_clus_cnt + 2 ≤ n)
    (gone : Prog.run me (removeEntry (fatDisk fat n) limit old) s = .ok (r, t))
    (run : Run fat n limit old cs t data u data') : KeptOpen fat n old cs data' s u := by
  obtain ⟨alone', removed, -, linked⟩ := (alone.remove valid shared inside).ok gone
  exact (run.orphan ⟨alone', removed, linked⟩).keptOpen (linked_of_contents alone.contents) enough

/-! ### A small volume -/

open Fat (smallVolume smallDisk)

/-- The root, a directory in cluster 3, and a file of one byte in cluster 6 that is open
and looked up. -/
def holdingOne : Nat → Dirent
  | 0 =>
    { filename := [47], attr := Fat.ATTR_DIRECTORY, first_clus := 2, file_size := 0, dirty := false,
      valid := 1, ref := 2, off := 0, parent := none }
  | 1 =>
    { filename := [100], attr := Fat.ATTR_DIRECTORY, first_clus := 3, file_size := 0, dirty := false,
      valid := 1, ref := 2, off := 64, parent := some 0 }
  | 2 =>
    { filename := [102], attr := Fat.ATTR_ARCHIVE, first_clus := 6, file_size := 1, dirty := false,
      valid := 1, ref := 2, off := 64, parent := some 1 }
  | _ =>
    { filename := [], attr := 0, first_clus := 0, file_size := 0, dirty := false,
      valid := 0, ref := 0, off := 0, parent := none }

def mountedOne (bytes : Fat.Disk) : Mounted := ⟨bytes, fun e => (holdingOne e).first_clus, fun _ => 0⟩

/-- The volume with the directory's slots. -/
def slotsOne (bytes : Fat.Disk) : Fat.Disk :=
  let dirent (e : Nat) := (mountedOne bytes).dirent e (holdingOne e)
  match (do
    let dp ← Fat.emake smallVolume (dirent 1) (dirent 1) 0
    let dp ← Fat.emake smallVolume dp (dirent 0) 32
    Fat.emake smallVolume dp (dirent 2) 64) bytes with
  | .ok (_, bytes) => bytes
  | .error _ => bytes

def openOne (bytes : Fat.Disk) : Shared (Ecache Mounted) where
  state := { ent := holdingOne, order := [1, 2, 3], disk := mountedOne (slotsOne bytes) }
  holder := fun _ => none
  stray := 0

/-- The state that a program leaves. -/
def leaving {α : Type} (x : Cache Mounted α) (s : Shared (Ecache Mounted)) : Shared (Ecache Mounted) :=
  match Prog.run 0 x s with
  | .ok (_, t) => t
  | .error _ => s

theorem leaving_ok {α : Type} {x : Cache Mounted α} {a : α}
    (h : (Prog.run 0 x s).toOption.map Prod.fst = some a) : Prog.run 0 x s = .ok (a, leaving x s) := by
  obtain ⟨t, run⟩ := Machine.ok_of_value h
  rw [leaving, run]

/-- The directories are of one cluster each. -/
def oneDisk : Fat.Disk :=
  (smallDisk.store (smallVolume.entryAt 2) 4 Fat.FAT32_EOF).store (smallVolume.entryAt 3) 4 Fat.FAT32_EOF

/-- The same with cluster 4 in use. -/
def fullerDisk : Fat.Disk := oneDisk.store (smallVolume.entryAt 4) 4 Fat.FAT32_EOF

theorem openOne_alone {bytes : Fat.Disk}
    (ends : smallVolume.next (slotsOne bytes) 6 = none)
    (holds : slotsOne bytes (smallVolume.clusterAt 6) = 65)
    (others : ∀ c < 9, c ∉ [6] → smallVolume.entry (slotsOne bytes) c ∉ [6]) :
    Alone smallVolume 2 [6] [65] (openOne bytes) := by
  have file : (direntAt (openOne bytes) 2).isDir = false :=
    show decide (Fat.ATTR_ARCHIVE &&& Fat.ATTR_DIRECTORY ≠ 0) = false by decide
  have regular : Fat.Regular smallVolume (slotsOne bytes) [6] (direntAt (openOne bytes) 2) := by
    constructor
    · exact ⟨ends, by decide⟩
    · exact ⟨rfl, rfl⟩
    · exact file
    · exact (by decide : 1 ≤ 512)
    · exact (by decide : 1 < 2 ^ 32)
  have contents : Fat.Contents smallVolume [6] [65] (slotsOne bytes) (direntAt (openOne bytes) 2) := by
    refine ⟨.inl regular, file, rfl, ?_⟩
    rintro _ (_ | ⟨_, ⟨⟩⟩)
    exact holds
  refine ⟨by decide, (by decide : (0 : Int) < 2), rfl, (by decide : Ordinary [102]), contents,
    rfl, rfl, rfl, rfl, ⟨by decide, ?_, fun _ _ => rfl, fun _ _ _ _ => rfl⟩, ?_, ?_⟩
  · exact fun c range => others c (Nat.lt_succ_of_le range.2)
  · intro e ne valid
    match e with
    | 0 => exact ⟨(by decide : 2 ∉ [6]), (by decide : 2 ∉ [6])⟩
    | 1 => exact ⟨(by decide : 3 ∉ [6]), (by decide : 3 ∉ [6])⟩
    | 2 => exact absurd rfl ne
    | _ + 3 => exact absurd rfl valid
  · intro e
    match e with
    | 0 => nofun
    | 1 => exact (by decide : some 0 ≠ some 2)
    | 2 => exact (by decide : some 1 ≠ some 2)
    | _ + 3 => nofun

def goneOne : Shared (Ecache Mounted) := leaving (removeEntry (fatDisk smallVolume 9) 2 2) (openOne fullerDisk)

def againOne : Shared (Ecache Mounted) := leaving ((Op.create 1 [102] 0).call smallVolume 9 2) goneOne

def writtenOne : Shared (Ecache Mounted) :=
  leaving ((Op.write ⟨false, 0⟩ 2 0 [66]).call smallVolume 9 2) againOne

theorem removed_keptOpen_one : KeptOpen smallVolume 9 2 [6] [66] (openOne fullerDisk) writtenOne := by
  have gone : Prog.run 0 (removeEntry (fatDisk smallVolume 9) 2 2) (openOne fullerDisk) =
      .ok (0, goneOne) := leaving_ok (by decide)
  have again : Prog.run 0 ((Op.create 1 [102] 0).call smallVolume 9 2) goneOne = .ok ((), againOne) :=
    leaving_ok (by decide +kernel)
  have wrote : Prog.run 0 ((Op.write ⟨false, 0⟩ 2 0 [66]).call smallVolume 9 2) againOne =
      .ok ((), writtenOne) := leaving_ok (by decide +kernel)
  have creates : Meets smallVolume 2 [6] [65] goneOne (.create 1 [102] 0) := by
    refine ⟨?_, fun _ => ?_, ?_⟩
    · rintro name' legal rfl
      exact absurd legal (by decide)
    · let slots := Fat.slotsOf smallVolume goneOne.state.disk.bytes [3]
      refine ⟨[3], [.file [] (slots.getD 0 []), .file [] (slots.getD 1 []), .deleted (slots.getD 2 []),
        .deleted (slots.getD 3 [])], slots.drop 4, ⟨⟨?_, ?_⟩, ⟨?_, ?_⟩, ?_, ?_, ?_⟩, ⟨?_, ?_, ?_⟩, ?_⟩
      · show smallVolume.next _ 3 = none
        decide
      all_goals decide +kernel
    · show ∀ k < 128, smallVolume.entry goneOne.state.disk.bytes k = 0 → k ∉ [6] ∧ u32 (k + 2) ∉ [6]
      decide +kernel
  have writes : Meets smallVolume 2 [6] [65] againOne (.write ⟨false, 0⟩ 2 0 [66]) :=
    fun _ _ => ⟨by decide, by decide⟩
  have run := (Run.refl.step creates again).step writes wrote
  have data : (Op.write ⟨false, 0⟩ 2 0 [66]).leaves 2 (againOne.state.ent 2).attr
      ((Op.create 1 [102] 0).leaves 2 (goneOne.state.ent 2).attr [65]) = [66] := by
    decide +kernel
  rw [data] at run
  have alone : Alone smallVolume 2 [6] [65] (openOne fullerDisk) := by
    apply openOne_alone
    · decide
    · decide
    · decide
  refine removed_keptOpen alone rfl (by decide) ?_ (by decide) gone run
  rintro p up
  cases show some 1 = some p from up
  refine ⟨[3], 2, ⟨⟨?_, ?_⟩, ⟨?_, ?_⟩, ?_, ?_, ?_⟩, ?_, ?_⟩
  · show smallVolume.next _ 3 = none
    decide
  all_goals decide

/-- The file is removed, made again and written to: the new file is given the cluster of the
old one, and what is written to it is read from the old one. -/
theorem removed_shares :
    let s := openOne oneDisk
    Alone smallVolume 2 [6] [65] s ∧
    (Prog.run 0 (readEntry smallVolume ⟨false, 0⟩ 2 0 1) s).toOption.map (fun r => r.1.1) = some (1, [65]) ∧
    ∃ s₁ s₂ s₃ u, Prog.run 0 (removeEntry (fatDisk smallVolume 9) 2 2) s = .ok (0, s₁) ∧
      Prog.run 0 (createEntry (fatDisk smallVolume 9) 2 1 [102] 0) s₁ = .ok (some 3, s₂) ∧
      Prog.run 0 (writeEntry smallVolume ⟨false, 0⟩ 3 0 [66]) s₂ = .ok ((1, ⟨false, 0⟩), s₃) ∧
      (s₃.state.ent 3).first_clus = 6 ∧
      Prog.run 0 (readEntry smallVolume ⟨false, 0⟩ 2 0 1) s₃ = .ok (((1, [66]), ⟨false, 0⟩), u) ∧
      ¬KeptOpen smallVolume 9 2 [6] [65] s s₃ := by
  refine ⟨?_, by decide, _, _, _, _, leaving_ok ?_, leaving_ok ?_, leaving_ok ?_, ?_, leaving_ok ?_, ?_⟩
  · apply openOne_alone
    · decide
    · decide
    · decide
  · decide
  · decide +kernel
  · decide +kernel
  · decide +kernel
  · decide +kernel
  · intro kept
    obtain ⟨u, run⟩ := kept.reads 0 ⟨false, 0⟩ 0 1 (by decide)
    refine absurd (congrArg (fun x => x.toOption.map fun r => r.1.1) run) ?_
    show ¬(_ = some (1, [65]))
    decide +kernel

end AvxKernel.Fs
