import AvxKernel.Exec.Alloc
import AvxKernel.Exec.Load

/-! `mmap` on a whole address space. -/
namespace AvxKernel.Exec

open Vm

variable {s t u : Ram} {p : Proc} {node node' : Nodes} {m : PageMap} {limit page v w n a : Nat}
  {free free' nodes nodes' frames : List Nat}

/-! ### `alloc_mmap_vma` -/

/-- The file of an area, and the offset in it. -/
def setFile (mem : Memory) (vma : Nat) (fd : Int) (f_off : Nat) : Memory :=
  (mem.store (vma + 36) 4 (intBits fd)).store (vma + 40) 8 f_off

/-- Where a request goes: one for address 0 below the first area that `mmap` made. -/
def placedAddr (mem : Memory) (nodes : List Nat) (addr sz : Nat) : Nat :=
  if addr = 0 ∧ sz < areaAddr mem (firstMmap mem nodes) then
    PGROUNDDOWN (areaAddr mem (firstMmap mem nodes) - sz)
  else addr

theorem placedAddr_aligned {mem : Memory} {start len : Nat} (aligned : PGSIZE ∣ start) :
    PGSIZE ∣ placedAddr mem nodes start len := by
  rw [placedAddr]
  split
  · exact Nat.dvd_mul_left _ _
  · exact aligned

section SetFile

variable {mem : Memory} {fd : Int} {f_off : Nat}

theorem setFile_outside {i : Nat} (out : i < a ∨ a + PGSIZE ≤ i) :
    setFile mem a fd f_off i = mem i := by
  have page : 64 ≤ PGSIZE := by decide
  rw [setFile, Memory.store_outside _ (by omega), Memory.store_outside _ (by omega)]

/-- The fields of a node that say where the area is are not among them. -/
theorem fetch_setFile {x : Nat} (ha : Frame a) (hx : Frame x) {i k : Nat} (hi : i + k ≤ PGSIZE)
    (apart : i + k ≤ 36 ∨ 48 ≤ i) : (setFile mem a fd f_off).fetch (x + i) k = mem.fetch (x + i) k := by
  have page : 64 ≤ PGSIZE := by decide
  rw [setFile, fetch_store_field hx ha hi (by omega) (.inr (by omega)),
    fetch_store_field hx ha hi (by omega) (.inr (by omega))]

theorem setFile_run (ha : Frame a) {α : Type} (k : Machine Ram α) :
    (do
      poke (a + 36) 4 (intBits fd)
      poke (a + 40) 8 f_off
      k : Machine Ram α) s = k (s.setMem (setFile s.mem a fd f_off)) := by
  rw [Machine.bind_of_ok (poke_run ha (by decide)), Machine.bind_of_ok (poke_run ha (by decide))]
  rfl

theorem setFile_within (ha : Frame a) : Within (· = a) s (s.setMem (setFile s.mem a fd f_off)) :=
  .setMem ha fun _ outside => setFile_outside outside

variable (mem fd f_off) in
theorem areas_setFile {x : Nat} (ha : Frame a) (hx : Frame x) :
    areaType (setFile mem a fd f_off) x = areaType mem x ∧
      areaAddr (setFile mem a fd f_off) x = areaAddr mem x ∧
      areaEnd (setFile mem a fd f_off) x = areaEnd mem x := by
  have kind : (setFile mem a fd f_off).fetch (x + 0) 4 = mem.fetch (x + 0) 4 :=
    fetch_setFile ha hx (by decide) (by decide)
  exact ⟨kind, fetch_setFile ha hx (by decide) (by decide), fetch_setFile ha hx (by decide) (by decide)⟩

theorem Listed.setFile {head : Nat} (listed : Listed mem head nodes) (ha : Frame a)
    (frames : ∀ x ∈ head :: nodes, Frame x) : Listed (Exec.setFile mem a fd f_off) head nodes where
  ring := listed.ring.congr
    (fun x hx => fetch_setFile ha (frames x hx) (by decide) (by decide))
    fun x hx => fetch_setFile ha (frames x hx) (by decide) (by decide)
  aligned x hx := by
    obtain ⟨-, addr, stop⟩ := areas_setFile mem fd f_off ha
      (frames x (by simp [hx]))
    rw [addr, stop]
    exact listed.aligned x hx
  sorted := listed.sorted.imp_of_mem fun {x y} hx hy le => by
    rwa [(areas_setFile _ _ _ ha (frames x (by simp [hx]))).2.2,
      (areas_setFile _ _ _ ha (frames y (by simp [hy]))).2.1]

end SetFile

section AllocMmap

variable (space : Space s p node free nodes m) (enough : 2 ^ 20 < limit)
  {addr sz perm f_off : Nat} {fd : Int}
include space

variable (f_off fd) in
theorem Space.setFile (member : a ∈ nodes) :
    Space (s.setMem (Exec.setFile s.mem a fd f_off)) p node free nodes m := by
  have frame := space.node_frame (List.mem_cons_of_mem _ member)
  have own : Within (· ∈ p.vma :: nodes) s (s.setMem (Exec.setFile s.mem a fd f_off)) :=
    (setFile_within frame).mono fun x eq => by simp [eq, member]
  exact {
    pool := space.pool.written own rfl
    maps := space.maps.congr fun x => space.pool.entryAt_written own x
    fresh := space.fresh
    listed := space.listed.setFile frame fun x hx => space.node_frame hx }

omit space in
variable (f_off fd) in
theorem Entered.setFile {type q : Nat}
    (entered : Entered s t p node' free free' nodes nodes' m v w page type q frames) :
    Entered s (t.setMem (Exec.setFile t.mem page fd f_off)) p node' free free' nodes nodes' m v w page
      type q frames := by
  have member := (entered.member page).mpr (.inl rfl)
  have own : Within (· ∈ p.vma :: nodes') t (t.setMem (Exec.setFile t.mem page fd f_off)) :=
    (setFile_within entered.new).mono fun x eq => by simp [eq, member]
  have frame (x : Nat) (hx : x ∈ p.vma :: nodes') : Frame x :=
    (entered.pool.usable x (List.mem_append_right _ hx)).frame
  have fields (x : Nat) (hx : x ∈ nodes') := areas_setFile t.mem fd f_off
    entered.new (frame x (by simp [hx]))
  have source (f : Nat) (hf : f ∈ frames) : Frame f := by
    obtain ⟨i, hi, rfl⟩ := List.getElem_of_mem hf
    have here : m.fill v frames (fun _ => q) (v + i) = some (frames[i], q) := by
      rw [PageMap.fill, if_pos (by omega), Nat.add_sub_cancel_left, List.getD_eq_getElem _ _ hi]
    exact (entered.maps.frames here).1
  have old (x : Nat) (hx : x ∈ nodes) := fields x ((entered.member x).mpr (.inr hx))
  exact {
    pool := entered.pool.written own rfl
    maps := entered.maps.congr fun x => entered.pool.entryAt_written own x
    fresh := entered.fresh
    listed := fun range => (entered.listed range).setFile entered.new frame
    member := entered.member
    new := entered.new
    type := (fields page member).1.trans entered.type
    addr := (fields page member).2.1.trans entered.addr
    stop := (fields page member).2.2.trans entered.stop
    others := fun x hx => ⟨(old x hx).1.trans (entered.others x hx).1,
      (old x hx).2.1.trans (entered.others x hx).2.1, (old x hx).2.2.trans (entered.others x hx).2.2⟩
    clear := entered.clear
    nodup := entered.nodup
    zero := fun f hf j hj => by
      rw [← entered.zero f hf j hj]
      exact own.kept f (source f hf) (entered.apart f hf) j hj
    source := entered.source
    apart := entered.apart }

theorem Space.alloc_mmap_vma_run (first : addr = 0 → firstMmap s.mem nodes ∈ nodes)
    (enough : 2 ^ 20 < limit) : alloc_mmap_vma limit p addr sz perm fd f_off s =
      (do
        let vma ← alloc_vma limit p MMAP (placedAddr s.mem nodes addr sz) sz perm true 0
        if vma = 0 then
          return 0
        else
          poke (vma + 36) 4 (intBits fd)
          poke (vma + 40) 8 f_off
          return vma : Machine Ram Nat) s := by
  have found := find_mmap_vma_run space.listed (fun x hx => space.node_frame hx) (space.few enough)
  rw [alloc_mmap_vma, Machine.bind_of_ok found]
  by_cases zero : addr = 0
  · have low := vma_addr_run (s := s) (space.node_frame (List.mem_cons_of_mem _ (first zero)))
    simp only [if_pos zero, bind_assoc, Machine.bind_of_ok low, pure_bind]
    by_cases below : sz < areaAddr s.mem (firstMmap s.mem nodes)
    · have placed : placedAddr s.mem nodes addr sz =
          PGROUNDDOWN (areaAddr s.mem (firstMmap s.mem nodes) - sz) := if_pos ⟨zero, below⟩
      simp only [placed, if_pos below]
    · have placed : placedAddr s.mem nodes addr sz = addr := if_neg fun h => below h.2
      simp only [placed, if_neg below]
  · have placed : placedAddr s.mem nodes addr sz = addr := if_neg fun h => zero h.1
    simp only [placed, if_neg zero, pure_bind]

variable (first : addr = 0 → firstMmap s.mem nodes ∈ nodes) (more : 2 ^ 20 < limit)
include first more

variable (perm f_off fd) in
theorem Space.alloc_mmap_inside
    (gives : answer s p node free nodes m (placedAddr s.mem nodes addr sz) sz = .inside a) :
    alloc_mmap_vma limit p addr sz perm fd f_off s =
      .ok (a, s.setMem (Exec.setFile s.mem a fd f_off)) ∧ a ∈ nodes := by
  obtain ⟨run, member⟩ := space.alloc_vma_inside more MMAP perm gives
  have frame := space.node_frame (List.mem_cons_of_mem _ member)
  rw [space.alloc_mmap_vma_run first more, Machine.bind_of_ok run, if_neg (Nat.ne_of_gt frame.pos),
    setFile_run frame]
  exact ⟨rfl, member⟩

variable (flags : perm < 2 ^ 9)
include flags

variable (f_off fd) in
theorem Space.alloc_mmap_refused
    (gives : answer s p node free nodes m (placedAddr s.mem nodes addr sz) sz = .refused) :
    ∃ t node' free', alloc_mmap_vma limit p addr sz perm fd f_off s = .ok (0, t) ∧
      Unmoved s t p node node' free free' nodes m := by
  obtain ⟨t, node', free', run, same⟩ := space.alloc_vma_refused more MMAP flags gives
  refine ⟨t, node', free', ?_, same⟩
  rw [space.alloc_mmap_vma_run first more, Machine.bind_of_ok run, if_pos rfl]
  rfl

variable (f_off fd) in
theorem Space.alloc_mmap_stuck
    (window : firstPage (placedAddr s.mem nodes addr sz) * PGSIZE &&& DMWIN_MASK = 0)
    (gives : answer s p node free nodes m (placedAddr s.mem nodes addr sz) sz = .stuck) :
    ∃ e, alloc_mmap_vma limit p addr sz perm fd f_off s = .error e := by
  obtain ⟨e, run⟩ := space.alloc_vma_stuck more MMAP flags window gives
  rw [space.alloc_mmap_vma_run first more]
  exact ⟨e, Machine.bind_of_error run⟩

variable (f_off fd) in
theorem Space.alloc_mmap_entered (small : placedAddr s.mem nodes addr sz < 2 ^ 64)
    (gives : answer s p node free nodes m (placedAddr s.mem nodes addr sz) sz = .entered) :
    ∃ page t node' free' nodes' frames,
      alloc_mmap_vma limit p addr sz perm fd f_off s = .ok (page, t) ∧
      Entered s t p node' free free' nodes nodes' m (firstPage (placedAddr s.mem nodes addr sz))
        (endPage (placedAddr s.mem nodes addr sz) sz) page MMAP perm frames ∧
      (sz = 0 → frames = [] ∧ node' = node ∧ free = page :: free') ∧
      (sz ≠ 0 → firstPage (placedAddr s.mem nodes addr sz) < endPage (placedAddr s.mem nodes addr sz) sz ∧
        frames.length = endPage (placedAddr s.mem nodes addr sz) sz -
          firstPage (placedAddr s.mem nodes addr sz)) := by
  obtain ⟨page, t, node', free', nodes', frames, run, entered, counts⟩ :=
    space.alloc_vma_entered more flags (by decide : MMAP < 2 ^ 32) small gives
  refine ⟨page, _, node', free', nodes', frames, ?_, entered.setFile f_off fd, counts⟩
  rw [space.alloc_mmap_vma_run first more, Machine.bind_of_ok run,
    if_neg (Nat.ne_of_gt entered.new.pos), setFile_run entered.new]
  rfl

end AllocMmap

/-! ### `mmap` -/

/-- The permissions of an area. -/
def mmapPerm (prot : Nat) : Nat :=
  let perm := PTE_PLV3 ||| PTE_MAT ||| PTE_D ||| PTE_W
  let perm := if prot &&& PROT_WRITE ≠ 0 then perm ||| PTE_W else perm
  if prot &&& PROT_EXEC ≠ 0 then perm ||| PTE_MAT ||| PTE_P else perm

theorem mmapPerm_lt (prot : Nat) : mmapPerm prot < 2 ^ 9 := by
  simp only [mmapPerm]
  split_ifs <;> decide

/-- An address space with an area that `mmap` made, below the end of the table. -/
structure Anchored (s : Ram) (p : Proc) (node : Nodes) (free nodes : List Nat) (m : PageMap) :
    Prop where
  space : Space s p node free nodes m
  anchor : ∃ a ∈ nodes, areaType s.mem a = MMAP ∧ areaAddr s.mem a < MAXVA

section Anchored

variable (anchored : Anchored s p node free nodes m)
include anchored

theorem Anchored.first : firstMmap s.mem nodes ∈ nodes ∧ areaAddr s.mem (firstMmap s.mem nodes) < MAXVA := by
  obtain ⟨a, member, kind, low⟩ := anchored.anchor
  rw [firstMmap]
  cases found : nodes.find? fun vma => areaType s.mem vma = MMAP with
  | none => simpa [kind] using List.find?_eq_none.mp found a member
  | some b =>
    refine ⟨List.mem_of_find?_eq_some found, ?_⟩
    -- the first one found is not above any other
    obtain ⟨-, front, back, rfl, before⟩ := List.find?_eq_some_iff_append.mp found
    rcases List.mem_append.mp member with mem | mem
    · simpa [kind] using before a mem
    · rcases List.mem_cons.mp mem with rfl | mem
      · exact low
      · have sorted := anchored.space.listed.sorted
        have order := (List.pairwise_cons.mp (List.pairwise_append.mp sorted).2.1).1 a mem
        have aligned := (anchored.space.listed.aligned b (by simp)).2.2
        exact lt_of_le_of_lt (aligned.trans order) low

/-- A placed request stays out of the direct window if the given address does. -/
theorem Anchored.placed_window {start len : Nat} (window : start &&& DMWIN_MASK = 0) :
    firstPage (placedAddr s.mem nodes start len) * PGSIZE &&& DMWIN_MASK = 0 := by
  have down : firstPage (placedAddr s.mem nodes start len) * PGSIZE =
      PGROUNDDOWN (placedAddr s.mem nodes start len) := rfl
  rw [down, window_PGROUNDDOWN, placedAddr]
  split
  · rw [window_PGROUNDDOWN]
    exact window_of_lt (lt_of_le_of_lt (Nat.sub_le _ _) anchored.first.2)
  · exact window

theorem Anchored.placed_small {start len : Nat} (small : start < 2 ^ 64) :
    placedAddr s.mem nodes start len < 2 ^ 64 := by
  rw [placedAddr]
  split
  · refine lt_of_le_of_lt (Nat.div_mul_le_self _ _) (lt_of_le_of_lt (Nat.sub_le _ _) ?_)
    exact lt_trans anchored.first.2 (by decide)
  · exact small

end Anchored

section Calls

variable {F : Type} {k k' : Kernel F} {fsys : FileSystem F}

theorem peek_same {w v : Nat} (run : peek a w s = .ok (v, t)) : t = s := by
  rw [peek, Machine.bind_of_ok (Machine.get_run _)] at run
  split at run
  · exact (Prod.mk.inj (Except.ok.inj run)).2.symm
  · cases run

variable {start len prot flags r : Nat} {fd offset : Int}

theorem mmap_run (file : fd = -1 ∨ k.p.ofile fd.toNat ≠ 0) (positive : 0 ≤ offset) :
    mmap limit fsys start len prot flags fd offset k = (do
      let vma ← onRam (alloc_mmap_vma limit k.p start len (mmapPerm prot) fd offset.toNat)
      let start ← (if flags &&& MAP_FIXED = 0 then onRam (vma_addr vma) else return start)
      if vma = 0 then
        return 2 ^ 64 - 1
      else if fd ≠ -1 then
        onFs (fsys.seek (if fd = -1 then 0 else k.p.ofile fd.toNat) offset)
        onFs (fsys.filedup (if fd = -1 then 0 else k.p.ofile fd.toNat))
        return start
      else
        return start : Machine (Kernel F) Nat) k := by
  have given : ¬(fd ≠ -1 ∧ (if fd = -1 then 0 else k.p.ofile fd.toNat) = 0) := by
    rintro ⟨ne, none⟩
    rw [if_neg ne] at none
    exact file.elim ne fun some => some none
  rw [mmap, if_neg (Int.not_lt.mpr positive)]
  have me : (myproc : Machine (Kernel F) Proc) k = .ok (k.p, k) := rfl
  simp only [Machine.bind_of_ok me, if_neg given]
  rfl

/-- Of memory, a call changes what `alloc_mmap_vma` changes. -/
theorem mmap_ram (run : mmap limit fsys start len prot flags fd offset k = .ok (r, k')) :
    k'.p = k.p ∧ (k'.ram = k.ram ∨ ∃ vma,
      alloc_mmap_vma limit k.p start len (mmapPerm prot) fd offset.toNat k.ram = .ok (vma, k'.ram)) := by
  by_cases negative : offset < 0
  · rw [mmap, if_pos negative] at run
    cases run
    exact ⟨rfl, .inl rfl⟩
  by_cases file : fd = -1 ∨ k.p.ofile fd.toNat ≠ 0
  · rw [mmap_run file (Int.not_lt.mp negative)] at run
    obtain ⟨vma, k₁, alloc, rest⟩ := Machine.bind_ok.mp run
    obtain ⟨addr, k₂, read, rest⟩ := Machine.bind_ok.mp rest
    obtain ⟨t, run', rfl⟩ := Machine.zoom_ok.mp alloc
    have same : k₂ = { k with ram := t } := by
      split at read
      · obtain ⟨u, peeked, rfl⟩ := Machine.zoom_ok.mp read
        rw [peek_same peeked]
      · exact (Prod.mk.inj (Except.ok.inj read)).2.symm
    subst same
    split at rest
    · cases rest
      exact ⟨rfl, .inr ⟨vma, run'⟩⟩
    · split at rest
      · obtain ⟨_, k₃, sought, rest⟩ := Machine.bind_ok.mp rest
        obtain ⟨_, k₄, dup, rest⟩ := Machine.bind_ok.mp rest
        obtain ⟨f, -, rfl⟩ := Machine.zoom_ok.mp sought
        obtain ⟨f', -, rfl⟩ := Machine.zoom_ok.mp dup
        cases rest
        exact ⟨rfl, .inr ⟨vma, run'⟩⟩
      · cases rest
        exact ⟨rfl, .inr ⟨vma, run'⟩⟩
  · obtain ⟨ne, none⟩ := not_or.mp file
    have none : k.p.ofile fd.toNat = 0 := not_not.mp none
    rw [mmap, if_neg negative] at run
    have me : (myproc : Machine (Kernel F) Proc) k = .ok (k.p, k) := rfl
    have missing : fd ≠ -1 ∧ (if fd = -1 then 0 else k.p.ofile fd.toNat) = 0 := ⟨ne, by rw [if_neg ne, none]⟩
    simp only [Machine.bind_of_ok me, if_pos missing] at run
    cases run
    exact ⟨rfl, .inl rfl⟩

section Anonymous

/-- What a request without a file returns, from what `alloc_mmap_vma` returns. -/
theorem mmap_anonymous {vma : Nat} (frame : Frame vma)
    (alloc : alloc_mmap_vma limit k.p start len (mmapPerm prot) (-1) 0 k.ram = .ok (vma, t)) :
    mmap limit fsys start len prot flags (-1) 0 k =
      .ok (if flags &&& MAP_FIXED = 0 then areaAddr t.mem vma else start, { k with ram := t }) := by
  have read := onRam_of_ok (k := { k with ram := t }) (vma_addr_run (s := t) frame)
  rw [mmap_run (.inl rfl) (Int.le_refl 0), Int.toNat_zero, Machine.bind_of_ok (onRam_of_ok alloc)]
  split
  · rw [Machine.bind_of_ok read, if_neg (Nat.ne_of_gt frame.pos), if_neg (by decide), Machine.pure_run]
  · rw [pure_bind, if_neg (Nat.ne_of_gt frame.pos), if_neg (by decide), Machine.pure_run]

theorem mmap_anonymous_refused
    (alloc : alloc_mmap_vma limit k.p start len (mmapPerm prot) (-1) 0 k.ram = .ok (0, t)) :
    mmap limit fsys start len prot flags (-1) 0 k =
      if flags &&& MAP_FIXED = 0 then .error .fault else .ok (2 ^ 64 - 1, { k with ram := t }) := by
  rw [mmap_run (.inl rfl) (Int.le_refl 0), Int.toNat_zero, Machine.bind_of_ok (onRam_of_ok alloc)]
  have unmapped : mapped 8 = false := by decide
  split
  · -- the pointer is followed before it is checked
    refine Machine.bind_of_error (onRam_of_error ?_)
    rw [vma_addr, peek, Machine.bind_of_ok (Machine.get_run _)]
    simp only [Nat.zero_add, unmapped, Bool.false_eq_true, if_false, Machine.halt_run]
  · rw [pure_bind, if_pos rfl, Machine.pure_run]

theorem mmap_anonymous_error {e : Halt}
    (alloc : alloc_mmap_vma limit k.p start len (mmapPerm prot) (-1) 0 k.ram = .error e) :
    mmap limit fsys start len prot flags (-1) 0 k = .error e := by
  rw [mmap_run (.inl rfl) (Int.le_refl 0)]
  exact Machine.bind_of_error (onRam_of_error alloc)

end Anonymous

end Calls

end AvxKernel.Exec
