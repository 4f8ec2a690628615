import AvxKernel.Fat.Split

/-! The law of the cursor: `reloc_clus` finds every cluster of a chain and gives up
behind its end. Growing the chain is where it goes wrong, since the allocator hands out
another cluster than the free one that it has marked. -/
namespace AvxKernel.Fat

variable {fat : Geometry} {d d' : Disk} {cs new : List Nat} {e e' : Dirent} {c off more : Nat}

/-- The clusters whose entries are free. -/
def Geometry.freeClusters (fat : Geometry) (d : Disk) : List Nat :=
  (List.range (fat.data_clus_cnt + 2)).filter fun c => 2 ≤ c ∧ fat.entry d c = 0

/-- The number of clusters that a chain lacks to reach an offset. -/
def Geometry.missing (fat : Geometry) (cs : List Nat) (off : Nat) : Nat :=
  off / fat.byts_per_clus + 1 - cs.length

/-- The chain has grown by the clusters that it lacked, which were free, and the cursor
is at the offset. -/
structure Grown (fat : Geometry) (d : Disk) (cs : List Nat) (off : Nat) (new : List Nat) (e' : Dirent)
    (d' : Disk) : Prop where
  count : new.length = fat.missing cs off
  free : ∀ c ∈ new, c ∈ fat.freeClusters d
  clusters : Clusters fat d' (cs ++ new)
  cursor : Cursor e' (cs ++ new)
  place : e'.clus_cnt = off / fat.byts_per_clus

/-- What `reloc_clus` is for, from a cursor on the chain. -/
structure CursorLaw (fat : Geometry) (d : Disk) (cs : List Nat) (e : Dirent) (off : Nat) : Prop where
  inside : off / fat.byts_per_clus < cs.length →
    ∃ e', reloc_clus fat e off false d = .ok ((some (off % fat.byts_per_clus), e'), d) ∧
      Cursor e' cs ∧ e'.clus_cnt = off / fat.byts_per_clus
  outside : cs.length ≤ off / fat.byts_per_clus →
    ∃ e', reloc_clus fat e off false d = .ok ((none, e'), d) ∧ Cursor e' cs ∧ e'.clus_cnt = 0
  grows : fat.missing cs off ≤ (fat.freeClusters d).length →
    ∃ new e' d', reloc_clus fat e off true d = .ok ((some (off % fat.byts_per_clus), e'), d') ∧
      Grown fat d cs off new e' d'

theorem mem_freeClusters : c ∈ fat.freeClusters d ↔ fat.InRange c ∧ fat.entry d c = 0 := by
  rw [Geometry.freeClusters, List.mem_filter, List.mem_range, decide_eq_true_iff, Geometry.InRange]
  omega

/-! ### Within the chain -/

theorem reloc_clus_finds (h : Clusters fat d cs) (cursor : Cursor e cs) (alloc : Bool)
    (inside : off / fat.byts_per_clus < cs.length) :
    ∃ e', reloc_clus fat e off alloc d = .ok ((some (off % fat.byts_per_clus), e'), d) ∧
      Cursor e' cs ∧ e'.clus_cnt = off / fat.byts_per_clus :=
  ⟨_, reloc_clus_inside h cursor alloc ((Nat.div_lt_iff_lt_mul Geometry.byts_per_clus_pos).mp inside),
    cursor.seek inside, rfl⟩

theorem reloc_clus_gives_up (h : Clusters fat d cs) (cursor : Cursor e cs)
    (out : cs.length ≤ off / fat.byts_per_clus) :
    ∃ e', reloc_clus fat e off false d = .ok ((none, e'), d) ∧ Cursor e' cs ∧ e'.clus_cnt = 0 :=
  ⟨_, reloc_clus_outside h cursor ((Nat.le_div_iff_mul_le Geometry.byts_per_clus_pos).mp out),
    cursor.rewind, rfl⟩

theorem grown_inside (h : Clusters fat d cs) (cursor : Cursor e cs)
    (inside : off / fat.byts_per_clus < cs.length) :
    ∃ new e' d', reloc_clus fat e off true d = .ok ((some (off % fat.byts_per_clus), e'), d') ∧
      Grown fat d cs off new e' d' := by
  obtain ⟨e', run, cursor', place⟩ := reloc_clus_finds h cursor true inside
  have none : fat.missing cs off = 0 := Nat.sub_eq_zero_of_le inside
  refine ⟨[], e', d, run, ?_⟩
  constructor
  · exact none.symm
  · exact List.forall_mem_nil _
  · rwa [List.append_nil]
  · rwa [List.append_nil]
  · exact place

/-! ### Behind its end -/

/-- A loop that comes to a cluster whose entry is free goes no further than the next. -/
theorem relocForward_lost (range : fat.InRange e.cur_clus) (free : fat.entry d e.cur_clus = 0) :
    Leaves (relocForward fat true more e) d fun _ t => t = d := by
  cases more with
  | zero => exact Machine.Ends.pure rfl
  | succ more =>
    have read : read_fat fat e.cur_clus d = .ok (0, d) := by
      rw [read_fat_run range]
      exact congrArg (fun v => Except.ok (v, d)) free
    have goes : relocForward fat true (more + 1) e d = relocForward fat true more (e.advance 0) d := by
      rw [relocForward, Machine.bind_of_ok read, if_neg (by decide), if_neg (by decide)]
    apply Machine.Ends.of_run goes
    cases more with
    | zero => exact Machine.Ends.pure rfl
    | succ more =>
      -- no entry is read for number 0
      have stops : read_fat fat 0 d = .error (.panic "cluster number error when read FAT ") := rfl
      exact Machine.Ends.of_error (Machine.bind_of_error stops) trivial

/-- Entries that lead on are the same. -/
def SameLinks (fat : Geometry) (d d' : Disk) : Prop :=
  ∀ k, fat.InRange k → fat.entry d k ≠ 0 → ¬isEnd (fat.entry d k) → fat.entry d' k = fat.entry d k

theorem SameUsed.links (h : SameUsed fat d d') : SameLinks fat d d' := fun k range used _ => h k range used

theorem SameLinks.trans {d'' : Disk} (h : SameLinks fat d d') (h' : SameLinks fat d' d'') :
    SameLinks fat d d'' := by
  intro k range used goes
  have first := h k range used goes
  rw [← first] at used goes ⊢
  exact h' k range used goes

/-- A link is written over the mark of an end. -/
theorem SameLinks.link {k v : Nat} (h : SameUsed fat d d') (stop : isEnd (fat.entry d k)) :
    SameLinks fat d (d'.store (fat.entryAt k) 4 v) := by
  intro k' range used goes
  have other : k' ≠ k := fun eq => goes (eq ▸ stop)
  rw [entry_store_other d' other]
  exact h k' range used

/-- The first loop changes no entry that leads on. -/
theorem relocForward_links (more : Nat) (e : Dirent) (d : Disk) :
    Leaves (relocForward fat true more e) d fun _ t => SameLinks fat d t := by
  induction more generalizing d e with
  | zero => exact Machine.Ends.pure fun _ _ _ _ => rfl
  | succ more ih =>
    rw [relocForward]
    apply Machine.Ends.bind (R := fun v t => d = t ∧ (fat.InRange e.cur_clus → v = fat.entry d e.cur_clus))
    · by_cases range : fat.InRange e.cur_clus
      · exact Machine.Ends.of_ok (read_fat_run range) ⟨rfl, fun _ => rfl⟩
      · exact (read_fat_outside range).mono fun _ _ post => ⟨post.1, fun inside => absurd inside range⟩
    rintro v _ ⟨rfl, read⟩
    apply Machine.Ends.ite
    · intro stop
      rw [if_pos rfl]
      apply Machine.Ends.bind alloc_clus_ends
      rintro c t ⟨-, same⟩
      apply Machine.Ends.bind (R := fun _ u => SameLinks fat d u)
      · exact write_fat_ends c fun range => SameLinks.link same (read range ▸ stop)
      · exact fun _ u linked => (ih (e.advance c) u).mono fun _ _ rest => linked.trans rest
    · intro _
      apply Machine.Ends.ite
      · exact fun _ => Machine.Ends.halt trivial
      · exact fun _ => ih (e.advance v) d

/-- The cluster that is linked behind the last does not end a chain: its entry, if it
was free, still is. -/
theorem relocForward_breaks (h : Clusters fat d cs) {i : Nat} (inside : i < cs.length)
    (last : i + 1 = cs.length) :
    Leaves (relocForward fat true (more + 1) (e.seek cs i)) d fun _ t =>
      ∃ c, fat.InRange c ∧ fat.entry t cs[i] = c ∧ (fat.entry d c = 0 → fat.entry t c = 0) := by
  have range := h.range cs[i] (List.getElem_mem _)
  obtain ⟨mark, read, stop⟩ := h.read_last last
  have value : fat.entry d cs[i] = mark := by
    rw [read_fat_run range, Except.ok.injEq, Prod.mk.injEq] at read
    exact read.1
  rw [relocForward, e.seek_cur (by omega)]
  apply Machine.Ends.of_run (Machine.bind_of_ok read)
  rw [if_pos stop, if_pos rfl]
  apply Machine.Ends.bind alloc_clus_table
  rintro c t ⟨marked, k, -, apart, same⟩
  apply Machine.Ends.of_run (Machine.bind_of_ok (write_fat_run range c))
  -- the link that has just been written
  have link : fat.entry (t.store (fat.entryAt cs[i]) 4 c) cs[i] = c :=
    Memory.fetch_store_same _ (marked.lt.trans (by decide))
  by_cases free : fat.entry d c = 0
  · have other : c ≠ cs[i] := by
      intro eq
      rw [← eq, free] at value
      exact absurd (value ▸ stop) (by decide)
    have still : fat.entry (t.store (fat.entryAt cs[i]) 4 c) c = 0 := by
      rw [entry_store_other t other, same c marked apart]
      exact free
    have lost : Leaves (relocForward fat true more ((e.seek cs i).advance c))
        (t.store (fat.entryAt cs[i]) 4 c) fun _ u => u = t.store (fat.entryAt cs[i]) 4 c :=
      relocForward_lost (e := (e.seek cs i).advance c) marked still
    apply lost.mono
    rintro _ _ rfl
    exact ⟨c, marked, link, fun _ => still⟩
  · have goes : ¬isEnd (fat.entry (t.store (fat.entryAt cs[i]) 4 c) cs[i]) := link.symm ▸ InRange.not_end marked
    have used : fat.entry (t.store (fat.entryAt cs[i]) 4 c) cs[i] ≠ 0 := by
      rw [link]
      exact Nat.ne_of_gt (Nat.lt_of_lt_of_le (by decide) marked.1)
    apply (relocForward_links more ((e.seek cs i).advance c) _).mono
    intro _ u links
    exact ⟨c, marked, (links cs[i] range used goes).trans link, fun zero => absurd zero free⟩

theorem reloc_clus_breaks (h : Clusters fat d cs) (cursor : Cursor e cs) {i : Nat} (inside : i < cs.length)
    (last : i + 1 = cs.length) (out : cs.length ≤ off / fat.byts_per_clus) :
    Leaves (reloc_clus fat e off true) d fun _ t =>
      ∃ c, fat.InRange c ∧ fat.entry t cs[i] = c ∧ (fat.entry d c = 0 → fat.entry t c = 0) := by
  have lt := cursor.lt
  obtain ⟨along, rfl⟩ := Nat.exists_eq_add_of_le (show e.clus_cnt ≤ i by omega)
  obtain ⟨more, count⟩ := Nat.exists_eq_add_of_lt (show e.clus_cnt + along < off / fat.byts_per_clus by omega)
  have ahead : off / fat.byts_per_clus - e.clus_cnt = along + (more + 1) := by omega
  have forward := @relocForward_along fat d cs e h true along e.clus_cnt (more + 1) (by omega)
  rw [cursor.seek_self] at forward
  have breaks := Machine.Ends.of_run forward (relocForward_breaks h inside last)
  rw [reloc_clus, ahead]
  apply Machine.Ends.bind breaks.with_run
  rintro ⟨there, e₁⟩ t ⟨broken, run⟩
  obtain ⟨rfl, -, arrived⟩ := (relocForward_count _).ok run
  change e₁.clus_cnt = _ at arrived
  dsimp only
  rw [if_neg (by decide), if_neg (show ¬off / fat.byts_per_clus < e₁.clus_cnt by omega)]
  exact Machine.Ends.pure broken

/-- Growing ends on a broken chain, if it ends. -/
theorem not_grown (h : Clusters fat d cs) (cursor : Cursor e cs) (out : cs.length ≤ off / fat.byts_per_clus)
    {r : Option Nat} (run : reloc_clus fat e off true d = .ok ((r, e'), d')) :
    ¬Grown fat d cs off new e' d' := by
  intro grown
  obtain ⟨i, last⟩ := Nat.exists_eq_add_of_lt cursor.lt
  obtain ⟨c, range, link, still⟩ := (reloc_clus_breaks h cursor (by omega) last.symm out).ok run
  obtain ⟨b, rest, rfl⟩ : ∃ b rest, new = b :: rest := by
    cases new with
    | nil =>
      have count := grown.count
      rw [Geometry.missing, List.length_nil] at count
      omega
    | cons b rest => exact ⟨b, rest, rfl⟩
  have chain := grown.clusters.chain
  -- the first of the new clusters is the one that is linked behind the last
  have next := chain.next_getElem (show e.clus_cnt + i + 1 < (cs ++ b :: rest).length by
    rw [List.length_append, List.length_cons]
    omega)
  have first : b = c := by
    rw [List.getElem_append_left (by omega), List.getElem_append_right (by omega)] at next
    simp only [← last, Nat.sub_self, List.getElem_cons_zero] at next
    rw [Geometry.entry] at link
    rw [Geometry.next, link, if_neg (InRange.not_end range)] at next
    exact (Option.some.inj next).symm
  subst first
  have free := (mem_freeClusters.mp (grown.free b List.mem_cons_self)).2
  have ends : fat.next d' b = some 0 := by
    have zero := still free
    rw [Geometry.entry] at zero
    rw [Geometry.next, zero]
    rfl
  have tail := Chain.of_append chain
  cases rest with
  | nil => exact absurd (tail.symm.trans ends) (Option.some_ne_none _).symm
  | cons x rest =>
    have number : x = 0 := Option.some.inj (tail.1.symm.trans ends)
    have low := (grown.clusters.range x (List.mem_append_right _ (by simp))).1
    omega

/-- The law of the cursor holds exactly where the chain reaches the offset, or where
there are fewer free clusters than it lacks. -/
theorem cursor_law_iff (h : Clusters fat d cs) (cursor : Cursor e cs) (off : Nat) :
    CursorLaw fat d cs e off ↔
      off / fat.byts_per_clus < cs.length ∨ (fat.freeClusters d).length < fat.missing cs off := by
  constructor
  · intro law
    by_contra fails
    rw [not_or, Nat.not_lt, Nat.not_lt] at fails
    obtain ⟨new, e', d', run, grown⟩ := law.grows fails.2
    exact not_grown h cursor fails.1 run grown
  · intro holds
    constructor
    · exact reloc_clus_finds h cursor false
    · exact reloc_clus_gives_up h cursor
    · intro enough
      rcases holds with inside | few
      · exact grown_inside h cursor inside
      · exact absurd enough (Nat.not_le_of_lt few)

/-- The clusters 5, 7 and 3 hold a file. -/
def chainDisk : Disk :=
  ((Memory.store (fun _ => 0) (smallVolume.entryAt 5) 4 7).store
    (smallVolume.entryAt 7) 4 3).store (smallVolume.entryAt 3) 4 FAT32_EOF

/-- Its cursor is on the second of them. -/
def chainFile : Dirent where
  filename := fun _ => 0
  attr := 0
  first_clus := 5
  file_size := 1200
  cur_clus := 7
  clus_cnt := 1
  dirty := false
  valid := 1
  off := 0

/-- On to the third cluster, back to the first, and behind the last. -/
theorem cursor_law_chain : CursorLaw smallVolume chainDisk [5, 7, 3] chainFile 1100 ∧
    CursorLaw smallVolume chainDisk [5, 7, 3] chainFile 5 ∧
    ∃ e, reloc_clus smallVolume chainFile 1100 false chainDisk = .ok ((some 76, e), chainDisk) ∧
      Cursor e [5, 7, 3] ∧ e.clus_cnt = 2 := by
  have clusters : Clusters smallVolume chainDisk [5, 7, 3] :=
    ⟨⟨by decide, by decide, show Geometry.next _ _ _ = none by decide⟩, by decide⟩
  have cursor : Cursor chainFile [5, 7, 3] := ⟨rfl, rfl⟩
  have forward := (cursor_law_iff clusters cursor 1100).mpr (.inl (by decide))
  have back := (cursor_law_iff clusters cursor 5).mpr (.inl (by decide))
  exact ⟨forward, back, forward.inside (by decide)⟩

/-- A file of the one cluster 6. -/
def smallFile : Dirent where
  filename := fun _ => 0
  attr := 0
  first_clus := 6
  file_size := 1
  cur_clus := 6
  clus_cnt := 0
  dirty := false
  valid := 1
  off := 0

theorem smallFile_clusters : Clusters smallVolume smallDisk [6] where
  chain := by
    show Geometry.next _ _ _ = none
    decide
  range := by decide

theorem smallFile_cursor : Cursor smallFile [6] := ⟨rfl, rfl⟩

/-- Two clusters are free, and the file cannot have its second. -/
theorem cursor_law_fails : ¬CursorLaw smallVolume smallDisk [6] smallFile 512 := by
  intro law
  obtain ⟨new, e', d', run, grown⟩ := law.grows (by decide)
  exact not_grown smallFile_clusters smallFile_cursor (by decide) run grown

end AvxKernel.Fat
