import AvxKernel.Fat.Contents
import AvxKernel.Fat.Deliver

/-! Where a file was read last is nothing to the calls on it: from any cursor that the
table leads to they find the same cluster. -/
namespace AvxKernel.Fat

variable {fat : Geometry} {d d' : Disk} {e e' : Dirent} {c i j off n : Nat} {alloc : Bool}

/-- The cluster that so many steps through the table lead to. -/
def Geometry.nth (fat : Geometry) (d : Disk) (first i : Nat) : Nat := (fat.entry d)^[i] first

theorem nth_succ (first i : Nat) : fat.nth d first (i + 1) = fat.entry d (fat.nth d first i) :=
  Function.iterate_succ_apply' _ _ _

theorem nth_congr {first : Nat} (same : ∀ j < i, fat.entry d' (fat.nth d first j) =
      fat.entry d (fat.nth d first j)) : ∀ j ≤ i, fat.nth d' first j = fat.nth d first j := by
  intro j hj
  induction j with
  | zero => rfl
  | succ j ih => rw [nth_succ, nth_succ, ih (by omega), same j (by omega)]

/-- The first steps stay among the clusters of the volume. -/
def Leads (fat : Geometry) (d : Disk) (first n : Nat) : Prop := ∀ i ≤ n, fat.InRange (fat.nth d first i)

/-- The cursor is where the table leads to from the first cluster. -/
structure Tracked (fat : Geometry) (d : Disk) (e : Dirent) : Prop where
  here : fat.nth d e.first_clus e.clus_cnt = e.cur_clus
  leads : Leads fat d e.first_clus e.clus_cnt

/-- The entry with its cursor after so many steps. -/
def Dirent.walked (fat : Geometry) (d : Disk) (e : Dirent) (i : Nat) : Dirent :=
  { e with cur_clus := fat.nth d e.first_clus i, clus_cnt := i }

theorem Tracked.eq_walked (h : Tracked fat d e) : e.walked fat d e.clus_cnt = e := by
  rw [Dirent.walked, h.here]

theorem Tracked.range (h : Tracked fat d e) : fat.InRange e.cur_clus := by
  rw [← h.here]
  exact h.leads _ (Nat.le_refl _)

theorem Leads.mono (h : Leads fat d c j) (le : i ≤ j) : Leads fat d c i := fun k hk => h k (hk.trans le)

theorem Leads.walked (h : Leads fat d e.first_clus i) : Tracked fat d (e.walked fat d i) := ⟨rfl, h⟩

theorem SameFile.walked (h : SameFile e e') (i : Nat) : e'.walked fat d i = e.walked fat d i := by
  obtain ⟨_, _, rfl⟩ := h
  rfl

theorem SameFile.refl (e : Dirent) : SameFile e e := ⟨_, _, rfl⟩

theorem SameFile.symm (h : SameFile e e') : SameFile e' e := by
  obtain ⟨_, _, rfl⟩ := h
  exact ⟨e.cur_clus, e.clus_cnt, rfl⟩

theorem SameFile.fields (h : SameFile e e') :
    e'.file_size = e.file_size ∧ e'.isDir = e.isDir ∧ e'.attr = e.attr ∧ e'.first_clus = e.first_clus := by
  obtain ⟨_, _, rfl⟩ := h
  exact ⟨rfl, rfl, rfl, rfl⟩

theorem SameFile.trans {e'' : Dirent} (h : SameFile e e') (h' : SameFile e' e'') : SameFile e e'' := by
  obtain ⟨_, _, rfl⟩ := h
  obtain ⟨cur_clus, clus_cnt, rfl⟩ := h'
  exact ⟨cur_clus, clus_cnt, rfl⟩

/-! ### Walks -/

theorem read_fat_step {k : Nat} (h : Leads fat d e.first_clus (k + 1)) :
    read_fat fat (e.walked fat d k).cur_clus d = .ok (fat.nth d e.first_clus (k + 1), d) := by
  rw [nth_succ]
  exact read_fat_run (h k (by omega))

theorem relocFromStart_walks (h : Leads fat d e.first_clus n) (more : Nat) {k : Nat} (eq : k + more = n) :
    relocFromStart fat more (e.walked fat d k) d = .ok (e.walked fat d n, d) := by
  induction more generalizing k with
  | zero =>
    rw [← eq]
    rfl
  | succ more ih =>
    have next : Leads fat d e.first_clus (k + 1) := h.mono (by omega)
    rw [relocFromStart, Machine.bind_of_ok (read_fat_step next),
      if_neg (Nat.not_le.mpr (next (k + 1) (Nat.le_refl _)).lt_EOC)]
    exact ih (by omega)

theorem relocForward_walks {k more rest : Nat} (h : Leads fat d e.first_clus (k + more)) :
    relocForward fat alloc (more + rest) (e.walked fat d k) d =
      relocForward fat alloc rest (e.walked fat d (k + more)) d := by
  induction more generalizing k with
  | zero => rw [Nat.zero_add, Nat.add_zero]
  | succ more ih =>
    have next : Leads fat d e.first_clus (k + 1) := h.mono (by omega)
    have range := next (k + 1) (Nat.le_refl _)
    have inside : ¬isEnd (fat.nth d e.first_clus (k + 1)) := fun stop =>
      absurd range.lt_EOC (Nat.not_lt.mpr stop.1)
    have good : fat.nth d e.first_clus (k + 1) ≠ FAT32_BAD := Nat.ne_of_lt range.lt
    rw [Nat.add_right_comm, relocForward, Machine.bind_of_ok (read_fat_step next), if_neg inside, if_neg good]
    have arrives := @ih (k + 1) (by rwa [Nat.add_right_comm, Nat.add_assoc])
    rw [Nat.add_right_comm k 1 more, Nat.add_assoc k more 1] at arrives
    exact arrives

/-- From a place that is not behind the one asked for, or from any on the way to it. -/
theorem reloc_clus_walked (h : Leads fat d e.first_clus j) (le : i ≤ j) (off : Nat) (alloc : Bool) :
    reloc_clus fat (e.walked fat d i) off alloc d = reloc_clus fat (e.walked fat d j) off alloc d := by
  generalize place : off / fat.byts_per_clus = k
  -- back from behind it, through the start
  have back : ∀ l, k < l → reloc_clus fat (e.walked fat d l) off alloc d = (do
      let entry ← relocFromStart fat k (e.walked fat d 0)
      return (some (off % fat.byts_per_clus), entry)) d := by
    intro l lt
    have none : k - (e.walked fat d l).clus_cnt = 0 := Nat.sub_eq_zero_of_le lt.le
    have behind : k < (e.walked fat d l).clus_cnt := lt
    rw [reloc_clus, place, none, relocForward, pure_bind]
    dsimp only
    rw [if_neg (by decide), if_pos behind]
    rfl
  -- forward to it, or as far as the other place
  have forward : ∀ m, Leads fat d e.first_clus m → i ≤ m → m ≤ k →
      reloc_clus fat (e.walked fat d i) off alloc d = reloc_clus fat (e.walked fat d m) off alloc d := by
    intro m leads low high
    obtain ⟨more, rfl⟩ := Nat.exists_eq_add_of_le low
    have split : k - i = more + (k - (i + more)) := by omega
    rw [reloc_clus, reloc_clus, place]
    apply Machine.bind_congr_run
    change relocForward fat alloc (k - i) (e.walked fat d i) d = _
    rw [split, relocForward_walks leads]
    rfl
  rcases Nat.lt_or_ge k i with before | after
  · rw [back i before, back j (before.trans_le le)]
  · rcases Nat.lt_or_ge k j with between | beyond
    · have stays : reloc_clus fat (e.walked fat d k) off alloc d =
          .ok ((some (off % fat.byts_per_clus), e.walked fat d k), d) := by
        have none : k - (e.walked fat d k).clus_cnt = 0 := Nat.sub_self k
        have here : ¬k < (e.walked fat d k).clus_cnt := Nat.lt_irrefl k
        rw [reloc_clus, place, none, relocForward, pure_bind]
        dsimp only
        rw [if_neg (by decide), if_neg here]
        rfl
      rw [back j between, forward k (h.mono between.le) after (Nat.le_refl k), stays,
        Machine.bind_of_ok (relocFromStart_walks (h.mono between.le) k (Nat.zero_add k))]
      rfl
    · exact forward j h le beyond

/-- From any cursor the same cluster is found, or none. -/
theorem reloc_clus_same (h : Tracked fat d e) (h' : Tracked fat d e') (same : SameFile e e') (off : Nat)
    (alloc : Bool) : reloc_clus fat e off alloc d = reloc_clus fat e' off alloc d := by
  have first : e'.first_clus = e.first_clus := by
    obtain ⟨_, _, rfl⟩ := same
    rfl
  have leads' := h'.leads
  rw [first] at leads'
  rw [← h.eq_walked, ← h'.eq_walked, same.walked]
  rcases Nat.le_total e.clus_cnt e'.clus_cnt with le | ge
  · exact reloc_clus_walked leads' le off alloc
  · exact (reloc_clus_walked h.leads ge off alloc).symm

/-! ### What keeps cursors in place -/

/-- Entries of the table that are used are the same. -/
def SameUsed (fat : Geometry) (d d' : Disk) : Prop :=
  ∀ k, fat.InRange k → fat.entry d k ≠ 0 → fat.entry d' k = fat.entry d k

/-- The allocator writes to a free entry, and hands out another cluster than that of
the entry. -/
theorem alloc_clus_table : Leaves (alloc_clus fat) d fun c t => fat.InRange c ∧
    ∃ k, fat.entry d k = 0 ∧ c ≠ k ∧ ∀ k', fat.InRange k' → k' ≠ k → fat.entry t k' = fat.entry d k' := by
  unfold Leaves Machine.Ends
  rw [alloc_clus_run]
  cases found : (List.range (fat.fat_sz * (BSIZE / 4))).find? fun k => d.fetch (fat.byIndex k) 4 == 0 with
  | none => trivial
  | some k =>
    have hk : k < fat.entries := List.mem_range.mp (List.mem_of_find?_eq_some found)
    have free : fat.entry d k = 0 := by
      have zero := List.find?_some found
      rw [byIndex_eq fat hk, beq_iff_eq] at zero
      exact zero
    have apart : u32 (k + 2) ≠ k := by
      rw [u32]
      omega
    change Machine.Ends (fun _ => True) (do
      zero_clus fat (u32 (k + 2))
      return u32 (k + 2)) (d.store (fat.byIndex k) 4 FAT32_EOF) _
    rw [byIndex_eq fat hk]
    apply Machine.Ends.bind (R := fun _ t => fat.InRange (u32 (k + 2)) ∧
      ∀ k', fat.InRange k' → k' ≠ k → fat.entry t k' = fat.entry d k')
    · apply zero_clus_ends
      intro range t same
      refine ⟨range, fun k' range' other => ?_⟩
      rw [← entry_store_other d other FAT32_EOF]
      apply Memory.fetch_congr
      intro i hi
      apply same
      have := @Geometry.entryAt_lt_clusterAt fat k' (u32 (k + 2)) range'
      omega
    · exact fun _ t post => Machine.Ends.pure ⟨post.1, k, free, apart, post.2⟩

theorem alloc_clus_ends :
    Leaves (alloc_clus fat) d fun c t => fat.InRange c ∧ SameUsed fat d t := by
  apply alloc_clus_table.mono
  rintro c t ⟨range, k, free, -, same⟩
  exact ⟨range, fun k' range' used => same k' range' fun eq => used (eq ▸ free)⟩

theorem Leads.used {first : Nat} (h : Leads fat d first (i + 1)) : fat.entry d (fat.nth d first i) ≠ 0 := by
  have next := (h (i + 1) (Nat.le_refl _)).1
  rw [nth_succ] at next
  omega

/-- A cluster is allocated and linked behind the last. -/
theorem Tracked.extended {t : Disk} (h : Tracked fat d e) (stop : isEnd (fat.entry d e.cur_clus))
    (same : SameUsed fat d t) (range : fat.InRange c) :
    Tracked fat (t.store (fat.entryAt e.cur_clus) 4 c) (e.advance c) := by
  have stays : ∀ j ≤ e.clus_cnt, fat.nth (t.store (fat.entryAt e.cur_clus) 4 c) e.first_clus j =
      fat.nth d e.first_clus j := by
    apply nth_congr
    intro j hj
    have before : Leads fat d e.first_clus (j + 1) := h.leads.mono hj
    -- it leads to a cluster, and the last does not
    have other : fat.nth d e.first_clus j ≠ e.cur_clus := by
      intro eq
      have inside := (before (j + 1) (Nat.le_refl _)).lt_EOC
      rw [nth_succ, eq] at inside
      exact absurd inside (Nat.not_lt.mpr stop.1)
    rw [entry_store_other t other]
    exact same _ (before j (Nat.le_succ j)) before.used
  have last : fat.nth (t.store (fat.entryAt e.cur_clus) 4 c) e.first_clus (e.clus_cnt + 1) = c := by
    rw [nth_succ, stays _ (Nat.le_refl _), h.here]
    exact Memory.fetch_store_same _ (range.lt.trans (by decide))
  refine ⟨last, fun j hj => ?_⟩
  rcases Nat.lt_or_ge j (e.clus_cnt + 1) with old | new
  · rw [Dirent.advance, stays j (Nat.lt_succ_iff.mp old)]
    exact h.leads j (Nat.lt_succ_iff.mp old)
  · rw [Nat.le_antisymm hj new]
    exact last.symm ▸ range

theorem Tracked.advance (h : Tracked fat d e) (range : fat.InRange (fat.entry d e.cur_clus)) :
    Tracked fat d (e.advance (fat.entry d e.cur_clus)) := by
  have next : fat.nth d e.first_clus (e.clus_cnt + 1) = fat.entry d e.cur_clus := by rw [nth_succ, h.here]
  refine ⟨next, fun j hj => ?_⟩
  rcases Nat.lt_or_ge j (e.clus_cnt + 1) with old | new
  · exact h.leads j (Nat.lt_succ_iff.mp old)
  · rw [Nat.le_antisymm hj new]
    exact next.symm ▸ range

theorem tracked_rewind (range : fat.InRange e.first_clus) : Tracked fat d e.rewind := by
  refine ⟨rfl, fun j hj => ?_⟩
  rw [Nat.le_zero.mp hj]
  exact range

/-- A cursor that is on a cluster of the volume is in place. -/
def Follows (fat : Geometry) (d : Disk) (e : Dirent) : Prop := fat.InRange e.cur_clus → Tracked fat d e

theorem SameFile.advance (e : Dirent) (c : Nat) : SameFile e (e.advance c) := ⟨_, _, rfl⟩

theorem read_fat_outside (out : ¬fat.InRange c) :
    Leaves (read_fat fat c) d fun r t => d = t ∧ ¬fat.InRange r := by
  rw [read_fat]
  apply Machine.Ends.ite
  · exact fun _ => Machine.Ends.halt trivial
  intro low
  apply Machine.Ends.ite
  · exact fun _ => Machine.Ends.pure ⟨rfl, out⟩
  intro _
  apply Machine.Ends.ite
  · exact fun _ => Machine.Ends.pure ⟨rfl, fun zero => absurd zero.1 (by decide)⟩
  intro inside
  rw [Geometry.u32_last] at inside
  exact absurd ⟨Nat.not_lt.mp low, Nat.not_lt.mp inside⟩ out

theorem relocForward_follows (h : Follows fat d e) (more : Nat) :
    Leaves (relocForward fat alloc more e) d fun r t =>
      SameFile e r.2 ∧ Follows fat t r.2 ∧ (alloc = false → t = d) := by
  induction more generalizing d e with
  | zero => exact Machine.Ends.pure ⟨.refl e, h, fun _ => rfl⟩
  | succ more ih =>
    rw [relocForward]
    by_cases range : fat.InRange e.cur_clus
    · have tracked := h range
      apply Machine.Ends.bind (R := fun c t => c = fat.entry d e.cur_clus ∧ d = t)
      · exact Machine.Ends.of_ok (read_fat_run range) ⟨rfl, rfl⟩
      rintro _ _ ⟨rfl, rfl⟩
      apply Machine.Ends.ite
      · intro stop
        apply Machine.Ends.ite
        · rintro rfl
          apply Machine.Ends.bind alloc_clus_ends
          rintro c t ⟨inside, same⟩
          apply Machine.Ends.bind (R := fun _ u => Tracked fat u (e.advance c))
          · exact write_fat_ends c fun _ => tracked.extended stop same inside
          · rintro _ u extended
            refine (ih fun _ => extended).mono ?_
            rintro r v ⟨file, follows, -⟩
            exact ⟨(SameFile.advance e c).trans file, follows, fun no => Bool.noConfusion no⟩
        · exact fun _ => Machine.Ends.pure ⟨⟨_, _, rfl⟩, tracked_rewind, fun _ => rfl⟩
      · intro _
        apply Machine.Ends.ite
        · exact fun _ => Machine.Ends.halt trivial
        · intro _
          refine (ih (e := e.advance _) tracked.advance).mono ?_
          rintro r v ⟨file, rest⟩
          exact ⟨(SameFile.advance e _).trans file, rest⟩
    · apply Machine.Ends.bind (read_fat_outside range)
      rintro c _ ⟨rfl, out⟩
      apply Machine.Ends.ite
      · intro _
        apply Machine.Ends.ite
        · rintro rfl
          apply Machine.Ends.bind alloc_clus_ends
          rintro _ t -
          -- nothing is linked behind what is no cluster
          apply Machine.Ends.bind (R := fun _ _ => False)
          · exact write_fat_ends _ fun inside => range inside
          · exact fun _ _ impossible => impossible.elim
        · exact fun _ => Machine.Ends.pure ⟨⟨_, _, rfl⟩, tracked_rewind, fun _ => rfl⟩
      · intro _
        apply Machine.Ends.ite
        · exact fun _ => Machine.Ends.halt trivial
        · intro _
          refine (ih (e := e.advance c) fun inside => absurd inside out).mono ?_
          rintro r v ⟨file, rest⟩
          exact ⟨(SameFile.advance e _).trans file, rest⟩

theorem relocFromStart_follows (h : Follows fat d e) (more : Nat) :
    Leaves (relocFromStart fat more e) d fun r t => SameFile e r ∧ Follows fat d r ∧ t = d := by
  induction more generalizing e with
  | zero => exact Machine.Ends.pure ⟨.refl e, h, rfl⟩
  | succ more ih =>
    rw [relocFromStart]
    apply Machine.Ends.bind (R := fun c t => d = t ∧ Follows fat d (e.advance c))
    · by_cases range : fat.InRange e.cur_clus
      · exact Machine.Ends.of_ok (read_fat_run range) ⟨rfl, (h range).advance⟩
      · exact (read_fat_outside range).mono fun _ _ post => ⟨post.1, fun inside => absurd inside post.2⟩
    rintro c _ ⟨rfl, follows⟩
    apply Machine.Ends.ite
    · exact fun _ => Machine.Ends.halt trivial
    · intro _
      refine (ih follows).mono ?_
      rintro r v ⟨file, rest⟩
      exact ⟨(SameFile.advance e c).trans file, rest⟩

theorem reloc_clus_follows (h : Tracked fat d e) (off : Nat) (alloc : Bool) :
    Leaves (reloc_clus fat e off alloc) d fun r t =>
      SameFile e r.2 ∧ Follows fat t r.2 ∧ (alloc = false → t = d) := by
  rw [reloc_clus]
  apply Machine.Ends.bind (relocForward_follows (fun _ => h) _)
  rintro ⟨there, e'⟩ t ⟨file, follows, same⟩
  apply Machine.Ends.ite
  · exact fun _ => Machine.Ends.pure ⟨file, follows, same⟩
  intro _
  apply Machine.Ends.bind (R := fun r u => SameFile e r ∧ Follows fat u r ∧ (alloc = false → u = d))
  · apply Machine.Ends.ite
    · intro _
      have back : Follows fat t e'.rewind := tracked_rewind
      refine (relocFromStart_follows back _).mono ?_
      rintro r _ ⟨file', follows', rfl⟩
      exact ⟨file.trans (SameFile.trans ⟨_, _, rfl⟩ file'), follows', same⟩
    · exact fun _ => Machine.Ends.pure ⟨file, follows, same⟩
  · exact fun _ _ post => Machine.Ends.pure post

/-! ### Reads and writes -/

theorem Tracked.congr (h : Tracked fat d e) (same : ∀ k, fat.InRange k → fat.entry d' k = fat.entry d k) :
    Tracked fat d' e := by
  have stays : ∀ j ≤ e.clus_cnt, fat.nth d' e.first_clus j = fat.nth d e.first_clus j :=
    nth_congr fun j hj => same _ (h.leads j hj.le)
  refine ⟨(stays _ (Nat.le_refl _)).trans h.here, fun j hj => ?_⟩
  rw [stays j hj]
  exact h.leads j hj

theorem rw_clus_deliver_ends (buf : Sink) (off n : Nat) :
    Leaves (rw_clus_deliver fat buf c off n) d fun _ t => d = t ∧ fat.InRange c := by
  rw [rw_clus_deliver]
  apply Machine.Ends.ite
  · exact fun _ => Machine.Ends.halt trivial
  intro _
  by_cases range : fat.InRange c
  · apply Machine.Ends.bind (R := fun _ t => d = t)
    · exact Machine.Ends.of_ok (first_sec_of_clus_run range) rfl
    · rintro _ _ rfl
      exact Machine.Ends.get_bind (Machine.Ends.pure ⟨rfl, range⟩)
  · apply Machine.Ends.bind (R := fun _ _ => False)
    · rw [first_sec_of_clus, if_pos (out_of_range range)]
      exact Machine.Ends.halt trivial
    · exact fun _ _ impossible => impossible.elim

theorem ereadsFrom_tracked (h : Tracked fat d e) (buf : Sink) {limit tot : Nat} :
    Leaves (ereadsFrom fat buf n limit e tot off) d fun r t =>
      SameFile e r.2.2 ∧ Tracked fat d r.2.2 ∧ d = t := by
  induction limit generalizing e tot off with
  | zero => exact Machine.Ends.halt trivial
  | succ limit ih =>
    rw [ereadsFrom]
    apply Machine.Ends.ite
    · intro _
      apply Machine.Ends.bind (reloc_clus_follows h off false)
      rintro ⟨_, e'⟩ t ⟨file, follows, same⟩
      obtain rfl := same rfl
      apply Machine.Ends.bind (rw_clus_deliver_ends _ _ _)
      rintro ⟨r, bytes⟩ _ ⟨rfl, range⟩
      apply Machine.Ends.ite
      · exact fun _ => Machine.Ends.pure ⟨file, follows range, rfl⟩
      · intro _
        apply Machine.Ends.bind (ih (follows range))
        rintro ⟨tot, rest, e''⟩ u ⟨file', tracked, same'⟩
        exact Machine.Ends.pure ⟨file.trans file', tracked, same'⟩
    · exact fun _ => Machine.Ends.pure ⟨.refl e, h, rfl⟩

/-- The sectors of a transfer lie behind its first byte. -/
theorem rounds_above {limit sec tot : Nat} (low : sec * BSIZE + off % BSIZE + (n - tot) ≤ 2 ^ 32 * BSIZE) :
    ∀ r ∈ rounds n limit sec off tot, sec * BSIZE + off % BSIZE ≤ r.1 := by
  induction limit generalizing sec off tot with
  | zero => exact nofun
  | succ limit ih =>
    intro r mem
    rcases Nat.lt_or_ge tot n with more | done
    · obtain ⟨m, pos, le, cons, next⟩ := rounds_cons limit more low
      rw [cons] at mem
      rcases List.mem_cons.mp mem with rfl | later
      · exact Nat.le_refl _
      · rcases Nat.lt_or_ge m (n - tot) with rest | last
        · have above := ih (by rw [next rest]; omega) r later
          rw [next rest] at above
          omega
        · have none : rounds n limit (u32 (sec + 1)) (off + m) (tot + m) = [] := by
            cases limit with
            | zero => rfl
            | succ limit => rw [rounds, if_neg (by omega)]
          rw [none] at later
          cases later
    · rw [rounds, if_neg (by omega)] at mem
      cases mem

theorem transfer_above (data : Source) {base : Nat} {rs : List (Nat × Nat × Nat)}
    (above : ∀ r ∈ rs, base ≤ r.1) :
    Leaves (transfer (fun (a, tot, m) => do
      modify fun b => b.blit a (data.copy tot m).1
      return (data.copy tot m).2) n rs) d fun _ t => ∀ x < base, t x = d x := by
  induction rs generalizing d with
  | nil => exact Machine.Ends.pure fun _ _ => rfl
  | cons r rest ih =>
    rw [transfer]
    apply Machine.Ends.bind (R := fun _ t => ∀ x < base, t x = d x)
    · apply Machine.Ends.bind (R := fun _ t => ∀ x < base, t x = d x)
      · apply Machine.Ends.modify
        intro x hx
        exact Memory.blit_outside _ (.inl (hx.trans_le (above r List.mem_cons_self)))
      · exact fun _ _ same => Machine.Ends.pure same
    · intro done t same
      apply Machine.Ends.ite
      · intro _
        refine (ih fun r' mem => above r' (List.mem_cons_of_mem _ mem)).mono ?_
        exact fun _ u same' x hx => (same' x hx).trans (same x hx)
      · exact fun _ => Machine.Ends.pure same

/-- A write within a cluster leaves the table alone, wherever the bytes come from. -/
theorem rw_clus_write_ends (data : Source) (inside : off + n ≤ fat.byts_per_clus) :
    Leaves (rw_clus_write fat c data off n) d fun _ t =>
      fat.InRange c ∧ ∀ k, fat.InRange k → fat.entry t k = fat.entry d k := by
  rw [rw_clus_write]
  apply Machine.Ends.ite
  · exact fun _ => Machine.Ends.halt trivial
  intro _
  by_cases range : fat.InRange c
  · apply Machine.Ends.bind (R := fun sec t =>
      sec = (c - 2) * fat.sec_per_clus + fat.first_data_sec ∧ d = t)
    · exact Machine.Ends.of_ok (first_sec_of_clus_run range) ⟨rfl, rfl⟩
    rintro _ _ ⟨rfl, rfl⟩
    rcases Nat.eq_zero_or_pos n with rfl | pos
    · exact Machine.Ends.pure ⟨range, fun _ _ => rfl⟩
    obtain ⟨sector, fits⟩ := range.sector pos inside
    refine (transfer_above data (rounds_above (by omega))).mono ?_
    intro _ t same
    refine ⟨range, fun k hk => Memory.fetch_congr fun i hi => same _ ?_⟩
    have := @Geometry.entryAt_lt_clusterAt fat k c hk
    omega
  · apply Machine.Ends.bind (R := fun _ _ => False)
    · rw [first_sec_of_clus, if_pos (out_of_range range)]
      exact Machine.Ends.halt trivial
    · exact fun _ _ impossible => impossible.elim

theorem ewriteFrom_tracked (h : Tracked fat d e) (data : Source) {limit tot : Nat} :
    Leaves (ewriteFrom fat data n limit e tot off) d fun r t =>
      SameFile e r.2.2 ∧ Tracked fat t r.2.2 := by
  induction limit generalizing d e tot off with
  | zero => exact Machine.Ends.halt trivial
  | succ limit ih =>
    rw [ewriteFrom]
    apply Machine.Ends.ite
    · intro more
      apply Machine.Ends.bind (reloc_clus_follows h off true)
      rintro ⟨_, e'⟩ t ⟨file, follows, -⟩
      have within := (step_length fat off (show 0 < n - tot by omega)).2
      apply Machine.Ends.bind (rw_clus_write_ends _ within)
      rintro r u ⟨range, tables⟩
      have tracked := (follows range).congr tables
      apply Machine.Ends.ite
      · exact fun _ => Machine.Ends.pure ⟨file, tracked⟩
      · intro _
        refine (ih tracked).mono ?_
        rintro ⟨tot, off, e''⟩ v ⟨file', tracked'⟩
        exact ⟨file.trans file', tracked'⟩
    · exact fun _ => Machine.Ends.pure ⟨.refl e, h⟩

/-- The cursor of a file is in place, or the file is empty and has no clusters. -/
def InPlace (fat : Geometry) (d : Disk) (e : Dirent) : Prop :=
  Tracked fat d e ∨ e.first_clus = 0 ∧ e.file_size = 0

/-- Of an empty file there is nothing to read. -/
theorem read_none (empty : e.file_size = 0) (inside : ¬(e.file_size < off ∨ u32 (off + n) < off ∨ e.isDir = true))
    (small : n < 2 ^ 32) : (if e.file_size < u32 (off + n) then e.file_size - off else n) = 0 := by
  simp only [empty, not_or, Nat.not_lt, Nat.le_zero] at inside ⊢
  obtain ⟨rfl, -⟩ := inside
  rw [Nat.zero_add, u32, Nat.mod_eq_of_lt small]
  split <;> omega

theorem ereadInto_inPlace (h : InPlace fat d e) (buf : Sink) (off : Nat) (small : n < 2 ^ 32) :
    Leaves (ereadInto fat e buf off n) d fun r t =>
      SameFile e r.2.2 ∧ InPlace fat d r.2.2 ∧ d = t := by
  rw [ereadInto]
  apply Machine.Ends.ite
  · exact fun _ => Machine.Ends.pure ⟨.refl e, h, rfl⟩
  intro inside
  rcases h with tracked | empty
  · apply Machine.Ends.bind (ereadsFrom_tracked tracked buf)
    rintro ⟨tot, bytes, e'⟩ _ ⟨file, tracked', rfl⟩
    exact Machine.Ends.pure ⟨file, .inl tracked', rfl⟩
  · dsimp only
    rw [read_none empty.2 inside small, ereadsFrom, if_neg (by omega)]
    exact Machine.Ends.pure ⟨.refl e, .inr empty, rfl⟩

theorem ewrite_inPlace (h : InPlace fat d e) (data : Source) (off n : Nat) :
    Leaves (ewrite fat e data off n) d fun r t => InPlace fat t r.2 := by
  rw [ewrite]
  apply Machine.Ends.ite
  · exact fun _ => Machine.Ends.pure h
  intro _
  apply Machine.Ends.bind (R := fun e' t => Tracked fat t e')
  · apply Machine.Ends.ite
    · intro _
      apply Machine.Ends.bind alloc_clus_ends
      rintro c t ⟨range, -⟩
      have begun : Tracked fat t (Dirent.rewind { e with first_clus := c, dirty := true }) :=
        tracked_rewind range
      exact Machine.Ends.pure begun
    · intro some
      exact Machine.Ends.pure (h.resolve_right fun empty => some empty.1)
  · intro e' t tracked
    apply Machine.Ends.bind (ewriteFrom_tracked tracked data)
    rintro ⟨tot, off, e''⟩ u ⟨-, tracked'⟩
    dsimp only
    split
    · exact Machine.Ends.pure (.inl ⟨tracked'.here, tracked'.leads⟩)
    · exact Machine.Ends.pure (.inl tracked')

/-- What a file gives to a buffer that takes all it has, or ends before. -/
theorem Contents.ereadInto_stops {cs : List Nat} {data : List UInt8} {buf : Sink} {q : Nat}
    (h : Contents fat cs data d e) (small : off + n < 2 ^ 32) (stops : buf.Stops (portion data off n).length q) : ∃ e',
    ereadInto fat e buf off n d = .ok ((lowInt (counted fat off (portion data off n).length q),
      (portion data off n).take q, e'), d) ∧ SameFile e e' ∧ Contents fat cs data d e' := by
  have some : portion data off n = (data.drop off).take n := if_pos small
  have length : (portion data off n).length = min n (e.file_size - off) := by
    rw [some, List.length_take, List.length_drop, h.size]
  rcases h.chain with regular | ⟨rfl, -, rfl⟩
  · have le := stops.le
    rw [length] at stops le
    obtain ⟨k, hk, run⟩ := Fat.ereadInto_stops regular small stops
    have got : (fileBytes fat d cs).window off q = (portion data off n).take q := by
      apply List.ext_getElem
      · rw [Memory.window_length, List.length_take, length, Nat.min_eq_left le]
      · intro i hi hi'
        rw [Memory.window_length] at hi
        rw [Memory.window_getElem, List.getElem_take]
        simp only [some, List.getElem_take, List.getElem_drop]
        have size := h.size
        exact h.bytes (off + i) (by omega)
    refine ⟨e.seek cs k, ?_, ⟨_, _, rfl⟩, h.same hk⟩
    rw [run, ← got, length]
  · have none : portion [] off n = [] := by rw [some, List.drop_nil, List.take_nil]
    have nothing : q = 0 := Nat.le_zero.mp (by
      have := stops.le
      rw [none] at this
      exact this)
    refine ⟨e, ?_, .refl e, h⟩
    rw [none, nothing, ereadInto, h.size]
    split
    · rfl
    · next inside =>
      have stop : (if ([] : List UInt8).length < u32 (off + n) then ([] : List UInt8).length - off else n) = 0 := by
        have := read_none h.size (by rw [h.size]; exact inside) (show n < 2 ^ 32 by omega)
        rw [h.size] at this
        exact this
      dsimp only
      rw [stop, ereadsFrom, if_neg fun goes => absurd goes.2 (Nat.lt_irrefl 0)]
      rfl

/-! ### From two cursors -/

theorem ereadsFrom_same (h : Tracked fat d e) (h' : Tracked fat d e') (same : SameFile e e') (buf : Sink)
    {limit tot : Nat} (more : tot < n) :
    ereadsFrom fat buf n limit e tot off d = ereadsFrom fat buf n limit e' tot off d := by
  cases limit with
  | zero => rfl
  | succ limit =>
    rw [ereadsFrom, ereadsFrom, if_pos ⟨h.range.lt_EOC, more⟩, if_pos ⟨h'.range.lt_EOC, more⟩]
    exact Machine.bind_congr_run (reloc_clus_same h h' same off false)

theorem ewriteFrom_same (h : Tracked fat d e) (h' : Tracked fat d e') (same : SameFile e e') (data : Source)
    {limit tot : Nat} (more : tot < n) :
    ewriteFrom fat data n limit e tot off d = ewriteFrom fat data n limit e' tot off d := by
  cases limit with
  | zero => rfl
  | succ limit =>
    rw [ewriteFrom, ewriteFrom, if_pos more, if_pos more]
    exact Machine.bind_congr_run (reloc_clus_same h h' same off true)

theorem same_of_eq {α β : Type} {R : α → α → Prop} {x y : Except Halt (α × β)} (refl : ∀ a, R a a)
    (eq : x = y) : Machine.Same Eq R x y := by
  subst eq
  rcases x with stop | ⟨a, t⟩
  · exact rfl
  · exact ⟨refl a, rfl⟩

/-- Two reads end alike: with one result, and with the same file. -/
theorem ereadInto_alike (h : InPlace fat d e) (h' : InPlace fat d e') (same : SameFile e e') (buf : Sink)
    (off : Nat) (small : n < 2 ^ 32) :
    Machine.Same Eq (fun r r' => r.1 = r'.1 ∧ r.2.1 = r'.2.1 ∧ SameFile r.2.2 r'.2.2)
      (ereadInto fat e buf off n d) (ereadInto fat e' buf off n d) := by
  obtain ⟨size, dir, -, -⟩ := same.fields
  rw [ereadInto, ereadInto, Machine.ite_run, Machine.ite_run, size, dir]
  by_cases past : e.file_size < off ∨ u32 (off + n) < off ∨ e.isDir = true
  · rw [if_pos past, if_pos past]
    exact ⟨⟨rfl, rfl, same⟩, rfl⟩
  rw [if_neg past, if_neg past]
  have nothing := fun empty => read_none empty past small
  dsimp only
  generalize (if e.file_size < u32 (off + n) then e.file_size - off else n) = m at nothing
  rcases Nat.eq_zero_or_pos m with rfl | pos
  · rw [ereadsFrom, ereadsFrom, if_neg (by omega), if_neg (by omega)]
    exact ⟨⟨rfl, rfl, same⟩, rfl⟩
  · have tracked := h.resolve_right fun empty => Nat.ne_of_gt pos (nothing empty.2)
    have tracked' := h'.resolve_right fun empty => Nat.ne_of_gt pos (nothing (size ▸ empty.2))
    refine same_of_eq (fun r => ⟨rfl, rfl, .refl _⟩) (Machine.bind_congr_run ?_)
    exact ereadsFrom_same tracked tracked' same buf pos

/-- Two writes end alike. -/
theorem ewrite_alike (h : InPlace fat d e) (h' : InPlace fat d e') (same : SameFile e e') (data : Source)
    (off n : Nat) :
    Machine.Same Eq (fun r r' => r.1 = r'.1 ∧ SameFile r.2 r'.2)
      (ewrite fat e data off n d) (ewrite fat e' data off n d) := by
  obtain ⟨size, -, attr, first⟩ := same.fields
  rw [ewrite, ewrite, Machine.ite_run, Machine.ite_run, size, attr, first]
  by_cases refused : e.file_size < off ∨ u32 (off + n) < off ∨ 0xffffffff < off + n ∨
      e.attr &&& ATTR_READ_ONLY ≠ 0
  · rw [if_pos refused, if_pos refused]
    exact ⟨⟨rfl, same⟩, rfl⟩
  rw [if_neg refused, if_neg refused]
  by_cases empty : e.first_clus = 0
  · rw [if_pos empty, if_pos empty]
    obtain ⟨_, _, rfl⟩ := same
    exact same_of_eq (fun r => ⟨rfl, .refl _⟩) rfl
  rw [if_neg empty, if_neg empty, pure_bind, pure_bind]
  have tracked := h.resolve_right fun none => empty none.1
  have tracked' := h'.resolve_right fun none => empty (first ▸ none.1)
  rcases Nat.eq_zero_or_pos n with rfl | pos
  · rw [ewriteFrom, ewriteFrom, if_neg (by omega), if_neg (by omega)]
    exact ⟨⟨rfl, same⟩, rfl⟩
  · refine same_of_eq (fun r => ⟨rfl, .refl _⟩) (Machine.bind_congr_run ?_)
    exact ewriteFrom_same tracked tracked' same data pos

end AvxKernel.Fat
