import AvxKernel.Fat.Codec

/-! Files: `eread` and `ewrite`, which go from cluster to cluster. The bytes of a
file's clusters, one cluster after the other, are a memory of their own. -/
namespace AvxKernel.Fat

/-- What is left of the bytes of a write. -/
def Source.from (data : Source) (k : Nat) : Source where
  copy off n := data.copy (k + off) n
  length_le off n := data.length_le (k + off) n

section Program

variable (fat : Geometry)

/-- The loop of `eread`, for a buffer of the kernel's: the bytes it delivers. -/
def ereadFrom (n : Nat) : Nat → Dirent → Nat → Nat → Machine Disk (List UInt8 × Dirent)
  | 0, _, _, _ => Machine.halt .diverge
  | limit + 1, entry, tot, off =>
    if entry.cur_clus < FAT32_EOC ∧ tot < n then do
      let (_, entry) ← reloc_clus fat entry off false
      let m := min (fat.byts_per_clus - off % fat.byts_per_clus) (n - tot)
      let bytes ← rw_clus_read fat entry.cur_clus (off % fat.byts_per_clus) m
      let (rest, entry) ← ereadFrom n limit entry (tot + m) (u32 (off + m))
      return (bytes ++ rest, entry)
    else
      return ([], entry)

/-- The return value, the bytes and the entry. -/
def eread (entry : Dirent) (off n : Nat) : Machine Disk (Int × List UInt8 × Dirent) :=
  if entry.file_size < off ∨ u32 (off + n) < off ∨ entry.isDir then
    return (0, [], entry)
  else do
    let n := if entry.file_size < u32 (off + n) then entry.file_size - off else n
    let (bytes, entry) ← ereadFrom fat n (n + 1) entry 0 off
    return (lowInt bytes.length, bytes, entry)

/-- The loop of `ewrite`: `tot` and `off` when it ends. -/
def ewriteFrom (data : Source) (n : Nat) :
    Nat → Dirent → Nat → Nat → Machine Disk (Nat × Nat × Dirent)
  | 0, _, _, _ => Machine.halt .diverge
  | limit + 1, entry, tot, off =>
    if tot < n then do
      let (_, entry) ← reloc_clus fat entry off true
      let m := min (fat.byts_per_clus - off % fat.byts_per_clus) (n - tot)
      let r ← rw_clus_write fat entry.cur_clus (data.from tot) (off % fat.byts_per_clus) m
      if r ≠ m then
        return (tot, off, entry)
      else
        ewriteFrom data n limit entry (tot + m) (u32 (off + m))
    else
      return (tot, off, entry)

def ewrite (entry : Dirent) (data : Source) (off n : Nat) : Machine Disk (Int × Dirent) :=
  if entry.file_size < off ∨ u32 (off + n) < off ∨ 0xffffffff < off + n ∨
      entry.attr &&& ATTR_READ_ONLY ≠ 0 then
    return (-1, entry)
  else do
    let entry ← (if entry.first_clus = 0 then do
        let clus ← alloc_clus fat
        return { entry with cur_clus := clus, first_clus := clus, clus_cnt := 0, dirty := true }
      else
        return entry)
    let (tot, off, entry) ← ewriteFrom fat data n (n + 1) entry 0 off
    let entry := if 0 < n ∧ entry.file_size < off then
        { entry with file_size := off, dirty := true }
      else
        entry
    return (lowInt tot, entry)

/-- Reads one after the other, and the bytes of each. -/
def ereads : List (Nat × Nat) → Dirent → Machine Disk (List (Int × List UInt8))
  | [], _ => return []
  | (off, n) :: rest, entry => do
    let (r, bytes, entry) ← eread fat entry off n
    let results ← ereads rest entry
    return (r, bytes) :: results

end Program

variable {fat : Geometry} {d d' : Disk} {cs : List Nat} {e : Dirent} {bytes : List UInt8}

/-! ### The bytes of a chain -/

/-- Where byte `i` of a file is. -/
def Geometry.byteAt (fat : Geometry) (cs : List Nat) (i : Nat) : Nat :=
  fat.clusterAt (cs.getD (i / fat.byts_per_clus) 0) + i % fat.byts_per_clus

/-- The bytes of the chain's clusters. -/
def fileBytes (fat : Geometry) (d : Disk) (cs : List Nat) : Memory := fun i => d (fat.byteAt cs i)

/-- An address in none of the chain's clusters. -/
def Outside (fat : Geometry) (cs : List Nat) (a : Nat) : Prop :=
  ∀ c ∈ cs, a < fat.clusterAt c ∨ fat.clusterAt c + fat.byts_per_clus ≤ a

theorem chain_place {off i : Nat} (within : off % fat.byts_per_clus + i < fat.byts_per_clus) :
    (off + i) / fat.byts_per_clus = off / fat.byts_per_clus ∧
      (off + i) % fat.byts_per_clus = off % fat.byts_per_clus + i := by
  have pos := @Geometry.byts_per_clus_pos fat
  have parts : off + i = off % fat.byts_per_clus + i + fat.byts_per_clus * (off / fat.byts_per_clus) := by
    have := Nat.mod_add_div off fat.byts_per_clus
    omega
  constructor
  · rw [parts, Nat.add_mul_div_left _ _ pos, Nat.div_eq_of_lt within, Nat.zero_add]
  · rw [parts, Nat.add_mul_mod_self_left, Nat.mod_eq_of_lt within]

/-- Within a cluster the bytes of the file lie next to each other. -/
theorem byteAt_add {off i : Nat} (within : off % fat.byts_per_clus + i < fat.byts_per_clus) :
    fat.byteAt cs (off + i) = fat.byteAt cs off + i := by
  obtain ⟨quot, rem⟩ := chain_place within
  rw [Geometry.byteAt, Geometry.byteAt, quot, rem, Nat.add_assoc]

section Chain

variable (h : Clusters fat d cs)
include h

omit h in
theorem chain_cluster {i : Nat} (hi : i < cs.length * fat.byts_per_clus) :
    i / fat.byts_per_clus < cs.length :=
  (Nat.div_lt_iff_lt_mul Geometry.byts_per_clus_pos).mpr hi

theorem Clusters.chain_range {i : Nat} (hi : i < cs.length * fat.byts_per_clus) :
    cs.getD (i / fat.byts_per_clus) 0 ∈ cs ∧ fat.InRange (cs.getD (i / fat.byts_per_clus) 0) := by
  rw [List.getD_eq_getElem _ _ (chain_cluster hi)]
  exact ⟨List.getElem_mem _, h.range _ (List.getElem_mem _)⟩

/-- Different bytes of the file are at different places. -/
theorem Clusters.byteAt_inj {i j : Nat} (hi : i < cs.length * fat.byts_per_clus)
    (hj : j < cs.length * fat.byts_per_clus) (same : fat.byteAt cs i = fat.byteAt cs j) : i = j := by
  have pos := @Geometry.byts_per_clus_pos fat
  have low := Nat.mod_lt i pos
  have low' := Nat.mod_lt j pos
  rw [Geometry.byteAt, Geometry.byteAt] at same
  have cluster : i / fat.byts_per_clus = j / fat.byts_per_clus := by
    by_contra differ
    have clusters : cs.getD (i / fat.byts_per_clus) 0 ≠ cs.getD (j / fat.byts_per_clus) 0 := by
      rw [List.getD_eq_getElem _ _ (chain_cluster hi), List.getD_eq_getElem _ _ (chain_cluster hj)]
      exact fun eq => differ (h.chain.nodup.getElem_inj_iff.mp eq)
    rcases Geometry.clusterAt_disjoint (h.chain_range hi).2 (h.chain_range hj).2 clusters with a | b
    · omega
    · omega
  rw [cluster] at same
  rw [← Nat.div_add_mod i fat.byts_per_clus, ← Nat.div_add_mod j fat.byts_per_clus, cluster,
    Nat.add_left_cancel same]

/-- Bytes laid down within a cluster, as bytes of the file and elsewhere. -/
theorem Clusters.fileBytes_blit {off : Nat} (inside : off < cs.length * fat.byts_per_clus)
    (within : off % fat.byts_per_clus + bytes.length ≤ fat.byts_per_clus) :
    (∀ i < cs.length * fat.byts_per_clus, fileBytes fat (d.blit (fat.byteAt cs off) bytes) cs i =
      (fileBytes fat d cs).blit off bytes i) ∧
    ∀ a, Outside fat cs a → d.blit (fat.byteAt cs off) bytes a = d a := by
  constructor
  · intro i hi
    by_cases written : off ≤ i ∧ i < off + bytes.length
    · obtain ⟨k, rfl⟩ := Nat.exists_eq_add_of_le written.1
      have place : fat.byteAt cs (off + k) = fat.byteAt cs off + k := byteAt_add (by omega)
      rw [fileBytes, place, Memory.blit_inside _ _ (by omega), Memory.blit_inside _ _ (by omega)]
    · rw [Memory.blit_outside _ (by omega), fileBytes, fileBytes]
      refine Memory.blit_outside _ ?_
      by_contra among
      have pos := @Geometry.byts_per_clus_pos fat
      obtain ⟨k, place⟩ := Nat.exists_eq_add_of_le (show fat.byteAt cs off ≤ fat.byteAt cs i by omega)
      have lt : k < bytes.length := by omega
      rw [← byteAt_add (by omega)] at place
      have room : off + k < cs.length * fat.byts_per_clus := by
        have := @chain_place fat off k (by omega)
        have lt := chain_cluster inside
        rw [← this.1] at lt
        exact (Nat.div_lt_iff_lt_mul pos).mp lt
      have eq := h.byteAt_inj hi room place
      omega
  · intro a outside
    refine Memory.blit_outside _ ?_
    have := outside _ (h.chain_range inside).1
    rw [Geometry.byteAt]
    omega

/-- The table is outside. -/
theorem Clusters.of_outside (same : ∀ a, Outside fat cs a → d' a = d a) : Clusters fat d' cs := by
  refine h.congr fun c hc => Memory.fetch_congr fun k hk => same _ fun c' _ => .inl ?_
  have before : fat.entryAt c + 4 ≤ fat.clusterAt c' :=
    Geometry.entryAt_lt_clusterAt (h.range c hc)
  omega

end Chain

/-! ### One cluster at a time -/

/-- The transfers of `rw_clus` stay within its count. -/
theorem rounds_within {n limit sec off tot : Nat} {round : Nat × Nat × Nat}
    (h : round ∈ rounds n limit sec off tot) : round.2.1 + round.2.2 ≤ n := by
  induction limit generalizing sec off tot with
  | zero => cases h
  | succ limit ih =>
    rw [rounds] at h
    split at h
    · rcases List.mem_cons.mp h with rfl | later
      · dsimp only
        omega
      · exact ih later
    · cases h

theorem transfer_congr {move move' : Nat × Nat × Nat → Machine Disk Bool} {n : Nat}
    {rs : List (Nat × Nat × Nat)} (same : ∀ round ∈ rs, move round = move' round) :
    transfer move n rs = transfer move' n rs := by
  induction rs with
  | nil => rfl
  | cons round rest ih =>
    rw [transfer, transfer, same round List.mem_cons_self,
      ih fun r hr => same r (List.mem_cons_of_mem _ hr)]

/-- Of the source, a write takes no more than its count. -/
theorem rw_clus_write_take (c off : Nat) {n : Nat} :
    rw_clus_write fat c (.ofBytes bytes) off n = rw_clus_write fat c (.ofBytes (bytes.take n)) off n := by
  have same : ∀ tot m, tot + m ≤ n →
      (Source.ofBytes bytes).copy tot m = (Source.ofBytes (bytes.take n)).copy tot m := by
    intro tot m le
    simp only [Source.ofBytes]
    rw [List.drop_take, List.take_take, Nat.min_eq_left (by omega)]
  rw [rw_clus_write, rw_clus_write]
  congr 2
  funext sec
  refine transfer_congr fun round hr => ?_
  obtain ⟨a, tot, m⟩ := round
  have le := rounds_within hr
  dsimp only at le ⊢
  rw [same tot m le]

theorem ofBytes_from (k : Nat) : (Source.ofBytes bytes).from k = .ofBytes (bytes.drop k) := by
  simp only [Source.from, Source.ofBytes, List.drop_drop]

/-- The length of a step: to the end of the cluster, or of the request. -/
theorem step_length (fat : Geometry) (off : Nat) {rest : Nat} (more : 0 < rest) :
    0 < min (fat.byts_per_clus - off % fat.byts_per_clus) rest ∧
    off % fat.byts_per_clus + min (fat.byts_per_clus - off % fat.byts_per_clus) rest ≤
      fat.byts_per_clus := by
  have := Nat.mod_lt off (@Geometry.byts_per_clus_pos fat)
  omega

section Chain

variable (h : Clusters fat d cs) (cursor : Cursor e cs)
include h cursor

theorem ereadFrom_run {n limit tot off : Nat} (fit : off + (n - tot) ≤ cs.length * fat.byts_per_clus)
    (small : off + (n - tot) < 2 ^ 32) (enough : n - tot < limit) : ∃ k < cs.length,
    ereadFrom fat n limit e tot off d =
      .ok (((fileBytes fat d cs).window off (n - tot), e.seek cs k), d) := by
  induction limit generalizing e tot off with
  | zero => omega
  | succ limit ih =>
    have range : fat.InRange e.cur_clus := by
      obtain ⟨lt, here⟩ := List.getElem?_eq_some_iff.mp cursor.here
      exact here ▸ h.range _ (List.getElem_mem _)
    rcases Nat.lt_or_ge tot n with more | done
    · obtain ⟨pos, within⟩ := step_length fat off (show 0 < n - tot by omega)
      generalize step : min (fat.byts_per_clus - off % fat.byts_per_clus) (n - tot) = m at pos within
      have le : m ≤ n - tot := by omega
      have inside : off < cs.length * fat.byts_per_clus := by omega
      have moved := reloc_clus_inside h cursor false inside
      have read := rw_clus_read_run (d := d) (h.chain_range inside).2 pos within
      obtain ⟨k, hk, run⟩ := @ih _ (cursor.seek (chain_cluster inside)) (tot + m) (off + m) (by omega)
        (by omega) (by omega)
      have next : u32 (off + m) = off + m := Nat.mod_eq_of_lt (by omega)
      have window : d.window (fat.byteAt cs off) m = (fileBytes fat d cs).window off m :=
        Memory.window_eq fun i hi => by
          have place : fat.byteAt cs (off + i) = fat.byteAt cs off + i := byteAt_add (by omega)
          rw [fileBytes, place]
      have split : n - tot = m + (n - (tot + m)) := by omega
      refine ⟨k, hk, ?_⟩
      rw [ereadFrom, if_pos ⟨range.lt_EOC, more⟩, Machine.bind_of_ok moved]
      dsimp only
      rw [step, next]
      refine (Machine.bind_of_ok read).trans ?_
      refine (Machine.bind_of_ok run).trans ?_
      rw [split, Memory.window_append, ← window]
      rfl
    · have none : n - tot = 0 := by omega
      refine ⟨e.clus_cnt, cursor.lt, ?_⟩
      rw [ereadFrom, if_neg (by omega), none, cursor.seek_self]
      rfl

theorem ewriteFrom_run {limit tot off : Nat}
    (fit : off + (bytes.length - tot) ≤ cs.length * fat.byts_per_clus)
    (small : off + (bytes.length - tot) < 2 ^ 32) (enough : bytes.length - tot < limit)
    (begun : tot ≤ bytes.length) : ∃ k < cs.length, ∃ d',
    ewriteFrom fat (.ofBytes bytes) bytes.length limit e tot off d =
      .ok ((bytes.length, off + (bytes.length - tot), e.seek cs k), d') ∧
    (∀ i < cs.length * fat.byts_per_clus, fileBytes fat d' cs i =
      (fileBytes fat d cs).blit off (bytes.drop tot) i) ∧
    ∀ a, Outside fat cs a → d' a = d a := by
  induction limit generalizing e d tot off with
  | zero => omega
  | succ limit ih =>
    rcases Nat.lt_or_ge tot bytes.length with more | done
    · obtain ⟨pos, within⟩ := step_length fat off (show 0 < bytes.length - tot by omega)
      generalize step : min (fat.byts_per_clus - off % fat.byts_per_clus) (bytes.length - tot) = m
        at pos within
      have le : m ≤ bytes.length - tot := by omega
      have inside : off < cs.length * fat.byts_per_clus := by omega
      have moved := reloc_clus_inside h cursor true inside
      have length : ((bytes.drop tot).take m).length = m := by
        rw [List.length_take, List.length_drop]
        omega
      have wrote : rw_clus_write fat (cs.getD (off / fat.byts_per_clus) 0) ((Source.ofBytes bytes).from tot)
          (off % fat.byts_per_clus) m d =
          .ok (m, d.blit (fat.byteAt cs off) ((bytes.drop tot).take m)) := by
        have run := rw_clus_write_run (d := d) (h.chain_range inside).2
          (show 0 < ((bytes.drop tot).take m).length by omega)
          (show off % fat.byts_per_clus + ((bytes.drop tot).take m).length ≤ _ by omega)
        rw [length] at run
        rw [ofBytes_from, rw_clus_write_take]
        exact run
      obtain ⟨here, away⟩ := @Clusters.fileBytes_blit _ _ _ ((bytes.drop tot).take m) h _ inside
        (by omega)
      have still := h.of_outside away
      obtain ⟨k, hk, d', run, there, away'⟩ := @ih _ _ still
        (cursor.seek (chain_cluster inside)) (tot + m) (off + m) (by omega) (by omega) (by omega) (by omega)
      have next : u32 (off + m) = off + m := Nat.mod_eq_of_lt (by omega)
      have whole : (bytes.drop tot).take m ++ bytes.drop (tot + m) = bytes.drop tot := by
        rw [← List.drop_drop, List.take_append_drop]
      refine ⟨k, hk, d', ?_, fun i hi => ?_, fun a outside => (away' a outside).trans (away a outside)⟩
      · rw [ewriteFrom, if_pos more, Machine.bind_of_ok moved]
        dsimp only
        rw [step, next]
        refine (Machine.bind_of_ok wrote).trans ?_
        rw [if_neg (by simp), run]
        have stop : off + m + (bytes.length - (tot + m)) = off + (bytes.length - tot) := by omega
        rw [stop]
        rfl
      · have both := (fileBytes fat d cs).blit_append off ((bytes.drop tot).take m) (bytes.drop (tot + m))
        rw [length, whole] at both
        rw [there i hi, ← both]
        -- byte `i` is one of the rest, or as the step has left it
        generalize (bytes.drop tot).take m = first at here
        simp only [Memory.blit] at here ⊢
        split
        · rfl
        · exact here i hi
    · have none : bytes.length - tot = 0 := by omega
      refine ⟨e.clus_cnt, cursor.lt, d, ?_, fun i hi => ?_, fun _ _ => rfl⟩
      · have all : tot = bytes.length := by omega
        rw [ewriteFrom, if_neg (by omega), none, cursor.seek_self, all]
        rfl
      · rw [List.drop_of_length_le (by omega), Memory.blit_nil]

end Chain

/-! ### Whole files -/

/-- A regular file whose chain covers its size. -/
structure Regular (fat : Geometry) (d : Disk) (cs : List Nat) (e : Dirent) : Prop where
  clusters : Clusters fat d cs
  cursor : Cursor e cs
  file : e.isDir = false
  covered : e.file_size ≤ cs.length * fat.byts_per_clus
  narrow : e.file_size < 2 ^ 32

theorem eread_run (regular : Regular fat d cs e) {off n : Nat} (small : off + n < 2 ^ 32) :
    ∃ k < cs.length, eread fat e off n d =
      .ok ((lowInt (min n (e.file_size - off)),
        (fileBytes fat d cs).window off (min n (e.file_size - off)), e.seek cs k), d) := by
  have covered := regular.covered
  have whole : u32 (off + n) = off + n := Nat.mod_eq_of_lt small
  by_cases past : e.file_size < off
  · have none : min n (e.file_size - off) = 0 := by omega
    refine ⟨e.clus_cnt, regular.cursor.lt, ?_⟩
    rw [eread, if_pos (.inl past), none, regular.cursor.seek_self]
    rfl
  · have count : (if e.file_size < off + n then e.file_size - off else n) =
        min n (e.file_size - off) := by
      split <;> omega
    obtain ⟨k, hk, run⟩ := @ereadFrom_run _ _ _ _ regular.clusters regular.cursor
      (min n (e.file_size - off)) (min n (e.file_size - off) + 1) 0 off (by omega) (by omega) (by omega)
    refine ⟨k, hk, ?_⟩
    rw [eread, whole, if_neg (by simp [regular.file]; omega), count, Machine.bind_of_ok run]
    simp

/-- Any number of reads. -/
theorem ereads_run {reads : List (Nat × Nat)} (small : ∀ r ∈ reads, r.1 + r.2 < 2 ^ 32)
    (regular : Regular fat d cs e) : ereads fat reads e d =
      .ok (reads.map fun (off, n) => (lowInt (min n (e.file_size - off)),
        (fileBytes fat d cs).window off (min n (e.file_size - off))), d) := by
  induction reads generalizing e with
  | nil => rfl
  | cons r rest ih =>
    obtain ⟨k, hk, run⟩ := eread_run regular (small r List.mem_cons_self)
    have next := ih (fun r hr => small r (List.mem_cons_of_mem _ hr)) (e := e.seek cs k)
      { regular with cursor := regular.cursor.seek hk }
    rw [ereads]
    refine (Machine.bind_of_ok run).trans ?_
    dsimp only
    rw [Machine.bind_of_ok next]
    rfl

/-- A write within the chain: its bytes are laid down in those of the file, and the
rest of the disk is left alone. -/
theorem ewrite_run (regular : Regular fat d cs e) (writable : e.attr &&& ATTR_READ_ONLY = 0)
    {off : Nat} (start : off ≤ e.file_size)
    (room : off + bytes.length ≤ cs.length * fat.byts_per_clus)
    (small : off + bytes.length < 2 ^ 32) : ∃ k < cs.length, ∃ dirty d',
    ewrite fat e (.ofBytes bytes) off bytes.length d = .ok ((lowInt bytes.length,
      { e.seek cs k with file_size := max e.file_size (off + bytes.length), dirty }), d') ∧
    (∀ i < cs.length * fat.byts_per_clus,
      fileBytes fat d' cs i = (fileBytes fat d cs).blit off bytes i) ∧
    ∀ a, Outside fat cs a → d' a = d a := by
  obtain ⟨k, hk, d', run, there, away⟩ := @ewriteFrom_run _ _ _ _ bytes regular.clusters
    regular.cursor (bytes.length + 1) 0 off (by omega) (by omega) (by omega) (by omega)
  rw [List.drop_zero] at there
  have whole : u32 (off + bytes.length) = off + bytes.length := Nat.mod_eq_of_lt small
  have begun : e.first_clus ≠ 0 := by
    obtain ⟨lt, first⟩ := List.getElem?_eq_some_iff.mp regular.cursor.first
    have low := (regular.clusters.range _ (List.getElem_mem lt)).1
    rw [first] at low
    omega
  have accepted : ¬(e.file_size < off ∨ u32 (off + bytes.length) < off ∨
      0xffffffff < off + bytes.length ∨ e.attr &&& ATTR_READ_ONLY ≠ 0) := by
    rw [whole]
    simp only [writable, ne_eq, not_true_eq_false, or_false]
    omega
  have wrote : ewrite fat e (.ofBytes bytes) off bytes.length d = .ok ((lowInt bytes.length,
      if 0 < bytes.length ∧ e.file_size < off + bytes.length then
        { e.seek cs k with file_size := off + bytes.length, dirty := true } else e.seek cs k), d') := by
    rw [ewrite, if_neg accepted, if_neg begun, pure_bind, Machine.bind_of_ok run]
    dsimp only
    rw [Nat.sub_zero]
    rfl
  by_cases grows : 0 < bytes.length ∧ e.file_size < off + bytes.length
  · refine ⟨k, hk, true, d', ?_, there, away⟩
    rw [wrote, if_pos grows, Nat.max_eq_right (by omega)]
  · refine ⟨k, hk, e.dirty, d', ?_, there, away⟩
    rw [wrote, if_neg grows, Nat.max_eq_left (by omega)]
    rfl

/-- Changes of the file's own bytes, and of its size within the chain, keep it regular. -/
theorem Regular.resized (regular : Regular fat d cs e) (away : ∀ a, Outside fat cs a → d' a = d a)
    {k : Nat} (hk : k < cs.length) {file_size : Nat} (covered : file_size ≤ cs.length * fat.byts_per_clus)
    (narrow : file_size < 2 ^ 32) (dirty : Bool) :
    Regular fat d' cs { e.seek cs k with file_size, dirty } where
  clusters := regular.clusters.of_outside away
  cursor := ⟨(regular.cursor.seek hk).first, (regular.cursor.seek hk).here⟩
  file := regular.file
  covered := covered
  narrow := narrow

/-- A write within the chain leaves the rest of the disk alone, and reads see the old bytes
with the written ones laid down. A file marked read-only is not written. -/
theorem ewrite_ereads (regular : Regular fat d cs e) {off : Nat} (start : off ≤ e.file_size)
    (room : off + bytes.length ≤ cs.length * fat.byts_per_clus)
    (small : off + bytes.length < 2 ^ 32) :
    (e.attr &&& ATTR_READ_ONLY = 0 → ∃ e' d',
      ewrite fat e (.ofBytes bytes) off bytes.length d = .ok ((lowInt bytes.length, e'), d') ∧
      e'.file_size = max e.file_size (off + bytes.length) ∧
      (∀ a < fat.first_data_sec * BSIZE, d' a = d a) ∧ (∀ a, Outside fat cs a → d' a = d a) ∧
      ∀ reads : List (Nat × Nat), (∀ r ∈ reads, r.1 + r.2 < 2 ^ 32) →
        ereads fat reads e' d' =
          .ok (reads.map fun (off2, n2) => (lowInt (min n2 (e'.file_size - off2)),
            ((fileBytes fat d cs).blit off bytes).window off2 (min n2 (e'.file_size - off2))), d')) ∧
    (e.attr &&& ATTR_READ_ONLY ≠ 0 →
      ewrite fat e (.ofBytes bytes) off bytes.length d = .ok ((-1, e), d)) := by
  refine ⟨fun writable => ?_, fun guarded => ?_⟩
  · obtain ⟨k, hk, dirty, d', run, there, away⟩ := ewrite_run regular writable start room small
    have narrow := regular.narrow
    have covered := regular.covered
    have tables : ∀ a < fat.first_data_sec * BSIZE, Outside fat cs a := fun a low c _ =>
      .inl (lt_of_lt_of_le low (Nat.mul_le_mul_right _ (Nat.le_add_left _ _)))
    refine ⟨_, d', run, rfl, fun a low => away a (tables a low), away, fun reads within => ?_⟩
    rw [ereads_run within (regular.resized away hk (by omega) (by omega) dirty)]
    congr 2
    refine List.map_congr_left fun r hr => ?_
    obtain ⟨off2, n2⟩ := r
    dsimp only
    congr 1
    refine Memory.window_congr fun i hi => there _ ?_
    omega
  · have refused : e.file_size < off ∨ u32 (off + bytes.length) < off ∨
        0xffffffff < off + bytes.length ∨ e.attr &&& ATTR_READ_ONLY ≠ 0 :=
      .inr (.inr (.inr guarded))
    rw [ewrite, if_pos refused]
    rfl

/-- A file of one cluster. -/
def shortFile : Dirent := { bareRoot with attr := ATTR_ARCHIVE }

theorem shortFile_regular (attr : Nat) (file : attr &&& ATTR_DIRECTORY = 0) :
    Regular bareVolume bareDisk [2] { shortFile with attr } where
  clusters := bareRoot_clusters
  cursor := ⟨rfl, rfl⟩
  file := by simp [Dirent.isDir, file]
  covered := Nat.zero_le _
  narrow := Nat.two_pow_pos 32

theorem ewrite_ereads_short : ∃ e' d',
    ewrite bareVolume shortFile (.ofBytes [1, 2, 3]) 0 3 bareDisk = .ok ((3, e'), d') ∧
      ereads bareVolume [(1, 5)] e' d' = .ok ([(2, [2, 3])], d') := by
  obtain ⟨e', d', run, size, -, -, reads⟩ := (@ewrite_ereads _ _ _ _ [1, 2, 3]
    (shortFile_regular ATTR_ARCHIVE (by decide)) 0 (by decide) (by decide) (by decide)).1 (by decide)
  have same : e'.file_size = 3 := size
  have read := reads [(1, 5)] (by decide)
  rw [same] at read
  exact ⟨e', d', run, read⟩

/-- A file marked read-only is not written. -/
theorem ewrite_read_only : Regular bareVolume bareDisk [2]
      { shortFile with attr := ATTR_ARCHIVE ||| ATTR_READ_ONLY } ∧
    ewrite bareVolume { shortFile with attr := ATTR_ARCHIVE ||| ATTR_READ_ONLY } (.ofBytes [1]) 0 1
      bareDisk =
      .ok ((-1, { shortFile with attr := ATTR_ARCHIVE ||| ATTR_READ_ONLY }), bareDisk) :=
  ⟨shortFile_regular _ (by decide), rfl⟩

end AvxKernel.Fat
