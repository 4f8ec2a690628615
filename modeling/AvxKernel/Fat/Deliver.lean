import AvxKernel.Fat.File

/-! Reads into the memory of a process, which need not take them whole. -/
namespace AvxKernel.Fat

/-- Where the bytes of a read go: for an offset into the buffer and a count, how many bytes
`either_copyout` has stored when it returns, and whether it has stored all of them. -/
structure Sink where
  copy : Nat → Nat → Nat × Bool

/-- What is left of the buffer. -/
def Sink.from (buf : Sink) (k : Nat) : Sink where
  copy off n := buf.copy (k + off) n

/-- A buffer that takes everything. -/
def Sink.whole : Sink where
  copy _ n := (n, true)

/-- The transfers of `rw_clus`, as far as the first that fails: the number of bytes that
count as read, and those that have been stored. -/
def deliver (buf : Sink) (b : Disk) (n : Nat) : List (Nat × Nat × Nat) → Nat × List UInt8
  | [] => (n, [])
  | (a, tot, m) :: rest =>
    let (k, all) := buf.copy tot m
    if all then
      let (r, bytes) := deliver buf b n rest
      (r, b.window a m ++ bytes)
    else
      (tot, b.window a k)

variable (fat : Geometry)

/-- `rw_clus` with `write` clear. -/
def rw_clus_deliver (buf : Sink) (cluster off n : Nat) : Machine Disk (Nat × List UInt8) :=
  if fat.byts_per_clus < u32 (off + n) then
    Machine.panic "offset out of range"
  else do
    let sec ← first_sec_of_clus fat cluster
    let b ← get
    return deliver buf b n (rounds n n (u32 (sec + off / BSIZE)) (off % BSIZE) 0)

/-- The loop of `eread`: `tot` when it ends, and the bytes stored. -/
def ereadsFrom (buf : Sink) (n : Nat) :
    Nat → Dirent → Nat → Nat → Machine Disk (Nat × List UInt8 × Dirent)
  | 0, _, _, _ => Machine.halt .diverge
  | limit + 1, entry, tot, off =>
    if entry.cur_clus < FAT32_EOC ∧ tot < n then do
      let (_, entry) ← reloc_clus fat entry off false
      let m := min (fat.byts_per_clus - off % fat.byts_per_clus) (n - tot)
      let (r, bytes) ← rw_clus_deliver fat (buf.from tot) entry.cur_clus (off % fat.byts_per_clus) m
      if r ≠ m then
        return (tot, bytes, entry)
      else
        let (tot, rest, entry) ← ereadsFrom buf n limit entry (tot + m) (u32 (off + m))
        return (tot, bytes ++ rest, entry)
    else
      return (tot, [], entry)

/-- `eread` with `user_dst` set: the return value, the bytes stored and the entry. -/
def ereadInto (entry : Dirent) (buf : Sink) (off n : Nat) : Machine Disk (Int × List UInt8 × Dirent) :=
  if entry.file_size < off ∨ u32 (off + n) < off ∨ entry.isDir then
    return (0, [], entry)
  else do
    let n := if entry.file_size < u32 (off + n) then entry.file_size - off else n
    let (tot, bytes, entry) ← ereadsFrom fat buf n (n + 1) entry 0 off
    return (lowInt tot, bytes, entry)

/-! ### A buffer that takes everything -/

variable {fat}

theorem deliver_whole (b : Disk) (n : Nat) (rs : List (Nat × Nat × Nat)) :
    deliver .whole b n rs = (n, rs.flatMap fun (a, _, m) => b.window a m) := by
  induction rs with
  | nil => rfl
  | cons round rest ih =>
    change (let (r, bytes) := deliver .whole b n rest
      (r, b.window round.1 round.2.2 ++ bytes)) = _
    rw [ih]
    rfl

/-- The rounds move what is asked for. -/
theorem rounds_length (b : Disk) {n limit sec off tot : Nat} (enough : n - tot ≤ limit) :
    ((rounds n limit sec off tot).flatMap fun (a, _, m) => b.window a m).length = n - tot := by
  induction limit generalizing sec off tot with
  | zero =>
    have none : n - tot = 0 := by omega
    rw [none]
    rfl
  | succ limit ih =>
    rw [rounds]
    split
    · next more =>
      have within : off % BSIZE < BSIZE := Nat.mod_lt _ (by decide)
      have step : 0 < min (BSIZE - off % BSIZE) (n - tot) := by omega
      rw [List.flatMap_cons, List.length_append, ih (by omega), Memory.window_length]
      omega
    · next done =>
      have none : n - tot = 0 := by omega
      rw [none]
      rfl

theorem rw_clus_deliver_whole (c off n : Nat) :
    rw_clus_deliver fat .whole c off n = (do
      let bytes ← rw_clus_read fat c off n
      return (n, bytes)) := by
  rw [rw_clus_deliver, rw_clus_read]
  split
  · rfl
  · simp only [bind_assoc, deliver_whole, pure_bind]

theorem rw_clus_read_length {c off n : Nat} {bytes : List UInt8} {d d' : Disk}
    (run : rw_clus_read fat c off n d = .ok (bytes, d')) : bytes.length = n ∧ d' = d := by
  rw [rw_clus_read, Machine.ite_run] at run
  split at run
  · cases run
  · obtain ⟨sec, u, first, run⟩ := Machine.bind_ok.mp run
    rw [first_sec_of_clus, Machine.ite_run] at first
    split at first
    · cases first
    · cases first
      cases run
      exact ⟨rounds_length d (by omega), rfl⟩

theorem ereadsFrom_whole {n limit : Nat} {e : Dirent} {tot off : Nat} (begun : tot ≤ n) (d : Disk) :
    ereadsFrom fat .whole n limit e tot off d = (do
      let (bytes, e) ← ereadFrom fat n limit e tot off
      return (tot + bytes.length, bytes, e)) d := by
  induction limit generalizing e tot off d with
  | zero => rfl
  | succ limit ih =>
    rw [ereadsFrom, ereadFrom]
    split
    · next more =>
      cases moved : reloc_clus fat e off false d with
      | error stop => simp only [Machine.bind_of_error moved, bind_assoc]
      | ok result =>
        obtain ⟨⟨_, e'⟩, d'⟩ := result
        simp only [Machine.bind_of_ok moved, bind_assoc]
        have rest : Sink.whole.from tot = .whole := rfl
        rw [rest, rw_clus_deliver_whole]
        simp only [bind_assoc, pure_bind]
        generalize step : min (fat.byts_per_clus - off % fat.byts_per_clus) (n - tot) = m
        cases read : rw_clus_read fat e'.cur_clus (off % fat.byts_per_clus) m d' with
        | error stop => simp only [Machine.bind_of_error read]
        | ok result =>
          obtain ⟨bytes, d''⟩ := result
          obtain ⟨length, -⟩ := rw_clus_read_length read
          simp only [Machine.bind_of_ok read, ne_eq, not_true_eq_false, if_false]
          refine (Machine.bind_congr_run (ih (by omega) d'')).trans ?_
          simp only [bind_assoc, pure_bind, List.length_append, length, Nat.add_assoc]
    · rfl

/-- For such a buffer this is the `eread` of the kernel's own buffers. -/
theorem ereadInto_whole (e : Dirent) (off n : Nat) : ereadInto fat e .whole off n = eread fat e off n := by
  funext d
  rw [ereadInto, eread]
  split
  · rfl
  · dsimp only
    generalize (if e.file_size < u32 (off + n) then e.file_size - off else n) = n
    refine (Machine.bind_congr_run (ereadsFrom_whole (Nat.zero_le n) d)).trans ?_
    simp only [bind_assoc, pure_bind, Nat.zero_add]

/-! ### A buffer that ends -/

/-- Of the `n` bytes that are to be stored the buffer takes the first `q`. -/
structure Sink.Stops (buf : Sink) (n q : Nat) : Prop where
  le : q ≤ n
  copy : ∀ k m, k ≤ q → k + m ≤ n → buf.copy k m = (min m (q - k), decide (m ≤ q - k))

/-- What counts as read of a read that stops: whole clusters. -/
def counted (fat : Geometry) (off n q : Nat) : Nat :=
  if q = n then n else (off + q) / fat.byts_per_clus * fat.byts_per_clus - off

theorem counted_le (off n q : Nat) : counted fat off n q ≤ q := by
  have := Nat.div_mul_le_self (off + q) fat.byts_per_clus
  rw [counted]
  split <;> omega

theorem Sink.Stops.part {buf : Sink} {n q tot m : Nat} (h : buf.Stops n q) (begun : tot ≤ q) (fits : tot + m ≤ n) :
    (buf.from tot).Stops m (min m (q - tot)) where
  le := Nat.min_le_left _ _
  copy k j low inside := by
    have here := h.copy (tot + k) j (by omega) (by omega)
    have count : min j (q - (tot + k)) = min j (min m (q - tot) - k) := by omega
    have all : (j ≤ q - (tot + k)) = (j ≤ min m (q - tot) - k) := by
      apply propext
      omega
    rw [Sink.from]
    dsimp only
    rw [here, count]
    simp only [all]

theorem rounds_done {n limit sec off tot : Nat} (done : n ≤ tot) : rounds n limit sec off tot = [] := by
  cases limit with
  | zero => rfl
  | succ limit => rw [rounds, if_neg (Nat.not_lt.mpr done)]

theorem deliver_stops {buf : Sink} {n q limit sec off tot : Nat} (h : buf.Stops n q) (b : Disk) (begun : tot ≤ q)
    (enough : n - tot ≤ limit) (low : sec * BSIZE + off % BSIZE + (n - tot) ≤ 2 ^ 32 * BSIZE) :
    ∃ r, deliver buf b n (rounds n limit sec off tot) =
      (r, b.window (sec * BSIZE + off % BSIZE) (q - tot)) ∧ (r = n ↔ q = n) := by
  have le := h.le
  induction limit generalizing sec off tot with
  | zero =>
    have none : q - tot = 0 := by omega
    refine ⟨n, ?_, by omega⟩
    rw [none]
    rfl
  | succ limit ih =>
    rcases Nat.lt_or_ge tot n with more | done
    · obtain ⟨m, pos, fits, cons, next⟩ := rounds_cons limit more low
      have copy := h.copy tot m begun (by omega)
      rw [cons, deliver, copy]
      by_cases all : m ≤ q - tot
      · -- the round is stored whole
        have split : q - tot = m + (q - (tot + m)) := by omega
        obtain ⟨r, rest, same⟩ : ∃ r, deliver buf b n (rounds n limit (u32 (sec + 1)) (off + m) (tot + m)) =
            (r, b.window (sec * BSIZE + off % BSIZE + m) (q - (tot + m))) ∧ (r = n ↔ q = n) := by
          rcases Nat.lt_or_ge m (n - tot) with others | last
          · rw [← next others]
            exact ih (by omega) (by omega) (by rw [next others]; omega)
          · have none : q - (tot + m) = 0 := by omega
            refine ⟨n, ?_, by omega⟩
            rw [rounds_done (by omega), none]
            rfl
        refine ⟨r, ?_, same⟩
        dsimp only
        rw [rest, if_pos (decide_eq_true all), split, Memory.window_append]
      · have part : min m (q - tot) = q - tot := by omega
        refine ⟨tot, ?_, by omega⟩
        dsimp only
        rw [if_neg (by rw [decide_eq_true_eq]; exact all), part]
    · have none : q - tot = 0 := by omega
      refine ⟨n, ?_, by omega⟩
      rw [rounds_done done, none]
      rfl

theorem rw_clus_deliver_stops {buf : Sink} {c off n q : Nat} (h : buf.Stops n q) (range : fat.InRange c) (pos : 0 < n)
    (inside : off + n ≤ fat.byts_per_clus) (d : Disk) :
    ∃ r, rw_clus_deliver fat buf c off n d = .ok ((r, d.window (fat.clusterAt c + off) q), d) ∧ (r = n ↔ q = n) := by
  have small := fat.byts_per_clus_lt
  obtain ⟨start, low⟩ := range.sector pos inside
  obtain ⟨r, run, same⟩ := @deliver_stops buf n q n
    (u32 ((c - 2) * fat.sec_per_clus + fat.first_data_sec + off / BSIZE)) (off % BSIZE) 0 h d (Nat.zero_le q)
    (Nat.le_refl _) (by rw [start]; omega)
  refine ⟨r, ?_, same⟩
  rw [rw_clus_deliver, u32, Nat.mod_eq_of_lt (by omega), if_neg (by omega),
    Machine.bind_of_ok (first_sec_of_clus_run range), Machine.bind_of_ok (Machine.get_run d), run, start]
  rfl

section Chain

variable {cs : List Nat} {d : Disk} {e : Dirent}

/-- A step that is stored whole counts; one that is not ends the count. -/
theorem counted_step {off n tot q m : Nat} (begun : tot ≤ q) (le : q ≤ n)
    (step : min (fat.byts_per_clus - off % fat.byts_per_clus) (n - tot) = m) :
    (tot + m ≤ q → tot + counted fat off (n - tot) (q - tot) =
      tot + m + counted fat (off + m) (n - (tot + m)) (q - (tot + m))) ∧
    (q < tot + m → counted fat off (n - tot) (q - tot) = 0) := by
  have pos := @Geometry.byts_per_clus_pos fat
  have within := Nat.mod_lt off pos
  have parts := Nat.mod_add_div off fat.byts_per_clus
  refine ⟨fun whole => ?_, fun short => ?_⟩
  · rw [counted, counted]
    by_cases all : q = n
    · rw [if_pos (by omega), if_pos (by omega)]
      omega
    · -- the step ends with its cluster
      have edge : off + m = fat.byts_per_clus * (off / fat.byts_per_clus + 1) := by
        rw [Nat.mul_add]
        omega
      have stop : off + (q - tot) = off + m + (q - (tot + m)) := by omega
      have behind : off + m ≤ (off + m + (q - (tot + m))) / fat.byts_per_clus * fat.byts_per_clus := by
        rw [edge, Nat.add_comm _ (q - (tot + m)), Nat.add_mul_div_left _ _ pos, Nat.add_mul, Nat.mul_comm]
        exact Nat.le_add_left _ _
      rw [if_neg (by omega), if_neg (by omega), stop]
      omega
  · have same : (off + (q - tot)) / fat.byts_per_clus = off / fat.byts_per_clus :=
      (chain_place (by omega)).1
    rw [counted, if_neg (by omega), same, Nat.mul_comm]
    omega

theorem ereadsFrom_stops {buf : Sink} {n q limit tot off : Nat} (h : Clusters fat d cs) (cursor : Cursor e cs)
    (stops : buf.Stops n q) (begun : tot ≤ q) (fit : off + (n - tot) ≤ cs.length * fat.byts_per_clus)
    (small : off + (n - tot) < 2 ^ 32) (enough : n - tot < limit) : ∃ k < cs.length,
    ereadsFrom fat buf n limit e tot off d = .ok ((tot + counted fat off (n - tot) (q - tot),
      (fileBytes fat d cs).window off (q - tot), e.seek cs k), d) := by
  have le := stops.le
  induction limit generalizing e tot off with
  | zero => omega
  | succ limit ih =>
    have range : fat.InRange e.cur_clus := by
      obtain ⟨lt, here⟩ := List.getElem?_eq_some_iff.mp cursor.here
      exact here ▸ h.range _ (List.getElem_mem _)
    rcases Nat.lt_or_ge tot n with more | done
    · obtain ⟨pos, within⟩ := step_length fat off (show 0 < n - tot by omega)
      generalize step : min (fat.byts_per_clus - off % fat.byts_per_clus) (n - tot) = m at pos within
      have inside : off < cs.length * fat.byts_per_clus := by omega
      have moved := reloc_clus_inside h cursor false inside
      obtain ⟨r, read, same⟩ := rw_clus_deliver_stops (stops.part begun (show tot + m ≤ n by omega))
        (h.chain_range inside).2 pos within d
      have window : ∀ k ≤ m, d.window (fat.byteAt cs off) k = (fileBytes fat d cs).window off k := fun k hk =>
        Memory.window_eq fun i hi => by
          have place : fat.byteAt cs (off + i) = fat.byteAt cs off + i := byteAt_add (by omega)
          rw [fileBytes, place]
      obtain ⟨whole, short⟩ := counted_step begun le step
      rw [ereadsFrom, if_pos ⟨range.lt_EOC, more⟩, Machine.bind_of_ok moved]
      dsimp only
      rw [step]
      rcases Nat.lt_or_ge q (tot + m) with cut | full
      · refine ⟨off / fat.byts_per_clus, chain_cluster inside, ?_⟩
        refine (Machine.bind_of_ok read).trans ?_
        have here : min m (q - tot) = q - tot := by omega
        rw [if_pos (fun all => by have := same.mp all; omega), short cut, here]
        refine congrArg (fun bytes => Except.ok ((tot, bytes, _), d)) ?_
        exact window (q - tot) (by omega)
      · have next : u32 (off + m) = off + m := Nat.mod_eq_of_lt (by omega)
        have all : min m (q - tot) = m := by omega
        obtain ⟨k, hk, run⟩ := @ih _ (tot + m) (off + m) (cursor.seek (chain_cluster inside)) full
          (by omega) (by omega) (by omega)
        have split : q - tot = m + (q - (tot + m)) := by omega
        refine ⟨k, hk, ?_⟩
        refine (Machine.bind_of_ok read).trans ?_
        rw [if_neg (not_not_intro (same.mpr all)), next]
        refine (Machine.bind_of_ok run).trans ?_
        rw [whole full]
        dsimp only
        rw [all, split, Memory.window_append, ← window m (Nat.le_refl m)]
        rfl
    · have none : n - tot = 0 := by omega
      have nothing : q - tot = 0 := by omega
      refine ⟨e.clus_cnt, cursor.lt, ?_⟩
      rw [ereadsFrom, if_neg (by omega), none, nothing, cursor.seek_self]
      rfl

/-- A read of a regular file to a buffer that takes what the file has of it, or ends before. -/
theorem ereadInto_stops {buf : Sink} {off n q : Nat} (regular : Regular fat d cs e) (small : off + n < 2 ^ 32)
    (stops : buf.Stops (min n (e.file_size - off)) q) : ∃ k < cs.length,
    ereadInto fat e buf off n d = .ok ((lowInt (counted fat off (min n (e.file_size - off)) q),
      (fileBytes fat d cs).window off q, e.seek cs k), d) := by
  have covered := regular.covered
  have whole : u32 (off + n) = off + n := Nat.mod_eq_of_lt small
  by_cases past : e.file_size < off
  · have none : min n (e.file_size - off) = 0 := by omega
    have nothing : q = 0 := Nat.le_zero.mp (none ▸ stops.le)
    refine ⟨e.clus_cnt, regular.cursor.lt, ?_⟩
    rw [ereadInto, if_pos (.inl past), none, nothing, regular.cursor.seek_self]
    rfl
  · have count : (if e.file_size < off + n then e.file_size - off else n) = min n (e.file_size - off) := by
      split <;> omega
    obtain ⟨k, hk, run⟩ := @ereadsFrom_stops _ _ _ _ _ _ q _ 0 off regular.clusters regular.cursor stops
      (Nat.zero_le q) (by omega) (by omega) (Nat.lt_succ_self _)
    refine ⟨k, hk, ?_⟩
    rw [ereadInto, whole, if_neg (by simp [regular.file]; omega), count]
    refine (Machine.bind_of_ok run).trans ?_
    rw [Nat.zero_add, Nat.sub_zero, Nat.sub_zero]
    rfl

end Chain

end AvxKernel.Fat
