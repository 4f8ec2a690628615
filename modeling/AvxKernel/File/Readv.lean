import AvxKernel.File.Gather

/-! Reads to buffers of a process, one by one and all at once. -/
namespace AvxKernel.File

open Fat (Geometry Disk Dirent Sink SameFile Contents portion counted counted_le)
open Fd (cstr)
open Ipc (User)
open Vm (MAXVA)

variable {fat : Geometry} {s t : Caller} {p i n m q len more iov : Nat} {pr : User} {place : Nat → Nat}
  {cs : List Nat} {data : List UInt8} {v : Memory} {b : Iovec} {bufs front back : List Iovec} {r : Int}

/-- An open file of bytes, to be read by a process. -/
structure Reads (fat : Geometry) (cs : List Nat) (data : List UInt8) (p : Nat) (s : Caller) : Prop where
  plain : s.file.Plain p
  contents : Contents fat cs data s.file.disk s.file.ep

/-- Behind what is asked for the offset is a `uint`, and what the file has of it is an `int`. -/
structure Room (f : Opened) (n : Nat) : Prop where
  offset : f.off + n < 2 ^ 32
  count : min n (f.ep.file_size - f.off) < 2 ^ 31

theorem lowInt_small (h : n < 2 ^ 31) : lowInt n = n := by
  rw [lowInt, u32, Nat.mod_eq_of_lt (by omega), if_pos h]

theorem uint_lowInt (h : n < 2 ^ 32) : uint (lowInt n) = n := by
  rw [uint, lowInt, u32, Nat.mod_eq_of_lt h]
  split <;> omega

theorem addInt_small (h : len + n < 2 ^ 64) : addInt len n = len + n := by
  rw [addInt]
  omega

theorem addInt_addInt (len : Nat) (r r' : Int) : addInt (addInt len r) r' = addInt len (r + r') := by
  rw [addInt, addInt, addInt]
  omega

theorem addInt_lt (len : Nat) (r : Int) : addInt len r < 2 ^ 64 := by
  rw [addInt]
  omega

theorem SameEffect.refl (s : Caller) : SameEffect s s := ⟨⟨.refl _, rfl⟩, rfl⟩

theorem SameEffect.trans {u : Caller} (h : SameEffect s t) (h' : SameEffect t u) : SameEffect s u := by
  obtain ⟨⟨same, file⟩, memory⟩ := h
  obtain ⟨⟨same', file'⟩, memory'⟩ := h'
  refine ⟨⟨same.trans same', ?_⟩, memory'.trans memory⟩
  rw [file', file]

/-! ### Calls that all answer alike -/

section Fixed

variable {call : Nat → Int → Machine Caller Int} {Inv : Caller → Prop}

/-- A loop of calls that give the same result and keep a property. -/
theorem eachBuffer_fixed
    (calls : ∀ j, i ≤ j → j < i + more → ∀ s, Inv s → ∃ t,
      call (iovec v j).iov_base (lowInt (iovec v j).iov_len) s = .ok (r, t) ∧ Inv t)
    (start : Inv s) (inside : i + more ≤ IOVMAX) (small : len < 2 ^ 64) : ∃ t,
    eachBuffer call v more i len s = .ok (addInt len (more * r), t) ∧ Inv t := by
  induction more generalizing i len s with
  | zero =>
    have stays : addInt len ((0 : Nat) * r) = len := by
      rw [addInt]
      omega
    refine ⟨s, ?_, start⟩
    rw [stays]
    rfl
  | succ more ih =>
    obtain ⟨t, call, kept⟩ := calls i (Nat.le_refl i) (by omega) s start
    obtain ⟨u, run, kept'⟩ := @ih t (i + 1) (addInt len r) (fun j low high => calls j (by omega) (by omega)) kept
      (by omega) (addInt_lt len r)
    refine ⟨u, ?_, kept'⟩
    have sum : r + (more : Int) * r = (more + 1 : Nat) * r := by
      rw [Nat.cast_add, Nat.cast_one, Int.add_mul, Int.one_mul, Int.add_comm]
    rw [eachBuffer, if_neg (by omega), Machine.bind_of_ok call, run, addInt_addInt, sum]

end Fixed

/-! ### One read -/

theorem portion_eq (data : List UInt8) {off : Nat} (small : off + n < 2 ^ 32) :
    portion data off n = (data.drop off).take n := if_pos small

theorem portion_length {off : Nat} (small : off + n < 2 ^ 32) :
    (portion data off n).length = min n (data.length - off) := by
  rw [portion_eq data small, List.length_take, List.length_drop]

/-- A read in two parts; where the first is short the second is empty. -/
theorem portion_add {off : Nat} (small : off + (n + m) < 2 ^ 32) :
    let first := portion data off n
    let rest := portion data (off + first.length) m
    portion data off (n + m) = first ++ rest ∧ (rest ≠ [] → first.length = n) := by
  intro first rest
  have length : first.length = min n (data.length - off) := portion_length (by omega)
  have tail : rest = (data.drop (off + first.length)).take m := portion_eq data (by omega)
  have head : first = (data.drop off).take n := portion_eq data (by omega)
  rw [portion_eq data small, List.take_add, List.drop_drop, tail, ← head, length]
  rcases Nat.le_total n (data.length - off) with full | short
  · rw [Nat.min_eq_left full]
    exact ⟨rfl, fun _ => rfl⟩
  · have gone : data.length ≤ off + (data.length - off) := by omega
    rw [Nat.min_eq_right short, List.drop_eq_nil_of_le gone,
      List.drop_eq_nil_of_le (gone.trans (Nat.add_le_add_left short off)), List.take_nil]
    exact ⟨rfl, fun some => absurd rfl some⟩

/-- The caller behind a read that has counted so many bytes. -/
def Caller.read (s : Caller) (place : Nat → Nat) (bytes : List UInt8) (count : Nat) (ep : Dirent) : Caller where
  file := { s.file with ep, off := s.file.off + count }
  pr := storeAt s.pr place bytes

theorem Opened.Plain.fileread_run {t : Opened} {buf : Sink} {n r : Int} {bytes : List UInt8} {ep : Dirent}
    {d : Disk} (plain : t.Plain p)
    (run : Fat.ereadInto fat t.ep buf t.off (uint n) t.disk = .ok ((r, bytes, ep), d)) :
    fileread fat p buf n t = .ok ((r, bytes),
      { t with disk := d, ep, off := if 0 < r then u32 (t.off + r.toNat) else t.off }) := by
  rw [fileread, Machine.bind_of_ok (Machine.get_run t),
    if_neg (by rw [plain.readable]; exact Bool.noConfusion), if_neg plain.none, if_neg plain.bench,
    if_neg plain.zero, if_neg plain.urandom, Machine.bind_of_ok (onDisk_ok run)]
  rfl

/-- How the offset moves behind what has been read. -/
theorem advance {off k : Nat} (small : off + k < 2 ^ 32) :
    (if 0 < (k : Int) then u32 (off + (k : Int).toNat) else off) = off + k := by
  rw [Int.toNat_natCast, u32, Nat.mod_eq_of_lt small]
  split <;> omega

theorem Reads.length (h : Reads fat cs data p s) (small : s.file.off + n < 2 ^ 32) :
    (portion data s.file.off n).length = min n (s.file.ep.file_size - s.file.off) := by
  rw [portion_length small, h.contents.size]

/-- A read stores what the file has as far as the places are there, and counts whole clusters
where they end before. -/
theorem readTo_run (h : Reads fat cs data p s) (room : Room s.file n) (place : Nat → Nat) :
    let xs := portion data s.file.off n
    let q := lead s.pr place xs.length
    ∃ ep, readTo fat p place (lowInt n) s = .ok ((counted fat s.file.off xs.length q : Int),
        s.read place (xs.take q) (counted fat s.file.off xs.length q) ep) ∧
      SameFile s.file.ep ep ∧ Contents fat cs data s.file.disk ep := by
  intro xs q
  obtain ⟨plain, contents⟩ := h
  obtain ⟨offset, count⟩ := room
  obtain ⟨ep, run, same, kept⟩ := contents.ereadInto_stops offset (toUser_stops s.pr place xs.length)
  have le : counted fat s.file.off xs.length q ≤ min n (s.file.ep.file_size - s.file.off) := by
    have length : xs.length = _ := portion_length offset
    rw [← contents.size] at length
    exact (counted_le _ _ _).trans (length ▸ lead_le s.pr place xs.length)
  refine ⟨ep, ?_, same, kept⟩
  have whole : uint (lowInt n) = n := uint_lowInt (by omega)
  have read := plain.fileread_run (n := lowInt n) (by rw [whole]; exact run)
  have value : lowInt (counted fat s.file.off xs.length q) = _ := lowInt_small (le.trans_lt count)
  rw [value, advance (by omega)] at read
  rw [readTo, Machine.bind_of_ok (Machine.get_run s), read]
  rfl

theorem readTo_there (h : Reads fat cs data p s) (room : Room s.file n)
    (there : There s.pr place (portion data s.file.off n).length) : ∃ ep,
    readTo fat p place (lowInt n) s = .ok (((portion data s.file.off n).length : Int),
      s.read place (portion data s.file.off n) (portion data s.file.off n).length ep) ∧
    SameFile s.file.ep ep ∧ Contents fat cs data s.file.disk ep := by
  obtain ⟨ep, run, same, kept⟩ := readTo_run h room place
  have all : counted fat s.file.off (portion data s.file.off n).length (portion data s.file.off n).length = _ :=
    if_pos rfl
  rw [there.lead_eq, List.take_length, all] at run
  exact ⟨ep, run, same, kept⟩

/-- Where the first place is not there nothing is read. -/
theorem readTo_away (h : Reads fat cs data p s) (room : Room s.file n) (away : s.pr.reaches (place 0) = false) : ∃ ep,
    readTo fat p place (lowInt n) s = .ok (0, s.read place [] 0 ep) ∧
    SameFile s.file.ep ep ∧ Contents fat cs data s.file.disk ep := by
  obtain ⟨ep, run, same, kept⟩ := readTo_run h room place
  have none : lead s.pr place (portion data s.file.off n).length = 0 := by
    cases (portion data s.file.off n).length with
    | zero => rfl
    | succ k => rw [lead_succ, if_neg (by rw [away]; exact Bool.noConfusion)]
  have nothing : counted fat s.file.off (portion data s.file.off n).length 0 = 0 :=
    Nat.le_zero.mp (counted_le _ _ _)
  rw [none, List.take_zero, nothing] at run
  exact ⟨ep, run, same, kept⟩

theorem Reads.read (h : Reads fat cs data p s) {ep : Dirent} (same : SameFile s.file.ep ep)
    (kept : Contents fat cs data s.file.disk ep) (place : Nat → Nat) (bytes : List UInt8) (count : Nat) :
    Reads fat cs data p (s.read place bytes count ep) := by
  have name : (s.read place bytes count ep).file.filename = s.file.filename := by
    obtain ⟨_, _, rfl⟩ := same
    rfl
  obtain ⟨⟨readable, none, bench, zero, urandom⟩, -⟩ := h
  refine ⟨⟨readable, none, ?_, ?_, ?_⟩, kept⟩
  · rw [Opened.Bench, name]
    exact bench
  · rw [name]
    exact zero
  · rw [name]
    exact urandom

/-- A read of nothing, but for where the file was read last. -/
theorem SameEffect.read {ep : Dirent} (same : SameFile s.file.ep ep) (place : Nat → Nat) :
    SameEffect s (s.read place [] 0 ep) := ⟨⟨same, rfl⟩, rfl⟩

theorem There.low (h : There pr (buffer p) n) (base : p < 2 ^ 64) (some : 0 < n) : p < MAXVA := by
  have low := User.reaches_lt (h 0 some)
  rw [buffer, Nat.add_zero, u64, Nat.mod_eq_of_lt base] at low
  exact low

/-- Where nothing is read nothing is copied. -/
theorem Copies.some (h : Reads fat cs data p s) (small : s.file.off + n < 2 ^ 32)
    (copies : Copies s.file p (lowInt n)) : 0 < (portion data s.file.off n).length := by
  have plain := h.plain
  obtain ⟨-, -, bench | zero | urandom | ⟨inside, some⟩⟩ := copies
  · exact absurd bench plain.bench
  · exact absurd zero plain.zero
  · exact absurd urandom plain.urandom
  · have stop : u32 (s.file.off + n) = s.file.off + n := Nat.mod_eq_of_lt small
    rw [h.length small]
    rw [uint_lowInt (by omega), stop] at some
    split at some <;> omega

/-- The first copy is to a place that `copyout` takes. -/
theorem filereadUser_run (h : Reads fat cs data p s) (small : s.file.off + n < 2 ^ 32) (base : b.iov_base < 2 ^ 64)
    (low : b.iov_base ≤ MAXVA ∨ There s.pr (buffer b.iov_base) (portion data s.file.off n).length) :
    filereadUser fat p b.iov_base (lowInt n) s = readTo fat p (buffer b.iov_base) (lowInt n) s := by
  have tame : ¬(MAXVA < b.iov_base ∧ Copies s.file p (lowInt n)) := by
    rintro ⟨wild, copies⟩
    rcases low with low | there
    · exact Nat.not_lt.mpr low wild
    · exact Nat.lt_asymm wild (there.low base (copies.some h small))
  rw [filereadUser, Machine.bind_of_ok (Machine.get_run s), if_neg tame]

theorem readConcat_run (low : place 0 ≤ MAXVA ∨ ¬Copies s.file p r) :
    readConcat fat p place r s = readTo fat p place r s := by
  have tame : ¬(MAXVA < place 0 ∧ Copies s.file p r) := by
    rintro ⟨wild, copies⟩
    exact low.elim (fun low => Nat.not_lt.mpr low wild) fun none => none copies
  rw [readConcat, Machine.bind_of_ok (Machine.get_run s), if_neg tame]


/-! ### The loop -/

/-- What is left of the room behind a read. -/
theorem Room.read {count : Nat} {ep : Dirent} (room : Room s.file (n + m))
    (same : SameFile s.file.ep ep) (place : Nat → Nat) (bytes : List UInt8) (le : count ≤ n) : Room (s.read place bytes count ep).file m := by
  obtain ⟨offset, few⟩ := room
  obtain ⟨_, _, rfl⟩ := same
  refine ⟨?_, ?_⟩
  · change s.file.off + count + m < 2 ^ 32
    omega
  · change min m (s.file.ep.file_size - (s.file.off + count)) < 2 ^ 31
    omega

theorem Room.left (room : Room s.file (n + m)) : Room s.file n := by
  obtain ⟨offset, few⟩ := room
  exact ⟨by omega, by omega⟩

theorem read_concat {xs ys : List UInt8} (le : xs.length ≤ b.iov_len) (full : ys ≠ [] → xs.length = b.iov_len)
    (fits : ys.length ≤ total bufs) (ep ep' : Dirent) :
    (s.read (buffer b.iov_base) xs xs.length ep).read (concat bufs) ys ys.length ep' =
      s.read (concat (b :: bufs)) (xs ++ ys) (xs ++ ys).length ep' := by
  have memory := @storeAt_concat s.pr bufs b xs ys le full fits
  rw [Caller.read, Caller.read, Caller.read, memory, List.length_append, Nat.add_assoc]

/-- Where the bytes that the file has for the buffers find their places, reads of them are
one read of all. -/
theorem eachBuffer_reads (h : Reads fat cs data p s) (named : (List.range' i more).map (iovec v) = bufs)
    (room : Room s.file (total bufs))
    (there : There s.pr (concat bufs) (portion data s.file.off (total bufs)).length) (inside : i + more ≤ IOVMAX)
    (small : len + total bufs < 2 ^ 64) :
    ∃ ep, eachBuffer (filereadUser fat p) v more i len s =
        .ok (len + (portion data s.file.off (total bufs)).length,
          s.read (concat bufs) (portion data s.file.off (total bufs)) (portion data s.file.off (total bufs)).length ep) ∧
      SameFile s.file.ep ep ∧ Contents fat cs data s.file.disk ep := by
  induction more generalizing i len s bufs with
  | zero =>
    subst named
    have none : portion data s.file.off (total []) = [] := portion_eq data room.offset
    refine ⟨s.file.ep, ?_, .refl _, h.contents⟩
    rw [List.range'_zero, List.map_nil, none]
    rfl
  | succ more ih =>
    rw [List.range'_succ, List.map_cons] at named
    obtain ⟨rest, others⟩ : ∃ rest, (List.range' (i + 1) more).map (iovec v) = rest := ⟨_, rfl⟩
    rw [others] at named
    subst named
    rw [total_cons] at room small there ⊢
    have offset := room.offset
    obtain ⟨whole, full⟩ := @portion_add (iovec v i).iov_len (total rest) data s.file.off offset
    have length : (portion data s.file.off (iovec v i).iov_len).length = _ := h.length room.left.offset
    have first : There s.pr (buffer (iovec v i).iov_base) (portion data s.file.off (iovec v i).iov_len).length := by
      intro j lt
      rw [← concat_front (show j < (iovec v i).iov_len by omega)]
      refine there j (lt.trans_le ?_)
      rw [whole, List.length_append]
      exact Nat.le_add_right _ _
    obtain ⟨ep, run, same, kept⟩ := readTo_there h room.left first
    have call := (filereadUser_run h room.left.offset (iovec_base_lt v i) (.inr first)).trans run
    have le : (portion data s.file.off (iovec v i).iov_len).length ≤ (iovec v i).iov_len := by omega
    generalize portion data s.file.off (iovec v i).iov_len = xs at whole full call le first length
    have behind := h.read same kept (buffer (iovec v i).iov_base) xs xs.length
    have room' := room.read same (buffer (iovec v i).iov_base) xs le
    have after : (s.read (buffer (iovec v i).iov_base) xs xs.length ep).file.off = s.file.off + xs.length := rfl
    have fits : (portion data (s.file.off + xs.length) (total rest)).length ≤ total rest := by
      rw [portion_eq data (by omega), List.length_take]
      exact Nat.min_le_left _ _
    have there' : There (s.read (buffer (iovec v i).iov_base) xs xs.length ep).pr (concat rest)
        (portion data (s.file.off + xs.length) (total rest)).length := by
      intro j lt
      have some : portion data (s.file.off + xs.length) (total rest) ≠ [] := List.ne_nil_of_length_pos (by omega)
      have here := there (xs.length + j) (by rw [whole, List.length_append]; omega)
      rw [full some, concat_behind _ (total_some (lt.trans_le fits))] at here
      exact (storeAt_reaches s.pr _ xs _).trans here
    obtain ⟨ep', run', same', kept'⟩ := ih behind others room' there' (by omega)
      (show len + xs.length + total rest < 2 ^ 64 by omega)
    refine ⟨ep', ?_, same.trans same', kept'⟩
    rw [after, read_concat le full fits] at run'
    rw [eachBuffer, if_neg (by omega), Machine.bind_of_ok call, addInt_small (by omega), run',
      whole, List.length_append, Nat.add_assoc]

/-- A buffer whose first place is not there, and for which `copyout` does not panic. -/
def Away (pr : User) (b : Iovec) : Prop := b.iov_base ≤ MAXVA ∧ pr.reaches (buffer b.iov_base 0) = false

instance (pr : User) (b : Iovec) : Decidable (Away pr b) := inferInstanceAs (Decidable (_ ∧ _))

/-- How many bytes there are in the buffers whose first place is there. -/
def reachable (pr : User) (bufs : List Iovec) : Nat := total (bufs.filter fun b => pr.reaches (buffer b.iov_base 0))

theorem reachable_cons (pr : User) (b : Iovec) (bufs : List Iovec) :
    reachable pr (b :: bufs) = (if pr.reaches (buffer b.iov_base 0) then b.iov_len else 0) + reachable pr bufs := by
  rw [reachable, List.filter_cons]
  split
  · exact total_cons _ _
  · exact (Nat.zero_add _).symm

theorem reachable_le (pr : User) (bufs : List Iovec) : reachable pr bufs ≤ total bufs := by
  induction bufs with
  | nil => exact Nat.le_refl 0
  | cons b rest ih =>
    rw [reachable_cons, total_cons]
    split <;> omega

theorem reachable_storeAt (pr : User) (place : Nat → Nat) (bytes : List UInt8) (bufs : List Iovec) :
    reachable (storeAt pr place bytes) bufs = reachable pr bufs := by
  rw [reachable, reachable]
  simp only [storeAt_reaches]

/-- A read of a buffer that is there or is not. -/
theorem filereadUser_gap (h : Reads fat cs data p s) (room : Room s.file b.iov_len) (base : b.iov_base < 2 ^ 64)
    (either : There s.pr (buffer b.iov_base) b.iov_len ∨ Away s.pr b) :
    ∃ (bytes : List UInt8) (count : Nat) (ep : Dirent), filereadUser fat p b.iov_base (lowInt b.iov_len) s =
        .ok ((count : Int), s.read (buffer b.iov_base) bytes count ep) ∧
      SameFile s.file.ep ep ∧ Contents fat cs data s.file.disk ep ∧
      count = min (if s.pr.reaches (buffer b.iov_base 0) then b.iov_len else 0) (data.length - s.file.off) ∧
      (count = 0 → bytes = []) := by
  rcases either with there | ⟨low, away⟩
  · have length : (portion data s.file.off b.iov_len).length = _ := portion_length room.offset
    have first := there.mono (show (portion data s.file.off b.iov_len).length ≤ b.iov_len by omega)
    obtain ⟨ep, run, same, kept⟩ := readTo_there h room first
    refine ⟨_, _, ep, (filereadUser_run h room.offset base (.inr first)).trans run, same, kept, ?_,
      fun none => List.eq_nil_of_length_eq_zero none⟩
    rw [length]
    split
    · rfl
    · next away =>
      have none : b.iov_len = 0 := by
        by_contra some
        exact away (there 0 (Nat.pos_of_ne_zero some))
      rw [none]
  · obtain ⟨ep, run, same, kept⟩ := readTo_away h room away
    refine ⟨[], 0, ep, (filereadUser_run h room.offset base (.inl low)).trans run, same, kept, ?_, fun _ => rfl⟩
    rw [away, if_neg Bool.noConfusion, Nat.zero_min]

/-- Reads of buffers each of which is there or is not get what the former hold of the file. -/
theorem eachBuffer_gaps (h : Reads fat cs data p s) (named : (List.range' i more).map (iovec v) = bufs)
    (room : Room s.file (total bufs))
    (each : ∀ b ∈ bufs, There s.pr (buffer b.iov_base) b.iov_len ∨ Away s.pr b) (inside : i + more ≤ IOVMAX)
    (small : len + total bufs < 2 ^ 64) : ∃ t, eachBuffer (filereadUser fat p) v more i len s =
        .ok (len + min (reachable s.pr bufs) (data.length - s.file.off), t) ∧
      (reachable s.pr bufs = 0 → SameEffect s t) := by
  induction more generalizing i len s bufs with
  | zero =>
    subst named
    have none : min (reachable s.pr []) (data.length - s.file.off) = 0 := Nat.zero_min _
    refine ⟨s, ?_, fun _ => .refl s⟩
    rw [List.range'_zero, List.map_nil, none]
    rfl
  | succ more ih =>
    rw [List.range'_succ, List.map_cons] at named
    obtain ⟨rest, others⟩ : ∃ rest, (List.range' (i + 1) more).map (iovec v) = rest := ⟨_, rfl⟩
    rw [others] at named
    subst named
    rw [total_cons] at room small
    have offset := room.offset
    obtain ⟨bytes, count, ep, call, same, kept, value, stays⟩ :=
      filereadUser_gap h room.left (iovec_base_lt v i) (each (iovec v i) List.mem_cons_self)
    have le : count ≤ (iovec v i).iov_len := by
      rw [value]
      split <;> omega
    have each' : ∀ b ∈ rest, There (s.read (buffer (iovec v i).iov_base) bytes count ep).pr (buffer b.iov_base) b.iov_len ∨
        Away (s.read (buffer (iovec v i).iov_base) bytes count ep).pr b := by
      intro b mem
      refine (each b (List.mem_cons_of_mem _ mem)).imp (fun there j lt => ?_) (fun ⟨low, away⟩ => ⟨low, ?_⟩)
      · exact (storeAt_reaches _ _ _ _).trans (there j lt)
      · exact (storeAt_reaches _ _ _ _).trans away
    have room' := room.read same (buffer (iovec v i).iov_base) bytes le
    obtain ⟨t, run, keeps⟩ := ih (h.read same kept (buffer (iovec v i).iov_base) bytes count) others
      room' each' (by omega) (show len + count + total rest < 2 ^ 64 by omega)
    have left : reachable (s.read (buffer (iovec v i).iov_base) bytes count ep).pr rest = reachable s.pr rest :=
      reachable_storeAt _ _ _ _
    have after : (s.read (buffer (iovec v i).iov_base) bytes count ep).file.off = s.file.off + count := rfl
    rw [left] at keeps run
    rw [after] at run
    refine ⟨t, ?_, fun none => ?_⟩
    · have sum : len + count + min (reachable s.pr rest) (data.length - (s.file.off + count)) =
          len + min (reachable s.pr (iovec v i :: rest)) (data.length - s.file.off) := by
        rw [reachable_cons, value]
        omega
      rw [eachBuffer, if_neg (by omega), Machine.bind_of_ok call, addInt_small (by omega), run, sum]
    · rw [reachable_cons] at none
      have nothing : count = 0 := by
        rw [value]
        omega
      obtain rfl := stays nothing
      subst nothing
      exact (SameEffect.read same _).trans (keeps (by omega))


/-! ### Buffers that end a read -/

variable (fat) in
/-- The buffers end a read in one of them, whether it is one read or several: those in front
are there, those behind take nothing, and what counts reaches as far as the one. -/
structure Ending (s : Caller) (front : List Iovec) (b : Iovec) (back : List Iovec) : Prop where
  there : AllThere s.pr front
  low : b.iov_base ≤ MAXVA
  short : lead s.pr (buffer b.iov_base) b.iov_len < b.iov_len
  away : ∀ b' ∈ back, b'.iov_len = 0 ∨ Away s.pr b'
  counts : total front = 0 ∨ s.file.off + total front ≤
    (s.file.off + total front + lead s.pr (buffer b.iov_base) b.iov_len) / fat.byts_per_clus * fat.byts_per_clus

theorem SameEffect.symm (h : SameEffect s t) : SameEffect t s := by
  obtain ⟨⟨same, file⟩, memory⟩ := h
  refine ⟨⟨same.symm, ?_⟩, memory.symm⟩
  rw [file]

theorem lead_storeAt (pr : User) (bytes : List UInt8) (place' : Nat → Nat) (n : Nat) :
    lead (storeAt pr place bytes) place' n = lead pr place' n := by
  induction n generalizing place' with
  | zero => rfl
  | succ n ih => rw [lead_succ, lead_succ, storeAt_reaches, ih]

theorem Ending.there_front (h : Ending fat s front b back) :
    There s.pr (concat (front ++ b :: back)) (total front + lead s.pr (buffer b.iov_base) b.iov_len) := by
  intro i lt
  rcases Nat.lt_or_ge i (total front) with first | behind
  · rw [concat_left first]
    exact h.there.concat i first
  · obtain ⟨j, rfl⟩ := Nat.exists_eq_add_of_le behind
    have before : j < lead s.pr (buffer b.iov_base) b.iov_len := by omega
    rw [concat_right front (List.cons_ne_nil b back), concat_front (before.trans h.short)]
    exact there_lead _ _ _ j before

/-- The first place that is not there is in the one buffer. -/
theorem Ending.lead_eq (h : Ending fat s front b back)
    (beyond : total front + lead s.pr (buffer b.iov_base) b.iov_len < n) :
    lead s.pr (concat (front ++ b :: back)) n = total front + lead s.pr (buffer b.iov_base) b.iov_len := by
  refine h.there_front.lead_stop ?_ beyond
  rw [concat_right front (List.cons_ne_nil b back), concat_front h.short]
  exact lead_short h.short

theorem buffer_zero_le (addr : Nat) : buffer addr 0 ≤ addr := Nat.mod_le _ _

theorem Ending.first (h : Ending fat s front b back) : concat (front ++ b :: back) 0 ≤ MAXVA := by
  rcases Nat.eq_zero_or_pos (total front) with none | some
  · have place := concat_right front (List.cons_ne_nil b back) 0
    rw [none] at place
    rw [place, concat_front (Nat.zero_lt_of_lt h.short)]
    exact (buffer_zero_le b.iov_base).trans h.low
  · exact (User.reaches_lt (h.there_front 0 (by omega))).le

/-- What is read to the buffers in front and to the one is read to all of them. -/
theorem Ending.stored (h : Ending fat s front b back) {xs : List UInt8} {k : Nat}
    (offset : s.file.off + total (front ++ b :: back) < 2 ^ 32)
    (first : (portion data s.file.off (total front)).length = total front)
    (second : portion data (s.file.off + total front) b.iov_len = xs)
    (le : k ≤ xs.length) (within : k ≤ lead s.pr (buffer b.iov_base) b.iov_len) :
    storeAt (storeAt s.pr (concat front) (portion data s.file.off (total front))) (buffer b.iov_base) (xs.take k) =
      storeAt s.pr (concat (front ++ b :: back)) ((portion data s.file.off (total (front ++ b :: back))).take (total front + k)) := by
  rw [total_append, total_cons] at offset ⊢
  have whole := (@portion_add (total front) (b.iov_len + total back) data s.file.off offset).1
  have rest := (@portion_add b.iov_len (total back) data (s.file.off + total front) (by omega)).1
  rw [first] at whole
  rw [second] at rest
  have split : (portion data s.file.off (total front + (b.iov_len + total back))).take (total front + k) =
      portion data s.file.off (total front) ++ xs.take k := by
    rw [whole, rest]
    generalize portion data s.file.off (total front) = ys at first
    rw [← first, List.take_length_add_append, List.take_append_of_le_length le]
  rw [split, storeAt_append, first]
  have front_same : storeAt s.pr (concat front) (portion data s.file.off (total front)) =
      storeAt s.pr (concat (front ++ b :: back)) (portion data s.file.off (total front)) :=
    storeAt_congr fun i hi => (concat_left (first ▸ hi)).symm
  rw [front_same]
  refine storeAt_congr fun i hi => ?_
  have inside : i < b.iov_len := by
    have := h.short
    rw [List.length_take] at hi
    omega
  rw [concat_right front (List.cons_ne_nil b back), concat_front inside]

/-- A read of a buffer of which only the front is there. -/
theorem filereadUser_cut (h : Reads fat cs data p s) (room : Room s.file b.iov_len) (base : b.iov_base < 2 ^ 64)
    (low : b.iov_base ≤ MAXVA) (cut : lead s.pr (buffer b.iov_base) b.iov_len = q)
    (short : q < (portion data s.file.off b.iov_len).length) : ∃ ep,
    filereadUser fat p b.iov_base (lowInt b.iov_len) s =
      .ok ((counted fat s.file.off (portion data s.file.off b.iov_len).length q : Int),
        s.read (buffer b.iov_base) ((portion data s.file.off b.iov_len).take q)
          (counted fat s.file.off (portion data s.file.off b.iov_len).length q) ep) ∧
    SameFile s.file.ep ep ∧ Contents fat cs data s.file.disk ep := by
  obtain ⟨ep, run, same, kept⟩ := readTo_run h room (buffer b.iov_base)
  have length : (portion data s.file.off b.iov_len).length = _ := portion_length room.offset
  have stop : s.pr.reaches (buffer b.iov_base q) = false := by
    rw [← cut]
    exact lead_short (by omega)
  have here : lead s.pr (buffer b.iov_base) (portion data s.file.off b.iov_len).length = q :=
    There.lead_stop (cut ▸ there_lead _ _ _) stop short
  rw [here] at run
  exact ⟨ep, (filereadUser_run h room.offset base (.inl low)).trans run, same, kept⟩

/-- Reads of buffers that take nothing. -/
theorem eachBuffer_none (h : Reads fat cs data p s) (named : (List.range' i more).map (iovec v) = bufs)
    (room : Room s.file (total bufs)) (none : ∀ b ∈ bufs, b.iov_len = 0 ∨ Away s.pr b) (inside : i + more ≤ IOVMAX)
    (small : len + total bufs < 2 ^ 64) :
    ∃ t, eachBuffer (filereadUser fat p) v more i len s = .ok (len, t) ∧ SameEffect s t := by
  have each : ∀ b ∈ bufs, There s.pr (buffer b.iov_base) b.iov_len ∨ Away s.pr b := fun b mem =>
    (none b mem).imp_left fun empty i lt => absurd lt (by omega)
  have gone : reachable s.pr bufs = 0 := by
    rw [reachable]
    refine List.sum_eq_zero fun m mem => ?_
    obtain ⟨b', mem', rfl⟩ := List.mem_map.mp mem
    obtain ⟨mem', there⟩ := List.mem_filter.mp mem'
    rcases none b' mem' with empty | ⟨-, away⟩
    · exact empty
    · rw [away] at there
      cases there
  obtain ⟨t, run, kept⟩ := eachBuffer_gaps h named room each inside small
  rw [gone, Nat.zero_min, Nat.add_zero] at run
  exact ⟨t, run, kept gone⟩

/-- The loop, where the file has bytes behind those that find a place. -/
theorem Ending.loop (h : Reads fat cs data p s) (ending : Ending fat s front b back)
    (room : Room s.file (total (front ++ b :: back)))
    (named : (List.range' 0 n).map (iovec v) = front ++ b :: back) (inside : n ≤ IOVMAX)
    (cut : lead s.pr (buffer b.iov_base) b.iov_len = q) (few : total front + q < data.length - s.file.off) :
    let xs := portion data (s.file.off + total front) b.iov_len
    let count := counted fat (s.file.off + total front) xs.length q
    ∃ ep t, eachBuffer (filereadUser fat p) v n 0 0 s = .ok (total front + count, t) ∧ q < xs.length ∧
      SameFile s.file.ep ep ∧ SameEffect (s.read (concat (front ++ b :: back))
        ((portion data s.file.off (total (front ++ b :: back))).take (total front + q)) (total front + count) ep) t := by
  intro xs count
  have offset := room.offset
  have sum : total (front ++ b :: back) = total front + (b.iov_len + total back) := by
    rw [total_append, total_cons]
  have short := ending.short
  have first : (portion data s.file.off (total front)).length = total front := by
    rw [portion_length (by omega)]
    omega
  have size : xs.length = min b.iov_len (data.length - (s.file.off + total front)) := portion_length (by omega)
  have part : q < xs.length := by omega
  have le : count ≤ b.iov_len := (counted_le _ _ _).trans (by omega)
  have ended := ending.stored (k := q) offset first rfl part.le cut.ge
  obtain ⟨rfl, names, names'⟩ := named_append named
  rw [List.length_cons] at inside
  rw [List.length_cons, List.range'_succ, List.map_cons, List.cons.injEq, Nat.zero_add] at names'
  obtain ⟨name, names'⟩ := names'
  rw [sum] at room
  -- the buffers in front
  obtain ⟨ep, run, same, kept⟩ := eachBuffer_reads h names room.left (ending.there.concat.mono first.le) (by omega)
    (show 0 + total front < 2 ^ 64 by omega)
  rw [first, Nat.zero_add] at run
  have reads := h.read same kept (concat front) (portion data s.file.off (total front)) (total front)
  have room' := room.read same (concat front) (portion data s.file.off (total front))
    (Nat.le_refl (total front))
  -- the one that ends it
  have cut' : lead (storeAt s.pr (concat front) (portion data s.file.off (total front))) (buffer b.iov_base) b.iov_len = q :=
    (lead_storeAt _ _ _ _).trans cut
  obtain ⟨ep', call, same', kept'⟩ := filereadUser_cut reads room'.left (name ▸ iovec_base_lt v front.length)
    ending.low cut' part
  have reads' := reads.read same' kept' (buffer b.iov_base) (xs.take q) count
  have room'' := room'.read same' (buffer b.iov_base) (xs.take q) le
  -- the buffers behind
  have none : ∀ b' ∈ back, b'.iov_len = 0 ∨ Away (storeAt (storeAt s.pr (concat front)
      (portion data s.file.off (total front))) (buffer b.iov_base) (xs.take q)) b' := fun b' mem =>
    (ending.away b' mem).imp_right fun ⟨low, away⟩ =>
      ⟨low, ((storeAt_reaches _ _ _ _).trans (storeAt_reaches _ _ _ _)).trans away⟩
  obtain ⟨t, run', kept''⟩ := eachBuffer_none reads' names' room'' none (by omega)
    (show total front + count + total back < 2 ^ 64 by omega)
  refine ⟨ep', t, ?_, part, same.trans same', ?_⟩
  · rw [List.length_cons, eachBuffer_add, Machine.bind_of_ok run, Nat.zero_add, eachBuffer, if_neg (by omega), name,
      Machine.bind_of_ok call]
    have sum' : addInt (total front) (count : Int) = total front + count := addInt_small (by omega)
    exact (congrArg (fun len => eachBuffer _ v _ _ len _) sum').trans run'
  · have here : (s.read (concat front) (portion data s.file.off (total front)) (total front) ep).read (buffer b.iov_base)
        (xs.take q) count ep' = s.read (concat (front ++ b :: back))
        ((portion data s.file.off (total (front ++ b :: back))).take (total front + q)) (total front + count) ep' := by
      rw [Caller.read, Caller.read, Caller.read, ended, Nat.add_assoc]
    rw [← here]
    exact kept''

theorem Ending.reads (h : Reads fat cs data p s) (ending : Ending fat s front b back)
    (room : Room s.file (total (front ++ b :: back)))
    (named : (List.range' 0 n).map (iovec v) = front ++ b :: back) (inside : n ≤ IOVMAX)
    (few : total front + lead s.pr (buffer b.iov_base) b.iov_len < data.length - s.file.off) :
    ∃ r t, eachBuffer (filereadUser fat p) v n 0 0 s = .ok (r, t) ∧
      Machine.Same SameEffect (fun r r' => r = addInt 0 r') (.ok (r, t))
        (readTo fat p (concat (front ++ b :: back)) (lowInt (total (front ++ b :: back))) s) := by
  obtain ⟨q, cut⟩ : ∃ q, lead s.pr (buffer b.iov_base) b.iov_len = q := ⟨_, rfl⟩
  have offset := room.offset
  have short := ending.short
  have reach := ending.counts
  have length : (portion data s.file.off (total (front ++ b :: back))).length = _ := portion_length offset
  have beyond : total front + q < (portion data s.file.off (total (front ++ b :: back))).length := by
    rw [length, total_append, total_cons]
    omega
  obtain ⟨ep, t, run, part, same, kept⟩ := ending.loop h room named inside cut (cut ▸ few)
  obtain ⟨ep', whole, same', -⟩ := readTo_run h room (concat (front ++ b :: back))
  rw [ending.lead_eq (cut ▸ beyond), cut] at whole
  rw [cut] at reach
  -- what counts of one read
  obtain ⟨xs, eq⟩ : ∃ xs, portion data (s.file.off + total front) b.iov_len = xs := ⟨_, rfl⟩
  rw [eq] at run part kept
  have count : counted fat s.file.off (portion data s.file.off (total (front ++ b :: back))).length (total front + q) =
      total front + counted fat (s.file.off + total front) xs.length q := by
    rw [counted, counted, if_neg (by omega), if_neg (by omega), ← Nat.add_assoc]
    omega
  rw [count] at whole
  refine ⟨_, t, run, ?_⟩
  rw [whole]
  refine ⟨?_, kept.symm.trans ⟨⟨same.symm.trans same', rfl⟩, rfl⟩⟩
  have le : counted fat (s.file.off + total front) xs.length q ≤ q := counted_le _ _ _
  have value : addInt 0 ((total front + counted fat (s.file.off + total front) xs.length q : Nat) : Int) = _ :=
    addInt_small (by omega)
  exact ((value).trans (Nat.zero_add _)).symm


end AvxKernel.File
