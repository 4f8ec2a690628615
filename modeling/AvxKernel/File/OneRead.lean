import AvxKernel.File.Readv

/-! `sys_readv`, and when it is one read. -/
namespace AvxKernel.File

open Fat (Geometry Disk Dirent SameFile Contents portion counted counted_le)
open Fd (cstr)
open Ipc (User)
open Vm (MAXVA)

variable {fat : Geometry} {s t : Caller} {p n iov : Nat} {pr : User} {place : Nat → Nat}
  {cs : List Nat} {data : List UInt8} {v : Memory} {bufs front back : List Iovec}

/-! ### One read of all buffers -/

theorem readConcat_there (h : Reads fat cs data p s) (small : s.file.off + n < 2 ^ 32)
    (there : There s.pr place (portion data s.file.off n).length) :
    readConcat fat p place (lowInt n) s = readTo fat p place (lowInt n) s := by
  apply readConcat_run
  rw [or_iff_not_imp_right, not_not]
  exact fun copies => (User.reaches_lt (there 0 (copies.some h small))).le

variable (fat) in
/-- Buffers that a read fills one by one as it does all at once: what the file has for them
finds its place, or ends alike. -/
structure Gathered (s : Caller) (bufs : List Iovec) : Prop where
  room : Room s.file (total bufs)
  ends : There s.pr (concat bufs) (min (total bufs) (s.file.ep.file_size - s.file.off)) ∨
    ∃ front b back, bufs = front ++ b :: back ∧ Ending fat s front b back

theorem Reads.eachBuffer (h : Reads fat cs data p s) (gathered : Gathered fat s (buffers v n)) (inside : n ≤ IOVMAX) :
    ∃ r t, File.eachBuffer (filereadUser fat p) v n 0 0 s = .ok (r, t) ∧
      Machine.Same SameEffect (fun r r' => r = addInt 0 r') (.ok (r, t))
        (readConcat fat p (concat (buffers v n)) (lowInt (total (buffers v n))) s) := by
  obtain ⟨room, ends⟩ := gathered
  have offset := room.offset
  have length := h.length offset
  by_cases there : There s.pr (concat (buffers v n)) (portion data s.file.off (total (buffers v n))).length
  · obtain ⟨ep, run, same, -⟩ := eachBuffer_reads h (buffers_eq v n) room there (by omega)
      (show 0 + total (buffers v n) < 2 ^ 64 by omega)
    obtain ⟨ep', whole, same', -⟩ := readTo_there h room there
    rw [Nat.zero_add] at run
    refine ⟨_, _, run, ?_⟩
    rw [readConcat_there h offset there, whole]
    refine ⟨?_, ⟨same.symm.trans same', rfl⟩, rfl⟩
    have value : addInt 0 ((portion data s.file.off (total (buffers v n))).length : Int) = _ :=
      addInt_small (by omega)
    exact (value.trans (Nat.zero_add _)).symm
  · obtain ⟨front, b, back, named, ending⟩ := ends.resolve_left (length ▸ there)
    have few : total front + lead s.pr (buffer b.iov_base) b.iov_len < data.length - s.file.off := by
      by_contra many
      apply there
      rw [named]
      refine ending.there_front.mono ?_
      rw [portion_length (named ▸ offset)]
      omega
    have names := buffers_eq v n
    rw [named] at names room ⊢
    rw [readConcat_run (.inl ending.first)]
    exact ending.reads h room names inside few

/-- There is nothing to read at the offset. -/
def Spent (f : Opened) : Prop := f.ep.isDir = true ∨ f.ep.file_size ≤ f.off

/-- Each read gives one byte, which is the same for every file of the kind. -/
def Fixed (p : Nat) (f : Opened) : Prop :=
  f.readable = true ∧ ¬0 < f.char_count p ∧
    (f.Bench p ∨ (cstr "zero").isPrefixOf f.filename ∨ (cstr "urandom").isPrefixOf f.filename)

theorem readConcat_closed (closed : s.file.readable = false) (place : Nat → Nat) (r : Int) :
    readConcat fat p place r s = .ok (-1, s) := by
  have none : ¬Copies s.file p r := fun copies => by
    have readable := copies.1
    rw [closed] at readable
    cases readable
  have refused : fileread fat p (toUser s.pr place) r s.file = .ok ((-1, []), s.file) := by
    rw [fileread, Machine.bind_of_ok (Machine.get_run s.file), if_pos closed]
    rfl
  rw [readConcat_run (.inr none), readTo, Machine.bind_of_ok (Machine.get_run s), refused]
  rfl

theorem readConcat_spent (plain : s.file.Plain p) (spent : Spent s.file) (place : Nat → Nat) (r : Int) :
    readConcat fat p place r s = .ok (0, s) := by
  have small := uint_lt r
  -- what the file has of a count
  have nothing : ¬(s.file.ep.file_size < s.file.off ∨ u32 (s.file.off + uint r) < s.file.off ∨ s.file.ep.isDir = true) →
      (if s.file.ep.file_size < u32 (s.file.off + uint r) then s.file.ep.file_size - s.file.off else uint r) = 0 := by
    intro inside
    obtain ⟨past, wraps, file⟩ := not_or.mp inside |>.imp_right not_or.mp
    have stop := spent.resolve_left file
    by_cases short : s.file.ep.file_size < u32 (s.file.off + uint r)
    · rw [if_pos short]
      omega
    · rw [if_neg short]
      rw [u32] at short wraps
      omega
  have none : ¬Copies s.file p r := by
    rintro ⟨-, -, bench | zero | urandom | ⟨inside, some⟩⟩
    · exact plain.bench bench
    · exact plain.zero zero
    · exact plain.urandom urandom
    · rw [nothing inside] at some
      exact Nat.lt_irrefl 0 some
  have run : Fat.ereadInto fat s.file.ep (toUser s.pr place) s.file.off (uint r) s.file.disk =
      .ok ((0, [], s.file.ep), s.file.disk) := by
    rw [Fat.ereadInto]
    split
    · rfl
    · next inside =>
      dsimp only
      rw [nothing inside, Fat.ereadsFrom, if_neg fun goes => absurd goes.2 (Nat.lt_irrefl 0)]
      rfl
  rw [readConcat_run (.inr none), readTo, Machine.bind_of_ok (Machine.get_run s), plain.fileread_run run]
  rfl

theorem readConcat_fixed (fixed : Fixed p s.file) (low : place 0 ≤ MAXVA) (r : Int) :
    ∃ t, readConcat fat p place r s = .ok (1, t) ∧ t.file = s.file := by
  obtain ⟨readable, none, kind⟩ := fixed
  have one : ∃ bytes, fileread fat p (toUser s.pr place) r s.file = .ok ((1, bytes), s.file) := by
    rw [fileread, Machine.bind_of_ok (Machine.get_run s.file), if_neg (by rw [readable]; exact Bool.noConfusion),
      if_neg none]
    by_cases bench : s.file.Bench p
    · rw [if_pos bench]
      exact ⟨_, rfl⟩
    rw [if_neg bench]
    by_cases zero : (cstr "zero").isPrefixOf s.file.filename
    · rw [if_pos zero]
      exact ⟨_, rfl⟩
    rw [if_neg zero, if_pos ((kind.resolve_left bench).resolve_left zero)]
    exact ⟨_, rfl⟩
  obtain ⟨bytes, run⟩ := one
  refine ⟨{ s with pr := storeAt s.pr place bytes }, ?_, rfl⟩
  rw [readConcat_run (.inl low), readTo, Machine.bind_of_ok (Machine.get_run s), run]
  rfl

/-! ### `sys_readv` -/

variable {iovcnt : Int}

theorem sys_readv_run (v : Memory) (some : iov ≠ 0) (tame : ¬WildIn iov) :
    sys_readv fat p v iov iovcnt s =
      eachBuffer (filereadUser fat p) (copied s.pr v iov (IOVEC * IOVMAX)) iovcnt.toNat 0 0 s := by
  have copy := copyinArray_ok v tame (lead_le s.pr (buffer iov) (IOVEC * IOVMAX))
  rw [sys_readv, if_neg some, Machine.bind_of_ok (Machine.get_run s), Machine.bind_of_ok (Machine.lift_run copy s)]

/-- When a `readv` is one read. -/
def OneRead (fat : Geometry) (cs : List Nat) (data : List UInt8) (p : Nat) (s : Caller) (iov : Nat) (iovcnt : Int) : Prop :=
  iov = 0 ∨ ¬WildIn iov ∧ iovcnt ≤ IOVMAX ∧
    (s.file.readable = false ∧ iovcnt = 1 ∨
      Readable s.pr iov iovcnt ∧ (iovcnt = 1 ∨ s.file.Plain p ∧ Spent s.file ∨
        Reads fat cs data p s ∧ Gathered fat s (buffers (userArray s.pr iov) iovcnt.toNat)))

/-- A call whose array is null. -/
theorem vectored_null {whole : (Nat → Nat) → Int → Machine Caller Int} (null : iov = 0) :
    Vectored whole iov iovcnt s (.ok (2 ^ 64 - 1, s)) :=
  ⟨nofun, fun _ => ⟨s, rfl⟩, fun readable => absurd null readable.1⟩

theorem sys_readv_null (v : Memory) (null : iov = 0) : sys_readv fat p v iov iovcnt s = .ok (2 ^ 64 - 1, s) := by
  rw [sys_readv, if_pos null]
  rfl

theorem OneRead.vectored (one : OneRead fat cs data p s iov iovcnt) (v : Memory) :
    Vectored (readConcat fat p) iov iovcnt s (sys_readv fat p v iov iovcnt s) := by
  rcases one with null | ⟨tame, few, kind⟩
  · rw [sys_readv_null v null]
    exact vectored_null null
  by_cases null : iov = 0
  · rw [sys_readv_null v null]
    exact vectored_null null
  rw [sys_readv_run v null tame]
  have inside : iovcnt.toNat ≤ IOVMAX := by omega
  have named : Readable s.pr iov iovcnt → _ := fun readable =>
    buffers_copied (n := IOVEC * IOVMAX) v readable (Nat.mul_le_mul_left IOVEC inside)
  have single : ∀ {t}, iovcnt = 1 →
      (¬Readable s.pr iov 1 → ∀ addr r, readConcat fat p (buffer addr) r s = .ok (-1, t)) →
      Vectored (readConcat fat p) iov iovcnt s
        (eachBuffer (filereadUser fat p) (copied s.pr v iov (IOVEC * IOVMAX)) iovcnt.toNat 0 0 s) := by
    rintro t rfl fails
    refine vectored_one (b := iovec (copied s.pr v iov (IOVEC * IOVMAX)) 0) (t := t)
      (fun addr r base => filereadUser_all base r) (fun place r => readConcat_inside place r) rfl ?_
      fun unread => fails unread _ _
    exact fun readable => (named readable).symm
  rcases kind with ⟨closed, one⟩ | ⟨readable, one | ⟨plain, spent⟩ | ⟨reads, gathered⟩⟩
  · exact single one fun _ addr r => readConcat_closed closed (buffer addr) r
  · exact @single s one fun unread => absurd (one ▸ readable) unread
  · obtain ⟨t, run, rfl⟩ := @eachBuffer_fixed s 0 0 iovcnt.toNat (copied s.pr v iov (IOVEC * IOVMAX)) 0
      (filereadUser fat p) (fun t => t = s) (by
        rintro j - - _ rfl
        exact ⟨_, (congrFun (filereadUser_all (iovec_base_lt _ j) _) _).trans (readConcat_spent plain spent _ _), rfl⟩)
      rfl (by omega) (Nat.two_pow_pos 64)
    rw [Int.mul_zero] at run
    rw [run]
    refine ⟨nofun, fun unread => absurd readable unread, fun _ => ?_⟩
    dsimp only
    rw [readConcat_spent plain spent]
    exact ⟨rfl, .refl _⟩
  · rw [← named readable] at gathered
    obtain ⟨r, t, run, same⟩ := reads.eachBuffer gathered inside
    rw [run]
    refine ⟨nofun, fun unread => absurd readable unread, fun _ => ?_⟩
    dsimp only
    rw [← named readable]
    exact same


/-! ### Where it is not one read -/

/-- What the condition is exact for: files that no process reads, files of one byte, and files
of bytes whose offset does not overflow, to buffers each of which is there or is not. -/
def ReadsJudged (fat : Geometry) (cs : List Nat) (data : List UInt8) (p : Nat) (s : Caller) (bufs : List Iovec) : Prop :=
  s.file.readable = false ∨ Fixed p s.file ∧ (∀ b ∈ bufs, b.iov_base ≤ MAXVA) ∨ s.file.Plain p ∧ Spent s.file ∨
    Reads fat cs data p s ∧ Room s.file (total bufs) ∧
      ∀ b ∈ bufs, There s.pr (buffer b.iov_base) b.iov_len ∨ Away s.pr b

/-- Buffers each of which is there or is not are all there, or there is a first that is not. -/
theorem all_or_first (each : ∀ b ∈ bufs, There pr (buffer b.iov_base) b.iov_len ∨ Away pr b) :
    AllThere pr bufs ∨ ∃ front b back, bufs = front ++ b :: back ∧ AllThere pr front ∧ Away pr b ∧ 0 < b.iov_len := by
  induction bufs with
  | nil => exact .inl nofun
  | cons b rest ih =>
    by_cases there : There pr (buffer b.iov_base) b.iov_len
    · rcases ih fun b' mem => each b' (List.mem_cons_of_mem b mem) with all | ⟨front, b', back, rfl, first, away, some⟩
      · exact .inl (List.forall_mem_cons.mpr ⟨there, all⟩)
      · exact .inr ⟨b :: front, b', back, rfl, List.forall_mem_cons.mpr ⟨there, first⟩, away, some⟩
    · refine .inr ⟨[], b, rest, rfl, nofun, (each b List.mem_cons_self).resolve_left there, ?_⟩
      rw [Nat.pos_iff_ne_zero]
      intro none
      exact there fun i lt => absurd lt (by omega)

theorem reachable_append (pr : User) (front back : List Iovec) :
    reachable pr (front ++ back) = reachable pr front + reachable pr back := by
  rw [reachable, List.filter_append, total_append]
  rfl

theorem AllThere.reachable_eq (h : AllThere pr bufs) : reachable pr bufs = total bufs := by
  induction bufs with
  | nil => rfl
  | cons b rest ih =>
    rw [reachable_cons, total_cons, ih fun b' mem => h b' (List.mem_cons_of_mem b mem)]
    split
    · rfl
    · next away =>
      have none : b.iov_len = 0 := by
        by_contra some
        exact away (h b List.mem_cons_self 0 (Nat.pos_of_ne_zero some))
      rw [none]

/-- Buffers that have no byte within reach take nothing. -/
theorem reachable_none (each : ∀ b ∈ bufs, There pr (buffer b.iov_base) b.iov_len ∨ Away pr b)
    (none : reachable pr bufs = 0) : ∀ b ∈ bufs, b.iov_len = 0 ∨ Away pr b := by
  induction bufs with
  | nil => exact nofun
  | cons b rest ih =>
    rw [reachable_cons] at none
    refine List.forall_mem_cons.mpr
      ⟨?_, ih (fun b' mem => each b' (List.mem_cons_of_mem b mem)) (by omega)⟩
    rcases each b List.mem_cons_self with there | away
    · left
      by_contra some
      rw [if_pos (there 0 (Nat.pos_of_ne_zero some))] at none
      omega
    · exact .inr away

/-- Where reads one by one get as much as one read, the buffers are such. -/
theorem gathered_of_value (h : Reads fat cs data p s) (room : Room s.file (total bufs))
    (each : ∀ b ∈ bufs, There s.pr (buffer b.iov_base) b.iov_len ∨ Away s.pr b)
    (value : min (reachable s.pr bufs) (data.length - s.file.off) =
      counted fat s.file.off (portion data s.file.off (total bufs)).length
        (lead s.pr (concat bufs) (portion data s.file.off (total bufs)).length)) : Gathered fat s bufs := by
  refine ⟨room, ?_⟩
  have length : (portion data s.file.off (total bufs)).length = _ := portion_length room.offset
  rw [h.contents.size, ← length]
  rcases all_or_first each with all | ⟨front, b, back, rfl, first, away, some⟩
  · exact .inl (all.concat.mono (by omega))
  · rcases Nat.lt_or_ge (total front) (portion data s.file.off (total (front ++ b :: back))).length with beyond | within
    · have place : concat (front ++ b :: back) (total front) = buffer b.iov_base 0 := by
        rw [← concat_front some]
        exact concat_right front (List.cons_ne_nil b back) 0
      have there : There s.pr (concat (front ++ b :: back)) (total front) := fun i lt => by
        rw [concat_left lt]
        exact first.concat i lt
      rw [there.lead_stop (place ▸ away.2) beyond, reachable_append, first.reachable_eq, reachable_cons, away.2,
        if_neg Bool.noConfusion, Nat.zero_add] at value
      have le : counted fat s.file.off (portion data s.file.off (total (front ++ b :: back))).length (total front) ≤
        total front := counted_le _ _ _
      have none : reachable s.pr back = 0 := by omega
      have none' : lead s.pr (buffer b.iov_base) b.iov_len = 0 := by
        cases b.iov_len with
        | zero => rfl
        | succ n => rw [lead_succ, if_neg (by rw [away.2]; exact Bool.noConfusion)]
      refine .inr ⟨front, b, back, rfl, first, away.1, by omega, ?_, ?_⟩
      · exact reachable_none (fun b' mem => each b' (List.mem_append_right _ (List.mem_cons_of_mem b mem))) none
      · rw [counted, if_neg (by omega)] at value
        rw [none', Nat.add_zero]
        omega
    · refine .inl fun i lt => ?_
      rw [concat_left (lt.trans_le within)]
      exact first.concat i (lt.trans_le within)

theorem first_low (each : ∀ b ∈ bufs, There pr (buffer b.iov_base) b.iov_len ∨ Away pr b) (some : 0 < total bufs) :
    concat bufs 0 ≤ MAXVA := by
  rcases all_or_first each with all | ⟨front, b, back, rfl, first, away, long⟩
  · exact (User.reaches_lt (all.concat 0 some)).le
  · rcases Nat.eq_zero_or_pos (total front) with none | pos
    · have place := concat_right front (List.cons_ne_nil b back) 0
      rw [none, concat_front long] at place
      rw [place]
      exact (buffer_zero_le b.iov_base).trans away.1
    · rw [concat_left pos]
      exact (User.reaches_lt (first.concat 0 pos)).le

/-- What one read counts. -/
theorem one_read_value {r : Nat} (h : Reads fat cs data p s) (room : Room s.file (total bufs))
    (each : ∀ b ∈ bufs, There s.pr (buffer b.iov_base) b.iov_len ∨ Away s.pr b)
    (same : Machine.Same SameEffect (fun r r' => r = addInt 0 r') (.ok (r, t))
      (readConcat fat p (concat bufs) (lowInt (total bufs)) s)) :
    r = counted fat s.file.off (portion data s.file.off (total bufs)).length
      (lead s.pr (concat bufs) (portion data s.file.off (total bufs)).length) := by
  have offset := room.offset
  have length := h.length offset
  have low : concat bufs 0 ≤ MAXVA ∨ ¬Copies s.file p (lowInt (total bufs)) := by
    rw [or_iff_not_imp_right, not_not]
    intro copies
    have some := copies.some h offset
    exact first_low each (by omega)
  obtain ⟨ep, run, -⟩ := readTo_run h room (concat bufs)
  have most : counted fat s.file.off (portion data s.file.off (total bufs)).length
      (lead s.pr (concat bufs) (portion data s.file.off (total bufs)).length) ≤ _ :=
    (counted_le _ _ _).trans (lead_le s.pr (concat bufs) (portion data s.file.off (total bufs)).length)
  rw [readConcat_run low, run] at same
  have value : r = addInt 0 (counted fat s.file.off _ _ : Int) := same.1
  rw [value, addInt_small (by omega), Nat.zero_add]

theorem concat_low (low : ∀ b ∈ bufs, b.iov_base ≤ MAXVA) : concat bufs 0 ≤ MAXVA := by
  induction bufs with
  | nil => exact Nat.zero_le _
  | cons b rest ih =>
    rw [concat]
    split
    · exact (buffer_zero_le b.iov_base).trans (low b List.mem_cons_self)
    · rw [Nat.zero_sub]
      exact ih fun b' mem => low b' (List.mem_cons_of_mem b mem)

/-- The loop returns, with the result that its kind of file gives. -/
theorem ReadsJudged.run (judged : ReadsJudged fat cs data p s (buffers v n)) (inside : n ≤ IOVMAX) :
    ∃ r t, eachBuffer (filereadUser fat p) v n 0 0 s = .ok (r, t) ∧
      (s.file.readable = false ∧ r = addInt 0 (n * -1) ∨
        Fixed p s.file ∧ (∀ b ∈ buffers v n, b.iov_base ≤ MAXVA) ∧ r = n ∨
        s.file.Plain p ∧ Spent s.file ∧ r = 0 ∨
        Reads fat cs data p s ∧ Room s.file (total (buffers v n)) ∧
          (∀ b ∈ buffers v n, There s.pr (buffer b.iov_base) b.iov_len ∨ Away s.pr b) ∧
          r = min (reachable s.pr (buffers v n)) (data.length - s.file.off)) := by
  have base : ∀ j r, filereadUser fat p (iovec v j).iov_base r = readConcat fat p (buffer (iovec v j).iov_base) r :=
    fun j r => filereadUser_all (iovec_base_lt v j) r
  rcases judged with closed | ⟨fixed, low⟩ | ⟨plain, spent⟩ | ⟨reads, room, each⟩
  · obtain ⟨t, run, -⟩ := @eachBuffer_fixed s 0 0 n v (-1) (filereadUser fat p) (fun t => t = s) (by
      rintro j - - _ rfl
      exact ⟨_, (congrFun (base j _) _).trans (readConcat_closed closed _ _), rfl⟩) rfl (by omega) (Nat.two_pow_pos 64)
    exact ⟨_, t, run, .inl ⟨closed, rfl⟩⟩
  · obtain ⟨t, run, -⟩ := @eachBuffer_fixed s 0 0 n v 1 (filereadUser fat p) (fun t => t.file = s.file) (by
      intro j _ lt u same
      have mem : iovec v j ∈ buffers v n := List.mem_map_of_mem (List.mem_range.mpr (by omega))
      have first := (buffer_zero_le (iovec v j).iov_base).trans (low (iovec v j) mem)
      obtain ⟨t, run, file⟩ := @readConcat_fixed fat u p _ (same ▸ fixed) first (lowInt (iovec v j).iov_len)
      exact ⟨t, (congrFun (base j _) _).trans run, file.trans same⟩) rfl (by omega) (Nat.two_pow_pos 64)
    have value : addInt 0 (n * 1) = n := by
      rw [addInt, IOVMAX] at *
      omega
    exact ⟨_, t, run, .inr (.inl ⟨fixed, low, value⟩)⟩
  · obtain ⟨t, run, -⟩ := @eachBuffer_fixed s 0 0 n v 0 (filereadUser fat p) (fun t => t = s) (by
      rintro j - - _ rfl
      exact ⟨_, (congrFun (base j _) _).trans (readConcat_spent plain spent _ _), rfl⟩) rfl (by omega) (Nat.two_pow_pos 64)
    rw [Int.mul_zero] at run
    exact ⟨_, t, run, .inr (.inr (.inl ⟨plain, spent, rfl⟩))⟩
  · have offset := room.offset
    obtain ⟨t, run, -⟩ := eachBuffer_gaps reads (buffers_eq v n) room each (by omega)
      (show 0 + total (buffers v n) < 2 ^ 64 by omega)
    exact ⟨_, t, run, .inr (.inr (.inr ⟨reads, room, each, Nat.zero_add _⟩))⟩

theorem oneRead_of_vectored (vectored : Vectored (readConcat fat p) iov iovcnt s (sys_readv fat p v iov iovcnt s))
    (judged : ReadsJudged fat cs data p s (buffers (copied s.pr v iov (IOVEC * IOVMAX)) (min iovcnt.toNat IOVMAX))) :
    OneRead fat cs data p s iov iovcnt := by
  by_cases null : iov = 0
  · exact .inl null
  by_cases wild : WildIn iov
  · obtain ⟨t, failed⟩ := vectored.fails fun readable => readable.2.1 wild
    rw [sys_readv, if_neg null, Machine.bind_of_ok (Machine.get_run s), copyinArray_wild v wild] at failed
    cases failed
  rw [sys_readv_run v null wild] at vectored
  rcases Nat.lt_or_ge IOVMAX iovcnt.toNat with many | few
  · rw [Nat.min_eq_right many.le] at judged
    obtain ⟨r, t, run, -⟩ := judged.run (Nat.le_refl _)
    exact absurd (eachBuffer_out run many) vectored.inside
  rw [Nat.min_eq_left few] at judged
  obtain ⟨r, t, run, kind⟩ := judged.run few
  rw [run] at vectored
  refine .inr ⟨wild, by omega, ?_⟩
  have fails : ¬Readable s.pr iov iovcnt → r = 2 ^ 64 - 1 := fun unread => by
    obtain ⟨u, failed⟩ := vectored.fails unread
    cases failed
    rfl
  have same := vectored.same
  have named : Readable s.pr iov iovcnt → _ := fun readable =>
    buffers_copied (n := IOVEC * IOVMAX) v readable (Nat.mul_le_mul_left IOVEC few)
  rw [IOVMAX] at few
  rcases kind with ⟨closed, value⟩ | ⟨fixed, low, value⟩ | ⟨plain, spent, value⟩ | ⟨reads, room, each, value⟩
  · refine .inl ⟨closed, ?_⟩
    have minus : r = addInt 0 (-1) := by
      by_cases readable : Readable s.pr iov iovcnt
      · have whole := same readable
        dsimp only at whole
        rw [readConcat_closed closed] at whole
        exact whole.1
      · exact fails readable
    rw [value, addInt, addInt] at minus
    omega
  · by_cases readable : Readable s.pr iov iovcnt
    · have whole := same readable
      dsimp only at whole
      rw [← named readable] at whole
      obtain ⟨u, one, -⟩ := @readConcat_fixed fat s p _ fixed (concat_low low)
        (lowInt (total (buffers (copied s.pr v iov (IOVEC * IOVMAX)) iovcnt.toNat)))
      rw [one] at whole
      have one : r = addInt 0 1 := whole.1
      have single : addInt 0 1 = 1 := rfl
      exact .inr ⟨readable, .inl (by omega)⟩
    · have := fails readable
      omega
  · by_cases readable : Readable s.pr iov iovcnt
    · exact .inr ⟨readable, .inr (.inl ⟨plain, spent⟩)⟩
    · have := fails readable
      omega
  · have count := room.count
    rw [reads.contents.size] at count
    have le := reachable_le s.pr (buffers (copied s.pr v iov (IOVEC * IOVMAX)) iovcnt.toNat)
    by_cases readable : Readable s.pr iov iovcnt
    · refine .inr ⟨readable, .inr (.inr ⟨reads, ?_⟩)⟩
      have whole := same readable
      dsimp only at whole
      rw [← named readable] at whole ⊢
      apply gathered_of_value reads room each
      rw [← value]
      exact one_read_value reads room each whole
    · have := fails readable
      omega

end AvxKernel.File
