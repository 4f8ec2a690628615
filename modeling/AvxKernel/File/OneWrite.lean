import AvxKernel.File.OneRead
import AvxKernel.File.Writev

/-! `sys_writev`, when it is one write, and what holds of both calls. -/
namespace AvxKernel.File

open Fat (Geometry Contents)
open Ipc (User)

variable {fat : Geometry} {s t : Caller} {p n iov : Nat} {pr : User} {cs : List Nat} {data : List UInt8}
  {v : Memory} {b : Iovec} {bufs : List Iovec} {iovcnt : Int}

/-- How many bytes of the array `sys_writev` asks for. -/
def asked (iovcnt : Int) : Nat := ((IOVEC : Int) * iovcnt % 2 ^ 64).toNat

theorem asked_enough (int : iovcnt < 2 ^ 31) : IOVEC * iovcnt.toNat ≤ asked iovcnt := by
  rw [asked, IOVEC]
  omega

theorem sys_writev_run (v : Memory) (some : iov ≠ 0) (tame : ¬WildIn iov)
    (inside : lead s.pr (buffer iov) (asked iovcnt) ≤ IOVEC * IOVMAX) :
    sys_writev fat p v iov iovcnt s =
      eachBuffer (filewriteUser fat p) (copied s.pr v iov (asked iovcnt)) iovcnt.toNat 0 0 s := by
  have copy := copyinArray_ok v tame inside
  rw [sys_writev, if_neg some, Machine.bind_of_ok (Machine.get_run s)]
  exact Machine.bind_of_ok (Machine.lift_run copy s)

theorem sys_writev_null (v : Memory) (null : iov = 0) : sys_writev fat p v iov iovcnt s = .ok (2 ^ 64 - 1, s) := by
  rw [sys_writev, if_pos null]
  rfl

/-- Whatever is written is refused, with `-1`. -/
def Refuses (p : Nat) (s : Caller) : Prop := s.file.writable = false ∨ Writes p s ∧ ¬Admits s.file

/-- Buffers that are written one by one as they are all at once: they are there, or there is
one that has all the bytes. A write gives the file its first cluster, whatever it writes. -/
def Given (s : Caller) (bufs : List Iovec) : Prop :=
  Fits s bufs ∧ (bufs ≠ [] ∨ s.file.ep.first_clus ≠ 0) ∨
    s.file.off < 2 ^ 32 ∧ s.file.ep.first_clus ≠ 0 ∧
      ∃ front b back, bufs = front ++ b :: back ∧ total front = 0 ∧ total back = 0 ∧ b.iov_len < 2 ^ 31

/-- When a `writev` is one write. -/
def OneWrite (p : Nat) (s : Caller) (iov : Nat) (iovcnt : Int) : Prop :=
  iov = 0 ∨ ¬WildIn iov ∧ lead s.pr (buffer iov) (asked iovcnt) ≤ IOVEC * IOVMAX ∧ iovcnt ≤ IOVMAX ∧
    (Refuses p s ∧ iovcnt = 1 ∨
      Readable s.pr iov iovcnt ∧ (iovcnt = 1 ∨
        let bufs := buffers (userArray s.pr iov) iovcnt.toNat
        Counts p s.file ∧ total bufs < 2 ^ 31 ∨ Writes p s ∧ Admits s.file ∧ Given s bufs))

theorem Refuses.answer (h : Refuses p s) (fat : Geometry) (place : Nat → Nat) (r : Int) :
    ∃ t, writeConcat fat p place r s = .ok (-1, t) :=
  h.elim (fun closed => ⟨s, writeConcat_closed closed place r⟩) fun ⟨writes, refused⟩ =>
    writeConcat_rejects writes refused place r

/-! ### Writes of all buffers -/

/-- Writes of the buffers of an array, and one write of all of them. -/
theorem Writes.eachBuffer (h : Writes p s) (admits : Admits s.file) (fits : Fits s (buffers v n))
    (inside : n ≤ IOVMAX) (some : buffers v n ≠ [] ∨ s.file.ep.first_clus ≠ 0) :
    File.eachBuffer (filewriteUser fat p) v n 0 0 s = (do
      let r ← writeConcat fat p (concat (buffers v n)) (lowInt (total (buffers v n)))
      return addInt 0 r) s := by
  have there := fits.there.concat
  have run : File.eachBuffer (filewriteUser fat p) v n 0 0 s = _ :=
    eachBuffer_writes h admits (buffers_eq v n) fits (by omega) some (Nat.two_pow_pos 64)
  have whole : writeConcat fat p (concat (buffers v n)) (lowInt (total (buffers v n))) s = _ :=
    (writeConcat_there there fits.count).trans (writeFrom_laid h admits there fits.offset fits.count)
  exact run.trans (Machine.bind_congr_run whole).symm

theorem Given.eachBuffer (h : Writes p s) (admits : Admits s.file) (given : Given s (buffers v n)) (inside : n ≤ IOVMAX) :
    File.eachBuffer (filewriteUser fat p) v n 0 0 s = (do
      let r ← writeConcat fat p (concat (buffers v n)) (lowInt (total (buffers v n)))
      return addInt 0 r) s := by
  rcases given with ⟨fits, some⟩ | ⟨small, some, front, b, back, named, first, last, count⟩
  · exact h.eachBuffer admits fits inside some
  · have names := buffers_eq v n
    rw [named] at names ⊢
    exact eachBuffer_single h admits small some names first last count inside

/-- A loop that comes to one call is what is to hold. -/
theorem vectored_call {whole : (Nat → Nat) → Int → Machine Caller Int} {out : Except Halt (Nat × Caller)}
    (inside : ∀ place r, Machine.Ends (· ≠ OutOfBounds) (whole place r) s fun _ _ => True)
    (readable : Readable s.pr iov iovcnt) (named : buffers v iovcnt.toNat = buffers (userArray s.pr iov) iovcnt.toNat)
    (run : out = (do
      let r ← whole (concat (buffers v iovcnt.toNat)) (lowInt (total (buffers v iovcnt.toNat)))
      return addInt 0 r) s) : Vectored whole iov iovcnt s out := by
  rw [named] at run
  subst run
  refine ⟨?_, fun unread => absurd readable unread, fun _ => ?_⟩
  · intro stop
    cases answer : whole (concat (buffers (userArray s.pr iov) iovcnt.toNat))
        (lowInt (total (buffers (userArray s.pr iov) iovcnt.toNat))) s with
    | ok r =>
      rw [Machine.bind_of_ok (a := r.1) (u := r.2) answer] at stop
      cases stop
    | error h =>
      rw [Machine.bind_of_error answer] at stop
      cases stop
      exact (inside _ _).error answer rfl
  · dsimp only
    cases answer : whole (concat (buffers (userArray s.pr iov) iovcnt.toNat))
        (lowInt (total (buffers (userArray s.pr iov) iovcnt.toNat))) s with
    | ok r =>
      rw [Machine.bind_of_ok (a := r.1) (u := r.2) answer]
      exact ⟨rfl, .refl _⟩
    | error h =>
      rw [Machine.bind_of_error answer]
      rfl

/-! ### `sys_writev` -/

theorem OneWrite.vectored (one : OneWrite p s iov iovcnt) (v : Memory) (int : iovcnt < 2 ^ 31) :
    Vectored (writeConcat fat p) iov iovcnt s (sys_writev fat p v iov iovcnt s) := by
  rcases one with null | ⟨tame, within, few, kind⟩
  · rw [sys_writev_null v null]
    exact vectored_null null
  by_cases null : iov = 0
  · rw [sys_writev_null v null]
    exact vectored_null null
  rw [sys_writev_run v null tame within]
  have inside : iovcnt.toNat ≤ IOVMAX := by omega
  have stops : ∀ place r, Machine.Ends (· ≠ OutOfBounds) (writeConcat fat p place r) s fun _ _ => True :=
    fun place r => writeConcat_inside place r
  have named : Readable s.pr iov iovcnt → _ := fun readable => buffers_copied v readable (asked_enough int)
  have single : ∀ {t}, iovcnt = 1 → (¬Readable s.pr iov 1 →
      writeConcat fat p (buffer (iovec (copied s.pr v iov (asked iovcnt)) 0).iov_base)
        (lowInt (iovec (copied s.pr v iov (asked iovcnt)) 0).iov_len) s = .ok (-1, t)) →
      Vectored (writeConcat fat p) iov iovcnt s
        (eachBuffer (filewriteUser fat p) (copied s.pr v iov (asked iovcnt)) iovcnt.toNat 0 0 s) := by
    rintro t rfl fails
    exact vectored_one (fun addr r base => filewriteUser_all base r) stops rfl
      (fun readable => (named readable).symm) fails
  rcases kind with ⟨refuses, one⟩ | ⟨readable, one | ⟨counts, small⟩ | ⟨writes, admits, given⟩⟩
  · obtain ⟨t, answer⟩ := refuses.answer fat (buffer (iovec (copied s.pr v iov (asked iovcnt)) 0).iov_base)
      (lowInt (iovec (copied s.pr v iov (asked iovcnt)) 0).iov_len)
    exact single one fun _ => answer
  · exact @single s one fun unread => absurd (one ▸ readable) unread
  · rw [← named readable] at small
    refine vectored_call stops readable (named readable) ?_
    have run : eachBuffer (filewriteUser fat p) _ iovcnt.toNat 0 0 s = _ :=
      eachBuffer_counts counts (buffers_eq (copied s.pr v iov (asked iovcnt)) iovcnt.toNat) (by omega) (by omega)
    rw [run, Machine.bind_of_ok (writeConcat_counts counts _ _), lowInt_small small, addInt_small (by omega)]
    rfl
  · rw [← named readable] at given
    exact vectored_call stops readable (named readable) (given.eachBuffer writes admits inside)

/-! ### Where it is not one write -/

/-- What the condition is exact for: files that are only counted or refuse, and files that take
bytes from buffers that are there. -/
def WritesJudged (p : Nat) (s : Caller) (bufs : List Iovec) : Prop :=
  s.file.writable = false ∨ Counts p s.file ∧ total bufs < 2 ^ 31 ∨
    Writes p s ∧ (¬Admits s.file ∧ (∀ b ∈ bufs, b.iov_len < 2 ^ 31) ∨ Admits s.file ∧ Fits s bufs)

/-- Where each write is refused the loop counts `-1` for each buffer. -/
theorem eachBuffer_refused (answers : ∀ b ∈ buffers v n, writeConcat fat p (buffer b.iov_base) (lowInt b.iov_len) s = .ok (-1, s))
    (inside : n ≤ IOVMAX) : eachBuffer (filewriteUser fat p) v n 0 0 s = .ok (addInt 0 (n * -1), s) := by
  obtain ⟨t, run, rfl⟩ := @eachBuffer_fixed s 0 0 n v (-1) (filewriteUser fat p) (fun t => t = s) (by
    rintro j - lt _ rfl
    have mem : iovec v j ∈ buffers v n := List.mem_map_of_mem (List.mem_range.mpr (by omega))
    exact ⟨_, (congrFun (filewriteUser_all (iovec_base_lt v j) _) _).trans (answers (iovec v j) mem), rfl⟩) rfl
    (by omega) (Nat.two_pow_pos 64)
  exact run

/-- One call that is refused is one that fails. -/
theorem one_of_refused (vectored : Vectored (writeConcat fat p) iov iovcnt s (.ok (addInt 0 (n * -1), t)))
    (refuses : Refuses p s) (few : n ≤ IOVMAX) : n = 1 := by
  have minus : addInt 0 (n * -1) = addInt 0 (-1) := by
    by_cases readable : Readable s.pr iov iovcnt
    · have same := vectored.same readable
      dsimp only at same
      obtain ⟨u, answer⟩ := refuses.answer fat (concat (buffers (userArray s.pr iov) iovcnt.toNat))
        (lowInt (total (buffers (userArray s.pr iov) iovcnt.toNat)))
      rw [answer] at same
      exact same.1
    · obtain ⟨u, failed⟩ := vectored.fails readable
      exact congrArg Prod.fst (Except.ok.inj failed)
  rw [IOVMAX] at few
  rw [addInt, addInt] at minus
  omega

/-- What is written is less than the mark of a failure. -/
theorem Writes.few {r : Nat} (h : Writes p s) (admits : Admits s.file) (fits : Fits s (buffers v n)) (inside : n ≤ IOVMAX)
    (run : File.eachBuffer (filewriteUser fat p) v n 0 0 s = .ok (r, t)) : r < 2 ^ 31 := by
  have offset := fits.offset
  have count := fits.count
  rcases Nat.eq_zero_or_pos n with rfl | pos
  · cases run
    exact Nat.two_pow_pos 31
  · have some : buffers v n ≠ [] := by
      rw [buffers, ne_eq, List.map_eq_nil_iff, List.range_eq_nil]
      omega
    have whole : File.eachBuffer (filewriteUser fat p) v n 0 0 s = _ :=
      eachBuffer_writes h admits (buffers_eq v n) fits (by omega) (.inl some) (Nat.two_pow_pos 64)
    have length := bytesAt_length s.pr (concat (buffers v n)) (total (buffers v n))
    rw [whole] at run
    obtain ⟨r', u, wrote, answer⟩ := Machine.bind_ok.mp run
    obtain ⟨rfl, -⟩ := laid_after h admits (by omega) wrote
    have value : addInt 0 ((bytesAt s.pr (concat (buffers v n)) (total (buffers v n))).length : Int) = _ :=
      addInt_small (by omega)
    cases answer
    omega

/-- A write of nothing to a file that has no cluster gives it one, and no write does not. -/
theorem given_of_vectored (h : Writes p s) (admits : Admits s.file) (fits : Fits s (buffers v n))
    (same : Machine.Same SameEffect (fun r r' => r = addInt 0 r') (eachBuffer (filewriteUser fat p) v n 0 0 s)
      (writeConcat fat p (concat (buffers v n)) (lowInt (total (buffers v n))) s)) : Given s (buffers v n) := by
  refine .inl ⟨fits, or_iff_not_imp_left.mpr fun none => ?_⟩
  rw [not_not] at none
  have zero : n = 0 := by
    rw [buffers, List.map_eq_nil_iff, List.range_eq_nil] at none
    exact none
  have offset := fits.offset
  rw [none] at same offset
  subst zero
  have nowhere := There.nowhere s.pr (concat [])
  obtain ⟨r, t, run, -, alike, -⟩ := same.ok rfl
  have wrote : laid fat [] s = .ok (r, t) :=
    ((writeConcat_there nowhere (by decide)).trans (writeFrom_laid h admits nowhere offset (by decide))).symm.trans run
  have behind := (laid_after h admits (by exact offset) wrote).2
  exact fun first => behind.some (alike.1.fields.2.2.2.trans first)

theorem oneWrite_of_vectored (int : iovcnt < 2 ^ 31)
    (vectored : Vectored (writeConcat fat p) iov iovcnt s (sys_writev fat p v iov iovcnt s))
    (judged : WritesJudged p s (buffers (copied s.pr v iov (asked iovcnt)) (min iovcnt.toNat IOVMAX))) :
    OneWrite p s iov iovcnt := by
  by_cases null : iov = 0
  · exact .inl null
  by_cases wild : WildIn iov
  · obtain ⟨t, failed⟩ := vectored.fails fun readable => readable.2.1 wild
    rw [sys_writev, if_neg null, Machine.bind_of_ok (Machine.get_run s), copyinArray_wild v wild] at failed
    cases failed
  by_cases inside : lead s.pr (buffer iov) (asked iovcnt) ≤ IOVEC * IOVMAX
  case neg =>
    have out : copyinArray s.pr v iov (asked iovcnt) = .error OutOfBounds := by
      rw [copyinArray, if_neg wild]
      exact if_pos (Nat.lt_of_not_le inside)
    apply absurd _ vectored.inside
    rw [sys_writev, if_neg null, Machine.bind_of_ok (Machine.get_run s)]
    exact Machine.bind_of_error (congrArg (Machine.lift · s) out)
  rw [sys_writev_run v null wild inside] at vectored
  rcases Nat.lt_or_ge IOVMAX iovcnt.toNat with many | few
  · -- more entries than the array has: they were not all read
    exfalso
    by_cases readable : Readable s.pr iov iovcnt
    · have all := There.lead readable.2.2 (asked_enough int)
      rw [IOVEC] at all inside
      omega
    · obtain ⟨t, failed⟩ := vectored.fails readable
      exact eachBuffer_beyond (Nat.zero_le _) (by omega) failed
  rw [Nat.min_eq_left few] at judged
  refine .inr ⟨wild, inside, by omega, ?_⟩
  have named : Readable s.pr iov iovcnt → _ := fun readable => buffers_copied v readable (asked_enough int)
  have refused : Refuses p s → (∀ b ∈ buffers (copied s.pr v iov (asked iovcnt)) iovcnt.toNat,
      writeConcat fat p (buffer b.iov_base) (lowInt b.iov_len) s = .ok (-1, s)) → Refuses p s ∧ iovcnt = 1 := by
    intro refuses answers
    rw [eachBuffer_refused answers few] at vectored
    have one := one_of_refused vectored refuses few
    exact ⟨refuses, by omega⟩
  rcases judged with closed | ⟨counts, small⟩ | ⟨writes, ⟨full, low⟩ | ⟨admits, fits⟩⟩
  · exact .inl (refused (.inl closed) fun b _ => writeConcat_closed closed _ _)
  · have run : eachBuffer (filewriteUser fat p) _ iovcnt.toNat 0 0 s = _ :=
      eachBuffer_counts counts (buffers_eq (copied s.pr v iov (asked iovcnt)) iovcnt.toNat) (by omega) (by omega)
    by_cases readable : Readable s.pr iov iovcnt
    · rw [named readable] at small
      exact .inr ⟨readable, .inr (.inl ⟨counts, small⟩)⟩
    · obtain ⟨t, failed⟩ := vectored.fails readable
      rw [run] at failed
      have value := congrArg Prod.fst (Except.ok.inj failed)
      dsimp only at value
      omega
  · exact .inl (refused (.inr ⟨writes, full⟩) fun b mem => writeConcat_refused writes full _ (low b mem))
  · by_cases readable : Readable s.pr iov iovcnt
    · have same := vectored.same readable
      dsimp only at same
      rw [← named readable] at same
      have given := given_of_vectored writes admits fits same
      rw [named readable] at given
      exact .inr ⟨readable, .inr (.inr ⟨writes, admits, given⟩)⟩
    · obtain ⟨t, failed⟩ := vectored.fails readable
      have := writes.few admits fits few failed
      omega

/-! ### Both calls -/

/-- A page that starts with some bytes. -/
def pageOf (bytes : List UInt8) : User where
  opens page := page == 1
  memory a := bytes.getD (a - PGSIZE) 0
  killed := false

/-- Two buffers, of two bytes and of one, in the page of their array. -/
def twoBuffers : List UInt8 :=
  [0, 0x18, 0, 0, 0, 0, 0, 0, 2, 0, 0, 0, 0, 0, 0, 0, 2, 0x18, 0, 0, 0, 0, 0, 0, 1]

/-- Two of a byte each, the second in a page that is not there. -/
def gapBuffers : List UInt8 :=
  [0, 0x18, 0, 0, 0, 0, 0, 0, 1, 0, 0, 0, 0, 0, 0, 0, 0, 0x20, 0, 0, 0, 0, 0, 0, 1]

/-- A process with such an array, and a file of three bytes. -/
def gathering (off : Nat) (bytes : List UInt8) : Caller where
  file := { threeBytes off with writable := true }
  pr := pageOf bytes

theorem threeBytes_contents : Contents Fat.bareVolume [2] [0, 0, 0] Fat.bareDisk { Fat.shortFile with file_size := 3 } where
  chain := .inl {
    clusters := Fat.bareRoot_clusters
    cursor := ⟨rfl, rfl⟩
    file := by decide
    covered := by decide
    narrow := by decide }
  file := by decide
  size := rfl
  bytes := by decide

theorem gathering_plain (off : Nat) (bytes : List UInt8) : (gathering off bytes).file.Plain 0 := by
  have ep : (gathering off bytes).file.ep = (threeBytes 0).ep := rfl
  have name : (gathering off bytes).file.filename = (threeBytes 0).filename := by
    rw [Opened.filename, ep, Opened.filename]
  have process : (gathering off bytes).file.name 0 = [] := rfl
  refine ⟨rfl, Int.lt_irrefl 0, ?_, ?_, ?_⟩
  · rw [Opened.Bench, process]
    exact fun bench => absurd bench.1 (by decide)
  · rw [name]
    decide
  · rw [name]
    decide

theorem gathering_reads (off : Nat) (bytes : List UInt8) :
    Reads Fat.bareVolume [2] [0, 0, 0] 0 (gathering off bytes) where
  plain := gathering_plain off bytes
  contents := by
    rw [gathering, threeBytes]
    dsimp only
    exact threeBytes_contents

theorem gathering_writes (off : Nat) (bytes : List UInt8) : Writes 0 (gathering off bytes) :=
  ⟨rfl, rfl, (gathering_plain off bytes).bench⟩

/-- What lies in an open page is there. -/
theorem page_there {page : Nat} (opens : pr.opens page = true) (low : page < 2 ^ 20) {addr : Nat}
    (inside : PGSIZE * page ≤ addr ∧ addr + n ≤ PGSIZE * page + PGSIZE) : There pr (buffer addr) n := by
  intro i lt
  rw [PGSIZE] at inside
  have within : u64 (addr + i) = addr + i := Nat.mod_eq_of_lt (by omega)
  have here : (addr + i) / 4096 = page := by omega
  rw [buffer, within, User.reaches, PGSIZE, here, opens, Vm.MAXVA_eq, Bool.and_true, decide_eq_true_eq]
  omega

theorem pageOf_there (bytes : List UInt8) {addr : Nat} (inside : PGSIZE ≤ addr ∧ addr + n ≤ 2 * PGSIZE) :
    There (pageOf bytes) (buffer addr) n :=
  page_there (show (pageOf bytes).opens 1 = true from rfl) (by decide) (by rw [PGSIZE] at *; omega)

theorem pageOf_readable (bytes : List UInt8) : Readable (pageOf bytes) PGSIZE 2 :=
  ⟨by decide, by decide, pageOf_there bytes (by decide)⟩

/-- The same process where it has no page. -/
def pageless : Caller := ⟨(gathering 0 []).file, ⟨fun _ => false, fun _ => 0, false⟩⟩

end AvxKernel.File
