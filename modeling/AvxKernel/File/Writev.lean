import AvxKernel.File.Pread
import AvxKernel.File.Readv

/-! Writes from buffers of a process, one by one and all at once. -/
namespace AvxKernel.File

open Fat (Geometry Disk Dirent Source SameFile Contents Takes ATTR_READ_ONLY)
open Ipc (User)
open Vm (MAXVA)

variable {fat : Geometry} {s t : Caller} {p i n m len more iov : Nat} {pr : User} {place : Nat → Nat}
  {v : Memory} {b : Iovec} {bufs : List Iovec} {xs ys : List UInt8}

/-- An open file that a process writes to. -/
structure Writes (p : Nat) (s : Caller) : Prop where
  writable : s.file.writable = true
  none : s.file.char_count p = 0
  bench : ¬s.file.Bench p

/-- The file takes bytes at its offset. -/
def Admits (f : Opened) : Prop := f.off ≤ f.ep.file_size ∧ f.ep.attr &&& ATTR_READ_ONLY = 0

instance (f : Opened) : Decidable (Admits f) := inferInstanceAs (Decidable (_ ∧ _))

theorem Admits.takes {f : Opened} (h : Admits f) (small : f.off + n < 2 ^ 32) : Takes f.ep f.off n :=
  ⟨h.1, small, h.2⟩

/-! ### Writes one behind the other -/

variable (fat) in
/-- Bytes laid down at the offset of the file. -/
def laid (bytes : List UInt8) : Machine Caller Int := do
  let s ← get
  let ((_, ep), disk) ← Machine.lift (Fat.ewrite fat s.file.ep (.ofBytes bytes) s.file.off bytes.length s.file.disk)
  set { s with file := { s.file with disk, ep, off := s.file.off + bytes.length } }
  return bytes.length

theorem laid_ok {r : Int} {ep : Dirent} {d : Disk}
    (run : Fat.ewrite fat s.file.ep (.ofBytes xs) s.file.off xs.length s.file.disk = .ok ((r, ep), d)) :
    laid fat xs s = .ok ((xs.length : Int),
      { s with file := { s.file with disk := d, ep, off := s.file.off + xs.length } }) := by
  rw [laid, Machine.bind_of_ok (Machine.get_run s), Machine.bind_of_ok (Machine.lift_run run s)]
  rfl

theorem laid_error {stop : Halt}
    (run : Fat.ewrite fat s.file.ep (.ofBytes xs) s.file.off xs.length s.file.disk = .error stop) :
    laid fat xs s = .error stop := by
  rw [laid, Machine.bind_of_ok (Machine.get_run s), run]
  rfl

/-- What writes keep. -/
structure Behind (p : Nat) (s t : Caller) (n : Nat) : Prop where
  writes : Writes p t
  memory : t.pr = s.pr
  off : t.file.off = s.file.off + n
  admits : Admits t.file
  some : t.file.ep.first_clus ≠ 0

theorem laid_after {r : Int} (h : Writes p s) (admits : Admits s.file) (small : s.file.off + xs.length < 2 ^ 32)
    (run : laid fat xs s = .ok (r, t)) : r = xs.length ∧ Behind p s t xs.length := by
  cases wrote : Fat.ewrite fat s.file.ep (.ofBytes xs) s.file.off xs.length s.file.disk with
  | error stop =>
    rw [laid_error wrote] at run
    cases run
  | ok result =>
    obtain ⟨⟨_, ep⟩, d⟩ := result
    obtain ⟨-, name, attr, some, size⟩ := (Fat.ewrite_after (admits.takes small)).ok wrote
    rw [laid_ok wrote] at run
    cases run
    refine ⟨rfl, ⟨h.writable, h.none, ?_⟩, rfl, rfl, ⟨size, ?_⟩, some⟩
    · have bench := h.bench
      rw [Opened.Bench, Opened.filename] at bench ⊢
      change ¬(_ ∧ (Fd.cstr "tmpfile_").isPrefixOf (ep.filename.chars _) = true)
      rw [name]
      exact bench
    · change ep.attr &&& ATTR_READ_ONLY = 0
      rw [attr]
      exact admits.2

theorem laid_append (admits : Admits s.file) (small : s.file.off + (xs.length + ys.length) < 2 ^ 32) :
    laid fat (xs ++ ys) s = (do
      let _ ← laid fat xs
      let _ ← laid fat ys
      return ((xs.length + ys.length : Nat) : Int)) s := by
  have whole := @Fat.ewrite_append fat s.file.disk s.file.ep s.file.off xs ys (admits.takes small)
  rw [← List.length_append] at whole
  cases first : Fat.ewrite fat s.file.ep (.ofBytes xs) s.file.off xs.length s.file.disk with
  | error stop =>
    rw [Machine.bind_of_error first] at whole
    rw [laid_error whole, Machine.bind_of_error (laid_error first)]
  | ok r =>
    obtain ⟨⟨_, ep⟩, d⟩ := r
    rw [Machine.bind_of_ok first] at whole
    dsimp only at whole
    rw [Machine.bind_of_ok (laid_ok first)]
    cases second : Fat.ewrite fat ep (.ofBytes ys) (s.file.off + xs.length) ys.length d with
    | error stop =>
      rw [Machine.bind_of_error second] at whole
      rw [laid_error whole, Machine.bind_of_error (laid_error second)]
    | ok r =>
      rw [Machine.bind_of_ok second] at whole
      rw [laid_ok whole, Machine.bind_of_ok (laid_ok second), List.length_append, Nat.add_assoc]
      rfl

/-- Nothing is laid down. -/
theorem laid_nil (admits : Admits s.file) (small : s.file.off < 2 ^ 32) (some : s.file.ep.first_clus ≠ 0) :
    laid fat [] s = .ok (0, s) := laid_ok (Fat.ewrite_nil (admits.takes small) some)

/-! ### One write -/

theorem Writes.filewrite_run {data : Source} {n r : Int} {ep : Dirent} {d : Disk} (h : Writes p s)
    (run : Fat.ewrite fat s.file.ep data s.file.off (uint n) s.file.disk = .ok ((r, ep), d)) :
    filewrite fat p data n s.file = .ok (if r = n then n else -1,
      { s.file with disk := d, ep, off := if r = n then u32 (s.file.off + uint n) else s.file.off }) := by
  rw [filewrite, Machine.bind_of_ok (Machine.get_run s.file),
    if_neg (by rw [h.writable]; exact Bool.noConfusion), if_neg (not_not_intro h.none), if_neg h.bench,
    Machine.bind_of_ok (onDisk_ok run)]
  dsimp only
  split <;> rfl

theorem Writes.filewrite_error {data : Source} {n : Int} {stop : Halt} (h : Writes p s)
    (run : Fat.ewrite fat s.file.ep data s.file.off (uint n) s.file.disk = .error stop) :
    filewrite fat p data n s.file = .error stop := by
  rw [filewrite, Machine.bind_of_ok (Machine.get_run s.file),
    if_neg (by rw [h.writable]; exact Bool.noConfusion), if_neg (not_not_intro h.none), if_neg h.bench,
    Machine.bind_of_error (onDisk_error run)]

theorem writeFrom_laid (h : Writes p s) (admits : Admits s.file) (there : There s.pr place n)
    (offset : s.file.off + n < 2 ^ 32) (count : n < 2 ^ 31) :
    writeFrom fat p place (lowInt n) s = laid fat (bytesAt s.pr place n) s := by
  have takes := admits.takes offset
  have length := bytesAt_length s.pr place n
  have whole : uint (lowInt n) = n := uint_lowInt (by omega)
  have same : Fat.ewrite fat s.file.ep (fromUser s.pr place) s.file.off (uint (lowInt n)) =
      Fat.ewrite fat s.file.ep (.ofBytes (bytesAt s.pr place n)) s.file.off (bytesAt s.pr place n).length := by
    rw [whole, length]
    exact Fat.ewrite_congr there.fromUser _ _
  rw [writeFrom, Machine.bind_of_ok (Machine.get_run s)]
  rw [← length] at takes
  cases wrote : Fat.ewrite fat s.file.ep (.ofBytes (bytesAt s.pr place n)) s.file.off
      (bytesAt s.pr place n).length s.file.disk with
  | error stop =>
    rw [laid_error wrote, h.filewrite_error ((congrFun same _).trans wrote)]
    rfl
  | ok r =>
    obtain ⟨⟨r, ep⟩, d⟩ := r
    obtain ⟨value, -⟩ := (Fat.ewrite_after takes).ok wrote
    dsimp only at value
    rw [length] at value
    have next : u32 (s.file.off + n) = s.file.off + n := Nat.mod_eq_of_lt offset
    rw [laid_ok wrote, h.filewrite_run ((congrFun same _).trans wrote), if_pos value, if_pos value, whole, next, length,
      lowInt_small count]
    rfl

/-- What is refused changes nothing. -/
theorem writeFrom_refused (h : Writes p s) (refused : ¬Admits s.file) (place : Nat → Nat) (count : n < 2 ^ 31) :
    writeFrom fat p place (lowInt n) s = .ok (-1, s) := by
  have rejects : ¬Takes s.file.ep s.file.off (uint (lowInt n)) := fun takes => refused ⟨takes.1, takes.2.2⟩
  have run : Fat.ewrite fat s.file.ep (fromUser s.pr place) s.file.off (uint (lowInt n)) s.file.disk = .ok _ :=
    congrFun (Fat.ewrite_refused rejects _) _
  have fails : ¬(-1 : Int) = lowInt n := by
    rw [lowInt_small count]
    omega
  rw [writeFrom, Machine.bind_of_ok (Machine.get_run s), h.filewrite_run run, if_neg fails, if_neg fails]
  rfl

theorem writeConcat_run {r : Int} (tame : ¬WildIn (place 0) ∨ ¬Sends s.file p r) :
    writeConcat fat p place r s = writeFrom fat p place r s := by
  have none : ¬(WildIn (place 0) ∧ Sends s.file p r) := fun ⟨wild, sends⟩ =>
    tame.elim (fun tame => tame wild) fun none => none sends
  rw [writeConcat, Machine.bind_of_ok (Machine.get_run s), if_neg none]

/-- The first copy is from a place that is there. -/
theorem writeConcat_there (there : There s.pr place n) (count : n < 2 ^ 31) :
    writeConcat fat p place (lowInt n) s = writeFrom fat p place (lowInt n) s := by
  apply writeConcat_run
  rw [or_iff_not_imp_right, not_not]
  rintro ⟨-, -, -, -, some⟩ ⟨wild, -⟩
  rw [uint_lowInt (by omega)] at some
  exact Nat.lt_asymm wild (User.reaches_lt (there 0 some))

/-- What a file refuses is not copied. -/
theorem writeConcat_refused (h : Writes p s) (refused : ¬Admits s.file) (place : Nat → Nat) (count : n < 2 ^ 31) :
    writeConcat fat p place (lowInt n) s = .ok (-1, s) := by
  have none : ¬Sends s.file p (lowInt n) := fun sends => refused ⟨sends.2.2.2.1.1, sends.2.2.2.1.2.2⟩
  rw [writeConcat_run (.inr none), writeFrom_refused h refused place count]

/-- The answer does not depend on the count; for a count of `-1` it passes for a success. -/
theorem writeConcat_rejects (h : Writes p s) (refused : ¬Admits s.file) (place : Nat → Nat) (r : Int) :
    ∃ t, writeConcat fat p place r s = .ok (-1, t) := by
  have none : ¬Sends s.file p r := fun sends => refused ⟨sends.2.2.2.1.1, sends.2.2.2.1.2.2⟩
  have rejects : ¬Takes s.file.ep s.file.off (uint r) := fun takes => refused ⟨takes.1, takes.2.2⟩
  have run : Fat.ewrite fat s.file.ep (fromUser s.pr place) s.file.off (uint r) s.file.disk = .ok _ :=
    congrFun (Fat.ewrite_refused rejects _) _
  have value : (if -1 = r then r else -1) = -1 := by
    split
    · next same => exact same.symm
    · rfl
  rw [writeConcat_run (.inr none), writeFrom, Machine.bind_of_ok (Machine.get_run s), h.filewrite_run run, value]
  exact ⟨_, rfl⟩

theorem writeConcat_closed (closed : s.file.writable = false) (place : Nat → Nat) (r : Int) :
    writeConcat fat p place r s = .ok (-1, s) := by
  have none : ¬Sends s.file p r := fun sends => by
    have writable := sends.1
    rw [closed] at writable
    cases writable
  have refused : filewrite fat p (fromUser s.pr place) r s.file = .ok (-1, s.file) := by
    rw [filewrite, Machine.bind_of_ok (Machine.get_run s.file), if_pos closed]
    rfl
  rw [writeConcat_run (.inr none), writeFrom, Machine.bind_of_ok (Machine.get_run s), refused]
  rfl

/-- A file whose writes are only counted. -/
def Counts (p : Nat) (f : Opened) : Prop := f.writable = true ∧ 0 < f.char_count p

/-- The caller behind so many bytes that have been counted. -/
def Caller.count (p : Nat) (s : Caller) (r : Int) : Caller :=
  { s with file := s.file.setCharCount p (s.file.char_count p + r) }

theorem writeConcat_counts (counts : Counts p s.file) (place : Nat → Nat) (r : Int) :
    writeConcat fat p place r s = .ok (r, s.count p r) := by
  obtain ⟨writable, some⟩ := counts
  have none : ¬Sends s.file p r := fun sends => by
    have := sends.2.1
    omega
  have run : filewrite fat p (fromUser s.pr place) r s.file =
      .ok (r, s.file.setCharCount p (s.file.char_count p + r)) := by
    rw [filewrite, Machine.bind_of_ok (Machine.get_run s.file), if_neg (by rw [writable]; exact Bool.noConfusion),
      if_pos (by omega)]
    rfl
  rw [writeConcat_run (.inr none), writeFrom, Machine.bind_of_ok (Machine.get_run s), run]
  rfl

/-- A write of nothing. -/
theorem writeConcat_nothing (h : Writes p s) (admits : Admits s.file) (small : s.file.off < 2 ^ 32)
    (some : s.file.ep.first_clus ≠ 0) (place : Nat → Nat) : writeConcat fat p place 0 s = .ok (0, s) := by
  have nowhere := There.nowhere s.pr place
  have zero : lowInt 0 = 0 := rfl
  have there := @writeConcat_there fat s p 0 place nowhere (by decide)
  have laid := @writeFrom_laid fat s p 0 place h admits nowhere small (by decide)
  rw [zero] at there laid
  rw [there, laid]
  exact laid_nil admits small some

/-- What a write from anywhere leaves: it has been done, and the offset has moved, or not. -/
theorem writeConcat_leaves {u : Caller} {r : Int} (h : Writes p s) (admits : Admits s.file) (small : s.file.off < 2 ^ 32)
    (some : s.file.ep.first_clus ≠ 0) (count : n < 2 ^ 31) (run : writeConcat fat p place (lowInt n) s = .ok (r, u)) :
    Writes p u ∧ Admits u.file ∧ u.file.off < 2 ^ 32 ∧ u.file.ep.first_clus ≠ 0 := by
  have tame : ¬(WildIn (place 0) ∧ Sends s.file p (lowInt n)) := by
    intro wild
    rw [writeConcat, Machine.bind_of_ok (Machine.get_run s), if_pos wild] at run
    cases run
  have whole : uint (lowInt n) = n := uint_lowInt (by omega)
  rw [writeConcat, Machine.bind_of_ok (Machine.get_run s), if_neg tame, writeFrom,
    Machine.bind_of_ok (Machine.get_run s)] at run
  cases wrote : Fat.ewrite fat s.file.ep (fromUser s.pr place) s.file.off (uint (lowInt n)) s.file.disk with
  | error stop =>
    rw [h.filewrite_error wrote] at run
    cases run
  | ok result =>
    obtain ⟨⟨r', ep⟩, d⟩ := result
    obtain ⟨name, attr, keeps, size, all⟩ := (Fat.ewrite_keeps _ (whole.symm ▸ count)).ok wrote
    rw [h.filewrite_run wrote] at run
    cases run
    have bench := h.bench
    rw [Opened.Bench, Opened.filename] at bench
    refine ⟨⟨h.writable, h.none, ?_⟩, ⟨?_, ?_⟩, ?_, keeps some⟩
    · rw [Opened.Bench, Opened.filename]
      change ¬(_ ∧ (Fd.cstr "tmpfile_").isPrefixOf (ep.filename.chars _) = true)
      rw [name]
      exact bench
    · change (if r' = lowInt n then u32 (s.file.off + uint (lowInt n)) else s.file.off) ≤ ep.file_size
      split
      · next done =>
        rw [lowInt_small count] at done
        exact (Nat.mod_le _ _).trans (all (done.trans (congrArg Nat.cast whole.symm)))
      · exact admits.1.trans size
    · change ep.attr &&& ATTR_READ_ONLY = 0
      rw [attr]
      exact admits.2
    · change (if r' = lowInt n then u32 (s.file.off + uint (lowInt n)) else s.file.off) < 2 ^ 32
      split
      · exact Nat.mod_lt _ (Nat.two_pow_pos 32)
      · exact small

/-! ### The loop -/

/-- The buffers are there, the offset stays a `uint` behind them, and their length an `int`. -/
structure Fits (s : Caller) (bufs : List Iovec) : Prop where
  there : AllThere s.pr bufs
  offset : s.file.off + total bufs < 2 ^ 32
  count : total bufs < 2 ^ 31

/-- Where the file takes bytes the loop lays down those of all buffers. -/
theorem eachBuffer_writes (h : Writes p s) (admits : Admits s.file)
    (named : (List.range' i more).map (iovec v) = bufs) (fits : Fits s bufs) (inside : i + more ≤ IOVMAX)
    (some : bufs ≠ [] ∨ s.file.ep.first_clus ≠ 0) (small : len < 2 ^ 64) :
    eachBuffer (filewriteUser fat p) v more i len s = (do
      let r ← laid fat (bytesAt s.pr (concat bufs) (total bufs))
      return addInt len r) s := by
  induction more generalizing i len s bufs with
  | zero =>
    subst named
    have none := @laid_nil fat s admits fits.offset (some.resolve_left (absurd rfl))
    have same : bytesAt s.pr (concat []) (total []) = [] := rfl
    have stays : addInt len 0 = len := by
      rw [addInt]
      omega
    rw [List.range'_zero, List.map_nil, same, Machine.bind_of_ok none, stays]
    rfl
  | succ more ih =>
    rw [List.range'_succ, List.map_cons] at named
    obtain ⟨rest, others⟩ : ∃ rest, (List.range' (i + 1) more).map (iovec v) = rest := ⟨_, rfl⟩
    rw [others] at named
    subst named
    have there := fits.there
    have offset := fits.offset
    have count := fits.count
    rw [total_cons] at offset count
    have first := there (iovec v i) List.mem_cons_self
    have count' : (iovec v i).iov_len < 2 ^ 31 := by omega
    have call : filewriteUser fat p (iovec v i).iov_base (lowInt (iovec v i).iov_len) s = _ :=
      (congrFun (filewriteUser_all (iovec_base_lt v i) _) s).trans
        ((writeConcat_there first count').trans (writeFrom_laid h admits first (by omega) count'))
    have length := bytesAt_length s.pr (buffer (iovec v i).iov_base) (iovec v i).iov_len
    have length' := bytesAt_length s.pr (concat rest) (total rest)
    rw [eachBuffer, if_neg (by omega), bytesAt_concat]
    refine (Machine.bind_congr_run call).trans ?_
    generalize bytesAt s.pr (buffer (iovec v i).iov_base) (iovec v i).iov_len = xs at length
    obtain ⟨ys, eq⟩ : ∃ ys, bytesAt s.pr (concat rest) (total rest) = ys := ⟨_, rfl⟩
    rw [eq] at length' ⊢
    refine Eq.trans ?_ (Machine.bind_congr_run (laid_append admits (by omega))).symm
    rw [bind_assoc]
    cases wrote : laid fat xs s with
    | error stop => rw [Machine.bind_of_error wrote, Machine.bind_of_error wrote]
    | ok r =>
      obtain ⟨r, t⟩ := r
      obtain ⟨rfl, behind⟩ := laid_after h admits (by omega) wrote
      have fits' : Fits t rest := by
        refine ⟨?_, ?_, by omega⟩
        · rw [behind.memory]
          exact fun b' mem => there b' (List.mem_cons_of_mem _ mem)
        · rw [behind.off, length]
          omega
      have again := ih behind.writes behind.admits others fits' (by omega) (.inr behind.some)
        (addInt_lt len xs.length)
      rw [behind.memory, eq] at again
      rw [Machine.bind_of_ok wrote, Machine.bind_of_ok wrote, again, bind_assoc]
      cases wrote' : laid fat ys t with
      | error stop => rw [Machine.bind_of_error wrote', Machine.bind_of_error wrote']
      | ok r =>
        obtain ⟨r', u⟩ := r
        obtain ⟨rfl, -⟩ := laid_after behind.writes behind.admits (by rw [behind.off]; omega) wrote'
        rw [Machine.bind_of_ok wrote', Machine.bind_of_ok wrote', addInt_addInt]
        rfl

/-- The loop counts what each buffer has. -/
theorem eachBuffer_counts (counts : Counts p s.file) (named : (List.range' i more).map (iovec v) = bufs)
    (inside : i + more ≤ IOVMAX) (small : len + total bufs < 2 ^ 31) :
    eachBuffer (filewriteUser fat p) v more i len s = .ok (len + total bufs, s.count p (total bufs)) := by
  induction more generalizing i len s bufs with
  | zero =>
    subst named
    have same : s.count p (total [] : Nat) = s := by
      have value : s.file.char_count p + (total [] : Nat) = s.file.char_count p := Int.add_zero _
      rw [Caller.count, Opened.setCharCount, value, Function.update_eq_self]
    rw [List.range'_zero, List.map_nil, same]
    rfl
  | succ more ih =>
    rw [List.range'_succ, List.map_cons] at named
    obtain ⟨rest, others⟩ : ∃ rest, (List.range' (i + 1) more).map (iovec v) = rest := ⟨_, rfl⟩
    rw [others] at named
    subst named
    rw [total_cons] at small ⊢
    have value : lowInt (iovec v i).iov_len = (iovec v i).iov_len := lowInt_small (by omega)
    have call : filewriteUser fat p (iovec v i).iov_base (lowInt (iovec v i).iov_len) s = _ :=
      (congrFun (filewriteUser_all (iovec_base_lt v i) _) s).trans (writeConcat_counts counts _ _)
    have now : (s.count p (iovec v i).iov_len).file.char_count p = s.file.char_count p + (iovec v i).iov_len :=
      Function.update_self ..
    have counts' : Counts p (s.count p (iovec v i).iov_len).file := by
      refine ⟨counts.1, ?_⟩
      have := counts.2
      rw [now]
      omega
    have both : (s.count p (iovec v i).iov_len).count p (total rest) =
        s.count p ((iovec v i).iov_len + total rest : Nat) := by
      rw [Caller.count, now, Caller.count, Caller.count, Opened.setCharCount, Opened.setCharCount, Opened.setCharCount,
        Nat.cast_add, Int.add_assoc]
      simp only [Function.update_idem]
    rw [eachBuffer, if_neg (by omega), Machine.bind_of_ok call, value, addInt_small (by omega),
      ih counts' others (by omega) (by omega), both, Nat.add_assoc]

/-! ### One buffer with bytes -/

theorem fromUser_congr {place' : Nat → Nat} (same : ∀ i < n, place i = place' i) :
    ∀ k m, k + m ≤ n → (fromUser pr place).copy k m = (fromUser pr place').copy k m := by
  intro k m le
  have part : ∀ i < m, place (k + i) = place' (k + i) := fun i lt => same _ (by omega)
  have leads : lead pr (fun i => place (k + i)) m = lead pr (fun i => place' (k + i)) m := lead_congr part
  have within := lead_le pr (fun i => place' (k + i)) m
  have bytes : bytesAt pr (fun i => place (k + i)) (lead pr (fun i => place' (k + i)) m) = _ :=
    bytesAt_congr fun i lt => part i (lt.trans_le within)
  rw [fromUser, fromUser]
  dsimp only
  rw [leads]
  exact congrArg (·, _) bytes

/-- Only the places of its bytes matter to a write. -/
theorem writeConcat_congr {place' : Nat → Nat} (some : 0 < n) (small : n < 2 ^ 32)
    (same : ∀ i < n, place i = place' i) :
    writeConcat fat p place (lowInt n) s = writeConcat fat p place' (lowInt n) s := by
  have whole : uint (lowInt n) = n := uint_lowInt small
  have sources : filewrite fat p (fromUser s.pr place) (lowInt n) = filewrite fat p (fromUser s.pr place') (lowInt n) := by
    funext f
    rw [filewrite, filewrite]
    have ewrite : ∀ ep off, Fat.ewrite fat ep (fromUser s.pr place) off (uint (lowInt n)) =
        Fat.ewrite fat ep (fromUser s.pr place') off (uint (lowInt n)) := fun ep off =>
      Fat.ewrite_congr (whole.symm ▸ fromUser_congr same) ep off
    simp only [ewrite]
  have froms : writeFrom fat p place (lowInt n) s = writeFrom fat p place' (lowInt n) s := by
    rw [writeFrom, writeFrom, Machine.bind_of_ok (Machine.get_run s), Machine.bind_of_ok (Machine.get_run s), sources]
  rw [writeConcat, writeConcat, Machine.bind_of_ok (Machine.get_run s), Machine.bind_of_ok (Machine.get_run s),
    same 0 some]
  by_cases wild : WildIn (place' 0) ∧ Sends s.file p (lowInt n)
  · rw [if_pos wild, if_pos wild]
  · rw [if_neg wild, if_neg wild, froms]

/-- Writes of nothing. -/
theorem eachBuffer_nothing (fat : Geometry) (h : Writes p s) (admits : Admits s.file) (small : s.file.off < 2 ^ 32)
    (some : s.file.ep.first_clus ≠ 0) (named : (List.range' i more).map (iovec v) = bufs) (none : total bufs = 0)
    (inside : i + more ≤ IOVMAX) (le : len < 2 ^ 64) :
    eachBuffer (filewriteUser fat p) v more i len s = .ok (len, s) := by
  obtain ⟨t, run, rfl⟩ := @eachBuffer_fixed s i len more v 0 (filewriteUser fat p) (fun t => t = s) (by
    rintro j low high _ rfl
    have mem : iovec v j ∈ bufs := by
      rw [← named]
      exact List.mem_map_of_mem (List.mem_range'_1.mpr ⟨low, high⟩)
    have empty : (iovec v j).iov_len = 0 :=
      List.sum_eq_zero_iff_forall_eq_nat.mp none _ (List.mem_map_of_mem mem)
    have zero : lowInt 0 = 0 := rfl
    rw [empty, zero]
    exact ⟨_, (congrFun (filewriteUser_all (iovec_base_lt v j) _) _).trans
      (writeConcat_nothing h admits small some _), rfl⟩) rfl inside le
  have value : addInt len 0 = len := by
    rw [addInt]
    omega
  rw [Int.mul_zero, value] at run
  exact run

/-- Where one buffer has all the bytes, the loop does its write, whatever becomes of it. -/
theorem eachBuffer_single {front back : List Iovec} (h : Writes p s) (admits : Admits s.file)
    (small : s.file.off < 2 ^ 32) (some : s.file.ep.first_clus ≠ 0)
    (named : (List.range' 0 n).map (iovec v) = front ++ b :: back) (first : total front = 0) (last : total back = 0)
    (count : b.iov_len < 2 ^ 31) (inside : n ≤ IOVMAX) :
    eachBuffer (filewriteUser fat p) v n 0 0 s = (do
      let r ← writeConcat fat p (concat (front ++ b :: back)) (lowInt (total (front ++ b :: back)))
      return addInt 0 r) s := by
  have all : total (front ++ b :: back) = b.iov_len := by
    rw [total_append, total_cons]
    omega
  obtain ⟨rfl, names, names'⟩ := named_append named
  rw [List.length_cons] at inside
  rw [List.length_cons, List.range'_succ, List.map_cons, List.cons.injEq, Nat.zero_add] at names'
  obtain ⟨name, names'⟩ := names'
  have run := eachBuffer_nothing fat h admits small some names first (by omega) (Nat.two_pow_pos 64)
  have whole : writeConcat fat p (concat (front ++ b :: back)) (lowInt b.iov_len) s =
      writeConcat fat p (buffer b.iov_base) (lowInt b.iov_len) s := by
    rcases Nat.eq_zero_or_pos b.iov_len with none | pos
    · have zero : lowInt 0 = 0 := rfl
      rw [none, zero, writeConcat_nothing h admits small some, writeConcat_nothing h admits small some]
    · refine writeConcat_congr pos (by omega) fun i lt => ?_
      have place := concat_right front (List.cons_ne_nil b back) i
      rw [first, Nat.zero_add] at place
      rw [place, concat_front lt]
  have call : filewriteUser fat p b.iov_base (lowInt b.iov_len) s = _ :=
    (congrFun (filewriteUser_all (name ▸ iovec_base_lt v front.length) _) s).trans whole.symm
  rw [List.length_cons, eachBuffer_add, Machine.bind_of_ok run, Nat.zero_add, eachBuffer, if_neg (by omega), name, all]
  refine (Machine.bind_congr_run call).trans ?_
  cases wrote : writeConcat fat p (concat (front ++ b :: back)) (lowInt b.iov_len) s with
  | error stop => rw [Machine.bind_of_error wrote, Machine.bind_of_error wrote]
  | ok r =>
    obtain ⟨r, t⟩ := r
    obtain ⟨writes, admits', small', some'⟩ := writeConcat_leaves h admits small some count wrote
    rw [Machine.bind_of_ok wrote, Machine.bind_of_ok wrote,
      eachBuffer_nothing fat writes admits' small' some' names' last (by omega) (addInt_lt 0 r)]
    rfl

end AvxKernel.File
