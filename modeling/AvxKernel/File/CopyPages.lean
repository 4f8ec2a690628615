import AvxKernel.File.CopyRange
import AvxKernel.File.Sent

/-! When `sys_copy_file_range` copies. -/
namespace AvxKernel.File

open Fat (Geometry Disk Dirent Contents SameFile Takes portion)

variable {fat : Geometry} {cs : List Nat} {data bytes xs ys : List UInt8} {s t : Copying} {behind : Memory}
  {free rest ps pbuf : List Nat} {page : Nat → Memory} {p q n m i j k len high off more : Nat}

/-! ### Pages -/

/-- The state behind the allocation of a page that is then cleared. -/
def Copying.given (s : Copying) (p : Nat) (free : List Nat) : Copying :=
  { s with free, page := Function.update s.page p fun _ => 0 }

theorem kalloc_cons (eq : s.free = p :: free) :
    kalloc s = .ok (some p, { s with free, page := Function.update s.page p fun _ => 5 }) := by
  rw [kalloc, Machine.bind_of_ok (Machine.get_run s), eq]
  rfl

theorem kalloc_nil (eq : s.free = []) : kalloc s = .ok (none, s) := by
  rw [kalloc, Machine.bind_of_ok (Machine.get_run s), eq]
  rfl

theorem clear_given (p : Nat) :
    clear (some p) { s with free, page := Function.update s.page p fun _ => 5 } = .ok (p, s.given p free) := by
  simp only [clear, Machine.bind_of_ok (Machine.modify_run _ _), Function.update_idem]
  rfl

/-- A page that is allocated and cleared. -/
theorem clear_kalloc (eq : s.free = p :: free) : (kalloc >>= clear) s = .ok (p, s.given p free) := by
  rw [Machine.bind_of_ok (kalloc_cons eq), clear_given]

/-- Without a page `memset` faults. -/
theorem clear_kalloc_nil (eq : s.free = []) : (kalloc >>= clear) s = .error .fault := by
  rw [Machine.bind_of_ok (kalloc_nil eq)]
  rfl

/-- What the pages hold once some of them have been cleared. -/
def cleared (ps : List Nat) (page : Nat → Memory) : Nat → Memory :=
  fun q => if q ∈ ps then fun _ => 0 else page q

theorem cleared_cons (p : Nat) (ps : List Nat) (page : Nat → Memory) :
    cleared ps (Function.update page p fun _ => 0) = cleared (p :: ps) page := by
  funext q
  rw [cleared, cleared]
  by_cases here : q = p
  · subst here
    rw [Function.update_self, ite_self, if_pos List.mem_cons_self]
  · simp only [Function.update_of_ne here, List.mem_cons, here, false_or]

theorem fillPages_run (eq : s.free = ps ++ rest) (inside : pbuf.length + ps.length ≤ POINTERS) :
    fillPages ps.length pbuf s = .ok (pbuf ++ ps, { s with free := rest, page := cleared ps s.page }) := by
  induction ps generalizing s pbuf with
  | nil =>
    rw [List.append_nil]
    rw [List.nil_append] at eq
    rw [← eq]
    rfl
  | cons p ps ih =>
    rw [List.length_cons] at inside ⊢
    rw [List.cons_append] at eq
    rw [fillPages, Machine.bind_of_ok (kalloc_cons eq), if_neg (by omega),
      Machine.bind_of_ok (clear_given p), ih (s := s.given p (ps ++ rest)) rfl]
    · rw [List.append_assoc, Copying.given]
      dsimp only
      rw [cleared_cons]
      rfl
    · rw [List.length_append, List.length_singleton]
      omega

/-- With too few pages, or places for them, the loop does not end. -/
theorem fillPages_stops (few : pbuf.length ≤ POINTERS)
    (short : s.free.length < more ∨ POINTERS < pbuf.length + more) :
    ∃ stop, fillPages more pbuf s = .error stop := by
  induction more generalizing s pbuf with
  | zero => omega
  | succ more ih =>
    rw [fillPages]
    cases eq : s.free with
    | nil =>
      rw [Machine.bind_of_ok (kalloc_nil eq)]
      split
      · exact ⟨_, rfl⟩
      · exact ⟨_, rfl⟩
    | cons p free =>
      rw [Machine.bind_of_ok (kalloc_cons eq)]
      split
      · exact ⟨_, rfl⟩
      · next place =>
        rw [Machine.bind_of_ok (clear_given p)]
        apply ih
        · rw [List.length_append, List.length_singleton]
          omega
        · rw [eq, List.length_cons] at short
          rw [List.length_append, List.length_singleton, Copying.given]
          dsimp only
          omega

theorem pageAt_run (hi : i < pbuf.length) (inside : pbuf.length ≤ POINTERS) (s : Copying) :
    pageAt pbuf i s = .ok (pbuf[i], s) := by
  rw [pageAt, if_pos (by omega), Int.toNat_natCast, List.getD_eq_getElem _ _ hi]
  rfl

/-! ### Reading -/

/-- The state behind the read of a page. -/
def Copying.got (s : Copying) (src : Dirent) (p : Nat) (bytes : List UInt8) : Copying :=
  { s with src, page := Function.update s.page p ((s.page p).blit 0 bytes) }

theorem Copying.got_page (s : Copying) (src : Dirent) (p : Nat) (bytes : List UInt8) :
    (s.got src p bytes).page p = (s.page p).blit 0 bytes := Function.update_self ..

theorem Copying.got_page_ne (s : Copying) (src : Dirent) (bytes : List UInt8) (ne : q ≠ p) :
    (s.got src p bytes).page q = s.page q := Function.update_of_ne ne ..

theorem readPage_run (h : Contents fat cs data s.disk s.src) (hi : i < pbuf.length) (inside : pbuf.length ≤ POINTERS)
    (few : n ≤ PGSIZE) (there : s.inOff + PGSIZE * i + n ≤ data.length) : ∃ src, SameFile s.src src ∧
    Contents fat cs data s.disk src ∧ readPage fat pbuf n i s =
      .ok ((), s.got src pbuf[i] ((data.drop (s.inOff + PGSIZE * i)).take n)) := by
  have narrow := h.narrow
  rw [PGSIZE] at few there
  have asked : u32 n = n := Nat.mod_eq_of_lt (by omega)
  have place : u32 (s.inOff + PGSIZE * i) = s.inOff + PGSIZE * i := Nat.mod_eq_of_lt (by rw [PGSIZE]; omega)
  obtain ⟨src, run, same, contents⟩ := @Contents.eread_run _ _ _ _ _ (s.inOff + PGSIZE * i) n h (by omega)
  rw [portion_eq data (by rw [PGSIZE]; omega)] at run
  refine ⟨src, same, contents, ?_⟩
  rw [readPage, Machine.bind_of_ok (pageAt_run hi inside s), Machine.bind_of_ok (Machine.get_run s),
    Int.toNat_natCast, place, asked, run]
  rfl

theorem pages_distinct (nodup : pbuf.Nodup) (hi : i < pbuf.length) (hj : j < pbuf.length) (ne : i ≠ j) :
    pbuf[i] ≠ pbuf[j] := fun same => ne ((nodup.getElem_inj_iff).mp same)

/-- The pages are read one after the other. -/
theorem readPages_run (h : Contents fat cs data s.disk s.src) (nodup : pbuf.Nodup) (inside : pbuf.length ≤ POINTERS)
    (all : i + more ≤ pbuf.length) (there : s.inOff + PGSIZE * (i + more) ≤ data.length) :
    ∃ src page, SameFile s.src src ∧ Contents fat cs data s.disk src ∧
      rounds (readPage fat pbuf PGSIZE) more i s = .ok ((), { s with src, page }) ∧
      (∀ j (hj : j < pbuf.length), i ≤ j → j < i + more →
        (page pbuf[j]).window 0 PGSIZE = (data.drop (s.inOff + PGSIZE * j)).take PGSIZE) ∧
      ∀ j (hj : j < pbuf.length), j < i ∨ i + more ≤ j → page pbuf[j] = s.page pbuf[j] := by
  induction more generalizing i s with
  | zero =>
    exact ⟨s.src, s.page, .refl _, h, rfl, fun j _ low high => absurd high (by omega), fun _ _ _ => rfl⟩
  | succ more ih =>
    have here : i < pbuf.length := by omega
    have whole : PGSIZE * (i + (more + 1)) = PGSIZE * i + (PGSIZE * more + PGSIZE) := by
      rw [Nat.mul_add, Nat.mul_add, Nat.mul_one]
    have fits : s.inOff + PGSIZE * i + PGSIZE ≤ data.length := by omega
    obtain ⟨src, same, contents, run⟩ :=
      @readPage_run fat cs data s pbuf PGSIZE i h here inside (Nat.le_refl _) fits
    obtain ⟨src', page, same', contents', run', read, kept⟩ := ih (i := i + 1)
      (s := s.got src pbuf[i] ((data.drop (s.inOff + PGSIZE * i)).take PGSIZE)) contents (by omega) (by
        rw [Nat.add_right_comm, Nat.add_assoc]
        exact there)
    have length : ((data.drop (s.inOff + PGSIZE * i)).take PGSIZE).length = PGSIZE := by
      rw [List.length_take, List.length_drop]
      omega
    refine ⟨src', page, same.trans same', contents', ?_, ?_, ?_⟩
    · rw [rounds, Machine.bind_of_ok run]
      exact run'
    · intro j hj low high
      by_cases first : j = i
      · subst first
        rw [kept j hj (.inl (Nat.lt_succ_self j)), Copying.got_page]
        have window := (s.page pbuf[j]).window_blit_same 0 ((data.drop (s.inOff + PGSIZE * j)).take PGSIZE)
        rwa [length] at window
      · exact read j hj (by omega) (by omega)
    · intro j hj out
      rw [kept j hj (by omega), Copying.got_page_ne _ _ _ (pages_distinct nodup hj here (by omega))]

/-! ### Writing -/

/-- The state behind a write. -/
def Copying.put (s : Copying) (r : (Int × Dirent) × Disk) : Copying := { s with dst := r.1.2, disk := r.2 }

theorem writeAt_run (low : off < 2 ^ 32) (few : n < 2 ^ 32) : writeAt fat bytes off n s =
    (Fat.ewrite fat s.dst (.ofBytes bytes) off n s.disk).map fun r => ((), s.put r) := by
  have asked : u32 n = n := Nat.mod_eq_of_lt few
  have place : u32 off = off := Nat.mod_eq_of_lt low
  rw [writeAt, Machine.bind_of_ok (Machine.get_run s), asked, place]
  cases Fat.ewrite fat s.dst (.ofBytes bytes) off n s.disk with
  | error stop => rfl
  | ok r => rfl

theorem writePage_run (hi : i < pbuf.length) (inside : pbuf.length ≤ POINTERS)
    (held : (s.page pbuf[i]).window 0 n = bytes) (takes : Takes s.dst (s.outOff + PGSIZE * i) n) :
    writePage fat pbuf n i s =
      (Fat.ewrite fat s.dst (.ofBytes bytes) (s.outOff + PGSIZE * i) n s.disk).map fun r => ((), s.put r) := by
  have small := takes.2.1
  rw [writePage, Machine.bind_of_ok (pageAt_run hi inside s), Machine.bind_of_ok (Machine.get_run s), held,
    Int.toNat_natCast, writeAt_run (by omega) (by omega)]

/-- Two writes, one behind the other. -/
theorem put_append {x y : Machine Copying Unit} {e : Dirent} {d : Disk} (takes : Takes e off (xs.length + ys.length))
    (first : x s = (Fat.ewrite fat e (.ofBytes xs) off xs.length d).map fun r => ((), t.put r))
    (second : ∀ r, Fat.ewrite fat e (.ofBytes xs) off xs.length d = .ok r → y (t.put r) =
      (Fat.ewrite fat r.1.2 (.ofBytes ys) (off + xs.length) ys.length r.2).map fun r => ((), t.put r)) :
    (x >>= fun _ => y) s =
      (Fat.ewrite fat e (.ofBytes (xs ++ ys)) off (xs.length + ys.length) d).map fun r => ((), t.put r) := by
  rw [Fat.ewrite_append takes]
  cases run : Fat.ewrite fat e (.ofBytes xs) off xs.length d with
  | error stop =>
    rw [run] at first
    rw [Machine.bind_of_error first, Machine.bind_of_error run]
    rfl
  | ok r =>
    have behind := second r run
    rw [run] at first
    rw [Machine.bind_of_ok first, Machine.bind_of_ok run, behind]
    dsimp only
    cases run' : Fat.ewrite fat r.1.2 (.ofBytes ys) (off + xs.length) ys.length r.2 with
    | error stop => rw [Machine.bind_of_error run']
    | ok r' =>
      rw [Machine.bind_of_ok run']
      rfl

/-- The pages are written one after the other, the last one in part. -/
theorem writePages_run {whole : List UInt8} (inside : pbuf.length ≤ POINTERS) (last : pbuf.length = m + 1)
    (length : whole.length = PGSIZE * m + n) (rounds_eq : i + more = m)
    (full : ∀ j (hj : j < pbuf.length), i ≤ j → j < m →
      (s.page pbuf[j]).window 0 PGSIZE = (whole.drop (PGSIZE * j)).take PGSIZE)
    (part : (s.page pbuf[m]).window 0 n = whole.drop (PGSIZE * m))
    (takes : Takes s.dst (s.outOff + PGSIZE * i) (whole.drop (PGSIZE * i)).length) :
    (do
      rounds (writePage fat pbuf PGSIZE) more i
      writePage fat pbuf n m) s =
      (Fat.ewrite fat s.dst (.ofBytes (whole.drop (PGSIZE * i))) (s.outOff + PGSIZE * i)
        (whole.drop (PGSIZE * i)).length s.disk).map fun r => ((), s.put r) := by
  induction more generalizing i s with
  | zero =>
    obtain rfl : i = m := rounds_eq
    have rest : (whole.drop (PGSIZE * i)).length = n := by
      rw [List.length_drop, length, Nat.add_sub_cancel_left]
    rw [rest] at takes ⊢
    rw [rounds, pure_bind]
    exact writePage_run (by omega) inside part takes
  | succ more ih =>
    have here : i < pbuf.length := by omega
    have next : PGSIZE * i + PGSIZE = PGSIZE * (i + 1) := (Nat.mul_succ ..).symm
    have room : PGSIZE * (i + 1) ≤ PGSIZE * m := Nat.mul_le_mul_left _ (by omega)
    obtain ⟨ys, behind⟩ : ∃ ys, whole.drop (PGSIZE * (i + 1)) = ys := ⟨_, rfl⟩
    obtain ⟨xs, front⟩ : ∃ xs, (whole.drop (PGSIZE * i)).take PGSIZE = xs := ⟨_, rfl⟩
    have split : whole.drop (PGSIZE * i) = xs ++ ys := by
      rw [← front, ← behind, ← next, ← List.drop_drop, List.take_append_drop]
    have size : xs.length = PGSIZE := by
      rw [← front, List.length_take, List.length_drop]
      omega
    rw [split, List.length_append] at takes ⊢
    rw [rounds, bind_assoc]
    have first : Takes s.dst (s.outOff + PGSIZE * i) PGSIZE := ⟨takes.1, by have := takes.2.1; omega, takes.2.2⟩
    have held : (s.page pbuf[i]).window 0 PGSIZE = xs := (full i here (Nat.le_refl i) (by omega)).trans front
    have wrote := @writePage_run fat _ _ _ _ _ here inside held first
    apply put_append takes
    · rw [size]
      exact wrote
    · intro r run
      have taken : Takes r.1.2 (s.outOff + PGSIZE * i + xs.length) ys.length :=
        (Fat.takes_next (size.symm ▸ first) run).mpr takes
      rw [← behind] at taken ⊢
      rw [size, Nat.add_assoc, next] at taken ⊢
      exact ih (s := s.put r) (by omega) (fun j hj low high => full j hj (by omega) high) part taken

theorem gapBytes_length (behind : Memory) (n : Nat) : (gapBytes behind n).length = n := by
  rw [gapBytes, List.length_map, List.length_range]

/-- The gap is written, and its page given back. -/
theorem fillGap_run {gap : List UInt8} (eq : s.free = p :: free) (before : s.dst.file_size < s.outOff)
    (is : gapBytes behind (s.outOff - s.dst.file_size) = gap) (low : s.outOff < 2 ^ 32) : ∃ page,
    (∀ q, q ≠ p → page q = s.page q) ∧ fillGap fat behind s =
      (Fat.ewrite fat s.dst (.ofBytes gap) s.dst.file_size gap.length s.disk).map
        fun r => ((), { s with page }.put r) := by
  have length := gapBytes_length behind (s.outOff - s.dst.file_size)
  rw [is] at length
  refine ⟨Function.update (s.given p free).page p fun _ => 1, ?_, ?_⟩
  · exact fun q ne => (Function.update_of_ne ne _ _).trans (Function.update_of_ne ne _ _)
  · have wrote := @writeAt_run fat gap (s.given p free) gap.length s.dst.file_size (by omega) (by omega)
    rw [fillGap, Machine.bind_of_ok (Machine.get_run s), if_pos before, is, ← length, ← bind_assoc,
      Machine.bind_of_ok (clear_kalloc eq)]
    change (writeAt fat gap s.dst.file_size gap.length >>= _) (s.given p free) = _
    change writeAt fat gap s.dst.file_size gap.length (s.given p free) =
      (Fat.ewrite fat s.dst (.ofBytes gap) s.dst.file_size gap.length s.disk).map _ at wrote
    cases run : Fat.ewrite fat s.dst (.ofBytes gap) s.dst.file_size gap.length s.disk with
    | error stop =>
      rw [run] at wrote
      exact Machine.bind_of_error wrote
    | ok r =>
      rw [run] at wrote
      rw [Machine.bind_of_ok wrote, Except.map]
      unfold Copying.put Copying.given
      rw [eq]
      rfl

/-- The pages are given back. -/
theorem freePages_run (inside : pbuf.length ≤ POINTERS) (all : i + more ≤ pbuf.length) : ∃ free page,
    rounds (fun i => do kfree (← pageAt pbuf i)) more i s = .ok ((), { s with free, page }) ∧
      free.Perm ((pbuf.drop i).take more ++ s.free) := by
  induction more generalizing i s with
  | zero => exact ⟨s.free, s.page, rfl, .refl _⟩
  | succ more ih =>
    have here : i < pbuf.length := by omega
    obtain ⟨free, page, run, perm⟩ := ih (i := i + 1)
      (s := { s with free := pbuf[i] :: s.free, page := Function.update s.page pbuf[i] fun _ => 1 }) (by omega)
    refine ⟨free, page, ?_, ?_⟩
    · rw [rounds, bind_assoc, Machine.bind_of_ok (pageAt_run here inside s)]
      exact run
    · rw [List.drop_eq_getElem_cons here, List.take_succ_cons, List.cons_append]
      exact perm.trans List.perm_middle

/-! ### All of the call -/

/-- The pages hold these bytes, the last one in part. -/
structure Held (pbuf : List Nat) (page : Nat → Memory) (m n : Nat) (whole : List UInt8) : Prop where
  last : pbuf.length = m + 1
  length : whole.length = PGSIZE * m + n
  full : ∀ j (hj : j < pbuf.length), j < m → (page pbuf[j]).window 0 PGSIZE = (whole.drop (PGSIZE * j)).take PGSIZE
  part : (page pbuf[m]).window 0 n = whole.drop (PGSIZE * m)

theorem Held.congr {page' : Nat → Memory} {whole : List UInt8} (h : Held pbuf page m n whole)
    (same : ∀ q ∈ pbuf, page' q = page q) : Held pbuf page' m n whole where
  last := h.last
  length := h.length
  full j hj lt := by
    rw [same _ (List.getElem_mem hj)]
    exact h.full j hj lt
  part := by
    rw [same _ (List.getElem_mem _)]
    exact h.part

theorem readAll_run (h : Contents fat cs data s.disk s.src) (nodup : pbuf.Nodup) (inside : pbuf.length ≤ POINTERS)
    (last : pbuf.length = m + 1) (few : n ≤ PGSIZE) (there : s.inOff + (PGSIZE * m + n) ≤ data.length) :
    ∃ src page, SameFile s.src src ∧ (do
        rounds (readPage fat pbuf PGSIZE) m 0
        readPage fat pbuf n m) s = .ok ((), { s with src, page }) ∧
      Held pbuf page m n ((data.drop s.inOff).take (PGSIZE * m + n)) := by
  obtain ⟨src, page, same, contents, run, read, kept⟩ := @readPages_run fat cs data s pbuf 0 m h nodup inside
    (by omega) (by rw [Nat.zero_add]; omega)
  have here : m < pbuf.length := by omega
  obtain ⟨src', same', -, run'⟩ := @readPage_run fat cs data { s with src, page } pbuf n m contents here inside few
    (by rw [Nat.add_assoc]; exact there)
  refine ⟨src', _, same.trans same', (Machine.bind_of_ok run).trans run', last, ?_, ?_, ?_⟩
  · rw [List.length_take, List.length_drop]
    omega
  · intro j hj lt
    have room : PGSIZE * j + PGSIZE ≤ PGSIZE * m := by
      rw [← Nat.mul_succ]
      exact Nat.mul_le_mul_left _ lt
    rw [Function.update_of_ne (pages_distinct nodup hj here (by omega)), read j hj (Nat.zero_le _) (by omega),
      List.drop_take, List.drop_drop, List.take_take, Nat.min_eq_left (by omega)]
  · have length : ((data.drop (s.inOff + PGSIZE * m)).take n).length = n := by
      rw [List.length_take, List.length_drop]
      omega
    have window := (page pbuf[m]).window_blit_same 0 ((data.drop (s.inOff + PGSIZE * m)).take n)
    rw [length] at window
    rw [Function.update_self, window, List.drop_take, List.drop_drop, Nat.add_sub_cancel_left]

theorem writeAll_run {whole gap : List UInt8} (held : Held pbuf s.page m n whole) (inside : pbuf.length ≤ POINTERS)
    (pages : s.dst.file_size < s.outOff → ∃ p free, s.free = p :: free ∧ p ∉ pbuf)
    (is : gapBytes behind (s.outOff - s.dst.file_size) = gap)
    (takes : Takes s.dst (min s.outOff s.dst.file_size) (gap.length + whole.length)) : ∃ page, (do
      fillGap fat behind
      rounds (writePage fat pbuf PGSIZE) m 0
      writePage fat pbuf n m) s =
      (Fat.ewrite fat s.dst (.ofBytes (gap ++ whole)) (min s.outOff s.dst.file_size) (gap.length + whole.length)
        s.disk).map fun r => ((), { s with page }.put r) := by
  have length := gapBytes_length behind (s.outOff - s.dst.file_size)
  rw [is] at length
  have small := takes.2.1
  have start : min s.outOff s.dst.file_size + gap.length = s.outOff := by omega
  have pages_run : ∀ t : Copying, Held pbuf t.page m n whole → t.outOff = s.outOff →
      Takes t.dst s.outOff whole.length → (do
        rounds (writePage fat pbuf PGSIZE) m 0
        writePage fat pbuf n m) t =
        (Fat.ewrite fat t.dst (.ofBytes whole) s.outOff whole.length t.disk).map fun r => ((), t.put r) := by
    intro t held out takes
    have run := @writePages_run fat t pbuf n m 0 m whole inside held.last held.length (Nat.zero_add m)
      (fun j hj _ lt => held.full j hj lt) held.part (by
        rw [Nat.mul_zero, Nat.add_zero, List.drop_zero, out]
        exact takes)
    rw [Nat.mul_zero, Nat.add_zero, List.drop_zero, out] at run
    exact run
  by_cases before : s.dst.file_size < s.outOff
  · obtain ⟨p, free, eq, fresh⟩ := pages before
    rw [Nat.min_eq_right before.le] at start takes ⊢
    obtain ⟨page, same, run⟩ := @fillGap_run fat s behind free p gap eq before is (by omega)
    refine ⟨page, ?_⟩
    apply put_append takes run
    intro r wrote
    rw [start]
    have taken : Takes r.1.2 (s.dst.file_size + gap.length) whole.length :=
      (Fat.takes_next ⟨takes.1, by omega, takes.2.2⟩ wrote).mpr takes
    rw [start] at taken
    exact pages_run ({ s with page }.put r) (held.congr fun q mem => same q fun here => fresh (here ▸ mem)) rfl taken
  · have none : gap = [] := List.length_eq_zero_iff.mp (by omega)
    subst none
    have skip : fillGap fat behind s = .ok ((), s) := by
      rw [fillGap, Machine.bind_of_ok (Machine.get_run s), if_neg before]
      rfl
    rw [Nat.min_eq_left (by omega), List.length_nil, Nat.zero_add] at takes ⊢
    rw [List.nil_append]
    exact ⟨s.page, (Machine.bind_of_ok skip).trans (pages_run s held rfl takes)⟩

/-- The pages that the call counts, and the length of the last one. -/
theorem pagenum_eq (size : len = PGSIZE * m + n) (some : 0 < n) (few : n ≤ PGSIZE) (small : m < 2 ^ 30) :
    lowInt (if len % PGSIZE = 0 then len / PGSIZE else len / PGSIZE + 1) = (m + 1 : Nat) ∧
      uint64 (len - PGSIZE * ((m + 1 : Nat) - 1 : Int)) = n := by
  rw [PGSIZE] at few size ⊢
  have count : (if len % 4096 = 0 then len / 4096 else len / 4096 + 1) = m + 1 := by
    split <;> omega
  constructor
  · rw [count]
    exact lowInt_small (by omega)
  · rw [uint64]
    omega

/-- Between the reads and the writes. -/
structure Loaded (s v : Copying) (top : Nat) (pbuf rest : List Nat) (m n : Nat) (bytes : List UInt8) : Prop where
  had : s.free = top :: (pbuf ++ rest)
  free : v.free = rest
  files : v.disk = s.disk ∧ v.dst = s.dst ∧ v.outOff = s.outOff
  source : SameFile s.src v.src
  inOff : v.inOff = s.inOff + bytes.length
  held : Held pbuf v.page m n bytes

variable (fat behind) in
/-- All writes. -/
def writeAll (pbuf : List Nat) (m n : Nat) : Machine Copying Unit := do
  fillGap fat behind
  rounds (writePage fat pbuf PGSIZE) m 0
  writePage fat pbuf n m

theorem copyRange_loads (h : Contents fat cs data s.disk s.src) (nodup : s.free.Nodup)
    (size : len = PGSIZE * m + n) (some : 0 < n) (few : n ≤ PGSIZE) (small : m < POINTERS)
    (enough : m + 1 < s.free.length) (there : s.inOff + len ≤ data.length) :
    ∃ top pbuf rest v, Loaded s v top pbuf rest m n ((data.drop s.inOff).take len) ∧
      copyRange fat behind 0 len s = (do
        writeAll fat behind pbuf m n
        modify fun s : Copying => { s with outOff := u32 (s.outOff + len) }
        rounds (fun i => do kfree (← pageAt pbuf i)) (m + 1) 0
        kfree top) v := by
  have narrow := h.narrow
  obtain ⟨top, free, eq⟩ := List.exists_cons_of_length_pos (Nat.zero_lt_of_lt enough)
  rw [eq, List.length_cons] at enough
  obtain ⟨pbuf, front⟩ : ∃ pbuf, free.take (m + 1) = pbuf := ⟨_, rfl⟩
  obtain ⟨rest, back⟩ : ∃ rest, free.drop (m + 1) = rest := ⟨_, rfl⟩
  have ptrs : pbuf.length = m + 1 := by
    rw [← front, List.length_take]
    omega
  have cut : free = pbuf ++ rest := by
    rw [← front, ← back, List.take_append_drop]
  rw [cut] at eq
  have distinct : pbuf.Nodup := by
    rw [eq, List.nodup_cons] at nodup
    exact (List.nodup_append.mp nodup.2).1
  obtain ⟨pagenum, lastlen⟩ := pagenum_eq size some few (small.trans (by decide))
  have index : ((m + 1 : Nat) : Int) - 1 = m := by omega
  have inside : pbuf.length ≤ POINTERS := by omega
  have fill := @fillPages_run (s.given top (pbuf ++ rest)) rest pbuf [] rfl (by rw [List.length_nil]; omega)
  rw [ptrs, List.nil_append] at fill
  obtain ⟨src, page, same, read, held⟩ := @readAll_run fat cs data
    { s.given top (pbuf ++ rest) with free := rest, page := cleared pbuf (s.given top (pbuf ++ rest)).page }
    pbuf n m h distinct inside ptrs few (size ▸ there)
  have bytes : ((data.drop s.inOff).take len).length = len := by
    rw [List.length_take, List.length_drop]
    omega
  have moved : u32 (s.inOff + len) = s.inOff + len := Nat.mod_eq_of_lt (by omega)
  rw [← size] at held
  refine ⟨top, pbuf, rest, { s with src, page, free := rest, inOff := s.inOff + len },
    ⟨eq, rfl, ⟨rfl, rfl, rfl⟩, same, by rw [bytes], held⟩, ?_⟩
  have reads : ∀ after : Machine Copying Unit, (do
      rounds (readPage fat pbuf PGSIZE) m 0
      readPage fat pbuf n m
      modify fun s : Copying => { s with inOff := u32 (s.inOff + len) }
      after) { s.given top (pbuf ++ rest) with
        free := rest, page := cleared pbuf (s.given top (pbuf ++ rest)).page } =
      after { s with src, page, free := rest, inOff := s.inOff + len } := by
    intro after
    rw [← bind_assoc, Machine.bind_of_ok read, ← moved]
    rfl
  rw [copyRange]
  dsimp only
  rw [pagenum, lastlen, index, Int.toNat_natCast, Int.toNat_natCast, ← bind_assoc,
    Machine.bind_of_ok (clear_kalloc eq), Machine.bind_of_ok fill, if_pos rfl]
  refine (reads _).trans ?_
  simp only [writeAll, bind_assoc]

/-- With pages enough the call is one write, and gives all pages back. -/
theorem copyRange_run {gap : List UInt8} (h : Contents fat cs data s.disk s.src) (nodup : s.free.Nodup)
    (size : len = PGSIZE * m + n) (some : 0 < n) (few : n ≤ PGSIZE) (low : m < POINTERS)
    (enough : m + 1 + (if s.dst.file_size < s.outOff then 2 else 1) ≤ s.free.length)
    (there : s.inOff + len ≤ data.length) (is : gapBytes behind (s.outOff - s.dst.file_size) = gap)
    (takes : Takes s.dst (min s.outOff s.dst.file_size) (gap.length + len)) :
    let whole := Fat.ewrite fat s.dst (.ofBytes (gap ++ (data.drop s.inOff).take len))
      (min s.outOff s.dst.file_size) (gap.length + len) s.disk
    (∀ stop, whole = .error stop → copyRange fat behind 0 len s = .error stop) ∧
    ∀ r, whole = .ok r → ∃ t, copyRange fat behind 0 len s = .ok ((), t) ∧ t.disk = r.2 ∧ t.dst = r.1.2 ∧
      SameFile s.src t.src ∧ t.inOff = s.inOff + len ∧ t.outOff = s.outOff + len ∧ t.free.Perm s.free := by
  intro whole
  have bytes : ((data.drop s.inOff).take len).length = len := by
    rw [List.length_take, List.length_drop]
    omega
  have length := gapBytes_length behind (s.outOff - s.dst.file_size)
  rw [is] at length
  have small := takes.2.1
  have pages : m + 1 < s.free.length ∧ (s.dst.file_size < s.outOff → m + 2 < s.free.length) := by
    split at enough
    · exact ⟨by omega, fun _ => by omega⟩
    · next back => exact ⟨by omega, fun before => absurd before back⟩
  obtain ⟨top, pbuf, rest, v, loaded, run⟩ :=
    @copyRange_loads fat cs data s behind n m len h nodup size some few low pages.1 there
  obtain ⟨disk, dst, out⟩ := loaded.files
  have ptrs := loaded.held.last
  have inside : pbuf.length ≤ POINTERS := by omega
  have next : u32 (v.outOff + len) = v.outOff + len := Nat.mod_eq_of_lt (by omega)
  have gapPage : v.dst.file_size < v.outOff → ∃ p free, v.free = p :: free ∧ p ∉ pbuf := by
    intro before
    rw [dst, out] at before
    have more := pages.2 before
    rw [loaded.had, List.nodup_cons, List.nodup_append] at nodup
    rw [loaded.had, List.length_cons, List.length_append] at more
    obtain ⟨p, free, cons⟩ := List.exists_cons_of_length_pos (show 0 < rest.length by omega)
    exact ⟨p, free, loaded.free.trans cons,
      fun mem => nodup.2.2.2 p mem p (cons ▸ List.mem_cons_self) rfl⟩
  obtain ⟨page, wrote⟩ := @writeAll_run fat v behind pbuf n m _ gap loaded.held inside gapPage
    (by rw [dst, out]; exact is) (by rw [dst, out, bytes]; exact takes)
  have same : Fat.ewrite fat v.dst (.ofBytes (gap ++ (data.drop s.inOff).take len)) (min v.outOff v.dst.file_size)
      (gap.length + ((data.drop s.inOff).take len).length) v.disk = whole := by
    rw [dst, out, disk, bytes]
  rw [same] at wrote
  change writeAll fat behind pbuf m n v = whole.map _ at wrote
  rw [run]
  constructor
  · intro stop stops
    rw [stops] at wrote
    exact Machine.bind_of_error wrote
  · intro r written
    rw [written] at wrote
    obtain ⟨free, page', freed, perm⟩ := @freePages_run
      { ({ v with page } : Copying).put r with outOff := v.outOff + len } pbuf 0 pbuf.length inside (by omega)
    rw [List.drop_zero, List.take_length] at perm
    refine ⟨{ ({ v with page } : Copying).put r with
      outOff := v.outOff + len, free := top :: free, page := Function.update page' top fun _ => 1 }, ?_, rfl, rfl,
      loaded.source, ?_, ?_, ?_⟩
    · rw [Machine.bind_of_ok wrote, Machine.bind_of_ok (Machine.modify_run _ _)]
      change (rounds _ _ _ >>= _) { ({ v with page } : Copying).put r with outOff := u32 (v.outOff + len) } = _
      rw [next, ← ptrs, Machine.bind_of_ok freed]
      rfl
    · rw [← bytes]
      exact loaded.inOff
    · rw [← out]
    · rw [loaded.had]
      exact (loaded.free ▸ perm).cons top

/-- Without places or pages enough the call stops. -/
theorem copyRange_stops (size : len = PGSIZE * m + n) (some : 0 < n) (few : n ≤ PGSIZE) (small : m < 2 ^ 30)
    (short : POINTERS < m + 1 ∨ s.free.length < m + 2) : ∃ stop, copyRange fat behind 0 len s = .error stop := by
  obtain ⟨pagenum, -⟩ := pagenum_eq size some few small
  rw [copyRange]
  dsimp only
  rw [pagenum, Int.toNat_natCast, ← bind_assoc]
  cases eq : s.free with
  | nil => exact ⟨_, Machine.bind_of_error (clear_kalloc_nil eq)⟩
  | cons top free =>
    rw [eq, List.length_cons] at short
    obtain ⟨stop, stops⟩ := @fillPages_stops (s.given top free) [] (m + 1) (Nat.zero_le _) (by
      rw [List.length_nil, Copying.given]
      dsimp only
      omega)
    rw [Machine.bind_of_ok (clear_kalloc eq)]
    exact ⟨stop, Machine.bind_of_error stops⟩

/-- So it does without a page for the gap. -/
theorem copyRange_gap_stops (h : Contents fat cs data s.disk s.src) (nodup : s.free.Nodup)
    (size : len = PGSIZE * m + n) (some : 0 < n) (few : n ≤ PGSIZE) (small : m < POINTERS)
    (there : s.inOff + len ≤ data.length) (before : s.dst.file_size < s.outOff) (short : s.free.length = m + 2) :
    ∃ stop, copyRange fat behind 0 len s = .error stop := by
  obtain ⟨top, pbuf, rest, v, loaded, run⟩ :=
    @copyRange_loads fat cs data s behind n m len h nodup size some few small (by omega) there
  obtain ⟨-, dst, out⟩ := loaded.files
  have last := loaded.held.last
  have none : rest = [] := by
    rw [loaded.had, List.length_cons, List.length_append] at short
    exact List.length_eq_zero_iff.mp (by omega)
  have stops : fillGap fat behind v = .error .fault := by
    rw [fillGap, Machine.bind_of_ok (Machine.get_run v), if_pos (by rw [dst, out]; exact before), ← bind_assoc]
    exact Machine.bind_of_error (clear_kalloc_nil (loaded.free.trans none))
  refine ⟨.fault, run.trans (Machine.bind_of_error ?_)⟩
  exact Machine.bind_of_error stops

theorem pagesFor_eq (size : len = PGSIZE * m + n) (some : 0 < n) (few : n ≤ PGSIZE) : pagesFor len = m + 1 := by
  rw [pagesFor]
  rw [PGSIZE] at few size ⊢
  omega

/-- The full pages of a length, and the part of the last one. -/
theorem pages_split (some : 0 < len) : ∃ m n, len = PGSIZE * m + n ∧ 0 < n ∧ n ≤ PGSIZE := by
  refine ⟨(len - 1) / PGSIZE, len - PGSIZE * ((len - 1) / PGSIZE), ?_⟩
  rw [PGSIZE]
  omega

/-- The call copies what it is asked for, and gives its pages back, just where it fetches the
length of what is there and has pages, places for them, and room. -/
theorem sys_copy_file_range_copies (h : Contents fat cs data s.disk s.src) (nodup : s.free.Nodup) :
    (∃ r t, sys_copy_file_range fat behind 0 len high s = .ok (r, t) ∧ Copied fat data len r s t) ↔
      Copyable fat data behind len high s := by
  have narrow := h.narrow
  have file_size := h.size
  rw [Copyable, sys_copy_file_range]
  obtain ⟨count, fetched⟩ : ∃ count, 2 ^ 32 * high + u32 len = count := ⟨_, rfl⟩
  rw [fetched]
  by_cases zero : count = 0
  · rw [if_pos zero]
    constructor
    · rintro ⟨r, t, ends, copied⟩
      cases ends
      exact ⟨zero.trans copied.count, fun pos => absurd zero (Nat.ne_of_gt pos)⟩
    · rintro ⟨left, -⟩
      rw [zero] at left
      exact ⟨0, s, rfl, left, rfl, rfl, .refl _, .refl _, fun _ => ⟨rfl, rfl⟩, fun pos => absurd pos (by decide)⟩
  have pos : 0 < count := Nat.pos_of_ne_zero zero
  rw [if_neg zero]
  obtain ⟨m, n, size, some, few⟩ := pages_split pos
  rw [pagesFor_eq size some few]
  obtain ⟨gap, is⟩ : ∃ gap, gapBytes behind (s.outOff - s.dst.file_size) = gap := ⟨_, rfl⟩
  have gap_length := gapBytes_length behind (s.outOff - s.dst.file_size)
  rw [is] at gap_length ⊢
  constructor
  · rintro ⟨r, t, ends, copied⟩
    obtain ⟨_, u, run, ends⟩ := Machine.bind_ok.mp ends
    cases ends
    have left := copied.count
    rw [Copying.left] at left
    have small : m < 2 ^ 30 := by
      rw [PGSIZE] at size
      omega
    have there : s.inOff + count ≤ data.length := by omega
    have places : m + 1 ≤ POINTERS ∧ m + 2 ≤ s.free.length := by
      by_contra short
      obtain ⟨stop, stops⟩ := @copyRange_stops fat s behind n m count size some few small (by omega)
      cases stops.symm.trans run
    have enough : m + 1 + (if s.dst.file_size < s.outOff then 2 else 1) ≤ s.free.length := by
      split
      · next before =>
        by_contra short
        obtain ⟨stop, stops⟩ := @copyRange_gap_stops fat cs data s behind n m count h nodup size some few
          (by omega) there before (by omega)
        cases stops.symm.trans run
      · exact places.2
    obtain ⟨gap', v, length, takes, -⟩ := copied.written pos
    rw [length, ← gap_length] at takes
    refine ⟨left, fun _ => ⟨places.1, enough, takes, ?_⟩⟩
    have runs := @copyRange_run fat cs data s behind n m count gap h nodup size some few (by omega) enough there is takes
    cases wrote : Fat.ewrite fat s.dst (.ofBytes (gap ++ (data.drop s.inOff).take count))
        (min s.outOff s.dst.file_size) (gap.length + count) s.disk with
    | error stop => cases (runs.1 stop wrote).symm.trans run
    | ok r => exact ⟨r, rfl⟩
  · rintro ⟨left, able⟩
    obtain ⟨places, enough, takes, r, wrote⟩ := able pos
    have there : s.inOff + count ≤ data.length := by
      rw [Copying.left] at left
      omega
    have runs := @copyRange_run fat cs data s behind n m count gap h nodup size some few (by omega) enough there is takes
    obtain ⟨t, run, disk, dst, source, inOff, outOff, pages⟩ := runs.2 r wrote
    refine ⟨count, t, Machine.bind_of_ok run, left, inOff, outOff, pages, source,
      fun none => absurd none zero, fun _ => ⟨gap, r.1.1, gap_length, takes, ?_⟩⟩
    rw [wrote, disk, dst]

/-- The file of a letter, to be copied to one in cluster 3, with two free pages. -/
def copying : Copying where
  disk := letterDisk
  src := letterFile
  dst := sending.dst
  inOff := 0
  outOff := 0
  free := [1, 2]
  page _ _ := 0

theorem copying_contents : Contents Fat.smallVolume [6] [65] copying.disk copying.src := by
  rw [copying]
  dsimp only
  exact letterDisk_contents

theorem ok_of_isOk {α : Type} {x : Except Halt α} (h : x.isOk = true) : ∃ r, x = .ok r := by
  cases x with
  | error stop => cases h
  | ok r => exact ⟨r, rfl⟩

/-- The letter is copied. -/
theorem sys_copy_file_range_copies_letter :
    ∃ r t, sys_copy_file_range Fat.smallVolume (fun _ => 0) 0 1 0 copying = .ok (r, t) ∧
      Copied Fat.smallVolume [65] 1 r copying t := by
  refine (sys_copy_file_range_copies copying_contents (by decide)).mpr
    ⟨by decide, fun _ => ⟨by decide, by decide, by decide, ?_⟩⟩
  have wrote : (Fat.ewrite Fat.smallVolume copying.dst (.ofBytes ([] ++ ([65].drop 0).take 1)) 0 (0 + 1)
      copying.disk).isOk = true := by decide
  exact ok_of_isOk wrote

/-- Of two bytes that are asked for one is there, and the call returns two. -/
theorem sys_copy_file_range_overcounts :
    Contents Fat.smallVolume [6] [65] copying.disk copying.src ∧
    (sys_copy_file_range Fat.smallVolume (fun _ => 0) 0 2 0 copying).toOption.map
      (fun r => (r.1, r.2.inOff, r.2.dst.file_size)) = some (2, 2, 2) ∧
    ¬∃ r t, sys_copy_file_range Fat.smallVolume (fun _ => 0) 0 2 0 copying = .ok (r, t) ∧
      Copied Fat.smallVolume [65] 2 r copying t := by
  have counts : (sys_copy_file_range Fat.smallVolume (fun _ => 0) 0 2 0 copying).toOption.map
      (fun r => (r.1, r.2.inOff, r.2.dst.file_size)) = some (2, 2, 2) := by decide
  refine ⟨copying_contents, counts, ?_⟩
  rintro ⟨r, t, run, copied⟩
  rw [run] at counts
  have value : r = 2 := congrArg Prod.fst (Option.some.inj counts)
  have one : r = 1 := copied.count
  omega

end AvxKernel.File
