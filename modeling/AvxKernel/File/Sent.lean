import AvxKernel.File.Send

/-! What `file_send` does is what it is for just where no piece is refused. -/
namespace AvxKernel.File

open Fat (Geometry Disk Dirent Contents Intact SameFile Takes Leaves Counted leaves_any portion relocForward
  relocFromStart reloc_clus rw_clus_read ereadFrom)
open Ipc (User)
open Vm (MAXVA)

variable {fat : Geometry} {cs : List Nat} {data bytes piece rest : List UInt8} {d : Disk} {e : Dirent}
  {s t u : Transfer} {limit n off o ret addr r : Nat}

/-! ### Reads, whatever the disk -/

theorem relocForward_same (alloc : Bool) (more : Nat) :
    Leaves (relocForward fat alloc more e) d fun r _ => SameFile e r.2 := by
  induction more generalizing d e with
  | zero => exact Machine.Ends.pure (.refl e)
  | succ more ih =>
    have next : ∀ c t, Leaves (relocForward fat alloc more (e.advance c)) t fun r _ => SameFile e r.2 :=
      fun c t => ih.mono fun r _ same => (SameFile.advance e c).trans same
    rw [relocForward]
    apply Machine.Ends.bind (leaves_any _ d)
    intro c t _
    apply Machine.Ends.ite
    · intro _
      apply Machine.Ends.ite
      · intro _
        apply Machine.Ends.bind (leaves_any _ t)
        intro c u _
        exact Machine.Ends.bind (leaves_any _ u) fun _ v _ => next c v
      · exact fun _ => Machine.Ends.pure ⟨_, _, rfl⟩
    · intro _
      apply Machine.Ends.ite
      · exact fun _ => Machine.Ends.halt trivial
      · exact fun _ => next c t

theorem reloc_clus_keeps (off : Nat) (alloc : Bool) :
    Leaves (reloc_clus fat e off alloc) d fun r _ => SameFile e r.2 := by
  rw [reloc_clus]
  apply Machine.Ends.bind (relocForward_same alloc _)
  rintro ⟨there, e'⟩ t same
  apply Machine.Ends.ite
  · exact fun _ => Machine.Ends.pure same
  intro _
  apply Machine.Ends.bind (R := fun r _ => SameFile e r)
  · apply Machine.Ends.ite
    · intro _
      refine (Fat.relocFromStart_count _).mono fun r _ counted => same.trans ?_
      exact SameFile.trans ⟨_, _, rfl⟩ counted.1
    · exact fun _ => Machine.Ends.pure same
  · exact fun e'' u same' => Machine.Ends.pure same'

theorem ereadFrom_length {tot : Nat} : Leaves (ereadFrom fat n limit e tot off) d fun r _ =>
    r.1.length ≤ n - tot ∧ SameFile e r.2 := by
  induction limit generalizing d e tot off with
  | zero => exact Machine.Ends.halt trivial
  | succ limit ih =>
    rw [ereadFrom]
    apply Machine.Ends.ite
    · rintro ⟨-, more⟩
      apply Machine.Ends.bind (reloc_clus_keeps off false)
      rintro ⟨_, e'⟩ t same
      apply Machine.Ends.bind (leaves_any _ t).with_run
      rintro part u ⟨-, read⟩
      obtain ⟨length, -⟩ := Fat.rw_clus_read_length read
      apply Machine.Ends.bind ih
      rintro ⟨others, e''⟩ v ⟨le, same'⟩
      refine Machine.Ends.pure ⟨?_, same.trans same'⟩
      change others.length ≤ _ at le
      rw [List.length_append, length]
      omega
    · exact fun _ => Machine.Ends.pure ⟨Nat.zero_le _, .refl e⟩

/-- A read gives no more than is asked for, and than there is. -/
theorem eread_length (low : o < 2 ^ 32) (few : n < 2 ^ 32) : Leaves (Fat.eread fat e o n) d fun r _ =>
    r.1 = lowInt r.2.1.length ∧ r.2.1.length ≤ n ∧ (r.2.1 = [] ∨ o + r.2.1.length ≤ e.file_size) ∧
      SameFile e r.2.2 := by
  rw [Fat.eread]
  apply Machine.Ends.ite
  · exact fun _ => Machine.Ends.pure ⟨rfl, Nat.zero_le _, .inl rfl, .refl e⟩
  intro inside
  rw [not_or, not_or, Nat.not_lt, Nat.not_lt, u32] at inside
  obtain ⟨start, whole, -⟩ := inside
  dsimp only
  apply Machine.Ends.bind ereadFrom_length
  rintro ⟨bytes, e'⟩ t ⟨le, same⟩
  change bytes.length ≤ _ at le
  refine Machine.Ends.pure ⟨rfl, ?_, .inr ?_, same⟩
  · change bytes.length ≤ n
    split at le
    · next past =>
      rw [u32] at past
      omega
    · omega
  · change o + bytes.length ≤ e.file_size
    split at le
    · omega
    · next fits =>
      rw [u32] at fits
      omega

/-! ### What the loop counts -/

/-- What is known of a call if it returns. -/
abbrev Yields {α : Type} (x : Machine Transfer α) (s : Transfer) (Q : α → Transfer → Prop) : Prop :=
  Machine.Ends (fun _ => True) x s Q

/-- So many bytes have been read behind the loop, and so much has been taken from `ret` by the
pieces that were refused. -/
structure Tally (size off ret : Nat) (r : Nat × Nat) (read failed : Nat) : Prop where
  behind : r.1 = u64 (off + read)
  value : u64 (r.2 + failed) = u64 (ret + read)
  few : failed ≤ 2 * read
  inside : read = 0 ∨ u32 off + read ≤ size

variable {size k w read failed : Nat} {ends : Nat × Nat}

theorem Tally.none (wide : off < 2 ^ 64) : Tally size off ret (off, ret) 0 0 :=
  ⟨(Nat.mod_eq_of_lt wide).symm, rfl, Nat.zero_le _, .inl rfl⟩

theorem u32_next (narrow : size < 2 ^ 32) (inside : u32 off + k ≤ size) : u32 (u64 (off + k)) = u32 off + k := by
  rw [u32] at inside ⊢
  rw [u64, u32]
  omega

/-- A piece that is taken. -/
theorem Tally.taken (h : Tally size (u64 (off + k)) (u64 (ret + k)) ends read failed) (narrow : size < 2 ^ 32)
    (inside : u32 off + k ≤ size) : Tally size off ret ends (k + read) failed := by
  have next := u32_next narrow inside
  obtain ⟨off_eq, ret_eq, few, within⟩ := h
  refine ⟨?_, ?_, by omega, .inr ?_⟩
  · rw [off_eq, u64, u64, u64]
    omega
  · rw [ret_eq, u64, u64, u64]
    omega
  · omega

/-- A piece that is refused counts `-1`. -/
theorem Tally.refused (h : Tally size (u64 (off + k)) (u64 (ret + (2 ^ 64 - 1))) ends read failed)
    (some : 0 < k) (narrow : size < 2 ^ 32) (inside : u32 off + k ≤ size) :
    Tally size off ret ends (k + read) (failed + (k + 1)) := by
  have next := u32_next narrow inside
  obtain ⟨off_eq, ret_eq, few, within⟩ := h
  refine ⟨?_, ?_, by omega, .inr ?_⟩
  · rw [off_eq, u64, u64, u64]
    omega
  · rw [u64, u64, u64] at ret_eq
    rw [u64, u64]
    omega
  · omega

theorem uint64_small (h : n < 2 ^ 31) : uint64 (lowInt n) = n := by
  rw [lowInt_small h, uint64]
  omega

theorem fileinput_length (few : n ≤ 512) : Yields (fileinput fat n off) s fun r t =>
    r.1 = r.2.length ∧ (r.2 = [] ∨ u32 off + r.2.length ≤ s.src.file_size) ∧
      t.src.file_size = s.src.file_size ∧ r.2.length ≤ 512 := by
  have low : u32 off < 2 ^ 32 := Nat.mod_lt _ (by decide)
  have asked : u32 n = n := Nat.mod_eq_of_lt (by omega)
  have reads := @eread_length fat s.disk s.src n (u32 off) low (by omega)
  rw [fileinput, asked]
  apply Machine.Ends.get_bind
  cases run : Fat.eread fat s.src (u32 off) n s.disk with
  | error stop => exact Machine.Ends.of_error rfl trivial
  | ok r =>
    obtain ⟨⟨r, bytes, src⟩, disk⟩ := r
    obtain ⟨value, le, inside, same⟩ := reads.ok run
    dsimp only at value le inside same
    refine Machine.Ends.of_ok rfl ⟨?_, inside, same.fields.1, le.trans few⟩
    rw [value, uint64_small (by omega)]

/-- What comes back of a piece. -/
theorem sendPiece_counts (few : piece.length ≤ 512) : Yields (sendPiece fat piece piece.length) s fun w t =>
    t.src = s.src ∧ (w = piece.length ∨ w = 2 ^ 64 - 1) := by
  have asked : u32 piece.length = piece.length := Nat.mod_eq_of_lt (by omega)
  rw [sendPiece]
  apply Machine.Ends.get_bind
  rw [fileoutput, asked, bind_assoc]
  apply Machine.Ends.get_bind
  cases run : Fat.ewrite fat s.dst (.ofBytes piece) (u32 s.outOff) piece.length s.disk with
  | error stop => exact Machine.Ends.of_error rfl trivial
  | ok r =>
    obtain ⟨⟨r, dst⟩, disk⟩ := r
    refine Machine.Ends.of_ok rfl ⟨rfl, ?_⟩
    by_cases takes : Takes s.dst (u32 s.outOff) piece.length
    · obtain ⟨value, -⟩ := (Fat.ewrite_after takes).ok run
      dsimp only at value
      rw [value, uint64_small (by omega)]
      exact .inl rfl
    · rw [Fat.ewrite_refused takes] at run
      cases run
      exact .inr rfl

/-- Each piece is counted or refused, whatever is written where. -/
theorem sendFrom_counts (narrow : s.src.file_size < 2 ^ 32) (wide : off < 2 ^ 64) :
    Yields (sendFrom fat limit n off ret) s fun r _ => ∃ read failed, Tally s.src.file_size off ret r read failed := by
  induction limit generalizing n off ret s with
  | zero => exact Machine.Ends.halt trivial
  | succ limit ih =>
    have piece : (if 512 < n then 512 else n) ≤ 512 := by
      split <;> omega
    rw [sendFrom]
    apply Machine.Ends.ite
    · exact fun _ => Machine.Ends.pure ⟨0, 0, .none wide⟩
    intro _
    apply Machine.Ends.bind (fileinput_length piece)
    rintro ⟨rlen, buf⟩ t ⟨value, inside, size, few⟩
    dsimp only at value inside few ⊢
    subst value
    have further : u64 (off + buf.length) < 2 ^ 64 := Nat.mod_lt _ (by decide)
    apply Machine.Ends.ite
    · intro none
      have stays : u64 (off + buf.length) = off := by
        rw [none]
        exact Nat.mod_eq_of_lt wide
      rw [stays]
      exact Machine.Ends.pure ⟨0, 0, .none wide⟩
    intro some
    have pos : 0 < buf.length := Nat.pos_of_ne_zero some
    replace inside := inside.resolve_left (List.length_pos_iff.mp pos)
    apply Machine.Ends.bind (sendPiece_counts few)
    rintro w u ⟨source, counted⟩
    rw [← size, ← source] at inside narrow
    refine (ih narrow further).mono ?_
    rintro r v ⟨read, failed, tally⟩
    rw [← size, ← source]
    rcases counted with rfl | rfl
    · exact ⟨_, _, tally.taken narrow inside⟩
    · exact ⟨_, _, tally.refused pos narrow inside⟩

/-! ### Pieces that are taken -/

/-- The state behind a write of so many bytes. -/
def Transfer.wrote (s : Transfer) (dst : Dirent) (disk : Disk) (n : Nat) : Transfer :=
  { s with disk, dst, outOff := s.outOff + n }

theorem Transfer.wrote_wrote (dst : Dirent) (disk : Disk) (n : Nat) (dst' : Dirent) (disk' : Disk) (m : Nat) :
    (s.wrote dst disk n).wrote dst' disk' m = s.wrote dst' disk' (n + m) := by
  simp only [wrote, Nat.add_assoc]

variable (fat cs bytes) in
/-- Writes of the bytes, or of the first of them, leave the clusters of the source alone. -/
def Apart (s : Transfer) : Prop := ∀ m r d,
  Fat.ewrite fat s.dst (.ofBytes (bytes.take m)) s.outOff (bytes.take m).length s.disk = .ok (r, d) →
    Intact fat cs s.disk d

variable (fat cs data n addr) in
/-- When the call does what it is for: the offset is no address that makes `copyin` panic, and
where it can be read, either no byte comes from there, or it is a `uint` and the destination
takes all bytes at once, with clusters left for them that are none of the source's. -/
def Sendable (s : Transfer) : Prop :=
  let bytes := sent data (n + 1) n (u32 (s.offset addr))
  (addr ≠ 0 → ¬WildIn addr) ∧ (s.Given addr → bytes = [] ∨
    s.offset addr < 2 ^ 32 ∧ Takes s.dst s.outOff bytes.length ∧ Apart fat cs bytes s ∧
      ∃ u, append fat bytes s = .ok ((), u))

theorem sendPiece_run (takes : Takes s.dst s.outOff bytes.length) : sendPiece fat bytes bytes.length s =
    (Fat.ewrite fat s.dst (.ofBytes bytes) s.outOff bytes.length s.disk).map
      fun r => (uint64 (lowInt bytes.length), s.wrote r.1.2 r.2 bytes.length) := by
  have small := takes.2.1
  have asked : u32 bytes.length = bytes.length := Nat.mod_eq_of_lt (by omega)
  have place : u32 s.outOff = s.outOff := Nat.mod_eq_of_lt (by omega)
  have next : u32 (s.outOff + uint64 (lowInt bytes.length)) = s.outOff + bytes.length := by
    rw [uint64, lowInt, asked, u32]
    split <;> omega
  rw [sendPiece, Machine.bind_of_ok (Machine.get_run s), fileoutput, asked, place, bind_assoc,
    Machine.bind_of_ok (Machine.get_run s)]
  cases run : Fat.ewrite fat s.dst (.ofBytes bytes) s.outOff bytes.length s.disk with
  | error stop => rfl
  | ok r =>
    obtain ⟨⟨r, dst⟩, disk⟩ := r
    obtain ⟨value, -⟩ := (Fat.ewrite_after takes).ok run
    dsimp only at value
    subst value
    rw [Except.map, Transfer.wrote, ← next]
    rfl

theorem sendPiece_refused (refused : ¬Takes s.dst s.outOff bytes.length) (low : s.outOff < 2 ^ 32)
    (small : bytes.length < 2 ^ 32) : ∃ outOff,
    sendPiece fat bytes bytes.length s = .ok (2 ^ 64 - 1, { s with outOff }) := by
  have asked : u32 bytes.length = bytes.length := Nat.mod_eq_of_lt small
  have place : u32 s.outOff = s.outOff := Nat.mod_eq_of_lt low
  refine ⟨u32 (s.outOff + (2 ^ 64 - 1)), ?_⟩
  rw [sendPiece, Machine.bind_of_ok (Machine.get_run s), fileoutput, asked, place, bind_assoc,
    Machine.bind_of_ok (Machine.get_run s), Fat.ewrite_refused refused]
  rfl

theorem append_run (takes : bytes ≠ [] → Takes s.dst s.outOff bytes.length) : append fat bytes s =
    if bytes = [] then .ok ((), s) else
      (Fat.ewrite fat s.dst (.ofBytes bytes) s.outOff bytes.length s.disk).map
        fun r => ((), s.wrote r.1.2 r.2 bytes.length) := by
  rw [append, Machine.ite_run]
  split
  · rfl
  · next some =>
    have piece := @sendPiece_run fat bytes s (takes some)
    cases run : Fat.ewrite fat s.dst (.ofBytes bytes) s.outOff bytes.length s.disk with
    | error stop =>
      rw [run] at piece
      exact Machine.bind_of_error piece
    | ok r =>
      rw [run] at piece
      exact Machine.bind_of_ok piece

/-- The bytes of a piece and those behind it are written at once. -/
theorem append_piece (some : piece ≠ []) (takes : Takes s.dst s.outOff (piece ++ rest).length) :
    append fat (piece ++ rest) s = (do
      let _ ← sendPiece fat piece piece.length
      append fat rest) s := by
  have length := @List.length_append _ piece rest
  have pos := List.length_pos_iff.mpr some
  have all : piece ++ rest ≠ [] := List.append_ne_nil_of_left_ne_nil some rest
  rw [length] at takes
  have first : Takes s.dst s.outOff piece.length := ⟨takes.1, by have := takes.2.1; omega, takes.2.2⟩
  have whole := @Fat.ewrite_append fat s.disk _ _ _ _ takes
  rw [append_run fun _ => by rw [length]; exact takes, if_neg all, length, whole]
  have sends := @sendPiece_run fat piece s first
  cases run : Fat.ewrite fat s.dst (.ofBytes piece) s.outOff piece.length s.disk with
  | error stop =>
    rw [run] at sends
    rw [Machine.bind_of_error run, Machine.bind_of_error sends]
    rfl
  | ok r =>
    obtain ⟨⟨v, dst⟩, disk⟩ := r
    obtain ⟨-, -, -, begun, -⟩ := (Fat.ewrite_after first).ok run
    have next : Takes dst (s.outOff + piece.length) rest.length := (Fat.takes_next first run).mpr takes
    rw [run] at sends
    rw [Machine.bind_of_ok run, Machine.bind_of_ok sends]
    change _ = append fat rest (s.wrote dst disk piece.length)
    rw [append_run fun _ => next]
    dsimp only
    split
    · next none =>
      subst none
      rw [List.length_nil, Machine.bind_of_ok (Fat.ewrite_nil next begun)]
      rfl
    · change _ = (Fat.ewrite fat dst (.ofBytes rest) (s.outOff + piece.length) rest.length disk).map _
      cases run' : Fat.ewrite fat dst (.ofBytes rest) (s.outOff + piece.length) rest.length disk with
      | error stop =>
        rw [Machine.bind_of_error run']
        rfl
      | ok r =>
        rw [Machine.bind_of_ok run']
        simp only [Except.map, Transfer.wrote_wrote]
        rfl

theorem Apart.next {v : Int} {dst : Dirent} {disk : Disk} (h : Apart fat cs (piece ++ rest) s)
    (takes : Takes s.dst s.outOff piece.length)
    (run : Fat.ewrite fat s.dst (.ofBytes piece) s.outOff piece.length s.disk = .ok ((v, dst), disk)) :
    Intact fat cs s.disk disk ∧ Apart fat cs rest (s.wrote dst disk piece.length) := by
  have here : Intact fat cs s.disk disk := by
    refine h piece.length (v, dst) disk ?_
    rw [List.take_left]
    exact run
  refine ⟨here, ?_⟩
  intro m r d wrote
  change Fat.ewrite fat dst (.ofBytes (rest.take m)) (s.outOff + piece.length) _ disk = _ at wrote
  by_cases more : Takes dst (s.outOff + piece.length) (rest.take m).length
  · have whole := @Fat.ewrite_append fat s.disk _ _ _ _ ((Fat.takes_next takes run).mp more)
    rw [Machine.bind_of_ok run] at whole
    dsimp only at whole
    rw [Machine.bind_of_ok wrote, ← List.length_append, ← List.take_length_add_append] at whole
    exact here.between (h _ _ _ whole)
  · rw [Fat.ewrite_refused more] at wrote
    cases wrote
    exact .refl ..

/-- Files that share no clusters, with none of the source's clusters to be handed out. -/
theorem Apart.of_withheld (spared : Fat.Spared fat cs s.disk s.disk) (away : Fat.Elsewhere cs s.dst)
    (withheld : Fat.Withheld fat cs s.disk) (bytes : List UInt8) : Apart fat cs bytes s :=
  fun _ _ _ run => ((Fat.ewrite_spared spared away withheld _).ok run).1.intact

/-! ### The loop, piece by piece -/

theorem fileinput_run (h : Contents fat cs data s.disk s.src) (few : n ≤ 512) : ∃ src,
    fileinput fat n off s = .ok (((portion data (u32 off) n).length, portion data (u32 off) n), { s with src }) ∧
      SameFile s.src src ∧ Contents fat cs data s.disk src := by
  have asked : u32 n = n := Nat.mod_eq_of_lt (by omega)
  obtain ⟨src, run, same, contents⟩ := @Contents.eread_run _ _ _ _ _ (u32 off) n h (by omega)
  have le : (portion data (u32 off) n).length ≤ n := by
    rw [portion]
    split
    · exact List.length_take_le ..
    · exact Nat.zero_le _
  have value : uint64 (lowInt (portion data (u32 off) n).length) = _ := uint64_small (by omega)
  refine ⟨src, ?_, same, contents⟩
  rw [← value, fileinput, Machine.bind_of_ok (Machine.get_run s), asked, run]
  rfl

theorem asked_eq (n : Nat) : (if 512 < n then 512 else n) = min n 512 := by
  split <;> omega

/-- Where nothing is left the loop ends. -/
theorem sendFrom_end (h : Contents fat cs data s.disk s.src) (wide : off < 2 ^ 64)
    (none : portion data (u32 off) (min n 512) = []) : ∃ src, SameFile s.src src ∧
      sendFrom fat (limit + 1) n off ret s = .ok ((off, ret), { s with src }) := by
  by_cases zero : n = 0
  · refine ⟨s.src, .refl _, ?_⟩
    rw [sendFrom, if_pos zero]
    rfl
  · obtain ⟨src, run, same, -⟩ := @fileinput_run fat cs data s (min n 512) off h (Nat.min_le_right ..)
    rw [none] at run
    have stays : u64 (off + 0) = off := Nat.mod_eq_of_lt wide
    refine ⟨src, same, ?_⟩
    rw [sendFrom, if_neg zero, asked_eq, Machine.bind_of_ok run, List.length_nil]
    dsimp only
    rw [if_pos rfl, stays]
    rfl

theorem sendFrom_piece (h : Contents fat cs data s.disk s.src) (wide : n < 2 ^ 64)
    (is : portion data (u32 off) (min n 512) = piece) (some : piece ≠ []) : ∃ src, SameFile s.src src ∧
      Contents fat cs data s.disk src ∧ sendFrom fat (limit + 1) n off ret s = (do
        let wlen ← sendPiece fat piece piece.length
        sendFrom fat limit (n - piece.length) (u64 (off + piece.length)) (u64 (ret + wlen))) { s with src } := by
  obtain ⟨src, run, same, contents⟩ := @fileinput_run fat cs data s (min n 512) off h (Nat.min_le_right ..)
  obtain ⟨pos, le, -⟩ := piece_length (is ▸ some)
  rw [is] at run pos le
  have left : addInt n (-piece.length) = n - piece.length := by
    rw [addInt]
    omega
  refine ⟨src, same, contents, ?_⟩
  rw [sendFrom, if_neg (by omega), asked_eq, Machine.bind_of_ok run]
  dsimp only
  rw [if_neg (Nat.ne_of_gt pos), left]

/-- The bytes that are sent: none, or a piece and those behind it. -/
theorem sent_split (enough : n < limit) (is : sent data limit n o = bytes) :
    portion data o (min n 512) = [] ∧ bytes = [] ∨
    ∃ piece rest limit', limit = limit' + 1 ∧ piece ≠ [] ∧ portion data o (min n 512) = piece ∧
      n - piece.length < limit' ∧ o + piece.length ≤ data.length ∧
      sent data limit' (n - piece.length) (o + piece.length) = rest ∧ bytes = piece ++ rest := by
  by_cases none : portion data o (min n 512) = []
  · rw [sent_nil none] at is
    exact .inl ⟨none, is.symm⟩
  · obtain ⟨limit, rfl⟩ := Nat.exists_eq_add_of_lt (Nat.zero_lt_of_lt enough)
    obtain ⟨pos, le, inside⟩ := piece_length none
    rw [Nat.zero_add, sent_cons none] at is
    refine .inr ⟨_, _, limit, by omega, none, rfl, by omega, inside, rfl, is.symm⟩

theorem sendPiece_src (src : Dirent) (takes : Takes s.dst s.outOff bytes.length) :
    sendPiece fat bytes bytes.length { s with src } =
      (sendPiece fat bytes bytes.length s).map fun r => (r.1, { r.2 with src }) := by
  have run := @sendPiece_run fat bytes { s with src } takes
  rw [sendPiece_run takes, run]
  cases Fat.ewrite fat s.dst (.ofBytes bytes) s.outOff bytes.length s.disk with
  | error stop => rfl
  | ok r => rfl

theorem append_src (src : Dirent) (takes : bytes ≠ [] → Takes s.dst s.outOff bytes.length) :
    append fat bytes { s with src } = (append fat bytes s).map fun r => (r.1, { r.2 with src }) := by
  rw [append_run takes, append_run (s := { s with src }) takes]
  split
  · rfl
  · cases Fat.ewrite fat s.dst (.ofBytes bytes) s.outOff bytes.length s.disk with
    | error stop => rfl
    | ok r => rfl

/-- Where the destination takes them all, the pieces are one write. -/
theorem sendFrom_taken (h : Contents fat cs data s.disk s.src) (apart : bytes ≠ [] → Apart fat cs bytes s)
    (enough : n < limit) (wide : n < 2 ^ 64) (wide' : off < 2 ^ 64) (whole : ret < 2 ^ 64)
    (is : sent data limit n (u32 off) = bytes) (takes : bytes ≠ [] → Takes s.dst s.outOff bytes.length) :
    ∃ src, SameFile s.src src ∧ sendFrom fat limit n off ret s = (append fat bytes s).map fun r =>
      ((u64 (off + bytes.length), u64 (ret + bytes.length)), { r.2 with src }) := by
  induction limit generalizing n off ret s bytes with
  | zero => omega
  | succ limit ih =>
    have narrow := h.narrow
    rcases sent_split enough is with ⟨none, rfl⟩ | ⟨piece, rest, _, ⟨⟩, some, first, enough', inside, is', rfl⟩
    · obtain ⟨src, same, run⟩ := @sendFrom_end fat cs data s limit n off ret h wide' none
      have stays : u64 (off + 0) = off := Nat.mod_eq_of_lt wide'
      have stays' : u64 (ret + 0) = ret := Nat.mod_eq_of_lt whole
      refine ⟨src, same, ?_⟩
      rw [run, List.length_nil, stays, stays']
      rfl
    · have fits := takes (List.append_ne_nil_of_left_ne_nil some rest)
      have length := @List.length_append _ piece rest
      have next := u32_next narrow inside
      have taken : Takes s.dst s.outOff piece.length :=
        ⟨fits.1, by have := fits.2.1; omega, fits.2.2⟩
      obtain ⟨src, same, contents, run⟩ := @sendFrom_piece fat cs data piece s limit n off ret h wide first some
      rw [run, append_piece some fits]
      have sends := @sendPiece_run fat piece s taken
      have sends' := @sendPiece_src fat _ _ src taken
      cases wrote : Fat.ewrite fat s.dst (.ofBytes piece) s.outOff piece.length s.disk with
      | error stop =>
        rw [wrote] at sends
        rw [sends] at sends'
        exact ⟨src, same, by rw [Machine.bind_of_error sends, Machine.bind_of_error sends']; rfl⟩
      | ok r =>
        obtain ⟨⟨v, dst⟩, disk⟩ := r
        obtain ⟨intact, apart'⟩ :=
          (apart (List.append_ne_nil_of_left_ne_nil some rest)).next taken wrote
        rw [wrote] at sends
        rw [sends] at sends'
        rw [Machine.bind_of_ok sends, Machine.bind_of_ok sends']
        obtain ⟨pos, le, -⟩ := piece_length (first ▸ some)
        rw [first] at pos le
        have value : uint64 (lowInt piece.length) = piece.length := uint64_small (by omega)
        have next' : rest ≠ [] → Takes (s.wrote dst disk piece.length).dst (s.wrote dst disk piece.length).outOff
            rest.length := fun _ => (Fat.takes_next taken wrote).mpr (length ▸ fits)
        have further : u64 (off + piece.length) < 2 ^ 64 := Nat.mod_lt _ (by decide)
        have further' : u64 (ret + piece.length) < 2 ^ 64 := Nat.mod_lt _ (by decide)
        rw [← next] at is'
        have behind := contents.intact intact
        obtain ⟨src', same', run'⟩ := ih (s := { s.wrote dst disk piece.length with src }) behind
          (fun _ => apart') enough' (by omega) further further' is' next'
        refine ⟨src', same.trans same', ?_⟩
        rw [value]
        refine run'.trans ?_
        rw [append_src src next', length]
        cases append fat rest (s.wrote dst disk piece.length) with
        | error stop => rfl
        | ok r =>
          simp only [Except.map, u64, Nat.mod_add_mod, Nat.add_assoc]

/-- Where it does not take them all, some piece is refused. -/
theorem sendFrom_refused (h : Contents fat cs data s.disk s.src) (apart : Apart fat cs bytes s)
    (low : s.outOff < 2 ^ 32) (enough : n < limit) (wide : n < 2 ^ 64)
    (is : sent data limit n (u32 off) = bytes) (some : bytes ≠ [])
    (refused : ¬Takes s.dst s.outOff bytes.length) :
    Yields (sendFrom fat limit n off ret) s fun r _ => ∃ read failed,
      Tally s.src.file_size off ret r read failed ∧ 0 < failed := by
  induction limit generalizing n off ret s bytes with
  | zero => omega
  | succ limit ih =>
    have narrow := h.narrow
    rcases sent_split enough is with ⟨-, rfl⟩ | ⟨piece, rest, _, ⟨⟩, part, first, enough', inside, is', rfl⟩
    · exact absurd rfl some
    · have length := @List.length_append _ piece rest
      have next := u32_next narrow inside
      obtain ⟨src, same, contents, run⟩ := @sendFrom_piece fat cs data piece s limit n off ret h wide first part
      obtain ⟨pos, le, -⟩ := piece_length (first ▸ part)
      rw [first] at pos le
      rw [← h.size] at inside narrow
      obtain ⟨size, -⟩ := same.fields
      apply Machine.Ends.of_run run
      by_cases taken : Takes s.dst s.outOff piece.length
      · have sends := @sendPiece_src fat _ _ src taken
        rw [sendPiece_run taken] at sends
        cases wrote : Fat.ewrite fat s.dst (.ofBytes piece) s.outOff piece.length s.disk with
        | error stop =>
          rw [wrote] at sends
          exact Machine.Ends.of_error (Machine.bind_of_error sends) trivial
        | ok r =>
          obtain ⟨⟨v, dst⟩, disk⟩ := r
          obtain ⟨intact, apart'⟩ := apart.next taken wrote
          rw [wrote] at sends
          have behind := contents.intact intact
          have left : ¬Takes dst (s.outOff + piece.length) rest.length := fun takes =>
            refused (length ▸ (Fat.takes_next taken wrote).mp takes)
          have some' : rest ≠ [] := by
            rintro rfl
            rw [List.append_nil] at refused
            exact refused taken
          have value : uint64 (lowInt piece.length) = piece.length := uint64_small (by omega)
          have low' : s.outOff + piece.length < 2 ^ 32 := taken.2.1
          rw [← next] at is'
          have rest_run := @ih _ { s.wrote dst disk piece.length with src } _ (u64 (off + piece.length))
            (u64 (ret + piece.length)) behind apart' low' enough' (by omega) is' some' left
          apply Machine.Ends.of_run (Machine.bind_of_ok sends)
          rw [value]
          refine rest_run.mono ?_
          rintro r t ⟨read, failed, tally, pos⟩
          rw [show Dirent.file_size _ = _ from size] at tally
          exact ⟨_, _, tally.taken narrow inside, pos⟩
      · obtain ⟨outOff, sends⟩ := @sendPiece_refused fat piece { s with src } taken low (by omega)
        apply Machine.Ends.of_run (Machine.bind_of_ok sends)
        have narrow' : src.file_size < 2 ^ 32 := size ▸ narrow
        have further : u64 (off + piece.length) < 2 ^ 64 := Nat.mod_lt _ (by decide)
        refine (sendFrom_counts (s := { s with src, outOff }) narrow' further).mono ?_
        rintro r t ⟨read, failed, tally⟩
        rw [show Dirent.file_size _ = _ from size] at tally
        exact ⟨_, _, tally.refused pos narrow inside, by omega⟩

/-! ### The offset of the source -/

theorem userOffset_stored (pr : User) (addr : Nat) (wide : off < 2 ^ 64) :
    userOffset (storeAt pr (buffer addr) (bytesOf off 8)) addr = off := by
  have length := bytesOf_length off 8
  have same : ∀ i < 8, userArray (storeAt pr (buffer addr) (bytesOf off 8)) addr (0 + i) =
      (Memory.store (fun _ => 0) 0 8 off) (0 + i) := by
    intro i hi
    have here : i < (bytesOf off 8).length := by omega
    rw [Memory.store, Memory.blit_inside _ _ here, Nat.zero_add]
    refine storeAt_here here fun i hi j hj same => ?_
    rw [buffer, buffer, u64, u64] at same
    omega
  rw [userOffset, Memory.fetch_congr same, Memory.fetch_store_same _ wide]

/-- What the call leaves of the offset. -/
def Transfer.setOffset (s : Transfer) (addr off : Nat) : Transfer :=
  if addr = 0 then { s with inOff := u32 off }
  else { s with pr := storeAt s.pr (buffer addr) (bytesOf off 8) }

theorem Transfer.setOffset_offset (s : Transfer) (addr : Nat) (wide : off < 2 ^ 64) :
    (s.setOffset addr off).offset addr = if addr = 0 then u32 off else off := by
  rw [setOffset, offset]
  split
  · rfl
  · exact userOffset_stored s.pr addr wide

theorem Transfer.setOffset_fields (s : Transfer) (addr off : Nat) :
    (s.setOffset addr off).disk = s.disk ∧ (s.setOffset addr off).src = s.src ∧
      (s.setOffset addr off).dst = s.dst ∧ (s.setOffset addr off).outOff = s.outOff := by
  rw [setOffset]
  split
  · exact ⟨rfl, rfl, rfl, rfl⟩
  · exact ⟨rfl, rfl, rfl, rfl⟩

theorem sendPiece_keeps (buf : List UInt8) (k : Nat) :
    Yields (sendPiece fat buf k) s fun _ t => t.pr = s.pr := by
  rw [sendPiece]
  apply Machine.Ends.get_bind
  rw [fileoutput, bind_assoc]
  apply Machine.Ends.get_bind
  cases run : Fat.ewrite fat s.dst (.ofBytes buf) (u32 s.outOff) (u32 k) s.disk with
  | error stop => exact Machine.Ends.of_error rfl trivial
  | ok r => exact Machine.Ends.of_ok rfl rfl

/-- The loop leaves the memory of the process alone. -/
theorem sendFrom_keeps : Yields (sendFrom fat limit n off ret) s fun _ t => t.pr = s.pr := by
  induction limit generalizing n off ret s with
  | zero => exact Machine.Ends.halt trivial
  | succ limit ih =>
    rw [sendFrom]
    apply Machine.Ends.ite
    · exact fun _ => Machine.Ends.pure rfl
    intro _
    apply Machine.Ends.bind (R := fun _ t => t.pr = s.pr)
    · rw [fileinput]
      apply Machine.Ends.get_bind
      cases run : Fat.eread fat s.src (u32 off) (u32 (if 512 < n then 512 else n)) s.disk with
      | error stop => exact Machine.Ends.of_error rfl trivial
      | ok r => exact Machine.Ends.of_ok rfl rfl
    · rintro ⟨rlen, buf⟩ t same
      apply Machine.Ends.ite
      · exact fun _ => Machine.Ends.pure same
      intro _
      apply Machine.Ends.bind (sendPiece_keeps buf rlen)
      exact fun w u same' => ih.mono fun _ _ same'' => same''.trans (same'.trans same)

theorem Transfer.Given.tame (h : s.Given addr) (base : addr < 2 ^ 64) (some : addr ≠ 0) :
    ¬WildIn addr ∧ ¬MAXVA < addr := by
  have low := (h some).low base (by decide)
  exact ⟨fun wild => Nat.lt_asymm low wild.1, Nat.not_lt.mpr low.le⟩

theorem file_send_given (given : s.Given addr) (base : addr < 2 ^ 64) : file_send fat addr n s =
    (sendFrom fat (n + 1) n (s.offset addr) 0 s).map fun r => (r.1.2, r.2.setOffset addr r.1.1) := by
  by_cases null : addr = 0
  · rw [file_send, if_neg (not_not_intro null), Machine.bind_of_ok (Machine.get_run s), Transfer.offset, if_pos null]
    cases run : sendFrom fat (n + 1) n s.inOff 0 s with
    | error stop => rw [Machine.bind_of_error run]; rfl
    | ok r =>
      rw [Machine.bind_of_ok run, Except.map, Transfer.setOffset, if_pos null]
      rfl
  · obtain ⟨tame, low⟩ := given.tame base null
    have all : lead s.pr (buffer addr) 8 = 8 := (given null).lead_eq
    have copied : copyinOffset s.pr addr = .ok (some (userOffset s.pr addr)) := by
      rw [copyinOffset, if_neg tame, if_pos all]
    rw [file_send, if_pos null, Machine.bind_of_ok (Machine.get_run s), Machine.bind_of_ok (Machine.lift_run copied s),
      Transfer.offset, if_neg null]
    dsimp only
    cases run : sendFrom fat (n + 1) n (userOffset s.pr addr) 0 s with
    | error stop => rw [Machine.bind_of_error run]; rfl
    | ok r =>
      obtain ⟨⟨off, ret⟩, t⟩ := r
      have pr : t.pr = s.pr := sendFrom_keeps.ok run
      have length := bytesOf_length off 8
      have whole : (bytesOf off 8).take 8 = bytesOf off 8 := List.take_of_length_le (by omega)
      rw [Machine.bind_of_ok run, Except.map, Transfer.setOffset, if_neg null]
      dsimp only
      rw [Machine.bind_of_ok (Machine.get_run t), copyoutOffset, if_neg low, pr, all]
      dsimp only
      rw [whole]
      rfl

/-- An offset that cannot be read. -/
theorem file_send_ungiven (ungiven : ¬s.Given addr) : file_send fat addr n s =
    if WildIn addr then .error (.panic "copyin: srcva > MAXVA & srcva is not in 0x9000(x)")
    else .ok (2 ^ 64 - 1, s) := by
  rw [Transfer.Given, Classical.not_imp] at ungiven
  obtain ⟨some, missing⟩ := ungiven
  have short : lead s.pr (buffer addr) 8 ≠ 8 := fun all => missing (all ▸ there_lead s.pr (buffer addr) 8)
  rw [file_send, if_pos some, Machine.bind_of_ok (Machine.get_run s), copyinOffset, if_neg short]
  split
  · rfl
  · rfl

theorem setOffset_moved (low : s.inOff < 2 ^ 32) (few : s.offset addr + r < 2 ^ 64)
    (within : r = 0 ∨ s.offset addr + r < 2 ^ 32) (t : Transfer) :
    (t.setOffset addr (u64 (s.offset addr + r))).offset addr = s.offset addr + r := by
  have whole : u64 (s.offset addr + r) = s.offset addr + r := Nat.mod_eq_of_lt few
  rw [whole, Transfer.setOffset_offset t addr few]
  split
  · next null =>
    rw [Transfer.offset, if_pos null] at within ⊢
    exact Nat.mod_eq_of_lt (by omega)
  · rfl

/-- The bytes that the loop reads are what moves, if the destination takes them. -/
theorem sent_moved (h : Contents fat cs data s.disk s.src) (low : s.inOff < 2 ^ 32) (wide : s.offset addr < 2 ^ 64)
    (is : sent data (n + 1) n (u32 (s.offset addr)) = bytes)
    (takes : bytes = [] ∨ s.offset addr < 2 ^ 32 ∧ Takes s.dst s.outOff bytes.length)
    (wrote : append fat bytes s = .ok ((), u)) {src : Dirent} (same : SameFile s.src src) :
    Moved fat data n addr bytes.length s ({ u with src }.setOffset addr (u64 (s.offset addr + bytes.length))) := by
  have narrow := h.narrow
  obtain ⟨prefix_eq, few, inside⟩ := sent_eq data (n + 1) n (u32 (s.offset addr))
  rw [is] at prefix_eq few inside
  have there : (data.drop (s.offset addr)).take bytes.length = bytes ∧
      (bytes.length = 0 ∨ s.offset addr + bytes.length ≤ data.length) := by
    rcases takes with none | ⟨small, -⟩
    · rw [none]
      exact ⟨List.take_zero .., .inl rfl⟩
    · have same : u32 (s.offset addr) = s.offset addr := Nat.mod_eq_of_lt small
      rw [same] at prefix_eq inside
      exact ⟨prefix_eq.symm, inside.imp_left fun none => by rw [none, List.length_nil]⟩
  obtain ⟨eq, within⟩ := there
  obtain ⟨disk, source, dst, outOff⟩ :=
    Transfer.setOffset_fields { u with src } addr (u64 (s.offset addr + bytes.length))
  have after := @append_run fat _ _ fun some => (takes.resolve_left some).2
  have behind : u.outOff = s.outOff + bytes.length := by
    rw [wrote] at after
    split at after
    · next none =>
      cases after
      rw [none]
      rfl
    · cases run : Fat.ewrite fat s.dst (.ofBytes bytes) s.outOff bytes.length s.disk with
      | error stop =>
        rw [run] at after
        cases after
      | ok r =>
        rw [run] at after
        cases after
        rfl
  constructor
  · exact few
  · rw [eq]
  · intro pos
    exact (takes.resolve_left (List.length_pos_iff.mp pos)).2
  · rw [eq]
    exact ⟨u, wrote, disk, dst⟩
  · rw [outOff]
    exact behind
  · exact setOffset_moved low (by omega) (by omega) _
  · rw [source]
    exact same

/-- With a piece that was refused the offsets and the result do not fit. -/
theorem Tally.unmoved {ends : Nat × Nat} {v : Transfer} {read failed size : Nat}
    (h : Tally size (s.offset addr) 0 ends read failed) (pos : 0 < failed) (narrow : size < 2 ^ 32)
    (narrow' : data.length < 2 ^ 32) (moved : Moved fat data n addr ends.2 s (v.setOffset addr ends.1)) : False := by
  obtain ⟨behind, value, few, inside⟩ := h
  have wide : ends.1 < 2 ^ 64 := by
    rw [behind]
    exact Nat.mod_lt _ (by decide)
  have offset := moved.offset
  have length := moved.length
  rw [Transfer.setOffset_offset v addr wide, behind] at offset
  rw [List.length_take, List.length_drop] at length
  rw [u64, u64] at value
  have same : (s.offset addr + ends.2) % 2 ^ 32 = (s.offset addr + read) % 2 ^ 32 := by
    rw [← offset, u64]
    split
    · rw [u32]
      omega
    · omega
  omega

/-- Where the offset can be read. -/
theorem sendFrom_moves (h : Contents fat cs data s.disk s.src) (apart : bytes ≠ [] → Apart fat cs bytes s)
    (low : s.inOff < 2 ^ 32) (low' : s.outOff < 2 ^ 32) (wide : n < 2 ^ 64) (wide' : s.offset addr < 2 ^ 64)
    (is : sent data (n + 1) n (u32 (s.offset addr)) = bytes) :
    (∃ r t, (sendFrom fat (n + 1) n (s.offset addr) 0 s).map (fun r => (r.1.2, r.2.setOffset addr r.1.1)) =
      .ok (r, t) ∧ Moved fat data n addr r s t) ↔
    bytes = [] ∨ s.offset addr < 2 ^ 32 ∧ Takes s.dst s.outOff bytes.length ∧ ∃ u, append fat bytes s = .ok ((), u) := by
  have narrow := h.narrow
  obtain ⟨-, few, inside⟩ := sent_eq data (n + 1) n (u32 (s.offset addr))
  rw [is] at few inside
  by_cases takes : bytes ≠ [] → Takes s.dst s.outOff bytes.length
  · obtain ⟨src, same, run⟩ := sendFrom_taken h apart (Nat.lt_succ_self n) wide wide' (Nat.two_pow_pos 64) is takes
    have value : u64 (0 + bytes.length) = bytes.length := by
      rw [Nat.zero_add]
      exact Nat.mod_eq_of_lt (by omega)
    rw [run, value]
    constructor
    · rintro ⟨r, t, ends, moved⟩
      by_cases none : bytes = []
      · exact .inl none
      have pos := List.length_pos_iff.mpr none
      cases wrote : append fat bytes s with
      | error stop =>
        rw [wrote] at ends
        cases ends
      | ok u =>
        rw [wrote] at ends
        cases ends
        have length := moved.length
        rw [List.length_take, List.length_drop] at length
        change min bytes.length _ = bytes.length at length
        exact .inr ⟨by omega, takes none, u.2, rfl⟩
    · intro able
      have wrote : ∃ u, append fat bytes s = .ok ((), u) := by
        rcases able with rfl | ⟨-, -, wrote⟩
        · exact ⟨s, rfl⟩
        · exact wrote
      obtain ⟨u, wrote⟩ := wrote
      rw [wrote]
      exact ⟨_, _, rfl, sent_moved h low wide' is (able.imp_right fun ⟨small, fits, _⟩ => ⟨small, fits⟩) wrote same⟩
  · rw [Classical.not_imp] at takes
    obtain ⟨some, refused⟩ := takes
    refine iff_of_false ?_ fun able => refused (able.resolve_left some).2.1
    rintro ⟨r, t, ends, moved⟩
    have run := @sendFrom_refused _ _ _ _ _ _ _ _ 0 h (apart some) low' (Nat.lt_succ_self n) wide is some refused
    cases loop : sendFrom fat (n + 1) n (s.offset addr) 0 s with
    | error stop =>
      rw [loop] at ends
      cases ends
    | ok r =>
      rw [loop] at ends
      cases ends
      obtain ⟨read, failed, tally, pos⟩ := run.ok loop
      exact tally.unmoved pos (h.size ▸ narrow) narrow moved

/-- The call moves the bytes where no piece is refused and none is written over the source;
and where none is written over it, only if no piece is refused. -/
theorem file_send_transfers (h : Contents fat cs data s.disk s.src) (low : s.inOff < 2 ^ 32)
    (low' : s.outOff < 2 ^ 32) (wide : n < 2 ^ 64) (base : addr < 2 ^ 64) :
    (Sendable fat cs data n addr s → Transfers fat data n addr s (file_send fat addr n s)) ∧
    (Apart fat cs (sent data (n + 1) n (u32 (s.offset addr))) s →
      Transfers fat data n addr s (file_send fat addr n s) → Sendable fat cs data n addr s) := by
  by_cases given : s.Given addr
  · have wide' : s.offset addr < 2 ^ 64 := by
      rw [Transfer.offset]
      split
      · omega
      · exact Memory.fetch_lt _ _ 8
    rw [Transfers, file_send_given given base]
    constructor
    · intro able
      refine ⟨fun _ => ?_, fun ungiven => absurd given ungiven⟩
      have apart := fun some => ((able.2 given).resolve_left some).2.2.1
      refine (sendFrom_moves h apart low low' wide wide' rfl).mpr ((able.2 given).imp_right ?_)
      exact fun ⟨small, takes, _, wrote⟩ => ⟨small, takes, wrote⟩
    · intro apart transfers
      refine ⟨fun some => (given.tame base some).1, fun _ => ?_⟩
      have moves := (sendFrom_moves h (fun _ => apart) low low' wide wide' rfl).mp (transfers.1 given)
      exact moves.imp_right fun ⟨small, takes, wrote⟩ => ⟨small, takes, apart, wrote⟩
  · rw [Transfers, file_send_ungiven given]
    have some : addr ≠ 0 := fun null => given fun ne => absurd null ne
    constructor
    · intro able
      exact ⟨fun there => absurd there given, fun _ => if_neg (able.1 some)⟩
    · intro _ moves
      refine ⟨fun _ wild => ?_, fun there => absurd there given⟩
      have fails := moves.2 given
      rw [if_pos wild] at fails
      cases fails

/-- Clusters 4 and 6 are in use, and 6 holds a letter. -/
def letterDisk : Disk := Fat.smallDisk.store (Fat.smallVolume.entryAt 4) 4 Fat.FAT32_EOF

def letterFile : Dirent := { Fat.shortFile with first_clus := 6, cur_clus := 6, file_size := 1 }

/-- The file of a letter, to be sent to one in cluster 3. -/
def sending : Transfer where
  disk := letterDisk
  src := letterFile
  dst := { Fat.shortFile with first_clus := 3, cur_clus := 3 }
  inOff := 0
  outOff := 0
  pr := ⟨fun _ => false, fun _ => 0, false⟩

theorem letterFile_contents {disk : Disk} (ends : Fat.smallVolume.next disk 6 = none)
    (holds : disk (Fat.smallVolume.clusterAt 6) = 65) : Contents Fat.smallVolume [6] [65] disk letterFile where
  chain := .inl ⟨⟨ends, by decide⟩, ⟨rfl, rfl⟩, by decide, by decide, by decide⟩
  file := by decide
  size := rfl
  bytes := by
    rintro _ (_ | ⟨_, ⟨⟩⟩)
    exact holds

/-- Neither cluster is linked to by another, and neither counts as free. -/
theorem letterDisk_entries : Fat.smallVolume.next letterDisk 6 = none ∧
    letterDisk (Fat.smallVolume.clusterAt 6) = 65 ∧
    (∀ c < 9, c ∉ [6] → Fat.smallVolume.entry letterDisk c ∉ [6]) ∧
    ∀ k < 128, Fat.smallVolume.entry letterDisk k = 0 → k ∉ [6] ∧ u32 (k + 2) ∉ [6] := by
  decide

theorem letterDisk_contents : Contents Fat.smallVolume [6] [65] letterDisk letterFile :=
  letterFile_contents letterDisk_entries.1 letterDisk_entries.2.1

theorem letterDisk_spared : Fat.Spared Fat.smallVolume [6] letterDisk letterDisk := by
  obtain ⟨-, -, others, -⟩ := letterDisk_entries
  exact ⟨by decide, fun c range => others c (Nat.lt_succ_of_le range.2), fun _ _ => rfl, fun _ _ _ _ => rfl⟩

theorem letterDisk_withheld : Fat.Withheld Fat.smallVolume [6] letterDisk := by
  obtain ⟨-, -, -, all⟩ := letterDisk_entries
  exact fun k lt => all k lt

theorem sending_apart (bytes : List UInt8) : Apart Fat.smallVolume [6] bytes sending := by
  rw [sending]
  apply Apart.of_withheld
  · dsimp only
    exact letterDisk_spared
  · exact ⟨by decide, by decide⟩
  · dsimp only
    exact letterDisk_withheld

/-- The letter is sent. -/
theorem file_send_transfers_letter :
    Transfers Fat.smallVolume [65] 1 0 sending (file_send Fat.smallVolume 0 1 sending) := by
  have contents : Contents Fat.smallVolume [6] [65] sending.disk sending.src := by
    rw [sending]
    dsimp only
    exact letterDisk_contents
  refine (file_send_transfers contents (by decide) (by decide) (by decide) (by decide)).1 ?_
  refine ⟨fun some => absurd rfl some, fun _ => .inr ⟨by decide, by decide, sending_apart _, ?_⟩⟩
  have wrote : (append Fat.smallVolume [65] sending).toOption.map Prod.fst = some () := by decide
  exact Machine.ok_of_value wrote

/-- The same with the offset of the destination behind its end. -/
def behindEnd : Transfer := { sending with outOff := 5 }

/-- The piece is refused: the result is `-1`, the offset in the source moves on and the other
one back. -/
theorem file_send_miscounts :
    Contents Fat.smallVolume [6] [65] letterDisk letterFile ∧
    (file_send Fat.smallVolume 0 1 behindEnd).toOption.map (fun r => (r.1, r.2.inOff, r.2.outOff)) =
      some (2 ^ 64 - 1, 1, 4) ∧
    ¬Transfers Fat.smallVolume [65] 1 0 behindEnd (file_send Fat.smallVolume 0 1 behindEnd) := by
  have counts : (file_send Fat.smallVolume 0 1 behindEnd).toOption.map (fun r => (r.1, r.2.inOff, r.2.outOff)) =
      some (2 ^ 64 - 1, 1, 4) := by decide
  refine ⟨letterDisk_contents, counts, fun transfers => ?_⟩
  obtain ⟨r, t, run, moved⟩ := transfers.1 fun some => absurd rfl some
  rw [run] at counts
  have value : r = 2 ^ 64 - 1 := congrArg Prod.fst (Option.some.inj counts)
  have few := moved.few
  omega

end AvxKernel.File
