import AvxKernel.Lib.Fifo
import AvxKernel.Lib.Queue
import AvxKernel.Lib.Scatter
import AvxKernel.Rbuf.RingBuffer

/-! The ring is a queue of `RING_BUFFER_SIZE - 1` bytes, wherever its ends stand and
wherever a transfer is split. -/
namespace AvxKernel.Rbuf

variable {rbuf : RingBuffer} {user : Memory} {buf p n : Nat} {size : UInt32}
  {removed held : List UInt8}

/-! ### Small numbers -/

theorem widen_ofNat (small : n < 2 ^ 31) : widen (Int32.ofNat n) = n := by
  have most : (n : Int) ≤ Int32.maxValue.toInt := by
    rw [Int32.toInt_maxValue]
    omega
  rw [widen, Int32.toInt64_ofNat' most, Int64.toUInt64_ofNat', UInt64.toNat_ofNat']
  omega

theorem ofNat_pos (small : n < 2 ^ 31) : 0 < Int32.ofNat n ↔ 0 < n := by
  rw [Int32.lt_iff_toInt_lt, Int32.toInt_ofNat_of_lt small]
  exact Int.natCast_pos

theorem min_ofNat (small : n < 2 ^ 31) :
    (Rbuf.min (Int32.ofNat n) size).toInt32 = Int32.ofNat (min n size.toNat) := by
  have whole : (UInt32.ofNat n).toNat = n := UInt32.toNat_ofNat_of_lt' (by rw [UInt32.size]; omega)
  rw [Rbuf.min, Int32.toUInt32_ofNat']
  split
  · next less =>
    rw [UInt32.lt_iff_toNat_lt, whole] at less
    rw [Nat.min_eq_left (Nat.le_of_lt less), UInt32.toInt32_ofNat']
  · next more =>
    rw [UInt32.lt_iff_toNat_lt, whole, Nat.not_lt] at more
    rw [Nat.min_eq_right more, ← UInt32.toInt32_ofNat', UInt32.ofNat_toNat]

theorem inBuf_ofNat (inside : p + n ≤ RING_BUFFER_SIZE + 1) : InBuf (Int32.ofNat p) (Int32.ofNat n) := by
  have small : RING_BUFFER_SIZE + 1 < 2 ^ 31 := by decide
  rw [InBuf, Int32.toInt_ofNat_of_lt (by omega), widen_ofNat (by omega)]
  omega

theorem copyin_run (inside : p + n ≤ RING_BUFFER_SIZE + 1) (srcva : Nat) (s : Caller) :
    copyin (Int32.ofNat p) srcva (Int32.ofNat n) s =
      .ok ((), { s with rbuf.buf := s.rbuf.buf.blit p (userBytes s.user srcva n) }) := by
  have small : RING_BUFFER_SIZE + 1 < 2 ^ 31 := by decide
  rw [copyin, if_pos (inBuf_ofNat inside), widen_ofNat (by omega), Int32.toInt_ofNat_of_lt (by omega)]
  rfl

theorem copyin_front (few : n ≤ RING_BUFFER_SIZE + 1) (srcva : Nat) (s : Caller) :
    copyin 0 srcva (Int32.ofNat n) s =
      .ok ((), { s with rbuf.buf := s.rbuf.buf.blit 0 (userBytes s.user srcva n) }) :=
  copyin_run (show 0 + n ≤ RING_BUFFER_SIZE + 1 by omega) srcva s

theorem copyout_run (inside : p + n ≤ RING_BUFFER_SIZE + 1) (dstva : Nat) (s : Caller) :
    copyout dstva (Int32.ofNat p) (Int32.ofNat n) s =
      .ok ((), { s with user := layUser s.user dstva (s.rbuf.buf.window p n) }) := by
  have small : RING_BUFFER_SIZE + 1 < 2 ^ 31 := by decide
  rw [copyout, if_pos (inBuf_ofNat inside), widen_ofNat (by omega), Int32.toInt_ofNat_of_lt (by omega)]
  rfl

theorem copyout_front (few : n ≤ RING_BUFFER_SIZE + 1) (dstva : Nat) (s : Caller) :
    copyout dstva 0 (Int32.ofNat n) s =
      .ok ((), { s with user := layUser s.user dstva (s.rbuf.buf.window 0 n) }) :=
  copyout_run (show 0 + n ≤ RING_BUFFER_SIZE + 1 by omega) dstva s

/-- The test for a transfer that crosses the end. -/
theorem across_iff (at_ : p < RING_BUFFER_SIZE) (few : n ≤ RING_BUFFER_SIZE) :
    UInt32.ofNat RING_BUFFER_SIZE < (Int32.ofNat p + Int32.ofNat n).toUInt32 ↔
      RING_BUFFER_SIZE < p + n := by
  rw [← Int32.ofNat_add, Int32.toUInt32_ofNat', UInt32.lt_iff_toNat_lt, UInt32.toNat_ofNat',
    UInt32.toNat_ofNat']
  rw [RING_BUFFER_SIZE] at *
  omega

theorem right_eq (at_ : p < RING_BUFFER_SIZE) :
    (UInt32.ofNat RING_BUFFER_SIZE - (Int32.ofNat p).toUInt32).toInt32 =
      Int32.ofNat (RING_BUFFER_SIZE - p) := by
  rw [Int32.toUInt32_ofNat', UInt32.toInt32_sub, UInt32.toInt32_ofNat', UInt32.toInt32_ofNat',
    Int32.ofNat_sub _ _ (Nat.le_of_lt at_)]

theorem left_eq (right left : Nat) :
    Int32.ofNat (right + left) - Int32.ofNat right = Int32.ofNat left := by
  rw [← Int32.ofNat_sub _ _ (Nat.le_add_right _ _), Nat.add_sub_cancel_left]

/-- Where an end of the ring stands after a transfer. -/
theorem next_eq (at_ : p < RING_BUFFER_SIZE) (few : n ≤ RING_BUFFER_SIZE) :
    ((Int32.ofNat p + Int32.ofNat n).toUInt32 % UInt32.ofNat RING_BUFFER_SIZE).toInt32 =
      Int32.ofNat ((p + n) % RING_BUFFER_SIZE) := by
  rw [← Int32.ofNat_add, Int32.toUInt32_ofNat', ← UInt32.toInt32_ofNat']
  apply congrArg UInt32.toInt32
  apply UInt32.toNat_inj.mp
  rw [RING_BUFFER_SIZE] at *
  simp only [UInt32.toNat_mod, UInt32.toNat_ofNat', Nat.reducePow, Nat.reduceMod]
  omega

/-! ### The caller's memory -/

theorem userBytes_length (user : Memory) (srcva n : Nat) : (userBytes user srcva n).length = n := by
  rw [userBytes, List.length_map, List.length_range]

/-- A transfer in two parts reads what one transfer reads. -/
theorem userBytes_append (user : Memory) (srcva n k : Nat) :
    userBytes user srcva n ++ userBytes user (u64 (srcva + n)) k = userBytes user srcva (n + k) := by
  simp only [userBytes, List.range_add, List.map_append, List.map_map, u64, Nat.mod_add_mod]
  congr 1
  apply List.map_congr_left
  intro i _
  rw [Function.comp_apply, Nat.add_assoc]

theorem layUser_u64 (user : Memory) (dstva : Nat) (bytes : List UInt8) :
    layUser user (u64 dstva) bytes = layUser user dstva bytes := by
  induction bytes generalizing user dstva with
  | nil => rfl
  | cons b bytes ih =>
    have next : u64 (u64 dstva + 1) = u64 (dstva + 1) := Nat.mod_add_mod _ _ _
    have here : u64 (u64 dstva) = u64 dstva := Nat.mod_mod _ _
    rw [layUser, layUser, here, ← ih, next, ih]

/-- A transfer in two parts lays down what one transfer lays down. -/
theorem layUser_append (user : Memory) (dstva : Nat) (xs ys : List UInt8) :
    layUser (layUser user dstva xs) (u64 (dstva + xs.length)) ys = layUser user dstva (xs ++ ys) := by
  rw [layUser_u64]
  induction xs generalizing user dstva with
  | nil => rfl
  | cons x xs ih =>
    rw [List.cons_append, layUser, layUser, ← ih, List.length_cons, Nat.add_comm xs.length,
      ← Nat.add_assoc]

/-- Fewer bytes than there are addresses. -/
theorem layUser_laid (user : Memory) (dstva : Nat) {bytes : List UInt8} (few : bytes.length ≤ 2 ^ 64) :
    Laid user (layUser user dstva bytes) (fun i => u64 (dstva + i)) (fun i => bytes.getD i 0)
      bytes.length := by
  induction bytes generalizing user dstva with
  | nil => exact Laid.nil
  | cons b bytes ih =>
    rw [List.length_cons] at few
    have first : Laid user (Function.update user (u64 dstva) b) (fun i => u64 (dstva + i))
        (fun i => (b :: bytes).getD i 0) 1 := by
      constructor
      · intro i hi
        obtain rfl : i = 0 := Nat.lt_one_iff.mp hi
        exact Function.update_self _ _ _
      · intro a out
        exact Function.update_of_ne (out 0 Nat.one_pos).symm _ _
    have rest := (ih (Function.update user (u64 dstva) b) (dstva + 1) (by omega)).congr
      (fun i _ => congrArg u64 (Nat.add_assoc dstva 1 i).symm)
      (fun i _ => congrArg ((b :: bytes).getD · 0) (Nat.add_comm 1 i))
    rw [List.length_cons, Nat.add_comm]
    apply first.append rest
    intro i hi j hj
    obtain rfl : i = 0 := Nat.lt_one_iff.mp hi
    simp only [u64]
    omega

theorem userBytes_layUser (user : Memory) (addr : Nat) {bytes : List UInt8}
    (few : bytes.length ≤ 2 ^ 64) :
    userBytes (layUser user addr bytes) addr bytes.length = bytes := by
  have laid := layUser_laid user addr few
  apply List.ext_getElem
  · exact userBytes_length _ _ _
  · intro i _ hi
    rw [← List.getD_eq_getElem _ 0 hi, ← laid.here i hi]
    simp only [userBytes, List.getElem_map, List.getElem_range]

/-! ### What the ring holds -/

/-- The ring has given out the bytes `removed`, and holds the bytes `held`. -/
structure RingBuffer.Holds (rbuf : RingBuffer) (removed held : List UInt8) : Prop where
  size : rbuf.size = UInt32.ofNat RING_BUFFER_SIZE
  head : rbuf.head = Int32.ofNat (removed.length % RING_BUFFER_SIZE)
  tail : rbuf.tail = Int32.ofNat ((removed ++ held).length % RING_BUFFER_SIZE)
  /-- There is always one byte that is not used. -/
  room : held.length < RING_BUFFER_SIZE
  fifo : Fifo RING_BUFFER_SIZE RING_BUFFER_SIZE rbuf.buf (removed.length % RING_BUFFER_SIZE)
    ((removed ++ held).length % RING_BUFFER_SIZE) removed (removed ++ held)

theorem place_lt (n : Nat) : n % RING_BUFFER_SIZE < RING_BUFFER_SIZE := Nat.mod_lt n (by decide)

theorem init_ring_buffer_holds (rbuf : RingBuffer) : (init_ring_buffer rbuf).Holds [] [] where
  size := rfl
  head := rfl
  tail := rfl
  room := by decide
  fifo := .empty

namespace RingBuffer.Holds

variable (h : rbuf.Holds removed held)
include h

theorem distance : ((removed ++ held).length % RING_BUFFER_SIZE +
    (RING_BUFFER_SIZE - removed.length % RING_BUFFER_SIZE)) % RING_BUFFER_SIZE = held.length := by
  have room := h.room
  have distance := h.fifo.distance_of_lt (by
    rw [List.length_append]
    exact Nat.add_lt_add_left room _)
  rw [distance, List.length_append, Nat.add_sub_cancel_left]

/-- Signed difference and unsigned sum wrap around to the number of bytes held. -/
theorem used : ring_buffer_used rbuf = Int32.ofNat held.length := by
  have distance := h.distance
  have room := h.room
  have head := place_lt removed.length
  have tail := place_lt (removed ++ held).length
  rw [ring_buffer_used, h.head, h.tail, h.size, Int32.toUInt32_sub, Int32.toUInt32_ofNat',
    Int32.toUInt32_ofNat', ← UInt32.toInt32_ofNat']
  apply congrArg UInt32.toInt32
  generalize removed.length % RING_BUFFER_SIZE = h at distance head
  generalize (removed ++ held).length % RING_BUFFER_SIZE = t at distance tail
  rw [RING_BUFFER_SIZE] at distance room head tail
  apply UInt32.toNat_inj.mp
  simp only [UInt32.toNat_mod, UInt32.toNat_add, UInt32.toNat_sub, UInt32.toNat_ofNat', RING_BUFFER_SIZE,
    Nat.reducePow, Nat.reduceMod]
  omega

theorem free : ring_buffer_free rbuf = Int32.ofNat (RING_BUFFER_SIZE - 1 - held.length) := by
  have room := h.room
  rw [ring_buffer_free, h.used, h.size, Int32.toUInt32_ofNat', ← UInt32.toInt32_ofNat']
  apply congrArg UInt32.toInt32
  rw [RING_BUFFER_SIZE] at room ⊢
  apply UInt32.toNat_inj.mp
  simp only [UInt32.toNat_sub, UInt32.toNat_ofNat', UInt32.reduceToNat]
  omega

/-- As many bytes as there is room for are laid down behind the tail. -/
theorem write_run (most : n = min (RING_BUFFER_SIZE - 1 - held.length) size.toNat) (user : Memory)
    (buf : Nat) : ∃ mem, write_ring_buffer buf size ⟨rbuf, user⟩ = .ok (UInt32.ofNat n,
        ⟨⟨rbuf.size, rbuf.head,
          Int32.ofNat (((removed ++ held).length % RING_BUFFER_SIZE + n) % RING_BUFFER_SIZE), mem⟩, user⟩) ∧
      Laid rbuf.buf mem (fun i => ((removed ++ held).length % RING_BUFFER_SIZE + i) % RING_BUFFER_SIZE)
        (fun i => (userBytes user buf n).getD i 0) n := by
  have less : RING_BUFFER_SIZE < 2 ^ 31 := by decide
  have at_ := place_lt (removed ++ held).length
  have tail := h.tail
  have len : (Rbuf.min (ring_buffer_free rbuf) size).toInt32 = Int32.ofNat n := by
    rw [h.free, min_ofNat (by omega), most]
  have few : n ≤ RING_BUFFER_SIZE := by omega
  have pos := ofNat_pos (show n < 2 ^ 31 by omega)
  have length := userBytes_length user buf
  generalize (removed ++ held).length % RING_BUFFER_SIZE = t at at_ tail ⊢
  rw [write_ring_buffer, Machine.bind_of_ok (Machine.get_run _)]
  simp only [len]
  by_cases some : 0 < n
  · have next := next_eq at_ few
    rw [if_pos (pos.mpr some), tail, h.size]
    by_cases across : RING_BUFFER_SIZE < t + n
    · obtain ⟨left, rfl⟩ := Nat.exists_eq_add_of_le (show RING_BUFFER_SIZE - t ≤ n by omega)
      rw [if_pos ((across_iff at_ few).mpr across), right_eq at_, left_eq, widen_ofNat (by omega), next,
        Machine.bind_of_ok (copyin_run (by omega) _ _), if_pos ((ofNat_pos (by omega)).mpr (by omega)),
        Machine.bind_of_ok (copyin_front (by omega) _ _), ← h.size]
      refine ⟨_, rfl, ?_⟩
      have laid := @Laid.ring_across t RING_BUFFER_SIZE (userBytes user buf (RING_BUFFER_SIZE - t))
        (userBytes user (u64 (buf + (RING_BUFFER_SIZE - t))) left) rbuf.buf
        (by rw [length]; omega) (by rw [userBytes_length]; omega)
      rwa [userBytes_append, length] at laid
    · rw [if_neg (mt (across_iff at_ few).mp across), next, Machine.bind_of_ok (copyin_run (by omega) _ _),
        ← h.size]
      refine ⟨_, rfl, ?_⟩
      have laid := @Laid.ring t RING_BUFFER_SIZE (userBytes user buf n) rbuf.buf (by rw [length]; omega)
      rwa [length] at laid
  · obtain rfl : n = 0 := Nat.eq_zero_of_not_pos some
    rw [if_neg (mt pos.mp some), if_neg (by decide), Nat.add_zero, Nat.mod_eq_of_lt at_, ← tail]
    exact ⟨rbuf.buf, rfl, .nil⟩

/-- As many bytes as are there are laid down for the caller. -/
theorem read_run (most : n = min held.length size.toNat) (user : Memory) (buf : Nat) :
    read_ring_buffer buf size ⟨rbuf, user⟩ = .ok (UInt32.ofNat n,
      ⟨⟨rbuf.size, Int32.ofNat ((removed.length % RING_BUFFER_SIZE + n) % RING_BUFFER_SIZE), rbuf.tail,
        rbuf.buf⟩, layUser user buf (held.take n)⟩) := by
  have less : RING_BUFFER_SIZE < 2 ^ 31 := by decide
  have room := h.room
  have at_ := place_lt removed.length
  have head := h.head
  have len : (Rbuf.min (ring_buffer_used rbuf) size).toInt32 = Int32.ofNat n := by
    rw [h.used, min_ofNat (by omega), most]
  have few : n ≤ RING_BUFFER_SIZE := by omega
  have pos := ofNat_pos (show n < 2 ^ 31 by omega)
  have front := h.fifo.front (dvd_refl _) (show removed.length + n ≤ (removed ++ held).length by
    rw [List.length_append]
    omega)
  rw [List.drop_left] at front
  generalize removed.length % RING_BUFFER_SIZE = h' at at_ head front ⊢
  rw [read_ring_buffer, Machine.bind_of_ok (Machine.get_run _)]
  simp only [len]
  by_cases some : 0 < n
  · have next := next_eq at_ few
    rw [if_pos (pos.mpr some), head, h.size]
    by_cases across : RING_BUFFER_SIZE < h' + n
    · obtain ⟨left, rfl⟩ := Nat.exists_eq_add_of_le (show RING_BUFFER_SIZE - h' ≤ n by omega)
      rw [if_pos ((across_iff at_ few).mpr across), right_eq at_, left_eq, widen_ofNat (by omega), next,
        Machine.bind_of_ok (copyout_run (by omega) _ _), Machine.bind_of_ok (copyout_front (by omega) _ _),
        ← front, ← Memory.window_ring_across (by omega) (by omega), ← layUser_append,
        Memory.window_length, ← h.size]
      rfl
    · rw [if_neg (mt (across_iff at_ few).mp across), next, Machine.bind_of_ok (copyout_run (by omega) _ _),
        ← front, ← Memory.window_ring (by omega), ← h.size]
      rfl
  · obtain rfl : n = 0 := Nat.eq_zero_of_not_pos some
    rw [if_neg (mt pos.mp some), if_neg (by decide), Nat.add_zero, Nat.mod_eq_of_lt at_, ← head]
    rfl

/-- Bytes that are laid down behind the tail are held. -/
theorem pushed {mem : Memory} {xs : List UInt8} (fits : held.length + xs.length < RING_BUFFER_SIZE)
    (laid : Laid rbuf.buf mem
      (fun i => ((removed ++ held).length % RING_BUFFER_SIZE + i) % RING_BUFFER_SIZE)
      (fun i => xs.getD i 0) xs.length) :
    (⟨rbuf.size, rbuf.head,
      Int32.ofNat (((removed ++ held).length % RING_BUFFER_SIZE + xs.length) % RING_BUFFER_SIZE),
      mem⟩ : RingBuffer).Holds removed (held ++ xs) := by
  have next : ((removed ++ held).length % RING_BUFFER_SIZE + xs.length) % RING_BUFFER_SIZE =
      (removed ++ (held ++ xs)).length % RING_BUFFER_SIZE := by
    rw [Nat.mod_add_mod, ← List.length_append, List.append_assoc]
  constructor
  · exact h.size
  · exact h.head
  · exact congrArg Int32.ofNat next
  · rwa [List.length_append]
  · rw [← next, ← List.append_assoc]
    apply h.fifo.pushes (dvd_refl _)
    · rw [List.length_append]
      omega
    · intro i hi
      exact (laid.here i hi).trans (List.getD_eq_getElem _ _ hi)
    · exact laid.away

/-- Bytes that the head has passed are not held. -/
theorem popped (inside : n ≤ held.length) :
    (⟨rbuf.size, Int32.ofNat ((removed.length % RING_BUFFER_SIZE + n) % RING_BUFFER_SIZE), rbuf.tail,
      rbuf.buf⟩ : RingBuffer).Holds (removed ++ held.take n) (held.drop n) := by
  have whole : removed ++ held.take n ++ held.drop n = removed ++ held := by
    rw [List.append_assoc, List.take_append_drop]
  have next : (removed.length % RING_BUFFER_SIZE + n) % RING_BUFFER_SIZE =
      (removed ++ held.take n).length % RING_BUFFER_SIZE := by
    rw [Nat.mod_add_mod, List.length_append, List.length_take_of_le inside]
  have room := h.room
  have rest := h.fifo.pops (show removed.length + n ≤ (removed ++ held).length by
    rw [List.length_append]
    omega)
  rw [List.drop_left, next] at rest
  constructor
  · exact h.size
  · exact congrArg Int32.ofNat next
  · rw [whole]
    exact h.tail
  · rw [List.length_drop]
    omega
  · rwa [whole]

end RingBuffer.Holds

/-! ### Runs -/

/-- What is seen of a call: the bytes that it has taken from its caller's buffer, or
the ones that are in it afterwards. -/
def Call.transfer : Call → Return → Transfer UInt8
  | .write_ring_buffer user buf size, r => .put size.toNat (userBytes user buf r.value.toNat)
  | .read_ring_buffer _ buf size, r => .get size.toNat (userBytes r.user buf r.value.toNat)

/-- A call is one use of the queue. -/
theorem Call.step (h : rbuf.Holds removed held) (call : Call) :
    ∃ r t removed' held', call.run rbuf = .ok (r, t) ∧ t.Holds removed' held' ∧
      Queue.Step (RING_BUFFER_SIZE - 1) held (call.transfer r) held' := by
  have room := h.room
  have less : RING_BUFFER_SIZE < UInt32.size := by decide
  cases call with
  | write_ring_buffer user buf size =>
    obtain ⟨n, most⟩ : ∃ n, n = min (RING_BUFFER_SIZE - 1 - held.length) size.toNat := ⟨_, rfl⟩
    obtain ⟨mem, run, laid⟩ := h.write_run most user buf
    have length := userBytes_length user buf n
    have whole : (UInt32.ofNat n).toNat = n := UInt32.toNat_ofNat_of_lt' (by omega)
    have pushed := h.pushed (show held.length + (userBytes user buf n).length < RING_BUFFER_SIZE by
      rw [length]
      omega) (by rwa [length])
    rw [length] at pushed
    refine ⟨⟨UInt32.ofNat n, user⟩, _, removed, _, ?_, pushed, ?_⟩
    · rw [Call.run, onBehalf, run]
    · rw [Call.transfer, whole]
      apply Queue.Step.put
      rw [length, most, Nat.min_comm]
  | read_ring_buffer user buf size =>
    obtain ⟨n, most⟩ : ∃ n, n = min held.length size.toNat := ⟨_, rfl⟩
    have run := h.read_run most user buf
    have length : (held.take n).length = n := List.length_take_of_le (by omega)
    have whole : (UInt32.ofNat n).toNat = n := UInt32.toNat_ofNat_of_lt' (by omega)
    have bytes := userBytes_layUser user buf (show (held.take n).length ≤ 2 ^ 64 by
      rw [length]
      rw [UInt32.size] at less
      omega)
    rw [length] at bytes
    have popped := h.popped (show n ≤ held.length by omega)
    refine ⟨⟨UInt32.ofNat n, layUser user buf (held.take n)⟩, _, _, _, ?_, popped, ?_⟩
    · rw [Call.run, onBehalf, run]
    · rw [Call.transfer, whole, bytes]
      apply Queue.Step.get
      · exact (List.take_append_drop n held).symm
      · rw [length, most, Nat.min_comm]

/-- What is seen of calls and what they return. -/
def transfers (calls : List Call) (returns : List Return) : List (Transfer UInt8) :=
  List.zipWith Call.transfer calls returns

theorem serve_run (h : rbuf.Holds removed held) (calls : List Call) :
    ∃ returns t removed' held', serve calls rbuf = .ok (returns, t) ∧ returns.length = calls.length ∧
      t.Holds removed' held' ∧
      Queue.Run (RING_BUFFER_SIZE - 1) held (transfers calls returns) held' := by
  induction calls generalizing rbuf removed held with
  | nil => exact ⟨[], rbuf, removed, held, rfl, rfl, h, .nil⟩
  | cons call calls ih =>
    obtain ⟨r, u, removed₁, held₁, first, h₁, step⟩ := call.step h
    obtain ⟨returns, t, removed', held', rest, length, h', run⟩ := ih h₁
    refine ⟨r :: returns, t, removed', held', ?_, congrArg (· + 1) length, h', .cons step run⟩
    rw [serve, Machine.bind_of_ok first, Machine.bind_of_ok rest]
    rfl

/-- The bytes from the head to the tail. -/
def RingBuffer.contents (rbuf : RingBuffer) : List UInt8 :=
  (List.range (ring_buffer_used rbuf).toInt.toNat).map fun i =>
    rbuf.buf ((rbuf.head.toInt.toNat + i) % RING_BUFFER_SIZE)

/-- Both ends stand at places of the ring. -/
def RingBuffer.InRange (rbuf : RingBuffer) : Prop :=
  0 ≤ rbuf.head.toInt ∧ rbuf.head.toInt < rbuf.size.toNat ∧
    0 ≤ rbuf.tail.toInt ∧ rbuf.tail.toInt < rbuf.size.toNat

namespace RingBuffer.Holds

variable (h : rbuf.Holds removed held)
include h

theorem used_toInt : (ring_buffer_used rbuf).toInt = held.length := by
  have room := h.room
  rw [h.used, Int32.toInt_ofNat_of_lt (room.trans (by decide))]

theorem free_toInt : (ring_buffer_free rbuf).toInt = (RING_BUFFER_SIZE - 1 - held.length : Nat) := by
  rw [h.free, Int32.toInt_ofNat_of_lt]
  exact Nat.lt_of_le_of_lt (Nat.sub_le _ _) (by decide)

theorem empty_iff : ring_buffer_empty rbuf = true ↔ held = [] := by
  rw [ring_buffer_empty, beq_iff_eq, ← Int32.toInt_inj, h.used_toInt, Int32.toInt_zero,
    Int.natCast_eq_zero, List.length_eq_zero_iff]

/-- A full ring still has the byte that is not used. -/
theorem full_iff : ring_buffer_full rbuf = true ↔ held.length + 1 = RING_BUFFER_SIZE := by
  have room := h.room
  rw [ring_buffer_full, beq_iff_eq, ← Int32.toInt_inj, h.free_toInt, Int32.toInt_zero,
    Int.natCast_eq_zero]
  omega

theorem inRange : rbuf.InRange := by
  have less : RING_BUFFER_SIZE < 2 ^ 31 := by decide
  have head := place_lt removed.length
  have tail := place_lt (removed ++ held).length
  have whole : (UInt32.ofNat RING_BUFFER_SIZE).toNat = RING_BUFFER_SIZE := rfl
  rw [InRange, h.head, h.tail, h.size, whole, Int32.toInt_ofNat_of_lt (head.trans less),
    Int32.toInt_ofNat_of_lt (tail.trans less)]
  omega

theorem contents : rbuf.contents = held := by
  have front := h.fifo.front (dvd_refl _) (show removed.length + held.length ≤ (removed ++ held).length by
    rw [List.length_append])
  have less := (place_lt removed.length).trans (show RING_BUFFER_SIZE < 2 ^ 31 by decide)
  rw [List.drop_left, List.take_length] at front
  rw [RingBuffer.contents, h.used_toInt, h.head, Int32.toInt_ofNat_of_lt less]
  exact front

end RingBuffer.Holds

/-- After `init_ring_buffer`, any calls at all run to their end, with no access outside
`buf`, and the ring is a queue of `RING_BUFFER_SIZE - 1` bytes: what the readers have
got and what is in the ring is what the writers have given, in order. -/
theorem ring_buffer_fifo (rbuf : RingBuffer) (calls : List Call) :
    ∃ returns t, serve calls (init_ring_buffer rbuf) = .ok (returns, t) ∧
      returns.length = calls.length ∧
      Queue.Run (RING_BUFFER_SIZE - 1) [] (transfers calls returns) t.contents ∧
      Queue.delivered (transfers calls returns) ++ t.contents = Queue.accepted (transfers calls returns) ∧
      t.contents.length ≤ RING_BUFFER_SIZE - 1 ∧
      (ring_buffer_used t).toInt = t.contents.length ∧
      (ring_buffer_free t).toInt = (RING_BUFFER_SIZE - 1 - t.contents.length : Nat) ∧
      t.InRange := by
  obtain ⟨returns, t, removed, held, run, length, holds, uses⟩ := serve_run (init_ring_buffer_holds rbuf) calls
  have contents := holds.contents
  refine ⟨returns, t, run, length, ?_, ?_, ?_, ?_, ?_, holds.inRange⟩
  · rwa [contents]
  · rw [contents]
    exact uses.conserved.symm
  · rw [contents]
    exact uses.length_le (Nat.zero_le _)
  · rw [contents]
    exact holds.used_toInt
  · rw [contents]
    exact holds.free_toInt

end AvxKernel.Rbuf
