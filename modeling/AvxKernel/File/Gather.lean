import AvxKernel.Fat.Stops
import AvxKernel.File.Vectors

/-! What the loops of `sys_readv` and `sys_writev` have in common. -/
namespace AvxKernel.File

open Fat (Geometry Disk Dirent Sink Source SameFile Contents portion Takes Leaves)
open Ipc (User)
open Vm (MAXVA)

variable {fat : Geometry} {s t : Caller} {p i n m len more iov : Nat} {pr : User} {place place' : Nat → Nat}
  {cs : List Nat} {data : List UInt8} {v : Memory} {bufs : List Iovec} {b : Iovec}

/-! ### Places -/

/-- Bytes at places that the process can reach. -/
def There (pr : User) (place : Nat → Nat) (n : Nat) : Prop := ∀ i < n, pr.reaches (place i) = true

theorem There.nowhere (pr : User) (place : Nat → Nat) : There pr place 0 := fun i lt => absurd lt (Nat.not_lt_zero i)

theorem There.lead (h : There pr place n) (le : n ≤ m) : n ≤ lead pr place m := by
  induction n generalizing m place with
  | zero => exact Nat.zero_le _
  | succ n ih =>
    obtain ⟨m, rfl⟩ := Nat.exists_eq_add_of_le' (show 1 ≤ m by omega)
    have first : pr.reaches (place 0) = true := h 0 (Nat.succ_pos n)
    have rest : There pr (fun i => place (i + 1)) n := fun i hi => h (i + 1) (Nat.succ_lt_succ hi)
    rw [lead_succ, if_pos first]
    exact Nat.succ_le_succ (ih rest (by omega))

theorem There.lead_eq (h : There pr place n) : File.lead pr place n = n :=
  Nat.le_antisymm (lead_le pr place n) (h.lead (Nat.le_refl n))

/-- The bytes that are copied are there. -/
theorem there_lead (pr : User) (place : Nat → Nat) (n : Nat) : There pr place (lead pr place n) := by
  induction n generalizing place with
  | zero => exact fun _ lt => absurd lt (Nat.not_lt_zero _)
  | succ n ih =>
    rw [lead_succ]
    split
    · next first =>
      intro i hi
      cases i with
      | zero => exact first
      | succ i => exact ih _ i (Nat.lt_of_succ_lt_succ hi)
    · exact fun _ lt => absurd lt (Nat.not_lt_zero _)

theorem There.from (h : There pr place (n + m)) : There pr (fun i => place (n + i)) m :=
  fun i hi => h (n + i) (Nat.add_lt_add_left hi n)

theorem There.mono (h : There pr place n) (le : m ≤ n) : There pr place m := fun i hi => h i (hi.trans_le le)

/-- What ends the bytes that are there. -/
theorem lead_short (short : lead pr place n < n) : pr.reaches (place (lead pr place n)) = false := by
  induction n generalizing place with
  | zero => exact absurd short (Nat.not_lt_zero _)
  | succ n ih =>
    rw [lead_succ] at short ⊢
    split at short
    · next first =>
      rw [if_pos first]
      exact ih (Nat.lt_of_succ_lt_succ short)
    · next away =>
      rw [if_neg away]
      exact Bool.eq_false_iff.mpr away

theorem There.lead_stop (h : There pr place n) (away : pr.reaches (place n) = false) (lt : n < m) :
    File.lead pr place m = n := by
  apply Nat.le_antisymm _ (h.lead lt.le)
  by_contra beyond
  have here := there_lead pr place m n (Nat.lt_of_not_le beyond)
  rw [away] at here
  cases here

theorem lead_congr (same : ∀ i < n, place i = place' i) : lead pr place n = lead pr place' n := by
  induction n generalizing place place' with
  | zero => rfl
  | succ n ih => rw [lead_succ, lead_succ, same 0 (Nat.succ_pos n), ih fun i lt => same (i + 1) (Nat.succ_lt_succ lt)]

theorem lead_from {k : Nat} (low : k ≤ lead pr place n) (inside : k + m ≤ n) :
    lead pr (fun i => place (k + i)) m = min m (lead pr place n - k) := by
  rcases Nat.lt_or_ge (lead pr place n - k) m with short | all
  · rw [Nat.min_eq_right short.le]
    have here : There pr (fun i => place (k + i)) (lead pr place n - k) := fun i hi =>
      there_lead pr place n (k + i) (by omega)
    refine here.lead_stop ?_ short
    have stop := lead_short (show lead pr place n < n by omega)
    rw [← Nat.add_sub_cancel' low] at stop
    exact stop
  · rw [Nat.min_eq_left all]
    exact There.lead_eq fun i hi => there_lead pr place n (k + i) (by omega)

/-- The memory of a process takes a read as far as its places are there. -/
theorem toUser_stops (pr : User) (place : Nat → Nat) (n : Nat) : (toUser pr place).Stops n (lead pr place n) where
  le := lead_le pr place n
  copy k m low inside := by
    have all : (min m (lead pr place n - k) = m) = (m ≤ lead pr place n - k) := propext min_eq_left_iff
    rw [toUser]
    dsimp only
    rw [lead_from low inside, beq_eq_decide]
    simp only [all]

/-- The bytes at places. -/
def bytesAt (pr : User) (place : Nat → Nat) (n : Nat) : List UInt8 :=
  (List.range n).map fun i => pr.memory (place i)

theorem bytesAt_length (pr : User) (place : Nat → Nat) (n : Nat) : (bytesAt pr place n).length = n := by
  rw [bytesAt, List.length_map, List.length_range]

theorem bytesAt_add (pr : User) (place : Nat → Nat) (n m : Nat) :
    bytesAt pr place (n + m) = bytesAt pr place n ++ bytesAt pr (fun i => place (n + i)) m := by
  rw [bytesAt, List.range_add, List.map_append, List.map_map]
  rfl

theorem bytesAt_congr (same : ∀ i < n, place i = place' i) : bytesAt pr place n = bytesAt pr place' n :=
  List.map_congr_left fun i mem => by rw [same i (List.mem_range.mp mem)]

theorem There.fromUser (h : There pr place n) :
    ∀ k m, k + m ≤ n → (fromUser pr place).copy k m = (Source.ofBytes (bytesAt pr place n)).copy k m := by
  intro k m le
  have all : File.lead pr (fun i => place (k + i)) m = m :=
    There.lead_eq fun i hi => h (k + i) (by omega)
  obtain ⟨rest, rfl⟩ := Nat.exists_eq_add_of_le le
  have part : ((bytesAt pr place (k + m + rest)).drop k).take m =
      (List.range m).map fun i => pr.memory (place (k + i)) := by
    rw [Nat.add_assoc, bytesAt_add, bytesAt_add, List.drop_left' (bytesAt_length pr place k),
      List.take_left' (bytesAt_length pr _ m)]
    rfl
  rw [File.fromUser, Source.ofBytes]
  dsimp only
  rw [all, part, beq_self_eq_true]

theorem storeAt_reaches (pr : User) (place : Nat → Nat) (bytes : List UInt8) (va : Nat) :
    (storeAt pr place bytes).reaches va = pr.reaches va := by
  induction bytes generalizing pr place with
  | nil => rfl
  | cons b rest ih => exact ih _ _

theorem storeAt_append (pr : User) (place : Nat → Nat) (xs ys : List UInt8) :
    storeAt pr place (xs ++ ys) = storeAt (storeAt pr place xs) (fun i => place (xs.length + i)) ys := by
  induction xs generalizing pr place with
  | nil =>
    simp only [List.nil_append, List.length_nil, Nat.zero_add]
    rfl
  | cons x xs ih =>
    rw [List.cons_append, storeAt_cons, storeAt_cons, ih, List.length_cons]
    simp only [Nat.add_right_comm _ 1]

theorem storeAt_congr {bytes : List UInt8} (same : ∀ i < bytes.length, place i = place' i) :
    storeAt pr place bytes = storeAt pr place' bytes := by
  induction bytes generalizing pr place place' with
  | nil => rfl
  | cons b rest ih =>
    rw [storeAt_cons, storeAt_cons, same 0 (Nat.succ_pos _)]
    exact ih fun i hi => same (i + 1) (Nat.succ_lt_succ hi)

theorem storeAt_away {bytes : List UInt8} {a : Nat} (away : ∀ i < bytes.length, place i ≠ a) :
    (storeAt pr place bytes).memory a = pr.memory a := by
  induction bytes generalizing pr place with
  | nil => rfl
  | cons b rest ih =>
    rw [storeAt_cons, ih fun i hi => away (i + 1) (Nat.succ_lt_succ hi)]
    exact Function.update_of_ne (away 0 (Nat.succ_pos _)).symm _ _

theorem storeAt_here {bytes : List UInt8} {i : Nat} (hi : i < bytes.length)
    (apart : ∀ i < bytes.length, ∀ j < bytes.length, place i = place j → i = j) :
    (storeAt pr place bytes).memory (place i) = bytes[i] := by
  induction bytes generalizing pr place i with
  | nil => exact absurd hi (Nat.not_lt_zero i)
  | cons b rest ih =>
    rw [storeAt_cons]
    cases i with
    | zero =>
      rw [storeAt_away]
      · exact Function.update_self ..
      · intro i hi same
        have := apart _ (Nat.succ_lt_succ hi) 0 (Nat.succ_pos _) same
        omega
    | succ i =>
      refine @ih _ (fun i => place (i + 1)) _ (Nat.lt_of_succ_lt_succ hi) fun j hj k hk same => ?_
      have := apart _ (Nat.succ_lt_succ hj) _ (Nat.succ_lt_succ hk) same
      omega

/-! ### Buffers one behind the other -/

theorem concat_front (hi : i < b.iov_len) : concat (b :: bufs) i = buffer b.iov_base i := by
  rw [concat, if_pos (.inl hi)]

theorem concat_one (b : Iovec) : concat [b] = buffer b.iov_base := funext fun _ => if_pos (.inr rfl)

theorem concat_behind (b : Iovec) (others : bufs ≠ []) (i : Nat) :
    concat (b :: bufs) (b.iov_len + i) = concat bufs i := by
  rw [concat, if_neg (by rw [not_or]; exact ⟨by omega, others⟩), Nat.add_sub_cancel_left]

/-- Where there is a byte there is a buffer. -/
theorem total_some (lt : i < total bufs) : bufs ≠ [] := by
  rintro rfl
  exact absurd lt (Nat.not_lt_zero i)

theorem total_cons (b : Iovec) (bufs : List Iovec) : total (b :: bufs) = b.iov_len + total bufs := rfl

theorem total_append (front back : List Iovec) : total (front ++ back) = total front + total back := by
  rw [total, List.map_append, List.sum_append]
  rfl

theorem concat_left {front back : List Iovec} (lt : i < total front) :
    concat (front ++ back) i = concat front i := by
  induction front generalizing i with
  | nil => exact absurd lt (Nat.not_lt_zero i)
  | cons b rest ih =>
    rcases Nat.lt_or_ge i b.iov_len with first | behind
    · rw [List.cons_append, concat_front first, concat_front first]
    · obtain ⟨j, rfl⟩ := Nat.exists_eq_add_of_le behind
      rw [total_cons] at lt
      have inside : j < total rest := by omega
      have others : rest ++ back ≠ [] := fun none => total_some inside (List.append_eq_nil_iff.mp none).1
      rw [List.cons_append, concat_behind b others, concat_behind b (total_some inside), ih inside]

theorem concat_right (front : List Iovec) {back : List Iovec} (others : back ≠ []) (i : Nat) :
    concat (front ++ back) (total front + i) = concat back i := by
  induction front with
  | nil => exact congrArg (concat back) (Nat.zero_add i)
  | cons b rest ih =>
    have some : rest ++ back ≠ [] := fun none => others (List.append_eq_nil_iff.mp none).2
    rw [List.cons_append, total_cons, Nat.add_assoc, concat_behind b some, ih]

/-- Every buffer is there. -/
def AllThere (pr : User) (bufs : List Iovec) : Prop :=
  ∀ b ∈ bufs, There pr (buffer b.iov_base) b.iov_len

theorem AllThere.concat (h : AllThere pr bufs) : There pr (concat bufs) (total bufs) := by
  induction bufs with
  | nil => exact There.nowhere pr _
  | cons b rest ih =>
    intro i hi
    rw [total_cons] at hi
    rcases Nat.lt_or_ge i b.iov_len with front | behind
    · rw [concat_front front]
      exact h b List.mem_cons_self i front
    · obtain ⟨j, rfl⟩ := Nat.exists_eq_add_of_le behind
      have inside : j < total rest := by omega
      rw [concat_behind b (total_some inside)]
      exact ih (fun b' mem => h b' (List.mem_cons_of_mem _ mem)) j inside

theorem bytesAt_concat (pr : User) (b : Iovec) (bufs : List Iovec) :
    bytesAt pr (concat (b :: bufs)) (total (b :: bufs)) =
      bytesAt pr (buffer b.iov_base) b.iov_len ++ bytesAt pr (concat bufs) (total bufs) := by
  rw [total_cons, bytesAt_add, bytesAt_congr fun i hi => concat_front hi,
    bytesAt_congr fun i hi => concat_behind b (total_some hi) i]

/-- What is read into the first buffer and into the others is read into all of them. -/
theorem storeAt_concat {xs ys : List UInt8} (le : xs.length ≤ b.iov_len)
    (full : ys ≠ [] → xs.length = b.iov_len) (fits : ys.length ≤ total bufs) :
    storeAt (storeAt pr (buffer b.iov_base) xs) (concat bufs) ys = storeAt pr (concat (b :: bufs)) (xs ++ ys) := by
  have front : storeAt pr (buffer b.iov_base) xs = storeAt pr (concat (b :: bufs)) xs :=
    storeAt_congr fun i hi => (concat_front (hi.trans_le le)).symm
  rw [storeAt_append, front]
  by_cases none : ys = []
  · rw [none]
    rfl
  · refine storeAt_congr fun i hi => ?_
    rw [full none, concat_behind b (total_some (hi.trans_le fits))]

/-! ### The array -/

/-- The array after the copy to the stack. -/
def copied (pr : User) (v : Memory) (iov n : Nat) : Memory :=
  v.blit 0 (bytesAt pr (buffer iov) (lead pr (buffer iov) n))

theorem copied_at (v : Memory) (there : There pr (buffer iov) m) (le : m ≤ n) :
    ∀ a < m, copied pr v iov n a = userArray pr iov a := by
  intro a lt
  have inside : a < (bytesAt pr (buffer iov) (lead pr (buffer iov) n)).length := by
    rw [bytesAt_length]
    exact lt.trans_le (there.lead le)
  have at_a := v.blit_inside 0 inside
  rw [Nat.zero_add] at at_a
  rw [copied, at_a, userArray]
  simp only [bytesAt, List.getElem_map, List.getElem_range]

theorem iovec_congr {v v' : Memory} (same : ∀ a < IOVEC * (i + 1), v a = v' a) : iovec v i = iovec v' i := by
  have base : v.fetch (IOVEC * i) 8 = v'.fetch (IOVEC * i) 8 :=
    Memory.fetch_congr fun j hj => same _ (by rw [IOVEC]; omega)
  have size : v.fetch (IOVEC * i + 8) 4 = v'.fetch (IOVEC * i + 8) 4 :=
    Memory.fetch_congr fun j hj => same _ (by rw [IOVEC]; omega)
  rw [iovec, iovec, base, size]

/-- The entries that can be read are what the loop goes by. -/
theorem buffers_copied (v : Memory) {iovcnt : Int} (readable : Readable pr iov iovcnt)
    (le : IOVEC * iovcnt.toNat ≤ n) :
    buffers (copied pr v iov n) iovcnt.toNat = buffers (userArray pr iov) iovcnt.toNat := by
  refine List.map_congr_left fun i mem => iovec_congr fun a ha => ?_
  have lt := List.mem_range.mp mem
  refine copied_at v readable.2.2 le a (ha.trans_le ?_)
  exact Nat.mul_le_mul_left IOVEC lt

theorem iovec_base_lt (v : Memory) (i : Nat) : (iovec v i).iov_base < 2 ^ 64 := v.fetch_lt _ 8

/-- The entries of two lists of buffers, one behind the other. -/
theorem named_append {front back : List Iovec} (named : (List.range' i more).map (iovec v) = front ++ back) :
    more = front.length + back.length ∧ (List.range' i front.length).map (iovec v) = front ∧
      (List.range' (i + front.length) back.length).map (iovec v) = back := by
  have count := congrArg List.length named
  rw [List.length_map, List.length_range', List.length_append] at count
  subst count
  rw [← List.range'_append_1, List.map_append] at named
  obtain ⟨first, second⟩ := List.append_inj named (by rw [List.length_map, List.length_range'])
  exact ⟨rfl, first, second⟩

theorem buffers_eq (v : Memory) (n : Nat) : (List.range' 0 n).map (iovec v) = buffers v n := by
  rw [buffers, List.range_eq_range']

theorem copyinArray_wild (v : Memory) (wild : WildIn iov) :
    copyinArray pr v iov n = .error (.panic "copyin: srcva > MAXVA & srcva is not in 0x9000(x)") := if_pos wild

theorem copyinArray_ok (v : Memory) (tame : ¬WildIn iov) (inside : lead pr (buffer iov) n ≤ IOVEC * IOVMAX) :
    copyinArray pr v iov n = .ok (copied pr v iov n) := by
  rw [copyinArray, if_neg tame]
  exact if_neg (Nat.not_lt.mpr inside)

/-! ### The loop -/

section Loop

variable {call : Nat → Int → Machine Caller Int} {r : Nat}

/-- The loop never returns from behind the last entry. -/
theorem eachBuffer_beyond (low : i ≤ IOVMAX) (high : IOVMAX < i + more) :
    eachBuffer call v more i len s ≠ .ok (r, t) := by
  induction more generalizing i len s with
  | zero => omega
  | succ more ih =>
    intro run
    rw [eachBuffer] at run
    split at run
    · cases run
    · obtain ⟨_, _, -, rest⟩ := Machine.bind_ok.mp run
      exact ih (by omega) (by omega) rest

theorem eachBuffer_add (call : Nat → Int → Machine Caller Int) (v : Memory) (n m i len : Nat) :
    eachBuffer call v (n + m) i len = (do
      let len ← eachBuffer call v n i len
      eachBuffer call v m (i + n) len) := by
  induction n generalizing i len with
  | zero => rw [Nat.zero_add, eachBuffer, pure_bind, Nat.add_zero]
  | succ n ih =>
    rw [Nat.add_right_comm, eachBuffer, eachBuffer]
    split
    · rfl
    · simp only [ih, bind_assoc, Nat.add_right_comm i 1 n, Nat.add_assoc i n 1]

/-- Behind the last entry it leaves the array. -/
theorem eachBuffer_out (run : eachBuffer call v IOVMAX 0 len s = .ok (r, t)) (high : IOVMAX < more) :
    eachBuffer call v more 0 len s = .error OutOfBounds := by
  obtain ⟨rest, rfl⟩ := Nat.exists_eq_add_of_le (show IOVMAX + 1 ≤ more from high)
  rw [Nat.add_assoc, eachBuffer_add, Machine.bind_of_ok run, Nat.add_comm 1 rest, eachBuffer,
    if_pos (Nat.le_add_left _ _)]
  rfl

end Loop

/-! ### How the calls stop -/

section Inside

/-- The calls of the volume do not stop with the mark of the array. -/
theorem onDisk_inside {α : Type} {x : Machine Disk α} (h : Fat.Stops x) (f : Opened) :
    Machine.Ends (· ≠ OutOfBounds) (onDisk x) f fun _ _ => True := by
  cases run : x f.disk with
  | ok r => exact .of_ok (onDisk_ok run) trivial
  | error stop =>
    have mem := (h f.disk).error run
    refine .of_error (onDisk_error run) ?_
    rintro rfl
    exact absurd mem (by decide)

theorem fileread_inside (buf : Sink) (n : Int) (f : Opened) :
    Machine.Ends (· ≠ OutOfBounds) (fileread fat p buf n) f fun _ _ => True := by
  rw [fileread]
  apply Machine.Ends.get_bind
  refine .ite (fun _ => .pure trivial) fun _ => ?_
  refine .ite (fun _ => .of_ok rfl trivial) fun _ => ?_
  refine .ite (fun _ => .pure trivial) fun _ => ?_
  refine .ite (fun _ => .of_ok rfl trivial) fun _ => ?_
  refine .ite (fun _ => .pure trivial) fun _ => ?_
  exact .bind (onDisk_inside (Fat.ereadInto_stop _ _) f) fun _ _ _ => .of_ok rfl trivial

theorem filewrite_inside (src : Source) (n : Int) (f : Opened) :
    Machine.Ends (· ≠ OutOfBounds) (filewrite fat p src n) f fun _ _ => True := by
  rw [filewrite]
  apply Machine.Ends.get_bind
  refine .ite (fun _ => .pure trivial) fun _ => ?_
  refine .ite (fun _ => .of_ok rfl trivial) fun _ => ?_
  refine .ite (fun _ => .of_ok rfl trivial) fun _ => ?_
  refine .bind (onDisk_inside (Fat.ewrite_stops _ _) f) fun _ _ _ => ?_
  exact .ite (fun _ => .of_ok rfl trivial) fun _ => .of_ok rfl trivial

theorem readConcat_inside (place : Nat → Nat) (r : Int) :
    Machine.Ends (· ≠ OutOfBounds) (readConcat fat p place r) s fun _ _ => True := by
  rw [readConcat]
  apply Machine.Ends.get_bind
  refine .ite (fun _ => .halt (by decide)) fun _ => ?_
  rw [readTo]
  apply Machine.Ends.get_bind
  refine .bind (R := fun _ _ => True) (.lift ?_ fun _ _ => trivial) fun _ _ _ => .of_ok rfl trivial
  exact fun _ stop => (fileread_inside _ r s.file).error stop

theorem writeConcat_inside (place : Nat → Nat) (r : Int) :
    Machine.Ends (· ≠ OutOfBounds) (writeConcat fat p place r) s fun _ _ => True := by
  rw [writeConcat]
  apply Machine.Ends.get_bind
  refine .ite (fun _ => .halt (by decide)) fun _ => ?_
  rw [writeFrom]
  apply Machine.Ends.get_bind
  refine .bind (R := fun _ _ => True) (.lift ?_ fun _ _ => trivial) fun _ _ _ => .of_ok rfl trivial
  exact fun _ stop => (filewrite_inside _ r s.file).error stop

end Inside

/-! ### One buffer -/

theorem buffer_zero {addr : Nat} (base : addr < 2 ^ 64) : buffer addr 0 = addr := Nat.mod_eq_of_lt base

theorem filereadUser_all {addr : Nat} (base : addr < 2 ^ 64) (r : Int) :
    filereadUser fat p addr r = readConcat fat p (buffer addr) r := by
  rw [filereadUser, readConcat, buffer_zero base]

theorem filewriteUser_all {addr : Nat} (base : addr < 2 ^ 64) (r : Int) :
    filewriteUser fat p addr r = writeConcat fat p (buffer addr) r := by
  rw [filewriteUser, writeConcat, buffer_zero base]

/-- A call for an array of one entry is the call for its buffer, whatever becomes of it. -/
theorem vectored_one {call : Nat → Int → Machine Caller Int} {whole : (Nat → Nat) → Int → Machine Caller Int}
    (alike : ∀ addr r, addr < 2 ^ 64 → call addr r = whole (buffer addr) r)
    (inside : ∀ place r, Machine.Ends (· ≠ OutOfBounds) (whole place r) s fun _ _ => True)
    (one : buffers v 1 = [b]) (either : Readable s.pr iov 1 → buffers (userArray s.pr iov) 1 = [b])
    (fails : ¬Readable s.pr iov 1 → whole (buffer b.iov_base) (lowInt b.iov_len) s = .ok (-1, t)) :
    Vectored whole iov 1 s (eachBuffer call v 1 0 0 s) := by
  have entry : iovec v 0 = b := List.head_eq_of_cons_eq one
  have run : eachBuffer call v 1 0 0 s = (do
      let r ← whole (buffer b.iov_base) (lowInt b.iov_len)
      return addInt 0 r) s := by
    rw [eachBuffer, if_neg (by decide), entry, alike _ _ (entry ▸ iovec_base_lt v 0)]
    rfl
  rw [run]
  refine ⟨?_, fun unread => ⟨t, ?_⟩, fun readable => ?_⟩
  · intro stop
    cases answer : whole (buffer b.iov_base) (lowInt b.iov_len) s with
    | ok r =>
      rw [Machine.bind_of_ok (a := r.1) (u := r.2) answer] at stop
      cases stop
    | error h =>
      rw [Machine.bind_of_error answer] at stop
      cases stop
      exact (inside _ _).error answer rfl
  · rw [Machine.bind_of_ok (fails unread)]
    rfl
  · have entries : buffers (userArray s.pr iov) (1 : Int).toNat = [b] := either readable
    dsimp only
    rw [entries, concat_one]
    have count : total [b] = b.iov_len := Nat.add_zero _
    rw [count]
    cases answer : whole (buffer b.iov_base) (lowInt b.iov_len) s with
    | ok r =>
      rw [Machine.bind_of_ok (a := r.1) (u := r.2) answer]
      exact ⟨rfl, ⟨.refl _, rfl⟩, rfl⟩
    | error h =>
      rw [Machine.bind_of_error answer]
      rfl

end AvxKernel.File
