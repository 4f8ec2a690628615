import AvxKernel.Console.Console
import AvxKernel.Lib.Fifo
import Mathlib.Logic.Relation

/-! The three indices of the console's ring, which wrap around, are lengths of the
history of lines: what readers get is what has been committed, in order, and editing
takes nothing of it back. -/
namespace AvxKernel.Console

variable {s t : Sys} {cons : Cons} {h : History} {c : UInt8}

/-- The ring holds what is committed and not consumed, and behind it the line that is
being typed. -/
structure Cons.Holds (cons : Cons) (h : History) : Prop where
  ring : Fifo INPUT_BUF (2 ^ 32) cons.buf cons.r.toNat cons.e.toNat h.consumed
    (h.committed ++ h.line)
  write : cons.w.toNat = h.committed.length % 2 ^ 32
  kept : h.consumed <+: h.committed
  delivered : h.delivered = h.consumed.filter (· ≠ EOT)

theorem INPUT_BUF_dvd : INPUT_BUF ∣ 2 ^ 32 := ⟨2 ^ 25, by decide⟩

theorem Cons.Holds.held (holds : cons.Holds h) : (cons.e - cons.r).toNat = h.held := by
  have apart := Fifo.distance holds.ring (by decide)
  rw [Nat.add_comm, ← UInt32.toNat_sub] at apart
  rw [apart, List.length_append, History.held]

theorem Cons.Holds.held_le (holds : cons.Holds h) : h.held ≤ INPUT_BUF := by
  have room := holds.ring.room
  rw [List.length_append] at room
  rw [History.held]
  omega

/-- The line lies between the other two indices. -/
theorem Cons.Holds.line_length (holds : cons.Holds h) :
    (cons.e - cons.w).toNat = h.line.length ∧ h.line.length ≤ h.held := by
  have short : h.line.length ≤ h.held := by
    have := holds.kept.length_le
    rw [History.held]
    omega
  refine ⟨?_, short⟩
  have small := holds.held_le
  have ring := holds.ring.write
  rw [List.length_append] at ring
  rw [UInt32.toNat_sub, holds.write, ring, INPUT_BUF] at *
  omega

theorem Cons.Holds.nothing_typed (holds : cons.Holds h) : cons.e = cons.w ↔ h.line = [] := by
  have length := holds.line_length.1
  constructor
  · intro same
    rw [same, UInt32.sub_self] at length
    exact List.length_eq_zero_iff.mp length.symm
  · intro none
    rw [none] at length
    rw [UInt32.toNat_sub, List.length_nil] at length
    have := cons.e.toNat_lt
    have := cons.w.toNat_lt
    exact UInt32.toNat_inj.mp (by omega)

/-! ### Editing -/

theorem sub_one_toNat (x : UInt32) : (x - 1).toNat = (x.toNat + (2 ^ 32 - 1)) % 2 ^ 32 := by
  rw [UInt32.toNat_sub, Nat.add_comm]
  rfl

/-- The line's last character. -/
theorem Cons.Holds.erase {line : List UInt8} (holds : cons.Holds { h with line := line ++ [c] }) :
    cons.last = c ∧ cons.erase.Holds { h with line } := by
  have ring := holds.ring
  rw [← List.append_assoc] at ring
  have kept : h.consumed.length ≤ (h.committed ++ line).length := by
    have := holds.kept.length_le
    rw [List.length_append]
    exact Nat.le_trans this (Nat.le_add_right _ _)
  have last := Fifo.last ring kept (by decide) INPUT_BUF_dvd
  have back := Fifo.retract ring kept (by decide)
  rw [← sub_one_toNat] at last back
  exact ⟨last, back, holds.write, holds.kept, holds.delivered⟩

theorem killed_concat (line : List UInt8) (c : UInt8) :
    killed (line ++ [c]) = if c ≠ NEWLINE then killed line else line ++ [c] := by
  unfold killed
  rw [List.reverse_append, List.reverse_singleton, List.singleton_append, List.dropWhile_cons]
  split
  · next erased => rw [if_pos (by simpa using erased)]
  · next stays => rw [if_neg (by simpa using stays), List.reverse_cons, List.reverse_reverse]

/-- Kill-line stops at the latest where the line begins. -/
theorem killLine_holds (more : Nat) (line : List UInt8) (enough : line.length ≤ more)
    (holds : cons.Holds { h with line }) :
    (killLine more cons).Holds { h with line := killed line } := by
  induction more generalizing cons line with
  | zero =>
    obtain rfl := List.length_eq_zero_iff.mp (Nat.le_zero.mp enough)
    exact holds
  | succ more ih =>
    rw [killLine]
    rcases List.eq_nil_or_concat' line with rfl | ⟨line, c, rfl⟩
    · rw [if_neg fun differ => differ.1 (holds.nothing_typed.mpr rfl)]
      exact holds
    · have typed : cons.e ≠ cons.w := fun same => by simpa using holds.nothing_typed.mp same
      obtain ⟨last, back⟩ := holds.erase
      rw [List.length_append, List.length_singleton] at enough
      rw [killed_concat, last]
      by_cases newline : c = NEWLINE
      · rw [if_neg fun differ => differ.2 newline, if_neg (not_not.mpr newline)]
        exact holds
      · rw [if_pos ⟨typed, newline⟩, if_pos newline]
        exact ih line (by omega) back

theorem Cons.Holds.backspace (holds : cons.Holds h) :
    (if cons.e ≠ cons.w then cons.erase else cons).Holds { h with line := h.line.dropLast } := by
  obtain ⟨consumed, delivered, committed, line⟩ := h
  rcases List.eq_nil_or_concat' line with rfl | ⟨line, c, rfl⟩
  · rw [if_neg (not_not.mpr (holds.nothing_typed.mpr rfl))]
    exact holds
  · have typed : cons.e ≠ cons.w := fun same => by simpa using holds.nothing_typed.mp same
    rw [if_pos typed, List.dropLast_concat]
    exact (Cons.Holds.erase holds).2

/-- A character is put behind the line. -/
theorem Cons.Holds.put (holds : cons.Holds h) (room : h.held < INPUT_BUF) (c : UInt8) :
    (cons.put c).Holds { h with line := h.line ++ [c] } := by
  have free : cons.e.toNat ≠ (cons.r.toNat + INPUT_BUF) % 2 ^ 32 := by
    rw [ne_eq, Fifo.full_iff holds.ring (by decide), List.length_append]
    rw [History.held] at room
    omega
  have pushed := Fifo.push holds.ring INPUT_BUF_dvd free c
  rw [List.append_assoc] at pushed
  refine ⟨?_, holds.write, holds.kept, holds.delivered⟩
  rw [Cons.put, UInt32.toNat_add]
  exact pushed

/-- The line is committed. -/
theorem Cons.Holds.commit (holds : cons.Holds h) :
    { cons with w := cons.e }.Holds { h with committed := h.committed ++ h.line, line := [] } := by
  refine ⟨?_, holds.ring.write, holds.kept.trans (List.prefix_append _ _), holds.delivered⟩
  rw [List.append_nil]
  exact holds.ring

theorem Cons.Holds.full_iff (holds : cons.Holds h) :
    cons.e = cons.r + UInt32.ofNat INPUT_BUF ↔ h.held = INPUT_BUF := by
  have held := holds.ring.order.length_le
  have full := Fifo.full_iff holds.ring (by decide)
  rw [List.length_append] at held full
  rw [← UInt32.toNat_inj, UInt32.toNat_add, History.held]
  refine Iff.trans full ?_
  omega

/-- Every character does to the ring what it does to the line. -/
theorem consoleintr_holds (c : Int) (holds : cons.Holds h) :
    (consoleintr c cons).1.Holds (h.type c) := by
  rw [consoleintr, History.type]
  split
  · exact holds
  split
  · exact killLine_holds _ _ (Nat.le_of_eq holds.line_length.1.symm) holds
  split
  · exact holds.backspace
  have room : (c ≠ 0 ∧ cons.e - cons.r < UInt32.ofNat INPUT_BUF) ↔
      (c ≠ 0 ∧ h.held < INPUT_BUF) := by
    rw [UInt32.lt_iff_toNat_lt, holds.held]
    rfl
  by_cases fits : c ≠ 0 ∧ h.held < INPUT_BUF
  · rw [if_pos (room.mpr fits), if_pos fits]
    dsimp only
    generalize (if c = 13 then 10 else c) = c
    have put := holds.put fits.2 (toChar c)
    have full : (c = 10 ∨ c = C 'D' ∨
        (cons.put (toChar c)).e = (cons.put (toChar c)).r + UInt32.ofNat INPUT_BUF) ↔
        (c = 10 ∨ c = C 'D' ∨ h.held + 1 = INPUT_BUF) := by
      refine or_congr_right (or_congr_right (put.full_iff.trans ?_))
      have := holds.kept.length_le
      simp only [History.held, List.length_append, List.length_singleton]
      omega
    by_cases commits : c = 10 ∨ c = C 'D' ∨ h.held + 1 = INPUT_BUF
    · rw [if_pos (full.mpr commits), if_pos commits]
      exact put.commit
    · rw [if_neg (mt full.mp commits), if_neg commits]
      exact put
  · rw [if_neg (mt room.mp fits), if_neg fits]
    exact holds

/-! ### Reading -/

/-- The history once a section has taken characters. -/
def History.reads (h : History) (sec : Section) : History :=
  { h with
    consumed := h.consumed ++ sec.consumed
    delivered := h.delivered ++ sec.delivered }

theorem Cons.Holds.nothing_left (holds : cons.Holds h) :
    cons.r = cons.w ↔ h.committed.length = h.consumed.length := by
  have kept := holds.kept.length_le
  have near := holds.held_le
  rw [← UInt32.toNat_inj, holds.write, holds.ring.read]
  rw [History.held, INPUT_BUF] at near
  omega

/-- The next character is the next of those committed. -/
theorem Cons.Holds.take (holds : cons.Holds h) (more : cons.r ≠ cons.w) :
    (h.consumed ++ [cons.take.1] <+: h.committed) ∧
    Fifo INPUT_BUF (2 ^ 32) cons.take.2.buf cons.take.2.r.toNat cons.take.2.e.toNat
      (h.consumed ++ [cons.take.1]) (h.committed ++ h.line) := by
  have kept := holds.kept.length_le
  have fewer : h.consumed.length < h.committed.length :=
    Nat.lt_of_le_of_ne kept fun same => more (holds.nothing_left.mpr same.symm)
  have differ : cons.r.toNat ≠ cons.e.toNat := fun same => by
    have apart := holds.held
    rw [UInt32.toNat_inj.mp same, UInt32.sub_self, History.held] at apart
    have : (0 : UInt32).toNat = 0 := rfl
    omega
  have popped := Fifo.pop holds.ring INPUT_BUF_dvd differ
  refine ⟨?_, ?_⟩
  · refine List.prefix_of_prefix_length_le popped.order (List.prefix_append _ _) ?_
    rw [List.length_append, List.length_singleton]
    exact fewer
  · rw [Cons.take, UInt32.toNat_add]
    exact popped

theorem consolereadFrom_holds (killed : Bool) (target n dst : Nat) (memory : Nat → UInt8)
    (holds : cons.Holds h) :
    (consolereadFrom killed target n dst cons memory).cons.Holds
      (h.reads (consolereadFrom killed target n dst cons memory)) := by
  induction n generalizing dst cons memory h with
  | zero => simpa [consolereadFrom, History.reads] using holds
  | succ n ih =>
    rw [consolereadFrom]
    by_cases empty : cons.r = cons.w
    · rw [if_pos empty]
      simpa [History.reads] using holds
    rw [if_neg empty]
    obtain ⟨kept, ring⟩ := holds.take empty
    dsimp only
    by_cases eot : cons.take.1 = EOT
    · rw [if_pos eot]
      split
      · have same : cons.r + 1 - 1 = cons.r := by rw [UInt32.add_sub_cancel]
        simpa [History.reads, Cons.take, same] using holds
      · refine ⟨ring, holds.write, kept, ?_⟩
        simp [History.reads, eot, holds.delivered]
    rw [if_neg eot]
    have taken : cons.take.2.Holds { h with
        consumed := h.consumed ++ [cons.take.1]
        delivered := h.delivered ++ [cons.take.1] } :=
      ⟨ring, holds.write, kept, by simp [eot, holds.delivered]⟩
    split
    · exact taken
    · have rest := ih (dst + 1) (Function.update memory (u64 dst) cons.take.1) taken
      simpa [History.reads] using rest

/-- What a section copies out lies in its buffer, and it is as much as the call then
says it has read. -/
theorem consolereadFrom_memory (killed : Bool) (target n dst : Nat) (cons : Cons)
    (memory : Nat → UInt8) (within : n ≤ target) :
    let sec := consolereadFrom killed target n dst cons memory
    sec.delivered.length ≤ n ∧
    (∀ i, sec.ending = .returned i → i = target - n + sec.delivered.length) ∧
    (∀ a, (∀ k < n, a ≠ u64 (dst + k)) → sec.memory a = memory a) ∧
    (n ≤ 2 ^ 31 → ∀ k (h : k < sec.delivered.length),
      sec.memory (u64 (dst + k)) = sec.delivered[k]) := by
  induction n generalizing dst cons memory with
  | zero =>
    refine ⟨Nat.le_refl _, ?_, fun _ _ => rfl, fun _ k h => absurd h (Nat.not_lt_zero k)⟩
    rintro i ⟨⟩
    rfl
  | succ n ih =>
    have nothing : ∀ ending, (∀ i, ending = .returned i → i = target - (n + 1)) →
        ∀ cons consumed, let sec : Section := ⟨cons, memory, consumed, [], ending⟩
        sec.delivered.length ≤ n + 1 ∧
        (∀ i, sec.ending = .returned i → i = target - (n + 1) + sec.delivered.length) ∧
        (∀ a, (∀ k < n + 1, a ≠ u64 (dst + k)) → sec.memory a = memory a) ∧
        (n + 1 ≤ 2 ^ 31 → ∀ k (h : k < sec.delivered.length),
          sec.memory (u64 (dst + k)) = sec.delivered[k]) :=
      fun ending count _ _ => ⟨Nat.zero_le _, count, fun _ _ => rfl,
        fun _ k h => absurd h (Nat.not_lt_zero k)⟩
    rw [consolereadFrom]
    split
    · refine nothing _ (fun i returned => ?_) _ _
      split at returned <;> cases returned
    dsimp only
    split
    · split
      · exact nothing _ (fun i returned => by cases returned; rfl) _ _
      · exact nothing _ (fun i returned => by cases returned; rfl) _ _
    split
    · refine ⟨by simp, fun i returned => ?_, fun a apart => ?_, fun _ k h => ?_⟩
      · cases returned
        rw [List.length_singleton]
        omega
      · exact Function.update_of_ne (apart 0 (by omega)) _ _
      · obtain rfl : k = 0 := by simpa using h
        exact Function.update_self _ _ _
    · obtain ⟨few, count, outside, here⟩ := ih (dst + 1) cons.take.2
        (Function.update memory (u64 dst) cons.take.1) (by omega)
      refine ⟨by simpa using few, fun i returned => ?_, fun a apart => ?_, fun narrow k h => ?_⟩
      · have := count i returned
        rw [List.length_cons]
        omega
      · rw [outside a fun k hk => by
          have := apart (k + 1) (by omega)
          rwa [Nat.add_right_comm]]
        exact Function.update_of_ne (apart 0 (by omega)) _ _
      · cases k with
        | zero =>
          refine (outside _ fun k hk => ?_).trans (Function.update_self _ _ _)
          rw [u64, u64]
          omega
        | succ k =>
          have later := here (by omega) k (by simpa using h)
          rw [Nat.add_right_comm] at later
          exact later

/-- An end of file that is committed ends the read, and is kept for the next one if
something has been read. -/
theorem consolereadFrom_eot (killed : Bool) (target n dst : Nat) (memory : Nat → UInt8)
    (holds : cons.Holds h) {before after : List UInt8}
    (unread : h.committed = h.consumed ++ (before ++ EOT :: after))
    (plain : EOT ∉ before ∧ NEWLINE ∉ before) (fits : before.length < n) :
    let sec := consolereadFrom killed target n dst cons memory
    sec.delivered = before ∧ sec.ending = .returned (target - (n - before.length)) ∧
    sec.consumed = if n - before.length < target then before else before ++ [EOT] := by
  induction before generalizing n dst cons memory h with
  | nil =>
    obtain ⟨n, rfl⟩ := Nat.exists_eq_add_one_of_ne_zero (Nat.ne_of_gt fits)
    have more : cons.r ≠ cons.w := fun empty => by
      have := holds.nothing_left.mp empty
      simp [unread] at this
    have next := List.IsPrefix.getElem (holds.take more).1 (i := h.consumed.length) (by simp)
    simp only [unread, List.getElem_concat_length, List.nil_append] at next
    rw [List.getElem_append_right (Nat.le_refl _)] at next
    simp only [Nat.sub_self, List.getElem_cons_zero] at next
    rw [consolereadFrom, if_neg more]
    dsimp only
    rw [if_pos next]
    split
    · next saved => exact ⟨rfl, rfl, (if_pos saved).symm⟩
    · next first => exact ⟨rfl, rfl, by rw [if_neg (by simpa using first), next]; rfl⟩
  | cons c before ih =>
    obtain ⟨n, rfl⟩ := Nat.exists_eq_add_one_of_ne_zero (show n ≠ 0 by omega)
    have more : cons.r ≠ cons.w := fun empty => by
      have := holds.nothing_left.mp empty
      simp [unread] at this
    have next := List.IsPrefix.getElem (holds.take more).1 (i := h.consumed.length) (by simp)
    simp only [unread, List.getElem_concat_length, List.cons_append] at next
    rw [List.getElem_append_right (Nat.le_refl _)] at next
    simp only [Nat.sub_self, List.getElem_cons_zero] at next
    simp only [List.mem_cons, not_or] at plain
    have not_eot : cons.take.1 ≠ EOT := by
      rw [next]
      exact Ne.symm plain.1.1
    have not_newline : cons.take.1 ≠ NEWLINE := by
      rw [next]
      exact Ne.symm plain.2.1
    have taken : cons.take.2.Holds { h with
        consumed := h.consumed ++ [cons.take.1]
        delivered := h.delivered ++ [cons.take.1] } :=
      ⟨(holds.take more).2, holds.write, (holds.take more).1, by simp [not_eot, holds.delivered]⟩
    obtain ⟨delivered, ending, consumed⟩ := ih n (dst + 1)
      (Function.update memory (u64 dst) cons.take.1) taken
      (by rw [next]; simpa using unread) ⟨plain.1.2, plain.2.2⟩ (by simpa using fits)
    rw [consolereadFrom, if_neg more]
    dsimp only
    rw [if_neg not_eot, if_neg not_newline]
    have left : n + 1 - (before.length + 1) = n - before.length := by omega
    rw [List.length_cons, left]
    refine ⟨?_, ending, ?_⟩
    · exact congrArg₂ List.cons next delivered
    · refine (congrArg₂ List.cons next consumed).trans ?_
      split <;> rfl

/-! ### Runs -/

def Sys.Holds (s : Sys) : Prop := s.cons.Holds s.history

theorem Sys.intr_cons (s : Sys) (c : Int) : (s.intr c).cons = (consoleintr c s.cons).1 ∧
    (s.intr c).history = s.history.type c := by
  rw [Sys.intr]
  dsimp only
  split <;> exact ⟨rfl, rfl⟩

theorem Sys.Holds.run (holds : s.Holds) (p : Nat) (call : Read) : (s.run p call).Holds :=
  consolereadFrom_holds (s.proc p).killed call.target call.n call.dst (s.proc p).memory holds

theorem Sys.Holds.step (holds : s.Holds) (step : Step s t) : t.Holds := by
  cases step with
  | intr c =>
    rw [Sys.Holds, (s.intr_cons c).1, (s.intr_cons c).2]
    exact consoleintr_holds c holds
  | consoleread p dst n out => exact holds.run p _
  | resume p call ready => exact holds.run p call
  | store p memory => exact holds
  | kill p killed => exact holds

theorem Sys.Start.holds (start : s.Start) : s.Holds := by
  rw [Sys.Holds, start.cons, start.history]
  exact ⟨Fifo.empty, rfl, List.prefix_refl _, rfl⟩

theorem Sys.Holds.reachable (holds : s.Holds) (run : Relation.ReflTransGen Step s t) :
    t.Holds := by
  induction run with
  | refl => exact holds
  | tail _ step ih => exact ih.step step

/-- Nothing that is committed is removed. -/
theorem History.type_committed (h : History) (c : Int) :
    h.committed <+: (h.type c).committed := by
  rw [History.type]
  split
  · exact List.prefix_refl _
  split
  · exact List.prefix_refl _
  split
  · exact List.prefix_refl _
  split
  · dsimp only
    generalize (if c = 13 then 10 else c) = c
    split
    · exact List.prefix_append _ _
    · exact List.prefix_refl _
  · exact List.prefix_refl _

theorem Step.committed (step : Step s t) : s.history.committed <+: t.history.committed := by
  cases step with
  | intr c =>
    rw [(s.intr_cons c).2]
    exact s.history.type_committed c
  | consoleread p dst n out => exact List.prefix_refl _
  | resume p call ready => exact List.prefix_refl _
  | store p memory => exact List.prefix_refl _
  | kill p killed => exact List.prefix_refl _

/-- The keys that take characters back. -/
def Erases (c : Int) : Prop := c = C 'U' ∨ c = C 'H' ∨ c = 0x7f

theorem History.type_erases {c : Int} (h : History) (erases : Erases c) :
    (h.type c).committed = h.committed := by
  have not_list : c ≠ C 'P' := by
    rintro rfl
    rcases erases with h | h | h <;> revert h <;> decide
  rw [History.type, if_neg not_list]
  split
  · rfl
  · next not_kill => rw [if_pos (erases.resolve_left not_kill)]

/-- In every state that is reached: the indices of the ring are, up to the wrap, the
lengths of what has been consumed, committed and typed, and lie in that order within one
turn of the ring; the readers have got, in order, what has been committed, but for the ends
of file, each in its buffer; what is committed and not consumed is in the ring and stays
committed, whatever key is hit; and an end of file ends the read that meets it. -/
theorem console_lines (start : s.Start) (run : Relation.ReflTransGen Step s t) :
    (t.cons.r.toNat = t.history.consumed.length % 2 ^ 32 ∧
      t.cons.w.toNat = t.history.committed.length % 2 ^ 32 ∧
      t.cons.e.toNat = (t.history.committed ++ t.history.line).length % 2 ^ 32) ∧
    ((t.cons.w - t.cons.r).toNat ≤ (t.cons.e - t.cons.r).toNat ∧
      (t.cons.e - t.cons.r).toNat ≤ INPUT_BUF) ∧
    t.history.delivered = t.history.consumed.filter (· ≠ EOT) ∧
    t.history.consumed <+: t.history.committed ∧
    (∀ k (h : k < t.history.committed.length), t.history.consumed.length ≤ k →
      t.cons.buf (k % INPUT_BUF) = t.history.committed[k]) ∧
    (∀ t', Step t t' → t.history.committed <+: t'.history.committed) ∧
    (∀ c, Erases c → (t.intr c).history.committed = t.history.committed ∧
      (t.intr c).cons.w = t.cons.w) ∧
    (∀ (p : Nat) (call : Read), call.n ≤ call.target → call.n ≤ 2 ^ 31 →
      ∀ k (h : k < (call.section (t.proc p) t.cons).delivered.length),
        (call.section (t.proc p) t.cons).memory (u64 (call.dst + k)) =
          (call.section (t.proc p) t.cons).delivered[k]) ∧
    ∀ (p : Nat) (call : Read) (before after : List UInt8),
      t.history.committed = t.history.consumed ++ (before ++ EOT :: after) →
      EOT ∉ before ∧ NEWLINE ∉ before → before.length < call.n →
      (call.section (t.proc p) t.cons).delivered = before ∧
      (call.section (t.proc p) t.cons).ending =
        .returned (call.target - (call.n - before.length)) := by
  have holds := start.holds.reachable run
  refine ⟨⟨holds.ring.read, holds.write, holds.ring.write⟩, ⟨?_, ?_⟩, holds.delivered, holds.kept,
    ?_, fun t' step => step.committed, fun c erases => ?_, fun p call within narrow => ?_, ?_⟩
  · have line := holds.line_length
    have held := holds.held
    have near := holds.held_le
    have ring := holds.ring.read
    have write := holds.write
    have kept := holds.kept.length_le
    rw [held]
    rw [UInt32.toNat_sub, write, ring]
    rw [History.held, INPUT_BUF] at *
    omega
  · rw [holds.held]
    exact holds.held_le
  · intro k h unread
    have stored := holds.ring.stored k (by
      rw [List.length_append]
      omega) unread
    rwa [List.getElem_append_left h] at stored
  · obtain ⟨cons, history⟩ := t.intr_cons c
    have same : (t.intr c).history.committed = t.history.committed := by
      rw [history, t.history.type_erases erases]
    refine ⟨same, ?_⟩
    have after := (holds.step (.intr c)).write
    rw [same] at after
    exact UInt32.toNat_inj.mp (after.trans holds.write.symm)
  · exact (consolereadFrom_memory (t.proc p).killed call.target call.n call.dst t.cons
      (t.proc p).memory within).2.2.2 narrow
  · intro p call before after unread plain fits
    obtain ⟨delivered, ending, -⟩ := consolereadFrom_eot (t.proc p).killed call.target call.n
      call.dst (t.proc p).memory holds unread plain fits
    exact ⟨delivered, ending⟩

/-- Nobody has typed anything, and process 0 is there to read. -/
def quiet : Sys := ⟨Cons.zeroed, fun _ => ⟨fun _ => 0, false⟩, fun _ => .outside, ⟨[], [], [], []⟩⟩

/-- `a`, end of file: the next read gets one character. -/
theorem console_lines_typed : let t := (quiet.intr 97).intr (C 'D')
    ((consoleread 0 5).section (t.proc 0) t.cons).delivered = [97] ∧
    ((consoleread 0 5).section (t.proc 0) t.cons).ending = .returned 1 := by
  have start : quiet.Start := ⟨rfl, fun _ => rfl, rfl⟩
  have run : Relation.ReflTransGen Step quiet ((quiet.intr 97).intr (C 'D')) :=
    .tail (.single (.intr 97)) (.intr (C 'D'))
  exact (console_lines start run).2.2.2.2.2.2.2.2 0 (consoleread 0 5) [97] [] rfl
    (by decide) (by decide)

end AvxKernel.Console
