import AvxKernel.Ipc.Pipe
import AvxKernel.Lib.Fifo
import Mathlib.Logic.Relation

/-! A pipe delivers its bytes in order, once each, whoever reads and writes it
and however often its counters wrap around. -/
namespace AvxKernel.Ipc

variable {s t : Sys} {pi pi' : Pipe} {removed inserted : List UInt8}

/-- The pipe holds what has been put into it and not been taken from it. -/
def Pipe.Holds (pi : Pipe) (removed inserted : List UInt8) : Prop :=
  Fifo PIPESIZE (2 ^ 32) pi.data pi.nread.toNat pi.nwrite.toNat removed inserted

theorem PIPESIZE_dvd : PIPESIZE ∣ 2 ^ 32 := ⟨2 ^ 23, by decide⟩

theorem Pipe.not_full_iff :
    pi.full = false ↔ pi.nwrite.toNat ≠ (pi.nread.toNat + PIPESIZE) % 2 ^ 32 := by
  rw [Pipe.full, beq_eq_false_iff_ne, ne_eq, ← UInt32.toNat_inj, UInt32.toNat_add]
  rfl

theorem Pipe.not_empty_iff : pi.empty = false ↔ pi.nread.toNat ≠ pi.nwrite.toNat := by
  rw [Pipe.empty, beq_eq_false_iff_ne, ne_eq, ← UInt32.toNat_inj]

theorem Pipe.Holds.put (h : pi.Holds removed inserted) (free : pi.full = false) (ch : UInt8) :
    (pi.put ch).Holds removed (inserted ++ [ch]) := by
  have pushed := Fifo.push h PIPESIZE_dvd (Pipe.not_full_iff.mp free) ch
  rw [Pipe.Holds, Pipe.put, UInt32.toNat_add]
  exact pushed

theorem Pipe.Holds.take (h : pi.Holds removed inserted) (some_left : pi.empty = false) :
    pi.take.2.Holds (removed ++ [pi.take.1]) inserted := by
  have popped := Fifo.pop h PIPESIZE_dvd (Pipe.not_empty_iff.mp some_left)
  rw [Pipe.Holds, Pipe.take, UInt32.toNat_add]
  exact popped

/-- A section of `pipewrite` puts its bytes behind those that are there. -/
theorem pipewriteFrom_holds (pr : Proc) (addr : Nat) (n : Int) (more i : Nat)
    (h : pi.Holds removed inserted) :
    (pipewriteFrom pr addr n more i pi).1.Holds removed
      (inserted ++ (pipewriteFrom pr addr n more i pi).2.1) := by
  induction more generalizing i pi inserted with
  | zero => simpa [pipewriteFrom] using h
  | succ more ih =>
    rw [pipewriteFrom]
    split
    · split <;> simpa using h
    · rename_i free
      have rest := ih (i + 1) (h.put (by simpa using free) (pr.memory (u64 (addr + i))))
      rwa [List.append_assoc, List.singleton_append] at rest

/-- A section of `piperead` takes the first bytes. -/
theorem pipereadFrom_holds (addr more i : Nat) (memory : Nat → UInt8)
    (h : pi.Holds removed inserted) :
    (pipereadFrom addr more i pi memory).1.Holds
      (removed ++ (pipereadFrom addr more i pi memory).2.2.1) inserted := by
  induction more generalizing i pi memory removed with
  | zero => simpa [pipereadFrom] using h
  | succ more ih =>
    rw [pipereadFrom]
    split
    · simpa using h
    · rename_i some_left
      have rest := ih (i + 1) (Function.update memory (u64 (addr + i)) pi.take.1)
        (h.take (by simpa using some_left))
      rwa [List.append_assoc, List.singleton_append] at rest

/-- What `piperead` has taken lies in its buffer, as many bytes as it returns. -/
theorem pipereadFrom_memory (pi : Pipe) (addr more i : Nat) (memory : Nat → UInt8)
    (narrow : i + more ≤ 2 ^ 31) :
    (pipereadFrom addr more i pi memory).2.2.2 =
      i + (pipereadFrom addr more i pi memory).2.2.1.length ∧
    (∀ k < i, (pipereadFrom addr more i pi memory).2.1 (u64 (addr + k)) =
      memory (u64 (addr + k))) ∧
    ∀ k (h : k < (pipereadFrom addr more i pi memory).2.2.1.length),
      (pipereadFrom addr more i pi memory).2.1 (u64 (addr + (i + k))) =
        (pipereadFrom addr more i pi memory).2.2.1[k] := by
  induction more generalizing i pi memory with
  | zero =>
    rw [pipereadFrom]
    exact ⟨rfl, fun _ _ => rfl, fun k h => absurd h (Nat.not_lt_zero k)⟩
  | succ more ih =>
    have apart : ∀ k < i, u64 (addr + k) ≠ u64 (addr + i) := fun k hk => by
      rw [u64, u64]
      omega
    rw [pipereadFrom]
    split
    · exact ⟨rfl, fun _ _ => rfl, fun k h => absurd h (Nat.not_lt_zero k)⟩
    · obtain ⟨count, before, here⟩ := ih pi.take.2 (i + 1)
        (Function.update memory (u64 (addr + i)) pi.take.1) (by omega)
      refine ⟨?_, fun k hk => ?_, fun k hk => ?_⟩
      · exact count.trans (Nat.succ_add_eq_add_succ i _)
      · exact (before k (by omega)).trans (Function.update_of_ne (apart k hk) _ _)
      · cases k with
        | zero => exact (before i (Nat.lt_succ_self i)).trans (Function.update_self _ _ _)
        | succ k =>
          have shift : i + (k + 1) = i + 1 + k := by omega
          rw [shift]
          exact here k (by simpa using hk)

/-- A `piperead` that returns has stored the bytes it has taken in its buffer, as
many as it says. -/
theorem piperead_memory {pr : Proc} {addr i : Nat} {n : Int} (narrow : n < 2 ^ 31)
    (returned : ((Call.piperead addr n).section pr pi).ending = .returned i) :
    ((Call.piperead addr n).section pr pi).taken.length = i ∧
    ∀ k (h : k < ((Call.piperead addr n).section pr pi).taken.length),
      ((Call.piperead addr n).section pr pi).memory (u64 (addr + k)) =
        ((Call.piperead addr n).section pr pi).taken[k] := by
  by_cases wait : pi.empty ∧ pi.writeopen
  · rw [Call.section, if_pos wait] at returned
    cases dead : pr.killed <;> simp [dead] at returned
  · have section_eq : (Call.piperead addr n).section pr pi =
        ⟨(pipereadFrom addr n.toNat 0 pi pr.memory).1,
          (pipereadFrom addr n.toNat 0 pi pr.memory).2.1, [],
          (pipereadFrom addr n.toNat 0 pi pr.memory).2.2.1,
          .returned (pipereadFrom addr n.toNat 0 pi pr.memory).2.2.2⟩ := if_neg wait
    obtain ⟨count, -, here⟩ := pipereadFrom_memory pi addr n.toNat 0 pr.memory
      (by omega)
    simp only [section_eq, Nat.zero_add] at returned count here ⊢
    exact ⟨count.symm.trans (End.returned.inj returned), here⟩

/-- A section of `pipewrite` puts in the bytes of its buffer that come next. -/
theorem pipewriteFrom_put (pr : Proc) (addr : Nat) (n : Int) (more i : Nat) (pi : Pipe) :
    (pipewriteFrom pr addr n more i pi).2.1 =
      (List.range (pipewriteFrom pr addr n more i pi).2.1.length).map
        fun k => pr.memory (u64 (addr + (i + k))) := by
  induction more generalizing i pi with
  | zero => rfl
  | succ more ih =>
    rw [pipewriteFrom]
    split
    · split <;> rfl
    · have rest := ih (i + 1) (pi.put (pr.memory (u64 (addr + i))))
      dsimp only
      rw [List.length_cons, List.range_succ_eq_map, List.map_cons, List.map_map]
      refine congrArg _ (rest.trans ?_)
      apply List.map_congr_left
      intro k _
      rw [Function.comp_apply, Nat.succ_add_eq_add_succ]

/-- One section of a call keeps the order. -/
theorem Call.section_holds (call : Call) (pr : Proc) (h : pi.Holds removed inserted) :
    (call.section pr pi).pipe.Holds (removed ++ (call.section pr pi).taken)
      (inserted ++ (call.section pr pi).put) := by
  cases call with
  | pipewrite addr n i =>
    have held := pipewriteFrom_holds pr addr n (n - i).toNat i h
    simpa [Call.section] using held
  | piperead addr n =>
    rw [Call.section]
    split
    · simpa using h
    · have held := pipereadFrom_holds addr n.toNat 0 pr.memory h
      simpa using held

/-- The pipe holds the bytes accepted and not yet delivered. -/
def Sys.Ordered (s : Sys) : Prop := s.pipe.Holds s.delivered s.accepted

theorem Sys.finish_pipe (s : Sys) (p : Nat) (call : Call) (ending : End) :
    (s.finish p call ending).pipe = s.pipe ∧ (s.finish p call ending).accepted = s.accepted ∧
    (s.finish p call ending).delivered = s.delivered := by
  cases ending with
  | failed => exact ⟨rfl, rfl, rfl⟩
  | asleep rest => cases call <;> exact ⟨rfl, rfl, rfl⟩
  | returned i => exact ⟨rfl, rfl, rfl⟩

theorem Sys.run_pipe (s : Sys) (p : Nat) (call : Call) :
    (s.run p call).pipe = (call.section (s.proc p) s.pipe).pipe ∧
    (s.run p call).accepted = s.accepted ++ (call.section (s.proc p) s.pipe).put ∧
    (s.run p call).delivered = s.delivered ++ (call.section (s.proc p) s.pipe).taken := by
  exact Sys.finish_pipe _ p call _

theorem Sys.Ordered.run (h : s.Ordered) (p : Nat) (call : Call) : (s.run p call).Ordered := by
  obtain ⟨pipe, accepted, delivered⟩ := s.run_pipe p call
  rw [Sys.Ordered, pipe, accepted, delivered]
  exact call.section_holds (s.proc p) h

theorem Sys.Ordered.step (h : s.Ordered) (step : Step s t) : t.Ordered := by
  cases step with
  | pipewrite p addr n out => exact h.run p _
  | piperead p addr n out => exact h.run p _
  | resume p call ready => exact h.run p call
  | store p memory => exact h
  | kill p killed => exact h
  | pipeclose writable =>
    cases writable with
    | true => exact h
    | false => exact h

theorem Sys.Start.ordered (h : s.Start) : s.Ordered := by
  rw [Sys.Ordered, h.pipe, h.accepted, h.delivered]
  exact Fifo.empty

theorem Sys.Ordered.reachable (h : s.Ordered) (run : Relation.ReflTransGen Step s t) :
    t.Ordered := by
  induction run with
  | refl => exact h
  | tail _ step ih => exact ih.step step

/-- The bytes delivered are a prefix of the bytes accepted, a byte keeps its place
until it is delivered, and the counters are at most `PIPESIZE` apart. -/
theorem pipe_fifo (start : s.Start) (run : Relation.ReflTransGen Step s t) :
    t.delivered <+: t.accepted ∧
    (∀ k (h : k < t.accepted.length), t.delivered.length ≤ k →
      t.pipe.data (k % PIPESIZE) = t.accepted[k]) ∧
    t.pipe.nread.toNat = t.delivered.length % 2 ^ 32 ∧
    t.pipe.nwrite.toNat = t.accepted.length % 2 ^ 32 ∧
    (t.pipe.nwrite - t.pipe.nread).toNat = t.accepted.length - t.delivered.length ∧
    (t.pipe.nwrite - t.pipe.nread).toNat ≤ PIPESIZE := by
  have held := start.ordered.reachable run
  have apart := Fifo.distance held (by decide)
  have room := Fifo.room held
  rw [Nat.add_comm, ← UInt32.toNat_sub] at apart
  refine ⟨Fifo.order held, Fifo.stored held, Fifo.read held, Fifo.write held, apart, ?_⟩
  rw [apart]
  omega

/-- A new pipe among processes whose memory holds the low byte of each address. -/
def unread : Sys := ⟨pipealloc, fun _ => ⟨UInt8.ofNat, false⟩, fun _ => .outside, [], []⟩

/-- A reader goes to sleep. -/
def readerAsleep : Sys := unread.run 1 (.piperead 40 2)

/-- Three bytes are written, which wakes it up. -/
def readerWoken : Sys := readerAsleep.run 0 (.pipewrite 5 3 0)

/-- It takes two of them. -/
def readerDone : Sys := readerWoken.run 1 (.piperead 40 2)

theorem readerDone_reached : Relation.ReflTransGen Step unread readerDone := by
  have asleep : Step unread readerAsleep := .piperead 1 40 2 rfl
  have woken : Step readerAsleep readerWoken := .pipewrite 0 5 3 rfl
  have done : Step readerWoken readerDone := .resume 1 (.piperead 40 2) rfl
  exact .tail (.tail (.single asleep) woken) done

theorem pipe_fifo_read : readerDone.accepted = [5, 6, 7] ∧ readerDone.delivered = [5, 6] ∧
    readerDone.delivered <+: readerDone.accepted ∧ readerDone.pipe.data 2 = 7 ∧
    (readerDone.pipe.nwrite - readerDone.pipe.nread).toNat = 1 := by
  have start : unread.Start := ⟨rfl, fun _ => rfl, rfl, rfl⟩
  have accepted : readerDone.accepted = [5, 6, 7] := by decide
  have delivered : readerDone.delivered = [5, 6] := by decide
  obtain ⟨order, stored, -, -, apart, -⟩ := pipe_fifo start readerDone_reached
  simp only [accepted, delivered] at order stored apart ⊢
  exact ⟨trivial, trivial, order, stored 2 (by decide) (by decide), apart⟩

end AvxKernel.Ipc
