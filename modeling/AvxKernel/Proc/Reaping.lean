import AvxKernel.Proc.Family

/-! Every process that has exited is reaped at most once, by its parent. -/
namespace AvxKernel.Proc

variable {init p q r : Nat} {s t : Sys}

attribute [local simp] Sys.goto Sys.put Sys.acquire Sys.release Sys.reap Sys.wakeParent
  Function.update_apply

attribute [local grind] Slot.sleep Slot.resume Slot.wakeup Slot.freeproc Sys.Runs

/-- The processes in the table have numbers of their own, which no process reaped has
had. -/
structure Sys.Record (s : Sys) : Prop where
  born_lt : ∀ q, 0 < (s.proc q).pid → s.born q < s.births
  apart : ∀ q r, 0 < (s.proc q).pid → 0 < (s.proc r).pid → s.born q = s.born r → q = r
  fresh : ∀ q, 0 < (s.proc q).pid → ∀ x ∈ s.reaped, x.born ≠ s.born q
  ended : ∀ q, (s.proc q).state = .zombie → s.born q ∈ s.exited
  past : ∀ x ∈ s.reaped, x.born < s.births ∧ x.born ∈ s.exited ∧ x.parent = some x.reaper
  once : (s.reaped.map Reaped.born).Nodup

namespace Sys.Record

variable (h : s.Record) (step : Step init s p t)
include h step

theorem step_born_lt (q : Nat) (pos : 0 < (t.proc q).pid) : t.born q < t.births := by
  have kept := h.born_lt q
  cases step <;> simp at pos ⊢ <;> grind

theorem step_apart (q r : Nat) (pos : 0 < (t.proc q).pid) (pos' : 0 < (t.proc r).pid)
    (eq : t.born q = t.born r) : q = r := by
  have kept := h.apart q r
  have below := h.born_lt q
  have below' := h.born_lt r
  cases step <;> simp at pos pos' eq <;> grind

theorem step_ended (q : Nat) (zombie : (t.proc q).state = .zombie) : t.born q ∈ t.exited := by
  have kept := h.ended q
  cases step <;> simp at zombie ⊢ <;> grind

variable (family : s.Family init)
include family

theorem step_fresh (q : Nat) (pos : 0 < (t.proc q).pid) (x : Reaped) (mem : x ∈ t.reaped) :
    x.born ≠ t.born q := by
  have kept := h.fresh q
  have past := h.past x
  have apart := h.apart q
  have pid := family.pid
  cases step <;> simp at pos mem ⊢ <;> grind

theorem step_past (x : Reaped) (mem : x ∈ t.reaped) :
    x.born < t.births ∧ x.born ∈ t.exited ∧ x.parent = some x.reaper := by
  have kept := h.past x
  have ended := h.ended
  have below := h.born_lt
  have pid := family.pid
  cases step <;> simp at mem ⊢ <;> grind

theorem step_once : (t.reaped.map Reaped.born).Nodup := by
  have kept := h.once
  have fresh := h.fresh
  have pid := family.pid
  cases step <;> simp <;> grind

protected theorem step : t.Record where
  born_lt := h.step_born_lt step
  apart := h.step_apart step
  fresh := h.step_fresh step family
  ended := h.step_ended step
  past := h.step_past step family
  once := h.step_once step family

end Sys.Record

theorem Sys.Start.record (h : s.Start init) : s.Record := by
  have first := h.first
  have others := h.others
  have exited := h.exited
  have reaped := h.reaped
  constructor <;> grind

theorem Reachable.record (run : Reachable init s t) (start : s.Start init) : t.Record := by
  induction run with
  | refl => exact start.record
  | tail before last record =>
    obtain ⟨p, step⟩ := last
    exact record.step step (Reachable.family before start)

/-- In every state that `fork`, `exit` and the waits reach, in any order: each process
but the first has a parent that is alive; pids are distinct; and no process is reaped
twice, or by another than its parent. -/
theorem process_tree (start : s.Start init) (run : Reachable init s t) :
    (∀ q, (t.proc q).state ≠ .unused → q ≠ init → ∃ r, (t.proc q).parent = some r ∧
      (t.proc r).state ≠ .unused ∧ (t.proc r).state ≠ .zombie) ∧
    (∀ q r, (t.proc q).parent = some r → (t.proc r).state ≠ .zombie) ∧
    (∀ q r, (t.proc q).state ≠ .unused → (t.proc r).state ≠ .unused →
      (t.proc q).pid = (t.proc r).pid → q = r) ∧
    (t.reaped.map Reaped.born).Nodup ∧
    ∀ x ∈ t.reaped, x.born ∈ t.exited ∧ x.parent = some x.reaper := by
  have family := run.family start
  have record := run.record start
  refine ⟨fun q used other => ?_, fun q r parent => (family.parent q r parent).2.1.2,
    fun q r used _ same => family.pid_inj q r (family.pid q used) same, record.once,
    fun x mem => (record.past x mem).2⟩
  obtain ⟨r, parent⟩ := Option.ne_none_iff_exists'.1 (family.child q used other)
  exact ⟨r, parent, (family.parent q r parent).2.1⟩

theorem process_tree_generations :
    ∃ r, (Sys.generations.proc 2).parent = some r ∧ (Sys.generations.proc r).state ≠ .unused ∧
      (Sys.generations.proc r).state ≠ .zombie :=
  (process_tree Sys.first_start Sys.generations_reachable).1 2 nofun (by decide)

end AvxKernel.Proc
