import AvxKernel.Sched.Cpu
import AvxKernel.Trap.Vectors

/-! `swtch.S`: what the instructions do to the registers in the contexts is what a switch of
the scheduler does to the code that is left there. -/
namespace AvxKernel.Trap

open Assembly
open Sched (K Sys Context)

/-- `struct context` -/
def context : List (Reg × Nat) :=
  [(.ra, 0), (.sp, 8), (.s0, 16), (.s1, 24), (.s2, 32), (.s3, 40), (.s4, 48), (.s5, 56), (.s6, 64),
    (.s7, 72), (.s8, 80), (.fp, 88)]

/-- `swtch(old, new)`, up to the return. -/
def swtch : Code := save .a0 context ++ restore .a1 context

theorem context_laidOut : LaidOut 96 context := by decide

variable {mmu : Mmu Csr} {s : Cpu} {a b : Nat} {v : Reg → BitVec 64}

/-- The registers go to the old context, and come from the new one, which is another. -/
theorem swtch_run (old : Mapped mmu s.csr (s.reg .a0) a 96) (new : Mapped mmu s.csr (s.reg .a1) b 96)
    (apart : a + 96 ≤ b ∨ b + 96 ≤ a) (holds : Holds s.mem b context v) :
    run mmu swtch s = some { s with
      reg := fun r => if r ∈ context.map Prod.fst then v r else s.reg r
      mem := stored s.reg a context s.mem } := by
  have there : Holds (stored s.reg a context s.mem) b context v := by
    refine holds.congr context_laidOut fun x above below => ?_
    exact stored_away context_laidOut (by omega)
  have saves : run mmu (save .a0 context) s = some { s with mem := stored s.reg a context s.mem } :=
    run_save old context_laidOut
  have base : Reg.a1 ∈ context.map Prod.fst → v .a1 = s.reg .a1 := fun member =>
    absurd member (by decide)
  unfold swtch
  rw [run_append_of saves]
  exact run_restore (s := { s with mem := stored s.reg a context s.mem }) new context_laidOut there base

/-- Where the contexts are, of which some are in use. -/
structure Places where
  place : Context → Nat
  used : Context → Prop
  apart : ∀ k k', used k → used k' → k ≠ k' → place k + 96 ≤ place k' ∨ place k' + 96 ≤ place k

variable (places : Places)

/-- Each context in use holds registers. -/
def Stores (m : Memory) (regs : Context → Reg → BitVec 64) : Prop :=
  ∀ k, places.used k → Holds m (places.place k) context (regs k)

theorem swtch_stores {regs : Context → Reg → BitVec 64} {old new : Context} (stores : Stores places s.mem regs)
    (left : places.used old) (entered : places.used new) (other : old ≠ new)
    (mappedOld : Mapped mmu s.csr (s.reg .a0) (places.place old) 96)
    (mappedNew : Mapped mmu s.csr (s.reg .a1) (places.place new) 96) :
    ∃ t, run mmu swtch s = some t ∧ Stores places t.mem (Function.update regs old s.reg) ∧
      (∀ slot ∈ context, t.reg slot.1 = regs new slot.1) ∧ t.csr = s.csr := by
  have ran := swtch_run mappedOld mappedNew (places.apart old new left entered other) (stores new entered)
  refine ⟨_, ran, fun k used => ?_, fun slot member => ?_, rfl⟩
  · by_cases same : k = old
    · subst same
      rw [Function.update_self]
      exact stored_holds context_laidOut
    · rw [Function.update_of_ne same]
      have clear := places.apart k old used left same
      exact (stores k used).congr context_laidOut fun x above below => stored_away context_laidOut (by omega)
  · exact if_pos (List.mem_map_of_mem member)

/-- The code in a context is what its registers mean, as far as they are saved. -/
structure Means where
  code : (Reg → BitVec 64) → K Unit
  saved : ∀ v w, (∀ slot ∈ context, v slot.1 = w slot.1) → code v = code w

/-- The contexts of the machine are those in memory. -/
def Represents (means : Means) (m : Memory) (sys : Sys) : Prop :=
  ∃ regs, Stores places m regs ∧ ∀ k, places.used k → sys.context k = means.code (regs k)

/-- The instructions do what a switch does: the code that is left is in the old context, and
the processor goes on with that of the new one. -/
theorem swtch_refines (means : Means) {sys : Sys} {old new : Context} {rest : K Unit} (c : Nat)
    (represents : Represents places means s.mem sys) (here : rest = means.code s.reg)
    (left : places.used old) (entered : places.used new) (other : old ≠ new)
    (mappedOld : Mapped mmu s.csr (s.reg .a0) (places.place old) 96)
    (mappedNew : Mapped mmu s.csr (s.reg .a1) (places.place new) 96) :
    ∃ t, run mmu swtch s = some t ∧ Represents places means t.mem (sys.swtch c old new rest) ∧
      ((sys.swtch c old new rest).cpu c).code = means.code t.reg := by
  obtain ⟨regs, stores, is⟩ := represents
  obtain ⟨t, ran, after, loaded, -⟩ := swtch_stores places stores left entered other mappedOld mappedNew
  refine ⟨t, ran, ⟨Function.update regs old s.reg, after, fun k used => ?_⟩, ?_⟩
  · by_cases same : k = old
    · subst same
      rw [Function.update_self, ← here]
      exact Function.update_self ..
    · rw [Function.update_of_ne same, ← is k used]
      exact Function.update_of_ne same ..
  · have code : ((sys.swtch c old new rest).cpu c).code = sys.context new := by
      change (Function.update sys.cpu c { sys.cpu c with code := sys.context new } c).code = _
      rw [Function.update_self]
    rw [code, is new entered]
    exact means.saved _ _ fun slot member => (loaded slot member).symm

/-- The contexts of one processor and one process are in use. -/
def pair : Places where
  place
    | .cpu _ => 0
    | .proc _ => 4096
  used k := k = .cpu 0 ∨ k = .proc 0
  apart := by
    rintro k k' (rfl | rfl) (rfl | rfl) other
    · exact absurd rfl other
    · exact .inl (by decide)
    · exact .inr (by decide)
    · exact absurd rfl other

def enable : K Unit := Code.perform (.intr_on : Sched.Op)

/-- The address that is returned to says it all. -/
def byReturn : Means where
  code v := if v .ra = 0 then enable else Code.ret ()
  saved v w same := by rw [same (.ra, 0) List.mem_cons_self]

/-- `swtch` has been called with the two contexts, which hold zeros. -/
def calling : Cpu where
  reg
    | .ra => 1
    | .a1 => 4096
    | _ => 0
  csr _ := 0
  mem _ := 0

/-- The processor schedules, and both contexts go on with interrupts on. -/
def scheduling : Sys where
  cpu _ := ⟨.kernel, false, false, ⟨.kernel, false⟩, .kernelvec, none, 0, false, Code.ret ()⟩
  lock _ := ⟨false, none⟩
  proc _ := ⟨.runnable, none, false, none⟩
  context _ := enable
  mem _ := 0
  inside _ := []

theorem swtch_refines_pair :
    ∃ t, run direct swtch calling = some t ∧
      Represents pair byReturn t.mem (scheduling.swtch 0 (.cpu 0) (.proc 0) (Code.ret ())) ∧
      byReturn.code t.reg = enable := by
  have zeros : Stores pair calling.mem fun _ _ => 0 := fun _ _ _ _ => Memory.fetch_zero fun _ _ => rfl
  have here : Represents pair byReturn calling.mem scheduling := ⟨_, zeros, fun _ _ => rfl⟩
  have left : pair.used (.cpu 0) := .inl rfl
  have entered : pair.used (.proc 0) := .inr rfl
  obtain ⟨t, ran, represents, code⟩ := swtch_refines pair byReturn 0 here
    (rfl : Code.ret () = byReturn.code calling.reg) left entered Context.noConfusion
    (direct_mapped calling.csr (by decide)) (direct_mapped calling.csr (by decide))
  exact ⟨t, ran, represents, code.symm⟩

end AvxKernel.Trap
