import AvxKernel.Lib.Assembly

/-! `kernelvec.S` and `uservec.S`: what comes upon a trap saves the registers in a frame, and
takes them from it afterwards. The branches at the end of a sequence, `bl`, `jirl` and
`ertn`, are left to what calls it. -/
namespace AvxKernel.Trap

open Assembly

/-- The general registers but `$zero`. -/
inductive Reg where
  | ra | tp | sp
  | a0 | a1 | a2 | a3 | a4 | a5 | a6 | a7
  | t0 | t1 | t2 | t3 | t4 | t5 | t6 | t7 | t8
  | r21 | fp
  | s0 | s1 | s2 | s3 | s4 | s5 | s6 | s7 | s8
deriving DecidableEq

inductive Csr where
  | crmd | prmd | ecfg | estat | era | badv | badi
  | pgdl
  | save0
deriving DecidableEq

abbrev Cpu := State Reg Csr
abbrev Code := List (Instr Reg Csr)

variable {mmu : Mmu Csr} {s : Cpu} {a n : Nat}

/-- The places of `a1` and of those after it, in both frames. -/
def others : List (Reg × Nat) :=
  [(.a1, 32), (.a2, 40), (.a3, 48), (.a4, 56), (.a5, 64), (.a6, 72), (.a7, 80),
    (.t0, 88), (.t1, 96), (.t2, 104), (.t3, 112), (.t4, 120), (.t5, 128), (.t6, 136), (.t7, 144), (.t8, 152),
    (.r21, 160), (.fp, 168),
    (.s0, 176), (.s1, 184), (.s2, 192), (.s3, 200), (.s4, 208), (.s5, 216), (.s6, 224), (.s7, 232), (.s8, 240)]

/-! ### `kernelvec` -/

/-- The frame on the kernel stack. -/
def frame : List (Reg × Nat) := (.ra, 0) :: (.tp, 8) :: (.sp, 16) :: (.a0, 24) :: others

/-- What is taken from it: not `tp`, in case the processor is another one. -/
def loaded : List (Reg × Nat) := (.ra, 0) :: (.sp, 16) :: (.a0, 24) :: others

theorem frame_laidOut : LaidOut 256 frame := by decide

theorem loaded_laidOut : LaidOut 256 loaded := by decide

theorem mem_loaded (r : Reg) : r ∈ loaded.map Prod.fst ↔ r ≠ .tp := by
  cases r
  case tp => decide
  all_goals exact ⟨fun _ => Reg.noConfusion, fun _ => by decide⟩

theorem loaded_subset : loaded ⊆ frame := by
  intro slot member
  rcases List.mem_cons.mp member with rfl | rest
  · exact List.mem_cons_self
  · exact List.mem_cons_of_mem _ (List.mem_cons_of_mem _ rest)

/-- Up to `bl kerneltrap`. -/
def kernelvec : Code := .addi_d .sp .sp (-256) :: save .sp frame

/-- From there to `ertn`. -/
def kernelvecRet : Code := restore .sp loaded ++ [.addi_d .sp .sp 256]

/-- What a C function that returns has kept: the stack pointer, and the frame of 256 bytes
of its caller, at `a`, which is still mapped. -/
structure Keeps (mmu : Mmu Csr) (a : Nat) (s t : Cpu) : Prop where
  sp : t.reg .sp = s.reg .sp
  frame : ∀ x, a ≤ x → x < a + 256 → t.mem x = s.mem x
  mapped : Mapped mmu t.csr (t.reg .sp) a 256

/-- Addresses are used as they are. -/
def direct : Mmu Csr := fun _ va => some va.toNat

theorem direct_mapped (csr : Csr → BitVec 64) {va : BitVec 64} (room : va.toNat + n < 2 ^ 64) :
    Mapped direct csr va va.toNat n := by
  intro si inside
  have small : si < 2 ^ 64 := by omega
  refine congrArg some ?_
  rw [BitVec.toNat_add, BitVec.toNat_ofNat, Nat.mod_eq_of_lt small, Nat.mod_eq_of_lt (by omega)]

/-- Its stack goes down from 4096, and its trapframe is at 8192. -/
def interrupted : Cpu where
  reg
    | .sp => 4096
    | .ra => 1
    | .a0 => 2
    | .s0 => 3
    | _ => 4
  csr
    | .save0 => 8192
    | _ => 0
  mem _ := 0

/-- A handler that clears `s0`, stores behind the frame, and comes back on another processor. -/
def disturb (u : Cpu) : Cpu :=
  { ((u.setReg .s0 0).setReg .tp 7) with mem := u.mem.store 4096 8 5 }

/-- The places in the trapframe of all registers but `a0`, which stays the address of it. -/
def trapframe : List (Reg × Nat) := (.ra, 0) :: (.tp, 8) :: (.sp, 16) :: others

theorem trapframe_laidOut : LaidOut 288 trapframe := by decide

theorem mem_trapframe (r : Reg) : r ∈ trapframe.map Prod.fst ↔ r ≠ .a0 := by
  cases r
  case a0 => decide
  all_goals exact ⟨fun _ => Reg.noConfusion, fun _ => by decide⟩

theorem apart (slot : Reg × Nat) (member : slot ∈ trapframe) : 24 + 8 ≤ slot.2 ∨ slot.2 + 8 ≤ 24 := by
  revert slot
  decide

/-- The words of the kernel come after the registers. -/
theorem ends (slot : Reg × Nat) (member : slot ∈ trapframe) : slot.2 + 8 ≤ 248 := by
  revert slot
  decide

/-- The end of `uservec`: the user's `a0` is saved too, and the kernel's `sp`, `tp`, page
table and the address of `usertrap` are loaded. -/
def uservecEnd : Code :=
  [.csrrd .t0 .save0, .st_d .t0 .a0 24,
    .ld_d .sp .a0 248, .ld_d .tp .a0 272, .ld_d .t0 .a0 256, .ld_d .t1 .a0 280,
    .csrwr .t1 .pgdl,
    .csrrd .t3 .crmd, .csrrd .t3 .prmd, .csrrd .t3 .ecfg, .csrrd .t3 .estat, .csrrd .t3 .era,
    .csrrd .t3 .badv, .csrrd .t3 .badi]

/-- Up to `jirl`, which goes on at `t0`. -/
def uservec : Code := .csrwr .a0 .save0 :: save .a0 trapframe ++ uservecEnd

/-- Up to `ertn`. -/
def userret : Code :=
  [.csrwr .a1 .pgdl, .invtlb, .ld_d .t0 .a0 24, .csrwr .t0 .save0] ++ restore .a0 trapframe ++
    [.csrwr .a0 .save0]

/-- The trapframe at `a` holds all registers. -/
def Saved (m : Memory) (a : Nat) (v : Reg → BitVec 64) : Prop := Holds m a ((.a0, 24) :: trapframe) v

/-- A field of the trapframe that is a word of the kernel's. -/
def field (m : Memory) (a x : Nat) : BitVec 64 := BitVec.ofNat 64 (m.fetch (a + x) 8)

theorem uservecEnd_loads (mapped : Mapped mmu s.csr (s.reg .a0) a 288) :
    ∃ t, run mmu uservecEnd s = some t ∧ t.mem = s.mem.store (a + 24) 8 (s.csr .save0).toNat ∧
      t.csr .pgdl = field s.mem a 280 ∧ t.reg .sp = field s.mem a 248 ∧ t.reg .tp = field s.mem a 272 ∧
      t.reg .t0 = field s.mem a 256 ∧ t.reg .a0 = s.reg .a0 := by
  let s₁ : Cpu := s.setReg .t0 (s.csr .save0)
  have mapped₁ : Mapped mmu s₁.csr (s₁.reg .a0) a 288 := mapped.setReg (by decide) _
  let m := s.mem.store (a + 24) 8 (s₁.reg .t0).toNat
  let s₂ : Cpu := { s₁ with mem := m }
  have mapped₂ : Mapped mmu s₂.csr (s₂.reg .a0) a 288 := mapped₁
  let s₃ := s₂.setReg .sp (field m a 248)
  have mapped₃ : Mapped mmu s₃.csr (s₃.reg .a0) a 288 := mapped₂.setReg (by decide) _
  let s₄ := s₃.setReg .tp (field m a 272)
  have mapped₄ : Mapped mmu s₄.csr (s₄.reg .a0) a 288 := mapped₃.setReg (by decide) _
  let s₅ := s₄.setReg .t0 (field m a 256)
  have mapped₅ : Mapped mmu s₅.csr (s₅.reg .a0) a 288 := mapped₄.setReg (by decide) _
  have same : ∀ x, 32 ≤ x → field m a x = field s.mem a x := fun x after =>
    congrArg (BitVec.ofNat 64) (s.mem.fetch_store_other (by omega))
  have loads : run mmu uservecEnd s = run mmu [.csrwr .t1 .pgdl, .csrrd .t3 .crmd, .csrrd .t3 .prmd,
      .csrrd .t3 .ecfg, .csrrd .t3 .estat, .csrrd .t3 .era, .csrrd .t3 .badv, .csrrd .t3 .badi]
      (s₅.setReg .t1 (field m a 280)) := by
    unfold uservecEnd
    rw [run_cons, show Instr.exec mmu s (.csrrd .t0 .save0) = some s₁ from rfl, Option.bind_some]
    refine (run_st_d mapped₁ (by decide) .t0).trans ?_
    refine (run_ld_d mapped₂ (by decide) .sp).trans ?_
    refine (run_ld_d mapped₃ (by decide) .tp).trans ?_
    refine (run_ld_d mapped₄ (by decide) .t0).trans ?_
    exact run_ld_d mapped₅ (by decide) .t1
  refine ⟨_, loads.trans rfl, rfl, ?_, ?_, ?_, ?_, rfl⟩
  · exact same 280 (by decide)
  · exact same 248 (by decide)
  · exact same 272 (by decide)
  · exact same 256 (by decide)

/-- `uservec` saves the registers of the user, and goes on to what the trapframe says of the
kernel. `CSR.SAVE0` plays no part in the translation of addresses. -/
theorem uservec_saves (plain : ∀ csr v, mmu (Function.update csr .save0 v) = mmu csr)
    (mapped : Mapped mmu s.csr (s.csr .save0) a 288) :
    ∃ t, run mmu uservec s = some t ∧ Saved t.mem a s.reg ∧ t.csr .pgdl = field s.mem a 280 ∧
      t.reg .sp = field s.mem a 248 ∧ t.reg .tp = field s.mem a 272 ∧ t.reg .t0 = field s.mem a 256 ∧
      t.reg .a0 = s.csr .save0 ∧ ∀ x, x < a ∨ a + 248 ≤ x → t.mem x = s.mem x := by
  let s₁ : Cpu := (s.setReg .a0 (s.csr .save0)).setCsr .save0 (s.reg .a0)
  have base : s₁.reg .a0 = s.csr .save0 := s.setReg_self .a0 _
  have mapped₁ : Mapped mmu s₁.csr (s₁.reg .a0) a 288 := by
    intro si inside
    rw [base]
    exact (congrFun (plain s.csr (s.reg .a0)) _).trans (mapped si inside)
  let m := stored s₁.reg a trapframe s.mem
  have saves : run mmu (.csrwr .a0 .save0 :: save .a0 trapframe) s = some { s₁ with mem := m } := by
    have swapped : Instr.exec mmu s (.csrwr .a0 .save0) = some s₁ := rfl
    rw [run_cons, swapped, Option.bind_some]
    exact run_save mapped₁ trapframe_laidOut
  obtain ⟨t, loads, mem, pgdl, sp, tp, t0, a0⟩ := uservecEnd_loads (s := { s₁ with mem := m }) mapped₁
  have fields : ∀ x, 248 ≤ x → field m a x = field s.mem a x := fun x after =>
    congrArg (BitVec.ofNat 64) (fetch_stored_field fun slot member => .inr ((ends slot member).trans after))
  have user : Saved t.mem a s.reg := by
    rw [mem]
    have others : Holds m a trapframe s.reg := (stored_holds trapframe_laidOut).agree fun slot member =>
      (s.setReg_of_ne _ ((mem_trapframe slot.1).mp (List.mem_map_of_mem member))).symm
    refine List.forall_mem_cons.mpr ⟨m.fetch_store_same (s.reg .a0).isLt, ?_⟩
    exact others.store_field _ fun slot member => apart slot member
  refine ⟨t, (run_append_of saves).trans loads, user, pgdl.trans (fields 280 (by decide)),
    sp.trans (fields 248 (by decide)), tp.trans (fields 272 (by decide)), t0.trans (fields 256 (by decide)),
    a0.trans base, fun x out => ?_⟩
  have away : m x = s.mem x := by
    refine stored_outside fun slot member => ?_
    have small := ends slot member
    omega
  rw [mem, ← away]
  exact m.store_outside (by omega)

/-- `userret` brings the registers of the user back, in the page table in `a1`. -/
theorem userret_restores (plain : ∀ csr v, mmu (Function.update csr .save0 v) = mmu csr)
    {v : Reg → BitVec 64} (saved : Saved s.mem a v)
    (mapped : Mapped mmu (Function.update s.csr .pgdl (s.reg .a1)) (s.reg .a0) a 288) :
    ∃ t, run mmu userret s = some t ∧ t.reg = v ∧ t.csr .save0 = s.reg .a0 ∧ t.csr .pgdl = s.reg .a1 ∧
      t.mem = s.mem := by
  have a0 : field s.mem a 24 = v .a0 := by
    have value := saved (.a0, 24) List.mem_cons_self
    unfold field
    rw [value, BitVec.ofNat_toNat, BitVec.setWidth_eq]
  let s₁ : Cpu := (s.setReg .a1 (s.csr .pgdl)).setCsr .pgdl (s.reg .a1)
  have mapped₁ : Mapped mmu s₁.csr (s₁.reg .a0) a 288 := mapped
  let s₂ := s₁.setReg .t0 (field s.mem a 24)
  let s₃ := (s₂.setReg .t0 (s₂.csr .save0)).setCsr .save0 (s₂.reg .t0)
  have enters : run mmu [.csrwr .a1 .pgdl, .invtlb, .ld_d .t0 .a0 24, .csrwr .t0 .save0] s = some s₃ := by
    have first : Instr.exec mmu s (.csrwr .a1 .pgdl) = some s₁ := rfl
    rw [run_cons, first, Option.bind_some, run_cons]
    exact (run_ld_d mapped₁ (by decide) .t0).trans rfl
  have mapped₃ : Mapped mmu s₃.csr (s₃.reg .a0) a 288 := fun si inside =>
    (congrFun (plain s₁.csr (s₂.reg .t0)) _).trans (mapped si inside)
  have takes := run_restore mapped₃ trapframe_laidOut (saved.tail) fun member =>
    absurd rfl ((mem_trapframe .a0).mp member)
  let s₄ : Cpu := { s₃ with reg := fun r => if r ∈ trapframe.map Prod.fst then v r else s₃.reg r }
  let t := (s₄.setReg .a0 (s₄.csr .save0)).setCsr .save0 (s₄.reg .a0)
  have leaves : run mmu [.csrwr .a0 .save0] s₄ = some t := rfl
  refine ⟨t, ?_, ?_, ?_, rfl, rfl⟩
  · unfold userret
    rw [List.append_assoc, run_append_of enters, run_append_of takes, leaves]
  · funext r
    by_cases own : r = .a0
    · subst own
      have last : t.reg .a0 = field s.mem a 24 := s₄.setReg_self .a0 _
      exact last.trans a0
    · have last : t.reg r = s₄.reg r := s₄.setReg_of_ne _ own
      exact last.trans (if_pos ((mem_trapframe r).mpr own))
  · change (if Reg.a0 ∈ trapframe.map Prod.fst then v .a0 else s.reg .a0) = s.reg .a0
    exact if_neg fun member => (mem_trapframe .a0).mp member rfl

/-- A system call changes `a0` and no other register of the user: it is so if the kernel
leaves the saved registers as they are but for `a0`, and calls `userret` with the address
of the trapframe and with a page table that maps it there. -/
theorem user_resumes (plain : ∀ csr v, mmu (Function.update csr .save0 v) = mmu csr)
    (mapped : Mapped mmu s.csr (s.csr .save0) a 288) {u v : Cpu} (value : BitVec 64)
    (entered : run mmu uservec s = some u) (a0 : v.reg .a0 = s.csr .save0)
    (again : Mapped mmu (Function.update v.csr .pgdl (v.reg .a1)) (v.reg .a0) a 288)
    (kept : ∀ x, a ≤ x → x < a + 248 → v.mem x = (u.mem.store (a + 24) 8 value.toNat) x) :
    ∃ t, run mmu userret v = some t ∧ t.reg = Function.update s.reg .a0 value ∧
      t.csr .save0 = s.csr .save0 ∧ t.csr .pgdl = v.reg .a1 ∧ t.mem = v.mem := by
  obtain ⟨u', entered', saved, -⟩ := uservec_saves plain mapped
  cases entered.symm.trans entered'
  have laid : LaidOut 248 ((.a0, 24) :: trapframe) := by decide
  have answer : Saved v.mem a (Function.update s.reg .a0 value) := by
    refine Holds.congr (m := u.mem.store (a + 24) 8 value.toNat) ?_ laid kept
    refine saved.store_slot value fun slot member => ?_
    rcases List.mem_cons.mp member with rfl | later
    · exact .inl rfl
    · exact .inr ⟨(mem_trapframe slot.1).mp (List.mem_map_of_mem later), apart slot later⟩
  obtain ⟨t, ran, reg, save0, pgdl, mem⟩ := userret_restores plain answer again
  exact ⟨t, ran, reg, save0.trans a0, pgdl, mem⟩

/-- The kernel has answered 9, and calls `userret` with the trapframe and a page table. -/
def answered (u : Cpu) : Cpu :=
  { ((u.setReg .a0 8192).setReg .a1 6) with mem := u.mem.store 8216 8 9 }

theorem user_resumes_answered :
    ∃ u t, run direct uservec interrupted = some u ∧ run direct userret (answered u) = some t ∧
      t.reg = Function.update interrupted.reg .a0 9 ∧ t.csr .pgdl = 6 := by
  have mapped : Mapped direct interrupted.csr (interrupted.csr .save0) 8192 288 :=
    direct_mapped _ (by decide)
  obtain ⟨u, entered, -⟩ := uservec_saves (fun _ _ => rfl) mapped
  obtain ⟨t, ran, reg, -, pgdl, -⟩ := user_resumes (v := answered u) (fun _ _ => rfl) mapped 9 entered
    rfl mapped fun _ _ _ => rfl
  exact ⟨u, t, entered, ran, reg, pgdl⟩

end AvxKernel.Trap
