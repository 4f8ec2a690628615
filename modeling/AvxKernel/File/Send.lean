import AvxKernel.File.Readv

/-! `file_send` between two files, in pieces of at most 512 bytes. -/
namespace AvxKernel.File

open Fat (Geometry Disk Dirent Contents Intact SameFile Takes Leaves portion)
open Ipc (User)
open Vm (MAXVA)

/-- Two open files on entries of a volume, and the memory of the process that calls. -/
structure Transfer where
  disk : Disk
  src : Dirent
  dst : Dirent
  inOff : Nat
  outOff : Nat
  pr : User

variable (fat : Geometry)

/-- `fileinput` to a buffer of the kernel: the result, and what is in the buffer. -/
def fileinput (n off : Nat) : Machine Transfer (Nat × List UInt8) := do
  let s ← get
  let ((r, bytes, src), disk) ← Machine.lift (Fat.eread fat s.src (u32 off) (u32 n) s.disk)
  set { s with disk, src }
  return (uint64 r, bytes)

/-- `fileoutput` of what is in the buffer. -/
def fileoutput (buf : List UInt8) (n off : Nat) : Machine Transfer Nat := do
  let s ← get
  let ((r, dst), disk) ← Machine.lift (Fat.ewrite fat s.dst (.ofBytes buf) (u32 off) (u32 n) s.disk)
  set { s with disk, dst }
  return uint64 r

/-- One piece is written, and `fout->off` moves by what comes back. -/
def sendPiece (buf : List UInt8) (rlen : Nat) : Machine Transfer Nat := do
  let s ← get
  let wlen ← fileoutput fat buf rlen s.outOff
  modify fun s => { s with outOff := u32 (s.outOff + wlen) }
  return wlen

/-- The loop: `off` and `ret` behind it. -/
def sendFrom : Nat → Nat → Nat → Nat → Machine Transfer (Nat × Nat)
  | 0, _, _, _ => Machine.halt .diverge
  | limit + 1, n, off, ret =>
    if n = 0 then
      return (off, ret)
    else do
      let (rlen, buf) ← fileinput fat (if 512 < n then 512 else n) off
      let off := u64 (off + rlen)
      let n := addInt n (-rlen)
      if rlen = 0 then
        return (off, ret)
      else
        let wlen ← sendPiece fat buf rlen
        sendFrom limit n off (u64 (ret + wlen))

/-- The variable of the process. -/
def userOffset (pr : User) (addr : Nat) : Nat := (userArray pr addr).fetch 0 8

/-- `either_copyin(&off, 1, addr, sizeof(uint64))` -/
def copyinOffset (pr : User) (addr : Nat) : Except Halt (Option Nat) :=
  if WildIn addr then
    .error (.panic "copyin: srcva > MAXVA & srcva is not in 0x9000(x)")
  else if lead pr (buffer addr) 8 = 8 then
    .ok (some (userOffset pr addr))
  else
    .ok none

/-- `either_copyout(1, addr, &off, sizeof(uint64))` -/
def copyoutOffset (pr : User) (addr off : Nat) : Except Halt (Bool × User) :=
  if MAXVA < addr then
    .error (.panic "copyout: dstva > MAXVA")
  else
    let k := lead pr (buffer addr) 8
    .ok (k == 8, storeAt pr (buffer addr) ((bytesOf off 8).take k))

def file_send (addr n : Nat) : Machine Transfer Nat :=
  if addr ≠ 0 then do
    let s ← get
    match ← Machine.lift (copyinOffset s.pr addr) with
    | none => return 2 ^ 64 - 1
    | some off =>
      let (off, ret) ← sendFrom fat (n + 1) n off 0
      let s ← get
      let (stored, pr) ← Machine.lift (copyoutOffset s.pr addr off)
      set { s with pr }
      return if stored then ret else 2 ^ 64 - 1
  else do
    let s ← get
    let (off, ret) ← sendFrom fat (n + 1) n s.inOff 0
    modify fun s => { s with inOff := u32 off }
    return ret

variable {fat} {s t u : Transfer} {cs : List Nat} {data bytes : List UInt8} {limit n off o ret addr r : Nat}

/-! ### What the call is for -/

/-- The offset in the source: that of the file, or the variable of the process. -/
def Transfer.offset (s : Transfer) (addr : Nat) : Nat := if addr = 0 then s.inOff else userOffset s.pr addr

/-- The offset can be read. -/
def Transfer.Given (s : Transfer) (addr : Nat) : Prop := addr ≠ 0 → There s.pr (buffer addr) 8

variable (fat) in
/-- The bytes written at `fout->off` at once. -/
def append (bytes : List UInt8) : Machine Transfer Unit :=
  if bytes = [] then return () else do
    let _ ← sendPiece fat bytes bytes.length

variable (fat data n addr) in
/-- So many bytes of the source are written at `fout->off`, and both offsets move by them. -/
structure Moved (r : Nat) (s t : Transfer) : Prop where
  few : r ≤ n
  length : ((data.drop (s.offset addr)).take r).length = r
  taken : 0 < r → Takes s.dst s.outOff r
  appended : ∃ u, append fat ((data.drop (s.offset addr)).take r) s = .ok ((), u) ∧ t.disk = u.disk ∧ t.dst = u.dst
  outOff : t.outOff = s.outOff + r
  offset : t.offset addr = s.offset addr + r
  source : SameFile s.src t.src

variable (fat data n addr) in
/-- What is to hold of the call: an offset that cannot be read is an error. -/
def Transfers (s : Transfer) (out : Except Halt (Nat × Transfer)) : Prop :=
  (s.Given addr → ∃ r t, out = .ok (r, t) ∧ Moved fat data n addr r s t) ∧
  (¬s.Given addr → out = .ok (2 ^ 64 - 1, s))

/-- What the reads of the loop give, from an offset that is a `uint`. -/
def sent (data : List UInt8) : Nat → Nat → Nat → List UInt8
  | 0, _, _ => []
  | limit + 1, n, o =>
    let piece := portion data o (min n 512)
    if piece = [] then [] else piece ++ sent data limit (n - piece.length) (o + piece.length)

/-! ### The pieces -/

theorem portion_some (some : portion data o n ≠ []) : o + n < 2 ^ 32 := by
  by_contra big
  exact some (if_neg big)

theorem sent_nil (none : portion data o (min n 512) = []) : sent data limit n o = [] := by
  cases limit with
  | zero => rfl
  | succ limit => exact if_pos none

theorem sent_cons (some : portion data o (min n 512) ≠ []) : sent data (limit + 1) n o =
    portion data o (min n 512) ++ sent data limit (n - (portion data o (min n 512)).length)
      (o + (portion data o (min n 512)).length) := if_neg some

theorem piece_length (some : portion data o (min n 512) ≠ []) :
    0 < (portion data o (min n 512)).length ∧ (portion data o (min n 512)).length ≤ min n 512 ∧
      o + (portion data o (min n 512)).length ≤ data.length := by
  have pos := List.length_pos_iff.mpr some
  rw [portion_length (portion_some some)] at pos ⊢
  omega

/-- The pieces are bytes of the source, one behind the other. -/
theorem sent_eq (data : List UInt8) (limit n o : Nat) :
    sent data limit n o = (data.drop o).take (sent data limit n o).length ∧ (sent data limit n o).length ≤ n ∧
      (sent data limit n o = [] ∨ o + (sent data limit n o).length ≤ data.length) := by
  induction limit generalizing n o with
  | zero => exact ⟨(List.take_zero ..).symm, Nat.zero_le _, .inl rfl⟩
  | succ limit ih =>
    by_cases none : portion data o (min n 512) = []
    · rw [sent_nil none]
      exact ⟨(List.take_zero ..).symm, Nat.zero_le _, .inl rfl⟩
    · obtain ⟨-, le, inside⟩ := piece_length none
      have first : portion data o (min n 512) = _ := portion_eq data (portion_some none)
      obtain ⟨rest, few, within⟩ := ih (n - (portion data o (min n 512)).length)
        (o + (portion data o (min n 512)).length)
      have whole : portion data o (min n 512) = (data.drop o).take (portion data o (min n 512)).length := by
        conv_lhs => rw [first]
        rw [List.take_eq_take_iff, List.length_drop, portion_length (portion_some none)]
        omega
      rw [sent_cons none, List.length_append]
      refine ⟨?_, by omega, .inr ?_⟩
      · rw [List.take_add, List.drop_drop, ← whole, ← rest]
      · rcases within with empty | within
        · rw [empty, List.length_nil]
          exact inside
        · omega

end AvxKernel.File
