import Mathlib.Algebra.Order.Ring.Nat

/-! The kernel's compile-time constants, under their source names: `param.h`,
`buf.h` and the page geometry of `loongarch.h`. -/
namespace AvxKernel

def NPROC : Nat := 50
def MAXARG : Nat := 32
def NOFILE : Nat := 128
def MAXOPBLOCKS : Nat := 1000
def NBUF : Nat := MAXOPBLOCKS * 3

def BSIZE : Nat := 512

def PGSIZE : Nat := 4096

/-- Truncation to the source's `uint32`. -/
def u32 (n : Nat) : Nat := n % 2 ^ 32

/-- Truncation to the source's `uint64`. -/
def u64 (n : Nat) : Nat := n % 2 ^ 64

/-- A `uint64` cut to an `int` and widened again, sign and all. -/
def s32 (n : Nat) : Nat :=
  if u32 n < 2 ^ 31 then u32 n else u32 n + (2 ^ 64 - 2 ^ 32)

/-- An `int` made of the low 32 bits. -/
def lowInt (n : Nat) : Int := if u32 n < 2 ^ 31 then u32 n else (u32 n : Int) - 2 ^ 32

end AvxKernel
