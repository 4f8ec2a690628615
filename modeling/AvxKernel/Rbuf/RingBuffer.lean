import AvxKernel.Params
import AvxKernel.Lib.Bytes
import AvxKernel.Lib.Machine

/-! `ring_buffer.c`: a ring of bytes, with a signed head and a signed tail and an
unsigned size. `ring_buffer_lock` is held throughout a call, so that a call is one
step. Copies from and to the caller's memory do not fail. -/
namespace AvxKernel.Rbuf

def RING_BUFFER_SIZE : Nat := 4095

/-- `struct ring_buffer`; `RING_BUFFER_SIZE + 1` bytes are those of `buf`. -/
structure RingBuffer where
  size : UInt32
  head : Int32
  tail : Int32
  buf : Memory

/-- `memset` clears `RING_BUFFER_SIZE` bytes of the structure. The other fields are
twelve of them, so that it stops before the end of `buf`. -/
def init_ring_buffer (rbuf : RingBuffer) : RingBuffer where
  size := UInt32.ofNat RING_BUFFER_SIZE
  head := 0
  tail := 0
  buf := rbuf.buf.fill 0 (RING_BUFFER_SIZE - 12) 0

def ring_buffer_used (rbuf : RingBuffer) : Int32 :=
  (((rbuf.tail - rbuf.head).toUInt32 + rbuf.size) % rbuf.size).toInt32

def ring_buffer_free (rbuf : RingBuffer) : Int32 :=
  (rbuf.size - (ring_buffer_used rbuf).toUInt32 - 1).toInt32

def ring_buffer_empty (rbuf : RingBuffer) : Bool := ring_buffer_used rbuf == 0

def ring_buffer_full (rbuf : RingBuffer) : Bool := ring_buffer_free rbuf == 0

/-- The macro, of an `int` and a `uint`: both are taken as unsigned. -/
protected def min (x : Int32) (y : UInt32) : UInt32 := if x.toUInt32 < y then x.toUInt32 else y

/-- What a call works on: the ring, and the memory of the process that calls. -/
structure Caller where
  rbuf : RingBuffer
  user : Memory

/-- An `int` as a `uint64`, sign and all. -/
def widen (n : Int32) : Nat := n.toInt64.toUInt64.toNat

/-- The bytes from an address of the caller on. -/
def userBytes (user : Memory) (srcva n : Nat) : List UInt8 :=
  (List.range n).map fun i => user (u64 (srcva + i))

/-- Lays bytes down from an address of the caller on. -/
def layUser (user : Memory) (dstva : Nat) : List UInt8 → Memory
  | [] => user
  | b :: bytes => layUser (Function.update user (u64 dstva) b) (dstva + 1) bytes

/-- `len` bytes from a place of `buf` on are those of `buf`. -/
def InBuf (place : Int32) (len : Int32) : Prop :=
  0 ≤ place.toInt ∧ place.toInt + widen len ≤ RING_BUFFER_SIZE + 1

instance (place len : Int32) : Decidable (InBuf place len) := inferInstanceAs (Decidable (_ ∧ _))

/-- `copyin(myproc()->pagetable, rbuf->buf + place, srcva, len)` -/
def copyin (place : Int32) (srcva : Nat) (len : Int32) : Machine Caller Unit :=
  if InBuf place len then
    modify fun s => { s with
      rbuf.buf := s.rbuf.buf.blit place.toInt.toNat (userBytes s.user srcva (widen len)) }
  else
    Machine.halt .fault

/-- `copyout(myproc()->pagetable, dstva, rbuf->buf + place, len)` -/
def copyout (dstva : Nat) (place : Int32) (len : Int32) : Machine Caller Unit :=
  if InBuf place len then
    modify fun s => { s with
      user := layUser s.user dstva (s.rbuf.buf.window place.toInt.toNat (widen len)) }
  else
    Machine.halt .fault

def read_ring_buffer (buf : Nat) (size : UInt32) : Machine Caller UInt32 := do
  let rbuf := (← get).rbuf
  let len := (Rbuf.min (ring_buffer_used rbuf) size).toInt32
  if 0 < len then
    if rbuf.size < (rbuf.head + len).toUInt32 then
      let right := (rbuf.size - rbuf.head.toUInt32).toInt32
      let left := len - right
      copyout buf rbuf.head right
      copyout (u64 (buf + widen right)) 0 left
    else
      copyout buf rbuf.head len
    modify fun s => { s with rbuf.head := ((rbuf.head + len).toUInt32 % rbuf.size).toInt32 }
    return len.toUInt32
  else if len < 0 then
    Machine.panic "read_ring_buffer: len < 0"
  else
    return len.toUInt32

def write_ring_buffer (buf : Nat) (size : UInt32) : Machine Caller UInt32 := do
  let rbuf := (← get).rbuf
  let len := (Rbuf.min (ring_buffer_free rbuf) size).toInt32
  if 0 < len then
    if rbuf.size < (rbuf.tail + len).toUInt32 then
      let right := (rbuf.size - rbuf.tail.toUInt32).toInt32
      let left := len - right
      copyin rbuf.tail buf right
      if 0 < left then
        copyin 0 (u64 (buf + widen right)) left
    else
      copyin rbuf.tail buf len
    modify fun s => { s with rbuf.tail := ((rbuf.tail + len).toUInt32 % rbuf.size).toInt32 }
    return len.toUInt32
  else if len < 0 then
    Machine.panic "read_ring_buffer: len < 0"
  else
    return len.toUInt32

/-- A call, with what its caller's memory holds by then. -/
inductive Call where
  | write_ring_buffer (user : Memory) (buf : Nat) (size : UInt32)
  | read_ring_buffer (user : Memory) (buf : Nat) (size : UInt32)

/-- What a call returns, and the memory that it leaves to its caller. -/
structure Return where
  value : UInt32
  user : Memory

/-- Makes a call on behalf of a process. -/
def onBehalf (user : Memory) (x : Machine Caller UInt32) : Machine RingBuffer Return := fun rbuf =>
  match x ⟨rbuf, user⟩ with
  | .ok (value, s) => .ok (⟨value, s.user⟩, s.rbuf)
  | .error e => .error e

def Call.run : Call → Machine RingBuffer Return
  | .write_ring_buffer user buf size => onBehalf user (Rbuf.write_ring_buffer buf size)
  | .read_ring_buffer user buf size => onBehalf user (Rbuf.read_ring_buffer buf size)

/-- The calls one after the other. -/
def serve : List Call → Machine RingBuffer (List Return)
  | [] => return []
  | call :: calls => do
    let r ← call.run
    return r :: (← serve calls)

end AvxKernel.Rbuf
