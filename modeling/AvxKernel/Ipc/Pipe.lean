import AvxKernel.Params
import Mathlib.Logic.Function.Basic

/-! `pipe.c`: the pipe, and the processes that read and write it. `pi->lock` is
held between the points where a call sleeps, so what a call does from one such
point to the next is one section. Copies do not fault. -/
namespace AvxKernel.Ipc

def PIPESIZE : Nat := 512

/-- `struct pipe`, without its lock. -/
structure Pipe where
  data : Nat → UInt8
  nread : UInt32
  nwrite : UInt32
  readopen : Bool
  writeopen : Bool

/-- The pipe that `pipealloc` makes. -/
def pipealloc : Pipe where
  data := fun _ => 0
  nread := 0
  nwrite := 0
  readopen := true
  writeopen := true

/-- The condition of `pipewrite-full`. -/
def Pipe.full (pi : Pipe) : Bool := pi.nwrite == pi.nread + UInt32.ofNat PIPESIZE

/-- The condition of `pipe-empty`. -/
def Pipe.empty (pi : Pipe) : Bool := pi.nread == pi.nwrite

/-- `pi->data[pi->nwrite++ % PIPESIZE] = ch` -/
def Pipe.put (pi : Pipe) (ch : UInt8) : Pipe :=
  { pi with
    data := Function.update pi.data (pi.nwrite.toNat % PIPESIZE) ch
    nwrite := pi.nwrite + 1 }

/-- `ch = pi->data[pi->nread++ % PIPESIZE]` -/
def Pipe.take (pi : Pipe) : UInt8 × Pipe :=
  (pi.data (pi.nread.toNat % PIPESIZE), { pi with nread := pi.nread + 1 })

/-- A call between two sections. -/
inductive Call where
  /-- `pipewrite(pi, user, addr, n)`, with `i` bytes written. -/
  | pipewrite (addr : Nat) (n : Int) (i : Nat)
  | piperead (addr : Nat) (n : Int)

/-- What the pipe's functions use of a process: the memory that its addresses
reach, and `killed`. -/
structure Proc where
  memory : Nat → UInt8
  killed : Bool

/-- How a section ends. -/
inductive End where
  /-- The call returns -1. -/
  | failed
  | asleep (call : Call)
  | returned (i : Nat)

/-- A section of `pipewrite`, with `more` bytes to go: the pipe, the bytes put
into it and the end. -/
def pipewriteFrom (pr : Proc) (addr : Nat) (n : Int) : Nat → Nat → Pipe → Pipe × List UInt8 × End
  | 0, i, pi => (pi, [], .returned i)
  | more + 1, i, pi =>
    if pi.full then
      if pi.readopen = false ∨ pr.killed then
        (pi, [], .failed)
      else
        (pi, [], .asleep (.pipewrite addr n i))
    else
      let ch := pr.memory (u64 (addr + i))
      let (pi, put, ending) := pipewriteFrom pr addr n more (i + 1) (pi.put ch)
      (pi, ch :: put, ending)

/-- The loop `piperead-copy`, with `more` bytes to go: the pipe, the memory, the
bytes taken and how many there are. -/
def pipereadFrom (addr : Nat) :
    Nat → Nat → Pipe → (Nat → UInt8) → Pipe × (Nat → UInt8) × List UInt8 × Nat
  | 0, i, pi, memory => (pi, memory, [], i)
  | more + 1, i, pi, memory =>
    if pi.empty then
      (pi, memory, [], i)
    else
      let (ch, pi) := pi.take
      let memory := Function.update memory (u64 (addr + i)) ch
      let (pi, memory, taken, count) := pipereadFrom addr more (i + 1) pi memory
      (pi, memory, ch :: taken, count)

/-- What a section does. -/
structure Section where
  pipe : Pipe
  memory : Nat → UInt8
  put : List UInt8
  taken : List UInt8
  ending : End

/-- The next section of a call. -/
def Call.section (call : Call) (pr : Proc) (pi : Pipe) : Section :=
  match call with
  | .pipewrite addr n i =>
    let (pi, put, ending) := pipewriteFrom pr addr n (n - i).toNat i pi
    ⟨pi, pr.memory, put, [], ending⟩
  | .piperead addr n =>
    if pi.empty ∧ pi.writeopen then
      ⟨pi, pr.memory, [], [], if pr.killed then .failed else .asleep (.piperead addr n)⟩
    else
      let (pi, memory, taken, i) := pipereadFrom addr n.toNat 0 pi pr.memory
      ⟨pi, memory, [], taken, .returned i⟩

/-- The channel a call sleeps on. -/
inductive Chan where
  | nread
  | nwrite
deriving DecidableEq

def Call.chan : Call → Chan
  | .pipewrite .. => .nwrite
  | .piperead .. => .nread

/-- The channel that a call wakes up. -/
def Call.wakes : Call → Chan
  | .pipewrite .. => .nread
  | .piperead .. => .nwrite

/-- Where a process is. -/
inductive Place where
  | outside
  | sleeping (call : Call)
  | runnable (call : Call)

def Place.woken : Place → Place
  | .sleeping call => .runnable call
  | place => place

def Place.wakeup (chan : Chan) : Place → Place
  | .sleeping call => if call.chan = chan then .runnable call else .sleeping call
  | place => place

/-- The pipe with its processes, any number of them. What has been put into the
pipe and what has been taken from it since it was made is kept for the record;
no function reads it. -/
structure Sys where
  pipe : Pipe
  proc : Nat → Proc
  place : Nat → Place
  accepted : List UInt8
  delivered : List UInt8

def Sys.wakeup (s : Sys) (chan : Chan) : Sys :=
  { s with place := fun p => (s.place p).wakeup chan }

/-- Process `p` after a section of its call. A reader that goes to sleep, and a
call that fails, wake up nobody. -/
def Sys.finish (s : Sys) (p : Nat) (call : Call) : End → Sys
  | .failed => { s with place := Function.update s.place p .outside }
  | .asleep rest =>
    let s := match call with
      | .pipewrite .. => s.wakeup call.wakes
      | .piperead .. => s
    { s with place := Function.update s.place p (.sleeping rest) }
  | .returned _ =>
    let s := s.wakeup call.wakes
    { s with place := Function.update s.place p .outside }

/-- Process `p` runs the next section of a call. -/
def Sys.run (s : Sys) (p : Nat) (call : Call) : Sys :=
  let sec := call.section (s.proc p) s.pipe
  let s := { s with
    pipe := sec.pipe
    proc := Function.update s.proc p { s.proc p with memory := sec.memory }
    accepted := s.accepted ++ sec.put
    delivered := s.delivered ++ sec.taken }
  s.finish p call sec.ending

inductive Step (s : Sys) : Sys → Prop
  | pipewrite (p addr : Nat) (n : Int) (out : s.place p = .outside) :
    Step s (s.run p (.pipewrite addr n 0))
  | piperead (p addr : Nat) (n : Int) (out : s.place p = .outside) :
    Step s (s.run p (.piperead addr n))
  /-- A process that has been woken up goes on. -/
  | resume (p : Nat) (call : Call) (ready : s.place p = .runnable call) : Step s (s.run p call)
  /-- A process, or another that shares its memory, stores into it. -/
  | store (p : Nat) (memory : Nat → UInt8) :
    Step s { s with proc := Function.update s.proc p { s.proc p with memory } }
  /-- A signal wakes up its process, whatever it waits for. -/
  | kill (p : Nat) (killed : Bool) :
    Step s { s with
      proc := Function.update s.proc p { s.proc p with killed }
      place := Function.update s.place p (s.place p).woken }
  | pipeclose (writable : Bool) :
    Step s (if writable then
        { s with pipe := { s.pipe with writeopen := false } }.wakeup .nread
      else
        { s with pipe := { s.pipe with readopen := false } }.wakeup .nwrite)

/-- A new pipe, which no process is using. -/
structure Sys.Start (s : Sys) : Prop where
  pipe : s.pipe = pipealloc
  outside : ∀ p, s.place p = .outside
  accepted : s.accepted = []
  delivered : s.delivered = []

end AvxKernel.Ipc
