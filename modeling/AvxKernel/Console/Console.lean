import AvxKernel.Params
import Mathlib.Logic.Function.Basic

/-! `console.c`: the input of the console. `cons.lock` is held between the points
where `consoleread` sleeps, and by the interrupt handler, so what a call does from one
such point to the next is one section. Copies do not fault. -/
namespace AvxKernel.Console

def INPUT_BUF : Nat := 128

/-- A control character. -/
def C (x : Char) : Int := x.toNat - 64

def NEWLINE : UInt8 := 10

/-- `C('D')` in the buffer. -/
def EOT : UInt8 := 4

/-- `cons`, without its lock. -/
structure Cons where
  buf : Nat → UInt8
  r : UInt32
  w : UInt32
  e : UInt32

/-- What the kernel starts with. -/
def Cons.zeroed : Cons := ⟨fun _ => 0, 0, 0, 0⟩

/-- `cons.buf[cons.e++ % INPUT_BUF] = c` -/
def Cons.put (cons : Cons) (c : UInt8) : Cons :=
  { cons with
    buf := Function.update cons.buf (cons.e.toNat % INPUT_BUF) c
    e := cons.e + 1 }

/-- `c = cons.buf[cons.r++ % INPUT_BUF]` -/
def Cons.take (cons : Cons) : UInt8 × Cons :=
  (cons.buf (cons.r.toNat % INPUT_BUF), { cons with r := cons.r + 1 })

/-- `cons.buf[(cons.e - 1) % INPUT_BUF]` -/
def Cons.last (cons : Cons) : UInt8 := cons.buf ((cons.e - 1).toNat % INPUT_BUF)

def Cons.erase (cons : Cons) : Cons := { cons with e := cons.e - 1 }

/-- The loop of the case `C('U')`, of which there are at most `cons.e - cons.w` rounds. -/
def killLine : Nat → Cons → Cons
  | 0, cons => cons
  | more + 1, cons =>
    if cons.e ≠ cons.w ∧ cons.last ≠ NEWLINE then killLine more cons.erase else cons

/-- A `char` from an `int`. -/
def toChar (c : Int) : UInt8 := UInt8.ofNat (c % 256).toNat

/-- `consoleintr`: the console, and whether the readers are woken up. -/
def consoleintr (c : Int) (cons : Cons) : Cons × Bool :=
  if c = C 'P' then
    (cons, false)
  else if c = C 'U' then
    (killLine (cons.e - cons.w).toNat cons, false)
  else if c = C 'H' ∨ c = 0x7f then
    (if cons.e ≠ cons.w then cons.erase else cons, false)
  else if c ≠ 0 ∧ cons.e - cons.r < UInt32.ofNat INPUT_BUF then
    let c := if c = 13 then 10 else c
    let cons := cons.put (toChar c)
    if c = 10 ∨ c = C 'D' ∨ cons.e = cons.r + UInt32.ofNat INPUT_BUF then
      ({ cons with w := cons.e }, true)
    else
      (cons, false)
  else
    (cons, false)

/-- A `consoleread` between two sections: `n` bytes of `target` are still to come. -/
structure Read where
  dst : Nat
  n : Nat
  target : Nat

/-- How a section ends. -/
inductive End where
  /-- The call returns -1. -/
  | failed
  | asleep (call : Read)
  | returned (count : Nat)

/-- What a section does: the characters that it takes from the buffer for good, and those
of them that it copies out. -/
structure Section where
  cons : Cons
  memory : Nat → UInt8
  consumed : List UInt8
  delivered : List UInt8
  ending : End

/-- A section of `consoleread`, with `n` bytes to go. -/
def consolereadFrom (killed : Bool) (target : Nat) : Nat → Nat → Cons → (Nat → UInt8) → Section
  | 0, _, cons, memory => ⟨cons, memory, [], [], .returned target⟩
  | n + 1, dst, cons, memory =>
    if cons.r = cons.w then
      ⟨cons, memory, [], [], if killed then .failed else .asleep ⟨dst, n + 1, target⟩⟩
    else
      let (c, cons) := cons.take
      if c = EOT then
        if n + 1 < target then
          ⟨{ cons with r := cons.r - 1 }, memory, [], [], .returned (target - (n + 1))⟩
        else
          ⟨cons, memory, [c], [], .returned (target - (n + 1))⟩
      else
        let memory := Function.update memory (u64 dst) c
        if c = NEWLINE then
          ⟨cons, memory, [c], [c], .returned (target - n)⟩
        else
          let rest := consolereadFrom killed target n (dst + 1) cons memory
          { rest with
            consumed := c :: rest.consumed
            delivered := c :: rest.delivered }

/-- What `consoleread` uses of a process. -/
structure Proc where
  memory : Nat → UInt8
  killed : Bool

def Read.section (call : Read) (pr : Proc) (cons : Cons) : Section :=
  consolereadFrom pr.killed call.target call.n call.dst cons pr.memory

/-- `consoleread(user_dst, dst, n)` -/
def consoleread (dst : Nat) (n : Int) : Read := ⟨dst, n.toNat, n.toNat⟩

/-- Where a process is. -/
inductive Place where
  | outside
  | sleeping (call : Read)
  | runnable (call : Read)

def Place.woken : Place → Place
  | .sleeping call => .runnable call
  | place => place

/-- What is typed, and what becomes of it. -/
structure History where
  consumed : List UInt8
  delivered : List UInt8
  committed : List UInt8
  /-- The line that is being typed. -/
  line : List UInt8

/-- How many characters are held. -/
def History.held (h : History) : Nat := h.committed.length + h.line.length - h.consumed.length

/-- A line without the characters that kill-line takes from its end. -/
def killed (line : List UInt8) : List UInt8 := (line.reverse.dropWhile (· ≠ NEWLINE)).reverse

/-- The editing of lines, without a ring and without indices. -/
def History.type (h : History) (c : Int) : History :=
  if c = C 'P' then
    h
  else if c = C 'U' then
    { h with line := killed h.line }
  else if c = C 'H' ∨ c = 0x7f then
    { h with line := h.line.dropLast }
  else if c ≠ 0 ∧ h.held < INPUT_BUF then
    let c := if c = 13 then 10 else c
    let line := h.line ++ [toChar c]
    if c = 10 ∨ c = C 'D' ∨ h.held + 1 = INPUT_BUF then
      { h with committed := h.committed ++ line, line := [] }
    else
      { h with line }
  else
    h

/-- The console with its readers, any number of them. The history is kept for the record;
no function reads it. -/
structure Sys where
  cons : Cons
  proc : Nat → Proc
  place : Nat → Place
  history : History

def Sys.wakeup (s : Sys) : Sys := { s with place := fun p => (s.place p).woken }

/-- A character arrives. -/
def Sys.intr (s : Sys) (c : Int) : Sys :=
  let (cons, wakes) := consoleintr c s.cons
  let s := { s with cons, history := s.history.type c }
  if wakes then s.wakeup else s

def End.place : End → Place
  | .asleep call => .sleeping call
  | _ => .outside

/-- Process `p` runs the next section of a call. -/
def Sys.run (s : Sys) (p : Nat) (call : Read) : Sys :=
  let sec := call.section (s.proc p) s.cons
  { cons := sec.cons
    proc := Function.update s.proc p { s.proc p with memory := sec.memory }
    place := Function.update s.place p sec.ending.place
    history := { s.history with
      consumed := s.history.consumed ++ sec.consumed
      delivered := s.history.delivered ++ sec.delivered } }

inductive Step (s : Sys) : Sys → Prop
  | intr (c : Int) : Step s (s.intr c)
  | consoleread (p dst : Nat) (n : Int) (out : s.place p = .outside) :
    Step s (s.run p (consoleread dst n))
  /-- A process that has been woken up goes on. -/
  | resume (p : Nat) (call : Read) (ready : s.place p = .runnable call) : Step s (s.run p call)
  /-- A process, or another that shares its memory, stores into it. -/
  | store (p : Nat) (memory : Nat → UInt8) :
    Step s { s with proc := Function.update s.proc p { s.proc p with memory } }
  /-- A signal wakes up its process. -/
  | kill (p : Nat) (killed : Bool) :
    Step s { s with
      proc := Function.update s.proc p { s.proc p with killed }
      place := Function.update s.place p (s.place p).woken }

/-- Nothing has been typed, and nobody reads. -/
structure Sys.Start (s : Sys) : Prop where
  cons : s.cons = Cons.zeroed
  outside : ∀ p, s.place p = .outside
  history : s.history = ⟨[], [], [], []⟩

end AvxKernel.Console
