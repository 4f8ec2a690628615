import AvxKernel.Lib.Ring
import AvxKernel.Params
import Mathlib.Data.Finset.Defs

/-! The buffer cache of `bio.c` as a step function over the interleaved
sections of any number of processes: the section of `bget` and of `brelse`
under `bcache.lock`, the acquisition and release of a buffer's sleep lock, and
the disk transfers are one step each. -/
namespace AvxKernel.Bio

abbrev Block := Fin BSIZE → UInt8

abbrev BufId := Fin NBUF

instance : NeZero NBUF := ⟨by decide⟩

/-- `~0` as a `uint`. -/
def noBlock : Nat := 2 ^ 32 - 1

/-- `struct buf`, less its ring pointers. The sleep lock is the pid that holds
it. The `disk` field belongs to a transfer in flight, and a transfer is one step. -/
structure Buf (n : Nat) where
  valid : Bool
  dev : Nat
  sectorno : Nat
  lock : Option (Fin n)
  refcnt : Nat
  data : Block

def Buf.key {n : Nat} (b : Buf n) : Nat × Nat := (b.dev, b.sectorno)

/-- `bcache`: the buffers, and the ring through `bcache.head`, the node `none`. -/
structure Bcache (n : Nat) where
  buf : BufId → Buf n
  links : Links (Option BufId)

variable {n : Nat}

def Bcache.setBuf (c : Bcache n) (b : BufId) (v : Buf n) : Bcache n :=
  { c with buf := Function.update c.buf b v }

def binit (c : Bcache n) : Bcache n :=
  (List.finRange NBUF).foldl
    (fun c b =>
      { buf := Function.update c.buf b
          { c.buf b with refcnt := 0, sectorno := noBlock, dev := noBlock, lock := none }
        links := c.links.pushFront none (some b) })
    { c with links := c.links.closed none }

/-- The section of `bget` under `bcache.lock`; `none` is its panic. -/
def Bcache.bget (c : Bcache n) (dev sectorno : Nat) : Option (BufId × Bcache n) :=
  match (c.links.fromHead NBUF).find? (fun b =>
      decide ((c.buf b).dev = dev ∧ (c.buf b).sectorno = sectorno)) with
  | some b => some (b, c.setBuf b { c.buf b with refcnt := (c.buf b).refcnt + 1 })
  | none =>
    match (c.links.fromTail NBUF).find? (fun b => decide ((c.buf b).refcnt = 0)) with
    | some b => some (b, c.setBuf b { c.buf b with dev, sectorno, valid := false, refcnt := 1 })
    | none => none

/-- The section of `brelse` under `bcache.lock`. -/
def Bcache.brelse (c : Bcache n) (b : BufId) : Bcache n :=
  let refcnt := (c.buf b).refcnt - 1
  let c := c.setBuf b { c.buf b with refcnt }
  if refcnt = 0 then { c with links := c.links.moveToFront none (some b) } else c

/-- One `bread` in progress or completed: the buffer `bget` chose and the block
it was asked for. -/
structure Use where
  buf : BufId
  dev : Nat
  sectorno : Nat
deriving DecidableEq

/-- Where a process stands between two sections. -/
inductive Pc where
  | idle
  /-- In `bget`, before `acquiresleep` returns. -/
  | wait (u : Use)
  /-- In `bread`, with the buffer locked and not yet examined. -/
  | load (u : Use)
  /-- In `brelse`, with the buffer unlocked and still counted. -/
  | drop (u : Use)

def Pc.uses : Pc → List Use
  | .idle => []
  | .wait u | .load u | .drop u => [u]

def Pc.locked : Pc → List Use
  | .load u => [u]
  | _ => []

structure Proc where
  pc : Pc
  held : List Use

def Proc.uses (p : Proc) : List Use := p.pc.uses ++ p.held

def Proc.locked (p : Proc) : List Use := p.pc.locked ++ p.held

/-- The machine: the cache, the disk, the processes, and two records that no
step reads, of every `bwrite` so far and of which buffers were changed since
they were last read or written. `disk_read` and `disk_write` use the sector
number only. -/
structure Sys (n : Nat) where
  cache : Bcache n
  disk : Nat → Block
  procs : Fin n → Proc
  writes : List (Use × Block)
  changed : BufId → Bool

inductive Event (n : Nat) where
  | bget (p : Fin n) (dev sectorno : Nat)
  | lock (p : Fin n)
  | load (p : Fin n)
  | change (p : Fin n) (b : BufId) (data : Block)
  | bwrite (p : Fin n) (b : BufId)
  | unlock (p : Fin n) (b : BufId)
  | release (p : Fin n)

def Sys.setProc (s : Sys n) (p : Fin n) (v : Proc) : Sys n :=
  { s with procs := Function.update s.procs p v }

def Sys.setBuf (s : Sys n) (b : BufId) (v : Buf n) : Sys n :=
  { s with cache := s.cache.setBuf b v }

def Sys.setChanged (s : Sys n) (b : BufId) (v : Bool) : Sys n :=
  { s with changed := Function.update s.changed b v }

/-- The end of `bread`: `disk_read` when the buffer is not valid. -/
def Buf.fill (b : Buf n) (disk : Nat → Block) : Buf n :=
  if b.valid then b else { b with data := disk b.sectorno, valid := true }

/-- One section of one process. `none` means that the section cannot run now:
the process is elsewhere, waits for the lock, or would panic. -/
def step (s : Sys n) : Event n → Option (Sys n)
  | .bget p dev sectorno =>
    match (s.procs p).pc with
    | .idle =>
      match s.cache.bget dev sectorno with
      | some (b, c) =>
        some ({ s with cache := c }.setProc p { s.procs p with pc := .wait ⟨b, dev, sectorno⟩ })
      | none => none
    | _ => none
  | .lock p =>
    match (s.procs p).pc with
    | .wait u =>
      if (s.cache.buf u.buf).lock = none then
        some ((s.setBuf u.buf { s.cache.buf u.buf with lock := some p }).setProc p
          { s.procs p with pc := .load u })
      else none
    | _ => none
  | .load p =>
    match (s.procs p).pc with
    | .load u =>
      some (((s.setChanged u.buf ((s.cache.buf u.buf).valid && s.changed u.buf)).setBuf u.buf
        ((s.cache.buf u.buf).fill s.disk)).setProc p
          { pc := .idle, held := u :: (s.procs p).held })
    | _ => none
  | .change p b data =>
    match (s.procs p).pc with
    | .idle =>
      if (s.cache.buf b).lock = some p then
        some ((s.setChanged b true).setBuf b { s.cache.buf b with data })
      else none
    | _ => none
  | .bwrite p b =>
    match (s.procs p).pc with
    | .idle =>
      if (s.cache.buf b).lock = some p then
        some { s.setChanged b false with
          disk := Function.update s.disk (s.cache.buf b).sectorno (s.cache.buf b).data
          writes := (⟨b, (s.cache.buf b).dev, (s.cache.buf b).sectorno⟩, (s.cache.buf b).data) ::
            s.writes }
      else none
    | _ => none
  | .unlock p b =>
    match (s.procs p).pc, (s.procs p).held.find? (fun u => decide (u.buf = b)) with
    | .idle, some u =>
      if (s.cache.buf b).lock = some p then
        some ((s.setBuf b { s.cache.buf b with lock := none }).setProc p
          { pc := .drop u, held := (s.procs p).held.erase u })
      else none
    | _, _ => none
  | .release p =>
    match (s.procs p).pc with
    | .drop u =>
      some ({ s with cache := s.cache.brelse u.buf }.setProc p { s.procs p with pc := .idle })
    | _ => none

def run : Sys n → List (Event n) → Option (Sys n)
  | s, [] => some s
  | s, e :: rest => (step s e).bind fun s' => run s' rest

/-- The zeroed static storage of `bcache`. -/
def bss (n : Nat) : Bcache n where
  buf := fun _ => ⟨false, 0, 0, none, 0, fun _ => 0⟩
  links := ⟨fun _ => none, fun _ => none⟩

/-- After `binit`, with processes that hold nothing. -/
def boot (n : Nat) (disk : Nat → Block) : Sys n where
  cache := binit (bss n)
  disk := disk
  procs := fun _ => ⟨.idle, []⟩
  writes := []
  changed := fun _ => false

end AvxKernel.Bio
