import AvxKernel.Vm.Pool
import Mathlib.Data.Finset.Basic

/-! `kalloc.c` under any interleaving of its callers. `kmem.lock` is held only around
the list and its count: the junk goes into a page outside of it, byte by byte, while
other calls and the owners of other pages go on. -/
namespace AvxKernel.Kalloc

open Vm

/-- The loop of `freerange`. -/
def freerange (pa_start pa_end : Nat) : Machine Ram Unit :=
  Machine.loop (fun p => do
    if p + PGSIZE ≤ pa_end then
      kfree p
      return .inl (p + PGSIZE)
    else
      return .inr ()) (PAGES + 1) (PGROUNDUP pa_start)

def kinit : Machine Ram Unit := do
  modify fun s => { s with freelist := 0, npage := 0 }
  let s ← get
  freerange s.kernel_end RAMSTOP

/-- What a caller is about to do. -/
inductive Pc where
  | outside
  /-- `memset(pa, 1, PGSIZE)`, with so many bytes written. -/
  | junk (pa written : Nat)
  /-- `acquire(&kmem.lock)` of `kfree`. -/
  | freeing (pa : Nat)
  /-- `r->next = kmem.freelist`; the lock is held from here to `freed`. -/
  | linking (pa : Nat)
  /-- `kmem.freelist = r` -/
  | pushing (pa : Nat)
  /-- `kmem.npage++` -/
  | counting
  /-- `release(&kmem.lock)` -/
  | freed
  /-- `acquire(&kmem.lock)` of `kalloc`. -/
  | allocating
  /-- `r = kmem.freelist`; the lock is held from here to `took`. -/
  | reading
  /-- `if (r) kmem.freelist = r->next` -/
  | popping (r : Nat)
  /-- `kmem.npage--` -/
  | uncounting (r : Nat)
  /-- `release(&kmem.lock)` -/
  | took (r : Nat)
  /-- `memset(r, 5, PGSIZE)`, with so many bytes written. -/
  | filling (r written : Nat)
  /-- `acquire(&kmem.lock)` of `freemem_amount`. -/
  | measuring
  /-- `amount = kmem.npage`; the lock is held here and at `measured`. -/
  | amount
  /-- `release(&kmem.lock)` -/
  | measured (amount : Nat)
  | panicked

/-- The lock is held. -/
def Pc.inside : Pc → Bool
  | .linking _ | .pushing _ | .counting | .freed | .reading | .popping _ | .uncounting _ | .took _
  | .amount | .measured _ => true
  | _ => false

/-- The page that is on its way from or to the list. -/
def Pc.page : Pc → Option Nat
  | .junk pa _ | .freeing pa | .linking pa | .pushing pa => some pa
  | .uncounting r | .filling r _ => some r
  | .took r => if r = 0 then none else some r
  | _ => none

theorem Pc.page_outside : Pc.outside.page = none := rfl

theorem Pc.page_junk (pa k : Nat) : (Pc.junk pa k).page = some pa := rfl

theorem Pc.page_uncounting (r : Nat) : (Pc.uncounting r).page = some r := rfl

theorem Pc.page_took (r : Nat) : (Pc.took r).page = if r = 0 then none else some r := rfl

/-- Memory and `kmem`, any number of callers, and the pages that they own. -/
structure Kmem where
  ram : Ram
  lock : Option Nat
  pc : Nat → Pc
  held : Finset Nat

namespace Kmem

variable (s : Kmem) (t : Nat)

def goto (pc : Pc) : Kmem := { s with pc := Function.update s.pc t pc }

def setRam (ram : Ram) : Kmem := { s with ram }

/-- `memset`, one byte of it. -/
def put (a c : Nat) : Kmem := s.setRam (s.ram.setMem (s.ram.mem.fill a 1 (UInt8.ofNat c)))

def acquire (pc : Pc) : Option Kmem :=
  if s.lock = none then some { s.goto t pc with lock := some t } else none

def release (pc : Pc) : Kmem := { s.goto t pc with lock := none }

/-- The next step of a call. A page that `kalloc` returns is its caller's. -/
def advance : Option Kmem :=
  match s.pc t with
  | .outside => none
  | .junk pa k =>
    if k < PGSIZE then
      some ((s.put (pa + k) 1).goto t (.junk pa (k + 1)))
    else
      some (s.goto t (.freeing pa))
  | .freeing pa => s.acquire t (.linking pa)
  | .linking pa =>
    some ((s.setRam (s.ram.setMem (s.ram.mem.store pa 8 s.ram.freelist))).goto t (.pushing pa))
  | .pushing pa =>
    some ((s.setRam { s.ram with freelist := pa, freed := pa :: s.ram.freed }).goto t .counting)
  | .counting => some ((s.setRam { s.ram with npage := u64 (s.ram.npage + 1) }).goto t .freed)
  | .freed => some (s.release t .outside)
  | .allocating => s.acquire t .reading
  | .reading => some (s.goto t (.popping s.ram.freelist))
  | .popping r =>
    if r = 0 then
      some (s.goto t (.took 0))
    else
      let next := s.ram.mem.fetch r 8
      some ((s.setRam { s.ram with freelist := next, allocated := r :: s.ram.allocated }).goto t
        (.uncounting r))
  | .uncounting r =>
    some ((s.setRam { s.ram with npage := u64 (s.ram.npage + (2 ^ 64 - 1)) }).goto t (.took r))
  | .took r => some (s.release t (if r = 0 then .outside else .filling r 0))
  | .filling r k =>
    if k < PGSIZE then
      some ((s.put (r + k) 5).goto t (.filling r (k + 1)))
    else
      some { s.goto t .outside with held := insert r s.held }
  | .measuring => s.acquire t .amount
  | .amount => some (s.goto t (.measured (s.ram.npage <<< 12)))
  | .measured _ => some (s.release t .outside)
  | .panicked => none

/-- `kfree(pa)` is called: the page is no longer the caller's. -/
def kfree (pa : Nat) : Kmem :=
  if pa % PGSIZE ≠ 0 ∨ pa < s.ram.kernel_end ∨ RAMSTOP ≤ pa then
    s.goto t .panicked
  else
    { s.goto t (.junk pa 0) with held := s.held.erase pa }

/-- What the owners of pages may write to: their pages, and all that is not memory of the
allocator. -/
def Writable (a : Nat) : Prop :=
  a < s.ram.kernel_end ∨ RAMSTOP ≤ a ∨ ∃ page ∈ s.held, page ≤ a ∧ a < page + PGSIZE

end Kmem

inductive Step (s : Kmem) : Kmem → Prop
  | kfree (t pa : Nat) (idle : s.pc t = .outside) (mine : pa ∈ s.held) : Step s (s.kfree t pa)
  | kalloc (t : Nat) (idle : s.pc t = .outside) : Step s (s.goto t .allocating)
  | freemem_amount (t : Nat) (idle : s.pc t = .outside) : Step s (s.goto t .measuring)
  | advance (t : Nat) {s' : Kmem} (next : s.advance t = some s') : Step s s'
  | write (mem : Memory) (own : ∀ a, ¬s.Writable a → mem a = s.ram.mem a) :
    Step s (s.setRam (s.ram.setMem mem))

/-- After `kinit`, no call is running and nobody owns a page. -/
def start (r : Ram) : Kmem where
  ram := r
  lock := none
  pc := fun _ => .outside
  held := ∅

abbrev Reachable (r : Ram) : Kmem → Prop := Relation.ReflTransGen Step (start r)

/-! ### One call alone

The calls of `Vm` are the runs in which nothing else happens. -/

variable {s : Kmem} {t : Nat}

@[simp] theorem Kmem.goto_pc (pc : Pc) : (s.goto t pc).pc t = pc := Function.update_self ..

@[simp] theorem Kmem.goto_goto (pc pc' : Pc) : (s.goto t pc).goto t pc' = s.goto t pc' := by
  simp only [Kmem.goto, Function.update_idem]

theorem Kmem.goto_same {pc : Pc} (here : s.pc t = pc) : s.goto t pc = s := by
  rw [Kmem.goto, ← here, Function.update_eq_self]

theorem Kmem.goto_put_goto (pc pc' : Pc) (a c : Nat) :
    ((s.goto t pc).put a c).goto t pc' = (s.put a c).goto t pc' := by
  simp only [Kmem.put, Kmem.setRam, Kmem.goto, Function.update_idem]

/-- The steps of `kfree` under the lock. -/
theorem push_alone (page : Nat) (unlocked : s.lock = none) :
    Relation.ReflTransGen Step (s.goto t (.freeing page))
      ((s.setRam { s.ram with
        mem := s.ram.mem.store page 8 s.ram.freelist
        freelist := page
        npage := u64 (s.ram.npage + 1)
        freed := page :: s.ram.freed }).goto t .outside) := by
  have acquire : (s.goto t (.freeing page)).advance t = some { s.goto t (.linking page) with lock := some t } := by
    simp [Kmem.advance, Kmem.acquire, Kmem.goto, unlocked]
  refine .head (.advance t acquire) ?_
  have link (u : Kmem) (here : u.pc t = .linking page) : u.advance t =
      some ((u.setRam (u.ram.setMem (u.ram.mem.store page 8 u.ram.freelist))).goto t (.pushing page)) := by
    simp only [Kmem.advance, here]
  refine .head (.advance t (link _ (Kmem.goto_pc _))) ?_
  have push (u : Kmem) (here : u.pc t = .pushing page) : u.advance t =
      some ((u.setRam { u.ram with freelist := page, freed := page :: u.ram.freed }).goto t .counting) := by
    simp only [Kmem.advance, here]
  refine .head (.advance t (push _ (Kmem.goto_pc _))) ?_
  have count (u : Kmem) (here : u.pc t = .counting) : u.advance t =
      some ((u.setRam { u.ram with npage := u64 (u.ram.npage + 1) }).goto t .freed) := by
    simp only [Kmem.advance, here]
  refine .head (.advance t (count _ (Kmem.goto_pc _))) ?_
  have release (u : Kmem) (here : u.pc t = .freed) : u.advance t = some (u.release t .outside) := by
    simp only [Kmem.advance, here]
  refine .head (.advance t (release _ (Kmem.goto_pc _))) ?_
  simp only [Kmem.release, Kmem.goto, Kmem.setRam, Ram.setMem, Function.update_idem, ← unlocked]
  exact .refl

/-- `memset`, byte after byte. -/
theorem memset_steps (pc : Nat → Pc) (c a n : Nat)
    (round : ∀ (s : Kmem) (k : Nat), k < n → s.pc t = pc k →
      s.advance t = some ((s.put (a + k) c).goto t (pc (k + 1)))) :
    Relation.ReflTransGen Step (s.goto t (pc 0))
      ((s.setRam (s.ram.setMem (s.ram.mem.fill a n (UInt8.ofNat c)))).goto t (pc n)) := by
  have upto : ∀ m ≤ n, Relation.ReflTransGen Step (s.goto t (pc 0))
      ((s.setRam (s.ram.setMem (s.ram.mem.fill a m (UInt8.ofNat c)))).goto t (pc m)) := by
    intro m
    induction m with
    | zero =>
      intro _
      rw [Memory.fill_zero]
      exact .refl
    | succ m ih =>
      intro more
      have next := round ((s.setRam (s.ram.setMem (s.ram.mem.fill a m (UInt8.ofNat c)))).goto t (pc m)) m
        more (Kmem.goto_pc _)
      rw [Kmem.goto_put_goto] at next
      rw [← Memory.fill_succ]
      exact (ih (Nat.le_of_lt more)).tail (.advance t next)
  exact upto n (Nat.le_refl n)

variable {r : Ram} {page : Nat}

/-- A `kfree` that nothing interrupts. -/
theorem kfree_alone (idle : s.pc t = .outside) (unlocked : s.lock = none) (mine : page ∈ s.held)
    (usable : Usable s.ram page) :
    Relation.ReflTransGen Step s { s with ram := s.ram.givenBack page, held := s.held.erase page } := by
  have aligned : page % PGSIZE = 0 := Nat.mod_eq_zero_of_dvd usable.frame.dvd
  have low := usable.low
  have high := usable.high
  have call : Step s (s.kfree t page) := .kfree t page idle mine
  rw [Kmem.kfree, if_neg (by omega)] at call
  have junk := memset_steps (s := { s with held := s.held.erase page }) (t := t) (.junk page) 1 page PGSIZE fun u k more here => by
      simp only [Kmem.advance, here, if_pos more]
  have full (u : Kmem) (here : u.pc t = .junk page PGSIZE) : u.advance t = some (u.goto t (.freeing page)) := by
    simp only [Kmem.advance, here, if_neg (Nat.lt_irrefl PGSIZE)]
  refine .head call (junk.trans (.head (.advance t (full _ (Kmem.goto_pc _))) ?_))
  rw [Kmem.goto_goto]
  have done := Kmem.goto_same (s := { s with ram := s.ram.givenBack page, held := s.held.erase page }) idle
  rw [← done]
  exact push_alone page unlocked

/-- The steps of `kalloc` under the lock, when there is a page. -/
theorem pop_alone (idle : s.pc t = .outside) (unlocked : s.lock = none) (any : s.ram.freelist ≠ 0) :
    Relation.ReflTransGen Step s
      ((s.setRam { s.ram with
        freelist := s.ram.mem.fetch s.ram.freelist 8
        npage := u64 (s.ram.npage + (2 ^ 64 - 1))
        allocated := s.ram.freelist :: s.ram.allocated }).goto t (.filling s.ram.freelist 0)) := by
  have acquire : (s.goto t .allocating).advance t = some { s.goto t .reading with lock := some t } := by
    simp [Kmem.advance, Kmem.acquire, Kmem.goto, unlocked]
  refine .head (.kalloc t idle) (.head (.advance t acquire) ?_)
  have read (u : Kmem) (here : u.pc t = .reading) :
      u.advance t = some (u.goto t (.popping u.ram.freelist)) := by
    simp only [Kmem.advance, here]
  refine .head (.advance t (read _ (Kmem.goto_pc _))) ?_
  have pop (u : Kmem) (r : Nat) (here : u.pc t = .popping r) (any : r ≠ 0) : u.advance t =
      some ((u.setRam { u.ram with
        freelist := u.ram.mem.fetch r 8
        allocated := r :: u.ram.allocated }).goto t (.uncounting r)) := by
    simp only [Kmem.advance, here, if_neg any]
  refine .head (.advance t (pop _ s.ram.freelist (Kmem.goto_pc _) any)) ?_
  have count (u : Kmem) (r : Nat) (here : u.pc t = .uncounting r) : u.advance t =
      some ((u.setRam { u.ram with npage := u64 (u.ram.npage + (2 ^ 64 - 1)) }).goto t (.took r)) := by
    simp only [Kmem.advance, here]
  refine .head (.advance t (count _ s.ram.freelist (Kmem.goto_pc _))) ?_
  have release (u : Kmem) (r : Nat) (here : u.pc t = .took r) (any : r ≠ 0) :
      u.advance t = some (u.release t (.filling r 0)) := by
    simp only [Kmem.advance, here, if_neg any]
  refine .head (.advance t (release _ s.ram.freelist (Kmem.goto_pc _) any)) ?_
  simp only [Kmem.release, Kmem.goto, Kmem.setRam, Function.update_idem, ← unlocked]
  exact .refl

/-- A `kalloc` that nothing interrupts. -/
theorem kalloc_alone (idle : s.pc t = .outside) (unlocked : s.lock = none) (any : s.ram.freelist ≠ 0) :
    Relation.ReflTransGen Step s
      { s with ram := s.ram.handedOut, held := insert s.ram.freelist s.held } := by
  refine (pop_alone idle unlocked any).trans ((memset_steps (.filling s.ram.freelist) 5 s.ram.freelist
    PGSIZE fun u k more here => by
      simp only [Kmem.advance, here, if_pos more]).tail (.advance t ?_))
  have full (u : Kmem) (here : u.pc t = .filling s.ram.freelist PGSIZE) :
      u.advance t = some { u.goto t .outside with held := insert s.ram.freelist u.held } := by
    simp only [Kmem.advance, here, if_neg (Nat.lt_irrefl PGSIZE)]
  rw [full _ (Kmem.goto_pc _), Kmem.goto_goto]
  have done := Kmem.goto_same (s := { s with
    ram := s.ram.handedOut
    held := insert s.ram.freelist s.held }) idle
  rw [← done]
  simp only [Kmem.goto, Kmem.setRam, Ram.setMem, Ram.handedOut]
  rfl

end AvxKernel.Kalloc
