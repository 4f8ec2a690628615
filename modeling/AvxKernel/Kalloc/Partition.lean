import AvxKernel.Kalloc.Callers
import AvxKernel.Vm.Fill

/-! Every page that `kinit` has put in is in exactly one place: on the list, with an
owner, or with the one call that moves it. The list is read and written by the holder of
the lock, and its links are in pages that nobody else writes to. -/
namespace AvxKernel.Kalloc

open Vm

variable {s s' : Kmem} {t t' page kernel_end : Nat} {free free' : List Nat} {held held' : Finset Nat}
  {pc : Nat → Pc} {pc' : Pc} {r : Ram}

/-- The pages that `freerange` puts in. -/
def InRange (kernel_end page : Nat) : Prop :=
  PGSIZE ∣ page ∧ kernel_end ≤ page ∧ page + PGSIZE ≤ RAMSTOP

/-- A page is with its owner, or on its way from or to the list. -/
def HandedOut (held : Finset Nat) (pc : Nat → Pc) (page : Nat) : Prop :=
  page ∈ held ∨ ∃ t, (pc t).page = some page

/-- Each page is in one place. -/
structure Parts (kernel_end : Nat) (free : List Nat) (held : Finset Nat) (pc : Nat → Pc) : Prop where
  nodup : free.Nodup
  range : ∀ page, InRange kernel_end page ↔ page ∈ free ∨ HandedOut held pc page
  apart : ∀ page ∈ free, ¬HandedOut held pc page
  mine : ∀ t page, (pc t).page = some page → page ∉ held
  once : ∀ t t' page, (pc t).page = some page → (pc t').page = some page → t = t'

theorem handedOut_iff (t : Nat) : HandedOut held pc page ↔
    page ∈ held ∨ (pc t).page = some page ∨ ∃ t', t' ≠ t ∧ (pc t').page = some page := by
  constructor
  · rintro (h | ⟨t', h⟩)
    · exact .inl h
    · by_cases same : t' = t
      · exact .inr (.inl (same ▸ h))
      · exact .inr (.inr ⟨t', same, h⟩)
  · rintro (h | h | ⟨t', -, h⟩)
    · exact .inl h
    · exact .inr ⟨t, h⟩
    · exact .inr ⟨t', h⟩

theorem handedOut_update : HandedOut held (Function.update pc t pc') page ↔
    page ∈ held ∨ pc'.page = some page ∨ ∃ t', t' ≠ t ∧ (pc t').page = some page := by
  rw [handedOut_iff t, Function.update_self]
  refine or_congr_right (or_congr_right (exists_congr fun t' => and_congr_right fun ne => ?_))
  rw [Function.update_of_ne ne]

/-- A call moves pages between the list, itself and its caller. -/
theorem Parts.move (parts : Parts kernel_end free held pc) (nodup : free'.Nodup)
    (same : ∀ page, page ∈ free' ∨ page ∈ held' ∨ pc'.page = some page ↔
      page ∈ free ∨ page ∈ held ∨ (pc t).page = some page)
    (apart : ∀ page ∈ free', page ∉ held' ∧ pc'.page ≠ some page)
    (mine : ∀ page, pc'.page = some page → page ∉ held') :
    Parts kernel_end free' held' (Function.update pc t pc') := by
  -- the pages of the other calls are none of these
  have others (t' page : Nat) (ne : t' ≠ t) (h : (pc t').page = some page) :
      ¬(page ∈ free' ∨ page ∈ held' ∨ pc'.page = some page) := by
    rw [same]
    rintro (mem | mem | mem)
    · exact parts.apart page mem (.inr ⟨t', h⟩)
    · exact parts.mine t' page h mem
    · exact ne (parts.once t' t page h mem)
  refine ⟨nodup, fun page => ?_, fun page mem => ?_, fun t' page => ?_, fun a b page => ?_⟩
  · rw [parts.range, handedOut_iff t, handedOut_update]
    have these := same page
    constructor
    · rintro (mem | held | here | other)
      · exact (these.mpr (.inl mem)).imp_right fun h => h.imp_right .inl
      · exact (these.mpr (.inr (.inl held))).imp_right fun h => h.imp_right .inl
      · exact (these.mpr (.inr (.inr here))).imp_right fun h => h.imp_right .inl
      · exact .inr (.inr (.inr other))
    · rintro (mem | held | here | other)
      · exact (these.mp (.inl mem)).imp_right fun h => h.imp_right .inl
      · exact (these.mp (.inr (.inl held))).imp_right fun h => h.imp_right .inl
      · exact (these.mp (.inr (.inr here))).imp_right fun h => h.imp_right .inl
      · exact .inr (.inr (.inr other))
  · rw [handedOut_update]
    rintro (h | h | ⟨t', ne, h⟩)
    · exact (apart page mem).1 h
    · exact (apart page mem).2 h
    · exact others t' page ne h (.inl mem)
  · by_cases eq : t' = t
    · subst eq
      rw [Function.update_self]
      exact mine page
    · rw [Function.update_of_ne eq]
      exact fun h mem => others t' page eq h (.inr (.inl mem))
  · by_cases ha : a = t <;> by_cases hb : b = t
    · exact fun _ _ => ha.trans hb.symm
    · subst ha
      rw [Function.update_self, Function.update_of_ne hb]
      exact fun h k => absurd (.inr (.inr h)) (others b page hb k)
    · subst hb
      rw [Function.update_self, Function.update_of_ne ha]
      exact fun h k => absurd (.inr (.inr k)) (others a page ha h)
    · rw [Function.update_of_ne ha, Function.update_of_ne hb]
      exact parts.once a b page

/-- A call goes on with the page that it has. -/
theorem Parts.keep (parts : Parts kernel_end free held pc) (same : pc'.page = (pc t).page) :
    Parts kernel_end free held (Function.update pc t pc') := by
  refine parts.move parts.nodup (fun page => by rw [same]) (fun page mem => ?_) (fun page h => ?_)
  · have away := parts.apart page mem
    exact ⟨fun h => away (.inl h), fun h => away (.inr ⟨t, same ▸ h⟩)⟩
  · exact parts.mine t page (same ▸ h)

/-! ### The invariant -/

/-- By how much `npage` is behind, between the two assignments of `kfree`. -/
def Pc.behind : Pc → Nat
  | .counting => 1
  | _ => 0

/-- By how much `npage` is ahead, between the two assignments of `kalloc`. -/
def Pc.ahead : Pc → Nat
  | .uncounting _ => 1
  | _ => 0

/-- What a call has read or written stands. -/
def Pc.Seen (ram : Ram) (free : List Nat) : Pc → Prop
  | .pushing pa => ram.mem.fetch pa 8 = ram.freelist
  | .popping r => r = ram.freelist
  | .took r => r = 0 → free = []
  | .panicked => False
  | _ => True

structure Inv (s : Kmem) (free : List Nat) : Prop where
  base : RAMBASE ≤ s.ram.kernel_end
  parts : Parts s.ram.kernel_end free s.held s.pc
  links : FreeList s.ram.mem s.ram.freelist free
  lock : ∀ t, (s.pc t).inside = true ↔ s.lock = some t
  quiet : s.lock = none → s.ram.npage = free.length
  count : ∀ t, s.lock = some t → s.ram.npage + (s.pc t).behind = free.length + (s.pc t).ahead
  seen : ∀ t, (s.pc t).Seen s.ram free

theorem InRange.usable (base : RAMBASE ≤ r.kernel_end) (h : InRange r.kernel_end page) : Usable r page := by
  obtain ⟨dvd, low, high⟩ := h
  have stop : RAMSTOP = RAMBASE + 0x8000000 := by decide
  have add : RAMBASE + (page - RAMBASE) = page := by omega
  have frame : Frame (RAMBASE + (page - RAMBASE)) :=
    frame_RAMBASE_add (by omega) (Nat.dvd_sub dvd (by decide))
  rw [add] at frame
  exact ⟨frame, low, by rw [PGSIZE] at high; omega⟩

theorem Pc.page_of_outside (ram : Ram) (free : List Nat) (out : pc'.inside = false) (quiet : pc' ≠ .panicked) :
    pc'.Seen ram free ∧ pc'.behind = 0 ∧ pc'.ahead = 0 := by
  cases pc' <;> simp_all [Pc.inside, Pc.Seen, Pc.behind, Pc.ahead]

theorem Pc.even (counted : pc' ≠ .counting) (uncounted : ∀ page, pc' ≠ .uncounting page) :
    pc'.behind = 0 ∧ pc'.ahead = 0 := by
  cases pc' <;> simp_all [Pc.behind, Pc.ahead]

theorem Pc.Seen.congr {mem : Memory} (seen : pc'.Seen r free)
    (kept : ∀ pa, pc'.page = some pa → ∀ i < PGSIZE, mem (pa + i) = r.mem (pa + i)) :
    pc'.Seen (r.setMem mem) free := by
  cases pc' with
  | pushing pa =>
    refine Eq.trans (Memory.fetch_congr fun i hi => kept pa rfl i ?_) seen
    rw [PGSIZE]
    omega
  | _ => exact seen

theorem advance_kernel_end (next : s.advance t = some s') :
    s'.ram.kernel_end = s.ram.kernel_end := by
  have written (mem : Memory) (pc : Pc) :
      ((s.setRam (s.ram.setMem mem)).goto t pc).ram.kernel_end = s.ram.kernel_end := rfl
  have listed (freelist : Nat) (allocated freed : List Nat) (pc : Pc) :
      ((s.setRam { s.ram with freelist, allocated, freed }).goto t pc).ram.kernel_end =
        s.ram.kernel_end := rfl
  have counted (npage : Nat) (pc : Pc) :
      ((s.setRam { s.ram with npage }).goto t pc).ram.kernel_end = s.ram.kernel_end := rfl
  cases here : s.pc t with
  | outside | panicked => simp [Kmem.advance, here] at next
  | counting | uncounting =>
    simp only [Kmem.advance, here, Option.some.injEq] at next
    rw [← next]
    exact counted _ _
  | freeing | allocating | measuring =>
    simp only [Kmem.advance, here, Kmem.acquire, Option.ite_none_right_eq_some, Option.some.injEq] at next
    rw [← next.2]
    rfl
  | junk | filling =>
    simp only [Kmem.advance, here] at next
    split at next
    · cases next
      exact written _ _
    · cases next
      rfl
  | popping =>
    simp only [Kmem.advance, here] at next
    split at next
    · cases next
      rfl
    · cases next
      exact listed _ _ _ _
  | linking =>
    simp only [Kmem.advance, here, Option.some.injEq] at next
    rw [← next]
    exact written _ _
  | pushing =>
    simp only [Kmem.advance, here, Option.some.injEq] at next
    rw [← next]
    exact listed _ _ _ _
  | _ =>
    simp only [Kmem.advance, here, Option.some.injEq] at next
    rw [← next]
    rfl

/-- No step moves the end of the kernel. -/
theorem kernel_end_run (steps : Relation.ReflTransGen Step s s') :
    s'.ram.kernel_end = s.ram.kernel_end := by
  induction steps with
  | refl => rfl
  | tail _ next ih =>
    refine Eq.trans ?_ ih
    cases next with
    | kfree t pa =>
      rw [Kmem.kfree]
      split <;> rfl
    | kalloc | freemem_amount | write => rfl
    | advance t next => exact advance_kernel_end next

section Inv

variable (inv : Inv s free)
include inv

theorem Inv.usable (h : page ∈ free ∨ HandedOut s.held s.pc page) : Usable s.ram page :=
  ((inv.parts.range page).mpr h).usable inv.base

theorem Inv.alone (mine : s.lock = some t) (ne : t' ≠ t) : (s.pc t').inside = false := by
  by_contra inside
  have held := (inv.lock t').mp (by simpa using inside)
  rw [mine] at held
  exact ne (Option.some.inj held).symm

/-- A step of a call that does not hold the lock: it writes to its own page at most. -/
theorem Inv.beside {mem : Memory} (out : (s.pc t).inside = false) (out' : pc'.inside = false)
    (quiet : pc' ≠ .panicked)
    (parts : Parts s.ram.kernel_end free held' (Function.update s.pc t pc'))
    (kept : ∀ page, (page ∈ free ∨ ∃ t', t' ≠ t ∧ (s.pc t').page = some page) → ∀ i < PGSIZE,
      mem (page + i) = s.ram.mem (page + i)) :
    Inv ⟨s.ram.setMem mem, s.lock, Function.update s.pc t pc', held'⟩ free where
  base := inv.base
  parts := parts
  links := inv.links.congr fun page mem => kept page (.inl mem)
  lock t' := by
    dsimp only
    by_cases same : t' = t
    · subst same
      have none := inv.lock t'
      rw [out] at none
      simpa [out'] using none
    · rw [Function.update_of_ne same]
      exact inv.lock t'
  quiet := inv.quiet
  count t' holds := by
    dsimp only at holds ⊢
    have inside := (inv.lock t').mpr holds
    by_cases same : t' = t
    · subst same
      rw [out] at inside
      cases inside
    · rw [Function.update_of_ne same]
      exact inv.count t' holds
  seen t' := by
    dsimp only
    by_cases same : t' = t
    · subst same
      rw [Function.update_self]
      exact (Pc.page_of_outside _ _ out' quiet).1
    · rw [Function.update_of_ne same]
      exact (inv.seen t').congr fun pa here => kept pa (.inr ⟨t', same, here⟩)

/-- The lock is taken. -/
theorem Inv.acquire (free_lock : s.lock = none) (inside : pc'.inside = true)
    (same : pc'.page = (s.pc t).page) (even : pc'.behind = 0 ∧ pc'.ahead = 0)
    (seen : pc'.Seen s.ram free) : Inv { s.goto t pc' with lock := some t } free where
  base := inv.base
  parts := inv.parts.keep same
  links := inv.links
  lock t' := by
    simp only [Kmem.goto]
    by_cases same : t' = t
    · subst same
      simp [inside]
    · rw [Function.update_of_ne same, inv.lock t', free_lock]
      simp [Ne.symm same]
  quiet := nofun
  count t' holds := by
    cases holds
    simp only [Kmem.goto, Function.update_self, even.1, even.2]
    exact inv.quiet free_lock
  seen t' := by
    simp only [Kmem.goto]
    by_cases same : t' = t
    · subst same
      rw [Function.update_self]
      exact seen
    · rw [Function.update_of_ne same]
      exact inv.seen t'

/-- A step of the call that holds the lock. -/
theorem Inv.holding {ram : Ram} {lock : Option Nat} (mine : s.lock = some t)
    (same : ram.kernel_end = s.ram.kernel_end)
    (parts : Parts s.ram.kernel_end free' s.held (Function.update s.pc t pc'))
    (links : FreeList ram.mem ram.freelist free')
    (held : lock = if pc'.inside then some t else none)
    (count : ram.npage + pc'.behind = free'.length + pc'.ahead) (seen : pc'.Seen ram free')
    (quiet : pc' ≠ .panicked) :
    Inv ⟨ram, lock, Function.update s.pc t pc', s.held⟩ free' where
  base := same ▸ inv.base
  parts := same ▸ parts
  links := links
  lock t' := by
    dsimp only
    by_cases eq : t' = t
    · subst eq
      rw [Function.update_self, held]
      split <;> simp_all
    · rw [Function.update_of_ne eq, inv.alone mine eq, held]
      split
      · simp [Ne.symm eq]
      · simp
  quiet none := by
    dsimp only at none ⊢
    have out : pc'.inside = false := by
      by_contra inside
      rw [held, if_pos (by simpa using inside)] at none
      cases none
    obtain ⟨-, behind, ahead⟩ := Pc.page_of_outside ram free' out quiet
    rw [behind, ahead] at count
    exact count
  count t' holds := by
    dsimp only at holds ⊢
    rw [held] at holds
    split at holds
    · cases holds
      rw [Function.update_self]
      exact count
    · cases holds
  seen t' := by
    dsimp only
    by_cases eq : t' = t
    · subst eq
      rw [Function.update_self]
      exact seen
    · rw [Function.update_of_ne eq]
      have others := inv.seen t'
      refine (Pc.page_of_outside _ _ (inv.alone mine eq) fun bad => ?_).1
      rw [bad] at others
      exact others

/-- A page on the list or with another call is not the page of a call. -/
theorem Inv.distinct {pa : Nat} (mine : (s.pc t).page = some pa)
    (other : page ∈ free ∨ ∃ t', t' ≠ t ∧ (s.pc t').page = some page) : page ≠ pa := by
  rintro rfl
  rcases other with mem | ⟨t', ne, h⟩
  · exact inv.parts.apart page mem (.inr ⟨t, mine⟩)
  · exact ne (inv.parts.once t' t page h mine)

/-- `memset` leaves the other pages as they are. -/
theorem Inv.put_kept {pa k c : Nat} (mine : (s.pc t).page = some pa) (hk : k < PGSIZE)
    (other : page ∈ free ∨ ∃ t', t' ≠ t ∧ (s.pc t').page = some page) (i : Nat) (hi : i < PGSIZE) :
    (s.ram.mem.fill (pa + k) 1 (UInt8.ofNat c)) (page + i) = s.ram.mem (page + i) := by
  have hpa : Frame pa := (inv.usable (.inr (.inr ⟨t, mine⟩))).frame
  have hpage : Frame page := by
    refine (inv.usable ?_).frame
    exact other.imp_right fun ⟨t', _, h⟩ => .inr ⟨t', h⟩
  have apart := hpa.apart hpage (inv.distinct mine other).symm
  exact Memory.fill_outside _ (by omega)

theorem Inv.freelist_lt : s.ram.freelist < 2 ^ 64 :=
  inv.links.lt fun _ mem => (inv.usable (.inl mem)).frame

theorem Inv.few : free.length ≤ 2 ^ 20 :=
  length_of_usable inv.parts.nodup fun _ mem => inv.usable (.inl mem)

/-- The steps of `kfree` under the lock. -/
theorem Inv.linking {pa : Nat} (here : s.pc t = .linking pa) :
    Inv ((s.setRam (s.ram.setMem (s.ram.mem.store pa 8 s.ram.freelist))).goto t (.pushing pa)) free := by
  have mine : s.lock = some t := (inv.lock t).mp (by rw [here]; rfl)
  have has : (s.pc t).page = some pa := by rw [here]; rfl
  have frame : Frame pa := (inv.usable (.inr (.inr ⟨t, has⟩))).frame
  have count := inv.count t mine
  rw [here] at count
  refine inv.holding mine rfl (inv.parts.keep (by rw [here]; rfl)) ?_ mine count ?_ nofun
  · refine inv.links.congr fun page mem i hi => Memory.store_outside _ ?_
    have apart := frame.apart (inv.usable (.inl mem)).frame (inv.distinct has (.inl mem)).symm
    rw [PGSIZE] at hi apart
    omega
  · exact Memory.fetch_store_same _ inv.freelist_lt

theorem Inv.pushing {pa : Nat} (here : s.pc t = .pushing pa) :
    Inv ((s.setRam { s.ram with freelist := pa, freed := pa :: s.ram.freed }).goto t .counting)
      (pa :: free) := by
  have mine : s.lock = some t := (inv.lock t).mp (by rw [here]; rfl)
  have has : (s.pc t).page = some pa := by rw [here]; rfl
  have seen : s.ram.mem.fetch pa 8 = s.ram.freelist := by
    have seen := inv.seen t
    rwa [here] at seen
  have fresh : pa ∉ free := fun mem => inv.parts.apart pa mem (.inr ⟨t, has⟩)
  have count := inv.count t mine
  rw [here] at count
  have links : FreeList s.ram.mem (s.ram.mem.fetch pa 8) free := by
    rw [seen]
    exact inv.links
  refine inv.holding mine rfl ?_ ⟨rfl, links⟩ mine ?_ trivial nofun
  · refine inv.parts.move (List.nodup_cons.mpr ⟨fresh, inv.parts.nodup⟩) (fun page => ?_)
      (fun page mem => ⟨?_, nofun⟩) nofun
    · constructor
      · rintro (mem | held | no)
        · rcases List.mem_cons.mp mem with rfl | mem
          · exact .inr (.inr has)
          · exact .inl mem
        · exact .inr (.inl held)
        · cases no
      · rintro (mem | held | eq)
        · exact .inl (List.mem_cons_of_mem _ mem)
        · exact .inr (.inl held)
        · cases has.symm.trans eq
          exact .inl List.mem_cons_self
    · rcases List.mem_cons.mp mem with rfl | mem
      · exact inv.parts.mine t page has
      · exact fun held => inv.parts.apart page mem (.inl held)
  · have even : s.ram.npage = free.length := count
    exact congrArg (· + 1) even

theorem Inv.counting (here : s.pc t = .counting) :
    Inv ((s.setRam { s.ram with npage := u64 (s.ram.npage + 1) }).goto t .freed) free := by
  have mine : s.lock = some t := (inv.lock t).mp (by rw [here]; rfl)
  have count := inv.count t mine
  rw [here] at count
  have more : s.ram.npage + 1 = free.length := count
  have few := inv.few
  have exact : u64 (s.ram.npage + 1) = free.length := by
    rw [more]
    exact Nat.mod_eq_of_lt (by omega)
  exact inv.holding mine rfl (inv.parts.keep (by rw [here]; rfl)) inv.links mine exact trivial nofun

/-- The steps of `kalloc` under the lock. -/
theorem Inv.reading (here : s.pc t = .reading) : Inv (s.goto t (.popping s.ram.freelist)) free := by
  have mine : s.lock = some t := (inv.lock t).mp (by rw [here]; rfl)
  have count := inv.count t mine
  rw [here] at count
  exact inv.holding mine rfl (inv.parts.keep (by rw [here]; rfl)) inv.links mine count rfl nofun

theorem Inv.popping_none (here : s.pc t = .popping 0) : Inv (s.goto t (.took 0)) free := by
  have mine : s.lock = some t := (inv.lock t).mp (by rw [here]; rfl)
  have count := inv.count t mine
  have seen := inv.seen t
  rw [here] at count seen
  have links := inv.links
  rw [← show 0 = s.ram.freelist from seen] at links
  have empty : free = [] := by
    cases free with
    | nil => rfl
    | cons first rest =>
      have usable : Usable s.ram first := inv.usable (.inl (by simp))
      have pos := usable.frame.pos
      have zero : 0 = first := links.1
      omega
  exact inv.holding mine rfl (inv.parts.keep (by rw [here]; rfl)) inv.links mine count (fun _ => empty) nofun

theorem Inv.popping {r : Nat} (here : s.pc t = .popping r) (any : r ≠ 0) : ∃ rest,
    Inv ((s.setRam { s.ram with
      freelist := s.ram.mem.fetch r 8
      allocated := r :: s.ram.allocated }).goto t (.uncounting r)) rest := by
  have mine : s.lock = some t := (inv.lock t).mp (by rw [here]; rfl)
  have count := inv.count t mine
  have seen := inv.seen t
  rw [here] at count seen
  have head : r = s.ram.freelist := seen
  have links := inv.links
  rw [← head] at links
  have parts := inv.parts
  cases free with
  | nil => exact absurd links any
  | cons first rest =>
    obtain ⟨rfl, links⟩ := links
    have nodup := List.nodup_cons.mp parts.nodup
    have has : (s.pc t).page = none := by rw [here]; rfl
    have moved : Parts s.ram.kernel_end rest s.held (Function.update s.pc t (.uncounting r)) := by
      refine parts.move nodup.2 (fun page => ?_) (fun page mem => ⟨fun held => ?_, fun eq => ?_⟩)
        fun page eq held => ?_
      · rw [has]
        simp only [Pc.page_uncounting, List.mem_cons, Option.some.injEq, reduceCtorEq]
        constructor
        · rintro (mem | held | eq)
          · exact .inl (.inr mem)
          · exact .inr (.inl held)
          · exact .inl (.inl eq.symm)
        · rintro ((eq | mem) | held | no)
          · exact .inr (.inr eq.symm)
          · exact .inl mem
          · exact .inr (.inl held)
          · cases no
      · exact parts.apart page (List.mem_cons_of_mem _ mem) (.inl held)
      · have eq : r = page := Option.some.inj eq
        rw [eq] at nodup
        exact nodup.1 mem
      · have eq : r = page := Option.some.inj eq
        rw [← eq] at held
        exact parts.apart r List.mem_cons_self (.inl held)
    generalize s.ram.mem.fetch r 8 = next at links ⊢
    refine ⟨rest, ?_⟩
    exact inv.holding mine rfl moved links mine count trivial nofun

theorem Inv.uncounting {r : Nat} (here : s.pc t = .uncounting r) :
    Inv ((s.setRam { s.ram with npage := u64 (s.ram.npage + (2 ^ 64 - 1)) }).goto t (.took r)) free := by
  have mine : s.lock = some t := (inv.lock t).mp (by rw [here]; rfl)
  have has : (s.pc t).page = some r := by rw [here]; rfl
  have pos := (inv.usable (.inr (.inr ⟨t, has⟩))).frame.pos
  have count := inv.count t mine
  rw [here] at count
  have less : s.ram.npage = free.length + 1 := count
  have few := inv.few
  have exact : u64 (s.ram.npage + (2 ^ 64 - 1)) = free.length := by
    have round : s.ram.npage + (2 ^ 64 - 1) = free.length + 2 ^ 64 := by omega
    rw [round, u64, Nat.add_mod_right]
    exact Nat.mod_eq_of_lt (by omega)
  have same : (Pc.took r).page = (s.pc t).page := by
    rw [has, Pc.page_took, if_neg (by omega)]
  have seen (ram : Ram) : (Pc.took r).Seen ram free := by
    intro zero
    omega
  rw [exact]
  exact inv.holding mine rfl (inv.parts.keep same) inv.links mine rfl (seen _) (by rintro ⟨⟩)

/-- The lock is released. -/
theorem Inv.release (inside : (s.pc t).inside = true) (even : (s.pc t).behind = 0 ∧ (s.pc t).ahead = 0)
    (out : pc'.inside = false) (same : pc'.page = (s.pc t).page) (quiet : pc' ≠ .panicked) :
    Inv (s.release t pc') free := by
  have mine : s.lock = some t := (inv.lock t).mp inside
  have count := inv.count t mine
  rw [even.1, even.2] at count
  obtain ⟨seen, behind, ahead⟩ := Pc.page_of_outside s.ram free out quiet
  refine inv.holding mine rfl (inv.parts.keep same) inv.links ?_ ?_ seen quiet
  · rw [out]
    rfl
  · rw [behind, ahead]
    exact count

/-- A call takes the page of its caller, or leaves it one. -/
theorem Inv.given {pa : Nat} (has : pa ∈ s.held) (idle : (s.pc t).page = none) :
    Parts s.ram.kernel_end free (s.held.erase pa) (Function.update s.pc t (.junk pa 0)) := by
  refine inv.parts.move inv.parts.nodup (fun page => ?_) (fun page mem => ⟨fun held => ?_, fun eq => ?_⟩)
    fun page eq held => ?_
  · rw [idle]
    simp only [Pc.page_junk, Finset.mem_erase, Option.some.injEq, reduceCtorEq, or_false]
    refine or_congr_right ?_
    constructor
    · rintro (⟨-, held⟩ | rfl)
      · exact held
      · exact has
    · intro held
      by_cases same : page = pa
      · exact .inr same.symm
      · exact .inl ⟨same, held⟩
  · exact inv.parts.apart page mem (.inl (Finset.mem_of_mem_erase held))
  · have eq : pa = page := Option.some.inj eq
    rw [eq] at has
    exact inv.parts.apart page mem (.inl has)
  · have eq : pa = page := Option.some.inj eq
    rw [eq] at held
    exact Finset.notMem_erase page _ held

theorem Inv.returned {r : Nat} (has : (s.pc t).page = some r) :
    Parts s.ram.kernel_end free (insert r s.held) (Function.update s.pc t .outside) := by
  refine inv.parts.move inv.parts.nodup (fun page => ?_) (fun page mem => ⟨fun held => ?_, nofun⟩) nofun
  · rw [has]
    simp only [Pc.page_outside, Finset.mem_insert, Option.some.injEq, reduceCtorEq, or_false]
    rw [or_comm (a := page = r), eq_comm]
  · rcases Finset.mem_insert.mp held with rfl | held
    · exact inv.parts.apart page mem (.inr ⟨t, has⟩)
    · exact inv.parts.apart page mem (.inl held)

/-- One byte of `memset`, outside of the lock. -/
theorem Inv.put {pa k c : Nat} (out : (s.pc t).inside = false) (has : (s.pc t).page = some pa)
    (hk : k < PGSIZE) (out' : pc'.inside = false) (same : pc'.page = some pa) :
    Inv ((s.put (pa + k) c).goto t pc') free := by
  have quiet : pc' ≠ .panicked := by
    rintro rfl
    cases same
  exact inv.beside out out' quiet (inv.parts.keep (same.trans has.symm)) fun page => inv.put_kept has hk

/-- A step outside of the lock that leaves memory as it is. -/
theorem Inv.goto (out : (s.pc t).inside = false) (out' : pc'.inside = false) (quiet : pc' ≠ .panicked)
    (parts : Parts s.ram.kernel_end free held' (Function.update s.pc t pc')) :
    Inv { s.goto t pc' with held := held' } free :=
  inv.beside out out' quiet parts fun _ _ _ _ => rfl

theorem Inv.advance (next : s.advance t = some s') : ∃ free', Inv s' free' := by
  cases here : s.pc t with
  | outside | panicked => simp [Kmem.advance, here] at next
  | junk pa k =>
    have has : (s.pc t).page = some pa := by rw [here]; rfl
    have out : (s.pc t).inside = false := by rw [here]; rfl
    simp only [Kmem.advance, here] at next
    split at next
    · next hk =>
      cases next
      exact ⟨free, inv.put out has hk rfl rfl⟩
    · cases next
      exact ⟨free, inv.goto out rfl (by rintro ⟨⟩) (inv.parts.keep has.symm)⟩
  | freeing pa =>
    have same : (Pc.linking pa).page = (s.pc t).page := by rw [here]; rfl
    simp only [Kmem.advance, here, Kmem.acquire, Option.ite_none_right_eq_some, Option.some.injEq] at next
    obtain ⟨lock, rfl⟩ := next
    exact ⟨free, inv.acquire lock rfl same ⟨rfl, rfl⟩ trivial⟩
  | linking pa =>
    simp only [Kmem.advance, here, Option.some.injEq] at next
    exact ⟨free, next ▸ inv.linking here⟩
  | pushing pa =>
    simp only [Kmem.advance, here, Option.some.injEq] at next
    exact ⟨pa :: free, next ▸ inv.pushing here⟩
  | counting =>
    simp only [Kmem.advance, here, Option.some.injEq] at next
    exact ⟨free, next ▸ inv.counting here⟩
  | freed =>
    simp only [Kmem.advance, here, Option.some.injEq] at next
    refine ⟨free, next ▸ inv.release ?_ ?_ rfl ?_ (by rintro ⟨⟩)⟩ <;> rw [here]
    · rfl
    · exact ⟨rfl, rfl⟩
    · rfl
  | allocating =>
    have same : Pc.reading.page = (s.pc t).page := by rw [here]; rfl
    simp only [Kmem.advance, here, Kmem.acquire, Option.ite_none_right_eq_some, Option.some.injEq] at next
    obtain ⟨lock, rfl⟩ := next
    exact ⟨free, inv.acquire lock rfl same ⟨rfl, rfl⟩ trivial⟩
  | reading =>
    simp only [Kmem.advance, here, Option.some.injEq] at next
    exact ⟨free, next ▸ inv.reading here⟩
  | popping r =>
    simp only [Kmem.advance, here] at next
    split at next
    · next zero =>
      subst zero
      cases next
      exact ⟨free, inv.popping_none here⟩
    · next any =>
      obtain ⟨rest, popped⟩ := inv.popping here any
      cases next
      exact ⟨rest, popped⟩
  | uncounting r =>
    simp only [Kmem.advance, here, Option.some.injEq] at next
    exact ⟨free, next ▸ inv.uncounting here⟩
  | took r =>
    simp only [Kmem.advance, here, Option.some.injEq] at next
    refine ⟨free, next ▸ inv.release ?_ ?_ ?_ ?_ ?_⟩
    · rw [here]
      rfl
    · rw [here]
      exact ⟨rfl, rfl⟩
    · split <;> rfl
    · rw [here, Pc.page_took]
      split <;> rfl
    · split <;> rintro ⟨⟩
  | filling r k =>
    have has : (s.pc t).page = some r := by rw [here]; rfl
    have out : (s.pc t).inside = false := by rw [here]; rfl
    simp only [Kmem.advance, here] at next
    split at next
    · next hk =>
      cases next
      exact ⟨free, inv.put out has hk rfl rfl⟩
    · cases next
      exact ⟨free, inv.goto out rfl (by rintro ⟨⟩) (inv.returned has)⟩
  | measuring =>
    have same : Pc.amount.page = (s.pc t).page := by rw [here]; rfl
    simp only [Kmem.advance, here, Kmem.acquire, Option.ite_none_right_eq_some, Option.some.injEq] at next
    obtain ⟨lock, rfl⟩ := next
    exact ⟨free, inv.acquire lock rfl same ⟨rfl, rfl⟩ trivial⟩
  | amount =>
    have mine : s.lock = some t := (inv.lock t).mp (by rw [here]; rfl)
    have same : (Pc.measured (s.ram.npage <<< 12)).page = (s.pc t).page := by rw [here]; rfl
    have count := inv.count t mine
    rw [here] at count
    simp only [Kmem.advance, here, Option.some.injEq] at next
    exact ⟨free, next ▸ inv.holding mine rfl (inv.parts.keep same) inv.links mine count trivial (by rintro ⟨⟩)⟩
  | measured amount =>
    simp only [Kmem.advance, here, Option.some.injEq] at next
    refine ⟨free, next ▸ inv.release ?_ ?_ rfl ?_ (by rintro ⟨⟩)⟩ <;> rw [here]
    · rfl
    · exact ⟨rfl, rfl⟩
    · rfl

/-- What is freed is a page that the allocator has handed out, so that `kfree` takes it. -/
theorem Inv.kfree {pa : Nat} (idle : s.pc t = .outside) (has : pa ∈ s.held) : Inv (s.kfree t pa) free := by
  have out : (s.pc t).inside = false := by rw [idle]; rfl
  have usable := inv.usable (.inr (.inl has))
  have aligned : pa % PGSIZE = 0 := Nat.mod_eq_zero_of_dvd usable.frame.dvd
  have low := usable.low
  have high := usable.high
  rw [Kmem.kfree, if_neg (by omega)]
  exact inv.goto out rfl (by rintro ⟨⟩) (inv.given has (by rw [idle]; rfl))

/-- The owners of pages write to nothing that the list or a call relies on. -/
theorem Inv.write {mem : Memory} (own : ∀ a, ¬s.Writable a → mem a = s.ram.mem a) :
    Inv (s.setRam (s.ram.setMem mem)) free := by
  have kept (page : Nat) (usable : Usable s.ram page) (away : page ∉ s.held) (i : Nat)
      (hi : i < PGSIZE) : mem (page + i) = s.ram.mem (page + i) := by
    have low := usable.low
    have high := usable.high
    refine own _ ?_
    rintro (below | above | ⟨other, held, inside⟩)
    · omega
    · have dvd : PGSIZE ∣ RAMSTOP - page := Nat.dvd_sub (by decide) usable.frame.dvd
      have full := Nat.le_of_dvd (by omega) dvd
      omega
    · have frame := (inv.usable (.inr (.inl held))).frame
      have apart := usable.frame.apart frame fun same => away (same ▸ held)
      omega
  refine ⟨inv.base, inv.parts, ?_, inv.lock, inv.quiet, inv.count, fun t => ?_⟩
  · exact inv.links.congr fun page mem => kept page (inv.usable (.inl mem)) fun held =>
      inv.parts.apart page mem (.inl held)
  · exact (inv.seen t).congr fun pa has => kept pa (inv.usable (.inr (.inr ⟨t, has⟩)))
      (inv.parts.mine t pa has)

theorem Inv.step (next : Step s s') : ∃ free', Inv s' free' := by
  cases next with
  | kfree t pa idle mine => exact ⟨free, inv.kfree idle mine⟩
  | kalloc t idle =>
    have out : (s.pc t).inside = false := by rw [idle]; rfl
    exact ⟨free, inv.goto out rfl nofun (inv.parts.keep (by rw [idle]; rfl))⟩
  | freemem_amount t idle =>
    have out : (s.pc t).inside = false := by rw [idle]; rfl
    exact ⟨free, inv.goto out rfl nofun (inv.parts.keep (by rw [idle]; rfl))⟩
  | advance t next => exact inv.advance next
  | write mem own => exact ⟨free, inv.write own⟩

theorem Inv.run (steps : Relation.ReflTransGen Step s s') : ∃ free', Inv s' free' := by
  induction steps with
  | refl => exact ⟨free, inv⟩
  | tail _ next ih =>
    obtain ⟨between, inv⟩ := ih
    exact inv.step next

end Inv

/-! ### What `kinit` puts in -/

/-- The list holds just the pages of the range that satisfy a condition. -/
structure Listed (s : Ram) (free : List Nat) (P : Nat → Prop) : Prop where
  base : RAMBASE ≤ s.kernel_end
  links : FreeList s.mem s.freelist free
  nodup : free.Nodup
  count : s.npage = free.length
  pages : ∀ page, page ∈ free ↔ InRange s.kernel_end page ∧ P page

namespace Listed

variable {P Q : Nat → Prop} (listed : Listed r free P)
include listed

theorem congr (same : ∀ page, InRange r.kernel_end page → (P page ↔ Q page)) : Listed r free Q where
  base := listed.base
  links := listed.links
  nodup := listed.nodup
  count := listed.count
  pages page := (listed.pages page).trans (and_congr_right fun h => same page h)

theorem usable (page : Nat) (mem : page ∈ free) : Usable r page :=
  ((listed.pages page).mp mem).1.usable listed.base

theorem givenBack (range : InRange r.kernel_end page) (fresh : ¬P page) :
    Listed (r.givenBack page) (page :: free) fun x => x = page ∨ P x := by
  have new : page ∉ free := fun mem => fresh ((listed.pages page).mp mem).2
  have usable : ∀ other ∈ page :: free, Usable r other := by
    intro other mem
    rcases List.mem_cons.mp mem with rfl | mem
    · exact range.usable listed.base
    · exact listed.usable other mem
  have few := length_of_usable listed.nodup listed.usable
  refine ⟨listed.base, listed.links.givenBack usable new, List.nodup_cons.mpr ⟨new, listed.nodup⟩, ?_,
    fun x => ?_⟩
  · have room : r.npage + 1 < 2 ^ 64 := by
      rw [listed.count]
      omega
    exact (Nat.mod_eq_of_lt room).trans (congrArg (· + 1) listed.count)
  · rw [List.mem_cons, listed.pages x]
    constructor
    · rintro (rfl | ⟨inside, h⟩)
      · exact ⟨range, .inl rfl⟩
      · exact ⟨inside, .inr h⟩
    · rintro ⟨inside, rfl | h⟩
      · exact .inl rfl
      · exact .inr ⟨inside, h⟩

theorem start (all : ∀ page, P page) : Inv (start r) free where
  base := listed.base
  parts := {
    nodup := listed.nodup
    range := fun page => by
      rw [listed.pages page]
      constructor
      · exact fun h => .inl ⟨h, all page⟩
      · rintro (⟨h, -⟩ | held | ⟨t, h⟩)
        · exact h
        · cases held
        · cases h
    apart := fun page mem => by
      rintro (held | ⟨t, h⟩)
      · cases held
      · cases h
    mine := nofun
    once := nofun }
  links := listed.links
  lock _ := ⟨nofun, nofun⟩
  quiet _ := listed.count
  count := nofun
  seen _ := trivial

end Listed

/-- One round of `freerange` for each page that is left, and one that ends the loop. -/
theorem freerange_rounds (limit : Nat) {p : Nat} (listed : Listed r free (· < p)) (aligned : PGSIZE ∣ p)
    (low : r.kernel_end ≤ p) (room : RAMSTOP < p + (limit + 1) * PGSIZE) : ∃ r' free',
    Machine.loop (fun p => do
      if p + PGSIZE ≤ RAMSTOP then
        Vm.kfree p
        return .inl (p + PGSIZE)
      else
        return .inr ()) (limit + 1) p r = .ok ((), r') ∧
      r'.kernel_end = r.kernel_end ∧ Listed r' free' fun _ => True := by
  induction limit generalizing r free p with
  | zero =>
    rw [Machine.loop, if_neg (by omega)]
    refine ⟨r, free, rfl, rfl, listed.congr fun page range => iff_true_intro ?_⟩
    have high := range.2.2
    omega
  | succ limit ih =>
    rw [Machine.loop]
    by_cases more : p + PGSIZE ≤ RAMSTOP
    · have range : InRange r.kernel_end p := ⟨aligned, low, more⟩
      have next := (listed.givenBack range (Nat.lt_irrefl p)).congr (Q := (· < p + PGSIZE))
        fun page h => by
          constructor
          · rintro (rfl | below)
            · exact Nat.lt_add_of_pos_right (by decide)
            · exact Nat.lt_add_right _ below
          · intro below
            by_contra above
            have dvd : PGSIZE ∣ page - p := Nat.dvd_sub h.1 aligned
            have full := Nat.le_of_dvd (by omega) dvd
            omega
      obtain ⟨r', free', run, same, all⟩ := ih next (Nat.dvd_add aligned dvd_rfl)
        (Nat.le_trans low (Nat.le_add_right _ _)) (by rw [Nat.add_mul] at room; omega)
      refine ⟨r', free', ?_, same, all⟩
      rw [if_pos more, bind_assoc, Machine.bind_of_ok (kfree_run (range.usable listed.base)), pure_bind]
      exact run
    · rw [if_neg more]
      refine ⟨r, free, rfl, rfl, listed.congr fun page range => iff_true_intro ?_⟩
      have high := range.2.2
      omega

theorem kinit_listed (base : RAMBASE ≤ r.kernel_end) (fits : r.kernel_end ≤ RAMSTOP) : ∃ r' free,
    kinit r = .ok ((), r') ∧ r'.kernel_end = r.kernel_end ∧ Listed r' free fun _ => True := by
  have stop : RAMSTOP < 2 ^ 64 - PGSIZE := by decide
  have up : PGROUNDUP r.kernel_end = (r.kernel_end + PGSIZE - 1) / PGSIZE * PGSIZE := by
    rw [PGROUNDUP, u64, Nat.mod_eq_of_lt (by omega)]
  have low : r.kernel_end ≤ PGROUNDUP r.kernel_end := by
    rw [up, PGSIZE]
    omega
  have listed : Listed { r with freelist := 0, npage := 0 } [] (· < PGROUNDUP r.kernel_end) := by
    refine ⟨base, rfl, .nil, rfl, fun page => ⟨fun mem => absurd mem List.not_mem_nil, ?_⟩⟩
    rintro ⟨⟨⟨k, rfl⟩, above, -⟩, below⟩
    dsimp only at above
    rw [up, Nat.mul_comm PGSIZE] at below
    rw [PGSIZE] at above below
    omega
  obtain ⟨r', free, run, same, all⟩ := freerange_rounds PAGES listed (Nat.dvd_mul_left _ _)
    low (Nat.lt_of_lt_of_le (show RAMSTOP < (PAGES + 1) * PGSIZE by decide) (Nat.le_add_left _ _))
  refine ⟨r', free, ?_, same, all⟩
  rw [kinit, Machine.bind_of_ok (Machine.modify_run _ r), Machine.bind_of_ok (Machine.get_run _), freerange]
  generalize PAGES + 1 = limit at run ⊢
  exact run

/-- The pages that `kinit` puts in are, at any moment, on the list or handed out, each in
one place; `npage` counts the list but for the two assignments that it lies between; and
`kalloc` finds no page only when all of them are handed out. -/
theorem kinit_partition (base : RAMBASE ≤ r.kernel_end) (fits : r.kernel_end ≤ RAMSTOP) : ∃ booted,
    kinit r = .ok ((), booted) ∧ ∀ s, Reachable booted s → ∃ free,
      FreeList s.ram.mem s.ram.freelist free ∧ Parts r.kernel_end free s.held s.pc ∧
      ((∀ t, s.pc t ≠ .counting ∧ ∀ page, s.pc t ≠ .uncounting page) → s.ram.npage = free.length) ∧
      (∀ t, s.pc t = .took 0 → ∀ page, InRange r.kernel_end page → HandedOut s.held s.pc page) ∧
      ∀ t, s.pc t ≠ .panicked := by
  obtain ⟨booted, first, run, same, listed⟩ := kinit_listed base fits
  refine ⟨booted, run, fun s steps => ?_⟩
  obtain ⟨free, inv⟩ := (listed.start fun _ => trivial).run steps
  have kernel_end : s.ram.kernel_end = r.kernel_end := (kernel_end_run steps).trans same
  refine ⟨free, inv.links, kernel_end ▸ inv.parts, fun even => ?_, fun t here page range => ?_,
    fun t here => ?_⟩
  · cases lock : s.lock with
    | none => exact inv.quiet lock
    | some t =>
      have count := inv.count t lock
      rw [Pc.even (even t).1 (even t).2 |>.1, Pc.even (even t).1 (even t).2 |>.2] at count
      exact count
  · have seen := inv.seen t
    rw [here] at seen
    rw [← kernel_end, inv.parts.range, seen rfl] at range
    exact range.resolve_left List.not_mem_nil
  · have seen := inv.seen t
    rw [here] at seen
    exact seen

/-- A kernel that leaves two pages. -/
def twoPages : Ram := ⟨fun _ => 0, 0, 0, RAMSTOP - 2 * PGSIZE, [], [], []⟩

theorem kinit_partition_twoPages : ∃ booted,
    kinit twoPages = .ok ((), booted) ∧ ∀ s, Reachable booted s → ∃ free,
      FreeList s.ram.mem s.ram.freelist free ∧ Parts twoPages.kernel_end free s.held s.pc ∧
      ((∀ t, s.pc t ≠ .counting ∧ ∀ page, s.pc t ≠ .uncounting page) → s.ram.npage = free.length) ∧
      (∀ t, s.pc t = .took 0 →
        ∀ page, InRange twoPages.kernel_end page → HandedOut s.held s.pc page) ∧
      ∀ t, s.pc t ≠ .panicked :=
  kinit_partition (by decide) (by decide)

end AvxKernel.Kalloc
