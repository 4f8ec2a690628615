import AvxKernel.Ipc.PipeOrder
import AvxKernel.Vm.Containment

/-! `pipewrite` and `piperead` where the user's buffer is not all there. -/
namespace AvxKernel.Ipc

open Vm (MAXVA DMWIN_MASK)

/-- The pages that `walkaddr` lets through, by number, and the bytes that the addresses of
a process reach. -/
structure User where
  opens : Nat → Bool
  memory : Nat → UInt8
  killed : Bool

def User.reaches (pr : User) (va : Nat) : Bool := va < MAXVA && pr.opens (va / PGSIZE)

/-- `copyout` of one byte. -/
def copyout (pr : User) (dst : Nat) (ch : UInt8) : Except Halt (Int × User) :=
  if MAXVA < dst then
    .error (.panic "copyout: dstva > MAXVA")
  else if pr.reaches dst then
    .ok (0, { pr with memory := Function.update pr.memory dst ch })
  else
    .ok (-1, pr)

/-- `copyin` of one byte. -/
def copyin (pr : User) (src : Nat) : Except Halt (Int × UInt8) :=
  if MAXVA < src ∧ src &&& DMWIN_MASK ≠ 0 then
    .error (.panic "copyin: srcva > MAXVA & srcva is not in 0x9000(x)")
  else if pr.reaches src then
    .ok (0, pr.memory src)
  else
    .ok (-1, 0)

/-- `either_copyout(user, dst, &ch, 1)`; the kernel's own buffers are there. -/
def either_copyout (pr : User) (user : Bool) (dst : Nat) (ch : UInt8) : Except Halt (Int × User) :=
  if user then copyout pr dst ch else .ok (0, { pr with memory := Function.update pr.memory dst ch })

/-- `either_copyin(&ch, user, src, 1)` -/
def either_copyin (pr : User) (user : Bool) (src : Nat) : Except Halt (Int × UInt8) :=
  if user then copyin pr src else .ok (0, pr.memory src)

/-- The loop of `pipewrite` up to where it sleeps, with `more` bytes to go: the pipe, the
bytes put into it and the end. -/
def pipewriteLoop (pr : User) (user : Bool) (addr : Nat) (n : Int) :
    Nat → Nat → Pipe → Except Halt (Pipe × List UInt8 × End)
  | 0, i, pi => .ok (pi, [], .returned i)
  | more + 1, i, pi =>
    if pi.full then
      if pi.readopen = false ∨ pr.killed then
        .ok (pi, [], .failed)
      else
        .ok (pi, [], .asleep (.pipewrite addr n i))
    else do
      let (r, ch) ← either_copyin pr user (u64 (addr + i))
      if r = -1 then
        return (pi, [], .returned i)
      else
        let (pi, put, ending) ← pipewriteLoop pr user addr n more (i + 1) (pi.put ch)
        return (pi, ch :: put, ending)

/-- The loop `piperead-copy`, with `more` bytes to go: the pipe, the process, the bytes
taken and the number returned. -/
def pipereadLoop (user : Bool) (addr : Nat) :
    Nat → Nat → Pipe → User → Except Halt (Pipe × User × List UInt8 × Nat)
  | 0, i, pi, pr => .ok (pi, pr, [], i)
  | more + 1, i, pi, pr =>
    if pi.empty then
      .ok (pi, pr, [], i)
    else do
      let (ch, pi) := pi.take
      let (r, pr) ← either_copyout pr user (u64 (addr + i)) ch
      if r = -1 then
        return (pi, pr, [ch], i)
      else
        let (pi, pr, taken, i) ← pipereadLoop user addr more (i + 1) pi pr
        return (pi, pr, ch :: taken, i)

/-- A section of `piperead`: it waits, or it copies and returns. -/
def piperead (pr : User) (pi : Pipe) (user : Bool) (addr : Nat) (n : Int) :
    Except Halt (Pipe × User × List UInt8 × End) :=
  if pi.empty ∧ pi.writeopen then
    .ok (pi, pr, [], if pr.killed then .failed else .asleep (.piperead addr n))
  else do
    let (pi, pr, taken, i) ← pipereadLoop user addr n.toNat 0 pi pr
    return (pi, pr, taken, .returned i)

/-! ### The copies of one byte -/

section Copies

open Vm (Ram Tree Nodes OpenPage PROCVKSTACK mapped)

variable {s : Ram} {root src dst : Nat} {node : Nodes}

/-- The pages that are open are those of the table. -/
def User.Under (pr : User) (s : Ram) (root : Nat) : Prop :=
  ∀ va, pr.reaches va = true ↔ OpenPage s root va

/-- The loop of the copies, for one byte. -/
theorem copyPages_one (tree : Tree s.mem root node) {va kernel : Nat} (low : va &&& DMWIN_MASK = 0)
    {f : Nat → Nat → Nat → Machine Ram Unit}
    (moves : ∀ a t, mapped a = true → ∃ u, f kernel a 1 t = .ok ((), u)) :
    (∃ t, OpenPage s root va ∧ Vm.copyPages root f kernel va 1 s = .ok (0, t)) ∨
    ¬OpenPage s root va ∧ Vm.copyPages root f kernel va 1 s = .ok (-1, s) := by
  have base : Vm.PGROUNDDOWN va / PGSIZE = va / PGSIZE := Nat.mul_div_cancel _ (by decide)
  have same := Vm.openPage_congr_page (Vm.page_same_page tree base)
  obtain ⟨pa, run, found, opened⟩ := Vm.walkaddr_page tree ((Vm.window_PGROUNDDOWN va).trans low)
  rw [Vm.copyPages, if_neg (by decide), Machine.bind_of_ok run]
  by_cases isOpen : OpenPage s root va
  · obtain ⟨-, flags, page⟩ := opened (same.mpr isOpen)
    have offset : va - Vm.PGROUNDDOWN va = va % PGSIZE := by
      have := Nat.mod_add_div' va PGSIZE
      rw [Vm.PGROUNDDOWN]
      omega
    have small : va % PGSIZE < PGSIZE := Nat.mod_lt _ (by decide)
    obtain ⟨byte, there⟩ := Vm.frame_byte (Vm.page_frame page) small
    have one : min (PGSIZE - va % PGSIZE) 1 = 1 := by omega
    rw [if_neg (found.mpr (same.mpr isOpen))]
    simp only [offset, byte, one]
    rw [Machine.bind_of_ok (Vm.touch_run _ _ _ _)]
    obtain ⟨t, moved⟩ := moves _ _ there
    rw [Machine.bind_of_ok moved, Vm.copyPages, if_pos rfl]
    exact .inl ⟨t, isOpen, rfl⟩
  · rw [if_pos (by_contra fun some => isOpen (same.mp (found.mp some)))]
    exact .inr ⟨isOpen, rfl⟩

theorem memmove_one {a : Nat} (here : mapped src = true) (there : mapped a = true) (t : Ram) :
    ∃ u, Vm.memmove a src 1 t = .ok ((), u) :=
  ⟨_, Vm.memmove_run t (by decide) (fun i hi => by rwa [Nat.lt_one_iff.mp hi])
    fun i hi => by rwa [Nat.lt_one_iff.mp hi]⟩

/-- A byte goes out exactly where `copyout` of `vm.c` lets it, with the same result. -/
theorem copyout_agrees {pr : User} (tree : Tree s.mem root node) (under : pr.Under s root)
    (stack : PROCVKSTACK (NPROC - 1) ≤ src) (here : mapped src = true) (ch : UInt8) :
    (copyout pr dst ch).map Prod.fst = (Vm.copyout root dst src 1 s).map Prod.fst := by
  rw [copyout, Vm.copyout]
  by_cases high : MAXVA < dst
  · rw [if_pos high, if_pos high]
    rfl
  · rw [if_neg high, if_neg high, if_neg (Nat.not_lt.mpr stack)]
    rcases copyPages_one tree (Vm.window_of_le (Nat.not_lt.mp high))
      (f := fun src dst n => Vm.memmove dst src n) (fun a t there => memmove_one here there t) with
      ⟨t, isOpen, run⟩ | ⟨shut, run⟩
    · rw [run, if_pos ((under dst).mpr isOpen)]
      rfl
    · rw [run, if_neg fun reaches => shut ((under dst).mp reaches)]
      rfl

theorem copyin_agrees {pr : User} (tree : Tree s.mem root node) (under : pr.Under s root)
    (there : mapped dst = true) :
    (copyin pr src).map Prod.fst = (Vm.copyin root dst src 1 s).map Prod.fst := by
  rw [copyin, Vm.copyin]
  by_cases window : MAXVA < src ∧ src &&& DMWIN_MASK ≠ 0
  · rw [if_pos window, if_pos window]
    rfl
  · have clear : src &&& DMWIN_MASK = 0 := by
      by_contra set
      exact window ⟨by_contra fun low => set (Vm.window_of_le (Nat.not_lt.mp low)), set⟩
    rw [if_neg window, if_neg window]
    rcases copyPages_one tree clear (f := fun dst src n => Vm.memmove dst src n)
      (fun a t here => memmove_one here there t) with ⟨t, isOpen, run⟩ | ⟨shut, run⟩
    · rw [run, if_pos ((under src).mpr isOpen)]
      rfl
    · rw [run, if_neg fun reaches => shut ((under src).mp reaches)]
      rfl

end Copies

/-! ### What a pipe holds -/

variable {pi pi' : Pipe} {bytes : List UInt8} {pr pr' : User} {user : Bool} {addr more i f : Nat} {n : Int}

/-- The bytes that are in the pipe, in order. -/
def Pipe.Content (pi : Pipe) (bytes : List UInt8) : Prop := ∃ removed, pi.Holds removed (removed ++ bytes)

theorem Pipe.Content.count (h : pi.Content bytes) :
    (pi.nwrite.toNat + (2 ^ 32 - pi.nread.toNat)) % 2 ^ 32 = bytes.length := by
  obtain ⟨removed, holds⟩ := h
  have distance := holds.distance (by decide)
  rwa [List.length_append, Nat.add_sub_cancel_left] at distance

theorem Pipe.Content.nil (h : pi.Content []) : pi.empty = true := by
  obtain ⟨removed, holds⟩ := h
  by_contra more
  rw [Bool.not_eq_true] at more
  have left := holds.not_empty (Pipe.not_empty_iff.mp more)
  rw [List.append_nil] at left
  exact absurd left (Nat.lt_irrefl _)

theorem Pipe.Content.take {b : UInt8} (h : pi.Content (b :: bytes)) :
    pi.empty = false ∧ pi.take.1 = b ∧ pi.take.2.Content bytes := by
  have some_left : pi.empty = false := by
    by_contra none
    rw [Bool.not_eq_false] at none
    have same : pi.nread = pi.nwrite := by simpa [Pipe.empty] using none
    have count := h.count
    have narrow := UInt32.toNat_lt pi.nwrite
    rw [same, List.length_cons] at count
    omega
  obtain ⟨removed, holds⟩ := h
  have popped := holds.take some_left
  have order := popped.order
  rw [List.prefix_append_right_inj, List.cons_prefix_cons] at order
  obtain ⟨rfl, -⟩ := order
  refine ⟨some_left, rfl, removed ++ [pi.take.1], ?_⟩
  rwa [List.append_assoc]

theorem Pipe.Content.unique {bytes' : List UInt8} (h : pi.Content bytes) (h' : pi.Content bytes') :
    bytes.length = bytes'.length := h.count.symm.trans h'.count

/-! ### Reading -/

/-- Where the byte is stored. -/
def User.store (pr : User) (dst : Nat) (ch : UInt8) : User :=
  { pr with memory := Function.update pr.memory dst ch }

theorem User.reaches_lt {va : Nat} (there : pr.reaches va = true) : va < MAXVA := by
  rw [User.reaches, Bool.and_eq_true, decide_eq_true_eq] at there
  exact there.1

theorem either_copyout_reaches {dst : Nat} (reaches : user = true → pr.reaches dst = true) (ch : UInt8) :
    either_copyout pr user dst ch = .ok (0, pr.store dst ch) := by
  cases user with
  | false => rfl
  | true =>
    have low := User.reaches_lt (reaches rfl)
    rw [either_copyout, if_pos rfl, copyout, if_neg (Nat.not_lt.mpr (Nat.le_of_lt low)), if_pos (reaches rfl)]
    rfl

theorem either_copyout_faults {dst : Nat} (faults : pr.reaches dst = false) (ch : UInt8) :
    either_copyout pr true dst ch = .ok (-1, pr) ∨ ∃ h, either_copyout pr true dst ch = .error h := by
  rw [either_copyout, if_pos rfl, copyout]
  split
  · exact .inr ⟨_, rfl⟩
  · rw [if_neg (by rw [faults]; decide)]
    exact .inl rfl

/-- The buffer is there for so many bytes. -/
def Reaches (pr : User) (user : Bool) (addr f : Nat) : Prop :=
  ∀ k < f, user = true → pr.reaches (u64 (addr + k)) = true

theorem Reaches.head (h : Reaches pr user addr (f + 1)) (ch : UInt8) :
    either_copyout pr user (u64 addr) ch = .ok (0, pr.store (u64 addr) ch) :=
  either_copyout_reaches (h 0 (Nat.succ_pos f)) ch

theorem Reaches.tail (h : Reaches pr user addr (f + 1)) : Reaches pr user (addr + 1) f := by
  intro k hk
  rw [Nat.add_assoc, Nat.add_comm 1 k]
  exact h (k + 1) (Nat.succ_lt_succ hk)

theorem pipereadLoop_step {b : UInt8} (content : pi.Content (b :: bytes))
    (stored : either_copyout pr user (u64 (addr + i)) b = .ok (0, pr')) :
    pipereadLoop user addr (more + 1) i pi pr = (pipereadLoop user addr more (i + 1) pi.take.2 pr').map
      fun (pi, pr, taken, i) => (pi, pr, b :: taken, i) := by
  obtain ⟨some_left, first, -⟩ := content.take
  rw [pipereadLoop, if_neg (by rw [some_left]; decide)]
  simp only [first, stored]
  rfl

/-- The bytes that fit are taken and stored. -/
theorem pipereadLoop_whole (content : pi.Content bytes) (reaches : Reaches pr user (addr + i) (min more bytes.length))
    (narrow : more ≤ 2 ^ 31) :
    ∃ pi' pr', pipereadLoop user addr more i pi pr =
      .ok (pi', pr', bytes.take more, i + min more bytes.length) ∧
      pi'.Content (bytes.drop more) ∧ pr'.opens = pr.opens ∧
      (∀ k (h : k < bytes.length), k < more → pr'.memory (u64 (addr + i + k)) = bytes[k]) ∧
      ∀ a, (∀ k < more, a ≠ u64 (addr + i + k)) → pr'.memory a = pr.memory a := by
  induction more generalizing i pi pr bytes with
  | zero =>
    rw [Nat.zero_min, List.take_zero, List.drop_zero]
    exact ⟨pi, pr, rfl, content, rfl, fun _ _ none => absurd none (Nat.not_lt_zero _), fun _ _ => rfl⟩
  | succ more ih =>
    cases bytes with
    | nil =>
      refine ⟨pi, pr, ?_, content, rfl, fun _ none => absurd none (Nat.not_lt_zero _), fun _ _ => rfl⟩
      rw [pipereadLoop, if_pos content.nil]
      rfl
    | cons b rest =>
      obtain ⟨-, -, content'⟩ := content.take
      rw [List.length_cons, Nat.succ_min_succ] at reaches
      have further : Reaches (pr.store (u64 (addr + i)) b) user (addr + (i + 1)) (min more rest.length) :=
        reaches.tail
      obtain ⟨pi', pr', run, left, opens, here, away⟩ := ih content' further (Nat.le_of_succ_le narrow)
      have shift : ∀ k, addr + (i + 1) + k = addr + i + (k + 1) := fun k => by omega
      simp only [shift] at here away
      refine ⟨pi', pr', ?_, left, opens, ?_, ?_⟩
      · rw [pipereadLoop_step content (reaches.head b), run, List.length_cons, Nat.succ_min_succ,
          Nat.succ_add_eq_add_succ]
        rfl
      · intro k hk lt
        cases k with
        | zero =>
          rw [away (u64 (addr + i + 0))]
          · exact Function.update_self ..
          · intro k lt
            rw [u64, u64]
            omega
        | succ k => exact here k (Nat.lt_of_succ_lt_succ hk) (Nat.lt_of_succ_lt_succ lt)
      · intro a apart
        rw [away a fun k lt => apart (k + 1) (Nat.succ_lt_succ lt)]
        exact Function.update_of_ne (apart 0 (Nat.succ_pos more)) _ _

/-- At a fault the byte that could not be stored has been taken. -/
theorem pipereadLoop_fault (content : pi.Content bytes) (reaches : Reaches pr true (addr + i) f)
    (faults : pr.reaches (u64 (addr + i + f)) = false) (inside : f < min more bytes.length) :
    (∃ h, pipereadLoop true addr more i pi pr = .error h) ∨
    ∃ pi' pr', pipereadLoop true addr more i pi pr = .ok (pi', pr', bytes.take (f + 1), i + f) ∧
      pi'.Content (bytes.drop (f + 1)) := by
  induction more generalizing i pi pr bytes f with
  | zero => exact absurd inside (by omega)
  | succ more ih =>
    cases bytes with
    | nil => exact absurd inside (by simp)
    | cons b rest =>
      obtain ⟨some_left, first, content'⟩ := content.take
      rw [List.length_cons, Nat.succ_min_succ] at inside
      cases f with
      | zero =>
        rw [pipereadLoop, if_neg (by rw [some_left]; decide)]
        simp only [first]
        rw [Nat.add_zero] at faults
        rcases either_copyout_faults faults b with stops | ⟨h, panics⟩
        · rw [stops]
          exact .inr ⟨_, _, rfl, content'⟩
        · rw [panics]
          exact .inl ⟨h, rfl⟩
      | succ f =>
        have further : Reaches (pr.store (u64 (addr + i)) b) true (addr + (i + 1)) f := reaches.tail
        have there : (pr.store (u64 (addr + i)) b).reaches (u64 (addr + (i + 1) + f)) = false := by
          rw [show addr + (i + 1) + f = addr + i + (f + 1) by omega]
          exact faults
        rw [pipereadLoop_step content (reaches.head b)]
        rcases ih content' further there (by omega) with ⟨h, run⟩ | ⟨pi', pr', run, left⟩
        · rw [run]
          exact .inl ⟨h, rfl⟩
        · rw [run]
          refine .inr ⟨pi', pr', ?_, left⟩
          rw [show i + (f + 1) = i + 1 + f by omega]
          rfl

/-- With all of the buffer there, the loop is that of a copy that cannot fault. -/
theorem pipereadLoop_eq (reaches : Reaches pr user (addr + i) more) :
    pipereadLoop user addr more i pi pr = .ok (
      (pipereadFrom addr more i pi pr.memory).1,
      { pr with memory := (pipereadFrom addr more i pi pr.memory).2.1 },
      (pipereadFrom addr more i pi pr.memory).2.2) := by
  induction more generalizing i pi pr with
  | zero => rfl
  | succ more ih =>
    rw [pipereadLoop, pipereadFrom]
    by_cases none : pi.empty
    · rw [if_pos none, if_pos none]
    · rw [if_neg none, if_neg none]
      simp only [reaches.head]
      have further : Reaches (pr.store (u64 (addr + i)) pi.take.1) user (addr + (i + 1)) more :=
        reaches.tail
      have rest := @ih pi.take.2 _ (i + 1) further
      show (pipereadLoop user addr more (i + 1) pi.take.2 _).map (fun (pi', pr, taken, i) =>
        (pi', pr, pi.take.1 :: taken, i)) = _
      rw [rest]
      rfl

/-- The buffer is there for `i` bytes, and no further where there is more of it. -/
structure FaultsAfter (pr : User) (addr : Nat) (n : Int) (i : Nat) : Prop where
  le : i ≤ n.toNat
  before : Reaches pr true addr i
  fault : i < n.toNat → pr.reaches (u64 (addr + i)) = false

/-- `piperead` returns `r`, and has taken from the pipe the `r` bytes that it has stored. -/
def ReadsExactly (pr : User) (addr : Nat) (n : Int) (pi : Pipe) (bytes : List UInt8) (r : Nat) : Prop :=
  ∃ pi' pr' taken, piperead pr pi true addr n = .ok (pi', pr', taken, .returned r) ∧
    pi'.Content (bytes.drop r) ∧
    ∀ k (h : k < bytes.length), k < r → pr'.memory (u64 (addr + k)) = bytes[k]

theorem piperead_loops (ready : ¬(pi.empty = true ∧ pi.writeopen = true)) :
    piperead pr pi user addr n = (pipereadLoop user addr n.toNat 0 pi pr).map
      fun (pi, pr, taken, i) => (pi, pr, taken, .returned i) := by
  rw [piperead, if_neg ready]
  rfl

theorem piperead_exact_iff (faults : FaultsAfter pr addr n i) (narrow : n < 2 ^ 31)
    (content : pi.Content bytes) (ready : ¬(pi.empty = true ∧ pi.writeopen = true)) :
    ReadsExactly pr addr n pi bytes (min i (min n.toNat bytes.length)) ↔ min n.toNat bytes.length ≤ i := by
  obtain ⟨le, before, fault⟩ := faults
  constructor
  · rintro ⟨pi', pr', taken, run, left, -⟩
    by_contra short
    rw [Nat.not_le] at short
    rw [piperead_loops ready] at run
    have stops := pipereadLoop_fault (i := 0) content before (fault (by omega)) short
    rcases stops with ⟨h, stops⟩ | ⟨pi₁, pr₁, stops, left₁⟩
    · rw [stops] at run
      cases run
    · rw [stops] at run
      have pipes := congrArg (fun x => x.toOption.map Prod.fst) run
      cases Option.some.inj pipes
      have same := left.unique left₁
      rw [List.length_drop, List.length_drop] at same
      omega
  · intro enough
    have reaches : Reaches pr true addr (min n.toNat bytes.length) := fun k hk => before k (by omega)
    obtain ⟨pi', pr', run, left, -, here, -⟩ :=
      pipereadLoop_whole (i := 0) content reaches (by omega)
    rw [Nat.min_eq_right enough]
    refine ⟨pi', pr', bytes.take n.toNat, ?_, ?_, fun k hk lt => here k hk (by omega)⟩
    · rw [piperead_loops ready, run, Nat.zero_add]
      rfl
    · rcases Nat.le_total n.toNat bytes.length with short | long
      · rwa [Nat.min_eq_left short]
      · rw [List.drop_eq_nil_of_le long] at left
        rwa [Nat.min_eq_right long, List.drop_length]

/-! ### Writing -/

theorem either_copyin_reaches {src : Nat} (reaches : pr.reaches src = true) :
    either_copyin pr true src = .ok (0, pr.memory src) := by
  have low := User.reaches_lt reaches
  rw [either_copyin, if_pos rfl, copyin, if_neg fun ⟨high, _⟩ => Nat.lt_asymm low high, if_pos reaches]

/-- The buffer begins at one of the kernel's own addresses. -/
def InWindow (addr : Nat) (n : Int) : Prop := 0 < n ∧ MAXVA < u64 addr ∧ u64 addr &&& DMWIN_MASK ≠ 0

/-- The bytes of the buffer from `j` to `i`. -/
def User.bytesOf (pr : User) (addr j i : Nat) : List UInt8 :=
  (List.range' j (i - j)).map fun k => pr.memory (u64 (addr + k))

theorem User.bytesOf_self (pr : User) (addr i : Nat) : pr.bytesOf addr i i = [] := by
  rw [User.bytesOf, Nat.sub_self]
  rfl

theorem User.bytesOf_length (pr : User) (addr j i : Nat) : (pr.bytesOf addr j i).length = i - j := by
  rw [User.bytesOf, List.length_map, List.length_range']

theorem User.bytesOf_append (pr : User) {j k : Nat} (le : j ≤ k) (le' : k ≤ i) :
    pr.bytesOf addr j k ++ pr.bytesOf addr k i = pr.bytesOf addr j i := by
  obtain ⟨a, rfl⟩ := Nat.exists_eq_add_of_le le
  obtain ⟨b, rfl⟩ := Nat.exists_eq_add_of_le le'
  rw [User.bytesOf, User.bytesOf, User.bytesOf, ← List.map_append, Nat.add_sub_cancel_left,
    Nat.add_sub_cancel_left, List.range'_append_1, Nat.add_assoc, Nat.add_sub_cancel_left]

theorem User.bytesOf_cons (pr : User) {j : Nat} (lt : j < i) :
    pr.memory (u64 (addr + j)) :: pr.bytesOf addr (j + 1) i = pr.bytesOf addr j i := by
  have one : pr.bytesOf addr j (j + 1) = [pr.memory (u64 (addr + j))] := by
    rw [User.bytesOf, Nat.add_sub_cancel_left]
    rfl
  rw [← pr.bytesOf_append (Nat.le_succ j) lt, one]
  rfl

/-- How a section of `pipewrite` that has begun at `j` ends: at the fault, asleep before it,
without a reader, or not at all. -/
def StopsAt (pr : User) (addr : Nat) (n : Int) (i j : Nat) :
    Except Halt (Pipe × List UInt8 × End) → Prop
  | .ok (_, put, .returned r) => ¬InWindow addr n ∧ r = i ∧ put = pr.bytesOf addr j i
  | .ok (_, put, .asleep call) =>
    ∃ k, j ≤ k ∧ k ≤ i ∧ call = .pipewrite addr n k ∧ put = pr.bytesOf addr j k
  | .ok (_, _, .failed) => True
  | .error _ => InWindow addr n

/-- A buffer of which some bytes are there is the user's. -/
theorem FaultsAfter.not_window (faults : FaultsAfter pr addr n i) (some : 0 < i) : ¬InWindow addr n := by
  rintro ⟨-, high, -⟩
  exact Nat.lt_asymm high (User.reaches_lt (faults.before 0 some rfl))

theorem pipewriteLoop_stops (faults : FaultsAfter pr addr n i) {j : Nat} (le : j ≤ i)
    (rest : j + more = n.toNat) :
    StopsAt pr addr n i j (pipewriteLoop pr true addr n more j pi) := by
  induction more generalizing j pi with
  | zero =>
    have fits := faults.le
    obtain rfl : j = i := by omega
    refine ⟨fun window => ?_, rfl, (pr.bytesOf_self addr j).symm⟩
    have pos := window.1
    exact faults.not_window (by omega) window
  | succ more ih =>
    rw [pipewriteLoop]
    split
    · split
      · trivial
      · exact ⟨j, Nat.le_refl j, le, rfl, (pr.bytesOf_self addr j).symm⟩
    · rcases Nat.lt_or_ge j i with inside | here
      · rw [either_copyin_reaches (faults.before j inside rfl)]
        have later := @ih (pi.put (pr.memory (u64 (addr + j)))) (j + 1) inside (by omega)
        show StopsAt pr addr n i j ((pipewriteLoop pr true addr n more (j + 1)
          (pi.put (pr.memory (u64 (addr + j))))).map fun (pi, put, ending) =>
            (pi, pr.memory (u64 (addr + j)) :: put, ending))
        generalize pipewriteLoop pr true addr n more (j + 1) (pi.put (pr.memory (u64 (addr + j)))) = x at later
        match x with
        | .ok (_, put, .returned r) =>
          obtain ⟨user, rfl, rfl⟩ := later
          exact ⟨user, rfl, pr.bytesOf_cons inside⟩
        | .ok (_, put, .asleep call) =>
          obtain ⟨k, low, high, rfl, rfl⟩ := later
          exact ⟨k, Nat.le_of_succ_le low, high, rfl, pr.bytesOf_cons low⟩
        | .ok (_, _, .failed) => trivial
        | .error _ => exact later
      · obtain rfl : j = i := by omega
        have shut := faults.fault (by omega)
        rw [either_copyin, if_pos rfl, copyin]
        split
        · next window =>
          -- every byte before is below `MAXVA`, so this one is the first
          cases j with
          | zero => exact ⟨by omega, window⟩
          | succ j =>
            have low := User.reaches_lt (faults.before j (Nat.lt_succ_self j) rfl)
            have high := window.1
            rw [u64, Vm.MAXVA_eq] at low high
            omega
        · next clear =>
          rw [if_neg (by rw [shut]; decide)]
          refine ⟨fun window => ?_, rfl, (pr.bytesOf_self addr j).symm⟩
          cases j with
          | zero => exact clear window.2
          | succ j => exact faults.not_window (Nat.succ_pos j) window

/-- A call of `pipewrite` from `i` on, through its sections: what it has put into the pipe
and how it ends. Each section finds a pipe as others have left it. -/
inductive Writes (pr : User) (addr : Nat) (n : Int) : Nat → List UInt8 → Except Halt End → Prop where
  | stops {i : Nat} {pi : Pipe} {killed : Bool} {h : Halt}
      (run : pipewriteLoop { pr with killed } true addr n (n - i).toNat i pi = .error h) :
      Writes pr addr n i [] (.error h)
  | ends {i r : Nat} {pi pi' : Pipe} {killed : Bool} {put : List UInt8}
      (run : pipewriteLoop { pr with killed } true addr n (n - i).toNat i pi =
        .ok (pi', put, .returned r)) : Writes pr addr n i put (.ok (.returned r))
  | fails {i : Nat} {pi pi' : Pipe} {killed : Bool} {put : List UInt8}
      (run : pipewriteLoop { pr with killed } true addr n (n - i).toNat i pi = .ok (pi', put, .failed)) :
      Writes pr addr n i put (.ok .failed)
  | sleeps {i j : Nat} {pi pi' : Pipe} {killed : Bool} {put later : List UInt8} {result : Except Halt End}
      (run : pipewriteLoop { pr with killed } true addr n (n - i).toNat i pi =
        .ok (pi', put, .asleep (.pipewrite addr n j)))
      (rest : Writes pr addr n j later result) : Writes pr addr n i (put ++ later) result

/-- How a call of `pipewrite` from `j` on ends, and what it has put into the pipe. -/
def EndsAt (pr : User) (addr : Nat) (n : Int) (i j : Nat) (put : List UInt8) : Except Halt End → Prop
  | .ok (.returned r) => ¬InWindow addr n ∧ r = i ∧ put = pr.bytesOf addr j i
  | .ok (.asleep _) => False
  | .ok .failed => True
  | .error _ => InWindow addr n

theorem Writes.endsAt {j : Nat} {put : List UInt8} {result : Except Halt End}
    (writes : Writes pr addr n j put result) (faults : FaultsAfter pr addr n i) (le : j ≤ i) :
    EndsAt pr addr n i j put result := by
  have section_stops : ∀ {k killed pi x}, k ≤ i →
      pipewriteLoop { pr with killed } true addr n (n - k).toNat k pi = x → StopsAt pr addr n i k x := by
    rintro k killed pi _ le rfl
    have same : FaultsAfter { pr with killed } addr n i := ⟨faults.le, faults.before, faults.fault⟩
    have fits := faults.le
    exact pipewriteLoop_stops same le (by omega)
  induction writes with
  | stops run => exact section_stops le run
  | ends run => exact section_stops le run
  | fails => trivial
  | sleeps run _ ih =>
    obtain ⟨k, low, high, eq, rfl⟩ := section_stops le run
    cases eq
    have later := ih high
    rename_i result _
    match result with
    | .ok (.returned r) =>
      obtain ⟨user, rfl, rfl⟩ := later
      exact ⟨user, rfl, pr.bytesOf_append low high⟩
    | .ok .failed => trivial
    | .error _ => exact later

/-- `pipewrite` returns `i`, and has put the `i` bytes of its buffer into the pipe. -/
def WroteExactly (pr : User) (addr i : Nat) (put : List UInt8) (result : Except Halt End) : Prop :=
  result = .ok (.returned i) ∧ put = pr.bytesOf addr 0 i

theorem Writes.exact_iff {put : List UInt8} {result : Except Halt End}
    (writes : Writes pr addr n 0 put result) (faults : FaultsAfter pr addr n i)
    (reader : result ≠ .ok .failed) : WroteExactly pr addr i put result ↔ ¬InWindow addr n := by
  have stops := writes.endsAt faults (Nat.zero_le i)
  match result with
  | .ok (.returned r) =>
    obtain ⟨user, rfl, rfl⟩ := stops
    exact ⟨fun _ => user, fun _ => ⟨rfl, rfl⟩⟩
  | .ok .failed => exact absurd rfl reader
  | .error _ =>
    constructor
    · rintro ⟨no, -⟩
      cases no
    · exact absurd stops

/-! ### Both -/

/-- Reads lose no byte exactly where they meet no fault, writes wherever the buffer is the
user's. -/
theorem pipe_faults (faults : FaultsAfter pr addr n i) (narrow : n < 2 ^ 31) :
    (∀ pi bytes, pi.Content bytes → ¬(pi.empty = true ∧ pi.writeopen = true) →
      (ReadsExactly pr addr n pi bytes (min i (min n.toNat bytes.length)) ↔
        min n.toNat bytes.length ≤ i)) ∧
    ∀ put result, Writes pr addr n 0 put result → result ≠ .ok .failed →
      (WroteExactly pr addr i put result ↔ ¬InWindow addr n) :=
  ⟨fun _ _ content ready => piperead_exact_iff faults narrow content ready,
    fun _ _ writes reader => writes.exact_iff faults reader⟩

/-- A process with one page. -/
def onePage : User where
  opens p := p == 0
  memory := fun _ => 0
  killed := false

theorem onePage_faults : FaultsAfter onePage 4095 2 1 where
  le := by decide
  before := by
    intro k hk _
    obtain rfl : k = 0 := by omega
    rfl
  fault := fun _ => rfl

theorem pipe_faults_onePage :
    (∀ pi bytes, pi.Content bytes → ¬(pi.empty = true ∧ pi.writeopen = true) →
      (ReadsExactly onePage 4095 2 pi bytes (min 1 (min 2 bytes.length)) ↔ min 2 bytes.length ≤ 1)) ∧
    ∀ put result, Writes onePage 4095 2 0 put result → result ≠ .ok .failed →
      (WroteExactly onePage 4095 1 put result ↔ ¬InWindow 4095 2) :=
  pipe_faults onePage_faults (by decide)

/-- A pipe with two bytes in it. -/
def twoBytes : Pipe := (pipealloc.put 1).put 2

/-- The byte at which the page ends is lost: the next read finds nothing. -/
theorem piperead_loses : ∃ pi pr, piperead onePage twoBytes true 4095 2 =
      .ok (pi, pr, [1, 2], .returned 1) ∧ pr.memory 4095 = 1 ∧ pi.empty = true ∧
    ¬ReadsExactly onePage 4095 2 twoBytes [1, 2] 1 := by
  refine ⟨_, _, rfl, rfl, rfl, ?_⟩
  rintro ⟨pi, pr, taken, run, left, -⟩
  have pipes := congrArg (fun x => x.toOption.map Prod.fst) run
  cases Option.some.inj pipes
  exact absurd left.count (by decide)

end AvxKernel.Ipc
