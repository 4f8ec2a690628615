import AvxKernel.Dirs.Buffers
import AvxKernel.Fat.Codec
import AvxKernel.Fs.Counted

/-! `sys_getcwd`: the path of the working directory, written backwards from the end of
an array along the pointers to the parents. -/
namespace AvxKernel.Fs

open Dirs.Buffers (FAT32_MAX_PATH)
open Fat (Buffer FAT32_MAX_FILENAME)

variable {δ : Type}

/-- The array with other characters from a place on. -/
def overwrite (path : Buffer) (s : Nat) (chars : List UInt8) : Buffer := fun i =>
  if s ≤ i ∧ i < s + chars.length then chars.getD (i - s) 0 else path i

/-- Characters stored in `path` at `s`. Outside of the array the store is a fault. -/
def storeAt (path : Buffer) (s : Int) (chars : List UInt8) : Cache δ Buffer :=
  if 0 ≤ s ∧ s + chars.length ≤ FAT32_MAX_PATH then
    return overwrite path s.toNat chars
  else
    Prog.halt .fault

/-- The loop of `sys_getcwd`; none where the root is out of reach. Each round moves `s`
down, so the size of the array bounds the rounds. -/
def getcwdLoop : Nat → Nat → Int → Buffer → Cache δ (Option (Int × Buffer))
  | 0, _, _, _ => Prog.halt .diverge
  | rounds + 1, de, s, path => do
    if (← entry de).parent = none then
      return some (s, path)
    else
      let filename := (← entry de).filename
      let s := s - filename.length
      if s ≤ 0 then
        return none
      else
        let path ← storeAt path s filename
        let path ← storeAt path (s - 1) [47]
        match (← entry de).parent with
        | none => Prog.halt .fault
        | some de => getcwdLoop rounds de (s - 1) path

/-- The string at `s`. -/
def stringAt (path : Buffer) (s : Int) : Name :=
  Buffer.chars (fun i => path (s.toNat + i)) (FAT32_MAX_PATH - s.toNat)

/-- The string that `sys_getcwd` builds in an array with some contents. -/
def getcwd (path : Buffer) (de : Nat) : Cache δ (Option Name) := do
  if (← entry de).parent = none then
    return some [47]
  else
    let s : Int := FAT32_MAX_PATH - 1
    let path ← storeAt path s [0]
    match ← getcwdLoop FAT32_MAX_PATH de s path with
    | none => return none
    | some (s, path) => return some (stringAt path s)

/-- The value returned, and what has been copied to the user's buffer. -/
def sys_getcwd (copyout : Nat → Nat → List UInt8 → OnDisk δ Bool) (path : Buffer) (p addr : Nat) :
    Call δ (Int × List UInt8) := do
  let k ← get
  match (k.proc p).cwd with
  | none => Machine.halt .fault
  | some de =>
    match ← onCache p (getcwd path de) with
    | none => return (-1, [])
    | some s =>
      if ← onCache p (onDisk fun _ => copyout p addr (s ++ [0])) then
        return (addr, s ++ [0])
      else
        return (-1, [])

/-! ### The path -/

variable {ent : Nat → Dirent} {e me p room rounds : Nat} {chain : List Nat} {path : Buffer}
  {chars rest : List UInt8} {s : Shared (Ecache δ)}

/-- The entries from one up to those in the root. -/
inductive Climb (ent : Nat → Dirent) : Nat → List Nat → Prop where
  | top {e : Nat} (top : (ent e).parent = none) : Climb ent e []
  | up {e p : Nat} {chain : List Nat} (parent : (ent e).parent = some p) (above : Climb ent p chain) :
      Climb ent e (e :: chain)

/-- The names on the way down to an entry, each behind a slash. -/
def pathDown (ent : Nat → Dirent) : List Nat → Name
  | [] => []
  | e :: chain => pathDown ent chain ++ 47 :: (ent e).filename

def absolutePath (ent : Nat → Dirent) (chain : List Nat) : Name :=
  if chain = [] then [47] else pathDown ent chain

/-- A name that stands for an entry in a path. -/
structure Component (name : Name) : Prop where
  named : name ≠ []
  noSlash : 47 ∉ name
  noNul : 0 ∉ name
  short : name.length ≤ FAT32_MAX_FILENAME
  notDot : name ≠ [46]
  notDots : name ≠ [46, 46]

theorem Component.plain {name : Name} (h : Component name) : Plain name := by
  have whole : name.take FAT32_MAX_FILENAME = name := List.take_of_length_le h.short
  constructor
  · rw [sameName, whole]
    exact beq_false_of_ne h.notDot
  · rw [sameName, whole]
    exact beq_false_of_ne h.notDots

theorem pathDown_components (valid : ∀ c ∈ chain, Component (ent c).filename) :
    Dirs.components (pathDown ent chain) = chain.reverse.map fun c => (ent c).filename := by
  induction chain with
  | nil => rfl
  | cons c chain ih =>
    have first := valid c List.mem_cons_self
    rw [pathDown, Dirs.components_append, ih fun d member => valid d (List.mem_cons_of_mem _ member),
      Dirs.components_of_not_mem first.noSlash first.named, List.reverse_cons, List.map_append]
    rfl

/-- The look-ups take the names off the path again. -/
theorem absolutePath_elems (valid : ∀ c ∈ chain, Component (ent c).filename) :
    Dirs.elems (absolutePath ent chain) = chain.reverse.map fun c => (ent c).filename := by
  have whole : (chain.reverse.map fun c => (ent c).filename).map (List.take FAT32_MAX_FILENAME) =
      chain.reverse.map fun c => (ent c).filename := by
    rw [List.map_map]
    apply List.map_congr_left
    intro c member
    exact List.take_of_length_le (valid c (List.mem_reverse.mp member)).short
  rw [absolutePath]
  split
  · next top =>
    subst top
    rfl
  · rw [Dirs.elems, pathDown_components valid, whole]

theorem absolutePath_head : (absolutePath ent chain).head? = some 47 := by
  rw [absolutePath]
  split
  · rfl
  · next more =>
    induction chain with
    | nil => exact absurd rfl more
    | cons c chain ih =>
      rw [pathDown, List.head?_append]
      cases chain with
      | nil => rfl
      | cons c' chain => rw [ih (List.cons_ne_nil _ _), Option.some_or]

/-! ### The array -/

theorem storeAt_run (fits : room + chars.length ≤ FAT32_MAX_PATH) :
    Prog.run me (storeAt path room chars) s = .ok (overwrite path room chars, s) := by
  rw [storeAt, if_pos (by omega), Int.toNat_natCast]
  rfl

/-- Characters before those that a string begins with. -/
theorem overwrite_holds (chars : List UInt8)
    (h : Buffer.Holds (fun i => path (room + chars.length + i)) rest) (noNul : 0 ∉ chars) :
    Buffer.Holds (fun i => overwrite path room chars (room + i)) (chars ++ rest) := by
  obtain ⟨same, stop, plain⟩ := h
  have behind : ∀ i, chars.length ≤ i →
      overwrite path room chars (room + i) = path (room + chars.length + (i - chars.length)) := by
    intro i out
    rw [overwrite, if_neg (by omega)]
    congr 1
    omega
  refine ⟨fun i inside => ?_, ?_, ?_⟩
  · dsimp only
    by_cases front : i < chars.length
    · rw [overwrite, if_pos (by omega), Nat.add_sub_cancel_left, List.getElem_append_left front,
        List.getD_eq_getElem _ _ front]
    · rw [List.length_append] at inside
      rw [behind i (by omega), List.getElem_append_right (by omega)]
      exact same _ (by omega)
  · dsimp only
    rw [List.length_append, behind _ (Nat.le_add_right _ _), Nat.add_sub_cancel_left]
    exact stop
  · rw [List.mem_append, not_or]
    exact ⟨noNul, plain⟩

/-! ### The loop -/

theorem getcwdLoop_top (top : (s.state.ent e).parent = none) :
    Prog.run me (getcwdLoop (rounds + 1) e room path) s = .ok (some ((room : Int), path), s) := by
  have read : Prog.run me (entry e) s = .ok (s.state.ent e, s) := rfl
  rw [getcwdLoop, Prog.run_bind, Machine.bind_of_ok read, if_pos top]
  rfl

/-- There is no room for the name and its slash. -/
theorem getcwdLoop_over (parent : (s.state.ent e).parent = some p)
    (beyond : room ≤ (s.state.ent e).filename.length) :
    Prog.run me (getcwdLoop (rounds + 1) e room path) s = .ok (none, s) := by
  have read : Prog.run me (entry e) s = .ok (s.state.ent e, s) := rfl
  rw [getcwdLoop, Prog.run_bind, Machine.bind_of_ok read, if_neg (by rw [parent]; simp), Prog.run_bind,
    Machine.bind_of_ok read]
  dsimp only
  rw [if_pos (by omega)]
  rfl

theorem getcwdLoop_up (me rounds : Nat) (parent : (s.state.ent e).parent = some p) {left : Nat}
    (fits : room = left + 1 + (s.state.ent e).filename.length) (inside : room < FAT32_MAX_PATH)
    (noNul : 0 ∉ (s.state.ent e).filename) (holds : Buffer.Holds (fun i => path (room + i)) rest) :
    ∃ path', Prog.run me (getcwdLoop (rounds + 1) e room path) s =
        Prog.run me (getcwdLoop rounds p left path') s ∧
      Buffer.Holds (fun i => path' (left + i)) (47 :: (s.state.ent e).filename ++ rest) := by
  have read : Prog.run me (entry e) s = .ok (s.state.ent e, s) := rfl
  subst fits
  have named := overwrite_holds _ holds noNul
  have slashed := overwrite_holds [47] named (by decide)
  refine ⟨_, ?_, slashed⟩
  have back : ((left + 1 + (s.state.ent e).filename.length : Nat) : Int) -
      ((s.state.ent e).filename.length : Nat) = ((left + 1 : Nat) : Int) := by omega
  have more : ((left + 1 : Nat) : Int) - 1 = (left : Int) := by omega
  rw [getcwdLoop, Prog.run_bind, Machine.bind_of_ok read, if_neg (by rw [parent]; simp), Prog.run_bind,
    Machine.bind_of_ok read]
  dsimp only
  rw [back, more, if_neg (by omega), Prog.run_bind, Machine.bind_of_ok (storeAt_run (by omega)),
    Prog.run_bind, Machine.bind_of_ok (storeAt_run (by simp; omega)), Prog.run_bind,
    Machine.bind_of_ok read, parent]

/-- The loop writes the whole path down, or there is no room for it. -/
theorem getcwdLoop_run (me : Nat) (up : Climb s.state.ent e chain)
    (noNul : ∀ c ∈ chain, 0 ∉ (s.state.ent c).filename) (enough : room < rounds)
    (inside : room < FAT32_MAX_PATH) (holds : Buffer.Holds (fun i => path (room + i)) rest) :
    ∃ (left : Nat) (path' : Buffer), Prog.run me (getcwdLoop rounds e room path) s =
        .ok (if (pathDown s.state.ent chain).length ≤ room then some ((left : Int), path') else none, s) ∧
      ((pathDown s.state.ent chain).length ≤ room →
        room = left + (pathDown s.state.ent chain).length ∧
        Buffer.Holds (fun i => path' (left + i)) (pathDown s.state.ent chain ++ rest)) := by
  induction up generalizing room rounds path rest with
  | top top =>
    obtain ⟨rounds, rfl⟩ := Nat.exists_eq_add_of_lt enough
    refine ⟨room, path, ?_, fun _ => ⟨rfl, holds⟩⟩
    rw [pathDown, List.length_nil, if_pos (Nat.zero_le _)]
    exact getcwdLoop_top top
  | @up e p chain parent above ih =>
    have length : (pathDown s.state.ent (e :: chain)).length =
        (pathDown s.state.ent chain).length + 1 + (s.state.ent e).filename.length := by
      rw [pathDown, List.length_append, List.length_cons]
      omega
    obtain ⟨rounds, rfl⟩ := Nat.exists_eq_add_of_lt enough
    by_cases beyond : room ≤ (s.state.ent e).filename.length
    · refine ⟨0, path, ?_, fun fits => absurd fits (by omega)⟩
      rw [if_neg (by omega)]
      exact getcwdLoop_over parent beyond
    · obtain ⟨left, split⟩ : ∃ left, room = left + 1 + (s.state.ent e).filename.length :=
        ⟨room - 1 - (s.state.ent e).filename.length, by omega⟩
      obtain ⟨path₁, goes, holds₁⟩ := getcwdLoop_up me (room + rounds) parent split inside
        (noNul e List.mem_cons_self) holds
      obtain ⟨left', path₂, run, done⟩ := ih (fun c member => noNul c (List.mem_cons_of_mem _ member))
        (show left < room + rounds by omega) (by omega) holds₁
      have same : (pathDown s.state.ent (e :: chain)).length ≤ room ↔
          (pathDown s.state.ent chain).length ≤ left := by omega
      refine ⟨left', path₂, ?_, fun fits => ?_⟩
      · rw [goes, run]
        simp only [same]
      · obtain ⟨sum, holds₂⟩ := done (same.mp fits)
        refine ⟨by omega, ?_⟩
        rw [pathDown, List.append_assoc]
        exact holds₂

/-- The string is the absolute path, where that fits with its NUL. -/
theorem getcwd_run (me : Nat) (path : Buffer) (up : Climb s.state.ent e chain)
    (noNul : ∀ c ∈ chain, 0 ∉ (s.state.ent c).filename) :
    Prog.run me (getcwd path e) s =
      .ok (if (absolutePath s.state.ent chain).length < FAT32_MAX_PATH then
        some (absolutePath s.state.ent chain) else none, s) := by
  have read : Prog.run me (entry e) s = .ok (s.state.ent e, s) := rfl
  rw [getcwd, Prog.run_bind, Machine.bind_of_ok read]
  cases up with
  | top top =>
    rw [if_pos top]
    rfl
  | @up e p chain parent above =>
    have last : ((FAT32_MAX_PATH : Int) - 1) = ((FAT32_MAX_PATH - 1 : Nat) : Int) := rfl
    have empty : Buffer.Holds (fun i => overwrite path (FAT32_MAX_PATH - 1) [0] (FAT32_MAX_PATH - 1 + i)) [] :=
      ⟨fun i inside => absurd inside (Nat.not_lt_zero i), rfl, List.not_mem_nil⟩
    obtain ⟨left, path', run, done⟩ := getcwdLoop_run me (Climb.up parent above) noNul
      (show FAT32_MAX_PATH - 1 < FAT32_MAX_PATH by decide) (by decide) empty
    have fits : (pathDown s.state.ent (e :: chain)).length < FAT32_MAX_PATH ↔
        (pathDown s.state.ent (e :: chain)).length ≤ FAT32_MAX_PATH - 1 :=
      Nat.lt_iff_le_pred (by decide)
    rw [if_neg (by rw [parent]; simp)]
    dsimp only
    rw [last, Prog.run_bind, Machine.bind_of_ok (storeAt_run (by decide)), Prog.run_bind,
      Machine.bind_of_ok run, absolutePath, if_neg (List.cons_ne_nil _ _)]
    simp only [fits]
    by_cases room : (pathDown s.state.ent (e :: chain)).length ≤ FAT32_MAX_PATH - 1
    · obtain ⟨sum, holds⟩ := done room
      rw [List.append_nil] at holds
      rw [if_pos room, if_pos room]
      dsimp only
      rw [stringAt, Int.toNat_natCast, holds.chars (by rw [FAT32_MAX_PATH] at sum ⊢; omega)]
      rfl
    · rw [if_neg room, if_neg room]
      rfl

end AvxKernel.Fs
