import AvxKernel.File.Opened

/-! `sys_pread` beside other calls on the same open file. It moves the offset of the file to
its own and reads from there, in two steps. -/
namespace AvxKernel.File

open Fat (Geometry Disk Dirent Sink Source SameFile InPlace Leaves)
open Fd (cstr SEEK_SET SEEK_CUR SEEK_END)

variable {fat : Geometry} {s t u : Opened} {p : Nat} {buf : Sink} {n count off : Int}

/-- What processes do with the file. A `pread` between whose two steps others come is two
operations. -/
inductive Op where
  | read (p : Nat) (buf : Sink) (n : Int)
  | write (p : Nat) (data : Source) (n : Int)
  | lseek (offset : Nat) (whence : Int)
  | pread (p : Nat) (buf : Sink) (count off : Int)
  | preadSeek (off : Int)
  | preadRead (p : Nat) (buf : Sink) (count off : Int)

/-- The result, and the bytes stored. -/
abbrev Result := Int × List UInt8

variable (fat) in
def Op.call : Op → Machine Opened Result
  | read p buf n => fileread fat p buf n
  | write p data n => do return (← filewrite fat p data n, [])
  | lseek offset whence => do return (← fileseek offset whence, [])
  | pread p buf count off => sys_pread fat p buf count off
  | preadSeek off => do return (← fileseek (uint64 off) SEEK_SET, [])
  | preadRead p buf count _ => fileread fat p buf count

def Op.isPread : Op → Bool
  | pread _ _ _ _ | preadSeek _ | preadRead _ _ _ _ => true
  | _ => false

/-- The offset of a `pread`, as `struct file` has offsets. -/
def own (off : Int) : Nat := u32 (uint64 off)

/-- The bytes of the file from an offset on, as far as they are asked for and the buffer
takes them. -/
def Opened.there (fat : Geometry) (s : Opened) (buf : Sink) (off n : Nat) : Option Result :=
  match Fat.ereadInto fat s.ep buf off n s.disk with
  | .ok ((r, bytes, _), _) => some (r, bytes)
  | .error _ => none

/-- A `pread` has come back with the bytes at its own offset. -/
def Own (fat : Geometry) (s : Opened) (r : Result) : Op → Prop
  | .pread _ buf count off | .preadRead _ buf count off => s.there fat buf (own off) (uint count) = some r
  | _ => True

/-- The offset is back, behind the bytes that a `pread` reads; a `pread` that is not alone
finds it in each of its steps where it leaves it. -/
def Meets (fat : Geometry) (s : Opened) : Op → Prop
  | .pread p buf count off => s.Plain p ∧ ∀ r, s.there fat buf (own off) (uint count) = some r →
      u32 (own off + r.1.toNat) = s.off
  | .preadSeek off => own off = s.off
  | .preadRead p buf count off => s.Plain p ∧ own off = s.off ∧
      ∀ r, s.there fat buf (own off) (uint count) = some r → r.1 ≤ 0
  | _ => True

/-- A step that was taken: the state before it, the operation and the result. -/
structure Step where
  state : Opened
  op : Op
  result : Result

/-- A run of operations, with the steps taken; `meets` holds before each. -/
inductive Run (fat : Geometry) (meets : Opened → Op → Prop) (s : Opened) : List Step → Opened → Prop where
  | refl : Run fat meets s [] s
  | step {steps : List Step} {t u : Opened} {op : Op} {r : Result} (run : Run fat meets s steps t)
      (cond : meets t op) (done : op.call fat t = .ok (r, u)) :
      Run fat meets s (steps ++ [⟨t, op, r⟩]) u

/-- The operations of some steps, with their results. -/
def results (steps : List Step) : List (Op × Result) := steps.map fun step => (step.op, step.result)

/-- Without the `pread` operations the others have the same results, and the file ends with
the same offset and contents; each `pread` has read its own bytes. -/
structure Neutral (fat : Geometry) (s : Opened) (steps : List Step) (t : Opened) : Prop where
  others : ∃ steps' u, Run fat (fun _ _ => True) s steps' u ∧
    results steps' = results (steps.filter fun step => !step.op.isPread) ∧ Alike t u
  reads : ∀ step ∈ steps, Own fat step.state step.result step.op

/-! ### One step -/

/-- Between the two runs the file is the same, and both cursors are in place. -/
structure Paired (fat : Geometry) (t u : Opened) : Prop where
  alike : Alike t u
  left : InPlace fat t.disk t.ep
  right : InPlace fat u.disk u.ep

/-- What is asked of the state in front of a read or a write is the same. -/
theorem Alike.asks (h : Alike t u) : u.readable = t.readable ∧ u.writable = t.writable ∧
    u.char_count = t.char_count ∧ u.off = t.off ∧ u.disk = t.disk ∧ u.filename = t.filename ∧
    u.name = t.name := by
  obtain ⟨same, eq⟩ := h
  have name : u.filename = t.filename := by
    obtain ⟨_, _, file⟩ := same
    rw [Opened.filename, file]
    rfl
  rw [eq] at name ⊢
  exact ⟨rfl, rfl, rfl, rfl, rfl, name, rfl⟩

/-- A call on the volume, with what is known of it from both states. -/
theorem onDisk_bind_same {α β : Type} {x y : Machine Disk α} {f g : α → Machine Opened β}
    {Q : α → α → Prop} {P P' : α → Disk → Prop} {R : Opened → Opened → Prop}
    (same : Machine.Same Eq Q (x t.disk) (y u.disk)) (left : Leaves x t.disk P) (right : Leaves y u.disk P')
    (rest : ∀ a a' d, Q a a' → P a d → P' a' d →
      Machine.Same R Eq (f a { t with disk := d }) (g a' { u with disk := d })) :
    Machine.Same R Eq ((onDisk x >>= f) t) ((onDisk y >>= g) u) := by
  cases run : x t.disk with
  | error stop =>
    rw [run] at same
    cases run' : y u.disk with
    | error stop' =>
      rw [run'] at same
      rw [Machine.bind_of_error (onDisk_error run), Machine.bind_of_error (onDisk_error run')]
      exact same
    | ok r =>
      rw [run'] at same
      exact same.elim
  | ok r =>
    obtain ⟨a', d', run', value, rfl⟩ := same.ok run
    rw [Machine.bind_of_ok (onDisk_ok run), Machine.bind_of_ok (onDisk_ok run')]
    exact rest r.1 a' r.2 value (left.ok run) (right.ok run')

theorem Paired.change (h : Paired fat t u) (p : Nat) (n : Int) :
    Paired fat (t.setCharCount p n) (u.setCharCount p n) := by
  obtain ⟨⟨same, eq⟩, left, right⟩ := h
  refine ⟨⟨same, ?_⟩, left, right⟩
  rw [eq]
  rfl

theorem Paired.seek (h : Paired fat t u) (off : Nat) : Paired fat { t with off } { u with off } := by
  obtain ⟨⟨same, eq⟩, left, right⟩ := h
  refine ⟨⟨same, ?_⟩, left, right⟩
  rw [eq]

theorem fileread_same (h : Paired fat t u) :
    Machine.Same (Paired fat) Eq (fileread fat p buf n t) (fileread fat p buf n u) := by
  obtain ⟨readable, -, counts, offset, disk, filename, name⟩ := h.alike.asks
  have bench : t.Bench p ↔ u.Bench p := by rw [Opened.Bench, Opened.Bench, filename, name]
  rw [fileread, Machine.bind_of_ok (Machine.get_run t), Machine.bind_of_ok (Machine.get_run u)]
  apply Machine.Same.ite
  · rw [readable]
  · exact fun _ => ⟨rfl, h⟩
  intro _
  apply Machine.Same.ite
  · rw [counts]
  · intro _
    have change := h.change p (t.char_count p - 1)
    rw [counts]
    exact ⟨rfl, change⟩
  intro _
  apply Machine.Same.ite bench
  · exact fun _ => ⟨rfl, h⟩
  intro _
  apply Machine.Same.ite
  · rw [filename]
  · exact fun _ => ⟨rfl, h⟩
  intro _
  apply Machine.Same.ite
  · rw [filename]
  · exact fun _ => ⟨rfl, h⟩
  intro _
  rw [offset]
  have right := h.right
  rw [disk] at right
  apply onDisk_bind_same
  · rw [disk]
    exact Fat.ereadInto_alike h.left right h.alike.1 buf t.off (uint_lt n)
  · exact Fat.ereadInto_inPlace h.left buf t.off (uint_lt n)
  · rw [disk]
    exact Fat.ereadInto_inPlace right buf t.off (uint_lt n)
  · rintro ⟨r, bytes, e⟩ ⟨_, _, e'⟩ _ ⟨rfl, rfl, same⟩ ⟨-, inPlace, rfl⟩ ⟨-, inPlace', -⟩
    refine ⟨rfl, ⟨same, ?_⟩, inPlace, inPlace'⟩
    rw [h.alike.2]

theorem filewrite_same {data : Source} (h : Paired fat t u) :
    Machine.Same (Paired fat) Eq (filewrite fat p data n t) (filewrite fat p data n u) := by
  obtain ⟨-, writable, counts, offset, disk, filename, name⟩ := h.alike.asks
  have bench : t.Bench p ↔ u.Bench p := by rw [Opened.Bench, Opened.Bench, filename, name]
  rw [filewrite, Machine.bind_of_ok (Machine.get_run t), Machine.bind_of_ok (Machine.get_run u)]
  apply Machine.Same.ite
  · rw [writable]
  · exact fun _ => ⟨rfl, h⟩
  intro _
  apply Machine.Same.ite
  · rw [counts]
  · intro _
    have change := h.change p (t.char_count p + n)
    rw [counts]
    exact ⟨rfl, change⟩
  intro _
  apply Machine.Same.ite bench
  · exact fun _ => ⟨rfl, h.change p n⟩
  intro _
  rw [offset]
  have right := h.right
  rw [disk] at right
  apply onDisk_bind_same
  · rw [disk]
    exact Fat.ewrite_alike h.left right h.alike.1 data t.off (uint n)
  · exact Fat.ewrite_inPlace h.left data t.off (uint n)
  · rw [disk]
    exact Fat.ewrite_inPlace right data t.off (uint n)
  · rintro ⟨r, e⟩ ⟨_, e'⟩ d ⟨rfl, same⟩ inPlace inPlace'
    apply Machine.Same.ite Iff.rfl
    · intro _
      refine ⟨rfl, ⟨same, ?_⟩, inPlace, inPlace'⟩
      rw [h.alike.2]
    · intro _
      refine ⟨rfl, ⟨same, ?_⟩, inPlace, inPlace'⟩
      rw [h.alike.2]

theorem fileseek_same (h : Paired fat t u) (offset : Nat) (whence : Int) :
    Machine.Same (Paired fat) Eq (fileseek offset whence t) (fileseek offset whence u) := by
  obtain ⟨-, -, -, off, -⟩ := h.alike.asks
  have size := h.alike.1.fields.1
  rw [fileseek, Machine.bind_of_ok (Machine.get_run t), Machine.bind_of_ok (Machine.get_run u), off, size]
  apply Machine.Same.ite Iff.rfl
  · exact fun _ => ⟨rfl, h.seek _⟩
  intro _
  apply Machine.Same.ite Iff.rfl
  · exact fun _ => ⟨rfl, h.seek _⟩
  intro _
  apply Machine.Same.ite Iff.rfl
  · exact fun _ => ⟨rfl, h.seek _⟩
  · exact fun _ => ⟨rfl, h⟩

/-- An operation other than a `pread` does the same in both. -/
theorem Op.call_same {op : Op} (other : op.isPread = false) (h : Paired fat t u) :
    Machine.Same (Paired fat) Eq (op.call fat t) (op.call fat u) := by
  cases op with
  | read p buf n => exact fileread_same h
  | write p data n =>
    refine Machine.Same.bind (filewrite_same h) ?_
    rintro r _ t' u' rfl paired
    exact ⟨rfl, paired⟩
  | lseek offset whence =>
    refine Machine.Same.bind (fileseek_same h offset whence) ?_
    rintro r _ t' u' rfl paired
    exact ⟨rfl, paired⟩
  | pread p buf count off => cases other
  | preadSeek off => cases other
  | preadRead p buf count off => cases other

/-! ### The reads of `pread` -/

/-- A read of a file of bytes, from where the offset is. -/
theorem Opened.Plain.fileread_inPlace {r : Result} (plain : t.Plain p) (inPlace : InPlace fat t.disk t.ep)
    (run : fileread fat p buf n t = .ok (r, u)) :
    t.there fat buf t.off (uint n) = some r ∧ ∃ ep, SameFile t.ep ep ∧ InPlace fat t.disk ep ∧
      u = { t with ep, off := if 0 < r.1 then u32 (t.off + r.1.toNat) else t.off } := by
  rw [fileread, Machine.bind_of_ok (Machine.get_run t),
    if_neg (by rw [plain.readable]; exact Bool.noConfusion), if_neg plain.none, if_neg plain.bench,
    if_neg plain.zero, if_neg plain.urandom] at run
  have safe := Fat.ereadInto_inPlace inPlace buf t.off (uint_lt n)
  cases read : Fat.ereadInto fat t.ep buf t.off (uint n) t.disk with
  | error stop =>
    rw [Machine.bind_of_error (onDisk_error read)] at run
    cases run
  | ok result =>
    obtain ⟨⟨r', bytes, ep⟩, d⟩ := result
    obtain ⟨same, inPlace', rfl⟩ := safe.ok read
    rw [Machine.bind_of_ok (onDisk_ok read)] at run
    cases run
    refine ⟨?_, ep, same, inPlace', rfl⟩
    rw [Opened.there, read]

theorem Opened.Plain.seek (plain : t.Plain p) (off : Nat) : Opened.Plain { t with off } p :=
  ⟨plain.readable, plain.none, plain.bench, plain.zero, plain.urandom⟩

theorem Paired.reread (h : Paired fat t u) {ep : Dirent} (same : SameFile t.ep ep)
    (inPlace : InPlace fat t.disk ep) : Paired fat { t with ep } u where
  alike := ⟨same.symm.trans h.alike.1, h.alike.2⟩
  left := inPlace
  right := h.right

/-- A `pread` that meets the condition leaves everything but the cursor as it was, and has
read its own bytes. -/
theorem Op.pread_silent {op : Op} {r : Result} {t' : Opened} (isPread : op.isPread = true)
    (meets : Meets fat t op) (h : Paired fat t u) (run : op.call fat t = .ok (r, t')) :
    Paired fat t' u ∧ Own fat t r op := by
  cases op with
  | read p buf n => cases isPread
  | write p data n => cases isPread
  | lseek offset whence => cases isPread
  | pread p buf count off =>
    obtain ⟨plain, back⟩ := meets
    have read : fileread fat p buf count { t with off := own off } = .ok (r, t') := run
    obtain ⟨there, ep, same, inPlace, rfl⟩ := (plain.seek (own off)).fileread_inPlace h.left read
    have lands := back r there
    have stays : (if 0 < r.1 then u32 (own off + r.1.toNat) else own off) = t.off := by
      split
      · exact lands
      · next none =>
        have zero : r.1.toNat = 0 := by omega
        rw [zero, Nat.add_zero] at lands
        rw [← lands, own, u32, u32, Nat.mod_mod]
    refine ⟨?_, there⟩
    simp only [stays]
    exact h.reread same inPlace
  | preadSeek off =>
    have here : own off = t.off := meets
    have seek : (.ok ((uint64 off, []), { t with off := own off }) : Except Halt (Result × Opened)) =
        .ok (r, t') := run
    rw [here] at seek
    cases seek
    exact ⟨h, trivial⟩
  | preadRead p buf count off =>
    obtain ⟨plain, here, nothing⟩ := meets
    obtain ⟨there, ep, same, inPlace, rfl⟩ := plain.fileread_inPlace h.left run
    rw [← here] at there
    refine ⟨?_, there⟩
    rw [if_neg (Int.not_lt.mpr (nothing r there))]
    exact h.reread same inPlace

/-! ### Runs -/

theorem results_append (steps steps' : List Step) :
    results (steps ++ steps') = results steps ++ results steps' := List.map_append

theorem Run.neutral {steps : List Step} (run : Run fat (Meets fat) s steps t)
    (inPlace : InPlace fat s.disk s.ep) :
    (∃ steps' u, Run fat (fun _ _ => True) s steps' u ∧
      results steps' = results (steps.filter fun step => !step.op.isPread) ∧ Paired fat t u) ∧
    ∀ step ∈ steps, Own fat step.state step.result step.op := by
  induction run with
  | refl => exact ⟨⟨[], s, .refl, rfl, ⟨⟨.refl s.ep, rfl⟩, inPlace, inPlace⟩⟩, nofun⟩
  | @step steps t t' op r run meets done ih =>
    obtain ⟨⟨steps', u, plain, same, paired⟩, reads⟩ := ih
    rw [List.filter_append, results_append]
    cases isPread : op.isPread with
    | true =>
      obtain ⟨paired', own⟩ := op.pread_silent isPread meets paired done
      refine ⟨⟨steps', u, plain, ?_, paired'⟩, ?_⟩
      · rw [List.filter_singleton, isPread, same]
        exact (List.append_nil _).symm
      · intro step mem
        rcases List.mem_append.mp mem with old | new
        · exact reads step old
        · rw [List.mem_singleton.mp new]
          exact own
    | false =>
      obtain ⟨_, u', done', rfl, paired'⟩ := (op.call_same isPread paired).ok done
      refine ⟨⟨steps' ++ [⟨u, op, r⟩], u', plain.step trivial done', ?_, paired'⟩, ?_⟩
      · rw [results_append, same, List.filter_singleton, isPread]
        rfl
      · intro step mem
        rcases List.mem_append.mp mem with old | new
        · exact reads step old
        · rw [List.mem_singleton.mp new]
          cases op with
          | read p buf n => trivial
          | write p data n => trivial
          | lseek offset whence => trivial
          | pread p buf count off => cases isPread
          | preadSeek off => cases isPread
          | preadRead p buf count off => cases isPread

/-- Where each `pread` ends where the offset was, the rest of the run is as it is without
them. -/
theorem pread_neutral {steps : List Step} (inPlace : InPlace fat s.disk s.ep)
    (run : Run fat (Meets fat) s steps t) : Neutral fat s steps t := by
  obtain ⟨⟨steps', u, plain, same, paired⟩, reads⟩ := run.neutral inPlace
  exact ⟨⟨steps', u, plain, same, paired.alike⟩, reads⟩

/-- A file of three bytes that is open for reading. -/
def threeBytes (off : Nat) : Opened where
  disk := Fat.bareDisk
  ep := { Fat.shortFile with file_size := 3 }
  off
  readable := true
  writable := false
  name _ := []
  char_count _ := 0

theorem threeBytes_inPlace (off : Nat) : InPlace Fat.bareVolume (threeBytes off).disk (threeBytes off).ep := by
  refine .inl ⟨rfl, fun i hi => ?_⟩
  rw [Nat.le_zero.mp hi]
  exact (by decide : Fat.bareVolume.InRange 2)

/-- The state that an operation leaves. -/
def Op.after (op : Op) (s : Opened) : Opened :=
  match op.call Fat.bareVolume s with
  | .ok (_, t) => t
  | .error _ => s

theorem Op.after_ok {op : Op} {r : Result}
    (h : (op.call Fat.bareVolume s).toOption.map Prod.fst = some r) :
    op.call Fat.bareVolume s = .ok (r, op.after s) := by
  obtain ⟨t, run⟩ := Machine.ok_of_value h
  rw [Op.after, run]

/-- Two bytes from the front leave the offset behind them, where it was. -/
theorem pread_neutral_threeBytes :
    let pread : Op := .pread 0 .whole 2 0
    let read : Op := .read 0 .whole 5
    Neutral Fat.bareVolume (threeBytes 2) [⟨threeBytes 2, pread, (2, [0, 0])⟩,
      ⟨pread.after (threeBytes 2), read, (1, [0])⟩] (read.after (pread.after (threeBytes 2))) := by
  intro pread read
  have plain : (threeBytes 2).Plain 0 :=
    ⟨rfl, by decide, by decide, by decide, by decide⟩
  have two : (threeBytes 2).there Fat.bareVolume .whole (own 0) (uint 2) = some (2, [0, 0]) := by
    decide
  have back : Meets Fat.bareVolume (threeBytes 2) pread := by
    refine ⟨plain, fun r there => ?_⟩
    cases two.symm.trans there
    decide
  have first : pread.call Fat.bareVolume (threeBytes 2) = .ok ((2, [0, 0]), pread.after (threeBytes 2)) :=
    Op.after_ok (by decide)
  have second : read.call Fat.bareVolume (pread.after (threeBytes 2)) =
      .ok ((1, [0]), read.after (pread.after (threeBytes 2))) := Op.after_ok (by decide)
  exact pread_neutral (threeBytes_inPlace 2) ((Run.refl.step back first).step trivial second)

/-- A `pread` of the last byte, in front of a read of the whole file. -/
theorem pread_moves_offset :
    let pread : Op := .pread 0 .whole 1 2
    let s := threeBytes 0
    let t := pread.after s
    InPlace Fat.bareVolume s.disk s.ep ∧ (fileread Fat.bareVolume 0 .whole 3 s).toOption.map Prod.fst =
      some (3, [0, 0, 0]) ∧
    Run Fat.bareVolume (fun _ _ => True) s [⟨s, pread, (1, [0])⟩] t ∧
    (fileread Fat.bareVolume 0 .whole 3 t).toOption.map Prod.fst = some (0, []) ∧
    ¬Neutral Fat.bareVolume s [⟨s, pread, (1, [0])⟩] t := by
  intro pread s t
  have done : pread.call Fat.bareVolume s = .ok ((1, [0]), t) := Op.after_ok (by decide)
  refine ⟨threeBytes_inPlace 0, by decide, Run.refl.step trivial done, by decide, ?_⟩
  intro neutral
  obtain ⟨steps', u, plain, same, -, eq⟩ := neutral.others
  have moved : t.off = 3 := by decide
  cases plain with
  | refl => exact absurd ((congrArg Opened.off eq).trans moved) (by decide)
  | step run _ _ => simp [results, Op.isPread, pread] at same

end AvxKernel.File
