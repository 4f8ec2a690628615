import AvxKernel.Fd.Safety

/-! When the calls on an open file follow only the pointer that its type vouches for
and return: for every call, the condition on the file that the call does not check. -/
namespace AvxKernel.Fd

variable {σ E P D α β : Type} {b : Below σ E P} {io : Io σ E P D} {k k' : Kernel σ E P}
  {limit p f : Nat}

/-- The call returns, or waits for a call below that does not. -/
def Safe (x : Call σ E P α) (k : Kernel σ E P) : Prop :=
  Machine.Ends (· = Away) x k fun _ _ => True

/-- The same of any state. -/
abbrev Tame (x : Machine σ α) : Prop := Machine.Only (· = Away) x

theorem Tame.safe {x : Call σ E P α} (h : Tame x) : Safe x k :=
  h k

theorem Tame.round {x : Machine σ (β ⊕ α)} {s : σ} (h : Tame x) :
    Machine.Ends (· = Away) x s fun r _ => ∀ a, r = .inr a → True :=
  (h s).mono fun _ _ _ _ _ => trivial

theorem onBelow_tame {x : Machine σ α} (h : Tame x) : Tame (onBelow (E := E) (P := P) x) :=
  Machine.Only.zoom h

theorem locked_tame (x : Lock σ) : Tame (locked x) := by
  refine Machine.Only.of_error fun s e run => ?_
  unfold locked at run
  split at run
  · cases run
  · cases run
    rfl

theorem setFile_tame (f : Nat) (g : File E P → File E P) : Tame (@setFile σ E P f g) :=
  Machine.Only.modify _

/-! ### The calls below -/

/-- The call below does not panic, neither at an address that it is given nor for a reason
of its own. -/
def Calm (x : Under σ α) (s : σ) : Prop :=
  (∀ access ∈ (x s).1, ¬access.Refused) ∧ ∀ message, (x s).2 ≠ .panics message

/-- The call below comes back. -/
def Backs (x : Under σ α) (s : σ) (a : α) (t : σ) : Prop :=
  (∀ access ∈ (x s).1, ¬access.Refused) ∧ (x s).2 = .back a t

theorem under_refused {x : Under σ α} {s : σ} (h : ¬∀ access ∈ (x s).1, ¬access.Refused) :
    ∃ message, under x s = .error (.panic message) := by
  push Not at h
  obtain ⟨access, member, refused⟩ := h
  have found : ((x s).1.find? (Access.Refused ·)).isSome := by
    rw [List.find?_isSome]
    exact ⟨access, member, decide_eq_true refused⟩
  obtain ⟨first, found⟩ := Option.isSome_iff_exists.mp found
  refine ⟨first.message, ?_⟩
  rw [under, found]

theorem under_accepted {x : Under σ α} {s : σ} (h : ∀ access ∈ (x s).1, ¬access.Refused) :
    under x s = (x s).2.run := by
  have none : (x s).1.find? (Access.Refused ·) = none :=
    List.find?_eq_none.mpr fun access member => by simpa using h access member
  rw [under, none]

theorem under_ok {x : Under σ α} {s t : σ} {a : α} : under x s = .ok (a, t) ↔ Backs x s a t := by
  unfold Backs
  by_cases accepted : ∀ access ∈ (x s).1, ¬access.Refused
  · rw [under_accepted accepted, and_iff_right accepted]
    cases (x s).2 with
    | back b u => simp [Reply.run]
    | waits => simp [Reply.run]
    | panics message => simp [Reply.run]
  · obtain ⟨message, run⟩ := under_refused accepted
    rw [run]
    exact iff_of_false nofun fun h => accepted h.1

theorem under_ends_iff {x : Under σ α} {s : σ} {Q : α → σ → Prop} :
    Machine.Ends (· = Away) (under x) s Q ↔ Calm x s ∧ ∀ a t, Backs x s a t → Q a t := by
  unfold Calm
  by_cases accepted : ∀ access ∈ (x s).1, ¬access.Refused
  · simp only [Machine.Ends, Backs, under_accepted accepted, and_iff_right accepted]
    cases (x s).2 with
    | back b u => simp [Reply.run]
    | waits => simp [Reply.run]
    | panics message => simp [Reply.run, Away]
  · obtain ⟨message, run⟩ := under_refused accepted
    refine iff_of_false (fun ends => ?_) fun h => accepted h.1.1
    exact absurd (ends.error run) nofun

theorem locked_ends_iff {x : Lock σ} {s : σ} {Q : Unit → σ → Prop} :
    Machine.Ends (· = Away) (locked x) s Q ↔ ∀ t, x s = some t → Q () t := by
  unfold Machine.Ends locked
  cases x s with
  | none => simp
  | some t => simp

theorem copyout_ends_iff {dstva : Nat} {store : σ → α × σ} {s : σ} {Q : α → σ → Prop} :
    Machine.Ends (· = Away) (copyout dstva store) s Q ↔
      dstva ≤ Vm.MAXVA ∧ Q (store s).1 (store s).2 := by
  refine Machine.Ends.ite_iff.trans ?_
  by_cases low : dstva ≤ Vm.MAXVA
  · have taken : ¬Access.Refused (.copyout dstva) := Nat.not_lt.mpr low
    simp only [taken, false_implies, true_and, not_false_eq_true, true_implies, low]
    rfl
  · refine iff_of_false (fun h => ?_) fun h => low h.1
    exact absurd (h.1 (Nat.lt_of_not_le low)) nofun

theorem copyout_ok {dstva : Nat} {store : σ → α × σ} {s t : σ} {a : α} :
    copyout dstva store s = .ok (a, t) ↔ dstva ≤ Vm.MAXVA ∧ (store s).1 = a ∧ (store s).2 = t := by
  unfold copyout
  by_cases low : dstva ≤ Vm.MAXVA
  · rw [if_neg (show ¬Access.Refused (.copyout dstva) from Nat.not_lt.mpr low), and_iff_right low]
    simp [Prod.ext_iff]
  · rw [if_pos (show Access.Refused (.copyout dstva) from Nat.lt_of_not_le low)]
    exact iff_of_false nofun fun h => low h.1

/-! ### What is safe and what is not -/

theorem safe_pure (a : α) : Safe (pure a : Call σ E P α) k :=
  trivial

theorem not_safe_halt {h : Halt} (ne : h ≠ Away) : ¬Safe (Machine.halt h : Call σ E P α) k :=
  ne

theorem safe_get_bind {x : Kernel σ E P → Call σ E P β} : Safe (get >>= x) k ↔ Safe (x k) k :=
  Iff.rfl

theorem safe_bind {x : Call σ E P α} {y : α → Call σ E P β} {a : α} (run : x k = .ok (a, k')) :
    Safe (x >>= y) k ↔ Safe (y a) k' := by
  unfold Safe Machine.Ends
  rw [Machine.bind_of_ok run]

theorem safe_bind_error {x : Call σ E P α} {y : α → Call σ E P β} {e : Halt}
    (run : x k = .error e) (ne : e ≠ Away) : ¬Safe (x >>= y) k := by
  unfold Safe Machine.Ends
  rwa [Machine.bind_of_error run]

/-- A part below. -/
theorem safe_onBelow {x : Machine σ α} :
    Safe (onBelow (E := E) (P := P) x) k ↔ Machine.Ends (· = Away) x k.below fun _ _ => True :=
  Machine.Ends.zoom_iff

theorem safe_onBelow_bind {x : Machine σ α} {y : α → Call σ E P β} :
    Safe (onBelow x >>= y) k ↔
      Machine.Ends (· = Away) x k.below fun a t => Safe (y a) { k with below := t } :=
  Machine.Ends.bind_iff.trans Machine.Ends.zoom_iff

/-- A part below, after which nothing can go wrong. -/
theorem safe_onBelow_tame {x : Machine σ α} {y : α → Call σ E P β} (rest : ∀ a, Tame (y a)) :
    Safe (onBelow x >>= y) k ↔ Machine.Ends (· = Away) x k.below fun _ _ => True := by
  refine safe_onBelow_bind.trans ⟨fun ends => ends.mono fun _ _ _ => trivial, fun ends => ?_⟩
  exact ends.mono fun a _ _ => (rest a).safe

theorem safe_under_tame {x : Under σ α} {y : α → Call σ E P β} (rest : ∀ a, Tame (y a)) :
    Safe (onBelow (under x) >>= y) k ↔ Calm x k.below := by
  rw [safe_onBelow_tame rest, under_ends_iff]
  exact and_iff_left fun _ _ _ => trivial

theorem safe_under {x : Under σ α} : Safe (onBelow (E := E) (P := P) (under x)) k ↔ Calm x k.below := by
  rw [safe_onBelow, under_ends_iff]
  exact and_iff_left fun _ _ _ => trivial

/-- A pointer of the file is followed. -/
theorem safe_epOf_bind {y : E → Call σ E P β} (sound : Sound k) :
    Safe (epOf f >>= y) k ↔
      (k.file f).type = .entry ∧ ∀ ep, (k.file f).ep = some ep → Safe (y ep) k := by
  by_cases entry : (k.file f).type = .entry
  · obtain ⟨ep, points⟩ := (sound f).entry entry
    have run : epOf f k = .ok (ep, k) := by
      rw [epOf, Machine.bind_of_ok (Machine.get_run k), points]
      dsimp only
      rw [if_pos entry]
      rfl
    simp [safe_bind run, entry, points]
  · refine iff_of_false ?_ fun h => entry h.1
    refine safe_bind_error (e := if (k.file f).ep.isNone then .fault else Wild) ?_ ?_
    · rw [epOf, Machine.bind_of_ok (Machine.get_run k)]
      cases (k.file f).ep with
      | none => rfl
      | some ep =>
        dsimp only
        rw [if_neg entry]
        rfl
    · split
      · exact nofun
      · exact nofun

theorem safe_pipeOf_bind {y : P → Call σ E P β} (sound : Sound k)
    (pipe : (k.file f).type = .pipe) :
    Safe (pipeOf f >>= y) k ↔ ∀ pi, (k.file f).pipe = some pi → Safe (y pi) k := by
  obtain ⟨pi, points⟩ := (sound f).pipe pipe
  have run : pipeOf f k = .ok (pi, k) := by
    rw [pipeOf, Machine.bind_of_ok (Machine.get_run k), points]
    dsimp only
    rw [if_pos pipe]
    rfl
  simp [safe_bind run, points]

/-! ### `fileread` and `filewrite` -/

variable {s t : σ} {ep : E} {off addr : Nat} {n : Int}

/-- A process of the benchmark on one of its temporary files. -/
def Io.Bench (io : Io σ E P D) (s : σ) (p : Nat) (ep : E) : Prop :=
  (cstr "libc-bench").isPrefixOf (io.name s p) ∧ (cstr "tmpfile_").isPrefixOf (io.filename s ep)

/-- `fileread` copies one character out instead of the file. -/
def Io.OneChar (io : Io σ E P D) (s : σ) (p : Nat) (ep : E) : Prop :=
  io.Bench s p ep ∨ (cstr "zero").isPrefixOf (io.filename s ep) ∨
    (cstr "urandom").isPrefixOf (io.filename s ep)

/-- What the case of an entry in `fileread` asks, once the entry is locked. -/
def Io.Reads (io : Io σ E P D) (s : σ) (p : Nat) (ep : E) (off addr : Nat) (n : Int) : Prop :=
  ∀ t, io.elock ep s = some t → ¬0 < io.char_count t p →
    (io.OneChar t p ep → addr ≤ Vm.MAXVA) ∧
    (¬io.OneChar t p ep → Calm (io.eread p ep addr off (n % 2 ^ 32).toNat) t)

/-- The same of `filewrite`. -/
def Io.Writes (io : Io σ E P D) (s : σ) (p : Nat) (ep : E) (off addr : Nat) (n : Int) : Prop :=
  ∀ t, io.elock ep s = some t → io.char_count t p = 0 → ¬io.Bench t p ep →
    Calm (io.ewrite p ep addr off (n % 2 ^ 32).toNat) t

/-- After a character is copied out there is a result. -/
theorem copied_ends_iff {ch : UInt8} {r : Int × Nat} :
    Machine.Ends (· = Away) (do
      copyoutChar io p addr ch
      return r) s (fun _ _ => True) ↔ addr ≤ Vm.MAXVA :=
  Machine.Ends.bind_iff.trans (copyout_ends_iff.trans (and_iff_left trivial))

theorem readEntry_ends_iff :
    Machine.Ends (· = Away) (readEntry io p ep off addr n) s (fun _ _ => True) ↔
      io.Reads s p ep off addr n := by
  refine Machine.Ends.bind_iff.trans (locked_ends_iff.trans (forall₂_congr fun t _ => ?_))
  refine (Machine.Ends.ite_iff (s := t)).trans ?_
  refine (and_iff_right fun _ => trivial).trans (imp_congr_right fun _ => ?_)
  refine Machine.Ends.ite_iff.trans ?_
  by_cases bench : io.Bench t p ep
  · have one : io.OneChar t p ep := .inl bench
    refine (and_iff_left fun no => absurd bench no).trans ?_
    simp only [one, true_implies, not_true_eq_false, false_implies, and_true]
    exact (imp_iff_right bench).trans (copied_ends_iff (s := io.eunlock ep t))
  refine (and_iff_right fun yes => absurd yes bench).trans ((imp_iff_right bench).trans ?_)
  have unlocks : ∀ x : Machine σ (Int × Nat), Machine.Ends (· = Away) (x >>= fun r => do
      modify (io.eunlock ep)
      return r) t (fun _ _ => True) ↔ Machine.Ends (· = Away) x t fun _ _ => True :=
    fun _ => Machine.Ends.bind_iff
  refine (unlocks _).trans (Machine.Ends.ite_iff.trans ?_)
  by_cases zero : (cstr "zero").isPrefixOf (io.filename t ep)
  · have one : io.OneChar t p ep := .inr (.inl zero)
    simp only [zero, one, true_implies, not_true_eq_false, false_implies, and_true]
    exact copied_ends_iff
  refine (and_iff_right fun yes => absurd yes zero).trans ((imp_iff_right zero).trans ?_)
  refine Machine.Ends.ite_iff.trans ?_
  by_cases urandom : (cstr "urandom").isPrefixOf (io.filename t ep)
  · have one : io.OneChar t p ep := .inr (.inr urandom)
    simp only [urandom, one, true_implies, not_true_eq_false, false_implies, and_true]
    exact copied_ends_iff
  have whole : ¬io.OneChar t p ep := by
    rintro (h | h | h)
    · exact bench h
    · exact zero h
    · exact urandom h
  refine (and_iff_right fun yes => absurd yes urandom).trans ((imp_iff_right urandom).trans ?_)
  simp only [whole, false_implies, true_implies, true_and, not_false_eq_true]
  refine Machine.Ends.bind_iff.trans (under_ends_iff.trans (and_iff_left fun _ _ _ => ?_))
  exact Machine.Ends.pure trivial

theorem writeEntry_ends_iff :
    Machine.Ends (· = Away) (writeEntry io p ep off addr n) s (fun _ _ => True) ↔
      io.Writes s p ep off addr n := by
  refine Machine.Ends.bind_iff.trans (locked_ends_iff.trans (forall₂_congr fun t _ => ?_))
  refine (Machine.Ends.ite_iff (s := t)).trans ?_
  refine (and_iff_right fun _ => trivial).trans (imp_congr not_not ?_)
  refine Machine.Ends.ite_iff.trans ?_
  refine (and_iff_right fun _ => trivial).trans (imp_congr_right fun _ => ?_)
  have unlocks : ∀ r, Tame (do
      modify (io.eunlock ep)
      return if r = n then (n, (n % 2 ^ 32).toNat) else (-1, 0) : Machine σ (Int × Nat)) :=
    fun _ => Machine.Only.bind (Machine.Only.modify _) fun _ => Machine.Only.pure _
  exact Machine.Ends.bind_iff.trans (under_ends_iff.trans (and_iff_left fun r u _ => unlocks r u))

/-- The device that is asked for, if there is one. -/
def Io.Serves (io : Io σ E P D) (op : Nat → Option (Nat → Nat → Int → Under σ Int))
    (s : σ) (p f addr : Nat) (n : Int) : Prop :=
  0 ≤ io.major s f → io.major s f < NDEV →
    ∀ call, op (io.major s f).toNat = some call → Calm (call p addr n) s

theorem device_safe {op : Nat → Option (Nat → Nat → Int → Under σ Int)} :
    Safe (device io op p f addr n) k ↔ io.Serves op k.below p f addr n := by
  rw [device, safe_get_bind]
  unfold Io.Serves
  dsimp only
  split
  · next none => exact iff_of_true (safe_pure _) fun low high => by omega
  next there =>
  rw [imp_iff_right (show 0 ≤ io.major k.below f by omega),
    imp_iff_right (show io.major k.below f < NDEV by omega)]
  split
  · next missing => exact iff_of_true (safe_pure _) fun call found => by simp [missing] at found
  · next call found =>
    rw [safe_under]
    simp [found]

/-- What the case of an entry has in common in the two calls. -/
theorem moved_safe {x : E → Machine σ (Int × Nat)} (sound : Sound k)
    (entry : (k.file f).type = .entry) : Safe (do
      let ep ← epOf f
      let (r, step) ← onBelow (x ep)
      moveOff f step
      return r : Call σ E P Int) k ↔ ∀ ep, (k.file f).ep = some ep →
        Machine.Ends (· = Away) (x ep) k.below fun _ _ => True := by
  refine (safe_epOf_bind sound).trans ((and_iff_right entry).trans ?_)
  refine forall₂_congr fun ep _ => safe_onBelow_tame fun _ => ?_
  exact Machine.Only.bind (setFile_tame f _) fun _ => Machine.Only.pure _

/-- What `fileread` asks of a readable file. -/
def Readable (io : Io σ E P D) (k : Kernel σ E P) (p f addr : Nat) (n : Int) : Prop :=
  match (k.file f).type with
  | .pipe => ∀ pi, (k.file f).pipe = some pi → Calm (io.piperead p pi addr n) k.below
  | .device => io.Serves io.devread k.below p f addr n
  | .entry => ∀ ep, (k.file f).ep = some ep → io.Reads k.below p ep (k.file f).off addr n
  | .null | .none | .sock => False

/-- What `filewrite` asks of a writable file. -/
def Writable (io : Io σ E P D) (k : Kernel σ E P) (p f addr : Nat) (n : Int) : Prop :=
  match (k.file f).type with
  | .pipe => ∀ pi, (k.file f).pipe = some pi → Calm (io.pipewrite p pi addr n) k.below
  | .device => io.Serves io.devwrite k.below p f addr n
  | .entry => ∀ ep, (k.file f).ep = some ep → io.Writes k.below p ep (k.file f).off addr n
  | .null => True
  | .none | .sock => False

theorem fileread_safe (sound : Sound k) :
    Safe (fileread io p f addr n) k ↔
      ((k.file f).readable = true → Readable io k p f addr n) := by
  rw [fileread, safe_get_bind]
  split
  · next closed => simp [closed, safe_pure]
  · next readable =>
    rw [Bool.not_eq_false] at readable
    simp only [readable, true_implies, Readable]
    cases type : (k.file f).type with
    | pipe => exact (safe_pipeOf_bind sound type).trans (forall₂_congr fun _ _ => safe_under)
    | device => exact device_safe
    | entry => exact (moved_safe sound type).trans (forall₂_congr fun _ _ => readEntry_ends_iff)
    | null =>
      refine iff_of_false ?_ id
      dsimp only
      split
      · exact not_safe_halt (by decide)
      · exact not_safe_halt (by decide)
    | none => exact iff_of_false (not_safe_halt (by decide)) id
    | sock => exact iff_of_false (not_safe_halt (by decide)) id

theorem filewrite_safe (sound : Sound k) :
    Safe (filewrite io p f addr n) k ↔
      ((k.file f).writable = true → Writable io k p f addr n) := by
  rw [filewrite, safe_get_bind]
  split
  · next closed => simp [closed, safe_pure]
  · next writable =>
    rw [Bool.not_eq_false] at writable
    simp only [writable, true_implies, Writable]
    cases type : (k.file f).type with
    | pipe => exact (safe_pipeOf_bind sound type).trans (forall₂_congr fun _ _ => safe_under)
    | device => exact device_safe
    | entry => exact (moved_safe sound type).trans (forall₂_congr fun _ _ => writeEntry_ends_iff)
    | null => exact iff_of_true (safe_pure n) trivial
    | none => exact iff_of_false (not_safe_halt (by decide)) id
    | sock => exact iff_of_false (not_safe_halt (by decide)) id

/-! ### `fileseek` -/

theorem locked_below_tame (x : Lock σ) : Tame (onBelow (E := E) (P := P) (locked x)) :=
  onBelow_tame (locked_tame x)

theorem modify_below_tame (g : σ → σ) : Tame (onBelow (E := E) (P := P) (modify g)) :=
  onBelow_tame (Machine.Only.modify g)

theorem fileseek_safe (sound : Sound k) {offset : Nat} {whence : Int} :
    Safe (fileseek io f offset whence) k := by
  rw [fileseek, safe_get_bind]
  cases type : (k.file f).type with
  | entry =>
    dsimp only
    refine (safe_epOf_bind sound).mpr ⟨type, fun ep _ => Tame.safe ?_⟩
    refine Machine.Only.bind (locked_below_tame _) fun _ => Machine.Only.bind ?_ fun _ =>
      Machine.Only.bind (modify_below_tame _) fun _ => Machine.Only.pure _
    refine Machine.Only.ite ?_ (Machine.Only.ite ?_ (Machine.Only.ite ?_ (Machine.Only.pure _)))
    · exact Machine.Only.bind (setFile_tame _ _) fun _ => Machine.Only.pure _
    · exact Machine.Only.bind (setFile_tame _ _) fun _ => Machine.Only.pure _
    · exact Machine.Only.bind Machine.Only.get fun _ =>
        Machine.Only.bind (setFile_tame _ _) fun _ => Machine.Only.pure _
  | pipe =>
    dsimp only
    refine (safe_pipeOf_bind sound type).mpr fun pi _ => Tame.safe ?_
    refine Machine.Only.bind (locked_below_tame _) fun _ => Machine.Only.bind ?_ fun _ =>
      Machine.Only.bind (modify_below_tame _) fun _ => Machine.Only.pure _
    refine Machine.Only.ite ?_ (Machine.Only.ite ?_ (Machine.Only.pure _))
    · exact Machine.Only.bind (setFile_tame _ _) fun _ => Machine.Only.pure _
    · exact Machine.Only.bind (setFile_tame _ _) fun _ => Machine.Only.pure _
  | device => exact safe_pure _
  | null => exact safe_pure _
  | none => exact safe_pure _
  | sock => exact safe_pure _

/-! ### Directories -/

/-- What the calls on directories count on: their entry stays a directory while they work,
and a run of empty slots ends before the offset wraps. -/
structure Steady (io : Io σ E P D) : Prop where
  elock : ∀ ep s t, io.elock ep s = some t → io.attr (io.dirent t ep) = io.attr (io.dirent s ep)
  scan : ∀ ep off s r t, Backs (io.scan ep off) s r t →
    io.attr (io.dirent t ep) = io.attr (io.dirent s ep)
  store : ∀ p addr off size de s ep, io.attr (io.dirent (io.storeDirent p addr off size de s).2 ep) =
    io.attr (io.dirent s ep)
  empty : ∀ ep off s de count t, Backs (io.scan ep off) s (0, de, count) t →
    0 < count ∧ off + count * 32 < 2 ^ 32

/-- The entry is a directory. -/
def Io.IsDir (io : Io σ E P D) (s : σ) (ep : E) : Prop :=
  io.attr (io.dirent s ep) &&& Fat.ATTR_DIRECTORY ≠ 0

theorem Io.IsDir.of_attr (dir : io.IsDir s ep)
    (same : io.attr (io.dirent t ep) = io.attr (io.dirent s ep)) : io.IsDir t ep := by
  unfold Io.IsDir
  rwa [same]

theorem enext_run (dir : io.IsDir s ep) (aligned : off % 32 = 0) :
    enext io ep off s = under (io.scan ep off) s := by
  rw [enext, Machine.bind_of_ok (Machine.get_run s), if_neg dir, if_neg (not_not.mpr aligned)]

theorem enext_unaligned (dir : io.IsDir s ep) (unaligned : off % 32 ≠ 0) :
    enext io ep off s = .error (.panic "enext not align") := by
  rw [enext, Machine.bind_of_ok (Machine.get_run s), if_neg dir, if_pos unaligned]
  rfl

/-- The loops over a directory start with `enext`. -/
theorem loop_unaligned {body : β → Machine σ (β ⊕ α)} {b : β} (dir : io.IsDir s ep)
    (unaligned : off % 32 ≠ 0) (first : ∃ rest, body b = enext io ep off >>= rest)
    (enough : 0 < limit) : Machine.loop body limit b s = .error (.panic "enext not align") := by
  obtain ⟨limit, rfl⟩ := Nat.exists_eq_add_one_of_ne_zero (Nat.ne_of_gt enough)
  obtain ⟨rest, first⟩ := first
  refine Machine.bind_of_error ?_
  rw [first]
  exact Machine.bind_of_error (enext_unaligned dir unaligned)

theorem u32_aligned {off : Nat} (aligned : off % 32 = 0) (count : Nat) :
    u32 (off + count * 32) % 32 = 0 := by
  unfold u32
  omega

/-- The offset of the next round is further on. -/
theorem u32_empty {off count : Nat} (h : 0 < count ∧ off + count * 32 < 2 ^ 32) :
    2 ^ 32 - u32 (off + count * 32) < 2 ^ 32 - off := by
  unfold u32
  rw [Nat.mod_eq_of_lt h.2]
  omega

/-- From a run of empty slots to what comes after it. -/
def Io.Skips (io : Io σ E P D) (ep : E) (x y : Nat × σ) : Prop :=
  ∃ de count, Backs (io.scan ep x.1) x.2 (0, de, count) y.2 ∧ y.1 = u32 (x.1 + count * 32)

/-- What the loop of `readdir` and the copy after it ask: no slot that is reached makes the
scan panic, and for an entry that is found there is a place that `copyout` takes. -/
def Io.NextFits (io : Io σ E P D) (s : σ) (ep : E) (off addr : Nat) : Prop :=
  ∀ y, Relation.ReflTransGen (io.Skips ep) (off, s) y → Calm (io.scan ep y.1) y.2 ∧
    ∀ ret de count t, Backs (io.scan ep y.1) y.2 (ret, de, count) t →
      ret ≠ 0 → ret ≠ -1 → addr ≤ Vm.MAXVA

section Steady

variable (steady : Steady io)

include steady

theorem Steady.skips {c : Nat} (dir : io.IsDir s ep ∧ off % 32 = 0)
    (skip : io.Skips ep (off, s) (c, t)) :
    (io.IsDir t ep ∧ c % 32 = 0) ∧ 2 ^ 32 - c < 2 ^ 32 - off := by
  obtain ⟨de, count, scanned, rfl⟩ := skip
  exact ⟨⟨dir.1.of_attr (steady.scan _ _ _ _ _ scanned), u32_aligned dir.2 _⟩,
    u32_empty (steady.empty _ _ _ _ _ _ scanned)⟩

theorem nextEntry_ends_iff (dir : io.IsDir s ep) (aligned : off % 32 = 0) (enough : 2 ^ 32 < limit) :
    Machine.Ends (· = Away) (nextEntry io limit ep off) s (fun r _ => r.1 ≠ -1 → addr ≤ Vm.MAXVA) ↔
      io.NextFits s ep off addr := by
  refine (Machine.Ends.loop_iff (I := fun off s => io.IsDir s ep ∧ off % 32 = 0)
    (m := fun off => 2 ^ 32 - off) (R := io.Skips ep) ?leads (fun _ _ _ _ => steady.skips)
    ⟨dir, aligned⟩ (Nat.lt_of_le_of_lt (Nat.sub_le _ _) enough)).trans ?_
  case leads =>
    rintro off s c t ⟨dir, aligned⟩
    constructor
    · intro run
      obtain ⟨⟨ret, de, count⟩, u, scanned, rest⟩ := Machine.bind_ok.mp run
      rw [enext_run dir aligned] at scanned
      dsimp only at rest
      split at rest
      · next empty =>
        subst empty
        cases rest
        exact ⟨de, count, under_ok.mp scanned, rfl⟩
      · cases rest
    · rintro ⟨de, count, scanned, rfl⟩
      exact Machine.bind_of_ok ((enext_run dir aligned).trans (under_ok.mpr scanned))
  refine forall₂_congr fun y reached => ?_
  have kept := Machine.Ends.rounds_keep (fun _ _ _ _ dir skip => (steady.skips dir skip).1)
    ⟨dir, aligned⟩ reached
  refine Machine.Ends.bind_iff.trans ((Machine.Ends.congr_run (enext_run kept.1 kept.2)).trans ?_)
  refine under_ends_iff.trans (and_congr_right fun _ => ?_)
  constructor
  · intro ends ret de count t scanned found left
    have last := ends (ret, de, count) t scanned
    dsimp only at last
    rw [if_neg found] at last
    exact last _ rfl left
  · rintro fits ⟨ret, de, count⟩ t scanned
    refine Machine.Ends.ite (fun _ => Machine.Ends.pure nofun) fun found => Machine.Ends.pure ?_
    rintro a ⟨⟩ left
    exact fits ret de count t scanned found left

/-- From one record of `getdents64`, or from a run of empty slots, to the next: the offset,
the address, the room and the size so far. -/
inductive Io.Lists (io : Io σ E P D) (p : Nat) (ep : E) :
    (Nat × Nat × Int × Int) × σ → (Nat × Nat × Int × Int) × σ → Prop
  | empty {off addr count : Nat} {n copysize : Int} {s t : σ} {de : D}
    (scanned : Backs (io.scan ep off) s (0, de, count) t) :
    Lists io p ep ((off, addr, n, copysize), s) ((u32 (off + count * 32), addr, n, copysize), t)
  | record {off addr count : Nat} {n copysize ret : Int} {s t : σ} {de : D}
    (scanned : Backs (io.scan ep off) s (ret, de, count) t) (found : ret ≠ 0) (left : ret ≠ -1)
    (room : reclen (io.d_name de) ≤ n) (low : addr ≤ Vm.MAXVA)
    (stored : (io.storeDirent p addr off (reclen (io.d_name de)) de t).1 = true) :
    Lists io p ep ((off, addr, n, copysize), s)
      ((u32 (off + count * 32), u64 (addr + reclen (io.d_name de)), n - reclen (io.d_name de),
        copysize + reclen (io.d_name de)), (io.storeDirent p addr off (reclen (io.d_name de)) de t).2)

/-- What `getdents64` asks: no slot that is reached makes the scan panic, and each record for
which there is room has an address that `copyout` takes. -/
def Io.RecordsFit (io : Io σ E P D) (p : Nat) (s : σ) (ep : E) (off addr : Nat) (n : Int) : Prop :=
  ∀ y, Relation.ReflTransGen (io.Lists p ep) ((off, addr, n, 0), s) y →
    Calm (io.scan ep y.1.1) y.2 ∧
    ∀ ret de count t, Backs (io.scan ep y.1.1) y.2 (ret, de, count) t →
      ret ≠ 0 → ret ≠ -1 → reclen (io.d_name de) ≤ y.1.2.2.1 → y.1.2.1 ≤ Vm.MAXVA

/-- With each record there is less room, and between two records the offset goes on. -/
theorem Steady.lists {b c : Nat × Nat × Int × Int} (dir : io.IsDir s ep ∧ b.1 % 32 = 0)
    (lists : io.Lists p ep (b, s) (c, t)) : (io.IsDir t ep ∧ c.1 % 32 = 0) ∧
      c.2.2.1.toNat * (2 ^ 32 + 1) + (2 ^ 32 - c.1) < b.2.2.1.toNat * (2 ^ 32 + 1) + (2 ^ 32 - b.1) := by
  cases lists with
  | empty scanned =>
    have further := u32_empty (steady.empty _ _ _ _ _ _ scanned)
    exact ⟨⟨dir.1.of_attr (steady.scan _ _ _ _ _ scanned), u32_aligned dir.2 _⟩,
      Nat.add_lt_add_left further _⟩
  | @record off addr count n copysize ret _ u de scanned found left room low stored =>
    have kept := dir.1.of_attr ((steady.store p addr off (reclen (io.d_name de)) de u ep).trans
      (steady.scan _ _ _ _ _ scanned))
    refine ⟨⟨kept, u32_aligned dir.2 _⟩, ?_⟩
    have smaller : (n - (reclen (io.d_name de) : Nat)).toNat + 1 ≤ n.toNat := by
      have : 8 ≤ reclen (io.d_name de) := by
        unfold reclen
        omega
      omega
    have := Nat.mul_le_mul_right (2 ^ 32 + 1) smaller
    dsimp only
    omega

theorem nextDirents_ends_iff (dir : io.IsDir s ep) (aligned : off % 32 = 0)
    (enough : (n.toNat + 1) * (2 ^ 32 + 1) < limit) :
    Machine.Ends (· = Away) (nextDirents io limit p ep off addr n) s (fun _ _ => True) ↔
      io.RecordsFit p s ep off addr n := by
  refine (Machine.Ends.loop_iff (I := fun b s => io.IsDir s ep ∧ b.1 % 32 = 0)
    (m := fun b => b.2.2.1.toNat * (2 ^ 32 + 1) + (2 ^ 32 - b.1)) (R := io.Lists p ep) ?leads
    (fun _ _ _ _ => steady.lists) ⟨dir, aligned⟩ ?_).trans ?_
  case leads =>
    rintro ⟨off, addr, n, copysize⟩ s ⟨c⟩ t ⟨dir, aligned⟩
    constructor
    · intro run
      obtain ⟨⟨ret, de, count⟩, u, scanned, rest⟩ := Machine.bind_ok.mp run
      rw [enext_run dir aligned, under_ok] at scanned
      dsimp only at rest
      split at rest
      · next empty =>
        subst empty
        cases rest
        exact .empty scanned
      split at rest
      · cases rest
      split at rest
      · cases rest
      next found left room =>
      obtain ⟨stored, v, copied, rest⟩ := Machine.bind_ok.mp rest
      obtain ⟨low, rfl, rfl⟩ := copyout_ok.mp copied
      split at rest
      · next stored =>
        cases rest
        exact .record scanned found left (Int.not_lt.mp room) low stored
      · cases rest
    · intro lists
      cases lists with
      | empty scanned =>
        exact Machine.bind_of_ok ((enext_run dir aligned).trans (under_ok.mpr scanned))
      | @record _ _ count _ _ ret _ u de scanned found left room low stored =>
        refine (Machine.bind_of_ok ((enext_run dir aligned).trans (under_ok.mpr scanned))).trans ?_
        dsimp only
        rw [if_neg found, if_neg left, if_neg (Int.not_lt.mpr room),
          Machine.bind_of_ok (copyout_ok.mpr ⟨low, rfl, rfl⟩), if_pos stored]
        rfl
  · dsimp only
    have : 2 ^ 32 - off ≤ 2 ^ 32 := Nat.sub_le _ _
    rw [Nat.add_mul] at enough
    omega
  refine forall₂_congr fun y reached => ?_
  have kept := Machine.Ends.rounds_keep (I := fun b s => io.IsDir s ep ∧ b.1 % 32 = 0)
    (fun _ _ _ _ dir lists => (steady.lists dir lists).1) ⟨dir, aligned⟩ reached
  refine Machine.Ends.bind_iff.trans ((Machine.Ends.congr_run (enext_run kept.1 kept.2)).trans ?_)
  refine under_ends_iff.trans (and_congr_right fun _ => ?_)
  constructor
  · intro ends ret de count t scanned found left room
    have last := ends (ret, de, count) t scanned
    dsimp only at last
    rw [if_neg found, if_neg left, if_neg (Int.not_lt.mpr room)] at last
    exact (copyout_ends_iff.mp (Machine.Ends.bind_iff.mp last)).1
  · rintro fits ⟨ret, de, count⟩ t scanned
    have leaves : ∀ r : Int × Nat, Tame (do
        modify (io.eunlock ep)
        return .inr r : Machine σ ((Nat × Nat × Int × Int) ⊕ Int × Nat)) :=
      fun _ => Machine.Only.bind (Machine.Only.modify _) fun _ => Machine.Only.pure _
    refine Machine.Ends.ite (fun _ => Machine.Ends.pure nofun) fun found => ?_
    refine Machine.Ends.ite (fun _ => (leaves _).round) fun left => ?_
    refine Machine.Ends.ite (fun _ => (leaves _).round) fun room => ?_
    refine Machine.Ends.bind_iff.mpr (copyout_ends_iff.mpr ?_)
    refine ⟨fits ret de count t scanned found left (Int.not_lt.mp room), Tame.round ?_⟩
    exact Machine.Only.ite (Machine.Only.pure _) (leaves _)

end Steady

/-- What the file of `readdir` and of `getdents64` has to be. An offset that is no multiple of
a slot's size is seen by `enext`, if the lock of the directory is ever got. -/
def Listable (io : Io σ E P D) (k : Kernel σ E P) (f : Nat) (listed : E → σ → Prop) : Prop :=
  (k.file f).type = .entry ∧ ∀ ep, (k.file f).ep = some ep → io.IsDir k.below ep →
    ∀ t, io.elock ep k.below = some t → (k.file f).off % 32 = 0 ∧ listed ep t

/-- What the two calls have in common up to their loops. -/
theorem listing_safe (steady : Steady io) (sound : Sound k) {r : α} {y : E → Call σ E P α}
    {listed : E → σ → Prop}
    (loop : ∀ ep t, io.elock ep k.below = some t → io.IsDir t ep →
      (Safe (y ep) { k with below := t } ↔ (k.file f).off % 32 = 0 ∧ listed ep t)) :
    Safe (if (k.file f).readable = false then
        return r
      else do
        let ep ← epOf f
        if io.attr (io.dirent k.below ep) &&& Fat.ATTR_DIRECTORY = 0 then
          return r
        else
          onBelow (locked (io.elock ep))
          y ep) k ↔ ((k.file f).readable = true → Listable io k f listed) := by
  split
  · next closed => simp [closed, safe_pure]
  next readable =>
  rw [Bool.not_eq_false] at readable
  simp only [readable, true_implies]
  rw [safe_epOf_bind sound]
  refine and_congr_right fun _ => forall₂_congr fun ep _ => ?_
  split
  · next file => exact iff_of_true (safe_pure _) fun dir => absurd file dir
  next dir =>
  have dir : io.IsDir k.below ep := dir
  rw [imp_iff_right dir]
  refine safe_onBelow_bind.trans (locked_ends_iff.trans (forall₂_congr fun t got => ?_))
  exact loop ep t got (dir.of_attr (steady.elock ep _ t got))

/-- What `readdir` does with the slot that its loop has stopped at. -/
theorem found_safe (r : Int × D × Nat × Nat) : Safe (do
      setFile f fun file => { file with off := r.2.2.2 }
      onBelow (modify (io.eunlock ep))
      if r.1 = -1 then
        return 0
      else
        moveOff f (r.2.2.1 * 32)
        if ← onBelow (copyout addr (io.storeStat p addr r.2.1)) then return 1 else return -1 :
      Call σ E P Int) k ↔ (r.1 ≠ -1 → addr ≤ Vm.MAXVA) := by
  refine (safe_bind rfl).trans ((safe_bind rfl).trans (Machine.Ends.ite_iff.trans ?_))
  refine (and_iff_right fun _ => safe_pure _).trans (imp_congr_right fun _ => ?_)
  refine (safe_bind rfl).trans (safe_onBelow_bind.trans (copyout_ends_iff.trans ?_))
  refine and_iff_left (Tame.safe ?_)
  exact Machine.Only.ite (Machine.Only.pure _) (Machine.Only.pure _)

theorem dirnext_safe (steady : Steady io) (sound : Sound k) (enough : 2 ^ 32 < limit) :
    Safe (dirnext io limit p f addr) k ↔ ((k.file f).readable = true →
      Listable io k f fun ep t => io.NextFits t ep (k.file f).off addr) := by
  refine listing_safe steady sound fun ep t got dir => safe_onBelow_bind.trans ?_
  by_cases aligned : (k.file f).off % 32 = 0
  · rw [and_iff_right aligned, ← nextEntry_ends_iff steady dir aligned enough]
    exact Machine.Ends.congr_post fun r u => found_safe r
  · refine iff_of_false (fun ends => ?_) fun h => aligned h.1
    have stops : nextEntry io limit ep (k.file f).off t = _ :=
      loop_unaligned dir aligned ⟨_, rfl⟩ (by omega)
    exact absurd (ends.error stops) nofun

theorem get_next_dirent_safe (steady : Steady io) (sound : Sound k)
    (enough : (n.toNat + 1) * (2 ^ 32 + 1) < limit) :
    Safe (get_next_dirent io limit p f addr n) k ↔ ((k.file f).readable = true →
      Listable io k f fun ep t => io.RecordsFit p t ep (k.file f).off addr n) := by
  refine listing_safe steady sound fun ep t got dir => ?_
  refine (safe_onBelow_tame fun r => ?_).trans ?_
  · exact Machine.Only.bind (setFile_tame _ _) fun _ => Machine.Only.pure _
  by_cases aligned : (k.file f).off % 32 = 0
  · rw [and_iff_right aligned]
    exact nextDirents_ends_iff steady dir aligned enough
  · refine iff_of_false (fun ends => ?_) fun h => aligned h.1
    have stops : nextDirents io limit p ep (k.file f).off addr n t = _ :=
      loop_unaligned dir aligned ⟨_, rfl⟩ (by omega)
    exact absurd (ends.error stops) nofun

/-! ### The system calls -/

/-- The file of a descriptor. -/
def fileOf (k : Kernel σ E P) (p : Nat) (fd : Int) : Option Nat :=
  if fd < 0 ∨ NOFILE ≤ fd then none else (k.proc p).ofile fd.toNat

theorem argfd_some (fd : Int) : argfd p true fd k = .ok (fileOf k p fd, k) := by
  rw [argfd, Machine.bind_of_ok (Machine.get_run k)]
  by_cases cwd : fd = -100
  · rw [if_pos cwd, if_pos rfl, fileOf, if_pos (.inl (by omega))]
    rfl
  · rw [if_neg cwd, fileOf]
    split <;> rfl

/-- A call that leaves no place for the number of the descriptor. -/
theorem safe_argfd_bind {fd : Int} {y : Option Nat → Call σ E P β} :
    Safe (argfd p false fd >>= y) k ↔ fd ≠ AT_FDCWD ∧ Safe (y (fileOf k p fd)) k := by
  by_cases cwd : fd = -100
  · refine iff_of_false (safe_bind_error (e := .fault) ?_ nofun) fun h => h.1 cwd
    rw [argfd, Machine.bind_of_ok (Machine.get_run k), if_pos cwd]
    rfl
  · have run : argfd p false fd k = .ok (fileOf k p fd, k) := by
      rw [argfd, Machine.bind_of_ok (Machine.get_run k), if_neg cwd, fileOf]
      split <;> rfl
    rw [safe_bind run, and_iff_right (show fd ≠ AT_FDCWD from cwd)]

/-- What the calls with one result and an error have in common. -/
theorem safe_opened {fp : Option Nat} {r : β} {y : Nat → Call σ E P β} :
    Safe (match fp with
      | none => return r
      | some f => y f) k ↔ ∀ f, fp = some f → Safe (y f) k := by
  cases fp with
  | none => exact iff_of_true (safe_pure r) nofun
  | some f => simp

variable {fd fd₀ : Int} {path : Path}

theorem sys_read_safe (sound : Sound k) :
    Safe (sys_read io p fd addr n) k ↔ fd ≠ AT_FDCWD ∧ ∀ f, fileOf k p fd = some f →
      (k.file f).readable = true → Readable io k p f addr n := by
  refine safe_argfd_bind.trans (and_congr_right fun _ => safe_opened.trans ?_)
  exact forall₂_congr fun f _ => fileread_safe sound

theorem sys_write_safe (sound : Sound k) :
    Safe (sys_write io p fd addr n) k ↔ fd ≠ AT_FDCWD ∧ ∀ f, fileOf k p fd = some f →
      (k.file f).writable = true → Writable io k p f addr n := by
  refine safe_argfd_bind.trans (and_congr_right fun _ => safe_opened.trans ?_)
  exact forall₂_congr fun f _ => filewrite_safe sound

theorem sys_lseek_safe (sound : Sound k) {offset : Nat} {whence : Int} :
    Safe (sys_lseek io p fd offset whence) k := by
  refine (safe_bind (argfd_some fd)).mpr (safe_opened.mpr ?_)
  exact fun f _ => fileseek_safe sound

theorem sys_readdir_safe (steady : Steady io) (sound : Sound k) (enough : 2 ^ 32 < limit) :
    Safe (sys_readdir io limit p fd addr) k ↔ fd ≠ AT_FDCWD ∧ ∀ f, fileOf k p fd = some f →
      (k.file f).readable = true →
      Listable io k f fun ep t => io.NextFits t ep (k.file f).off addr := by
  refine safe_argfd_bind.trans (and_congr_right fun _ => safe_opened.trans ?_)
  exact forall₂_congr fun f _ => dirnext_safe steady sound enough

theorem sys_getdents64_safe (steady : Steady io) (sound : Sound k) {len : Nat}
    (enough : ((toInt len).toNat + 1) * (2 ^ 32 + 1) < limit) :
    Safe (sys_getdents64 io limit p fd addr len) k ↔ ∀ f, fileOf k p fd = some f →
      (k.file f).readable = true →
      Listable io k f fun ep t => io.RecordsFit p t ep (k.file f).off addr (toInt len) := by
  refine (safe_bind (argfd_some fd)).trans (safe_opened.trans ?_)
  exact forall₂_congr fun f _ => get_next_dirent_safe steady sound enough

/-- The descriptor is refused before anything is done with its file. -/
def Refused (k : Kernel σ E P) (p : Nat) (fd fd₀ : Int) : Prop :=
  fileOf k p fd = none ∧ localAfter fd fd₀ (fileOf k p fd) ≠ AT_FDCWD

instance : Decidable (Refused k p fd fd₀) := by
  unfold Refused
  infer_instance

theorem sys_ftruncate_safe (sound : Sound k) {len : Int} :
    Safe (sys_ftruncate io p fd fd₀ len) k ↔ Refused k p fd fd₀ ∨
      ∃ f, fileOf k p fd = some f ∧ (k.file f).type = .entry ∧
        ∀ ep, (k.file f).ep = some ep → Calm (io.etruncate ep len) k.below := by
  refine (safe_bind (argfd_some fd)).trans ?_
  by_cases refused : Refused k p fd fd₀
  · rw [if_pos (show fileOf k p fd = none ∧ _ from refused)]
    exact iff_of_true (safe_pure _) (.inl refused)
  · rw [if_neg (show ¬(fileOf k p fd = none ∧ _) from refused), or_iff_right refused]
    cases opened : fileOf k p fd with
    | none => exact iff_of_false (not_safe_halt nofun) nofun
    | some f =>
      refine (safe_epOf_bind sound).trans ?_
      have cut : ∀ ep, Safe (do
          onBelow (under (io.etruncate ep len))
          return 0 : Call σ E P Int) k ↔ Calm (io.etruncate ep len) k.below :=
        fun _ => safe_under_tame fun _ => Machine.Only.pure _
      constructor
      · rintro ⟨entry, safe⟩
        exact ⟨f, rfl, entry, fun ep points => (cut ep).mp (safe ep points)⟩
      · rintro ⟨g, ⟨⟩, entry, calm⟩
        exact ⟨entry, fun ep points => (cut ep).mpr (calm ep points)⟩

/-- The pointer of the file is null, or the type vouches for it. -/
def Vouched (file : File E P) : Prop := file.ep ≠ none → file.type = .entry

theorem safe_epIfSet_bind {y : Option E → Call σ E P β} :
    Safe (epIfSet f >>= y) k ↔ Vouched (k.file f) ∧
      (Vouched (k.file f) → Safe (y (k.file f).ep) k) := by
  unfold Vouched
  cases points : (k.file f).ep with
  | none =>
    have run : epIfSet f k = .ok (none, k) := by
      rw [epIfSet, Machine.bind_of_ok (Machine.get_run k), points]
      rfl
    simp [safe_bind run]
  | some ep =>
    by_cases entry : (k.file f).type = .entry
    · have run : epIfSet f k = .ok (some ep, k) := by
        rw [epIfSet, Machine.bind_of_ok (Machine.get_run k), points]
        dsimp only
        refine (Machine.bind_of_ok (a := ep) (u := k) ?_).trans rfl
        rw [epOf, Machine.bind_of_ok (Machine.get_run k), points]
        dsimp only
        rw [if_pos entry]
        rfl
      simp [safe_bind run, entry]
    · refine iff_of_false (safe_bind_error (e := Wild) ?_ (by decide)) fun h => entry (h.1 nofun)
      rw [epIfSet, Machine.bind_of_ok (Machine.get_run k), points]
      dsimp only
      refine Machine.bind_of_error ?_
      rw [epOf, Machine.bind_of_ok (Machine.get_run k), points]
      dsimp only
      rw [if_neg entry]
      rfl

def VouchedOf (k : Kernel σ E P) (fp : Option Nat) : Prop := ∀ f, fp = some f → Vouched (k.file f)

theorem safe_dir_bind {fp : Option Nat} {y : Option E → Call σ E P β} :
    Safe ((match fp with
      | none => return none
      | some f => epIfSet f) >>= y) k ↔
      VouchedOf k fp ∧ (VouchedOf k fp → Safe (y (fp.bind fun f => (k.file f).ep)) k) := by
  cases fp with
  | none => simp [VouchedOf]
  | some f => simpa [VouchedOf] using safe_epIfSet_bind

/-- The directory that `sys_fstatat` starts from. -/
def statDir (k : Kernel σ E P) (p : Nat) (fd : Int) : Option E :=
  (fileOf k p fd).bind fun f => (k.file f).ep

/-- What `sys_fstatat` asks of the entry that it has found, if any: the record goes to `st`,
for the name of the null device at once. -/
def Io.Stats (io : Io σ E P D) (path : Path) (st : Nat) (ep : Option E) (s : σ) : Prop :=
  if (cstr "/dev/null").isPrefixOf path then
    st ≤ Vm.MAXVA
  else
    ∀ e, ep = some e → ∀ t, io.elock e s = some t →
      Calm (io.eput e) (io.eunlock e t) ∧ ∀ u, Backs (io.eput e) (io.eunlock e t) () u → st ≤ Vm.MAXVA

/-- What `sys_fstatat` asks of the look-up, if it gets that far. -/
def Io.Finds (io : Io σ E P D) (k : Kernel σ E P) (p : Nat) (fd : Int) (path : Path) (st : Nat) :
    Prop :=
  (∀ dp, statDir k p fd = some dp → io.IsDir k.below dp) →
    Calm (io.new_ename (statDir k p fd) (k.proc p).cwd path) k.below ∧
    ∀ ep t, Backs (io.new_ename (statDir k p fd) (k.proc p).cwd path) k.below ep t →
      io.Stats path st ep t

theorem copiedOut_safe {st : Nat} {store : σ → Bool × σ} : Safe (do
    if ← onBelow (copyout st store) then return 0 else return -1 : Call σ E P Int) k ↔
      st ≤ Vm.MAXVA := by
  refine safe_onBelow_bind.trans (copyout_ends_iff.trans (and_iff_left (Tame.safe ?_)))
  exact Machine.Only.ite (Machine.Only.pure _) (Machine.Only.pure _)

theorem any_file_iff {dp : Option E} :
    (dp.any fun dp => io.attr (io.dirent s dp) &&& Fat.ATTR_DIRECTORY == 0) = true ↔
      ¬∀ d, dp = some d → io.IsDir s d := by
  cases dp with
  | none => simp
  | some dp => simp [Io.IsDir]

theorem sys_fstatat_safe {st : Nat} :
    Safe (sys_fstatat io p fd fd₀ path st) k ↔ Refused k p fd fd₀ ∨
      VouchedOf k (fileOf k p fd) ∧ io.Finds k p fd path st := by
  refine (safe_bind (argfd_some fd)).trans ?_
  by_cases refused : Refused k p fd fd₀
  · rw [if_pos (show fileOf k p fd = none ∧ _ from refused)]
    exact iff_of_true (safe_pure _) (.inl refused)
  rw [if_neg (show ¬(fileOf k p fd = none ∧ _) from refused), or_iff_right refused]
  refine safe_dir_bind.trans (and_congr_right fun vouched => ?_)
  rw [imp_iff_right vouched, safe_get_bind]
  by_cases file : (statDir k p fd).any fun dp =>
      io.attr (io.dirent k.below dp) &&& Fat.ATTR_DIRECTORY == 0
  · rw [statDir] at file
    rw [if_pos file]
    exact iff_of_true (safe_pure _) fun dirs => absurd dirs (any_file_iff.mp file)
  have dirs := not_not.mp (mt any_file_iff.mpr file)
  rw [statDir] at file
  rw [if_neg file, Io.Finds, imp_iff_right dirs]
  refine safe_onBelow_bind.trans (under_ends_iff.trans (and_congr_right fun _ => ?_))
  refine forall₃_congr fun ep t _ => ?_
  unfold Io.Stats
  split
  · exact safe_get_bind.trans copiedOut_safe
  cases ep with
  | none => exact iff_of_true (safe_pure _) nofun
  | some e =>
    simp only [Option.some.injEq, forall_eq']
    refine safe_onBelow_bind.trans (locked_ends_iff.trans (forall₂_congr fun u _ => ?_))
    refine safe_get_bind.trans ((safe_bind rfl).trans ?_)
    refine safe_onBelow_bind.trans (under_ends_iff.trans (and_congr_right fun _ => ?_))
    exact ⟨fun safe v dropped => copiedOut_safe.mp (safe () v dropped),
      fun low _ v dropped => copiedOut_safe.mpr (low v dropped)⟩

/-- The directory that `sys_faccessat` starts from. -/
def accessDir (k : Kernel σ E P) (p : Nat) (fd : Int) (path : Path) : Option E :=
  if path.head? = some 47 then none
  else match fileOf k p fd with
    | none => (k.proc p).cwd
    | some f => (k.file f).ep

/-- Looking a name up and checking the mode follow no pointer of a file. -/
theorem accessed_safe {mode : Nat} {dp cwd : Option E} : Safe (do
    match ← onBelow (under (io.new_ename dp cwd path)) with
    | none => return -1
    | some _ =>
      if mode = F_OK then
        return 0
      else if ACCESS &&& mode ≠ mode then
        return -1
      else
        return 0 : Call σ E P Int) k ↔ Calm (io.new_ename dp cwd path) k.below := by
  refine safe_under_tame fun ep => ?_
  cases ep with
  | none => exact Machine.Only.pure _
  | some ep =>
    dsimp only
    exact Machine.Only.ite (Machine.Only.pure _)
      (Machine.Only.ite (Machine.Only.pure _) (Machine.Only.pure _))

theorem sys_faccessat_safe {mode : Nat} :
    Safe (sys_faccessat io p fd fd₀ path mode) k ↔ Refused k p fd fd₀ ∨
      (path.head? = some 47 ∨ VouchedOf k (fileOf k p fd)) ∧
        Calm (io.new_ename (accessDir k p fd path) (k.proc p).cwd path) k.below := by
  refine (safe_bind (argfd_some fd)).trans ?_
  by_cases refused : Refused k p fd fd₀
  · rw [if_pos (show fileOf k p fd = none ∧ _ from refused)]
    exact iff_of_true (safe_pure _) (.inl refused)
  rw [if_neg (show ¬(fileOf k p fd = none ∧ _) from refused), or_iff_right refused, safe_get_bind]
  unfold accessDir
  by_cases absolute : path.head? = some 47
  · rw [if_pos absolute, if_pos absolute, and_iff_right (.inl absolute)]
    exact (safe_bind rfl).trans accessed_safe
  rw [if_neg absolute, if_neg absolute, or_iff_right absolute]
  cases fileOf k p fd with
  | none => exact (safe_bind rfl).trans (accessed_safe.trans (and_iff_right nofun).symm)
  | some f =>
    refine safe_epIfSet_bind.trans ?_
    have vouched : VouchedOf k (some f) ↔ Vouched (k.file f) := by simp [VouchedOf]
    rw [vouched]
    refine and_congr_right fun here => ?_
    rw [imp_iff_right here]
    exact accessed_safe

/-! ### The eight calls -/

/-- The calls that follow a pointer of a file; `fd₀` is what the local of the descriptor
holds before the call. -/
inductive Handler where
  | read (fd : Int) (addr : Nat) (n : Int)
  | write (fd : Int) (addr : Nat) (n : Int)
  | readdir (fd : Int) (addr : Nat)
  | getdents64 (fd : Int) (buf len : Nat)
  | ftruncate (fd fd₀ len : Int)
  | fstatat (fd fd₀ : Int) (path : Path) (st : Nat)
  | faccessat (fd fd₀ : Int) (path : Path) (mode : Nat)
  | lseek (fd : Int) (offset : Nat) (whence : Int)

def Handler.run (io : Io σ E P D) (limit p : Nat) : Handler → Call σ E P Unit
  | .read fd addr n => ignore (sys_read io p fd addr n)
  | .write fd addr n => ignore (sys_write io p fd addr n)
  | .readdir fd addr => ignore (sys_readdir io limit p fd addr)
  | .getdents64 fd buf len => ignore (sys_getdents64 io limit p fd buf len)
  | .ftruncate fd fd₀ len => ignore (sys_ftruncate io p fd fd₀ len)
  | .fstatat fd fd₀ path st => ignore (sys_fstatat io p fd fd₀ path st)
  | .faccessat fd fd₀ path mode => ignore (sys_faccessat io p fd fd₀ path mode)
  | .lseek fd offset whence => ignore (sys_lseek io p fd offset whence)

/-- What the call takes for granted of its descriptor, its address and what lies below. -/
def Handler.Proper (io : Io σ E P D) (k : Kernel σ E P) (p : Nat) : Handler → Prop
  | .read fd addr n => fd ≠ AT_FDCWD ∧ ∀ f, fileOf k p fd = some f →
      (k.file f).readable = true → Readable io k p f addr n
  | .write fd addr n => fd ≠ AT_FDCWD ∧ ∀ f, fileOf k p fd = some f →
      (k.file f).writable = true → Writable io k p f addr n
  | .readdir fd addr => fd ≠ AT_FDCWD ∧ ∀ f, fileOf k p fd = some f →
      (k.file f).readable = true →
      Listable io k f fun ep t => io.NextFits t ep (k.file f).off addr
  | .getdents64 fd buf len => ∀ f, fileOf k p fd = some f →
      (k.file f).readable = true →
      Listable io k f fun ep t => io.RecordsFit p t ep (k.file f).off buf (toInt len)
  | .ftruncate fd fd₀ len => Refused k p fd fd₀ ∨
      ∃ f, fileOf k p fd = some f ∧ (k.file f).type = .entry ∧
        ∀ ep, (k.file f).ep = some ep → Calm (io.etruncate ep len) k.below
  | .fstatat fd fd₀ path st => Refused k p fd fd₀ ∨
      VouchedOf k (fileOf k p fd) ∧ io.Finds k p fd path st
  | .faccessat fd fd₀ path _ => Refused k p fd fd₀ ∨
      (path.head? = some 47 ∨ VouchedOf k (fileOf k p fd)) ∧
        Calm (io.new_ename (accessDir k p fd path) (k.proc p).cwd path) k.below
  | .lseek .. => True

/-- With enough rounds for its loops, the call returns, or waits for a call below. -/
def Returns (x : Nat → Call σ E P Unit) (k : Kernel σ E P) : Prop :=
  ∃ enough, ∀ limit, enough < limit → Safe (x limit) k

theorem safe_ignore {x : Call σ E P α} : Safe (ignore x) k ↔ Safe x k := by
  cases run : x k with
  | ok r =>
    have run : x k = .ok (r.1, r.2) := run
    unfold ignore
    rw [safe_bind run]
    exact iff_of_true (safe_pure _) (Machine.Ends.of_ok (a := r.1) (t := r.2) run trivial)
  | error e =>
    unfold Safe Machine.Ends ignore
    rw [Machine.bind_of_error run, run]

theorem returns_iff {x : Nat → Call σ E P Unit} {c : Prop} (enough : Nat)
    (h : ∀ limit, enough < limit → (Safe (x limit) k ↔ c)) : Returns x k ↔ c := by
  constructor
  · rintro ⟨bound, safe⟩
    exact (h (max enough bound + 1) (by omega)).mp (safe _ (by omega))
  · intro holds
    exact ⟨enough, fun limit more => (h limit more).mpr holds⟩

/-- Each call, from a state in which the pointers that the types vouch for are set. -/
theorem Sound.returns_iff (steady : Steady io) (sound : Sound k) (p : Nat) (h : Handler) :
    Returns (fun limit => h.run io limit p) k ↔ h.Proper io k p := by
  cases h with
  | read fd addr n =>
    exact Fd.returns_iff 0 fun limit _ => safe_ignore.trans (sys_read_safe sound)
  | write fd addr n =>
    exact Fd.returns_iff 0 fun limit _ => safe_ignore.trans (sys_write_safe sound)
  | readdir fd addr =>
    exact Fd.returns_iff (2 ^ 32) fun limit enough =>
      safe_ignore.trans (sys_readdir_safe steady sound enough)
  | getdents64 fd buf len =>
    exact Fd.returns_iff (((toInt len).toNat + 1) * (2 ^ 32 + 1)) fun limit enough =>
      safe_ignore.trans (sys_getdents64_safe steady sound enough)
  | ftruncate fd fd₀ len =>
    exact Fd.returns_iff 0 fun limit _ => safe_ignore.trans (sys_ftruncate_safe sound)
  | fstatat fd fd₀ path st =>
    exact Fd.returns_iff 0 fun limit _ => safe_ignore.trans sys_fstatat_safe
  | faccessat fd fd₀ path mode =>
    exact Fd.returns_iff 0 fun limit _ => safe_ignore.trans sys_faccessat_safe
  | lseek fd offset whence =>
    exact Fd.returns_iff 0 fun limit _ =>
      safe_ignore.trans (iff_of_true (sys_lseek_safe sound) trivial)

theorem Handler.keeps (io : Io σ E P D) (limit p : Nat) (h : Handler) :
    Machine.Frame Keeps (h.run io limit p) := by
  have ignored : ∀ {α : Type} {x : Call σ E P α}, Machine.Frame Keeps x →
      Machine.Frame Keeps (ignore x) :=
    fun h => Machine.Frame.bind h fun _ => Machine.Frame.pure _
  cases h with
  | read fd addr n => exact ignored (opened_keeps _ _ fun f => fileread_keeps p f addr n)
  | write fd addr n => exact ignored (opened_keeps _ _ fun f => filewrite_keeps p f addr n)
  | readdir fd addr => exact ignored (opened_keeps _ _ fun f => dirnext_keeps p f addr)
  | getdents64 fd buf len =>
    exact ignored (opened_keeps _ _ fun f => get_next_dirent_keeps p f buf (toInt len))
  | ftruncate fd fd₀ len => exact ignored (sys_ftruncate_keeps p fd fd₀ len)
  | fstatat fd fd₀ path st => exact ignored (sys_fstatat_keeps p fd fd₀ path st)
  | faccessat fd fd₀ path mode => exact ignored (sys_faccessat_keeps p fd fd₀ path mode)
  | lseek fd offset whence => exact ignored (opened_keeps _ _ fun f => fileseek_keeps f offset whence)

/-- What happens to the table of open files. -/
inductive Move (b : Below σ E P) (io : Io σ E P D) (k k' : Kernel σ E P) : Prop
  | event (e : Event) (limit initproc : Nat) (run : e.run b limit initproc k = .ok ((), k'))
  | handler (h : Handler) (limit p : Nat) (run : h.run io limit p k = .ok ((), k'))
  | dev (p : Nat) (omode : UInt32) (major r : Int) (run : sys_dev io b p omode major k = .ok (r, k'))
  /-- Calls such as `mmap`, `clone` and `exec` also make and drop references. -/
  | filedup (f r : Nat) (run : filedup f k = .ok (r, k'))
  | fileclose (f : Nat) (run : fileclose b f k = .ok ((), k'))
  /-- Everything else. -/
  | other (same : k'.file = k.file)

theorem Move.sound (move : Move b io k k') (sound : Sound k) : Sound k' := by
  cases move with
  | event e limit initproc run => exact event_keeps limit initproc e k () k' run sound
  | handler h limit p run => exact h.keeps io limit p k () k' run sound
  | dev p omode major r run => exact sys_dev_keeps p omode major k r k' run sound
  | filedup f r run => exact filedup_keeps f k r k' run sound
  | fileclose f run => exact fileclose_keeps f k () k' run sound
  | other same => exact keeps_of_file same sound

theorem Sound.run {k₀ : Kernel σ E P} (boot : ∀ f, (k₀.file f).type = .none)
    (run : Relation.ReflTransGen (Move b io) k₀ k) : Sound k := by
  induction run with
  | refl => exact fun f => Good.of_type (by rw [boot]; nofun) (by rw [boot]; nofun)
  | tail _ move ih => exact move.sound ih

/-- Nothing below fails; there are no names, and the directories are empty. Reading and
writing touch the memory of the process at the address that is given. -/
def bareIo : Io Unit Unit Unit Unit where
  name _ _ := []
  char_count _ _ := 0
  setCharCount _ _ s := s
  filename _ _ := []
  file_size _ _ := 0
  dirent _ _ := ()
  attr _ := 0
  d_name _ := []
  elock _ := some
  eunlock _ s := s
  eput _ s := ([], .back () s)
  new_ename _ _ _ s := ([], .back (some ()) s)
  eread _ _ addr _ _ s := ([.copyout addr], .back 0 s)
  ewrite _ _ addr _ n s := ([.copyin addr], .back n s)
  etruncate _ _ s := ([], .back () s)
  scan _ _ s := ([], .back (-1, (), 0) s)
  piperead _ _ addr _ s := ([.copyout addr], .back 0 s)
  pipewrite _ _ addr _ s := ([.copyin addr], .back 0 s)
  acquire _ := some
  release _ s := s
  major _ _ := 0
  setMajor _ _ s := s
  devread _ := none
  devwrite _ := none
  storeChar _ _ _ s := s
  storeStat _ _ _ s := (true, s)
  storeKstat _ _ _ s := (true, s)
  storeDirent _ _ _ _ _ s := (true, s)
  copyout_zero _ _ _ := some

theorem bareIo_steady : Steady bareIo where
  elock _ _ _ _ := rfl
  scan _ _ _ _ _ _ := rfl
  store _ _ _ _ _ _ _ := rfl
  empty _ _ _ _ _ _ := nofun

end AvxKernel.Fd
