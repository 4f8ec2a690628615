import AvxKernel.Fd.Counts
import AvxKernel.Fd.Handlers
import AvxKernel.Lib.Triple

/-! Which calls on a descriptor follow a pointer that the type of its file does not
vouch for, or panic: for every descriptor, whatever its place in the table was used
for before. -/
namespace AvxKernel.Fd

variable {σ E P D α : Type} {b : Below σ E P} {io : Io σ E P D} {k k' : Kernel σ E P}
  {limit p f : Nat}

/-! ### Files whose pointer is set -/

/-- The type vouches for the pointer that belongs to it. -/
structure Good (file : File E P) : Prop where
  entry : file.type = .entry → ∃ ep, file.ep = some ep
  pipe : file.type = .pipe → ∃ pi, file.pipe = some pi

theorem Good.of_type {file : File E P} (entry : file.type ≠ .entry) (pipe : file.type ≠ .pipe) :
    Good file :=
  ⟨fun h => absurd h entry, fun h => absurd h pipe⟩

def Sound (k : Kernel σ E P) : Prop := ∀ f, Good (k.file f)

def Keeps (k k' : Kernel σ E P) : Prop := Sound k → Sound k'

instance : Std.Refl (@Keeps σ E P) := ⟨fun _ => id⟩

instance : IsTrans (Kernel σ E P) Keeps := ⟨fun _ _ _ first rest => rest ∘ first⟩

theorem keeps_of_file (same : k'.file = k.file) : Keeps k k' := by
  intro sound f
  rw [same]
  exact sound f

theorem onBelow_keeps (x : Machine σ α) : Machine.Frame Keeps (onBelow (E := E) (P := P) x) :=
  Machine.Frame.zoom (R := fun _ _ => True) (fun _ _ _ _ => trivial) fun _ _ _ => keeps_of_file rfl

theorem setProc_keeps (q : Nat) (g : Proc E → Proc E) : Machine.Frame Keeps (@setProc σ E P q g) :=
  Machine.Frame.modify _ fun _ => keeps_of_file rfl

theorem setOfile_keeps (q fd : Nat) (v : Option Nat) : Machine.Frame Keeps (@setOfile σ E P q fd v) :=
  setProc_keeps _ _

theorem setFile_keeps (f : Nat) (g : File E P → File E P) (good : ∀ file, Good file → Good (g file)) :
    Machine.Frame Keeps (@setFile σ E P f g) := by
  refine Machine.Frame.modify _ fun k sound f' => ?_
  dsimp only
  rcases eq_or_ne f' f with rfl | ne
  · rw [Function.update_self]
    exact good _ (sound f')
  · rw [Function.update_of_ne ne]
    exact sound f'

/-- A change that leaves the type and the two pointers alone. -/
theorem setFile_keeps_same (f : Nat) (g : File E P → File E P)
    (same : ∀ file, (g file).type = file.type ∧ (g file).ep = file.ep ∧ (g file).pipe = file.pipe) :
    Machine.Frame Keeps (@setFile σ E P f g) := by
  refine setFile_keeps f g fun file good => ?_
  obtain ⟨type, ep, pipe⟩ := same file
  refine ⟨fun h => ?_, fun h => ?_⟩
  · rw [ep]
    exact good.entry (type ▸ h)
  · rw [pipe]
    exact good.pipe (type ▸ h)

theorem filealloc_keeps : Machine.Frame Keeps (filealloc : Call σ E P (Option Nat)) := by
  refine Machine.Frame.bind Machine.Frame.get fun k => ?_
  split
  · exact Machine.Frame.pure _
  · exact Machine.Frame.bind (setFile_keeps_same _ _ fun _ => ⟨rfl, rfl, rfl⟩) fun _ => Machine.Frame.pure _

theorem filedup_keeps (f : Nat) : Machine.Frame Keeps (filedup f : Call σ E P Nat) :=
  Machine.Frame.bind Machine.Frame.get fun _ => Machine.Frame.ite (Machine.Frame.panic _) <|
    Machine.Frame.bind (setFile_keeps_same _ _ fun _ => ⟨rfl, rfl, rfl⟩) fun _ => Machine.Frame.pure _

theorem release_keeps (ff : File E P) : Machine.Frame Keeps (release b ff) := by
  unfold release
  split
  · exact onBelow_keeps _
  · exact onBelow_keeps _
  · exact Machine.Frame.halt _
  · exact Machine.Frame.halt _
  · exact Machine.Frame.pure _

theorem fileclose_keeps (f : Nat) : Machine.Frame Keeps (fileclose b f) :=
  Machine.Frame.bind Machine.Frame.get fun _ => Machine.Frame.ite (Machine.Frame.panic _) <|
    Machine.Frame.ite (setFile_keeps_same _ _ fun _ => ⟨rfl, rfl, rfl⟩) <|
    Machine.Frame.bind (setFile_keeps _ _ fun _ _ => Good.of_type nofun nofun)
      fun _ => release_keeps _

theorem fdalloc2_keeps (p f : Nat) (start : Int) :
    Machine.Frame Keeps (fdalloc2 p f start : Call σ E P (Option Nat)) := by
  refine Machine.Frame.bind Machine.Frame.get fun k => ?_
  dsimp only
  split
  · exact Machine.Frame.pure _
  · exact Machine.Frame.ite (Machine.Frame.pure _) <|
      Machine.Frame.bind (setOfile_keeps _ _ _) fun _ => Machine.Frame.pure _

theorem argfd_keeps (p : Nat) (pfd : Bool) (fd : Int) :
    Machine.Frame Keeps (argfd p pfd fd : Call σ E P (Option Nat)) := by
  intro k r k' run
  rw [(argfd_run run).1]
  exact id

theorem allocFd_keeps (p : Nat) : Machine.Frame Keeps (allocFd b p) := by
  refine Machine.Frame.bind filealloc_keeps fun f => ?_
  cases f with
  | none => exact Machine.Frame.pure _
  | some f =>
    refine Machine.Frame.bind (fdalloc2_keeps _ _ _) fun fd => ?_
    cases fd with
    | none => exact Machine.Frame.bind (fileclose_keeps _) fun _ => Machine.Frame.pure _
    | some fd => exact Machine.Frame.pure _

theorem isDir_keeps (ep : E) : Machine.Frame Keeps (isDir b ep) :=
  Machine.Frame.bind Machine.Frame.get fun _ => Machine.Frame.pure _

theorem new_create_keeps (env cwd : Option E) (limit : Nat) (path : Path) (dir : Bool) :
    Machine.Frame Keeps (new_create b env cwd limit path dir) := by
  induction limit generalizing path dir with
  | zero => exact Machine.Frame.halt _
  | succ limit ih =>
    refine Machine.Frame.bind (onBelow_keeps _) fun ⟨dp, name⟩ => ?_
    refine Machine.Frame.bind ?_ fun ⟨dp, name⟩ => ?_
    · cases dp with
      | none => exact Machine.Frame.bind (ih _ _) fun _ => Machine.Frame.pure _
      | some dp => exact Machine.Frame.bind (onBelow_keeps _) fun _ => Machine.Frame.pure _
    · cases dp with
      | none => exact Machine.Frame.pure _
      | some dp =>
        refine Machine.Frame.bind (onBelow_keeps _) fun ep => ?_
        cases ep with
        | none =>
          exact Machine.Frame.bind (onBelow_keeps _) fun _ =>
            Machine.Frame.bind (onBelow_keeps _) fun _ => Machine.Frame.pure _
        | some ep =>
          refine Machine.Frame.bind (isDir_keeps _) fun _ => Machine.Frame.ite ?_ ?_
          · exact Machine.Frame.bind (onBelow_keeps _) fun _ =>
              Machine.Frame.bind (onBelow_keeps _) fun _ =>
              Machine.Frame.bind (onBelow_keeps _) fun _ => Machine.Frame.pure _
          · exact Machine.Frame.bind (onBelow_keeps _) fun _ =>
              Machine.Frame.bind (onBelow_keeps _) fun _ =>
              Machine.Frame.bind (onBelow_keeps _) fun _ => Machine.Frame.pure _

theorem openEntry_keeps (f : Nat) (ep : E) (flags : UInt32) :
    Machine.Frame Keeps (openEntry b f ep flags) := by
  have opened : ∀ off, Machine.Frame Keeps (setFile f fun file => { file with
      type := .entry
      off
      ep := some ep
      readable := !has flags O_WRONLY
      writable := has flags O_WRONLY || has flags O_RDWR } : Call σ E P Unit) :=
    fun _ => setFile_keeps _ _ fun _ _ => ⟨fun _ => ⟨ep, rfl⟩, nofun⟩
  refine Machine.Frame.bind (isDir_keeps ep) fun _ => Machine.Frame.ite ?_ ?_
  · exact Machine.Frame.bind (onBelow_keeps _) fun _ => Machine.Frame.bind Machine.Frame.get
      fun _ => Machine.Frame.bind (opened _) fun _ => onBelow_keeps _
  · exact Machine.Frame.bind Machine.Frame.get fun _ =>
      Machine.Frame.bind (opened _) fun _ => onBelow_keeps _

theorem locked_keeps {c : Prop} [Decidable c] (ep : E) :
    Machine.Frame Keeps (if c then do
        onBelow (b.eunlock ep)
        onBelow (b.eput ep)
        return none
      else return some ep : Call σ E P (Option E)) :=
  Machine.Frame.ite (Machine.Frame.bind (onBelow_keeps _) fun _ =>
    Machine.Frame.bind (onBelow_keeps _) fun _ => Machine.Frame.pure _) (Machine.Frame.pure _)

theorem openLookup_keeps (limit : Nat) (cwd : Option E) (path : Path) (omode : UInt32) :
    Machine.Frame Keeps (openLookup b limit cwd path omode) := by
  refine Machine.Frame.ite (new_create_keeps _ _ _ _ _) ?_
  refine Machine.Frame.bind (onBelow_keeps _) fun ep => ?_
  cases ep with
  | none => exact Machine.Frame.pure _
  | some ep =>
    exact Machine.Frame.bind (onBelow_keeps _) fun _ =>
      Machine.Frame.bind (isDir_keeps ep) fun _ => locked_keeps ep

/-- An entry is given back. -/
theorem giveUp_keeps (ep : E) (r : Int) : Machine.Frame Keeps (do
    onBelow (b.eunlock ep)
    onBelow (b.eput ep)
    return r : Call σ E P Int) :=
  Machine.Frame.bind (onBelow_keeps _) fun _ =>
    Machine.Frame.bind (onBelow_keeps _) fun _ => Machine.Frame.pure _

theorem open_keeps (limit p : Nat) (path : Path) (omode : UInt32) :
    Machine.Frame Keeps («open» b limit p path omode) := by
  refine Machine.Frame.bind Machine.Frame.get fun k => ?_
  refine Machine.Frame.bind (openLookup_keeps _ _ _ _) fun ep => ?_
  cases ep with
  | none => exact Machine.Frame.pure _
  | some ep =>
    refine Machine.Frame.bind (allocFd_keeps p) fun fd => ?_
    cases fd with
    | none => exact giveUp_keeps ep _
    | some fd => exact Machine.Frame.bind (openEntry_keeps _ _ _) fun _ => Machine.Frame.pure _

theorem openatDir_keeps (dirf : Option Nat) : Machine.Frame Keeps (openatDir b dirf) := by
  refine Machine.Frame.bind Machine.Frame.get fun k => ?_
  split
  · exact Machine.Frame.bind (isDir_keeps _) fun _ => Machine.Frame.ite
      (Machine.Frame.bind (onBelow_keeps _) fun _ => Machine.Frame.pure _) (Machine.Frame.pure _)
  · exact Machine.Frame.halt _
  · exact Machine.Frame.pure _

theorem openatLookup_keeps (limit : Nat) (dp cwd : Option E) (path : Path) (flags : UInt32) :
    Machine.Frame Keeps (openatLookup b limit dp cwd path flags) := by
  refine Machine.Frame.bind (onBelow_keeps _) fun ep => Machine.Frame.bind ?_ fun ep => ?_
  · cases ep with
    | none => exact Machine.Frame.ite (new_create_keeps _ _ _ _ _) (Machine.Frame.pure _)
    | some ep => exact Machine.Frame.bind (onBelow_keeps _) fun _ => Machine.Frame.pure _
  · cases ep with
    | none => exact Machine.Frame.pure _
    | some ep => exact Machine.Frame.bind (isDir_keeps ep) fun _ => locked_keeps ep

theorem forM_keeps (dp : Option E) (x : E → Machine σ Unit) :
    Machine.Frame Keeps (dp.forM fun dp => onBelow (x dp) : Call σ E P Unit) := by
  cases dp with
  | none => exact Machine.Frame.pure _
  | some dp => exact onBelow_keeps _

theorem sys_openat_keeps (limit p : Nat) (dirfd : Int) (path : Path) (flags : UInt32) :
    Machine.Frame Keeps (sys_openat b limit p dirfd path flags) := by
  refine Machine.Frame.bind (argfd_keeps p true dirfd) fun dirf => Machine.Frame.ite ?_ ?_
  · refine Machine.Frame.bind (allocFd_keeps p) fun fd => ?_
    cases fd with
    | none => exact Machine.Frame.pure _
    | some fd =>
      exact Machine.Frame.bind (setFile_keeps _ _ fun _ _ => Good.of_type nofun nofun)
        fun _ => Machine.Frame.pure _
  · refine Machine.Frame.bind (openatDir_keeps dirf) fun dp => ?_
    refine Machine.Frame.bind Machine.Frame.get fun k => ?_
    refine Machine.Frame.bind (openatLookup_keeps _ _ _ _ _) fun ep => ?_
    cases ep with
    | none => exact Machine.Frame.pure _
    | some ep =>
      refine Machine.Frame.bind (allocFd_keeps p) fun fd => ?_
      cases fd with
      | none => exact giveUp_keeps ep _
      | some fd =>
        have last : Machine.Frame Keeps (do
            dp.forM fun dp => onBelow (b.eunlock dp)
            return (fd.2 : Int) : Call σ E P Int) :=
          Machine.Frame.bind (forM_keeps dp b.eunlock) fun _ => Machine.Frame.pure _
        refine Machine.Frame.bind (openEntry_keeps _ _ _) fun _ =>
          Machine.Frame.bind (forM_keeps dp b.elock) fun _ =>
          Machine.Frame.bind (setProc_keeps _ _) fun _ => Machine.Frame.ite ?_ last
        exact Machine.Frame.bind (onBelow_keeps _) fun _ => last

/-- A descriptor for a file, and a reference for it. -/
theorem dupFrom_keeps (p f : Nat) (start : Int) (last : Nat → Call σ E P Int)
    (h : ∀ fd, Machine.Frame Keeps (last fd)) : Machine.Frame Keeps (do
      match ← fdalloc2 p f start with
      | none => return -24
      | some fd => do
        let _ ← filedup f
        last fd) := by
  refine Machine.Frame.bind (fdalloc2_keeps _ _ _) fun fd => ?_
  cases fd with
  | none => exact Machine.Frame.pure _
  | some fd => exact Machine.Frame.bind (filedup_keeps f) fun _ => h fd

theorem sys_dup_keeps (p : Nat) (fd : Int) : Machine.Frame Keeps (sys_dup p fd : Call σ E P Int) := by
  refine Machine.Frame.bind (argfd_keeps p false fd) fun f => ?_
  cases f with
  | none => exact Machine.Frame.pure _
  | some f => exact dupFrom_keeps p f 0 _ fun _ => Machine.Frame.pure _

theorem sys_dup3_keeps (p : Nat) (fd newfd : Int) :
    Machine.Frame Keeps (sys_dup3 p fd newfd : Call σ E P Int) := by
  refine Machine.Frame.bind (argfd_keeps p false fd) fun f => ?_
  cases f with
  | none => exact Machine.Frame.pure _
  | some f =>
    refine Machine.Frame.bind Machine.Frame.get fun k => Machine.Frame.ite (Machine.Frame.pure _) <|
      Machine.Frame.ite (Machine.Frame.pure _) <| Machine.Frame.ite ?_ (Machine.Frame.pure _)
    exact Machine.Frame.bind (filedup_keeps f) fun _ =>
      Machine.Frame.bind (setOfile_keeps _ _ _) fun _ => Machine.Frame.pure _

theorem sys_fcntl_keeps (p : Nat) (fd cmd : Int) (arg : Nat) :
    Machine.Frame Keeps (sys_fcntl p fd cmd arg : Call σ E P Int) := by
  refine Machine.Frame.bind (argfd_keeps p true fd) fun f => ?_
  cases f with
  | none => exact Machine.Frame.pure _
  | some f =>
    refine Machine.Frame.bind Machine.Frame.get fun k => Machine.Frame.ite (Machine.Frame.pure _) <|
      Machine.Frame.ite ?_ <| Machine.Frame.ite ?_ <| Machine.Frame.ite ?_ (Machine.Frame.pure _)
    · exact Machine.Frame.bind (setProc_keeps _ _) fun _ => Machine.Frame.pure _
    · exact dupFrom_keeps p f _ _ fun _ => Machine.Frame.pure _
    · exact dupFrom_keeps p f _ _ fun _ => Machine.Frame.bind (setProc_keeps _ _)
        fun _ => Machine.Frame.pure _

theorem sys_close_keeps (p : Nat) (fd : Int) : Machine.Frame Keeps (sys_close b p fd) := by
  refine Machine.Frame.bind (argfd_keeps p true fd) fun f => ?_
  cases f with
  | none => exact Machine.Frame.pure _
  | some f =>
    exact Machine.Frame.bind (setOfile_keeps _ _ _) fun _ =>
      Machine.Frame.bind (fileclose_keeps f) fun _ => Machine.Frame.pure _

theorem pipealloc_keeps : Machine.Frame Keeps (pipealloc b) := by
  refine Machine.Frame.bind filealloc_keeps fun f0 => ?_
  cases f0 with
  | none => exact Machine.Frame.pure _
  | some f0 =>
    refine Machine.Frame.bind filealloc_keeps fun f1 => ?_
    cases f1 with
    | none => exact Machine.Frame.bind (fileclose_keeps f0) fun _ => Machine.Frame.pure _
    | some f1 =>
      refine Machine.Frame.bind (onBelow_keeps _) fun pi => ?_
      cases pi with
      | none =>
        exact Machine.Frame.bind (fileclose_keeps f0) fun _ =>
          Machine.Frame.bind (fileclose_keeps f1) fun _ => Machine.Frame.pure _
      | some pi =>
        exact Machine.Frame.bind (setFile_keeps _ _ fun _ _ => ⟨nofun, fun _ => ⟨pi, rfl⟩⟩) fun _ =>
          Machine.Frame.bind (setFile_keeps _ _ fun _ _ => ⟨nofun, fun _ => ⟨pi, rfl⟩⟩) fun _ =>
          Machine.Frame.pure _

theorem sys_pipe_keeps (p fdarray : Nat) : Machine.Frame Keeps (sys_pipe b p fdarray) := by
  have closeBoth : ∀ rf wf, Machine.Frame Keeps (do
      fileclose b rf
      fileclose b wf
      return -1 : Call σ E P Int) := fun rf wf =>
    Machine.Frame.bind (fileclose_keeps rf) fun _ =>
      Machine.Frame.bind (fileclose_keeps wf) fun _ => Machine.Frame.pure _
  refine Machine.Frame.bind pipealloc_keeps fun ends => ?_
  cases ends with
  | none => exact Machine.Frame.pure _
  | some ends =>
    refine Machine.Frame.bind (fdalloc2_keeps _ _ _) fun fd0 => ?_
    cases fd0 with
    | none => exact closeBoth _ _
    | some fd0 =>
      refine Machine.Frame.bind (fdalloc2_keeps _ _ _) fun fd1 => ?_
      cases fd1 with
      | none => exact Machine.Frame.bind (setOfile_keeps _ _ _) fun _ => closeBoth _ _
      | some fd1 =>
        refine Machine.Frame.bind ?_ fun copied => Machine.Frame.ite (Machine.Frame.pure _) <|
          Machine.Frame.bind (setOfile_keeps _ _ _) fun _ =>
          Machine.Frame.bind (setOfile_keeps _ _ _) fun _ => closeBoth _ _
        exact Machine.Frame.bind (onBelow_keeps _) fun _ =>
          Machine.Frame.ite (onBelow_keeps _) (Machine.Frame.pure _)

theorem fork_keeps (p : Nat) : Machine.Frame Keeps (fork b p) := by
  refine Machine.Frame.bind Machine.Frame.get fun k => ?_
  split
  · exact Machine.Frame.pure _
  · refine Machine.Frame.bind (setProc_keeps _ _) fun _ =>
      Machine.Frame.bind (onBelow_keeps _) fun _ => Machine.Frame.ite ?_ (Machine.Frame.pure _)
    refine Machine.Frame.bind (setProc_keeps _ _) fun _ =>
      Machine.Frame.bind (onBelow_keeps _) fun copied => ?_
    cases copied with
    | uvmcopy => exact Machine.Frame.bind (onBelow_keeps _) fun _ => Machine.Frame.pure _
    | vma_map => exact Machine.Frame.pure _
    | done =>
      refine Machine.Frame.bind (Machine.Frame.forM (fun i => ?_) _) fun _ =>
        Machine.Frame.bind Machine.Frame.get fun k => ?_
      · refine Machine.Frame.bind Machine.Frame.get fun k => ?_
        split
        · exact Machine.Frame.pure _
        · exact Machine.Frame.bind (filedup_keeps _) fun _ => setOfile_keeps _ _ _
      · split
        · exact Machine.Frame.halt _
        · exact Machine.Frame.bind (onBelow_keeps _) fun _ =>
            Machine.Frame.bind (setProc_keeps _ _) fun _ => Machine.Frame.pure _

theorem exit_keeps (initproc p : Nat) : Machine.Frame Keeps (exit b initproc p) := by
  refine Machine.Frame.ite (Machine.Frame.panic _) <|
    Machine.Frame.bind (Machine.Frame.forM (fun fd => ?_) _) fun _ =>
    Machine.Frame.bind Machine.Frame.get fun k => ?_
  · refine Machine.Frame.bind Machine.Frame.get fun k => ?_
    split
    · exact Machine.Frame.pure _
    · exact Machine.Frame.bind (fileclose_keeps _) fun _ => setOfile_keeps _ _ _
  · split
    · exact Machine.Frame.halt _
    · exact Machine.Frame.bind (onBelow_keeps _) fun _ => setProc_keeps _ _

/-- Every call that makes, copies or drops descriptors. -/
theorem event_keeps (limit initproc : Nat) (e : Event) :
    Machine.Frame Keeps (e.run b limit initproc) := by
  have ignored : ∀ {α : Type} {x : Call σ E P α}, Machine.Frame Keeps x →
      Machine.Frame Keeps (ignore x) :=
    fun h => Machine.Frame.bind h fun _ => Machine.Frame.pure _
  cases e with
  | call p c =>
    cases c with
    | openat dirfd path flags => exact ignored (sys_openat_keeps _ _ _ _ _)
    | «open» path omode => exact ignored (open_keeps _ _ _ _)
    | dup fd => exact ignored (sys_dup_keeps _ _)
    | dup3 fd newfd => exact ignored (sys_dup3_keeps _ _ _)
    | fcntl fd cmd arg => exact ignored (sys_fcntl_keeps _ _ _ _)
    | pipe fdarray => exact ignored (sys_pipe_keeps _ _)
    | close fd => exact ignored (sys_close_keeps _ _)
    | fork => exact ignored (fork_keeps _)
    | exit => exact exit_keeps _ _
  | reap p => exact Machine.Frame.bind (onBelow_keeps _) fun _ => setProc_keeps _ _
  | prlimit p filelimit => exact setProc_keeps p fun pr => { pr with filelimit }

/-! ### The calls on an open file -/

theorem epOf_keeps (f : Nat) : Machine.Frame Keeps (epOf f : Call σ E P E) := by
  refine Machine.Frame.bind Machine.Frame.get fun k => ?_
  split
  · exact Machine.Frame.halt _
  · exact Machine.Frame.ite (Machine.Frame.pure _) (Machine.Frame.halt _)

theorem pipeOf_keeps (f : Nat) : Machine.Frame Keeps (pipeOf f : Call σ E P P) := by
  refine Machine.Frame.bind Machine.Frame.get fun k => ?_
  split
  · exact Machine.Frame.halt _
  · exact Machine.Frame.ite (Machine.Frame.pure _) (Machine.Frame.halt _)

theorem setOff_keeps (f : Nat) (off : File E P → Nat) :
    Machine.Frame Keeps (setFile f fun file => { file with off := off file } : Call σ E P Unit) :=
  setFile_keeps_same _ _ fun _ => ⟨rfl, rfl, rfl⟩

theorem device_keeps (op : Nat → Option (Nat → Nat → Int → Under σ Int)) (p f addr : Nat) (n : Int) :
    Machine.Frame Keeps (device (E := E) (P := P) io op p f addr n) := by
  refine Machine.Frame.bind Machine.Frame.get fun k => Machine.Frame.ite (Machine.Frame.pure _) ?_
  split
  · exact Machine.Frame.pure _
  · exact onBelow_keeps _

/-- The entry of a file is read or written, and the offset moves. -/
theorem moved_keeps (x : Kernel σ E P → E → Machine σ (Int × Nat)) (k : Kernel σ E P) (f : Nat) :
    Machine.Frame Keeps (do
      let ep ← epOf f
      let (r, step) ← onBelow (x k ep)
      moveOff f step
      return r : Call σ E P Int) :=
  Machine.Frame.bind (epOf_keeps f) fun _ => Machine.Frame.bind (onBelow_keeps _) fun _ =>
    Machine.Frame.bind (setOff_keeps f _) fun _ => Machine.Frame.pure _

theorem fileread_keeps (p f addr : Nat) (n : Int) :
    Machine.Frame Keeps (fileread io p f addr n) := by
  refine Machine.Frame.bind Machine.Frame.get fun k => Machine.Frame.ite (Machine.Frame.pure _) ?_
  split
  · exact Machine.Frame.bind (pipeOf_keeps f) fun _ => onBelow_keeps _
  · exact device_keeps _ _ _ _ _
  · exact moved_keeps (fun k ep => readEntry io p ep (k.file f).off addr n) k f
  · split
    · exact Machine.Frame.halt _
    · exact Machine.Frame.panic _
  · exact Machine.Frame.panic _
  · exact Machine.Frame.panic _

theorem filewrite_keeps (p f addr : Nat) (n : Int) :
    Machine.Frame Keeps (filewrite io p f addr n) := by
  refine Machine.Frame.bind Machine.Frame.get fun k => Machine.Frame.ite (Machine.Frame.pure _) ?_
  split
  · exact Machine.Frame.bind (pipeOf_keeps f) fun _ => onBelow_keeps _
  · exact device_keeps _ _ _ _ _
  · exact moved_keeps (fun k ep => writeEntry io p ep (k.file f).off addr n) k f
  · exact Machine.Frame.pure _
  · exact Machine.Frame.panic _
  · exact Machine.Frame.panic _

/-- The offset is set, and there is a result. -/
theorem sought_keeps (f : Nat) (off : File E P → Nat) (r : Nat) : Machine.Frame Keeps (do
    setFile f fun file => { file with off := off file }
    return r : Call σ E P Nat) :=
  Machine.Frame.bind (setOff_keeps f off) fun _ => Machine.Frame.pure _

theorem fileseek_keeps (f offset : Nat) (whence : Int) :
    Machine.Frame Keeps (fileseek io f offset whence) := by
  refine Machine.Frame.bind Machine.Frame.get fun k => ?_
  dsimp only
  split
  · refine Machine.Frame.bind (epOf_keeps f) fun ep => Machine.Frame.bind (onBelow_keeps _) fun _ =>
      Machine.Frame.bind ?_ fun _ => Machine.Frame.bind (onBelow_keeps _) fun _ => Machine.Frame.pure _
    refine Machine.Frame.ite (sought_keeps f (fun _ => _) _) <|
      Machine.Frame.ite (sought_keeps f (fun _ => _) _) <| Machine.Frame.ite ?_ (Machine.Frame.pure _)
    exact Machine.Frame.bind Machine.Frame.get fun _ => sought_keeps f (fun _ => _) _
  · refine Machine.Frame.bind (pipeOf_keeps f) fun pi => Machine.Frame.bind (onBelow_keeps _) fun _ =>
      Machine.Frame.bind ?_ fun _ => Machine.Frame.bind (onBelow_keeps _) fun _ => Machine.Frame.pure _
    exact Machine.Frame.ite (sought_keeps f (fun _ => _) _) <|
      Machine.Frame.ite (sought_keeps f (fun _ => _) _) (Machine.Frame.pure _)
  · exact Machine.Frame.pure _

theorem dirnext_keeps (p f addr : Nat) : Machine.Frame Keeps (dirnext io limit p f addr) := by
  refine Machine.Frame.bind Machine.Frame.get fun k => Machine.Frame.ite (Machine.Frame.pure _) <|
    Machine.Frame.bind (epOf_keeps f) fun ep => Machine.Frame.ite (Machine.Frame.pure _) ?_
  refine Machine.Frame.bind (onBelow_keeps _) fun _ => Machine.Frame.bind (onBelow_keeps _) fun r =>
    Machine.Frame.bind (setOff_keeps f fun _ => r.2.2.2) fun _ =>
    Machine.Frame.bind (onBelow_keeps _) fun _ => Machine.Frame.ite (Machine.Frame.pure _) ?_
  exact Machine.Frame.bind (setOff_keeps f _) fun _ => Machine.Frame.bind (onBelow_keeps _) fun _ =>
    Machine.Frame.ite (Machine.Frame.pure _) (Machine.Frame.pure _)

theorem get_next_dirent_keeps (p f addr : Nat) (n : Int) :
    Machine.Frame Keeps (get_next_dirent io limit p f addr n) := by
  refine Machine.Frame.bind Machine.Frame.get fun k => Machine.Frame.ite (Machine.Frame.pure _) <|
    Machine.Frame.bind (epOf_keeps f) fun ep => Machine.Frame.ite (Machine.Frame.pure _) ?_
  exact Machine.Frame.bind (onBelow_keeps _) fun _ => Machine.Frame.bind (onBelow_keeps _) fun r =>
    Machine.Frame.bind (setOff_keeps f fun _ => r.2) fun _ => Machine.Frame.pure _

/-- A call on the file of a descriptor. -/
theorem opened_keeps {pfd : Bool} {fd : Int} (r : α) (x : Nat → Call σ E P α)
    (h : ∀ f, Machine.Frame Keeps (x f)) : Machine.Frame Keeps (do
      match ← argfd p pfd fd with
      | none => return r
      | some f => x f) := by
  refine Machine.Frame.bind (argfd_keeps p pfd fd) fun f => ?_
  cases f with
  | none => exact Machine.Frame.pure _
  | some f => exact h f

theorem sys_ftruncate_keeps (p : Nat) (fd fd₀ len : Int) :
    Machine.Frame Keeps (sys_ftruncate io p fd fd₀ len) := by
  refine Machine.Frame.bind (argfd_keeps p true fd) fun fp => Machine.Frame.ite (Machine.Frame.pure _) ?_
  cases fp with
  | none => exact Machine.Frame.halt _
  | some f => exact Machine.Frame.bind (epOf_keeps f) fun _ =>
      Machine.Frame.bind (onBelow_keeps _) fun _ => Machine.Frame.pure _

theorem epIfSet_keeps (f : Nat) : Machine.Frame Keeps (epIfSet f : Call σ E P (Option E)) := by
  refine Machine.Frame.bind Machine.Frame.get fun k => ?_
  split
  · exact Machine.Frame.pure _
  · exact Machine.Frame.bind (epOf_keeps f) fun _ => Machine.Frame.pure _

theorem copiedOut_keeps (x : Machine σ Bool) : Machine.Frame Keeps (do
    if ← onBelow x then return 0 else return -1 : Call σ E P Int) :=
  Machine.Frame.bind (onBelow_keeps _) fun _ =>
    Machine.Frame.ite (Machine.Frame.pure _) (Machine.Frame.pure _)

theorem sys_fstatat_keeps (p : Nat) (fd fd₀ : Int) (path : Path) (st : Nat) :
    Machine.Frame Keeps (sys_fstatat io p fd fd₀ path st) := by
  refine Machine.Frame.bind (argfd_keeps p true fd) fun fp => Machine.Frame.ite (Machine.Frame.pure _) <|
    Machine.Frame.bind ?_ fun dp => Machine.Frame.bind Machine.Frame.get fun k =>
    Machine.Frame.ite (Machine.Frame.pure _) <| Machine.Frame.bind (onBelow_keeps _) fun ep =>
    Machine.Frame.ite ?_ ?_
  · cases fp with
    | none => exact Machine.Frame.pure _
    | some f => exact epIfSet_keeps f
  · exact Machine.Frame.bind Machine.Frame.get fun _ => copiedOut_keeps _
  · cases ep with
    | none => exact Machine.Frame.pure _
    | some ep =>
      exact Machine.Frame.bind (onBelow_keeps _) fun _ => Machine.Frame.bind Machine.Frame.get fun _ =>
        Machine.Frame.bind (onBelow_keeps _) fun _ => Machine.Frame.bind (onBelow_keeps _) fun _ =>
        copiedOut_keeps _

theorem sys_faccessat_keeps (p : Nat) (fd fd₀ : Int) (path : Path) (mode : Nat) :
    Machine.Frame Keeps (sys_faccessat io p fd fd₀ path mode) := by
  refine Machine.Frame.bind (argfd_keeps p true fd) fun fp => Machine.Frame.ite (Machine.Frame.pure _) <|
    Machine.Frame.bind Machine.Frame.get fun k => Machine.Frame.bind ?_ fun dp =>
    Machine.Frame.bind (onBelow_keeps _) fun ep => ?_
  · refine Machine.Frame.ite (Machine.Frame.pure _) ?_
    cases fp with
    | none => exact Machine.Frame.pure _
    | some f => exact epIfSet_keeps f
  · cases ep with
    | none => exact Machine.Frame.pure _
    | some ep =>
      dsimp only
      exact Machine.Frame.ite (Machine.Frame.pure _)
        (Machine.Frame.ite (Machine.Frame.pure _) (Machine.Frame.pure _))

theorem sys_dev_keeps (p : Nat) (omode : UInt32) (major : Int) :
    Machine.Frame Keeps (sys_dev io b p omode major) := by
  refine Machine.Frame.ite (Machine.Frame.panic _) <| Machine.Frame.ite (Machine.Frame.pure _) <|
    Machine.Frame.bind (allocFd_keeps p) fun fd => ?_
  cases fd with
  | none => exact Machine.Frame.pure _
  | some fd =>
    exact Machine.Frame.bind (setFile_keeps _ _ fun _ _ => Good.of_type nofun nofun) fun _ =>
      Machine.Frame.bind (Machine.Frame.modify _ fun _ => keeps_of_file rfl) fun _ =>
      Machine.Frame.pure _

end AvxKernel.Fd
