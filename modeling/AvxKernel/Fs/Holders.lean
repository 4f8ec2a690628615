import AvxKernel.Fs.Calls
import AvxKernel.Fs.Lookups

/-! Who holds the references to an entry: the open files, the working directories
of the processes, and a call that is under way. The calls on descriptors keep this
account. -/
namespace AvxKernel.Fs

open Fd (Path setFile setProc setOfile)

variable {δ α : Type} {k k' : Kernel δ} {T T' : Nat → Nat} {H : Nat → Option Nat} {n : Nat}
  {e f p q fd limit : Nat} {w : World δ} {disk : Disk δ}

/-- The entry that a file refers to. -/
def entryOf (file : Fd.File Nat Nat) : Option Nat := if file.type = .entry then file.ep else none

/-- The number of files that refer to an entry. -/
def files (k : Kernel δ) (d : Nat) : Nat := refs (Finset.range Fd.NFILE) (fun f => entryOf (k.file f)) d

/-- The number of processes whose working directory is an entry. -/
def cwds (k : Kernel δ) (d : Nat) : Nat := refs (Finset.range NPROC) (fun q => (k.proc q).cwd) d

/-- The account of all references, with those that a call has in hand. -/
structure Ledger (k : Kernel δ) (T : Nat → Nat) (H : Nat → Option Nat) (n : Nat) : Prop where
  owes : Owes k.below (files k + cwds k + T) H n none
  file : ∀ f, (k.file f).type = .entry →
    f < Fd.NFILE ∧ 0 < (k.file f).ref ∧ ∃ ep, (k.file f).ep = some ep
  cwd : ∀ q d, (k.proc q).cwd = some d → q < NPROC ∧ (k.proc q).state = .live

theorem Ledger.pos (h : Ledger k T H n) (held : 0 < T e) : 0 < (k.below.state.ent e).ref := by
  refine h.owes.pos ?_
  simp only [Pi.add_apply]
  omega

theorem files_pos (inside : f < Fd.NFILE) (isEntry : (k.file f).type = .entry)
    (points : (k.file f).ep = some e) : 0 < files k e :=
  show 0 < refs _ (fun f => entryOf (k.file f)) e from
    refs_pos (Finset.mem_range.mpr inside) (by rw [entryOf, if_pos isEntry, points])

theorem cwds_pos (inside : q < NPROC) (points : (k.proc q).cwd = some e) : 0 < cwds k e :=
  show 0 < refs _ (fun q => (k.proc q).cwd) e from refs_pos (Finset.mem_range.mpr inside) points

/-- A file or a process refers to the entry. -/
def Held (k : Kernel δ) (e : Nat) : Prop := 0 < files k e + cwds k e

theorem Ledger.held_pos (h : Ledger k T H n) (held : Held k e) :
    0 < (k.below.state.ent e).ref := by
  refine h.owes.pos ?_
  have : 0 < files k e + cwds k e := held
  simp only [Pi.add_apply]
  omega

theorem Ledger.file_held (h : Ledger k T H n) (isEntry : (k.file f).type = .entry)
    (points : (k.file f).ep = some e) : Held k e := by
  have := files_pos (h.file f isEntry).1 isEntry points
  unfold Held
  omega

theorem Ledger.cwd_held (h : Ledger k T H n) (points : (k.proc q).cwd = some e) : Held k e := by
  have := cwds_pos (h.cwd q e points).1 points
  unfold Held
  omega

/-! ### Moving references -/

theorem refTo_apply (v : Option Nat) (d : Nat) : refTo v d = if v = some d then 1 else 0 := by
  cases v <;> simp [refTo, one]

theorem files_set (hf : f < Fd.NFILE) (file : Fd.File Nat Nat) (d : Nat) :
    files { k with file := Function.update k.file f file } d + refTo (entryOf (k.file f)) d =
      files k d + refTo (entryOf file) d := by
  have moved := refs_update (fun f => entryOf (k.file f)) (Finset.mem_range.mpr hf) (entryOf file) d
  have same : (fun f' => entryOf (Function.update k.file f file f')) =
      Function.update (fun f => entryOf (k.file f)) f (entryOf file) := by
    funext f'
    rcases eq_or_ne f' f with rfl | ne
    · simp
    · simp [ne]
  rw [refTo_apply, refTo_apply, files, same]
  exact moved

theorem cwds_set (hq : q < NPROC) (pr : Fd.Proc Nat) (d : Nat) :
    cwds { k with proc := Function.update k.proc q pr } d + refTo (k.proc q).cwd d =
      cwds k d + refTo pr.cwd d := by
  have moved := refs_update (fun q => (k.proc q).cwd) (Finset.mem_range.mpr hq) pr.cwd d
  have same : (fun q' => (Function.update k.proc q pr q').cwd) =
      Function.update (fun q => (k.proc q).cwd) q pr.cwd := by
    funext q'
    rcases eq_or_ne q' q with rfl | ne
    · simp
    · simp [ne]
  rw [refTo_apply, refTo_apply, cwds, same]
  exact moved

/-- One file changes what it refers to. -/
theorem Ledger.set_file (h : Ledger k T H n) {file : Fd.File Nat Nat}
    (balance : T' + refTo (entryOf file) = T + refTo (entryOf (k.file f)))
    (sound : file.type = .entry → f < Fd.NFILE ∧ 0 < file.ref ∧ ∃ ep, file.ep = some ep) :
    Ledger { k with file := Function.update k.file f file } T' H n where
  owes := by
    have moved : files { k with file := Function.update k.file f file } + cwds k + T' =
        files k + cwds k + T := by
      funext d
      have balance := congrFun balance d
      simp only [Pi.add_apply] at balance ⊢
      by_cases hf : f < Fd.NFILE
      · have moved := files_set (k := k) hf file d
        omega
      · have before : entryOf (k.file f) = none := if_neg fun isEntry => hf (h.file f isEntry).1
        have after : entryOf file = none := if_neg fun isEntry => hf (sound isEntry).1
        have same : files { k with file := Function.update k.file f file } d = files k d := by
          unfold files refs
          congr 1
          refine Finset.filter_congr fun f' hf' => ?_
          have ne : f' ≠ f := fun eq => hf (eq ▸ Finset.mem_range.mp hf')
          simp only [Function.update_of_ne ne]
        rw [before, after] at balance
        omega
    have owes := h.owes
    rw [← moved] at owes
    exact owes
  file f' isEntry := by
    dsimp only at isEntry ⊢
    rcases eq_or_ne f' f with rfl | ne
    · rw [Function.update_self] at isEntry ⊢
      exact sound isEntry
    · rw [Function.update_of_ne ne] at isEntry ⊢
      exact h.file f' isEntry
  cwd := h.cwd

/-- One process changes its working directory, once the references below agree. -/
theorem Ledger.set_proc (h : Ledger k T H n) (hq : q < NPROC) {pr : Fd.Proc Nat}
    (balance : T' + refTo pr.cwd = T + refTo (k.proc q).cwd)
    (live : pr.cwd ≠ none → pr.state = .live) :
    Ledger { k with proc := Function.update k.proc q pr } T' H n where
  owes := by
    have moved : files k + cwds { k with proc := Function.update k.proc q pr } + T' =
        files k + cwds k + T := by
      funext d
      have moved := cwds_set (k := k) hq pr d
      have balance := congrFun balance d
      simp only [Pi.add_apply] at balance ⊢
      omega
    have owes := h.owes
    rw [← moved] at owes
    exact owes
  file := h.file
  cwd q' d points := by
    dsimp only at points ⊢
    rcases eq_or_ne q' q with rfl | ne
    · rw [Function.update_self] at points ⊢
      exact ⟨hq, live (by rw [points]; simp)⟩
    · rw [Function.update_of_ne ne] at points ⊢
      exact h.cwd q' d points

/-- The cache below changes, and the references in hand with it. -/
theorem Ledger.set_below {s : Shared (Ecache δ)} {H' : Nat → Option Nat} (h : Ledger k T H n)
    (owes : Owes s (files k + cwds k + T') H' n none) : Ledger { k with below := s } T' H' n where
  owes := owes
  file := h.file
  cwd := h.cwd

/-- A change of what nobody counts. -/
theorem Ledger.same_proc (h : Ledger k T H n) {g : Fd.Proc Nat → Fd.Proc Nat}
    (same : (g (k.proc q)).cwd = (k.proc q).cwd ∧ (g (k.proc q)).state = (k.proc q).state) :
    Ledger { k with proc := Function.update k.proc q (g (k.proc q)) } T H n := by
  have cwd : ∀ q', (Function.update k.proc q (g (k.proc q)) q').cwd = (k.proc q').cwd := by
    intro q'
    rcases eq_or_ne q' q with rfl | ne
    · simp [same]
    · simp [ne]
  refine ⟨?_, h.file, fun q' d points => ?_⟩
  · have count : cwds { k with proc := Function.update k.proc q (g (k.proc q)) } = cwds k := by
      funext d
      simp only [cwds, cwd]
    rw [show files { k with proc := Function.update k.proc q (g (k.proc q)) } = files k from rfl,
      count]
    exact h.owes
  · rw [cwd] at points
    obtain ⟨inside, live⟩ := h.cwd q' d points
    refine ⟨inside, ?_⟩
    rcases eq_or_ne q' q with rfl | ne
    · simp [same, live]
    · simp [ne, live]

/-! ### Calls of the cache -/

/-- Only the cache changes. -/
def Below (k k' : Kernel δ) : Prop := k'.file = k.file ∧ k'.proc = k.proc

theorem Below.held (same : Below k k') (held : Held k e) : Held k' e := by
  unfold Held files cwds
  rw [same.1, same.2]
  exact held

theorem Below.refl (k : Kernel δ) : Below k k := ⟨rfl, rfl⟩

theorem Below.trans {k'' : Kernel δ} (h : Below k k') (h' : Below k' k'') : Below k k'' :=
  ⟨h'.1.trans h.1, h'.2.trans h.2⟩

theorem onCache_ends {x : Cache δ α} {Q : α → Kernel δ → Prop}
    (h : Prog.Ends p Orderly x k.below fun a s => Q a { k with below := s }) :
    Machine.Ends Orderly (onCache p x) k Q :=
  Machine.Ends.zoom h

theorem onCache_ok {x : Cache δ α} {a : α} {s : Shared (Ecache δ)}
    (run : Prog.run p x k.below = .ok (a, s)) : onCache p x k = .ok (a, { k with below := s }) := by
  unfold onCache Fd.onBelow
  exact Machine.zoom_ok.mpr ⟨s, run, rfl⟩

theorem elock_ledger (h : Ledger k T H n) : Machine.Ends Orderly (onCache p (elock e)) k fun _ k' =>
    H e = none ∧ Below k k' ∧ k'.below.state = k.below.state ∧
      Ledger k' T (Function.update H e (some p)) n := by
  refine onCache_ends ((elock_ends h.owes).mono ?_)
  rintro _ s ⟨free, same, owes⟩
  exact ⟨free, ⟨rfl, rfl⟩, same, h.set_below owes⟩

theorem eunlock_ledger (h : Ledger k T H n) (mine : H e = some p)
    (used : 0 < (k.below.state.ent e).ref) :
    Machine.Ends Orderly (onCache p (eunlock e)) k fun _ k' =>
      Below k k' ∧ k'.below.state = k.below.state ∧ Ledger k' T (Function.update H e none) n := by
  refine onCache_ends ((eunlock_ends h.owes mine used).mono ?_)
  rintro _ s ⟨same, owes⟩
  exact ⟨⟨rfl, rfl⟩, same, h.set_below owes⟩

theorem eput_ledger (h : Ledger k (T + one e) H n) :
    Machine.Ends Orderly (onCache p (eput disk limit e)) k fun _ k' =>
      Below k k' ∧ Ledger k' T H n := by
  have owes : Owes k.below (files k + cwds k + T + one e) H n none := by
    rw [add_assoc]
    exact h.owes
  refine onCache_ends ((eput_ends owes).mono ?_)
  exact fun _ s owes => ⟨⟨rfl, rfl⟩, h.set_below owes⟩

theorem edup_ledger (h : Ledger k T H n) (used : 0 < (k.below.state.ent e).ref) :
    Machine.Ends Orderly (onCache p (edup e)) k fun a k' =>
      e = a ∧ Below k k' ∧ Ledger k' (T + one e) H n := by
  refine onCache_ends ((edup_ends h.owes (.inl used)).mono ?_)
  rintro a s ⟨rfl, -, owes⟩
  rw [add_assoc] at owes
  exact ⟨rfl, ⟨rfl, rfl⟩, h.set_below owes⟩

/-- Calls that move no reference. -/
theorem kept_ledger {x : Cache δ α} (h : Ledger k T H n)
    (kept : Prog.Ends p Orderly x k.below fun _ t =>
      Kept k.below t ∧ t.holder = k.below.holder ∧ t.stray = k.below.stray) :
    Machine.Ends Orderly (onCache p x) k fun _ k' => Below k k' ∧ Ledger k' T H n := by
  refine onCache_ends (kept.mono ?_)
  rintro _ s ⟨kept, holder, stray⟩
  exact ⟨⟨rfl, rfl⟩, h.set_below (kept.owes h.owes holder stray)⟩

theorem entry_ledger (h : Ledger k T H n) : Machine.Ends Orderly (onCache p (entry e)) k fun d k' =>
    d = k.below.state.ent e ∧ Below k k' ∧ k'.below = k.below ∧ Ledger k' T H n :=
  onCache_ends (Prog.Ends.step (Machine.Ends.get_bind
    (Machine.Ends.pure ⟨rfl, ⟨rfl, rfl⟩, rfl, h⟩)))

theorem new_lookup_path_ledger {env cwd : Option Nat} {path : Name} {parent : Bool}
    (h : Ledger k T H n) (fromEnv : path.head? ≠ some 47 → ∀ e, env = some e → Held k e)
    (fromCwd : ∀ e, cwd = some e → Held k e) :
    Machine.Ends Orderly (onCache p (new_lookup_path disk limit env cwd path parent)) k
      fun r k' => Below k k' ∧ Ledger k' (T + refTo r.1) H n := by
  refine onCache_ends ((new_lookup_path_ends h.owes (fun relative e eq => h.held_pos (fromEnv relative e eq))
    fun e eq => h.held_pos (fromCwd e eq)).mono ?_)
  intro r s owes
  rw [add_assoc] at owes
  exact ⟨⟨rfl, rfl⟩, h.set_below owes⟩

theorem new_ename_ledger {env cwd : Option Nat} {path : Name} (h : Ledger k T H n)
    (fromEnv : path.head? ≠ some 47 → ∀ e, env = some e → Held k e)
    (fromCwd : ∀ e, cwd = some e → Held k e) :
    Machine.Ends Orderly (onCache p (new_ename disk limit env cwd path)) k
      fun r k' => Below k k' ∧ Ledger k' (T + refTo r) H n := by
  refine onCache_ends ((new_ename_ends h.owes (fun relative e eq => h.held_pos (fromEnv relative e eq))
    fun e eq => h.held_pos (fromCwd e eq)).mono ?_)
  intro r s owes
  rw [add_assoc] at owes
  exact ⟨⟨rfl, rfl⟩, h.set_below owes⟩

theorem ealloc_ledger {attr dp : Nat} {name : Name} (h : Ledger k T H n) (held : 0 < T dp) :
    Machine.Ends Orderly (onCache p (ealloc disk limit dp name attr)) k
      fun r k' => Below k k' ∧ Ledger k' (T + refTo r) H n := by
  refine onCache_ends ((ealloc_ends h.owes ?_).mono ?_)
  · simp only [Pi.add_apply]
    omega
  · intro r s owes
    rw [add_assoc] at owes
    exact ⟨⟨rfl, rfl⟩, h.set_below owes⟩

theorem onDisk_ledger (x : (Nat → Dirent) → OnDisk δ α) (h : Ledger k T H n) :
    Machine.Ends Orderly (onCache p (onDisk x)) k fun _ k' => Below k k' ∧ Ledger k' T H n :=
  kept_ledger h onDisk_kept

/-! ### The same calls as what lies below the open files -/

section Below

theorem elock_below (h : Ledger k T H n) :
    Machine.Ends Orderly (Fd.onBelow ((below limit w p).elock e)) k fun _ k' =>
      H e = none ∧ Below k k' ∧ k'.below.state = k.below.state ∧
        Ledger k' T (Function.update H e (some p)) n :=
  elock_ledger h

theorem eunlock_below (h : Ledger k T H n) (mine : H e = some p)
    (used : 0 < (k.below.state.ent e).ref) :
    Machine.Ends Orderly (Fd.onBelow ((below limit w p).eunlock e)) k fun _ k' =>
      Below k k' ∧ k'.below.state = k.below.state ∧ Ledger k' T (Function.update H e none) n :=
  eunlock_ledger h mine used

theorem eput_below (h : Ledger k (T + one e) H n) :
    Machine.Ends Orderly (Fd.onBelow ((below limit w p).eput e)) k fun _ k' =>
      Below k k' ∧ Ledger k' T H n :=
  eput_ledger h

theorem edup_below (h : Ledger k T H n) (used : 0 < (k.below.state.ent e).ref) :
    Machine.Ends Orderly (Fd.onBelow ((below limit w p).edup e)) k fun a k' =>
      e = a ∧ Below k k' ∧ Ledger k' (T + one e) H n :=
  edup_ledger h used

theorem etrunc_below (h : Ledger k T H n) :
    Machine.Ends Orderly (Fd.onBelow ((below limit w p).etrunc e)) k fun _ k' =>
      Below k k' ∧ Ledger k' T H n :=
  kept_ledger h etrunc_kept

theorem setZero_below (h : Ledger k T H n) :
    Machine.Ends Orderly (Fd.onBelow ((below limit w p).setZero e)) k fun _ k' =>
      Below k k' ∧ Ledger k' T H n :=
  kept_ledger h setZero_kept

theorem new_ename_below {env cwd : Option Nat} {path : Name} (h : Ledger k T H n)
    (fromEnv : path.head? ≠ some 47 → ∀ e, env = some e → Held k e) (fromCwd : ∀ e, cwd = some e → Held k e) :
    Machine.Ends Orderly (Fd.onBelow ((below limit w p).new_ename env cwd path)) k fun r k' =>
      Below k k' ∧ Ledger k' (T + refTo r) H n :=
  new_ename_ledger h fromEnv fromCwd

theorem new_enameparent_below {env cwd : Option Nat} {path : Name} (h : Ledger k T H n)
    (fromEnv : path.head? ≠ some 47 → ∀ e, env = some e → Held k e) (fromCwd : ∀ e, cwd = some e → Held k e) :
    Machine.Ends Orderly (Fd.onBelow ((below limit w p).new_enameparent env cwd path)) k
      fun r k' => Below k k' ∧ Ledger k' (T + refTo r.1) H n :=
  new_lookup_path_ledger h fromEnv fromCwd

theorem ealloc_below {attr dp : Nat} {name : Name} (h : Ledger k T H n) (held : 0 < T dp) :
    Machine.Ends Orderly (Fd.onBelow ((below limit w p).ealloc dp name attr)) k fun r k' =>
      Below k k' ∧ Ledger k' (T + refTo r) H n :=
  ealloc_ledger h held

theorem pipeclose_below {pi : Nat} {writable : Bool} (h : Ledger k T H n) :
    Machine.Ends Orderly (Fd.onBelow ((below limit w p).pipeclose pi writable)) k fun _ k' =>
      Below k k' ∧ Ledger k' T H n :=
  onDisk_ledger (fun _ => w.pipeclose pi writable) h

theorem kallocPipe_below (h : Ledger k T H n) :
    Machine.Ends Orderly (Fd.onBelow (below limit w p).kallocPipe) k fun _ k' =>
      Below k k' ∧ Ledger k' T H n :=
  onDisk_ledger (fun _ => w.kallocPipe) h

theorem copyout_below {addr v : Nat} (h : Ledger k T H n) :
    Machine.Ends Orderly (Fd.onBelow ((below limit w p).copyout q addr v)) k fun _ k' =>
      Below k k' ∧ Ledger k' T H n :=
  onDisk_ledger (fun _ => w.copyout q addr v) h

theorem allocproc_below (h : Ledger k T H n) :
    Machine.Ends Orderly (Fd.onBelow ((below limit w p).allocproc q)) k fun _ k' =>
      Below k k' ∧ Ledger k' T H n :=
  onDisk_ledger (fun _ => w.allocproc q) h

theorem forkCopy_below {np : Nat} (h : Ledger k T H n) :
    Machine.Ends Orderly (Fd.onBelow ((below limit w p).forkCopy q np)) k fun _ k' =>
      Below k k' ∧ Ledger k' T H n :=
  onDisk_ledger (fun _ => w.forkCopy q np) h

theorem freeproc_below (h : Ledger k T H n) :
    Machine.Ends Orderly (Fd.onBelow ((below limit w p).freeproc q)) k fun _ k' =>
      Below k k' ∧ Ledger k' T H n :=
  onDisk_ledger (fun _ => w.freeproc q) h

end Below

end AvxKernel.Fs
