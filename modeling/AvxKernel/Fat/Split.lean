import AvxKernel.Fat.Cursors

/-! A write is that of its bytes one after the other, and so that of its parts, however the
clusters lie. -/
namespace AvxKernel.Fat

variable {fat : Geometry} {d d' : Disk} {e e' : Dirent} {off : Nat} {bytes : List UInt8}

variable (fat) in
/-- Bytes laid down one after the other. -/
def putBytes : List UInt8 → Dirent → Nat → Machine Disk Dirent
  | [], entry, _ => return entry
  | b :: rest, entry, off => do
    let (_, entry) ← reloc_clus fat entry off true
    let _ ← rw_clus_write fat entry.cur_clus (.ofBytes [b]) (off % fat.byts_per_clus) 1
    putBytes rest entry (off + 1)

theorem putBytes_append (bytes rest : List UInt8) (e : Dirent) (off : Nat) :
    putBytes fat (bytes ++ rest) e off = (do
      let e ← putBytes fat bytes e off
      putBytes fat rest e (off + bytes.length)) := by
  induction bytes generalizing e off with
  | nil => rfl
  | cons b bytes ih =>
    rw [List.cons_append, putBytes, putBytes]
    simp only [bind_assoc, ih]
    rw [List.length_cons, Nat.add_right_comm, Nat.add_assoc]

/-! ### The size of the file is nothing to it -/

def Dirent.resize (e : Dirent) (file_size : Nat) (dirty : Bool) : Dirent := { e with file_size, dirty }

theorem relocForward_resize (alloc : Bool) (more : Nat) (e : Dirent) (size : Nat) (dirty : Bool) :
    relocForward fat alloc more (e.resize size dirty) = (do
      let (there, e) ← relocForward fat alloc more e
      return (there, e.resize size dirty)) := by
  induction more generalizing e with
  | zero => rfl
  | succ more ih =>
    rw [relocForward, relocForward, bind_assoc]
    apply bind_congr
    intro clus
    split
    · split
      · simp only [bind_assoc]
        exact bind_congr fun c => bind_congr fun _ => ih (e.advance c)
      · rfl
    · split
      · rfl
      · exact ih (e.advance clus)

theorem relocFromStart_resize (more : Nat) (e : Dirent) (size : Nat) (dirty : Bool) :
    relocFromStart fat more (e.resize size dirty) = (do
      let e ← relocFromStart fat more e
      return e.resize size dirty) := by
  induction more generalizing e with
  | zero => rfl
  | succ more ih =>
    rw [relocFromStart, relocFromStart, bind_assoc]
    apply bind_congr
    intro clus
    split
    · rfl
    · exact ih (e.advance clus)

theorem reloc_clus_resize (e : Dirent) (off : Nat) (alloc : Bool) (size : Nat) (dirty : Bool) :
    reloc_clus fat (e.resize size dirty) off alloc = (do
      let (r, e) ← reloc_clus fat e off alloc
      return (r, e.resize size dirty)) := by
  rw [reloc_clus, reloc_clus, relocForward_resize]
  simp only [bind_assoc, pure_bind]
  apply bind_congr
  rintro ⟨there, e'⟩
  split
  · rfl
  · simp only [bind_assoc, pure_bind]
    change (if _ < e'.clus_cnt then relocFromStart fat _ (e'.rewind.resize size dirty) else _) >>= _ = _
    split
    · rw [relocFromStart_resize]
      simp only [bind_assoc, pure_bind]
    · rfl

theorem putBytes_resize (bytes : List UInt8) (e : Dirent) (off size : Nat) (dirty : Bool) :
    putBytes fat bytes (e.resize size dirty) off = (do
      let e ← putBytes fat bytes e off
      return e.resize size dirty) := by
  induction bytes generalizing e off with
  | nil => rfl
  | cons b bytes ih =>
    rw [putBytes, putBytes, reloc_clus_resize]
    simp only [bind_assoc, pure_bind]
    exact bind_congr fun r => bind_congr fun _ => ih r.2 (off + 1)

/-! ### Within a cluster -/

theorem leaves_any {α : Type} (x : Machine Disk α) (d : Disk) : Leaves x d fun _ _ => True :=
  Machine.Ends.of_runs (fun _ => trivial) fun _ _ _ => trivial

/-- The entry after a walk: as it was, but for a cursor that has counted its steps. -/
def Counted (e e' : Dirent) (n : Nat) : Prop := SameFile e e' ∧ e'.clus_cnt = n

theorem Counted.step {clus more : Nat} (h : Counted (e.advance clus) e' (e.clus_cnt + 1 + more)) :
    Counted e e' (e.clus_cnt + (more + 1)) :=
  ⟨(SameFile.advance e clus).trans h.1, by rw [h.2, Nat.add_assoc, Nat.add_comm 1]⟩

theorem relocForward_count (more : Nat) :
    Leaves (relocForward fat true more e) d fun r _ => r.1 = true ∧ Counted e r.2 (e.clus_cnt + more) := by
  induction more generalizing d e with
  | zero => exact Machine.Ends.pure ⟨rfl, .refl e, rfl⟩
  | succ more ih =>
    have next : ∀ clus t, Leaves (relocForward fat true more (e.advance clus)) t fun r _ =>
        r.1 = true ∧ Counted e r.2 (e.clus_cnt + (more + 1)) :=
      fun clus t => ih.mono fun r _ counted => ⟨counted.1, counted.2.step⟩
    rw [relocForward]
    apply Machine.Ends.bind (leaves_any _ d)
    intro clus t _
    apply Machine.Ends.ite
    · intro _
      rw [if_pos rfl]
      apply Machine.Ends.bind (leaves_any _ t)
      intro clus u _
      exact Machine.Ends.bind (leaves_any _ u) fun _ v _ => next clus v
    · intro _
      apply Machine.Ends.ite
      · exact fun _ => Machine.Ends.halt trivial
      · exact fun _ => next clus t

theorem relocFromStart_count (more : Nat) :
    Leaves (relocFromStart fat more e) d fun r _ => Counted e r (e.clus_cnt + more) := by
  induction more generalizing d e with
  | zero => exact Machine.Ends.pure ⟨.refl e, rfl⟩
  | succ more ih =>
    rw [relocFromStart]
    apply Machine.Ends.bind (leaves_any _ d)
    intro clus t _
    apply Machine.Ends.ite
    · exact fun _ => Machine.Ends.halt trivial
    · exact fun _ => ih.mono fun r _ counted => counted.step

/-- Where something may be allocated the cluster is found, and counted. -/
theorem reloc_clus_count (off : Nat) :
    Leaves (reloc_clus fat e off true) d fun r _ => Counted e r.2 (off / fat.byts_per_clus) := by
  rw [reloc_clus]
  apply Machine.Ends.bind (relocForward_count _)
  rintro ⟨there, e'⟩ t ⟨rfl, same, count⟩
  dsimp only
  rw [if_neg (by decide)]
  apply Machine.Ends.bind (R := fun r _ => Counted e r (off / fat.byts_per_clus))
  · apply Machine.Ends.ite
    · intro _
      refine (relocFromStart_count _).mono ?_
      rintro r _ ⟨file, back⟩
      exact ⟨same.trans (SameFile.trans ⟨_, _, rfl⟩ file), back.trans (Nat.zero_add _)⟩
    · intro here
      refine Machine.Ends.pure ⟨same, ?_⟩
      change ¬_ < e'.clus_cnt at here
      change e'.clus_cnt = _ at count
      omega
  · exact fun r _ counted => Machine.Ends.pure counted

/-- A cluster that is found again is the same. -/
theorem reloc_clus_again {i : Nat} (count : e.clus_cnt = off / fat.byts_per_clus)
    (within : off % fat.byts_per_clus + i < fat.byts_per_clus) :
    reloc_clus fat e (off + i) true d = .ok ((some ((off + i) % fat.byts_per_clus), e), d) := by
  have none : (off + i) / fat.byts_per_clus - e.clus_cnt = 0 := by
    rw [count, (chain_place within).1, Nat.sub_self]
  have here : ¬(off + i) / fat.byts_per_clus < e.clus_cnt := by
    rw [count, (chain_place within).1]
    exact Nat.lt_irrefl _
  rw [reloc_clus, none, relocForward, pure_bind]
  dsimp only
  rw [if_neg (by decide), if_neg here]
  rfl

/-- A transfer within a cluster is one of its first byte and of the others. -/
theorem rw_clus_write_cons {b : UInt8} {rest : List UInt8} {c : Nat} (some : rest ≠ [])
    (inside : off + (rest.length + 1) ≤ fat.byts_per_clus) :
    rw_clus_write fat c (.ofBytes (b :: rest)) off (rest.length + 1) d = (do
      let _ ← rw_clus_write fat c (.ofBytes [b]) off 1
      let _ ← rw_clus_write fat c (.ofBytes rest) (off + 1) rest.length
      return rest.length + 1) d := by
  have pos : 0 < rest.length := List.length_pos_iff.mpr some
  by_cases range : fat.InRange c
  · have whole : rw_clus_write fat c (.ofBytes (b :: rest)) off (rest.length + 1) d = .ok _ :=
      rw_clus_write_run range (Nat.succ_pos _) inside
    have first : rw_clus_write fat c (.ofBytes [b]) off 1 d = .ok _ :=
      rw_clus_write_run range Nat.one_pos (show off + 1 ≤ fat.byts_per_clus by omega)
    have others : rw_clus_write fat c (.ofBytes rest) (off + 1) rest.length
        (d.blit (fat.clusterAt c + off) [b]) = .ok _ := rw_clus_write_run range pos (by omega)
    rw [whole, Machine.bind_of_ok first, Machine.bind_of_ok others]
    have both := d.blit_append (fat.clusterAt c + off) [b] rest
    rw [List.length_singleton, Nat.add_assoc] at both
    rw [both]
    rfl
  · have small := fat.byts_per_clus_lt
    have stops : ∀ (bytes : List UInt8) (o n : Nat), o + n ≤ fat.byts_per_clus →
        rw_clus_write fat c (.ofBytes bytes) o n d = .error (.panic "cluster number error\n") := by
      intro bytes o n le
      rw [rw_clus_write, u32, Nat.mod_eq_of_lt (by omega), if_neg (Nat.not_lt.mpr le), first_sec_of_clus,
        if_pos (out_of_range range)]
      rfl
    rw [stops _ _ _ inside, Machine.bind_of_error (stops _ _ _ (by omega))]

/-- Bytes within one cluster are one transfer. -/
theorem putBytes_cluster (some : bytes ≠ [])
    (inside : off % fat.byts_per_clus + bytes.length ≤ fat.byts_per_clus) :
    putBytes fat bytes e off d = (do
      let (_, e) ← reloc_clus fat e off true
      let _ ← rw_clus_write fat e.cur_clus (.ofBytes bytes) (off % fat.byts_per_clus) bytes.length
      return e) d := by
  induction bytes generalizing e off d with
  | nil => exact absurd rfl some
  | cons b rest ih =>
    rw [putBytes]
    by_cases none : rest = []
    · subst none
      rfl
    cases moved : reloc_clus fat e off true d with
    | error stop => rw [Machine.bind_of_error moved, Machine.bind_of_error moved]
    | ok r =>
      obtain ⟨⟨r, e₁⟩, d₁⟩ := r
      obtain ⟨-, count⟩ := (reloc_clus_count off).ok moved
      have pos : 0 < rest.length := List.length_pos_iff.mpr none
      rw [Machine.bind_of_ok moved, Machine.bind_of_ok moved]
      rw [List.length_cons] at inside ⊢
      refine Eq.trans ?_ (Machine.bind_congr_run (rw_clus_write_cons none inside)).symm
      rw [bind_assoc]
      dsimp only
      cases first : rw_clus_write fat e₁.cur_clus (.ofBytes [b]) (off % fat.byts_per_clus) 1 d₁ with
      | error stop => rw [Machine.bind_of_error first, Machine.bind_of_error first]
      | ok r =>
        obtain ⟨r, d₂⟩ := r
        obtain ⟨-, place⟩ := @chain_place fat off 1 (by omega)
        rw [Machine.bind_of_ok first, Machine.bind_of_ok first, ih none (by rw [place]; omega),
          Machine.bind_of_ok (reloc_clus_again count (by omega)), place]
        simp only [bind_assoc, pure_bind]

/-! ### The loop of `ewrite` -/

/-- A transfer that does not fail counts all its bytes. -/
theorem transfer_full {n : Nat} (rs : List (Nat × Nat × Nat)) :
    Leaves (transfer (fun (a, tot, m) => do
      modify fun b => b.blit a ((Source.ofBytes bytes).copy tot m).1
      return ((Source.ofBytes bytes).copy tot m).2) n rs) d fun r _ => r = n := by
  induction rs generalizing d with
  | nil => exact Machine.Ends.pure rfl
  | cons r rest ih => exact ih

theorem rw_clus_write_full (c off n : Nat) :
    Leaves (rw_clus_write fat c (.ofBytes bytes) off n) d fun r _ => r = n := by
  rw [rw_clus_write]
  apply Machine.Ends.ite
  · exact fun _ => Machine.Ends.halt trivial
  · exact fun _ => Machine.Ends.bind (leaves_any _ d) fun _ _ _ => transfer_full _

theorem ewriteFrom_eq {limit tot : Nat} (small : off + (bytes.length - tot) < 2 ^ 32)
    (enough : bytes.length - tot < limit) (begun : tot ≤ bytes.length) :
    ewriteFrom fat (.ofBytes bytes) bytes.length limit e tot off d = (do
      let e ← putBytes fat (bytes.drop tot) e off
      return (bytes.length, off + (bytes.length - tot), e)) d := by
  induction limit generalizing e d tot off with
  | zero => omega
  | succ limit ih =>
    rw [ewriteFrom]
    rcases Nat.lt_or_ge tot bytes.length with more | done
    · obtain ⟨pos, within⟩ := step_length fat off (show 0 < bytes.length - tot by omega)
      rw [if_pos more]
      generalize step : min (fat.byts_per_clus - off % fat.byts_per_clus) (bytes.length - tot) = m at pos within
      have le : m ≤ bytes.length - tot := by omega
      have length : ((bytes.drop tot).take m).length = m := by
        rw [List.length_take, List.length_drop]
        omega
      have split : bytes.drop tot = (bytes.drop tot).take m ++ bytes.drop (tot + m) := by
        rw [← List.drop_drop, List.take_append_drop]
      have next : u32 (off + m) = off + m := Nat.mod_eq_of_lt (by omega)
      have stop : off + m + (bytes.length - (tot + m)) = off + (bytes.length - tot) := by omega
      have part : (bytes.drop tot).take m ≠ [] := List.length_pos_iff.mp (by omega)
      rw [split, putBytes_append, bind_assoc, length]
      refine Eq.trans ?_ (Machine.bind_congr_run (putBytes_cluster part (by omega))).symm
      rw [length]
      cases moved : reloc_clus fat e off true d with
      | error stop =>
        rw [Machine.bind_of_error moved, bind_assoc, Machine.bind_of_error moved]
      | ok r =>
        obtain ⟨⟨r, e₁⟩, d₁⟩ := r
        rw [Machine.bind_of_ok moved, bind_assoc, Machine.bind_of_ok moved]
        dsimp only
        rw [ofBytes_from, rw_clus_write_take, next, bind_assoc]
        cases wrote : rw_clus_write fat e₁.cur_clus (.ofBytes ((bytes.drop tot).take m))
            (off % fat.byts_per_clus) m d₁ with
        | error stop => rw [Machine.bind_of_error wrote, Machine.bind_of_error wrote]
        | ok r =>
          obtain ⟨r, d₂⟩ := r
          obtain rfl := (rw_clus_write_full _ _ _).ok wrote
          rw [Machine.bind_of_ok wrote, Machine.bind_of_ok wrote, if_neg (by omega),
            ih (by omega) (by omega) (by omega), stop]
          rfl
    · have all : tot = bytes.length := by omega
      rw [if_neg (by omega), all, List.drop_length, Nat.sub_self]
      rfl

theorem putBytes_same : Leaves (putBytes fat bytes e off) d fun r _ => SameFile e r := by
  induction bytes generalizing e d off with
  | nil => exact Machine.Ends.pure (.refl e)
  | cons b rest ih =>
    rw [putBytes]
    apply Machine.Ends.bind (reloc_clus_count off)
    rintro ⟨_, e'⟩ t ⟨same, -⟩
    apply Machine.Ends.bind (leaves_any _ t)
    intro _ u _
    exact ih.mono fun r _ same' => same.trans same'

/-! ### `ewrite` -/

/-- What `ewrite` does not refuse. -/
def Takes (e : Dirent) (off n : Nat) : Prop :=
  off ≤ e.file_size ∧ off + n < 2 ^ 32 ∧ e.attr &&& ATTR_READ_ONLY = 0

instance (e : Dirent) (off n : Nat) : Decidable (Takes e off n) := inferInstanceAs (Decidable (_ ∧ _))

theorem takes_iff {n : Nat} : ¬(e.file_size < off ∨ u32 (off + n) < off ∨ 0xffffffff < off + n ∨
    e.attr &&& ATTR_READ_ONLY ≠ 0) ↔ Takes e off n := by
  simp only [not_or, Nat.not_lt, ne_eq, not_not, Takes]
  constructor
  · rintro ⟨start, -, small, writable⟩
    exact ⟨start, by omega, writable⟩
  · rintro ⟨start, small, writable⟩
    rw [u32, Nat.mod_eq_of_lt small]
    exact ⟨start, Nat.le_add_right _ _, by omega, writable⟩

theorem ewrite_refused {n : Nat} (refused : ¬Takes e off n) (data : Source) :
    ewrite fat e data off n = pure (-1, e) := by
  rw [← takes_iff, not_not] at refused
  rw [ewrite, if_pos refused]

variable (fat) in
/-- The first cluster of a file, if it has none. -/
def begin (entry : Dirent) : Machine Disk Dirent :=
  if entry.first_clus = 0 then do
    let clus ← alloc_clus fat
    return { entry with cur_clus := clus, first_clus := clus, clus_cnt := 0, dirty := true }
  else
    return entry

/-- The size after so many bytes up to an offset. -/
def Dirent.grown (e : Dirent) (n off : Nat) : Dirent :=
  if 0 < n ∧ e.file_size < off then e.resize off true else e

theorem ewrite_eq (takes : Takes e off bytes.length) :
    ewrite fat e (.ofBytes bytes) off bytes.length d = (do
      let e ← begin fat e
      let e ← putBytes fat bytes e off
      return (lowInt bytes.length, e.grown bytes.length (off + bytes.length))) d := by
  rw [ewrite, if_neg (takes_iff.mpr takes)]
  change (begin fat e >>= _) d = _
  cases begun : begin fat e d with
  | error stop => rw [Machine.bind_of_error begun, Machine.bind_of_error begun]
  | ok r =>
    obtain ⟨e₀, d₀⟩ := r
    rw [Machine.bind_of_ok begun, Machine.bind_of_ok begun]
    have whole := @ewriteFrom_eq fat d₀ e₀ off bytes (bytes.length + 1) 0 (by
      have := takes.2.1
      omega) (by omega) (by omega)
    rw [Nat.sub_zero, List.drop_zero] at whole
    refine (Machine.bind_congr_run whole).trans ?_
    rw [bind_assoc]
    rfl

theorem begin_ends : Leaves (begin fat e) d fun r _ =>
    r.first_clus ≠ 0 ∧ r.file_size = e.file_size ∧ r.attr = e.attr ∧ r.filename = e.filename := by
  rw [begin]
  apply Machine.Ends.ite
  · intro _
    apply Machine.Ends.bind alloc_clus_ends
    rintro c t ⟨range, -⟩
    have low := range.1
    exact Machine.Ends.pure ⟨Nat.ne_of_gt (by omega : 0 < c), rfl, rfl, rfl⟩
  · exact fun some => Machine.Ends.pure ⟨some, rfl, rfl, rfl⟩

/-- The size that a write leaves, as new fields of the entry. -/
theorem grown_eq (e : Dirent) (n off : Nat) : ∃ size dirty, e.grown n off = e.resize size dirty ∧
    (size = if 0 < n ∧ e.file_size < off then off else e.file_size) ∧
    dirty = if 0 < n ∧ e.file_size < off then true else e.dirty := by
  by_cases grows : 0 < n ∧ e.file_size < off
  · exact ⟨off, true, if_pos grows, (if_pos grows).symm, (if_pos grows).symm⟩
  · exact ⟨e.file_size, e.dirty, if_neg grows, (if_neg grows).symm, (if_neg grows).symm⟩

/-- Growing by two parts is growing by both. -/
theorem grown_append {n m size : Nat} {dirty : Bool} (start : off ≤ e.file_size)
    (first : size = if 0 < n ∧ e.file_size < off + n then off + n else e.file_size)
    (marked : dirty = if 0 < n ∧ e.file_size < off + n then true else e.dirty) :
    (e.resize size dirty).grown m (off + n + m) = e.grown (n + m) (off + (n + m)) := by
  rw [Nat.add_assoc]
  rcases Nat.eq_zero_or_pos m with rfl | pos
  · have same : e.grown n (off + n) = e.resize size dirty := by
      rw [first, marked, Dirent.grown]
      split <;> rfl
    rw [Nat.add_zero, same, Dirent.grown, if_neg (by omega)]
  · by_cases grows : e.file_size < off + (n + m)
    · have behind : size < off + (n + m) := by
        rw [first]
        split <;> omega
      rw [Dirent.grown, Dirent.grown, if_pos ⟨pos, behind⟩, if_pos ⟨by omega, grows⟩]
      rfl
    · have inside : ¬(0 < n ∧ e.file_size < off + n) := by omega
      rw [if_neg inside] at first marked
      rw [first, marked]
      exact (if_neg (by intro more; exact grows more.2)).trans (if_neg fun more => grows more.2).symm

/-- What a write that is taken leaves. -/
theorem ewrite_after (takes : Takes e off bytes.length) :
    Leaves (ewrite fat e (.ofBytes bytes) off bytes.length) d fun r _ => r.1 = lowInt bytes.length ∧
      r.2.filename = e.filename ∧ r.2.attr = e.attr ∧ r.2.first_clus ≠ 0 ∧
      off + bytes.length ≤ r.2.file_size := by
  have start := takes.1
  unfold Leaves
  rw [Machine.Ends, ewrite_eq takes]
  apply Machine.Ends.bind begin_ends
  rintro e₀ t ⟨some, size₀, attr₀, name₀⟩
  apply Machine.Ends.bind putBytes_same
  rintro e₁ u ⟨cur_clus, clus_cnt, rfl⟩
  obtain ⟨size, dirty, grown, eq, -⟩ := grown_eq { e₀ with cur_clus, clus_cnt } bytes.length (off + bytes.length)
  rw [grown]
  refine Machine.Ends.pure ⟨rfl, name₀, attr₀, some, ?_⟩
  change size = if 0 < bytes.length ∧ e₀.file_size < off + bytes.length then _ else e₀.file_size at eq
  change off + bytes.length ≤ size
  rw [eq]
  split <;> omega

/-- What the loop of a write leaves: the offset has moved by what counts as written. -/
theorem ewriteFrom_file (data : Source) {n limit tot : Nat} (small : off + (n - tot) < 2 ^ 32) (begun : tot ≤ n) :
    Leaves (ewriteFrom fat data n limit e tot off) d fun r _ =>
      SameFile e r.2.2 ∧ tot ≤ r.1 ∧ r.1 ≤ n ∧ r.2.1 + tot = off + r.1 := by
  induction limit generalizing d e tot off with
  | zero => exact Machine.Ends.halt trivial
  | succ limit ih =>
    rw [ewriteFrom]
    apply Machine.Ends.ite
    · intro more
      apply Machine.Ends.bind (reloc_clus_count off)
      rintro ⟨_, e'⟩ t ⟨same, -⟩
      apply Machine.Ends.bind (leaves_any _ t)
      intro r u _
      apply Machine.Ends.ite
      · exact fun _ => Machine.Ends.pure ⟨same, Nat.le_refl tot, begun, rfl⟩
      · intro _
        obtain ⟨m, eq, le⟩ : ∃ m, min (fat.byts_per_clus - off % fat.byts_per_clus) (n - tot) = m ∧ m ≤ n - tot :=
          ⟨_, rfl, Nat.min_le_right _ _⟩
        have next : u32 (off + m) = off + m := Nat.mod_eq_of_lt (by omega)
        rw [eq, next]
        refine (@ih u e' (off + m) (tot + m) (by omega) (by omega)).mono ?_
        rintro ⟨tot', off', e''⟩ _ ⟨same', low, high, stop⟩
        dsimp only at low high stop
        exact ⟨same.trans same', by omega, high, by dsimp only; omega⟩
    · exact fun _ => Machine.Ends.pure ⟨.refl e, Nat.le_refl tot, begun, rfl⟩

/-- What any write leaves of the entry, wherever it ends. -/
theorem ewrite_keeps (data : Source) {n : Nat} (count : n < 2 ^ 31) :
    Leaves (ewrite fat e data off n) d fun r _ => r.2.filename = e.filename ∧ r.2.attr = e.attr ∧
      (e.first_clus ≠ 0 → r.2.first_clus ≠ 0) ∧ e.file_size ≤ r.2.file_size ∧
      (r.1 = n → off + n ≤ r.2.file_size) := by
  by_cases takes : Takes e off n
  · rw [ewrite, if_neg (takes_iff.mpr takes)]
    obtain ⟨start, small, -⟩ := takes
    change Leaves (begin fat e >>= _) d _
    apply Machine.Ends.bind begin_ends
    rintro e₀ t ⟨some, size₀, attr₀, name₀⟩
    apply Machine.Ends.bind (ewriteFrom_file data (show off + (n - 0) < 2 ^ 32 by omega) (Nat.zero_le n))
    rintro ⟨tot, stop, e₁⟩ u ⟨⟨cur_clus, clus_cnt, rfl⟩, -, le, moved⟩
    dsimp only at le moved
    have value : lowInt tot = tot := by
      rw [lowInt, u32, Nat.mod_eq_of_lt (by omega), if_pos (by omega)]
    refine Machine.Ends.pure ?_
    dsimp only
    rw [value]
    split
    · next grows => exact ⟨name₀, attr₀, fun _ => some, size₀.ge.trans grows.2.le, fun all => by dsimp only; omega⟩
    · next stays => exact ⟨name₀, attr₀, fun _ => some, size₀.ge, fun all => by dsimp only at stays ⊢; omega⟩
  · rw [ewrite_refused takes]
    exact Machine.Ends.pure ⟨rfl, rfl, id, Nat.le_refl _, fun all => by dsimp only at all; omega⟩

/-- What a file takes behind what it has taken. -/
theorem takes_next {v : Int} {n : Nat} (takes : Takes e off bytes.length)
    (run : ewrite fat e (.ofBytes bytes) off bytes.length d = .ok ((v, e'), d')) :
    Takes e' (off + bytes.length) n ↔ Takes e off (bytes.length + n) := by
  obtain ⟨-, -, attr, -, size⟩ := (ewrite_after takes).ok run
  obtain ⟨start, -, writable⟩ := takes
  dsimp only at attr size
  rw [Takes, Takes, attr, Nat.add_assoc]
  constructor
  · exact fun ⟨_, small, _⟩ => ⟨start, small, writable⟩
  · exact fun ⟨_, small, _⟩ => ⟨size, small, writable⟩

/-- A write of nothing to a file that has a cluster changes nothing. -/
theorem ewrite_nil (takes : Takes e off 0) (some : e.first_clus ≠ 0) :
    ewrite fat e (.ofBytes []) off 0 d = .ok ((0, e), d) := by
  have none : begin fat e = pure e := if_neg some
  have whole : ewrite fat e (.ofBytes []) off ([] : List UInt8).length d = _ := ewrite_eq takes
  rw [List.length_nil, none] at whole
  rw [whole]
  rfl

/-- Two writes, the second behind the first, are one write of both. -/
theorem ewrite_append {rest : List UInt8} (takes : Takes e off (bytes.length + rest.length)) :
    ewrite fat e (.ofBytes (bytes ++ rest)) off (bytes.length + rest.length) d = (do
      let (_, e) ← ewrite fat e (.ofBytes bytes) off bytes.length
      let (_, e) ← ewrite fat e (.ofBytes rest) (off + bytes.length) rest.length
      return (lowInt (bytes.length + rest.length), e)) d := by
  obtain ⟨start, small, writable⟩ := takes
  have whole := @ewrite_eq fat d e off (bytes ++ rest)
  rw [List.length_append] at whole
  rw [whole ⟨start, small, writable⟩]
  refine Eq.trans ?_ (Machine.bind_congr_run (ewrite_eq ⟨start, by omega, writable⟩)).symm
  rw [bind_assoc]
  cases begun : begin fat e d with
  | error stop => rw [Machine.bind_of_error begun, Machine.bind_of_error begun]
  | ok r =>
    obtain ⟨e₀, d₀⟩ := r
    obtain ⟨some, size₀, attr₀, -⟩ := begin_ends.ok begun
    rw [Machine.bind_of_ok begun, Machine.bind_of_ok begun, putBytes_append, bind_assoc, bind_assoc]
    cases first : putBytes fat bytes e₀ off d₀ with
    | error stop => rw [Machine.bind_of_error first, Machine.bind_of_error first]
    | ok r =>
      obtain ⟨e₁, d₁⟩ := r
      obtain ⟨size₁, -, attr₁, first₁⟩ := (putBytes_same.ok first).fields
      rw [Machine.bind_of_ok first, Machine.bind_of_ok first, pure_bind]
      obtain ⟨size, dirty, grown, eq, marked⟩ := grown_eq e₁ bytes.length (off + bytes.length)
      have start₁ : off ≤ e₁.file_size := by omega
      have taken : Takes (e₁.resize size dirty) (off + bytes.length) rest.length := by
        refine ⟨?_, by omega, ?_⟩
        · show off + bytes.length ≤ size
          rw [eq]
          split <;> omega
        · show e₁.attr &&& ATTR_READ_ONLY = 0
          rw [attr₁, attr₀, writable]
      have again : begin fat (e₁.resize size dirty) = pure (e₁.resize size dirty) :=
        if_neg (by rw [Dirent.resize, first₁]; exact some)
      dsimp only
      rw [grown]
      refine Eq.trans ?_ (Machine.bind_congr_run (ewrite_eq taken)).symm
      rw [again, pure_bind, putBytes_resize, bind_assoc, bind_assoc]
      cases second : putBytes fat rest e₁ (off + bytes.length) d₁ with
      | error stop => rw [Machine.bind_of_error second, Machine.bind_of_error second]
      | ok r =>
        obtain ⟨e₂, d₂⟩ := r
        obtain ⟨cur_clus, clus_cnt, rfl⟩ := putBytes_same.ok second
        rw [Machine.bind_of_ok second, Machine.bind_of_ok second, pure_bind, pure_bind]
        have same : (Dirent.resize { e₁ with cur_clus, clus_cnt } size dirty).grown rest.length
            (off + bytes.length + rest.length) = _ := grown_append start₁ eq marked
        dsimp only
        rw [same]

/-! ### Sources that agree -/

theorem rw_clus_write_congr {data data' : Source} {n : Nat}
    (same : ∀ k m, k + m ≤ n → data.copy k m = data'.copy k m) (c off : Nat) :
    rw_clus_write fat c data off n = rw_clus_write fat c data' off n := by
  rw [rw_clus_write, rw_clus_write]
  congr 2
  funext sec
  refine transfer_congr fun round mem => ?_
  obtain ⟨a, tot, m⟩ := round
  have le := rounds_within mem
  dsimp only at le ⊢
  rw [same tot m le]

theorem ewriteFrom_congr {data data' : Source} {n limit : Nat}
    (same : ∀ k m, k + m ≤ n → data.copy k m = data'.copy k m) (e : Dirent) (tot off : Nat) :
    ewriteFrom fat data n limit e tot off = ewriteFrom fat data' n limit e tot off := by
  induction limit generalizing e tot off with
  | zero => rfl
  | succ limit ih =>
    rw [ewriteFrom, ewriteFrom]
    split
    · next more =>
      have part : ∀ k m, k + m ≤ min (fat.byts_per_clus - off % fat.byts_per_clus) (n - tot) →
          (data.from tot).copy k m = (data'.from tot).copy k m := fun k m le => same _ _ (by omega)
      simp only [rw_clus_write_congr part, ih]
    · rfl

/-- Of the source a write takes no more than its count. -/
theorem ewrite_congr {data data' : Source} {n : Nat}
    (same : ∀ k m, k + m ≤ n → data.copy k m = data'.copy k m) (e : Dirent) (off : Nat) :
    ewrite fat e data off n = ewrite fat e data' off n := by
  rw [ewrite, ewrite]
  simp only [ewriteFrom_congr same]

end AvxKernel.Fat
