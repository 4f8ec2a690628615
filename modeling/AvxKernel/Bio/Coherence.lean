import AvxKernel.Bio.Invariant
import Mathlib.Data.List.FinRange

/-! What `bread` returns. A buffer that nobody has changed since its last
transfer agrees with the disk, and a changed one stays locked until it is
written. The disk itself is keyed by the sector number alone, so this needs
every user of a sector to name it by one device. -/
namespace AvxKernel.Bio

variable {n : Nat} {s s' : Sys n} {e : Event n} {dev sectorno : Nat} {disk : Nat → Block}

/-- What the last `bwrite` to a block left there. -/
def lastWrite (disk : Nat → Block) (writes : List (Use × Block)) (dev sectorno : Nat) : Block :=
  match writes.find? (fun w => decide (w.1.dev = dev ∧ w.1.sectorno = sectorno)) with
  | some w => w.2
  | none => disk sectorno

/-- Nobody gives up the buffer of a block with changes that `bwrite` has not seen. -/
def WritesBack (dev sectorno : Nat) : Sys n → List (Event n) → Prop
  | _, [] => True
  | s, e :: rest =>
    (∀ p b, e = .unlock p b → (s.cache.buf b).key = (dev, sectorno) → s.changed b = false) ∧
    ∀ t, step s e = some t → WritesBack dev sectorno t rest

/-- Whoever asks for the sector asks for it on this device. -/
def OneDevice (dev sectorno : Nat) (events : List (Event n)) : Prop :=
  ∀ p d, Event.bget p d sectorno ∈ events → d = dev

structure Coherent (disk : Nat → Block) (dev sectorno : Nat) (s : Sys n) : Prop where
  fresh : ∀ b, (s.cache.buf b).key = (dev, sectorno) → (s.cache.buf b).valid = true →
    s.changed b = false → (s.cache.buf b).data = s.disk sectorno
  pending : ∀ b, (s.cache.buf b).key = (dev, sectorno) → (s.cache.buf b).valid = true →
    s.changed b = true → ∃ p, b ∈ (s.procs p).held.map Use.buf
  device : ∀ p, ∀ u ∈ (s.procs p).uses, u.sectorno = sectorno → u.dev = dev
  written : s.disk sectorno = lastWrite disk s.writes dev sectorno

theorem boot_coherent (disk : Nat → Block) (dev sectorno : Nat) :
    Coherent disk dev sectorno (boot n disk) where
  fresh := by
    intro b _ hvalid
    simp [boot_buf] at hvalid
  pending := by
    intro b _ hvalid
    simp [boot_buf] at hvalid
  device := by
    intro p u hu
    simp [boot, Proc.uses, Pc.uses] at hu
  written := rfl

/-- A locked buffer has a user, who asked for the block it caches. -/
theorem Inv.locked_use (inv : Inv s) {p : Fin n} {b : BufId}
    (holds : (s.cache.buf b).lock = some p) :
    ∃ u ∈ (s.procs p).uses, u.buf = b ∧ (s.cache.buf b).key = (u.dev, u.sectorno) := by
  obtain ⟨u, hu, rfl⟩ := List.mem_map.mp ((inv.owner p b).mp holds)
  have huses : u ∈ (s.procs p).uses := by
    simp only [Proc.locked, List.mem_append] at hu
    rcases hu with hpc | hheld
    · cases hp : (s.procs p).pc <;> simp_all [Pc.locked, Proc.uses, Pc.uses]
    · exact List.mem_append_right _ hheld
  exact ⟨u, huses, rfl, inv.keyed p u huses⟩

/-- The lock that `bread` holds while it examines a buffer excludes every
process that has finished its own `bread` of it. -/
theorem Inv.load_alone (inv : Inv s) {p q : Fin n} {u : Use} (loading : (s.procs p).pc = .load u) :
    u.buf ∉ (s.procs q).held.map Use.buf := by
  intro held
  have mine : (s.cache.buf u.buf).lock = some p :=
    (inv.owner p u.buf).mpr (by simp [Proc.locked, loading, Pc.locked])
  have theirs : (s.cache.buf u.buf).lock = some q := by
    rw [inv.owner q u.buf, Proc.locked, List.map_append]
    exact List.mem_append_right _ held
  have same : p = q := Option.some.inj (mine.symm.trans theirs)
  subst q
  have once := inv.once p
  simp only [Proc.locked, loading, Pc.locked, List.singleton_append, List.map_cons,
    List.nodup_cons] at once
  exact once.1 held

theorem fill_data (b : Buf n) (disk : Nat → Block) :
    (b.fill disk).data = if b.valid then b.data else disk b.sectorno := by
  simp only [Buf.fill]
  split <;> rfl

/-- What a section does to the contents of one buffer. -/
inductive Effect (s : Sys n) (e : Event n) (s' : Sys n) (b : BufId) : Prop where
  | kept (key : (s'.cache.buf b).key = (s.cache.buf b).key)
      (valid : (s'.cache.buf b).valid = (s.cache.buf b).valid)
      (data : (s'.cache.buf b).data = (s.cache.buf b).data)
      (changed : s'.changed b = s.changed b)
      (held : ∀ p, b ∈ (s.procs p).held.map Use.buf →
        b ∈ (s'.procs p).held.map Use.buf ∨ e = .unlock p b)
      (disk : ∀ x, s'.disk x = s.disk x ∨ ∃ p b', b' ≠ b ∧
        (s.cache.buf b').lock = some p ∧ (s.cache.buf b').sectorno = x)
  | recycled (valid : (s'.cache.buf b).valid = false)
  | loaded {p u} (loading : (s.procs p).pc = .load u) (here : u.buf = b)
      (buf : s'.cache.buf b = (s.cache.buf b).fill s.disk)
      (changed : s'.changed b = ((s.cache.buf b).valid && s.changed b))
      (disk : s'.disk = s.disk)
  | changed {p} (idle : (s.procs p).pc = .idle) (holds : (s.cache.buf b).lock = some p)
      (changed : s'.changed b = true) (procs : s'.procs = s.procs)
  | written (buf : s'.cache.buf b = s.cache.buf b) (changed : s'.changed b = false)
      (disk : s'.disk (s.cache.buf b).sectorno = (s.cache.buf b).data)

theorem Section.effect (h : Section s e s') (b : BufId) : Effect s e s' b := by
  cases h with
  | @hit p d x b' idle found =>
    refine .kept ?_ ?_ ?_ rfl (fun q hq => .inl ?_) (fun _ => .inl rfl)
    · by_cases hb : b = b' <;> simp [hb, Buf.key]
    · by_cases hb : b = b' <;> simp [hb]
    · by_cases hb : b = b' <;> simp [hb]
    · by_cases hp : q = p
      · subst q
        simpa using hq
      · simpa [hp] using hq
  | @recycle p d x b' idle missing free =>
    by_cases hb : b = b'
    · exact .recycled (by simp [hb])
    · refine .kept (by simp [hb]) (by simp [hb]) (by simp [hb]) rfl (fun q hq => .inl ?_)
        (fun _ => .inl rfl)
      by_cases hp : q = p
      · subst q
        simpa using hq
      · simpa [hp] using hq
  | @lock p u waiting free =>
    refine .kept ?_ ?_ ?_ rfl (fun q hq => .inl ?_) (fun _ => .inl rfl)
    · by_cases hb : b = u.buf <;> simp [hb, Buf.key]
    · by_cases hb : b = u.buf <;> simp [hb]
    · by_cases hb : b = u.buf <;> simp [hb]
    · by_cases hp : q = p
      · subst q
        simpa using hq
      · simpa [hp] using hq
  | @load p u loading =>
    by_cases hb : b = u.buf
    · subst b
      refine .loaded loading rfl (by simp) ?_ rfl
      simp [Sys.setProc, Sys.setBuf, Sys.setChanged]
    · refine .kept (by simp [hb]) (by simp [hb]) (by simp [hb]) ?_ (fun q hq => .inl ?_)
        (fun _ => .inl rfl)
      · simp [Sys.setProc, Sys.setBuf, Sys.setChanged, hb]
      · by_cases hp : q = p
        · subst q
          simpa [hb] using hq
        · simpa [hp] using hq
  | @change p b' data idle holds =>
    by_cases hb : b = b'
    · subst b'
      exact .changed idle holds (by simp [Sys.setBuf, Sys.setChanged]) rfl
    · refine .kept (by simp [hb]) (by simp [hb]) (by simp [hb]) ?_ (fun q hq => .inl hq)
        (fun _ => .inl rfl)
      simp [Sys.setBuf, Sys.setChanged, hb]
  | @bwrite p b' holds =>
    by_cases hb : b = b'
    · subst b'
      exact .written rfl (by simp [Sys.setChanged]) (by simp)
    · refine .kept rfl rfl rfl (by simp [Sys.setChanged, hb]) (fun q hq => .inl hq) (fun x => ?_)
      by_cases hx : x = (s.cache.buf b').sectorno
      · exact .inr ⟨p, b', Ne.symm hb, holds, hx.symm⟩
      · exact .inl (by simp [hx])
  | @unlock p u idle holds =>
    refine .kept ?_ ?_ ?_ rfl (fun q hq => ?_) (fun _ => .inl rfl)
    · by_cases hb : b = u.buf <;> simp [hb, Buf.key]
    · by_cases hb : b = u.buf <;> simp [hb]
    · by_cases hb : b = u.buf <;> simp [hb]
    · by_cases hp : q = p
      · subst q
        by_cases hb : b = u.buf
        · exact .inr (by rw [hb])
        · obtain ⟨v, hv, rfl⟩ := List.mem_map.mp hq
          have hne : v ≠ u := by
            rintro rfl
            exact hb rfl
          left
          simp only [setProc_procs, if_true]
          exact List.mem_map_of_mem ((List.mem_erase_of_ne hne).mpr hv)
      · exact .inl (by simpa [hp] using hq)
  | @release p u dropping =>
    refine .kept ?_ ?_ ?_ rfl (fun q hq => .inl ?_) (fun _ => .inl rfl)
    · by_cases hb : b = u.buf <;> simp [hb, Buf.key, brelse_buf]
    · by_cases hb : b = u.buf <;> simp [hb, brelse_buf]
    · by_cases hb : b = u.buf <;> simp [hb, brelse_buf]
    · by_cases hp : q = p
      · subst q
        simpa using hq
      · simpa [hp] using hq

/-! ### Coherence is preserved -/

section Step

variable (h : Coherent disk dev sectorno s) (inv : Inv s)

include h inv in
/-- What a `bread` of the block returns in a coherent state. -/
theorem Coherent.bread {p : Fin n} {u : Use} (loading : (s.procs p).pc = .load u)
    (asked : (u.dev, u.sectorno) = (dev, sectorno)) :
    ((s.cache.buf u.buf).fill s.disk).data = s.disk sectorno := by
  have huses : u ∈ (s.procs p).uses := by simp [Proc.uses, loading, Pc.uses]
  have hkey : (s.cache.buf u.buf).key = (dev, sectorno) := (inv.keyed p u huses).trans asked
  rw [fill_data]
  split
  · rename_i hvalid
    cases hchanged : s.changed u.buf with
    | false => exact h.fresh _ hkey hvalid hchanged
    | true =>
      obtain ⟨q, hq⟩ := h.pending _ hkey hvalid hchanged
      exact absurd hq (inv.load_alone loading)
  · simp only [Buf.key, Prod.mk.injEq] at hkey
    rw [hkey.2]

include h inv in
/-- The device under which a sector is written is the one it is known by. -/
theorem Coherent.write_key {p : Fin n} {b : BufId} (holds : (s.cache.buf b).lock = some p)
    (hsec : (s.cache.buf b).sectorno = sectorno) : (s.cache.buf b).key = (dev, sectorno) := by
  obtain ⟨u, hu, rfl, hkey⟩ := inv.locked_use holds
  have hkey' := hkey
  simp only [Buf.key, Prod.mk.injEq] at hkey'
  have hsec' : u.sectorno = sectorno := hkey'.2.symm.trans hsec
  rw [hkey, h.device p u hu hsec', hsec']

variable (hs : Section s e s')

include h hs in
theorem Coherent.step_device (one : ∀ p d, e = .bget p d sectorno → d = dev) (p : Fin n) :
    ∀ u ∈ (s'.procs p).uses, u.sectorno = sectorno → u.dev = dev := by
  intro u hu hsec
  rcases hs.uses p u hu with old | ⟨asked, _⟩
  · exact h.device p u old hsec
  · exact one p u.dev (by rw [asked, hsec])

include h inv hs

theorem Coherent.step_written : s'.disk sectorno = lastWrite disk s'.writes dev sectorno := by
  have old := h.written
  cases hs with
  | hit | recycle | lock | load | change | unlock | release => exact old
  | @bwrite p b holds =>
    by_cases hsec : (s.cache.buf b).sectorno = sectorno
    · have hkey := h.write_key inv holds hsec
      simp only [Buf.key, Prod.mk.injEq] at hkey
      simp [lastWrite, hkey.1, hkey.2]
    · have hmiss : ¬((s.cache.buf b).dev = dev ∧ (s.cache.buf b).sectorno = sectorno) :=
        fun hk => hsec hk.2
      simp only [lastWrite, List.find?_cons, hmiss, decide_false]
      rw [Function.update_of_ne (Ne.symm hsec)]
      exact old

theorem Coherent.step_fresh (real : Real (dev, sectorno)) (b : BufId)
    (hkey : (s'.cache.buf b).key = (dev, sectorno)) (hvalid : (s'.cache.buf b).valid = true)
    (hclean : s'.changed b = false) : (s'.cache.buf b).data = s'.disk sectorno := by
  cases hs.effect b with
  | kept key valid data changed held disk =>
    rw [key] at hkey
    rw [data, h.fresh b hkey (valid ▸ hvalid) (changed ▸ hclean)]
    rcases disk sectorno with same | ⟨p, b', hne, holds, hsec⟩
    · exact same.symm
    -- a transfer from another buffer would be one of the same block
    · have hkey' := h.write_key inv holds hsec
      exact absurd (inv.unique b' b (hkey' ▸ real) (hkey'.trans hkey.symm)) hne
  | recycled valid => simp [valid] at hvalid
  | @loaded p u loading here buf changed hdisk =>
    subst b
    rw [buf, fill_key, inv.keyed p u (by simp [Proc.uses, loading, Pc.uses])] at hkey
    rw [buf, hdisk]
    exact h.bread inv loading hkey
  | changed idle holds changed procs => simp [changed] at hclean
  | written buf changed hdisk =>
    rw [buf] at hkey ⊢
    simp only [Buf.key, Prod.mk.injEq] at hkey
    rw [← hdisk, hkey.2]

theorem Coherent.step_pending
    (back : ∀ p b, e = .unlock p b → (s.cache.buf b).key = (dev, sectorno) → s.changed b = false)
    (b : BufId) (hkey : (s'.cache.buf b).key = (dev, sectorno))
    (hvalid : (s'.cache.buf b).valid = true) (hdirty : s'.changed b = true) :
    ∃ p, b ∈ (s'.procs p).held.map Use.buf := by
  cases hs.effect b with
  | kept key valid data changed held disk =>
    rw [key] at hkey
    obtain ⟨p, hp⟩ := h.pending b hkey (valid ▸ hvalid) (changed ▸ hdirty)
    rcases held p hp with keeps | unlocks
    · exact ⟨p, keeps⟩
    · rw [changed, back p b unlocks hkey] at hdirty
      cases hdirty
  | recycled valid => simp [valid] at hvalid
  | @loaded p u loading here buf changed hdisk =>
    subst b
    rw [buf, fill_key] at hkey
    rw [changed, Bool.and_eq_true] at hdirty
    obtain ⟨q, hq⟩ := h.pending u.buf hkey hdirty.1 hdirty.2
    exact absurd hq (inv.load_alone loading)
  | @changed p idle holds changed procs =>
    refine ⟨p, ?_⟩
    have := (inv.owner p b).mp holds
    simpa [procs, Proc.locked, idle, Pc.locked] using this
  | written buf changed hdisk => simp [changed] at hdirty

theorem Coherent.step (real : Real (dev, sectorno))
    (back : ∀ p b, e = .unlock p b → (s.cache.buf b).key = (dev, sectorno) → s.changed b = false)
    (one : ∀ p d, e = .bget p d sectorno → d = dev) : Coherent disk dev sectorno s' where
  fresh := h.step_fresh inv hs real
  pending := h.step_pending inv hs back
  device := h.step_device hs one
  written := h.step_written inv hs

end Step

theorem Coherent.run {events : List (Event n)} (h : Coherent disk dev sectorno s) (inv : Inv s)
    (real : Real (dev, sectorno)) (back : WritesBack dev sectorno s events)
    (one : OneDevice dev sectorno events) (hr : run s events = some s') :
    Coherent disk dev sectorno s' := by
  induction events generalizing s with
  | nil =>
    cases hr
    exact h
  | cons e rest ih =>
    obtain ⟨t, hstep, hrun⟩ := run_cons hr
    obtain ⟨now, later⟩ := back
    have hs := step_section hstep
    refine ih (h.step inv hs real now ?_) (inv.step hs) (later t hstep) ?_ hrun
    · exact fun p d he => one p d (he ▸ List.mem_cons_self)
    · exact fun p d hm => one p d (List.mem_cons_of_mem _ hm)

/-- Over any run from `binit`: one buffer for each real block, every buffer on
the ring once, no referenced buffer given to another block, and, for a sector
that is used under one device and written back by its holders, `bread` returns
what the last `bwrite` of it left. -/
theorem bcache_run {events : List (Event n)} (h : run (boot n disk) events = some s) :
    (∀ b b', Real (s.cache.buf b).key → (s.cache.buf b).key = (s.cache.buf b').key → b = b') ∧
    (∃ order : List BufId, s.cache.links.Ring none (order.map some) ∧ ∀ b, order.count b = 1) ∧
    (∀ e s', step s e = some s' → ∀ b, 0 < (s.cache.buf b).refcnt →
      (s'.cache.buf b).key = (s.cache.buf b).key) ∧
    (∀ p, ∀ u ∈ (s.procs p).uses, 0 < (s.cache.buf u.buf).refcnt) ∧
    ∀ dev sectorno, Real (dev, sectorno) → WritesBack dev sectorno (boot n disk) events →
      OneDevice dev sectorno events → ∀ p u s', (s.procs p).pc = .load u →
        (u.dev, u.sectorno) = (dev, sectorno) → step s (.load p) = some s' →
          (s'.cache.buf u.buf).key = (dev, sectorno) ∧
          (s'.cache.buf u.buf).data = lastWrite disk s.writes dev sectorno := by
  have inv : Inv s := (boot_inv disk).run h
  refine ⟨inv.unique, ?_, ?_, fun p u hu => inv.referenced hu, ?_⟩
  · obtain ⟨order, hring, hall⟩ := inv.ring
    exact ⟨order, hring, fun b => List.count_eq_one_of_mem hring.order_nodup (hall b)⟩
  · intro e s' hstep b used
    rcases (step_section hstep).key inv with keep | ⟨b', key, keys, free, _⟩
    · exact keep b
    · rw [keys, if_neg]
      rintro rfl
      omega
  · intro dev sectorno real back one p u s' loading asked hstep
    have coherent := (boot_coherent disk dev sectorno).run (boot_inv disk) real back one h
    have huses : u ∈ (s.procs p).uses := by simp [Proc.uses, loading, Pc.uses]
    simp only [step, loading, Option.some.injEq] at hstep
    subst s'
    simp only [setProc_cache, sys_setBuf_cache, setBuf_buf, if_true, fill_key]
    exact ⟨(inv.keyed p u huses).trans asked,
      (coherent.bread inv loading asked).trans coherent.written⟩

theorem step_load {p : Fin n} {u : Use} (loading : (s.procs p).pc = .load u) :
    step s (.load p) =
      some (((s.setChanged u.buf ((s.cache.buf u.buf).valid && s.changed u.buf)).setBuf u.buf
        ((s.cache.buf u.buf).fill s.disk)).setProc p
          { pc := .idle, held := u :: (s.procs p).held }) := by
  simp only [step, loading]

/-! ### Two devices -/

theorem bget_hit {c : Bcache n} (front : List BufId) {rest : List BufId} {b : BufId}
    (ring : c.links.Ring none ((front ++ b :: rest).map some))
    (key : (c.buf b).key = (dev, sectorno)) (first : ∀ x ∈ front, (c.buf x).key ≠ (dev, sectorno)) :
    c.bget dev sectorno = some (b, c.setBuf b { c.buf b with refcnt := (c.buf b).refcnt + 1 }) := by
  simp only [Buf.key, ne_eq, Prod.mk.injEq] at key first
  have found : (c.links.fromHead NBUF).find? (fun b =>
      decide ((c.buf b).dev = dev ∧ (c.buf b).sectorno = sectorno)) = some b := by
    rw [ring.fromHead_eq (order_length ring), List.find?_eq_some_iff_append]
    exact ⟨by simpa using key, front, rest, rfl, fun x hx => by simpa [imp_iff_not_or] using first x hx⟩
  simp only [Bcache.bget, found]

theorem bget_recycle {c : Bcache n} (front busy : List BufId) {b : BufId}
    (ring : c.links.Ring none ((front ++ b :: busy).map some))
    (missing : ∀ x, (c.buf x).key ≠ (dev, sectorno)) (free : (c.buf b).refcnt = 0)
    (used : ∀ x ∈ busy, (c.buf x).refcnt ≠ 0) :
    c.bget dev sectorno =
      some (b, c.setBuf b { c.buf b with dev, sectorno, valid := false, refcnt := 1 }) := by
  simp only [Buf.key, ne_eq, Prod.mk.injEq] at missing
  have lost : (c.links.fromHead NBUF).find? (fun b =>
      decide ((c.buf b).dev = dev ∧ (c.buf b).sectorno = sectorno)) = none := by
    rw [List.find?_eq_none]
    exact fun x _ => by simpa using missing x
  have found : (c.links.fromTail NBUF).find? (fun b => decide ((c.buf b).refcnt = 0)) = some b := by
    rw [ring.fromTail_eq (order_length ring), List.find?_eq_some_iff_append]
    refine ⟨by simpa using free, busy.reverse, front.reverse, by simp, fun x hx => ?_⟩
    simpa using used x (List.mem_reverse.mp hx)
  simp only [Bcache.bget, lost, found]

theorem run_append {t : Sys n} {front rest : List (Event n)} (now : run s front = some t)
    (later : run t rest = some s') : run s (front ++ rest) = some s' := by
  induction front generalizing s with
  | nil =>
    cases now
    exact later
  | cons e front ih =>
    obtain ⟨u, hstep, hrun⟩ := run_cons now
    simp only [List.cons_append, run, hstep, Option.bind_some, ih hrun]

theorem writesBack_append {t : Sys n} {front rest : List (Event n)} (now : run s front = some t)
    (calm : ∀ p b, .unlock p b ∉ front) (later : WritesBack dev sectorno t rest) :
    WritesBack dev sectorno s (front ++ rest) := by
  induction front generalizing s with
  | nil =>
    cases now
    exact later
  | cons e front ih =>
    obtain ⟨u, hstep, hrun⟩ := run_cons now
    refine ⟨fun p b he => absurd (he ▸ List.mem_cons_self) (calm p b), fun v hv => ?_⟩
    cases hstep.symm.trans hv
    exact ih hrun fun p b hm => calm p b (List.mem_cons_of_mem _ hm)

theorem writesBack_unlock {t : Sys n} {p : Fin n} {b : BufId} {rest : List (Event n)}
    (now : run s (.unlock p b :: rest) = some t) (calm : ∀ p b, .unlock p b ∉ rest)
    (clean : s.changed b = false) : WritesBack dev sectorno s (.unlock p b :: rest) := by
  obtain ⟨u, hstep, hrun⟩ := run_cons now
  refine ⟨?_, fun v hv => ?_⟩
  · rintro q b' ⟨rfl, rfl⟩ _
    exact clean
  · cases hstep.symm.trans hv
    have h : WritesBack dev sectorno u (rest ++ []) := writesBack_append hrun calm trivial
    rwa [List.append_nil] at h

theorem finRange_front {m : Nat} (h₀ : 0 < m) (h₁ : 1 < m) :
    ∃ rest, List.finRange m = ⟨0, h₀⟩ :: ⟨1, h₁⟩ :: rest := by
  obtain ⟨k, rfl⟩ : ∃ k, m = k + 2 := ⟨m - 2, by omega⟩
  exact ⟨(List.finRange k).map (Fin.succ ∘ Fin.succ), by
    rw [List.finRange_succ, List.finRange_succ, List.map_cons, List.map_map]
    rfl⟩

/-- The buffers that `bget` recycles first. -/
theorem binit_tail (c : Bcache n) :
    ∃ late : List BufId, (binit c).links.Ring none ((late ++ [1, 0]).map some) := by
  obtain ⟨rest, hrest⟩ := finRange_front (m := NBUF) (by decide) (by decide)
  have ring := binit_ring c
  rw [hrest, List.reverse_cons, List.reverse_cons, List.append_assoc] at ring
  exact ⟨rest.reverse, ring⟩

/-- The first `bread` after boot, of sector 5 on device 0, and a `bwrite` of it. -/
theorem first_use (s : Sys 1) (A : Block) (late : List BufId)
    (ring : s.cache.links.Ring none ((late ++ [1, 0]).map some))
    (buf : ∀ b, s.cache.buf b = ⟨false, noBlock, noBlock, none, 0, fun _ => 0⟩)
    (procs : s.procs 0 = ⟨.idle, []⟩) :
    ∃ t, run s [.bget 0 0 5, .lock 0, .load 0, .change 0 0 A, .bwrite 0 0] = some t ∧
      t.cache.links = s.cache.links ∧
      t.cache.buf = Function.update s.cache.buf 0 ⟨true, 0, 5, some 0, 1, A⟩ ∧
      t.procs 0 = ⟨.idle, [⟨0, 0, 5⟩]⟩ ∧ t.writes = (⟨0, 0, 5⟩, A) :: s.writes ∧
      t.disk 5 = A ∧ t.changed 0 = false := by
  have got : s.cache.bget 0 5 = _ := bget_recycle (late ++ [1]) [] (by simpa using ring)
    (by simp [buf, Buf.key, noBlock]) (by simp [buf]) (by simp)
  refine ⟨_, by simp [run, step, procs, got, buf, Buf.fill, Sys.setProc, Sys.setBuf,
    Sys.setChanged, Bcache.setBuf]; rfl, ?_⟩
  simp

/-- A second use of the sector, on device 1, while the first holder writes it again. -/
theorem second_use (s : Sys 1) (A B : Block) (late : List BufId)
    (ring : s.cache.links.Ring none ((late ++ [1, 0]).map some))
    (buf₀ : s.cache.buf 0 = ⟨true, 0, 5, some 0, 1, A⟩)
    (buf : ∀ b, b ≠ 0 → s.cache.buf b = ⟨false, noBlock, noBlock, none, 0, fun _ => 0⟩)
    (procs : s.procs 0 = ⟨.idle, [⟨0, 0, 5⟩]⟩) (disk : s.disk 5 = A) :
    ∃ t, run s [.bget 0 1 5, .lock 0, .load 0, .change 0 0 B, .bwrite 0 0] = some t ∧
      t.cache.links = s.cache.links ∧
      t.cache.buf 1 = ⟨true, 1, 5, some 0, 1, A⟩ ∧
      t.procs 0 = ⟨.idle, [⟨1, 1, 5⟩, ⟨0, 0, 5⟩]⟩ ∧ t.writes = (⟨0, 0, 5⟩, B) :: s.writes ∧
      t.changed 1 = false := by
  have missing : ∀ x, (s.cache.buf x).key ≠ (1, 5) := by
    intro x
    by_cases hx : x = 0
    · simp [hx, buf₀, Buf.key]
    · simp [buf x hx, Buf.key, noBlock]
  have one : (1 : BufId) ≠ 0 := by decide
  have got := bget_recycle late [0] ring missing
    (by simp [buf 1 one]) (by simp [buf₀])
  refine ⟨_, by simp [run, step, procs, got, buf₀, buf 1 one, Buf.fill, Sys.setProc, Sys.setBuf,
    Sys.setChanged, Bcache.setBuf, Ne.symm one]; rfl, ?_⟩
  simp [one, disk]

/-- A holder gives its buffer back and asks for the block again. -/
theorem reread {p : Fin n} {b : BufId} {data : Block} {held : List Use} {order : List BufId}
    (ring : s.cache.links.Ring none (order.map some)) (member : b ∈ order)
    (buf : s.cache.buf b = ⟨true, dev, sectorno, some p, 1, data⟩)
    (procs : s.procs p = ⟨.idle, ⟨b, dev, sectorno⟩ :: held⟩) :
    ∃ t, run s [.unlock p b, .release p, .bget p dev sectorno, .lock p] = some t ∧
      t.cache.buf b = ⟨true, dev, sectorno, some p, 1, data⟩ ∧
      t.procs p = ⟨.load ⟨b, dev, sectorno⟩, held⟩ ∧ t.writes = s.writes := by
  let given := s.cache.setBuf b { s.cache.buf b with lock := none }
  have moved : (given.brelse b).links.Ring none ((b :: order.erase b).map some) := by
    have h := ring.moveToFront_order member
    simpa [given, Bcache.brelse, buf] using h
  have got : (given.brelse b).bget dev sectorno = _ := bget_hit [] moved
    (by simp [given, brelse_buf, buf, Buf.key]) (by simp)
  simp only [given, brelse_buf, setBuf_buf, if_true, buf] at got
  refine ⟨_, by simp [run, step, procs, got, buf]; rfl, ?_⟩
  simp [Sys.setProc, Sys.setBuf]


/-- One process writes sector 5 on device 0, gives the buffer back and reads
the sector again. -/
theorem bcache_run_reread :
    ∃ (events : List (Event 1)) (t t' : Sys 1), run (boot 1 fun _ _ => 0) events = some t ∧
      step t (.load 0) = some t' ∧ (t'.cache.buf 0).key = (0, 5) ∧
        (t'.cache.buf 0).data = fun _ => 1 := by
  let A : Block := fun _ => 1
  obtain ⟨late, ring⟩ := binit_tail (bss 1)
  obtain ⟨t₁, run₁, links₁, buf₁, procs₁, writes₁, _, clean₁⟩ :=
    first_use (boot 1 fun _ _ => 0) A late (by simpa only [boot] using ring) (boot_buf _)
      (by simp [boot])
  obtain ⟨t₂, run₂, buf₂, procs₂, writes₂⟩ :=
    reread (by rw [links₁]; simpa only [boot] using ring) (by simp) (congrFun buf₁ 0) procs₁
  have back : WritesBack 0 5 (boot 1 fun _ _ => 0) _ :=
    writesBack_append run₁ (by simp) (writesBack_unlock run₂ (by simp) clean₁)
  have facts := bcache_run (run_append run₁ run₂)
  have read := facts.2.2.2.2 0 5 (by simp [Real, noBlock]) back (by simp [OneDevice]) 0
    ⟨0, 0, 5⟩ _ (by rw [procs₂]) rfl (step_load (by rw [procs₂]))
  refine ⟨_, t₂, _, run_append run₁ run₂, step_load (by rw [procs₂]), read.1, ?_⟩
  exact read.2.trans (by simp [writes₂, writes₁, lastWrite, A])

/-- Sector 5 read as device 1 and written as device 0. The last `bread`, of
device 1, returns neither the disk's own contents, although device 1 was never
written, nor what the last `bwrite` left in the sector. -/
theorem bread_stale_on_second_device :
    ∃ (disk : Nat → Block) (events : List (Event 1)) (t t' : Sys 1) (last : Use × Block),
      run (boot 1 disk) events = some t ∧
      (∀ dev sectorno, WritesBack dev sectorno (boot 1 disk) events) ∧
      (t.procs 0).pc = .load ⟨1, 1, 5⟩ ∧ step t (.load 0) = some t' ∧
      (t'.cache.buf 1).data ≠ lastWrite disk t.writes 1 5 ∧
      t.writes.head? = some last ∧ last.1.sectorno = 5 ∧ (t'.cache.buf 1).data ≠ last.2 := by
  let A : Block := fun _ => 1
  let B : Block := fun _ => 2
  let disk : Nat → Block := fun _ _ => 0
  obtain ⟨late, ring⟩ := binit_tail (bss 1)
  obtain ⟨t₁, run₁, links₁, buf₁, procs₁, writes₁, disk₁, _⟩ :=
    first_use (boot 1 disk) A late (by simpa only [boot] using ring) (boot_buf disk)
      (by simp [boot])
  obtain ⟨t₂, run₂, links₂, buf₂, procs₂, writes₂, clean₂⟩ :=
    second_use t₁ A B late (by rw [links₁]; simpa only [boot] using ring) (by simp [buf₁])
      (fun b hb => by simp [buf₁, hb, boot_buf]) procs₁ disk₁
  obtain ⟨t₃, run₃, buf₃, procs₃, writes₃⟩ :=
    reread (by rw [links₂, links₁]; simpa only [boot] using ring) (by simp) buf₂ procs₂
  have hread : A ≠ disk 5 := fun h => absurd (congrFun h ⟨0, by decide⟩) (by decide)
  have hlast : A ≠ B := fun h => absurd (congrFun h ⟨0, by decide⟩) (by decide)
  refine ⟨disk, _, t₃, _, (⟨0, 0, 5⟩, B), run_append run₁ (run_append run₂ run₃),
    fun dev sectorno => ?_, by rw [procs₃], step_load (by rw [procs₃]), ?_⟩
  · exact writesBack_append run₁ (by simp)
      (writesBack_append run₂ (by simp) (writesBack_unlock run₃ (by simp) clean₂))
  · simp only [setProc_cache, sys_setBuf_cache, setBuf_buf, if_true, fill_data, buf₃, writes₃,
      writes₂, writes₁, lastWrite, List.head?_cons, ne_eq, true_and]
    exact ⟨hread, hlast⟩

end AvxKernel.Bio
