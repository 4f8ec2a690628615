import AvxKernel.Bio.Bcache
import Mathlib.Algebra.BigOperators.Fin
import Mathlib.Algebra.Order.BigOperators.Group.Finset

/-! What every section of the buffer cache preserves: the ring, one buffer for
each block, the reference counts, and who holds which sleep lock. -/
namespace AvxKernel.Bio

variable {n : Nat}

/-- A key that some `bread` can have asked for: not the mark of `binit`. -/
def Real (key : Nat × Nat) : Prop := key ≠ (noBlock, noBlock)

/-- The references to a buffer, over all processes. -/
def Sys.users (s : Sys n) (b : BufId) : Nat :=
  ∑ p, (s.procs p).uses.countP (fun u => decide (u.buf = b))

structure Inv (s : Sys n) : Prop where
  ring : ∃ order : List BufId, s.cache.links.Ring none (order.map some) ∧ ∀ b, b ∈ order
  unique : ∀ b b', Real (s.cache.buf b).key → (s.cache.buf b).key = (s.cache.buf b').key → b = b'
  counted : ∀ b, (s.cache.buf b).refcnt = s.users b
  keyed : ∀ p, ∀ u ∈ (s.procs p).uses, (s.cache.buf u.buf).key = (u.dev, u.sectorno)
  owner : ∀ p b, (s.cache.buf b).lock = some p ↔ b ∈ (s.procs p).locked.map Use.buf
  once : ∀ p, ((s.procs p).locked.map Use.buf).Nodup

/-! ### The section updates -/

@[simp] theorem setBuf_buf (c : Bcache n) (b x : BufId) (v : Buf n) :
    (c.setBuf b v).buf x = if x = b then v else c.buf x := by
  simp only [Bcache.setBuf, Function.update_apply]

@[simp] theorem setBuf_links (c : Bcache n) (b : BufId) (v : Buf n) :
    (c.setBuf b v).links = c.links := rfl

@[simp] theorem sys_setBuf_cache (s : Sys n) (b : BufId) (v : Buf n) :
    (s.setBuf b v).cache = s.cache.setBuf b v := rfl

@[simp] theorem sys_setBuf_procs (s : Sys n) (b : BufId) (v : Buf n) :
    (s.setBuf b v).procs = s.procs := rfl

@[simp] theorem setProc_cache (s : Sys n) (p : Fin n) (v : Proc) :
    (s.setProc p v).cache = s.cache := rfl

@[simp] theorem setProc_procs (s : Sys n) (p q : Fin n) (v : Proc) :
    (s.setProc p v).procs q = if q = p then v else s.procs q := by
  simp only [Sys.setProc, Function.update_apply]

@[simp] theorem setChanged_cache (s : Sys n) (b : BufId) (v : Bool) :
    (s.setChanged b v).cache = s.cache := rfl

@[simp] theorem setChanged_procs (s : Sys n) (b : BufId) (v : Bool) :
    (s.setChanged b v).procs = s.procs := rfl

theorem brelse_buf (c : Bcache n) (b x : BufId) :
    (c.brelse b).buf x =
      if x = b then { c.buf b with refcnt := (c.buf b).refcnt - 1 } else c.buf x := by
  simp only [Bcache.brelse]
  split <;> simp

@[simp] theorem fill_key (b : Buf n) (disk : Nat → Block) : (b.fill disk).key = b.key := by
  simp only [Buf.fill, Buf.key]
  split <;> rfl

@[simp] theorem fill_refcnt (b : Buf n) (disk : Nat → Block) : (b.fill disk).refcnt = b.refcnt := by
  simp only [Buf.fill]
  split <;> rfl

@[simp] theorem fill_lock (b : Buf n) (disk : Nat → Block) : (b.fill disk).lock = b.lock := by
  simp only [Buf.fill]
  split <;> rfl

/-! ### What a section can do -/

/-- The sections, with their guards and the state each leaves. `bget` is split
into its hit and its recycling of an unreferenced buffer. -/
inductive Section (s : Sys n) : Event n → Sys n → Prop where
  | hit {p dev sectorno b} (idle : (s.procs p).pc = .idle)
      (found : (s.cache.buf b).key = (dev, sectorno)) :
      Section s (.bget p dev sectorno)
        ((s.setBuf b { s.cache.buf b with refcnt := (s.cache.buf b).refcnt + 1 }).setProc p
          { s.procs p with pc := .wait ⟨b, dev, sectorno⟩ })
  | recycle {p dev sectorno b} (idle : (s.procs p).pc = .idle)
      (missing : ∀ b ∈ s.cache.links.fromHead NBUF, (s.cache.buf b).key ≠ (dev, sectorno))
      (free : (s.cache.buf b).refcnt = 0) :
      Section s (.bget p dev sectorno)
        ((s.setBuf b { s.cache.buf b with dev, sectorno, valid := false, refcnt := 1 }).setProc p
          { s.procs p with pc := .wait ⟨b, dev, sectorno⟩ })
  | lock {p u} (waiting : (s.procs p).pc = .wait u) (free : (s.cache.buf u.buf).lock = none) :
      Section s (.lock p)
        ((s.setBuf u.buf { s.cache.buf u.buf with lock := some p }).setProc p
          { s.procs p with pc := .load u })
  | load {p u} (loading : (s.procs p).pc = .load u) :
      Section s (.load p)
        (((s.setChanged u.buf ((s.cache.buf u.buf).valid && s.changed u.buf)).setBuf u.buf
          ((s.cache.buf u.buf).fill s.disk)).setProc p
            { pc := .idle, held := u :: (s.procs p).held })
  | change {p b data} (idle : (s.procs p).pc = .idle)
      (holds : (s.cache.buf b).lock = some p) :
      Section s (.change p b data)
        ((s.setChanged b true).setBuf b { s.cache.buf b with data })
  | bwrite {p b} (holds : (s.cache.buf b).lock = some p) :
      Section s (.bwrite p b)
        { s.setChanged b false with
          disk := Function.update s.disk (s.cache.buf b).sectorno (s.cache.buf b).data
          writes := (⟨b, (s.cache.buf b).dev, (s.cache.buf b).sectorno⟩, (s.cache.buf b).data) ::
            s.writes }
  | unlock {p u} (idle : (s.procs p).pc = .idle) (holds : u ∈ (s.procs p).held) :
      Section s (.unlock p u.buf)
        ((s.setBuf u.buf { s.cache.buf u.buf with lock := none }).setProc p
          { pc := .drop u, held := (s.procs p).held.erase u })
  | release {p u} (dropping : (s.procs p).pc = .drop u) :
      Section s (.release p)
        ({ s with cache := s.cache.brelse u.buf }.setProc p { s.procs p with pc := .idle })

theorem step_section {s s' : Sys n} {e : Event n} (h : step s e = some s') : Section s e s' := by
  cases e with
  | bget p dev sectorno =>
    simp only [step] at h
    split at h
    · rename_i idle
      split at h
      · rename_i b c hb
        cases h
        simp only [Bcache.bget] at hb
        split at hb
        · rename_i b' hfound
          cases hb
          have hkey := List.find?_some hfound
          simp only [decide_eq_true_eq] at hkey
          exact .hit idle (by simp only [Buf.key, hkey])
        · rename_i hmiss
          split at hb
          · rename_i b' hfree
            cases hb
            have hzero := List.find?_some hfree
            simp only [decide_eq_true_eq] at hzero
            refine .recycle idle (fun x hx hk => ?_) hzero
            have := List.find?_eq_none.mp hmiss x hx
            simp only [Buf.key, Prod.mk.injEq] at hk
            simp [hk] at this
          · cases hb
      · cases h
    · cases h
  | lock p =>
    simp only [step] at h
    split at h
    · split at h
      · cases h
        exact .lock ‹_› ‹_›
      · cases h
    · cases h
  | load p =>
    simp only [step] at h
    split at h
    · cases h
      exact .load ‹_›
    · cases h
  | change p b data =>
    simp only [step] at h
    split at h
    · split at h
      · cases h
        exact .change ‹_› ‹_›
      · cases h
    · cases h
  | bwrite p b =>
    simp only [step] at h
    split at h
    · split at h
      · cases h
        exact .bwrite ‹_›
      · cases h
    · cases h
  | unlock p b =>
    simp only [step] at h
    split at h
    · rename_i idle hfound
      split at h
      · cases h
        have hb := List.find?_some hfound
        simp only [decide_eq_true_eq] at hb
        subst hb
        exact .unlock idle (List.mem_of_find?_eq_some hfound)
      · cases h
    · cases h
  | release p =>
    simp only [step] at h
    split at h
    · cases h
      exact .release ‹_›
    · cases h

/-! ### Counting references -/

def Proc.count (p : Proc) (b : BufId) : Nat := p.uses.countP (fun u => decide (u.buf = b))

theorem users_setProc (s : Sys n) (p : Fin n) (v : Proc) (b : BufId) :
    (s.setProc p v).users b + (s.procs p).count b = s.users b + v.count b := by
  have split (f : Fin n → Nat) : ∑ q, f q = f p + ∑ q ∈ Finset.univ.erase p, f q :=
    (Finset.add_sum_erase _ f (Finset.mem_univ p)).symm
  have rest : ∑ q ∈ Finset.univ.erase p, ((s.setProc p v).procs q).count b =
      ∑ q ∈ Finset.univ.erase p, (s.procs q).count b := by
    apply Finset.sum_congr rfl
    intro q hq
    simp [Finset.ne_of_mem_erase hq]
  have before : s.users b = ∑ q, (s.procs q).count b := rfl
  have after : (s.setProc p v).users b = ∑ q, ((s.setProc p v).procs q).count b := rfl
  rw [before, after, split (fun q => (s.procs q).count b),
    split (fun q => ((s.setProc p v).procs q).count b), rest]
  simp only [setProc_procs, if_true]
  omega

theorem count_le_users (s : Sys n) (p : Fin n) (b : BufId) : (s.procs p).count b ≤ s.users b :=
  Finset.single_le_sum (f := fun q => (s.procs q).count b) (fun _ _ => Nat.zero_le _)
    (Finset.mem_univ p)

theorem count_pos {p : Proc} {u : Use} (h : u ∈ p.uses) : 0 < p.count u.buf :=
  List.countP_pos_iff.mpr ⟨u, h, by simp⟩

/-- Nobody refers to a buffer whose reference count is zero. -/
theorem Inv.unused {s : Sys n} (inv : Inv s) {b : BufId} (free : (s.cache.buf b).refcnt = 0)
    (p : Fin n) : ∀ u ∈ (s.procs p).uses, u.buf ≠ b := by
  rintro u hu rfl
  have hpos := count_pos hu
  have hle := count_le_users s p u.buf
  rw [← inv.counted, free] at hle
  omega

theorem Inv.referenced {s : Sys n} (inv : Inv s) {p : Fin n} {u : Use}
    (hu : u ∈ (s.procs p).uses) : 0 < (s.cache.buf u.buf).refcnt := by
  rw [inv.counted]
  exact lt_of_lt_of_le (count_pos hu) (count_le_users s p u.buf)

/-! ### The invariant, part by part -/

variable {s s' : Sys n} {e : Event n}

theorem Section.ring (inv : Inv s) (h : Section s e s') :
    ∃ order : List BufId, s'.cache.links.Ring none (order.map some) ∧ ∀ b, b ∈ order := by
  obtain ⟨order, hring, hall⟩ := inv.ring
  cases h with
  | hit | recycle | lock | load | change | bwrite | unlock => exact ⟨order, hring, hall⟩
  | @release p u =>
    simp only [setProc_cache, Bcache.brelse]
    split
    · refine ⟨u.buf :: order.erase u.buf, hring.moveToFront_order (hall _), fun b => ?_⟩
      by_cases hb : b = u.buf
      · simp [hb]
      · exact List.mem_cons_of_mem _ ((List.mem_erase_of_ne hb).mpr (hall b))
    · exact ⟨order, hring, hall⟩

theorem order_length {L : Links (Option BufId)} {order : List BufId}
    (h : L.Ring none (order.map some)) : order.length ≤ NBUF := by
  simpa using h.order_nodup.length_le_card

/-- No section changes the key of a buffer, except that recycling gives its
buffer a key that no buffer had. -/
theorem Section.key (inv : Inv s) (h : Section s e s') :
    (∀ b, (s'.cache.buf b).key = (s.cache.buf b).key) ∨
    ∃ b key, (∀ x, (s'.cache.buf x).key = if x = b then key else (s.cache.buf x).key) ∧
      (s.cache.buf b).refcnt = 0 ∧ ∀ x, (s.cache.buf x).key ≠ key := by
  obtain ⟨order, hring, hall⟩ := inv.ring
  cases h with
  | @recycle p dev sectorno b idle missing free =>
    right
    rw [hring.fromHead_eq (order_length hring)] at missing
    refine ⟨b, (dev, sectorno), fun x => ?_, free, fun x => missing x (hall x)⟩
    by_cases hx : x = b <;> simp [Buf.key, hx]
  | release =>
    left
    intro x
    simp only [setProc_cache, brelse_buf]
    split <;> simp_all [Buf.key]
  | hit | lock | change | unlock =>
    left
    intro x
    simp only [setProc_cache, sys_setBuf_cache, setBuf_buf]
    split <;> simp_all [Buf.key]
  | load =>
    left
    intro x
    simp only [setProc_cache, sys_setBuf_cache, setBuf_buf]
    split <;> simp_all
  | bwrite => exact .inl fun _ => rfl

theorem Section.unique (inv : Inv s) (h : Section s e s') (b b' : BufId)
    (real : Real (s'.cache.buf b).key)
    (same : (s'.cache.buf b).key = (s'.cache.buf b').key) : b = b' := by
  rcases h.key inv with keep | ⟨x, key, keys, _, fresh⟩
  · rw [keep] at real
    rw [keep, keep] at same
    exact inv.unique b b' real same
  · rw [keys] at real
    rw [keys, keys] at same
    by_cases hb : b = x
    · by_cases hb' : b' = x
      · exact hb.trans hb'.symm
      · rw [if_pos hb, if_neg hb'] at same
        exact absurd same.symm (fresh b')
    · by_cases hb' : b' = x
      · rw [if_neg hb, if_pos hb'] at same
        exact absurd same (fresh b)
      · rw [if_neg hb, if_neg hb'] at same
        rw [if_neg hb] at real
        exact inv.unique b b' real same

theorem Section.counted (inv : Inv s) (h : Section s e s') (b : BufId) :
    (s'.cache.buf b).refcnt = s'.users b := by
  have hb := inv.counted b
  cases h with
  | @hit p dev sectorno x idle found =>
    have := users_setProc (s.setBuf x { s.cache.buf x with refcnt := (s.cache.buf x).refcnt + 1 }) p
      { s.procs p with pc := .wait ⟨x, dev, sectorno⟩ } b
    simp only [sys_setBuf_procs, Proc.count, Proc.uses, idle, Pc.uses, List.nil_append,
      List.singleton_append, List.countP_cons, decide_eq_true_eq] at this
    change _ + _ = s.users b + _ at this
    simp only [setProc_cache, sys_setBuf_cache, setBuf_buf, eq_comm (a := b)]
    split
    · simp_all
      omega
    · simp_all
  | @recycle p dev sectorno x idle missing free =>
    have := users_setProc (s.setBuf x { s.cache.buf x with dev, sectorno, valid := false, refcnt := 1 }) p
      { s.procs p with pc := .wait ⟨x, dev, sectorno⟩ } b
    simp only [sys_setBuf_procs, Proc.count, Proc.uses, idle, Pc.uses, List.nil_append,
      List.singleton_append, List.countP_cons, decide_eq_true_eq] at this
    change _ + _ = s.users b + _ at this
    simp only [setProc_cache, sys_setBuf_cache, setBuf_buf, eq_comm (a := b)]
    split
    · simp_all
      omega
    · simp_all
  | @lock p u waiting free =>
    have := users_setProc (s.setBuf u.buf { s.cache.buf u.buf with lock := some p }) p
      { s.procs p with pc := .load u } b
    simp only [sys_setBuf_procs, Proc.count, Proc.uses, waiting, Pc.uses] at this
    change _ + _ = s.users b + _ at this
    simp only [setProc_cache, sys_setBuf_cache, setBuf_buf]
    split <;> simp_all
  | @load p u loading =>
    have := users_setProc ((s.setChanged u.buf ((s.cache.buf u.buf).valid &&
      s.changed u.buf)).setBuf u.buf ((s.cache.buf u.buf).fill s.disk)) p
      { pc := .idle, held := u :: (s.procs p).held } b
    simp only [sys_setBuf_procs, setChanged_procs, Proc.count, Proc.uses, loading, Pc.uses, List.nil_append,
      List.singleton_append] at this
    change _ + _ = s.users b + _ at this
    simp only [setProc_cache, sys_setBuf_cache, setBuf_buf]
    split <;> simp_all
  | change =>
    change _ = s.users b
    simp only [sys_setBuf_cache, setBuf_buf]
    split <;> simp_all
  | bwrite => exact hb
  | @unlock p u idle holds =>
    have := users_setProc (s.setBuf u.buf { s.cache.buf u.buf with lock := none }) p
      { pc := .drop u, held := (s.procs p).held.erase u } b
    have perm := (List.perm_cons_erase holds).countP_eq (fun u => decide (u.buf = b))
    simp only [sys_setBuf_procs, Proc.count, Proc.uses, idle, Pc.uses, List.nil_append,
      List.singleton_append, ← perm] at this
    change _ + _ = s.users b + _ at this
    simp only [setProc_cache, sys_setBuf_cache, setBuf_buf]
    split <;> simp_all
  | @release p u dropping =>
    have := users_setProc { s with cache := s.cache.brelse u.buf } p
      { s.procs p with pc := .idle } b
    simp only [Proc.count, Proc.uses, dropping, Pc.uses, List.nil_append,
      List.singleton_append, List.countP_cons, decide_eq_true_eq] at this
    change _ + _ = s.users b + _ at this
    simp only [setProc_cache, brelse_buf, eq_comm (a := b)]
    split
    · simp_all
      omega
    · simp_all

/-- Only `bget` brings a use into being, and that one is keyed. -/
theorem Section.uses (h : Section s e s') (p : Fin n) :
    ∀ u ∈ (s'.procs p).uses, u ∈ (s.procs p).uses ∨
      e = .bget p u.dev u.sectorno ∧ (s'.cache.buf u.buf).key = (u.dev, u.sectorno) := by
  intro u hu
  cases h with
  | @hit q dev sectorno b idle found =>
    by_cases hq : p = q
    · subst q
      simp only [setProc_procs, if_true, Proc.uses, Pc.uses, List.singleton_append,
        List.mem_cons] at hu
      rcases hu with rfl | hu
      · exact .inr ⟨rfl, by simpa [Buf.key] using found⟩
      · exact .inl (List.mem_append_right _ hu)
    · exact .inl (by simpa [hq] using hu)
  | @recycle q dev sectorno b idle missing free =>
    by_cases hq : p = q
    · subst q
      simp only [setProc_procs, if_true, Proc.uses, Pc.uses, List.singleton_append,
        List.mem_cons] at hu
      rcases hu with rfl | hu
      · exact .inr ⟨rfl, by simp [Buf.key]⟩
      · exact .inl (List.mem_append_right _ hu)
    · exact .inl (by simpa [hq] using hu)
  | @lock q v waiting free =>
    by_cases hq : p = q
    · subst q
      exact .inl (by simpa [Proc.uses, Pc.uses, waiting] using hu)
    · exact .inl (by simpa [hq] using hu)
  | @load q v loading =>
    by_cases hq : p = q
    · subst q
      exact .inl (by simpa [Proc.uses, Pc.uses, loading] using hu)
    · exact .inl (by simpa [hq] using hu)
  | change | bwrite => exact .inl hu
  | @unlock q v idle holds =>
    by_cases hq : p = q
    · subst q
      simp only [setProc_procs, if_true, Proc.uses, Pc.uses, List.singleton_append,
        List.mem_cons] at hu
      rcases hu with rfl | hu
      · exact .inl (List.mem_append_right _ holds)
      · exact .inl (List.mem_append_right _ (List.mem_of_mem_erase hu))
    · exact .inl (by simpa [hq] using hu)
  | @release q v dropping =>
    by_cases hq : p = q
    · subst q
      simp only [setProc_procs, if_true, Proc.uses, Pc.uses, List.nil_append] at hu
      exact .inl (List.mem_append_right _ hu)
    · exact .inl (by simpa [hq] using hu)

theorem Section.keyed (inv : Inv s) (h : Section s e s') (p : Fin n) :
    ∀ u ∈ (s'.procs p).uses, (s'.cache.buf u.buf).key = (u.dev, u.sectorno) := by
  intro u hu
  rcases h.uses p u hu with old | ⟨_, new⟩
  · rcases h.key inv with keep | ⟨b, key, keys, free, _⟩
    · rw [keep]
      exact inv.keyed p u old
    · rw [keys, if_neg (inv.unused free p u old)]
      exact inv.keyed p u old
  · exact new

/-- The sleep locks and their holders, as a section moves them. -/
theorem Section.owner (inv : Inv s) (h : Section s e s') (p : Fin n) (b : BufId) :
    (s'.cache.buf b).lock = some p ↔ b ∈ (s'.procs p).locked.map Use.buf := by
  have hb := inv.owner p b
  cases h with
  | @hit q dev sectorno x idle found | @recycle q dev sectorno x idle missing free =>
    have lock : ((s.cache.buf b).lock = some p) ↔ b ∈ (s.procs p).held.map Use.buf ∨
        b ∈ (s.procs p).pc.locked.map Use.buf := by
      rw [hb, Proc.locked, List.map_append, List.mem_append, or_comm]
    by_cases hq : p = q
    · subst q
      by_cases hx : b = x <;> simp_all [Proc.locked, Pc.locked]
    · by_cases hx : b = x <;> simp_all [Proc.locked]
  | @lock q u waiting free =>
    by_cases hq : p = q
    · subst q
      by_cases hx : b = u.buf
      · simp [hx, Proc.locked, Pc.locked]
      · simpa [hx, Proc.locked, Pc.locked, waiting] using hb
    · by_cases hx : b = u.buf
      · subst b
        have : u.buf ∉ (s.procs p).locked.map Use.buf := by
          rw [← hb, free]
          simp
        simpa [hq, Ne.symm hq] using this
      · simpa [hx, hq] using hb
  | @load q u loading =>
    have lock : ((s.cache.setBuf u.buf ((s.cache.buf u.buf).fill s.disk)).buf b).lock =
        (s.cache.buf b).lock := by
      by_cases hx : b = u.buf <;> simp [hx]
    rw [setProc_cache, sys_setBuf_cache, setChanged_cache, lock, hb]
    by_cases hq : p = q
    · subst q
      simp [Proc.locked, Pc.locked, loading]
    · simp [hq]
  | @change q x data idle holds =>
    by_cases hx : b = x
    · subst x
      simpa using hb
    · simpa [hx] using hb
  | bwrite => exact hb
  | @unlock q u idle holds =>
    by_cases hq : p = q
    · subst q
      have once := inv.once p
      simp only [Proc.locked, idle, Pc.locked, List.nil_append] at once hb
      have perm := (List.perm_cons_erase holds).map Use.buf
      by_cases hx : b = u.buf
      · subst b
        have : u.buf ∉ ((s.procs p).held.erase u).map Use.buf := by
          have := perm.nodup_iff.mp once
          simp only [List.map_cons, List.nodup_cons] at this
          exact this.1
        simpa [Proc.locked, Pc.locked] using this
      · have member := perm.mem_iff (a := b)
        simp only [List.map_cons, List.mem_cons, hx, false_or] at member
        simp only [setProc_cache, sys_setBuf_cache, setBuf_buf, hx, if_false, hb, member,
          setProc_procs, if_true, Proc.locked, Pc.locked, List.nil_append]
    · by_cases hx : b = u.buf
      · subst b
        have holder : (s.cache.buf u.buf).lock = some q := by
          rw [inv.owner q u.buf]
          exact List.mem_map_of_mem (List.mem_append_right _ holds)
        have : u.buf ∉ (s.procs p).locked.map Use.buf := by
          rw [← hb, holder]
          simpa using Ne.symm hq
        simpa [hq] using this
      · simpa [hx, hq] using hb
  | @release q u dropping =>
    have lock : ((s.cache.brelse u.buf).buf b).lock = (s.cache.buf b).lock := by
      rw [brelse_buf]
      by_cases hx : b = u.buf <;> simp [hx]
    change ((s.cache.brelse u.buf).buf b).lock = some p ↔ _
    rw [lock, hb]
    by_cases hq : p = q
    · subst q
      simp [Proc.locked, Pc.locked, dropping]
    · simp [hq]

theorem Section.once (inv : Inv s) (h : Section s e s') (p : Fin n) :
    ((s'.procs p).locked.map Use.buf).Nodup := by
  have hp := inv.once p
  cases h with
  | @hit q dev sectorno x idle found | @recycle q dev sectorno x idle missing free =>
    by_cases hq : p = q
    · subst q
      simpa [Proc.locked, Pc.locked, idle] using hp
    · simpa [hq] using hp
  | @lock q u waiting free =>
    by_cases hq : p = q
    · subst q
      have : u.buf ∉ (s.procs p).locked.map Use.buf := by
        rw [← inv.owner p u.buf, free]
        simp
      simp only [Proc.locked, Pc.locked, waiting, List.nil_append] at hp this
      simpa [Proc.locked, Pc.locked, hp] using this
    · simpa [hq] using hp
  | @load q u loading =>
    by_cases hq : p = q
    · subst q
      simpa [Proc.locked, Pc.locked, loading] using hp
    · simpa [hq] using hp
  | change | bwrite => exact hp
  | @unlock q u idle holds =>
    by_cases hq : p = q
    · subst q
      simp only [Proc.locked, Pc.locked, idle, List.nil_append] at hp
      simpa [Proc.locked, Pc.locked] using hp.sublist (List.erase_sublist.map Use.buf)
    · simpa [hq] using hp
  | @release q u dropping =>
    by_cases hq : p = q
    · subst q
      simpa [Proc.locked, Pc.locked, dropping] using hp
    · simpa [hq] using hp

theorem Inv.step (inv : Inv s) (h : Section s e s') : Inv s' where
  ring := h.ring inv
  unique := h.unique inv
  counted := h.counted inv
  keyed := h.keyed inv
  owner := h.owner inv
  once := h.once inv

/-! ### Runs -/

theorem binit_fold (c : Bcache n) (bs : List BufId) :
    (bs.foldl (fun c b =>
      ({ buf := Function.update c.buf b
          { c.buf b with refcnt := 0, sectorno := noBlock, dev := noBlock, lock := none }
         links := c.links.pushFront none (some b) } : Bcache n)) c).links =
        (bs.map some).foldl (fun L x => L.pushFront none x) c.links ∧
    ∀ b, ((bs.foldl (fun c b =>
      ({ buf := Function.update c.buf b
          { c.buf b with refcnt := 0, sectorno := noBlock, dev := noBlock, lock := none }
         links := c.links.pushFront none (some b) } : Bcache n)) c).buf b) =
        if b ∈ bs then
          { c.buf b with refcnt := 0, sectorno := noBlock, dev := noBlock, lock := none }
        else c.buf b := by
  induction bs generalizing c with
  | nil => exact ⟨rfl, fun b => by simp⟩
  | cons x rest ih =>
    obtain ⟨hl, hb⟩ := ih ⟨Function.update c.buf x
      { c.buf x with refcnt := 0, sectorno := noBlock, dev := noBlock, lock := none },
      c.links.pushFront none (some x)⟩
    refine ⟨hl, fun b => ?_⟩
    rw [List.foldl_cons, hb]
    by_cases hx : b = x
    · subst x
      by_cases hr : b ∈ rest <;> simp [hr]
    · by_cases hr : b ∈ rest <;> simp [hr, hx]

theorem binit_buf (c : Bcache n) (b : BufId) :
    (binit c).buf b =
      { c.buf b with refcnt := 0, sectorno := noBlock, dev := noBlock, lock := none } := by
  rw [binit, (binit_fold _ _).2 b, if_pos (List.mem_finRange b)]

/-- `binit` leaves every buffer on the ring once, the last initialised first. -/
theorem binit_ring (c : Bcache n) :
    (binit c).links.Ring none ((List.finRange NBUF).reverse.map some) := by
  rw [binit, (binit_fold _ _).1, List.map_reverse]
  have h := (c.links.closed_ring none).pushAll ((List.finRange NBUF).map some)
  simp only [List.append_nil] at h
  apply h
  simp only [List.nodup_cons, List.nodup_reverse, List.mem_reverse, List.mem_map, reduceCtorEq,
    and_false, exists_false, not_false_eq_true, true_and]
  exact (List.nodup_finRange NBUF).map (Option.some_injective _)

theorem boot_buf (disk : Nat → Block) (b : BufId) :
    (boot n disk).cache.buf b = ⟨false, noBlock, noBlock, none, 0, fun _ => 0⟩ := by
  simp only [boot, binit_buf, bss]

theorem boot_inv (disk : Nat → Block) : Inv (boot n disk) where
  ring := ⟨(List.finRange NBUF).reverse, binit_ring (bss n), fun b => by simp⟩
  unique := by
    intro b b' real
    simp only [boot_buf, Buf.key, Real, ne_eq, not_true_eq_false] at real
  counted := by
    intro b
    simp [boot, binit_buf, Sys.users, Proc.uses, Pc.uses]
  keyed := by
    intro p u hu
    simp [boot, Proc.uses, Pc.uses] at hu
  owner := by
    intro p b
    simp [boot, binit_buf, Proc.locked, Pc.locked]
  once := by
    intro p
    simp [boot, Proc.locked, Pc.locked]

theorem run_cons {s s' : Sys n} {e : Event n} {rest : List (Event n)}
    (h : run s (e :: rest) = some s') : ∃ t, step s e = some t ∧ run t rest = some s' :=
  Option.bind_eq_some_iff.mp h

theorem Inv.run {s s' : Sys n} {events : List (Event n)} (inv : Inv s)
    (h : run s events = some s') : Inv s' := by
  induction events generalizing s with
  | nil =>
    cases h
    exact inv
  | cons e rest ih =>
    obtain ⟨t, hstep, hrun⟩ := run_cons h
    exact ih (inv.step (step_section hstep)) hrun

end AvxKernel.Bio
