import AvxKernel.Exec.Areas

/-! `alloc_vma` on a whole address space: its table, its list of areas and the
free pages. What a request comes to depends on where the search stops and on how
many pages of memory there are. -/
namespace AvxKernel.Exec

open Vm

/-- An address space, with the list of its areas, and the free pages. -/
structure Space (s : Ram) (p : Proc) (node : Nodes) (free nodes : List Nat) (m : PageMap) :
    Prop where
  pool : Pool s p.pagetable node free (p.vma :: nodes)
  maps : Maps s node m
  fresh : ∀ {v pa perm}, m v = some (pa, perm) → pa ∉ free
  listed : Listed s.mem p.vma nodes

variable {s t u : Ram} {p : Proc} {node node' : Nodes} {m : PageMap} {limit page v w n : Nat}
  {free free' nodes nodes' front back frames : List Nat}

/-- Nothing of the address space has changed but pages of its table. -/
structure Unmoved (s t : Ram) (p : Proc) (node node' : Nodes) (free free' nodes : List Nat)
    (m : PageMap) : Prop where
  space : Space t p node' free' nodes m
  within : Within (fun page => page ∈ free ∨ node.Has page) s t

/-- A new area, with new pages from page `v` on. A range that ends before it starts
does not go with the order of the list. -/
structure Entered (s t : Ram) (p : Proc) (node' : Nodes) (free free' nodes nodes' : List Nat)
    (m : PageMap) (v w page type perm : Nat) (frames : List Nat) : Prop where
  pool : Pool t p.pagetable node' free' (p.vma :: nodes')
  maps : Maps t node' (m.fill v frames fun _ => perm)
  fresh : ∀ {x pa q}, m.fill v frames (fun _ => perm) x = some (pa, q) → pa ∉ free'
  listed : v ≤ w → Listed t.mem p.vma nodes'
  member : ∀ a, a ∈ nodes' ↔ a = page ∨ a ∈ nodes
  new : Frame page
  type : areaType t.mem page = type
  addr : areaAddr t.mem page = v * PGSIZE
  stop : areaEnd t.mem page = w * PGSIZE
  others : ∀ a ∈ nodes, areaType t.mem a = areaType s.mem a ∧ areaAddr t.mem a = areaAddr s.mem a ∧
    areaEnd t.mem a = areaEnd s.mem a
  clear : ∀ x, v ≤ x → x < v + frames.length → x * PGSIZE < MAXVA ∧ m x = none
  nodup : frames.Nodup
  zero : ∀ frame ∈ frames, ∀ j < PGSIZE, t.mem (frame + j) = 0
  source : ∀ frame ∈ frames, frame ∈ free
  apart : ∀ frame ∈ frames, frame ∉ p.vma :: nodes'

theorem Entered.space {type perm : Nat}
    (entered : Entered s t p node' free free' nodes nodes' m v w page type perm frames)
    (range : v ≤ w) : Space t p node' free' nodes' (m.fill v frames fun _ => perm) :=
  ⟨entered.pool, entered.maps, entered.fresh, entered.listed range⟩

namespace Space

variable (space : Space s p node free nodes m)
include space

theorem node_frame {a : Nat} (ha : a ∈ p.vma :: nodes) : Frame a :=
  (space.pool.usable a (List.mem_append_right _ ha)).frame

/-- There is room in a loop's count for every node. -/
theorem few (enough : 2 ^ 20 < limit) : nodes.length < limit := by
  have nodup := (List.nodup_append.mp space.pool.nodup).2.1
  have count := length_of_usable nodup fun page mem => space.pool.usable page (by simp [mem])
  rw [List.length_cons] at count
  omega

/-- The list stands when only free pages and the table's change. -/
theorem listed_within (within : Within (fun page => page ∈ free ∨ node.Has page) s t) :
    Listed t.mem p.vma nodes := by
  refine space.listed.congr fun a ha => within.kept a (space.node_frame ha) ?_
  rintro (mem | has)
  · exact space.pool.free_disjoint_data mem ha
  · exact space.pool.apart a (List.mem_append_right _ ha) has

end Space

section Enter

variable (space : Space s p node free nodes m) {y type sz perm : Nat}
  (split : nodes = front ++ back) (here : (back ++ [p.vma]).head? = some y)
  (before : ∀ b ∈ front, areaEnd s.mem b ≤ v * PGSIZE)
  (after : ∀ b ∈ back, w * PGSIZE ≤ areaAddr s.mem b) (starts : v * PGSIZE < 2 ^ 64)
  (stops : w * PGSIZE < 2 ^ 64)  (types : type < 2 ^ 32) (pool : Pool u p.pagetable node' free' (frames ++ page :: p.vma :: nodes))
  (maps : Maps u node' (m.fill v frames fun _ => perm))
  (clear : ∀ x, v ≤ x → x < v + frames.length → x * PGSIZE < MAXVA ∧ m x = none)
  (zero : ∀ frame ∈ frames, ∀ j < PGSIZE, u.mem (frame + j) = 0)
  (source : ∀ frame ∈ frames, frame ∈ free) (left : ∀ x ∈ free', x ∈ free)
  (within : Within (fun page => page ∈ free ∨ node.Has page) s u)
include space split here before after starts stops types pool maps clear zero source left within

/-- The node is filled in and put where the search stopped. -/
theorem Space.entered : Entered s (u.setMem (linkBefore (newArea u.mem page type (v * PGSIZE) sz perm
      (w * PGSIZE)) page y)) p node' free free' nodes (front ++ page :: back) m v w page type perm
      frames := by
  subst split
  have own : (frames ++ page :: p.vma :: (front ++ back)).Nodup :=
    (List.nodup_append.mp pool.nodup).2.1
  obtain ⟨distinct, fresh_nodup, apart⟩ := List.nodup_append.mp own
  have fresh : page ∉ p.vma :: (front ++ back) := (List.nodup_cons.mp fresh_nodup).1
  have hpage : Frame page := (pool.usable page (by simp)).frame
  have frame (x : Nat) (hx : x ∈ p.vma :: (front ++ back)) : Frame x := space.node_frame hx
  have listed := space.listed_within within
  have fields := newArea_fields u.mem page sz perm types starts
    stops
  have other (x : Nat) (hx : x ∈ p.vma :: (front ++ back)) : x ≠ page := fun same =>
    fresh (same ▸ hx)
  have member : y ∈ p.vma :: (front ++ back) := by
    cases back with
    | nil => simp_all
    | cons z back => simp_all
  have filled : Listed (newArea u.mem page type (v * PGSIZE) sz perm (w * PGSIZE)) p.vma
      (front ++ back) := listed.congr fun x hx i hi =>
    newArea_outside ((frame x hx).disjoint hpage (other x hx) ⟨by omega, by omega⟩)
  have hprev := filled.ring.prev_mem member
  have hp := frame _ hprev
  have hy := frame y member
  have ne := other y member
  -- the fields of the old nodes
  have kept (x : Nat) (hx : x ∈ front ++ back) {i k : Nat} (hi : i + k ≤ 48) :
      (linkBefore (newArea u.mem page type (v * PGSIZE) sz perm (w * PGSIZE)) page y).fetch (x + i) k =
        s.mem.fetch (x + i) k := by
    have hx' : x ∈ p.vma :: (front ++ back) := List.mem_cons_of_mem _ hx
    have bound : i + k ≤ PGSIZE := hi.trans (by decide)
    rw [fetch_linkBefore hpage hy hp ne (frame x hx') hi,
      newArea_other hpage (frame x hx') (other x hx') bound]
    refine fetch_kept (within.kept x (frame x hx') ?_) bound
    rintro (mem | has)
    · exact space.pool.free_disjoint_data mem hx'
    · exact space.pool.apart x (List.mem_append_right _ hx') has
  have ordered (range : v ≤ w) : Listed (linkBefore (newArea u.mem page type (v * PGSIZE) sz perm
      (w * PGSIZE)) page y) p.vma (front ++ page :: back) := by
    have addr (x : Nat) (hx : x ∈ front ++ back) :
        areaAddr (newArea u.mem page type (v * PGSIZE) sz perm (w * PGSIZE)) x = areaAddr s.mem x :=
      (fetch_linkBefore hpage hy hp ne (frame x (by simp [hx])) (by decide)).symm.trans
        (kept x hx (by decide))
    have stop (x : Nat) (hx : x ∈ front ++ back) :
        areaEnd (newArea u.mem page type (v * PGSIZE) sz perm (w * PGSIZE)) x = areaEnd s.mem x :=
      (fetch_linkBefore hpage hy hp ne (frame x (by simp [hx])) (by decide)).symm.trans
        (kept x hx (by decide))
    refine filled.linkBefore here fresh frame hpage ?_ (fun b hb => ?_) fun b hb => ?_
    · rw [fields.2.1, fields.2.2]
      exact ⟨Nat.dvd_mul_left _ _, Nat.dvd_mul_left _ _, Nat.mul_le_mul_right _ range⟩
    · rw [fields.2.1, stop b (by simp [hb])]
      exact before b hb
    · rw [fields.2.2, addr b (by simp [hb])]
      exact after b hb
  have written : Within (· ∈ page :: p.vma :: (front ++ back)) u
      (u.setMem (linkBefore (newArea u.mem page type (v * PGSIZE) sz perm (w * PGSIZE)) page y)) := by
    refine ⟨fun x hx away i hi => ?_, rfl⟩
    have out (z : Nat) (hz : z ∈ page :: p.vma :: (front ++ back)) (fz : Frame z) :
        x + i < z ∨ z + PGSIZE ≤ x + i :=
      hx.disjoint fz (fun same => away (same ▸ hz)) ⟨by omega, by omega⟩
    have first := out page (by simp) hpage
    rw [Ram.setMem_mem, linkBefore_outside hpage hy hp ne first
      (out _ (List.mem_cons_of_mem _ hprev) hp) (out y (List.mem_cons_of_mem _ member) hy),
      newArea_outside first]
  have kind : (linkBefore (newArea u.mem page type (v * PGSIZE) sz perm (w * PGSIZE)) page y).fetch
      (page + 0) 4 = (newArea u.mem page type (v * PGSIZE) sz perm (w * PGSIZE)).fetch (page + 0) 4 :=
    fetch_linkBefore hpage hy hp ne hpage (by decide)
  have pool' := pool.sublist (List.sublist_append_right frames (page :: p.vma :: (front ++ back)))
  have order : (page :: p.vma :: (front ++ back)).Perm (p.vma :: (front ++ page :: back)) :=
    (List.Perm.swap _ _ _).trans (List.Perm.cons _ List.perm_middle.symm)
  exact {
    pool := (pool'.written written rfl).perm order
    maps := maps.congr fun x => pool'.entryAt_written written x
    fresh := by
      intro x pa q hx mem
      rw [PageMap.fill] at hx
      split at hx
      · cases hx
        have inside : frames.getD (x - v) 0 ∈ frames := by
          rw [List.getD_eq_getElem _ _ (by omega)]
          exact List.getElem_mem _
        exact (List.nodup_append.mp pool.nodup).2.2 _ mem _ (List.mem_append_left _ inside) rfl
      · exact space.fresh hx (left _ mem)
    listed := ordered
    member := fun a => List.perm_middle.mem_iff.trans List.mem_cons
    new := hpage
    type := kind.trans fields.1
    addr := (fetch_linkBefore hpage hy hp ne hpage (by decide)).trans fields.2.1
    stop := (fetch_linkBefore hpage hy hp ne hpage (by decide)).trans fields.2.2
    others := fun a ha => ⟨kept a ha (i := 0) (by decide), kept a ha (by decide), kept a ha (by decide)⟩
    clear := clear
    nodup := distinct
    zero := fun frame mem j hj => by
      have hframe := (pool.usable frame (by simp [mem])).frame
      rw [← zero frame mem j hj]
      exact written.kept frame hframe (fun again => apart frame mem frame again rfl) j hj
    source := source
    apart := fun frame mem again => apart frame mem frame (order.mem_iff.mpr again) rfl }

end Enter

/-! ### `alloc_vma` -/

/-- The first page of a request, and the page after its last one. -/
def firstPage (addr : Nat) : Nat := addr / PGSIZE
def endPage (addr sz : Nat) : Nat := PGROUNDUP (u64 (addr + sz)) / PGSIZE

theorem PGROUNDUP_endPage (addr sz : Nat) :
    PGROUNDUP (u64 (addr + sz)) = endPage addr sz * PGSIZE := by
  rw [endPage, PGROUNDUP, Nat.mul_div_cancel _ (by decide)]

theorem endPage_small (addr sz : Nat) : endPage addr sz * PGSIZE < 2 ^ 64 := by
  rw [← PGROUNDUP_endPage, PGROUNDUP]
  exact lt_of_le_of_lt (Nat.div_mul_le_self _ _) (Nat.mod_lt _ (by decide))

/-- The pages of a new area, if it has any. -/
def mapArea (pagetable addr sz perm : Nat) : Machine Ram Int :=
  if sz = 0 then return 0
  else uvmalloc1 pagetable (firstPage addr * PGSIZE) (endPage addr sz * PGSIZE) perm

theorem endPage_zero {addr : Nat} (aligned : PGSIZE ∣ addr) (small : addr < 2 ^ 64) :
    endPage addr 0 = firstPage addr := by
  obtain ⟨c, rfl⟩ := aligned
  rw [endPage, firstPage, PGROUNDUP, u64, u64, Nat.mul_div_cancel _ (by decide), Nat.add_zero,
    Nat.mod_eq_of_lt small]
  rw [PGSIZE] at *
  omega

section Alloc

variable (space : Space s p node free nodes m) (enough : 2 ^ 20 < limit) {type addr sz perm y : Nat}
include space enough

/-- `alloc_vma` once it has searched the list. -/
theorem Space.alloc_vma_search : alloc_vma limit p type addr sz perm true 0 s =
    (match placeOf s.mem p.vma (firstPage addr * PGSIZE) (endPage addr sz * PGSIZE) nodes with
      | .inside find_vma => return find_vma
      | .overlap => return 0
      | .before find_vma => do
        let vma ← kalloc
        if vma = 0 then
          return 0
        else
          memset vma 0 PGSIZE
          let mapping ← (if sz = 0 then return 0 else
            uvmalloc1 p.pagetable (firstPage addr * PGSIZE) (endPage addr sz * PGSIZE) perm)
          if mapping ≠ 0 then
            kfree vma
            return 0
          else
            poke (vma + 8) 8 (firstPage addr * PGSIZE)
            poke (vma + 16) 8 sz
            poke (vma + 4) 4 perm
            poke (vma + 24) 8 (endPage addr sz * PGSIZE)
            poke (vma + 36) 4 (intBits (-1))
            poke (vma + 40) 8 0
            poke vma 4 type
            poke (vma + 48) 8 (← vma_prev find_vma)
            poke (vma + 56) 8 find_vma
            poke ((← vma_prev find_vma) + 56) 8 vma
            poke (find_vma + 48) 8 vma
            return vma : Machine Ram Nat) s := by
  have search : findPlace limit p.vma (firstPage addr * PGSIZE) (endPage addr sz * PGSIZE) s = _ :=
    findPlace_run space.listed (fun x hx => space.node_frame hx) (space.few enough)
  rw [alloc_vma]
  simp only [PGROUNDUP_endPage]
  rw [show PGROUNDDOWN addr = firstPage addr * PGSIZE from rfl, Machine.bind_of_ok search]
  cases placeOf s.mem p.vma (firstPage addr * PGSIZE) (endPage addr sz * PGSIZE) nodes with
  | before find_vma => simp only [if_true]
  | inside find_vma => rfl
  | overlap => rfl

theorem Space.alloc_vma_empty
    (place : placeOf s.mem p.vma (firstPage addr * PGSIZE) (endPage addr sz * PGSIZE) nodes = .before y)
    (none : free = []) : alloc_vma limit p type addr sz perm true 0 s = .ok (0, s) := by
  subst none
  rw [space.alloc_vma_search enough, place]
  simp only [Machine.bind_of_ok (Vm.kalloc_empty space.pool)]
  rfl

variable {rest : List Nat}

variable (type perm) in
/-- A node is allocated; it is taken back when its pages cannot be mapped. -/
theorem Space.alloc_vma_before
    (place : placeOf s.mem p.vma (firstPage addr * PGSIZE) (endPage addr sz * PGSIZE) nodes = .before y)
    (some : free = page :: rest) : ∃ u, Pool u p.pagetable node rest (page :: p.vma :: nodes) ∧
      Maps u node m ∧ Within (· = page) s u ∧
      (∀ e, mapArea p.pagetable addr sz perm u = .error e →
        alloc_vma limit p type addr sz perm true 0 s = .error e) ∧
      (∀ t, mapArea p.pagetable addr sz perm u = .ok (-1, t) →
        alloc_vma limit p type addr sz perm true 0 s = (do kfree page; return 0 : Machine Ram Nat) t) ∧
      ∀ t, mapArea p.pagetable addr sz perm u = .ok (0, t) → y ∈ p.vma :: nodes → y ≠ page →
        Listed t.mem p.vma nodes → alloc_vma limit p type addr sz perm true 0 s =
          .ok (page, t.setMem (linkBefore (newArea t.mem page type (firstPage addr * PGSIZE) sz perm
            (endPage addr sz * PGSIZE)) page y)) := by
  subst some
  obtain ⟨u, run, pool, within⟩ := space.pool.kalloc
  have frame := (space.pool.usable page (by simp)).frame
  have pos := frame.pos
  have inside : Within (· = page) u (u.setMem (u.mem.fill page PGSIZE (UInt8.ofNat 0))) :=
    .setMem frame fun x outside => Memory.fill_outside _ outside
  have own : Within (· ∈ page :: p.vma :: nodes) u
      (u.setMem (u.mem.fill page PGSIZE (UInt8.ofNat 0))) :=
    inside.mono fun other eq => by simp [eq]
  have maps : Maps u node m := space.maps.congr fun x => entryAt_congr x fun h =>
    within.kept _ (space.pool.tree.frame h) fun eq => space.pool.apart page (by simp) (eq ▸ ⟨_, _, h⟩)
  rw [space.alloc_vma_search enough, place]
  simp only [Machine.bind_of_ok run, if_neg (Nat.ne_of_gt pos), Machine.bind_of_ok (memset_run _ _ _ _)]
  refine ⟨_, pool.written own rfl, maps.congr fun x => pool.entryAt_written own x, within.trans inside,
    fun e failed => Machine.bind_of_error failed, fun t failed => ?_, fun t mapped member ne listed => ?_⟩
  · rw [mapArea] at failed
    rw [Machine.bind_of_ok failed, if_pos (by decide)]
  · rw [mapArea] at mapped
    have hy := space.node_frame member
    have hp : Frame ((links t.mem).prev y) := space.node_frame (listed.ring.prev_mem member)
    have kept : (links (newArea t.mem page type (firstPage addr * PGSIZE) sz perm
        (endPage addr sz * PGSIZE))).prev y = (links t.mem).prev y := newArea_other frame hy ne (by decide)
    rw [Machine.bind_of_ok mapped, if_neg (by decide), newArea_run frame,
      linkBefore_run frame hy (by rw [Ram.setMem_mem, kept]; exact hp) ne]
    rfl

end Alloc

/-! ### What a request comes to -/

/-- What `alloc_vma` makes of a request. -/
inductive Answer where
  | inside (vma : Nat)
  | refused
  | entered
  | stuck

/-- It depends on the place of the range in the list, on the first page of it that is
mapped already or is above the table, and on the pages of memory that there are. -/
def answer (s : Ram) (p : Proc) (node : Nodes) (free nodes : List Nat) (m : PageMap)
    (addr sz : Nat) : Answer :=
  let first := firstPage addr
  let stop := endPage addr sz
  match placeOf s.mem p.vma (first * PGSIZE) (stop * PGSIZE) nodes with
  | .inside vma => .inside vma
  | .overlap => .refused
  | .before _ =>
    let clear := clearPages m first (stop - first)
    if free = [] then .refused
    else if sz = 0 then .entered
    else if stop ≤ first then .refused
    else if clear < stop - first then
      if free.length < need node first clear + 2 then .refused else .stuck
    else if free.length < need node first clear + 1 then .refused
    else .entered

/-- Without pages to map, there is nothing to fail. -/
theorem mapArea_zero {addr sz perm : Nat} (pagetable : Nat) (u : Ram) (none : sz = 0) :
    mapArea pagetable addr sz perm u = .ok (0, u) := by
  rw [mapArea, if_pos none]
  rfl

/-- What comes of the pages of an area that has some. -/
theorem mapArea_outcome {root sz perm : Nat} (addr : Nat) {data : List Nat} (pool : Pool s root node free data)
    (maps : Maps s node m) (flags : perm < 2 ^ 9) (more : sz ≠ 0) :
    (endPage addr sz ≤ firstPage addr → mapArea root addr sz perm s = .ok (-1, s)) ∧
    (firstPage addr < endPage addr sz →
      let v := firstPage addr
      let n := endPage addr sz - v
      let k := clearPages m v n
      (free.length < need node v k + (if k < n then 1 else 0) → ∃ u node' free',
        mapArea root addr sz perm s = .ok (-1, u) ∧
        Filled s u root node node' free free' data m v [] (fun _ => perm) fun _ _ => 0) ∧
      (k = n → need node v k ≤ free.length → ∃ u node' free' frames,
        mapArea root addr sz perm s = .ok (0, u) ∧ frames.length = n ∧
        Filled s u root node node' free free' data m v frames (fun _ => perm) fun _ _ => 0) ∧
      (k < n → v * PGSIZE &&& DMWIN_MASK = 0 → need node v k < free.length →
        ∃ e, mapArea root addr sz perm s = .error e)) := by
  rw [mapArea, if_neg more]
  refine ⟨fun le => ?_, fun lt => ?_⟩
  · rw [uvmalloc1, if_pos (Nat.mul_le_mul_right _ le)]
    rfl
  · have whole : firstPage addr + (endPage addr sz - firstPage addr) = endPage addr sz := by omega
    have small := endPage_small addr sz
    have outcome := uvmalloc1_outcome pool maps flags (v := firstPage addr)
      (n := endPage addr sz - firstPage addr) (by omega) (by rwa [whole]) clearPages_le
      fun x le below => clearPages_good le below
    rw [whole] at outcome
    exact ⟨outcome.1, outcome.2.1, fun below window =>
      outcome.2.2 below (clearPages_bad window below)⟩

theorem answer_stuck {addr sz : Nat} (gives : answer s p node free nodes m addr sz = .stuck) :
    sz ≠ 0 := by
  rintro rfl
  simp only [answer] at gives
  split at gives
  · cases gives
  · cases gives
  · split_ifs at gives

section Outcome

variable (space : Space s p node free nodes m) (enough : 2 ^ 20 < limit) {type addr sz perm : Nat}
include space enough

variable (type perm) in
theorem Space.alloc_vma_inside {a : Nat} (gives : answer s p node free nodes m addr sz = .inside a) :
    alloc_vma limit p type addr sz perm true 0 s = .ok (a, s) ∧ a ∈ nodes := by
  have cases := placeOf_cases (firstPage addr * PGSIZE) (endPage addr sz * PGSIZE) space.listed
  rw [space.alloc_vma_search enough]
  simp only [answer] at gives
  rcases cases with ⟨front, back, y, place, -⟩ | ⟨b, member, place, -⟩ | place
  · simp only [place] at gives
    split_ifs at gives
  · simp only [place, Answer.inside.injEq] at gives
    subst b
    rw [place]
    exact ⟨rfl, member⟩
  · simp only [place] at gives
    cases gives

omit enough in
/-- The node goes back, and the list of free pages with it. -/
theorem Space.alloc_vma_back {rest : List Nat} {perms : Nat → Nat} {content : Nat → Nat → UInt8}
    (some : free = page :: rest) (taken : Within (· = page) s u)
    (filled : Filled u t p.pagetable node node' rest free' (page :: p.vma :: nodes) m v [] perms content) :
    ∃ t', (do kfree page; return 0 : Machine Ram Nat) t = .ok (0, t') ∧
      Unmoved s t' p node node' free (page :: free') nodes m := by
  subst some
  obtain ⟨t', run, pool, within⟩ := filled.pool.kfree
  have whole : Within (fun x => x ∈ page :: rest ∨ node.Has x) s t' :=
    (taken.mono fun x eq => .inl (by simp [eq])).trans <|
      (filled.within.mono fun x h => h.imp_left fun mem => List.mem_cons_of_mem _ mem).trans <|
        within.mono fun x eq => .inl (by simp [eq])
  have maps := filled.maps
  rw [PageMap.fill_nil] at maps
  refine ⟨t', Machine.bind_of_ok run, ?_, whole⟩
  exact {
    pool := pool
    maps := maps.congr fun x => entryAt_congr x fun h => within.kept _ (filled.pool.tree.frame h)
      fun eq => filled.pool.apart page (by simp) (eq ▸ ⟨_, _, h⟩)
    fresh := fun hx mem => space.fresh hx <| by
      rcases List.mem_cons.mp mem with rfl | mem
      · exact List.mem_cons_self
      · exact List.mem_cons_of_mem _ (filled.left _ mem)
    listed := space.listed_within whole }

variable (type) in
theorem Space.alloc_vma_refused (flags : perm < 2 ^ 9)
    (gives : answer s p node free nodes m addr sz = .refused) : ∃ t node' free',
      alloc_vma limit p type addr sz perm true 0 s = .ok (0, t) ∧
      Unmoved s t p node node' free free' nodes m := by
  have cases := placeOf_cases (firstPage addr * PGSIZE) (endPage addr sz * PGSIZE) space.listed
  simp only [answer] at gives
  rcases cases with ⟨front, back, y, place, -⟩ | ⟨b, member, place, -⟩ | place
  · simp only [place] at gives
    by_cases none : free = []
    · exact ⟨s, node, free, space.alloc_vma_empty enough place none, space, .refl s⟩
    · obtain ⟨page, rest, some⟩ := List.exists_cons_of_ne_nil none
      obtain ⟨u, pool, maps, taken, -, failed, -⟩ := space.alloc_vma_before enough type perm place
        some
      rw [if_neg none] at gives
      split at gives
      · cases gives
      · rename_i more
        obtain ⟨empty, range⟩ := mapArea_outcome addr pool maps flags more
        have count : free.length = rest.length + 1 := by rw [some, List.length_cons]
        split at gives
        · rename_i le
          have start : Filled u u p.pagetable node node rest rest (page :: p.vma :: nodes) m 0 []
              (fun _ => perm) fun _ _ => 0 := .start pool maps
          obtain ⟨t, back, same⟩ := space.alloc_vma_back some taken start
          exact ⟨t, node, _, (failed u (empty le)).trans back, same⟩
        · rename_i lt
          obtain ⟨short, -, -⟩ := range (Nat.not_le.mp lt)
          have less : rest.length < need node (firstPage addr)
              (clearPages m (firstPage addr) (endPage addr sz - firstPage addr)) +
              (if clearPages m (firstPage addr) (endPage addr sz - firstPage addr) <
                endPage addr sz - firstPage addr then 1 else 0) := by
            split at gives
            · rename_i below
              rw [if_pos below]
              split at gives
              · omega
              · cases gives
            · rename_i below
              rw [if_neg below]
              split at gives
              · omega
              · cases gives
          obtain ⟨t, node', free', run, filled⟩ := short less
          obtain ⟨t', back, same⟩ := space.alloc_vma_back some taken filled
          exact ⟨t', node', _, (failed t run).trans back, same⟩
  · simp only [place] at gives
    cases gives
  · refine ⟨s, node, free, ?_, space, .refl s⟩
    rw [space.alloc_vma_search enough, place]
    rfl

variable (type) in
theorem Space.alloc_vma_stuck (flags : perm < 2 ^ 9)
    (window : firstPage addr * PGSIZE &&& DMWIN_MASK = 0)
    (gives : answer s p node free nodes m addr sz = .stuck) :
    ∃ e, alloc_vma limit p type addr sz perm true 0 s = .error e := by
  have cases := placeOf_cases (firstPage addr * PGSIZE) (endPage addr sz * PGSIZE) space.listed
  simp only [answer] at gives
  rcases cases with ⟨front, back, y, place, -⟩ | ⟨b, member, place, -⟩ | place
  · simp only [place] at gives
    split_ifs at gives with none zero le below short
    obtain ⟨page, rest, some⟩ := List.exists_cons_of_ne_nil none
    obtain ⟨u, pool, maps, taken, error, -, -⟩ := space.alloc_vma_before enough type perm place
      some
    obtain ⟨-, range⟩ := mapArea_outcome addr pool maps flags zero
    obtain ⟨-, -, stops⟩ := range (Nat.not_le.mp le)
    have count : free.length = rest.length + 1 := by rw [some, List.length_cons]
    obtain ⟨e, run⟩ := stops below window (by omega)
    exact ⟨e, error e run⟩
  · simp only [place] at gives
    cases gives
  · simp only [place] at gives
    cases gives

theorem Space.alloc_vma_entered (flags : perm < 2 ^ 9) (types : type < 2 ^ 32) (small : addr < 2 ^ 64)
    (gives : answer s p node free nodes m addr sz = .entered) : ∃ page t node' free' nodes' frames,
      alloc_vma limit p type addr sz perm true 0 s = .ok (page, t) ∧
      Entered s t p node' free free' nodes nodes' m (firstPage addr) (endPage addr sz) page type perm
        frames ∧
      (sz = 0 → frames = [] ∧ node' = node ∧ free = page :: free') ∧
      (sz ≠ 0 → firstPage addr < endPage addr sz ∧ frames.length = endPage addr sz - firstPage addr) := by
  have cases := placeOf_cases (firstPage addr * PGSIZE) (endPage addr sz * PGSIZE) space.listed
  simp only [answer] at gives
  rcases cases with ⟨front, back, y, place, split, here, before, after⟩ | ⟨b, member, place, -⟩ | place
  · simp only [place] at gives
    have stock : free ≠ [] := by
      rintro empty
      rw [if_pos empty] at gives
      cases gives
    rw [if_neg stock] at gives
    obtain ⟨page, rest, some⟩ := List.exists_cons_of_ne_nil stock
    obtain ⟨u, pool, maps, taken, -, -, entered⟩ := space.alloc_vma_before enough type perm place
      some
    have member : y ∈ p.vma :: nodes := by
      subst split
      cases back with
      | nil => simp_all
      | cons z back => simp_all
    have ne : y ≠ page := fun same =>
      space.pool.free_disjoint_data (x := page) (by simp [some]) (same ▸ member)
    have starts : firstPage addr * PGSIZE < 2 ^ 64 := lt_of_le_of_lt (Nat.div_mul_le_self _ _) small
    -- from here on, the node with its pages
    have finish : ∀ t node' free' frames, mapArea p.pagetable addr sz perm u = .ok (0, t) →
        Filled u t p.pagetable node node' rest free' (page :: p.vma :: nodes) m (firstPage addr) frames
          (fun _ => perm) (fun _ _ => 0) →
        (∀ x, firstPage addr ≤ x → x < firstPage addr + frames.length → x * PGSIZE < MAXVA ∧ m x = none) →
        ∃ t nodes',
        alloc_vma limit p type addr sz perm true 0 s = .ok (page, t) ∧
        Entered s t p node' free free' nodes nodes' m (firstPage addr) (endPage addr sz) page type perm
          frames := by
      intro t node' free' frames run filled clear
      have whole : Within (fun x => x ∈ free ∨ node.Has x) s t :=
        (taken.mono fun x eq => .inl (by simp [eq, some])).trans <|
          filled.within.mono fun x h => h.imp_left fun mem => by simp [some, mem]
      have listed := space.listed_within whole
      refine ⟨_, front ++ page :: back, entered t run member ne listed, ?_⟩
      refine space.entered split here before after starts (endPage_small addr sz) types filled.pool
        filled.maps clear ?_ ?_ ?_ whole
      · intro frame mem j hj
        obtain ⟨i, hi, rfl⟩ := List.getElem_of_mem mem
        exact filled.content i hi j hj
      · intro frame mem
        simp [some, filled.source frame mem]
      · intro x mem
        simp [some, filled.left x mem]
    by_cases zero : sz = 0
    · obtain ⟨t, nodes', run, entered⟩ := finish u node rest [] (mapArea_zero _ _ zero)
        (.start pool maps) fun x le lt => absurd lt (by simpa using le)
      exact ⟨page, t, node, rest, nodes', [], run, entered, fun _ => ⟨rfl, rfl, some⟩, fun more => absurd zero more⟩
    · rw [if_neg zero] at gives
      split_ifs at gives with le below short enough
      obtain ⟨-, range⟩ := mapArea_outcome addr pool maps flags zero
      obtain ⟨-, whole, -⟩ := range (Nat.not_le.mp le)
      have count : free.length = rest.length + 1 := by rw [some, List.length_cons]
      have all : clearPages m (firstPage addr) (endPage addr sz - firstPage addr) =
          endPage addr sz - firstPage addr := Nat.le_antisymm clearPages_le (Nat.not_lt.mp below)
      obtain ⟨t, node', free', frames, run, length, filled⟩ := whole all (by omega)
      obtain ⟨t, nodes', run, entered⟩ := finish t node' free' frames run filled fun x low high =>
        clearPages_good low (by rw [all, ← length]; exact high)
      exact ⟨page, t, node', free', nodes', frames, run, entered, fun h => absurd h zero,
        fun _ => ⟨Nat.not_le.mp le, length⟩⟩
  · simp only [place] at gives
    cases gives
  · simp only [place] at gives
    cases gives

end Outcome

end AvxKernel.Exec
