import AvxKernel.Exec.Vma
import AvxKernel.Lib.Ring
import AvxKernel.Vm.Fill

/-! The list of areas as a whole: a ring of nodes in memory, sorted by address.
The search of `alloc_vma` reads it as a list, and a new node goes in where the
search stops. -/
namespace AvxKernel.Exec

open Vm

section Fields

variable (mem : Memory) (vma : Nat)

def areaType : Nat := mem.fetch vma 4
def areaAddr : Nat := mem.fetch (vma + 8) 8
def areaEnd : Nat := mem.fetch (vma + 24) 8

/-- The links of the nodes. -/
def links : Links Nat where
  next := fun vma => mem.fetch (vma + 56) 8
  prev := fun vma => mem.fetch (vma + 48) 8

end Fields

variable {mem mem' : Memory} {head a b x y start stop : Nat} {nodes front back : List Nat}
  {s t : Ram}

/-- The nodes of a list of areas, in order. -/
structure Listed (mem : Memory) (head : Nat) (nodes : List Nat) : Prop where
  ring : (links mem).Ring head nodes
  aligned : ∀ a ∈ nodes, PGSIZE ∣ areaAddr mem a ∧ PGSIZE ∣ areaEnd mem a ∧
    areaAddr mem a ≤ areaEnd mem a
  sorted : nodes.Pairwise fun a b => areaEnd mem a ≤ areaAddr mem b

/-! ### Reading and writing nodes -/

theorem peek_run (frame : Frame a) {i w : Nat} (hi : i < PGSIZE) :
    peek (a + i) w s = .ok (s.mem.fetch (a + i) w, s) := by
  rw [peek, Machine.bind_of_ok (Machine.get_run s), if_pos (mapped_frame frame hi), Machine.pure_run]

theorem poke_run (frame : Frame a) {i w v : Nat} (hi : i < PGSIZE) :
    poke (a + i) w v s = .ok ((), s.setMem (s.mem.store (a + i) w v)) := by
  rw [poke, Machine.bind_of_ok (Machine.get_run s), if_pos (mapped_frame frame hi)]
  rfl

theorem vma_type_run (frame : Frame a) : vma_type a s = .ok (areaType s.mem a, s) := by
  have run : peek (a + 0) 4 s = _ := peek_run frame (by decide)
  exact run

theorem vma_addr_run (frame : Frame a) : vma_addr a s = .ok (areaAddr s.mem a, s) := by
  have run : peek (a + 8) 8 s = _ := peek_run frame (by decide)
  exact run

theorem vma_end_run (frame : Frame a) : vma_end a s = .ok (areaEnd s.mem a, s) := by
  have run : peek (a + 24) 8 s = _ := peek_run frame (by decide)
  exact run

theorem vma_next_run (frame : Frame a) : vma_next a s = .ok ((links s.mem).next a, s) := by
  have run : peek (a + 56) 8 s = _ := peek_run frame (by decide)
  exact run

theorem vma_prev_run (frame : Frame a) : vma_prev a s = .ok ((links s.mem).prev a, s) := by
  have run : peek (a + 48) 8 s = _ := peek_run frame (by decide)
  exact run

/-- A field of a page keeps its value when another field, or another page, is
written. -/
theorem fetch_store_field (ha : Frame a) (hb : Frame b) {i j v w u : Nat} (hi : i + w ≤ PGSIZE)
    (hj : j + u ≤ PGSIZE) (apart : a ≠ b ∨ i + w ≤ j ∨ j + u ≤ i) :
    (mem.store (b + j) u v).fetch (a + i) w = mem.fetch (a + i) w := by
  refine Memory.fetch_congr fun k hk => Memory.store_outside _ ?_
  rcases apart with ne | apart
  · have out := ha.disjoint hb ne (i := a + i + k) ⟨by omega, by omega⟩
    omega
  · by_cases same : a = b
    · omega
    · have out := ha.disjoint hb same (i := a + i + k) ⟨by omega, by omega⟩
      omega

section Stores

variable (ha : Frame a) (hx : Frame x)
include ha hx

theorem next_store_next {v : Nat} (small : v < 2 ^ 64) :
    (links (mem.store (a + 56) 8 v)).next x = if x = a then v else (links mem).next x := by
  split
  · subst a
    exact Memory.fetch_store_same _ small
  · exact fetch_store_field hx ha (by decide) (by decide) (.inl ‹_›)

theorem prev_store_next {v : Nat} :
    (links (mem.store (a + 56) 8 v)).prev x = (links mem).prev x :=
  fetch_store_field hx ha (by decide) (by decide) (.inr (.inl (by decide)))

theorem prev_store_prev {v : Nat} (small : v < 2 ^ 64) :
    (links (mem.store (a + 48) 8 v)).prev x = if x = a then v else (links mem).prev x := by
  split
  · subst a
    exact Memory.fetch_store_same _ small
  · exact fetch_store_field hx ha (by decide) (by decide) (.inl ‹_›)

theorem next_store_prev {v : Nat} :
    (links (mem.store (a + 48) 8 v)).next x = (links mem).next x :=
  fetch_store_field hx ha (by decide) (by decide) (.inr (.inr (by decide)))

end Stores

/-- The assignments that put a node before another. -/
def linkBefore (mem : Memory) (vma find_vma : Nat) : Memory :=
  let mem := mem.store (vma + 48) 8 ((links mem).prev find_vma)
  let mem := mem.store (vma + 56) 8 find_vma
  let mem := mem.store ((links mem).prev find_vma + 56) 8 vma
  mem.store (find_vma + 48) 8 vma

section LinkBefore

variable (ha : Frame a) (hy : Frame y) (hp : Frame ((links mem).prev y)) (ne : y ≠ a)
include ha hy hp ne

theorem links_linkBefore (hx : Frame x) :
    (links (linkBefore mem a y)).next x = ((links mem).insertBefore a y).next x ∧
      (links (linkBefore mem a y)).prev x = ((links mem).insertBefore a y).prev x := by
  have la := ha.lt
  have ly := hy.lt
  have lp := hp.lt
  have same : (links ((mem.store (a + 48) 8 ((links mem).prev y)).store (a + 56) 8 y)).prev y =
      (links mem).prev y := by
    rw [prev_store_next ha hy, prev_store_prev ha hy lp, if_neg ne]
  simp only [linkBefore, Links.insertBefore, same]
  constructor
  · rw [next_store_prev hy hx, next_store_next hp hx la, next_store_next ha hx ly,
      next_store_prev ha hx]
    simp [ne]
  · rw [prev_store_prev hy hx la, prev_store_next hp hx, prev_store_next ha hx,
      prev_store_prev ha hx lp]
    simp

/-- Nothing but links changes. -/
theorem fetch_linkBefore (hx : Frame x) {i w : Nat} (low : i + w ≤ 48) :
    (linkBefore mem a y).fetch (x + i) w = mem.fetch (x + i) w := by
  have la := ha.lt
  have same : (links ((mem.store (a + 48) 8 ((links mem).prev y)).store (a + 56) 8 y)).prev y =
      (links mem).prev y := by
    rw [prev_store_next ha hy, prev_store_prev ha hy hp.lt, if_neg ne]
  have page : 64 ≤ PGSIZE := by decide
  simp only [linkBefore, same]
  rw [fetch_store_field hx hy (by omega) (by omega) (.inr (.inl low)),
    fetch_store_field hx hp (by omega) (by omega) (.inr (.inl (by omega))),
    fetch_store_field hx ha (by omega) (by omega) (.inr (.inl (by omega))),
    fetch_store_field hx ha (by omega) (by omega) (.inr (.inl low))]

theorem linkBefore_outside {i : Nat} (at_a : i < a ∨ a + PGSIZE ≤ i)
    (at_p : i < (links mem).prev y ∨ (links mem).prev y + PGSIZE ≤ i)
    (at_y : i < y ∨ y + PGSIZE ≤ i) : linkBefore mem a y i = mem i := by
  have same : (links ((mem.store (a + 48) 8 ((links mem).prev y)).store (a + 56) 8 y)).prev y =
      (links mem).prev y := by
    rw [prev_store_next ha hy, prev_store_prev ha hy hp.lt, if_neg ne]
  have page : 64 ≤ PGSIZE := by decide
  simp only [linkBefore, same]
  rw [Memory.store_outside _ (by omega), Memory.store_outside _ (by omega),
    Memory.store_outside _ (by omega), Memory.store_outside _ (by omega)]

end LinkBefore

/-! ### The list as a whole -/

theorem fetch_kept (same : ∀ i < PGSIZE, mem' (a + i) = mem (a + i)) {i w : Nat}
    (hi : i + w ≤ PGSIZE) : mem'.fetch (a + i) w = mem.fetch (a + i) w := by
  refine Memory.fetch_congr fun k hk => ?_
  rw [Nat.add_assoc]
  exact same _ (by omega)

/-- The list is in the pages of its nodes. -/
theorem Listed.congr (listed : Listed mem head nodes)
    (same : ∀ a ∈ head :: nodes, ∀ i < PGSIZE, mem' (a + i) = mem (a + i)) :
    Listed mem' head nodes := by
  have field (a : Nat) (ha : a ∈ nodes) : areaAddr mem' a = areaAddr mem a ∧
      areaEnd mem' a = areaEnd mem a :=
    ⟨fetch_kept (same a (by simp [ha])) (by decide), fetch_kept (same a (by simp [ha])) (by decide)⟩
  refine ⟨listed.ring.congr ?_ ?_, fun a ha => ?_, listed.sorted.imp_of_mem fun ha hb le => ?_⟩
  · exact fun a ha => fetch_kept (same a ha) (by decide)
  · exact fun a ha => fetch_kept (same a ha) (by decide)
  · rw [(field a ha).1, (field a ha).2]
    exact listed.aligned a ha
  · rwa [(field _ ha).2, (field _ hb).1]

/-- A node that fits goes in between. -/
theorem Listed.linkBefore (listed : Listed mem head (front ++ back))
    (here : (back ++ [head]).head? = some y) (fresh : a ∉ head :: (front ++ back))
    (frames : ∀ x ∈ head :: (front ++ back), Frame x) (ha : Frame a)
    (aligned : PGSIZE ∣ areaAddr mem a ∧ PGSIZE ∣ areaEnd mem a ∧ areaAddr mem a ≤ areaEnd mem a)
    (before : ∀ b ∈ front, areaEnd mem b ≤ areaAddr mem a)
    (after : ∀ b ∈ back, areaEnd mem a ≤ areaAddr mem b) :
    Listed (linkBefore mem a y) head (front ++ a :: back) := by
  have member : y ∈ head :: (front ++ back) := by
    cases back with
    | nil => simp_all
    | cons z back => simp_all
  have hy := frames y member
  have hp := frames _ (listed.ring.prev_mem member)
  have ne : y ≠ a := fun same => fresh (same ▸ member)
  have frame (x : Nat) (hx : x ∈ front ++ a :: back) : Frame x := by
    rcases List.mem_append.mp hx with mem | mem
    · exact frames x (by simp [mem])
    · rcases List.mem_cons.mp mem with rfl | mem
      · exact ha
      · exact frames x (by simp [mem])
  have frame' (x : Nat) (hx : x ∈ head :: (front ++ a :: back)) : Frame x :=
    (List.mem_cons.mp hx).elim (fun same => same ▸ frames head (by simp)) (frame x)
  have addr (x : Nat) (hx : x ∈ front ++ a :: back) :
      areaAddr (Exec.linkBefore mem a y) x = areaAddr mem x :=
    fetch_linkBefore ha hy hp ne (frame x hx) (by decide)
  have stop (x : Nat) (hx : x ∈ front ++ a :: back) :
      areaEnd (Exec.linkBefore mem a y) x = areaEnd mem x :=
    fetch_linkBefore ha hy hp ne (frame x hx) (by decide)
  constructor
  · refine (listed.ring.insertBefore here fresh).congr (fun x hx => ?_) fun x hx => ?_
    · exact (links_linkBefore ha hy hp ne (frame' x hx)).1
    · exact (links_linkBefore ha hy hp ne (frame' x hx)).2
  · intro x hx
    rw [addr x hx, stop x hx]
    rcases List.mem_append.mp hx with mem | mem
    · exact listed.aligned x (by simp [mem])
    · rcases List.mem_cons.mp mem with rfl | mem
      · exact aligned
      · exact listed.aligned x (by simp [mem])
  · have sorted : (front ++ a :: back).Pairwise fun a b => areaEnd mem a ≤ areaAddr mem b := by
      obtain ⟨left, right, across⟩ := List.pairwise_append.mp listed.sorted
      refine List.pairwise_append.mpr ⟨left, List.pairwise_cons.mpr ⟨after, right⟩, ?_⟩
      intro b hb c hc
      rcases List.mem_cons.mp hc with rfl | hc
      · exact before b hb
      · exact across b hb c hc
    refine sorted.imp_of_mem fun {b c} hb hc le => ?_
    rwa [stop b hb, addr c hc]

/-! ### Searching the list -/

/-- Where the search for a range stops, among the nodes that are left. -/
def placeOf (mem : Memory) (head start stop : Nat) : List Nat → Place
  | [] => .before head
  | vma :: rest =>
    if stop ≤ areaAddr mem vma then
      .before vma
    else if areaEnd mem vma ≤ start then
      placeOf mem head start stop rest
    else if areaAddr mem vma ≤ start ∧ stop ≤ areaEnd mem vma then
      .inside vma
    else
      .overlap

section Search

variable {limit : Nat} (listed : Listed s.mem head nodes) (frames : ∀ x ∈ head :: nodes, Frame x)
  (enough : nodes.length < limit)
include listed frames enough

omit frames in
/-- A loop that reads one node after the other, up to the head. -/
theorem loop_nodes {α : Type} {body : Nat → Machine Ram (Nat ⊕ α)} {result : List Nat → α}
    (last : body head s = .ok (.inr (result []), s))
    (round : ∀ vma rest, vma ∈ nodes → vma ≠ head → body vma s = .ok (.inr (result (vma :: rest)), s) ∨
      body vma s = .ok (.inl ((links s.mem).next vma), s) ∧ result (vma :: rest) = result rest) :
    Machine.loop body limit ((links s.mem).next head) s = .ok (result nodes, s) := by
  have rest : ∀ rest a limit, (links s.mem).Segment a rest head → head ∉ rest →
      (∀ x ∈ rest, x ∈ nodes) → rest.length < limit →
      Machine.loop body limit ((links s.mem).next a) s = .ok (result rest, s) := by
    intro rest
    induction rest with
    | nil =>
      rintro a (_ | limit) segment - - lt
      · simp at lt
      · rw [Machine.loop, segment.1, Machine.bind_of_ok last]
        rfl
    | cons vma rest ih =>
      rintro a (_ | limit) segment apart inside lt
      · simp at lt
      · obtain ⟨ne, away⟩ := List.ne_and_not_mem_of_not_mem_cons apart
        rw [Machine.loop, segment.1]
        rcases round vma rest (inside vma (by simp)) (Ne.symm ne) with found | ⟨more, same⟩
        · rw [Machine.bind_of_ok found]
          rfl
        · rw [Machine.bind_of_ok more, same]
          exact ih vma limit segment.2.2 away (fun x hx => inside x (by simp [hx])) (by simpa using lt)
  exact rest nodes head limit listed.ring.segment (List.nodup_cons.mp listed.ring.nodup).1
    (fun x hx => hx) enough

theorem findPlace_run :
    findPlace limit head start stop s = .ok (placeOf s.mem head start stop nodes, s) := by
  rw [findPlace, Machine.bind_of_ok (vma_next_run (frames head (by simp)))]
  refine loop_nodes listed enough (by rw [if_pos rfl]; rfl) fun vma rest member ne => ?_
  have frame := frames vma (List.mem_cons_of_mem _ member)
  simp only [placeOf, if_neg ne, Machine.bind_of_ok (vma_addr_run frame)]
  split
  · exact .inl rfl
  · simp only [Machine.bind_of_ok (vma_end_run frame)]
    split
    · exact .inr ⟨Machine.bind_of_ok (vma_next_run frame), rfl⟩
    · simp only [Machine.bind_of_ok (vma_addr_run frame), Machine.bind_of_ok (vma_end_run frame)]
      split
      · exact .inl rfl
      · exact .inl rfl

/-- The first area that `mmap` made, or 0. -/
def firstMmap (mem : Memory) (nodes : List Nat) : Nat :=
  (nodes.find? fun vma => areaType mem vma = MMAP).getD 0

theorem find_mmap_vma_run : find_mmap_vma limit head s = .ok (firstMmap s.mem nodes, s) := by
  rw [find_mmap_vma, Machine.bind_of_ok (vma_next_run (frames head (by simp)))]
  refine loop_nodes listed enough (by rw [if_pos rfl]; rfl) fun vma rest member ne => ?_
  have frame := frames vma (List.mem_cons_of_mem _ member)
  simp only [if_neg ne, Machine.bind_of_ok (vma_type_run frame)]
  split
  · rename_i found
    rw [firstMmap, List.find?_cons_of_pos (by simpa using found)]
    exact .inl rfl
  · rename_i other
    rw [firstMmap, List.find?_cons_of_neg (by simpa using other)]
    exact .inr ⟨Machine.bind_of_ok (vma_next_run frame), rfl⟩

end Search

variable (start stop) in
/-- The place that a search finds for a range, in a sorted list. -/
theorem placeOf_cases (listed : Listed mem head nodes) :
    (∃ front back y, placeOf mem head start stop nodes = .before y ∧ nodes = front ++ back ∧
      (back ++ [head]).head? = some y ∧ (∀ b ∈ front, areaEnd mem b ≤ start) ∧
      ∀ b ∈ back, stop ≤ areaAddr mem b) ∨
    (∃ a ∈ nodes, placeOf mem head start stop nodes = .inside a ∧ areaAddr mem a ≤ start ∧
      stop ≤ areaEnd mem a) ∨
    placeOf mem head start stop nodes = .overlap := by
  have ordered : ∀ a ∈ nodes, areaAddr mem a ≤ areaEnd mem a := fun a ha => (listed.aligned a ha).2.2
  have sorted := listed.sorted
  clear listed
  induction nodes with
  | nil => exact .inl ⟨[], [], head, rfl, rfl, rfl, by simp, by simp⟩
  | cons vma rest ih =>
    obtain ⟨later, sorted⟩ := List.pairwise_cons.mp sorted
    rw [placeOf]
    split
    · rename_i before
      refine .inl ⟨[], vma :: rest, vma, rfl, rfl, rfl, by simp, fun b hb => ?_⟩
      rcases List.mem_cons.mp hb with rfl | hb
      · exact before
      · exact before.trans ((ordered vma (by simp)).trans (later b hb))
    · split
      · rename_i after
        rcases ih (fun a ha => ordered a (by simp [ha])) sorted with
          ⟨front, back, y, found, rfl, here, left, right⟩ | ⟨a, ha, found⟩ | found
        · refine .inl ⟨vma :: front, back, y, found, rfl, here, fun b hb => ?_, right⟩
          rcases List.mem_cons.mp hb with rfl | hb
          · exact after
          · exact left b hb
        · exact .inr (.inl ⟨a, by simp [ha], found⟩)
        · exact .inr (.inr found)
      · split
        · rename_i inside
          exact .inr (.inl ⟨vma, by simp, rfl, inside⟩)
        · exact .inr (.inr rfl)

/-! ### Entering a node -/

/-- The assignments to the fields of a new node. -/
def newArea (mem : Memory) (vma type start sz perm stop : Nat) : Memory :=
  let mem := mem.store (vma + 8) 8 start
  let mem := mem.store (vma + 16) 8 sz
  let mem := mem.store (vma + 4) 4 perm
  let mem := mem.store (vma + 24) 8 stop
  let mem := mem.store (vma + 36) 4 (intBits (-1))
  let mem := mem.store (vma + 40) 8 0
  mem.store vma 4 type

section Enter

variable {type sz perm : Nat} (ha : Frame a)

theorem newArea_outside {i : Nat} (out : i < a ∨ a + PGSIZE ≤ i) :
    newArea mem a type start sz perm stop i = mem i := by
  have page : 64 ≤ PGSIZE := by decide
  simp only [newArea]
  iterate 7 rw [Memory.store_outside _ (by omega)]

include ha

theorem newArea_other (hx : Frame x) (ne : x ≠ a) {i w : Nat} (hi : i + w ≤ PGSIZE) :
    (newArea mem a type start sz perm stop).fetch (x + i) w = mem.fetch (x + i) w :=
  fetch_kept (fun j hj => newArea_outside (hx.disjoint ha ne ⟨by omega, by omega⟩)) hi

omit ha in
variable (mem a sz perm) in
theorem newArea_fields (types : type < 2 ^ 32) (starts : start < 2 ^ 64) (stops : stop < 2 ^ 64) :
    areaType (newArea mem a type start sz perm stop) a = type ∧
      areaAddr (newArea mem a type start sz perm stop) a = start ∧
      areaEnd (newArea mem a type start sz perm stop) a = stop := by
  refine ⟨Memory.fetch_store_same _ types, ?_, ?_⟩
  · simp only [newArea, areaAddr]
    iterate 6 rw [Memory.fetch_store_other _ (by omega)]
    exact Memory.fetch_store_same _ starts
  · simp only [newArea, areaEnd]
    iterate 3 rw [Memory.fetch_store_other _ (by omega)]
    exact Memory.fetch_store_same _ stops

theorem newArea_run {α : Type} (k : Machine Ram α) :
    (do
      poke (a + 8) 8 start
      poke (a + 16) 8 sz
      poke (a + 4) 4 perm
      poke (a + 24) 8 stop
      poke (a + 36) 4 (intBits (-1))
      poke (a + 40) 8 0
      poke a 4 type
      k : Machine Ram α) s = k (s.setMem (newArea s.mem a type start sz perm stop)) := by
  have first (u : Ram) : poke a 4 type u = .ok ((), u.setMem (u.mem.store a 4 type)) :=
    poke_run ha (i := 0) (by decide)
  rw [Machine.bind_of_ok (poke_run ha (by decide)), Machine.bind_of_ok (poke_run ha (by decide)),
    Machine.bind_of_ok (poke_run ha (by decide)), Machine.bind_of_ok (poke_run ha (by decide)),
    Machine.bind_of_ok (poke_run ha (by decide)), Machine.bind_of_ok (poke_run ha (by decide)),
    Machine.bind_of_ok (first _)]
  rfl

theorem linkBefore_run {α : Type} (hy : Frame y) (hp : Frame ((links s.mem).prev y)) (ne : y ≠ a)
    (k : Machine Ram α) :
    (do
      poke (a + 48) 8 (← vma_prev y)
      poke (a + 56) 8 y
      poke ((← vma_prev y) + 56) 8 a
      poke (y + 48) 8 a
      k : Machine Ram α) s = k (s.setMem (linkBefore s.mem a y)) := by
  have again : (links ((s.mem.store (a + 48) 8 ((links s.mem).prev y)).store (a + 56) 8 y)).prev y =
      (links s.mem).prev y := by
    rw [prev_store_next ha hy, prev_store_prev ha hy hp.lt, if_neg ne]
  have read := vma_prev_run (s := s.setMem ((s.mem.store (a + 48) 8 ((links s.mem).prev y)).store
    (a + 56) 8 y)) hy
  rw [Ram.setMem_mem, again] at read
  rw [Machine.bind_of_ok (vma_prev_run hy), Machine.bind_of_ok (poke_run ha (by decide)),
    Machine.bind_of_ok (poke_run ha (by decide))]
  simp only [Ram.setMem_mem, Ram.setMem_setMem]
  rw [Machine.bind_of_ok read, Machine.bind_of_ok (poke_run hp (by decide)),
    Machine.bind_of_ok (poke_run hy (by decide))]
  simp only [Ram.setMem_mem, Ram.setMem_setMem, linkBefore, again]

end Enter

end AvxKernel.Exec
