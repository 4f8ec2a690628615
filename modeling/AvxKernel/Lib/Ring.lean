import Mathlib.Data.List.Induction
import Mathlib.Data.List.Nodup
import Mathlib.Data.Option.Basic
import Mathlib.Logic.Function.Basic
import Mathlib.Tactic.SplitIfs

/-! Circular doubly linked lists threaded through `next` and `prev` pointers,
with one distinguished head node. The pointer assignments are the ones of the
usual C idiom; `Links.Ring` says which list of nodes they represent, and every
operation is shown to represent the corresponding operation on lists. -/
namespace AvxKernel

structure Links (α : Type) where
  next : α → α
  prev : α → α

namespace Links

variable {α : Type}

/-- The segment that leads from `a` through the nodes of a list to `b`. -/
def Segment (L : Links α) (a : α) : List α → α → Prop
  | [], b => L.next a = b ∧ L.prev b = a
  | x :: rest, b => L.next a = x ∧ L.prev x = a ∧ L.Segment x rest b

structure Ring (L : Links α) (head : α) (nodes : List α) : Prop where
  segment : L.Segment head nodes head
  nodup : (head :: nodes).Nodup

theorem segment_append (L : Links α) (a x b : α) (front back : List α) :
    L.Segment a (front ++ x :: back) b ↔ L.Segment a front x ∧ L.Segment x back b := by
  induction front generalizing a with
  | nil => simp only [List.nil_append, Segment, and_assoc]
  | cons y front ih => simp only [List.cons_append, Segment, ih, and_assoc]

theorem segment_congr {L L' : Links α} {a b : α} {nodes : List α}
    (next : ∀ x ∈ a :: nodes, L'.next x = L.next x)
    (prev : ∀ x ∈ nodes ++ [b], L'.prev x = L.prev x)
    (h : L.Segment a nodes b) : L'.Segment a nodes b := by
  induction nodes generalizing a with
  | nil =>
    obtain ⟨hn, hp⟩ := h
    exact ⟨(next a (by simp)).trans hn, (prev b (by simp)).trans hp⟩
  | cons x rest ih =>
    obtain ⟨hn, hp, hrest⟩ := h
    refine ⟨(next a (by simp)).trans hn, (prev x (by simp)).trans hp, ih ?_ ?_ hrest⟩
    · exact fun y hy => next y (List.mem_cons_of_mem _ hy)
    · exact fun y hy => prev y (by simp only [List.cons_append]; exact List.mem_cons_of_mem _ hy)

theorem segment_next_head {L : Links α} {a b : α} {nodes : List α} (h : L.Segment a nodes b) :
    (nodes ++ [b]).head? = some (L.next a) := by
  cases nodes with
  | nil => simp [h.1]
  | cons x rest => simp [h.1]

theorem segment_next_mem {L : Links α} {a b : α} {nodes : List α} (h : L.Segment a nodes b) :
    L.next a ∈ nodes ++ [b] := by
  cases nodes with
  | nil => simp [h.1]
  | cons x rest => simp [h.1]

theorem segment_prev_mem {L : Links α} {a b : α} {nodes : List α} (h : L.Segment a nodes b) :
    L.prev b ∈ a :: nodes := by
  induction nodes generalizing a with
  | nil => simp [h.2]
  | cons x rest ih => exact List.mem_cons_of_mem _ (ih h.2.2)

theorem Ring.congr {L L' : Links α} {head : α} {nodes : List α} (h : L.Ring head nodes)
    (next : ∀ x ∈ head :: nodes, L'.next x = L.next x)
    (prev : ∀ x ∈ head :: nodes, L'.prev x = L.prev x) : L'.Ring head nodes where
  segment := segment_congr next (fun x mem => prev x (by simpa [or_comm] using mem)) h.segment
  nodup := h.nodup

theorem Ring.prev_mem {L : Links α} {head x : α} {nodes : List α} (h : L.Ring head nodes)
    (member : x ∈ head :: nodes) : L.prev x ∈ head :: nodes := by
  rcases List.mem_cons.mp member with rfl | inside
  · exact segment_prev_mem h.segment
  · obtain ⟨front, back, rfl⟩ := List.append_of_mem inside
    have before := segment_prev_mem ((segment_append L head x head front back).mp h.segment).1
    rcases List.mem_cons.mp before with eq | mem
    · simp [eq]
    · simp [mem]

section Traversal

variable [DecidableEq α]

/-- Follow `next` until the head comes round again; the count bounds the loop. -/
def forwardFrom (L : Links α) (head : α) : Nat → α → List α
  | 0, _ => []
  | n + 1, a => if a = head then [] else a :: L.forwardFrom head n (L.next a)

def backwardFrom (L : Links α) (head : α) : Nat → α → List α
  | 0, _ => []
  | n + 1, a => if a = head then [] else a :: L.backwardFrom head n (L.prev a)

/-- The nodes in the order of `for (x = head.next; x != &head; x = x->next)`. -/
def forward (L : Links α) (head : α) (bound : Nat) : List α :=
  L.forwardFrom head bound (L.next head)

/-- The nodes in the order of `for (x = head.prev; x != &head; x = x->prev)`. -/
def backward (L : Links α) (head : α) (bound : Nat) : List α :=
  L.backwardFrom head bound (L.prev head)

theorem forwardFrom_segment {L : Links α} {head a : α} {nodes : List α} {bound : Nat}
    (h : L.Segment a nodes head) (fresh : head ∉ nodes) (enough : nodes.length ≤ bound) :
    L.forwardFrom head bound (L.next a) = nodes := by
  induction nodes generalizing a bound with
  | nil =>
    cases bound with
    | zero => rfl
    | succ n => simp [forwardFrom, h.1]
  | cons x rest ih =>
    obtain ⟨hn, _, hrest⟩ := h
    obtain ⟨hx, hfresh⟩ := List.ne_and_not_mem_of_not_mem_cons fresh
    cases bound with
    | zero => simp at enough
    | succ n =>
      have tail := ih hrest hfresh (by simpa using enough)
      simp only [hn, forwardFrom, if_neg (Ne.symm hx), tail]

theorem backwardFrom_segment {L : Links α} {head b : α} {nodes : List α} {bound : Nat}
    (h : L.Segment head nodes b) (fresh : head ∉ nodes) (enough : nodes.length ≤ bound) :
    L.backwardFrom head bound (L.prev b) = nodes.reverse := by
  induction nodes using List.reverseRecOn generalizing b bound with
  | nil =>
    cases bound with
    | zero => rfl
    | succ n => simp [backwardFrom, h.2]
  | append_singleton front x ih =>
    obtain ⟨hfront, hx⟩ := (L.segment_append head x b front []).mp h
    have hfresh : head ∉ front := fun hm => fresh (List.mem_append_left _ hm)
    have hne : x ≠ head := fun he => fresh (by simp [he])
    cases bound with
    | zero => simp at enough
    | succ n =>
      have tail := ih hfront hfresh (by simpa using enough)
      simp only [hx.2, backwardFrom, if_neg hne, tail, List.reverse_append,
        List.reverse_singleton, List.singleton_append]

theorem Ring.forward_eq {L : Links α} {head : α} {nodes : List α} (h : L.Ring head nodes)
    {bound : Nat} (enough : nodes.length ≤ bound) : L.forward head bound = nodes :=
  forwardFrom_segment h.segment (List.nodup_cons.mp h.nodup).1 enough

/-- The pointers determine the list. -/
theorem Ring.unique {L : Links α} {head : α} {nodes nodes' : List α} (h : L.Ring head nodes)
    (h' : L.Ring head nodes') : nodes = nodes' :=
  (h.forward_eq (Nat.le_max_left nodes.length nodes'.length)).symm.trans
    (h'.forward_eq (Nat.le_max_right nodes.length nodes'.length))

theorem Ring.backward_eq {L : Links α} {head : α} {nodes : List α} (h : L.Ring head nodes)
    {bound : Nat} (enough : nodes.length ≤ bound) : L.backward head bound = nodes.reverse :=
  backwardFrom_segment h.segment (List.nodup_cons.mp h.nodup).1 enough

end Traversal

section Update

variable [DecidableEq α]

def setNext (L : Links α) (a b : α) : Links α := { L with next := Function.update L.next a b }

def setPrev (L : Links α) (a b : α) : Links α := { L with prev := Function.update L.prev a b }

@[simp] theorem setNext_prev (L : Links α) (a b : α) : (L.setNext a b).prev = L.prev := rfl

@[simp] theorem setPrev_next (L : Links α) (a b : α) : (L.setPrev a b).next = L.next := rfl

@[simp] theorem setNext_next (L : Links α) (a b x : α) :
    (L.setNext a b).next x = if x = a then b else L.next x := by
  simp only [setNext, Function.update_apply]

@[simp] theorem setPrev_prev (L : Links α) (a b x : α) :
    (L.setPrev a b).prev x = if x = a then b else L.prev x := by
  simp only [setPrev, Function.update_apply]

/-- `head.next = head.prev = &head`. -/
def closed (L : Links α) (head : α) : Links α := (L.setPrev head head).setNext head head

/-- `x->next->prev = x->prev; x->prev->next = x->next;` -/
def unlink (L : Links α) (x : α) : Links α :=
  let L := L.setPrev (L.next x) (L.prev x)
  L.setNext (L.prev x) (L.next x)

/-- `x->next = head.next; x->prev = &head; head.next->prev = x; head.next = x;` -/
def pushFront (L : Links α) (head x : α) : Links α :=
  let L := L.setNext x (L.next head)
  let L := L.setPrev x head
  let L := L.setPrev (L.next head) x
  L.setNext head x

def moveToFront (L : Links α) (head x : α) : Links α := (L.unlink x).pushFront head x

/-- `x->prev = y->prev; x->next = y; y->prev->next = x; y->prev = x;` -/
def insertBefore (L : Links α) (x y : α) : Links α :=
  let L := L.setPrev x (L.prev y)
  let L := L.setNext x y
  let L := L.setNext (L.prev y) x
  L.setPrev y x

theorem closed_ring (L : Links α) (head : α) : (L.closed head).Ring head [] where
  segment := by simp [closed, Segment]
  nodup := by simp

theorem Ring.pushFront {L : Links α} {head x : α} {nodes : List α} (h : L.Ring head nodes)
    (fresh : x ∉ head :: nodes) : (L.pushFront head x).Ring head (x :: nodes) := by
  obtain ⟨hx, hxn⟩ := List.ne_and_not_mem_of_not_mem_cons fresh
  obtain ⟨hhead, hnodes⟩ := List.nodup_cons.mp h.nodup
  have nodup : (head :: x :: nodes).Nodup := by
    simp only [List.nodup_cons, List.mem_cons, not_or]
    exact ⟨⟨Ne.symm hx, hhead⟩, hxn, hnodes⟩
  refine ⟨?_, nodup⟩
  cases nodes with
  | nil =>
    have hn : L.next head = head := h.segment.1
    simp [Links.pushFront, Segment, hn, hx, Ne.symm hx]
  | cons y rest =>
    obtain ⟨hn, hp, hrest⟩ := h.segment
    simp only [List.mem_cons, not_or, List.nodup_cons] at hhead hxn hnodes
    refine ⟨by simp [Links.pushFront], ?_, ?_, ?_, segment_congr ?_ ?_ hrest⟩
    · simp [Links.pushFront, hn, Ne.symm hx, hxn.1]
    · simp [Links.pushFront, hn, hx, Ne.symm hx]
    · simp [Links.pushFront, hn, Ne.symm hx]
    · intro z hz
      have h₁ : z ≠ head := by rintro rfl; simp_all
      have h₂ : z ≠ x := by rintro rfl; simp_all
      simp [Links.pushFront, h₁, h₂]
    · intro z hz
      have h₁ : z ≠ y := by rintro rfl; simp_all
      have h₂ : z ≠ x := by rintro rfl; simp_all
      simp [Links.pushFront, hn, h₁, h₂, Ne.symm hx]

theorem segment_unlink {L : Links α} {a x b : α} {front back : List α}
    (hfront : L.Segment a front x) (hback : L.Segment x back b)
    (starts : (a :: (front ++ x :: back)).Nodup) (ends : b ∉ front ++ x :: back) :
    (L.unlink x).Segment a (front ++ back) b := by
  have distinct : ∀ z ∈ a :: front, z ≠ x := by
    rintro z hz rfl
    simp only [List.nodup_cons, List.nodup_append, List.mem_append, List.mem_cons] at starts hz
    rcases hz with rfl | hz
    · exact starts.1 (.inr (.inl rfl))
    · exact starts.2.2.2 z hz z (.inl rfl) rfl
  have hnx : L.next x ≠ x := by
    intro he
    have := segment_next_mem hback
    simp_all [List.nodup_append]
  induction front generalizing a with
  | nil =>
    obtain ⟨ha, hp⟩ := hfront
    have hax : a ≠ x := distinct a (by simp)
    cases back with
    | nil =>
      have hb : L.next x = b := hback.1
      have hbx : b ≠ x := by rintro rfl; exact hnx hb
      simp [unlink, Segment, hb, hp, Ne.symm hbx]
    | cons y rest =>
      obtain ⟨hy, _, hrest⟩ := hback
      simp only [List.nil_append, List.nodup_cons, List.mem_cons, not_or] at starts ends
      refine ⟨?_, ?_, segment_congr ?_ ?_ hrest⟩
      · simp [unlink, hy, hp, starts.2.1.1]
      · simp [unlink, hy, hp]
      · intro z hz
        have hza : z ≠ a := by rintro rfl; simp_all
        simp [unlink, hp, hy, hza, starts.2.1.1]
      · intro z hz
        have hzy : z ≠ y := by rintro rfl; simp_all
        simp [unlink, hy, hzy]
  | cons z front ih =>
    obtain ⟨ha, hz, hfront⟩ := hfront
    have starts' : (z :: (front ++ x :: back)).Nodup := (List.nodup_cons.mp starts).2
    have ends' : b ∉ front ++ x :: back := fun hm => ends (List.mem_cons_of_mem _ hm)
    have tail := ih hfront starts' ends' (fun w hw => distinct w (List.mem_cons_of_mem _ hw))
    have hprev := segment_prev_mem hfront
    have hnext := segment_next_mem hback
    refine ⟨?_, ?_, tail⟩
    · have : a ≠ L.prev x := by
        rintro rfl
        simp only [List.nodup_cons, List.cons_append, List.mem_cons, List.mem_append] at starts hprev
        tauto
      simp [unlink, hnx.symm, this, ha]
    · have : z ≠ L.next x := by
        rintro he
        rw [← he] at hnext
        simp only [List.mem_append, List.mem_singleton] at hnext
        rcases hnext with hb | rfl
        · exact (List.nodup_cons.mp starts').1 (by simp [hb])
        · exact ends (by simp)
      simp [unlink, this, hz]

theorem Ring.unlink {L : Links α} {head x : α} {nodes : List α} (h : L.Ring head nodes)
    (member : x ∈ nodes) : (L.unlink x).Ring head (nodes.erase x) := by
  obtain ⟨front, back, rfl, hx⟩ := List.eq_append_cons_of_mem member
  have he : (front ++ x :: back).erase x = front ++ back := by
    rw [List.erase_append_right _ hx, List.erase_cons_head]
  obtain ⟨hfront, hback⟩ := (L.segment_append head x head front back).mp h.segment
  refine ⟨?_, ?_⟩
  · rw [he]
    exact segment_unlink hfront hback h.nodup (List.nodup_cons.mp h.nodup).1
  · exact h.nodup.sublist (List.erase_sublist.cons_cons head)

theorem Ring.moveToFront {L : Links α} {head x : α} {nodes : List α} (h : L.Ring head nodes)
    (member : x ∈ nodes) : (L.moveToFront head x).Ring head (x :: nodes.erase x) := by
  obtain ⟨hhead, hnodes⟩ := List.nodup_cons.mp h.nodup
  have hx : x ≠ head := by rintro rfl; exact hhead member
  exact (h.unlink member).pushFront (by simp [hx, hnodes.not_mem_erase])

theorem Ring.pushAll {L : Links α} {head : α} {nodes : List α} (h : L.Ring head nodes)
    (fresh : List α) (distinct : (head :: (fresh.reverse ++ nodes)).Nodup) :
    (fresh.foldl (fun L x => L.pushFront head x) L).Ring head (fresh.reverse ++ nodes) := by
  induction fresh generalizing L nodes with
  | nil => simpa using h
  | cons x rest ih =>
    simp only [List.reverse_cons, List.append_assoc, List.singleton_append] at distinct ⊢
    have tail : (head :: x :: nodes).Nodup :=
      distinct.sublist ((List.sublist_append_right _ _).cons_cons head)
    have hx : x ∉ head :: nodes := by
      simp only [List.nodup_cons, List.mem_cons, not_or] at tail ⊢
      exact ⟨Ne.symm tail.1.1, tail.2.1⟩
    exact ih (h.pushFront hx) distinct

/-- The segment that ended at `y` ends at the node put before it. -/
theorem segment_insertBefore {L : Links α} {a x y : α} {front : List α}
    (h : L.Segment a front y) (fresh : x ∉ y :: a :: front) (starts : (a :: front).Nodup)
    (ends : y ∉ front) : (L.insertBefore x y).Segment a front x := by
  have hxy : x ≠ y := by
    rintro rfl
    simp at fresh
  induction front generalizing a with
  | nil =>
    obtain ⟨-, hp⟩ := h
    have hxa : x ≠ a := by
      rintro rfl
      simp at fresh
    simp [insertBefore, Segment, hp, hxy, Ne.symm hxy]
  | cons z front ih =>
    obtain ⟨hn, hp, rest⟩ := h
    have member := segment_prev_mem rest
    simp only [List.mem_cons, not_or, List.nodup_cons] at fresh starts ends member
    have tail := ih rest (by simp [fresh]) (by simp [starts]) (by simp [ends])
    have hz : z ≠ y := Ne.symm ends.1
    have ha : a ≠ L.prev y := by
      rintro rfl
      rcases member with eq | mem
      · exact starts.1.1 eq
      · exact starts.1.2 mem
    refine ⟨?_, ?_, tail⟩
    · simp [insertBefore, Ne.symm hxy, ha, Ne.symm fresh.2.1, hn]
    · simp [insertBefore, hz, Ne.symm fresh.2.2.1, hp]

theorem Ring.insertBefore {L : Links α} {head x y : α} {front back : List α}
    (h : L.Ring head (front ++ back)) (here : (back ++ [head]).head? = some y)
    (fresh : x ∉ head :: (front ++ back)) :
    (L.insertBefore x y).Ring head (front ++ x :: back) := by
  have nodup : (head :: (front ++ x :: back)).Nodup := by
    have order : (x :: head :: (front ++ back)).Perm (head :: (front ++ x :: back)) :=
      (List.Perm.swap _ _ _).trans (List.Perm.cons _ List.perm_middle.symm)
    exact order.nodup_iff.mp (List.nodup_cons.mpr ⟨fresh, h.nodup⟩)
  refine ⟨(segment_append _ _ _ _ _ _).mpr ?_, nodup⟩
  have distinct := h.nodup
  simp only [List.nodup_cons, List.mem_append, not_or, List.nodup_append] at distinct
  simp only [List.mem_cons, List.mem_append, not_or] at fresh
  cases back with
  | nil =>
    obtain rfl : head = y := by simpa using here
    have segment : L.Segment head front head := by simpa using h.segment
    refine ⟨segment_insertBefore segment ?_ ?_ distinct.1.1, ?_⟩
    · simp [fresh]
    · simp [distinct]
    · have member := segment_prev_mem segment
      have hx : x ≠ L.prev head := by
        rintro eq
        rw [← eq] at member
        simp [fresh] at member
      simp [Segment, Links.insertBefore, Ne.symm fresh.1, hx]
  | cons z back =>
    obtain rfl : z = y := by simpa using here
    obtain ⟨segment, rest⟩ := (segment_append _ _ _ _ _ _).mp h.segment
    have member := segment_prev_mem segment
    simp only [List.mem_cons, not_or, List.nodup_cons] at distinct fresh member
    have hx : x ≠ L.prev z := by
      rintro eq
      rw [← eq] at member
      rcases member with eq | mem
      · exact fresh.1 eq
      · exact fresh.2.1 mem
    have back_prev : ∀ w ∈ z :: back, w ≠ L.prev z := by
      rintro w hw rfl
      rcases member with eq | mem
      · rcases List.mem_cons.mp hw with eq' | mem'
        · exact distinct.1.2.1 (eq.symm.trans eq')
        · exact distinct.1.2.2 (eq ▸ mem')
      · exact distinct.2.2.2 _ mem _ (List.mem_cons.mp hw) rfl
    refine ⟨segment_insertBefore segment ?_ ?_ ?_, ?_, ?_, segment_congr ?_ ?_ rest⟩
    · simp [fresh]
    · simp [distinct]
    · intro mem
      exact distinct.2.2.2 z mem z (.inl rfl) rfl
    · simp [Links.insertBefore, Ne.symm fresh.2.2.1, hx]
    · simp [Links.insertBefore]
    · intro w hw
      have h₁ := back_prev w hw
      have h₂ : w ≠ x := by
        rintro rfl
        rcases List.mem_cons.mp hw with eq | mem
        · exact fresh.2.2.1 eq
        · exact fresh.2.2.2 mem
      simp [Links.insertBefore, h₁, h₂, Ne.symm fresh.2.2.1]
    · intro w hw
      have h₁ : w ≠ z := by
        rintro rfl
        simp only [List.mem_append, List.mem_singleton] at hw
        rcases hw with mem | eq
        · exact distinct.2.2.1.1 mem
        · exact distinct.1.2.1 eq.symm
      have h₂ : w ≠ x := by
        rintro rfl
        simp only [List.mem_append, List.mem_singleton] at hw
        rcases hw with mem | eq
        · exact fresh.2.2.2 mem
        · exact fresh.1 eq
      simp [Links.insertBefore, h₁, h₂]

end Update

section Order

variable [DecidableEq α]

/-- A ring whose head is the node `none` and whose other nodes are indices. -/
def fromHead (L : Links (Option α)) (bound : Nat) : List α :=
  (L.forward none bound).filterMap id

def fromTail (L : Links (Option α)) (bound : Nat) : List α :=
  (L.backward none bound).filterMap id

theorem Ring.fromHead_eq {L : Links (Option α)} {order : List α}
    (h : L.Ring none (order.map some)) {bound : Nat} (enough : order.length ≤ bound) :
    L.fromHead bound = order := by
  rw [fromHead, h.forward_eq (by simpa using enough)]
  simp [List.filterMap_map]

theorem Ring.fromTail_eq {L : Links (Option α)} {order : List α}
    (h : L.Ring none (order.map some)) {bound : Nat} (enough : order.length ≤ bound) :
    L.fromTail bound = order.reverse := by
  rw [fromTail, h.backward_eq (by simpa using enough), ← List.map_reverse]
  simp [List.filterMap_map]

omit [DecidableEq α] in
theorem Ring.order_nodup {L : Links (Option α)} {order : List α}
    (h : L.Ring none (order.map some)) : order.Nodup :=
  List.Nodup.of_map some (List.nodup_cons.mp h.nodup).2

/-- Stated for any lawful equality test on options: the one a ring of options
carries need not be the one derived from the equality test on indices. -/
theorem map_some_erase [BEq (Option α)] [LawfulBEq (Option α)] (order : List α) (x : α) :
    (order.map some).erase (some x) = (order.erase x).map some := by
  induction order with
  | nil => rfl
  | cons y rest ih =>
    by_cases h : y = x
    · subst y
      simp
    · rw [List.map_cons, List.erase_cons_tail (by simpa using h), ih,
        List.erase_cons_tail (by simpa using h), List.map_cons]

theorem Ring.moveToFront_order {L : Links (Option α)} {order : List α} {x : α}
    (h : L.Ring none (order.map some)) (member : x ∈ order) :
    (L.moveToFront none (some x)).Ring none ((x :: order.erase x).map some) := by
  have hm := h.moveToFront (List.mem_map_of_mem member)
  rwa [@map_some_erase α _ instBEqOfDecidableEq inferInstance, ← List.map_cons] at hm

end Order

end Links

end AvxKernel
