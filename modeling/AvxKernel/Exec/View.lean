import AvxKernel.Exec.Exec
import AvxKernel.Vm.RoundTrip

/-! Memory in two halves, the bytes behind the pages of a table and those that the
kernel alone uses. A store of the kernel's changes one half, and what it copies out
changes the other; no address of either half is an address of the other. -/
namespace AvxKernel.Exec

open Vm

/-- No byte is in both. -/
def Apart (r q : Nat × Nat) : Prop := r.1 + r.2 ≤ q.1 ∨ q.1 + q.2 ≤ r.1

/-- Memory since a state with the same pages. -/
structure View (s₀ : Ram) (root : Nat) (node : Nodes) (kernel user : Memory) (s : Ram) : Prop where
  space : UserSpace s root node
  pages : ∀ v, page root v s = page root v s₀
  kernel : ∀ a, (∀ v, InPage s₀ root v → physical s₀ root v ≠ a) → s.mem a = kernel a
  user : ∀ v, InPage s₀ root v → s.mem (physical s₀ root v) = user v

theorem View.refl {s : Ram} {root : Nat} {node : Nodes} (space : UserSpace s root node) :
    View s root node s.mem (fun v => s.mem (physical s root v)) s where
  space := space
  pages := fun _ => rfl
  kernel := fun _ _ => rfl
  user := fun _ _ => rfl

namespace View

variable {s₀ s : Ram} {root a n w v va : Nat} {node : Nodes} {kernel user : Memory}
  (view : View s₀ root node kernel user s)

section View

include view

theorem inPage {v : Nat} : InPage s root v ↔ InPage s₀ root v := by
  rw [InPage, InPage, view.pages]

theorem physical (v : Nat) : Vm.physical s root v = Vm.physical s₀ root v :=
  physical_same view.pages v

theorem own (own : Private s₀ root node a n) : Private s root node a n where
  toBuffer := own.toBuffer
  hidden := fun i hi v pa flags hpage => own.hidden i hi v pa flags (by rwa [← view.pages])

theorem byte (own : Private s₀ root node a n) {i : Nat} (hi : i < n) : s.mem (a + i) = kernel (a + i) :=
  view.kernel _ fun _ within => own.away hi within

theorem fetch (own : Private s₀ root node a n) : s.mem.fetch a n = kernel.fetch a n :=
  Memory.fetch_congr fun _ hi => view.byte own hi

theorem window (own : Private s₀ root node a n) : s.mem.window a n = kernel.window a n :=
  Memory.window_congr fun _ hi => view.byte own hi

/-- What the kernel stores in its own memory. -/
theorem stored {mem kernel' : Memory} (own : Private s₀ root node a n)
    (outside : ∀ x, x < a ∨ a + n ≤ x → mem x = s.mem x)
    (outside' : ∀ x, x < a ∨ a + n ≤ x → kernel' x = kernel x)
    (inside : ∀ i < n, mem (a + i) = kernel' (a + i)) :
    View s₀ root node kernel' user (s.setMem mem) := by
  have table : SameTable node s (s.setMem mem) := by
    intro p has i hi
    apply outside
    by_contra neither
    have := own.apart (p + i - a) (by omega) p has
    omega
  have pages := page_same_table view.space.tree table
  constructor
  · exact view.space.same table
  · exact fun v => (pages v).trans (view.pages v)
  · intro x away
    by_cases here : a ≤ x ∧ x < a + n
    · obtain ⟨i, rfl⟩ := Nat.exists_eq_add_of_le here.1
      exact inside i (by omega)
    · change mem x = kernel' x
      rw [outside x (by omega), outside' x (by omega)]
      exact view.kernel x away
  · intro v within
    change mem _ = user v
    rw [outside]
    · exact view.user v within
    · by_contra neither
      exact own.away (i := Vm.physical s₀ root v - a) (by omega) within (by omega)

theorem peek_run (own : Private s₀ root node a w) (pos : 0 < w) :
    peek a w s = .ok (kernel.fetch a w, s) := by
  have reach : mapped a = true := own.mapped 0 pos
  rw [peek, Machine.bind_of_ok (Machine.get_run s), if_pos reach, Machine.pure_run, view.fetch own]

theorem poke_run (own : Private s₀ root node a w) (pos : 0 < w) (v : Nat) :
    ∃ t, poke a w v s = .ok ((), t) ∧ View s₀ root node (kernel.store a w v) user t := by
  have reach : mapped a = true := own.mapped 0 pos
  refine ⟨s.setMem (s.mem.store a w v), ?_, ?_⟩
  · rw [poke, Machine.bind_of_ok (Machine.get_run s), if_pos reach]
    rfl
  · apply view.stored own
    · exact fun x out => Memory.store_outside _ out
    · exact fun x out => Memory.store_outside _ out
    · intro i hi
      have width : i < (bytesOf v w).length := by rwa [bytesOf_length]
      rw [Memory.store, Memory.store, Memory.blit_inside _ a width, Memory.blit_inside _ a width]

theorem memset_run (own : Private s₀ root node a n) :
    ∃ t, memset a 0 n s = .ok ((), t) ∧ View s₀ root node (kernel.fill a n 0) user t := by
  refine ⟨_, Vm.memset_run _ _ _ s, ?_⟩
  apply view.stored own
  · exact fun x out => Memory.fill_outside _ out
  · exact fun x out => Memory.fill_outside _ out
  · intro i hi
    rw [Memory.fill_inside _ (by omega) (by omega), Memory.fill_inside _ (by omega) (by omega)]
    rfl

theorem loadByte_run (own : Private s₀ root node a n) {i : Nat} (hi : i < n) :
    loadByte (a + i) s = .ok (kernel (a + i), s) := by
  rw [Vm.loadByte_run (own.mapped i hi), view.byte own hi]

/-- What the kernel copies out to pages that are there. -/
theorem copyout_run {src : Nat} (opens : ∀ v, span va n v → OpenPage s₀ root v) (low : va ≤ MAXVA)
    (own : Private s₀ root node src n) (pos : 0 < n) :
    ∃ t, copyout root va src n s = .ok (0, t) ∧
      View s₀ root node kernel (user.blit va (kernel.window src n)) t := by
  have opens' : ∀ v, span va n v → OpenPage s root v := fun v hv =>
    (openPage_congr (view.pages v)).mpr (opens v hv)
  obtain ⟨t, run, stored⟩ :=
    copyout_stored view.space low opens' (mapped_above (own.mapped 0 pos)) (view.own own)
  have pages : ∀ v, page root v t = page root v s₀ := fun v =>
    (stored.page view.space opens' v).trans (view.pages v)
  refine ⟨t, run, view.space.same (stored.sameTable view.space opens'), pages, ?_, ?_⟩
  · intro x away
    rw [stored.away x]
    · exact view.kernel x away
    · intro i hi
      rw [view.physical]
      exact away _ (opens _ ⟨by omega, by omega⟩).inPage
  · intro v within
    by_cases here : va ≤ v ∧ v < va + n
    · obtain ⟨i, rfl⟩ := Nat.exists_eq_add_of_le here.1
      have hi : i < n := by omega
      have width : i < (kernel.window src n).length := by rwa [Memory.window_length]
      rw [Memory.blit_inside _ va width, Memory.window_getElem, ← view.physical, stored.here i hi]
      exact view.byte own hi
    · rw [Memory.blit_outside _ (by rw [Memory.window_length]; omega), stored.away, view.user v within]
      intro i hi same
      rw [view.physical] at same
      have := view.space.physical_inj (view.inPage.mpr (opens (va + i) ⟨by omega, by omega⟩).inPage)
        (view.inPage.mpr within) (by rw [view.physical, view.physical, same])
      omega

theorem userByte {v : Nat} (within : InPage s₀ root v) : Vm.userByte s root v = some (user v) := by
  rw [(view.inPage.mpr within).userByte, view.physical, view.user v within]

end View

end View

end AvxKernel.Exec
