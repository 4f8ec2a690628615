import AvxKernel.Fat.Deliver
import AvxKernel.Fat.Split

/-! How reads and writes stop the kernel. -/
namespace AvxKernel.Fat

variable {fat : Geometry} {e : Dirent} {off c : Nat} {alloc : Bool}

def messages : List String := ["cluster number error\n", "cluster number error", "FAT number error",
  "cluster number error when read FAT ", "cluster number error when write in FAT\n", "no clusters",
  "offset out of range", "encounter a bad cluster\n", "reloc_clus"]

/-- A panic with one of the messages, or a loop that the table keeps going. -/
def stops : List Halt := .diverge :: messages.map .panic

/-- The call returns, or it stops so. -/
def Stops {α : Type} (x : Machine Disk α) : Prop := ∀ d, Machine.Ends (· ∈ stops) x d fun _ _ => True

namespace Stops

variable {α β : Type} {x : Machine Disk α} {f : α → Machine Disk β}

theorem pure (a : α) : Stops (pure a : Machine Disk α) := fun _ => Machine.Ends.pure trivial

theorem panic {m : String} (mem : m ∈ messages) : Stops (Machine.panic m : Machine Disk α) :=
  fun _ => Machine.Ends.halt (List.mem_cons_of_mem _ (List.mem_map_of_mem mem))

theorem diverge : Stops (Machine.halt .diverge : Machine Disk α) := fun _ => Machine.Ends.halt List.mem_cons_self

theorem bind (hx : Stops x) (hf : ∀ a, Stops (f a)) : Stops (x >>= f) :=
  fun d => Machine.Ends.bind (hx d) fun a t _ => hf a t

theorem ite {c : Prop} [Decidable c] {y : Machine Disk α} (hx : Stops x) (hy : Stops y) :
    Stops (if c then x else y) := fun d => Machine.Ends.ite (fun _ => hx d) fun _ => hy d

theorem get : Stops (get : Machine Disk Disk) := fun d => Machine.Ends.of_ok (Machine.get_run d) trivial

theorem set (d : Disk) : Stops (set d : Machine Disk PUnit) :=
  fun d' => Machine.Ends.of_ok (Machine.set_run d' d) trivial

theorem modify (g : Disk → Disk) : Stops (modify g : Machine Disk PUnit) :=
  fun d => Machine.Ends.of_ok (Machine.modify_run g d) trivial

theorem forM {f : β → Machine Disk PUnit} (h : ∀ b, Stops (f b)) (l : List β) : Stops (l.forM f) := by
  induction l with
  | nil => exact pure _
  | cons b l ih => exact bind (h b) fun _ => ih

end Stops

theorem first_sec_of_clus_stops : Stops (first_sec_of_clus fat c) := .ite (.panic (by decide)) (.pure _)

theorem fat_sec_of_clus_stops (n : Nat) : Stops (fat_sec_of_clus fat c n) :=
  .ite (.panic (by decide)) (.ite (.panic (by decide)) (.pure _))

theorem fat_offset_of_clus_stops : Stops (fat_offset_of_clus fat c) := .ite (.panic (by decide)) (.pure _)

theorem read_fat_stops : Stops (read_fat fat c) :=
  .ite (.panic (by decide)) (.ite (.pure _) (.ite (.pure _) (.bind (fat_sec_of_clus_stops 1) fun _ =>
    .bind fat_offset_of_clus_stops fun _ => .bind .get fun _ => .pure _)))

theorem write_fat_stops (content : Nat) : Stops (write_fat fat c content) :=
  .ite (.panic (by decide)) (.bind (fat_sec_of_clus_stops 1) fun _ =>
    .bind fat_offset_of_clus_stops fun _ => .modify _)

theorem alloc_clus_stops : Stops (alloc_clus fat) := by
  apply Stops.bind .get
  intro b
  dsimp only
  split
  · refine Stops.bind (.set _) fun _ => ?_
    refine Stops.bind ?_ fun _ => .pure _
    refine .ite (.panic (by decide)) ?_
    exact .bind first_sec_of_clus_stops fun _ => .forM (fun _ => .modify _) _
  · exact .panic (by decide)

theorem relocForward_stops (more : Nat) : Stops (relocForward fat alloc more e) := by
  induction more generalizing e with
  | zero => exact .pure _
  | succ more ih =>
    rw [relocForward]
    refine .bind read_fat_stops fun clus => ?_
    refine .ite (.ite ?_ (.pure _)) (.ite (.panic (by decide)) ih)
    exact .bind alloc_clus_stops fun c => .bind (write_fat_stops c) fun _ => ih

theorem relocFromStart_stops (more : Nat) : Stops (relocFromStart fat more e) := by
  induction more generalizing e with
  | zero => exact .pure _
  | succ more ih => exact .bind read_fat_stops fun clus => .ite (.panic (by decide)) ih

theorem reloc_clus_stops : Stops (reloc_clus fat e off alloc) := by
  refine .bind (relocForward_stops _) fun r => ?_
  refine .ite (.pure _) ?_
  exact .bind (.ite (relocFromStart_stops _) (.pure _)) fun _ => .pure _

theorem transfer_stops {move : Nat × Nat × Nat → Machine Disk Bool} (h : ∀ r, Stops (move r)) (n : Nat)
    (rs : List (Nat × Nat × Nat)) : Stops (transfer move n rs) := by
  induction rs with
  | nil => exact .pure _
  | cons r rest ih =>
    refine .bind (h r) fun all => ?_
    exact .ite ih (.pure _)

theorem rw_clus_write_stops (data : Source) (n : Nat) : Stops (rw_clus_write fat c data off n) :=
  .ite (.panic (by decide)) (.bind first_sec_of_clus_stops fun _ =>
    transfer_stops (fun _ => .bind (.modify _) fun _ => .pure _) _ _)

theorem ewriteFrom_stops (data : Source) (n limit tot : Nat) : Stops (ewriteFrom fat data n limit e tot off) := by
  induction limit generalizing e tot off with
  | zero => exact .diverge
  | succ limit ih =>
    rw [ewriteFrom]
    refine .ite ?_ (.pure _)
    refine .bind reloc_clus_stops fun r => ?_
    exact .bind (rw_clus_write_stops _ _) fun _ => .ite (.pure _) (ih _)

theorem ewrite_stops (data : Source) (n : Nat) : Stops (ewrite fat e data off n) :=
  .ite (.pure _) (.bind (.ite (.bind alloc_clus_stops fun _ => .pure _) (.pure _)) fun _ =>
    .bind (ewriteFrom_stops data n _ _) fun _ => .pure _)

theorem rw_clus_deliver_stop (buf : Sink) (n : Nat) : Stops (rw_clus_deliver fat buf c off n) :=
  .ite (.panic (by decide)) (.bind first_sec_of_clus_stops fun _ => .bind .get fun _ => .pure _)

theorem ereadsFrom_stop (buf : Sink) (n limit tot : Nat) : Stops (ereadsFrom fat buf n limit e tot off) := by
  induction limit generalizing e tot off with
  | zero => exact .diverge
  | succ limit ih =>
    rw [ereadsFrom]
    refine .ite ?_ (.pure _)
    refine .bind reloc_clus_stops fun r => ?_
    exact .bind (rw_clus_deliver_stop _ _) fun _ => .ite (.pure _) (.bind (ih _) fun _ => .pure _)

theorem ereadInto_stop (buf : Sink) (n : Nat) : Stops (ereadInto fat e buf off n) :=
  .ite (.pure _) (.bind (ereadsFrom_stop buf _ _ _) fun _ => .pure _)

end AvxKernel.Fat
