import AvxKernel.Fat.Codec
import Mathlib.Algebra.Order.Floor.Div
import Mathlib.Order.Interval.Finset.Nat

/-! Giving clusters back: `etrunc`, which follows a chain and clears it on the way, and
`etruncate`, which should keep its front. -/
namespace AvxKernel.Fat

section Program

variable (fat : Volume)

/-- The condition of the loops over a chain, for an unsigned number. -/
def Goes (clus : Nat) : Prop := 2 ≤ clus ∧ clus < FAT32_EOC

instance (clus : Nat) : Decidable (Goes clus) := inferInstanceAs (Decidable (_ ∧ _))

/-- The loop of `etrunc`, which is also the second of `etruncate`. -/
def etruncFrom : Nat → Nat → Machine Disk Unit
  | 0, _ => Machine.halt .diverge
  | limit + 1, clus =>
    if Goes clus then do
      let next ← read_fat fat clus
      free_clus fat clus
      etruncFrom limit next
    else
      return

def etrunc (limit : Nat) (entry : Dirent) : Machine Disk Dirent := do
  etruncFrom fat limit entry.first_clus
  return { entry with file_size := 0, first_clus := 0, dirty := true }

/-- The first loop of `etruncate`, which does not count: `i` stays 0. -/
def keepFrom (clus_num : Nat) : Nat → Nat → Machine Disk Nat
  | 0, _ => Machine.halt .diverge
  | limit + 1, clus =>
    if 0 < clus_num ∧ Goes clus then do
      let next ← read_fat fat clus
      keepFrom clus_num limit next
    else
      return clus

/-- The return value and the entry. -/
def etruncate (fat : Geometry) (limit : Nat) (entry : Dirent) (len : Int) :
    Machine Disk (Int × Dirent) :=
  let len := (len % 2 ^ 32).toNat
  if entry.file_size < len then
    return (-1, entry)
  else do
    let entry := { entry with file_size := len }
    let clus_num :=
      if len % fat.byts_per_clus ≠ 0 then len / fat.byts_per_clus + 1 else len / fat.byts_per_clus
    let clus ← keepFrom fat clus_num limit entry.first_clus
    etruncFrom fat limit clus
    return (0, entry)

end Program

variable {fat : Geometry} {d : Disk} {c first : Nat} {limit : Nat} {e : Dirent}

/-! ### What a table holds -/

/-- The table's entry of a cluster. -/
def Geometry.entry (fat : Geometry) (d : Disk) (c : Nat) : Nat := d.fetch (fat.entryAt c) 4

/-- No cluster, a cluster of the volume, or the mark of an end. -/
def Geometry.Link (fat : Geometry) (c : Nat) : Prop := c < 2 ∨ fat.InRange c ∨ FAT32_EOC ≤ c

/-- One cluster is the successor of another. -/
def Geometry.Follows (fat : Geometry) (d : Disk) (c c' : Nat) : Prop :=
  fat.InRange c ∧ fat.InRange c' ∧ fat.entry d c = c'

/-- The clusters that a chain comes to, whether it ends or not. -/
def Geometry.Reachable (fat : Geometry) (d : Disk) (first c : Nat) : Prop :=
  fat.InRange first ∧ Relation.ReflTransGen (fat.Follows d) first c

/-- The clusters of which the entry is not 0. -/
def Geometry.linked (fat : Geometry) (d : Disk) : Finset Nat :=
  (Finset.Icc 2 (fat.data_clus_cnt + 1)).filter fun c => fat.entry d c ≠ 0

/-- An address of the table's entry of a cluster. -/
def Geometry.InEntry (fat : Geometry) (c x : Nat) : Prop :=
  fat.entryAt c ≤ x ∧ x < fat.entryAt c + 4

instance (c x : Nat) : Decidable (fat.InEntry c x) := inferInstanceAs (Decidable (_ ∧ _))

/-- The entries of these clusters are 0 and nothing else has changed. -/
def Geometry.Cleared (fat : Geometry) (d d' : Disk) (gone : Nat → Prop) : Prop :=
  (∀ c x, gone c → fat.InEntry c x → d' x = 0) ∧
    ∀ x, (∀ c, gone c → ¬fat.InEntry c x) → d' x = d x

/-! ### One step -/

/-- The table with one cluster given back. -/
def Geometry.freed (fat : Geometry) (d : Disk) (c : Nat) : Disk := d.store (fat.entryAt c) 4 0

theorem Goes.range (goes : Goes c) (link : fat.Link c) : fat.InRange c := by
  rcases link with low | range | mark
  · exact absurd goes.1 (Nat.not_le.mpr low)
  · exact range
  · exact absurd goes.2 (Nat.not_lt.mpr mark)

theorem Geometry.InRange.goes (range : fat.InRange c) : Goes c := ⟨range.1, range.lt_EOC⟩

theorem free_clus_run (range : fat.InRange c) : free_clus fat c d = .ok ((), fat.freed d c) :=
  write_fat_run range 0

theorem freed_byte (c x : Nat) :
    fat.freed d c x = if fat.InEntry c x then 0 else d x := by
  have zeros : bytesOf 0 4 = List.replicate 4 0 := rfl
  rw [Geometry.freed, Memory.store, Memory.blit, zeros, List.length_replicate]
  by_cases inside : fat.InEntry c x
  · rw [if_pos inside, if_pos (show _ ∧ _ from inside), List.getD_replicate]
    have := inside.2
    omega
  · rw [if_neg inside, if_neg (show ¬(_ ∧ _) from inside)]

theorem freed_entry (c c' : Nat) :
    fat.entry (fat.freed d c) c' = if c' = c then 0 else fat.entry d c' := by
  rw [Geometry.entry, Geometry.freed]
  by_cases same : c' = c
  · rw [if_pos same, same, Memory.fetch_store_same d (by decide)]
  · rw [if_neg same, Memory.fetch_store_other d (by rw [Geometry.entryAt, Geometry.entryAt]; omega)]
    rfl

theorem freed_follows (c : Nat) :
    fat.Follows (fat.freed d c) = fun x y => x ≠ c ∧ fat.Follows d x y := by
  funext x y
  apply propext
  rw [Geometry.Follows, Geometry.Follows, freed_entry]
  by_cases here : x = c
  · rw [if_pos here]
    constructor
    · rintro ⟨-, range, rfl⟩
      exact absurd range.1 (by decide)
    · exact fun ⟨other, _⟩ => absurd here other
  · rw [if_neg here]
    exact ⟨fun follows => ⟨here, follows⟩, fun ⟨_, follows⟩ => follows⟩

/-- The chain from a cluster is that cluster and the chain from its successor, once the
cluster has been given back. -/
theorem reachable_freed (range : fat.InRange first) : fat.Reachable d first c ↔
    c = first ∨ fat.Reachable (fat.freed d first) (fat.entry d first) c := by
  rw [Geometry.Reachable, Geometry.Reachable, reach_cut, freed_follows]
  constructor
  · rintro ⟨-, here | ⟨b, ⟨-, next, rfl⟩, path⟩⟩
    · exact .inl here
    · exact .inr ⟨next, path⟩
  · rintro (here | ⟨next, path⟩)
    · exact ⟨range, .inl here⟩
    · exact ⟨range, .inr ⟨_, ⟨range, next, rfl⟩, path⟩⟩

theorem linked_freed (range : fat.InRange c) (some : fat.entry d c ≠ 0) :
    (fat.linked (fat.freed d c)).card < (fat.linked d).card := by
  apply Finset.card_lt_card
  rw [Finset.ssubset_iff_of_subset]
  · refine ⟨c, ?_, ?_⟩
    · exact Finset.mem_filter.mpr ⟨Finset.mem_Icc.mpr range, some⟩
    · rw [Geometry.linked, Finset.mem_filter, freed_entry, if_pos rfl]
      exact fun ⟨_, ne⟩ => ne rfl
  · intro x mem
    rw [Geometry.linked, Finset.mem_filter, freed_entry] at mem
    obtain ⟨inside, ne⟩ := mem
    split at ne
    · exact absurd rfl ne
    · exact Finset.mem_filter.mpr ⟨inside, ne⟩

theorem Geometry.Cleared.freed {d' : Disk} {gone gone' : Nat → Prop}
    (cleared : fat.Cleared (fat.freed d first) d' gone') (all : ∀ c, gone c ↔ c = first ∨ gone' c) :
    fat.Cleared d d' gone := by
  obtain ⟨zero, kept⟩ := cleared
  constructor
  · intro c x here inside
    by_cases behind : ∃ c', gone' c' ∧ fat.InEntry c' x
    · obtain ⟨c', here, inside⟩ := behind
      exact zero c' x here inside
    · rcases (all c).mp here with rfl | here
      · rw [kept x fun c' here inside => behind ⟨c', here, inside⟩, freed_byte, if_pos inside]
      · exact zero c x here inside
  · intro x outside
    rw [kept x fun c here => outside c ((all c).mpr (.inr here)), freed_byte,
      if_neg (outside first ((all first).mpr (.inl rfl)))]

/-! ### The whole walk -/

/-- Entries of the table are followed as long as they are not 0, and each is cleared. -/
theorem etruncFrom_clears (links : ∀ c, fat.InRange c → fat.Link (fat.entry d c))
    (link : fat.Link first) (enough : (fat.linked d).card + 2 ≤ limit ∨ ¬Goes first ∧ 0 < limit) :
    ∃ d', etruncFrom fat limit first d = .ok ((), d') ∧
      fat.Cleared d d' (fat.Reachable d first) := by
  induction limit generalizing d first with
  | zero => omega
  | succ limit ih =>
    by_cases goes : Goes first
    · have range := goes.range link
      have enough := enough.resolve_right fun ⟨stop, _⟩ => stop goes
      have links' : ∀ c, fat.InRange c → fat.Link (fat.entry (fat.freed d first) c) := by
        intro c inside
        rw [freed_entry]
        split
        · exact .inl (by decide)
        · exact links c inside
      have less : (fat.linked (fat.freed d first)).card + 2 ≤ limit ∨
          ¬Goes (fat.entry d first) ∧ 0 < limit := by
        by_cases zero : fat.entry d first = 0
        · exact .inr ⟨fun ⟨low, _⟩ => absurd (zero ▸ low) (by decide), by omega⟩
        · have := linked_freed range zero
          exact .inl (by omega)
      obtain ⟨d', run, cleared⟩ := ih links' (links first range) less
      refine ⟨d', ?_, cleared.freed fun c => reachable_freed range⟩
      rw [etruncFrom, if_pos goes, Machine.bind_of_ok (read_fat_run range),
        Machine.bind_of_ok (free_clus_run range)]
      exact run
    · refine ⟨d, ?_, fun c x here => absurd here.1.goes goes, fun x _ => rfl⟩
      rw [etruncFrom, if_neg goes]
      rfl

theorem linked_le (fat : Geometry) (d : Disk) : (fat.linked d).card ≤ fat.data_clus_cnt := by
  have le := Finset.card_filter_le (Finset.Icc 2 (fat.data_clus_cnt + 1)) fun c => fat.entry d c ≠ 0
  rw [Nat.card_Icc] at le
  exact le.trans (by omega)

/-- Whatever chains a table makes, `etrunc` comes to an end and clears the entries of the
clusters that the file reaches, and no others. A file that begins where no cluster is
stops it before that. -/
theorem etrunc_clears_reachable (links : ∀ c, fat.InRange c → fat.Link (fat.entry d c))
    (entry : Dirent) (enough : fat.data_clus_cnt + 2 ≤ limit) :
    (fat.Link entry.first_clus → ∃ d',
      etrunc fat limit entry d =
          .ok ({ entry with file_size := 0, first_clus := 0, dirty := true }, d') ∧
        fat.Cleared d d' (fat.Reachable d entry.first_clus)) ∧
    (¬fat.Link entry.first_clus →
      etrunc fat limit entry d = .error (.panic "cluster number error")) := by
  constructor
  · intro link
    have few := linked_le fat d
    have more : (fat.linked d).card + 2 ≤ limit := by omega
    obtain ⟨d', run, cleared⟩ := etruncFrom_clears links link (.inl more)
    refine ⟨d', ?_, cleared⟩
    rw [etrunc, Machine.bind_of_ok run]
    rfl
  · intro wild
    simp only [Geometry.Link, not_or, Nat.not_lt, Nat.not_le] at wild
    obtain ⟨low, out, small⟩ := wild
    have high : u32 (fat.data_clus_cnt + 1) < entry.first_clus := by
      rw [Geometry.u32_last]
      by_contra inside
      exact out ⟨low, Nat.not_lt.mp inside⟩
    have read : read_fat fat entry.first_clus d = .ok (0, d) := by
      rw [read_fat, if_neg (Nat.not_lt.mpr low), if_neg (Nat.not_le.mpr small), if_pos high]
      rfl
    have stop : free_clus fat entry.first_clus d = .error (.panic "cluster number error") := by
      rw [free_clus, write_fat, if_neg (Nat.not_lt.mpr low)]
      apply Machine.bind_of_error
      rw [fat_sec_of_clus, if_pos (.inr high)]
      rfl
    obtain ⟨limit, rfl⟩ : ∃ l, limit = l + 1 := ⟨limit - 1, by omega⟩
    apply Machine.bind_of_error
    rw [etruncFrom, if_pos ⟨low, small⟩, Machine.bind_of_ok read]
    exact Machine.bind_of_error stop

/-- Two clusters that are each other's successors. -/
def ringVolume : Geometry :=
  { bareVolume with
    data_clus_cnt := 2
    covers := by decide
    fits := by decide
    unmarked := by decide }

/-- The disk with these entries of its two clusters. -/
def linkDisk (two three : Nat) : Disk :=
  (Memory.store (fun _ => 0) (ringVolume.entryAt 2) 4 two).store (ringVolume.entryAt 3) 4 three

theorem linkDisk_entry {two three : Nat} (small : two < 2 ^ 32) (small' : three < 2 ^ 32) :
    ringVolume.entry (linkDisk two three) 2 = two ∧
      ringVolume.entry (linkDisk two three) 3 = three := by
  constructor
  · rw [Geometry.entry, linkDisk, Memory.fetch_store_other _ (by decide),
      Memory.fetch_store_same _ small]
  · rw [Geometry.entry, linkDisk, Memory.fetch_store_same _ small']

theorem etrunc_clears_ring : ∃ d', etrunc ringVolume 4 { bareFile with first_clus := 2 } (linkDisk 3 2) =
      .ok ({ bareFile with file_size := 0, first_clus := 0, dirty := true }, d') ∧
    ringVolume.Cleared (linkDisk 3 2) d' (ringVolume.Reachable (linkDisk 3 2) 2) := by
  obtain ⟨two, three⟩ := @linkDisk_entry 3 2 (by decide) (by decide)
  have links : ∀ c, ringVolume.InRange c → ringVolume.Link (ringVolume.entry (linkDisk 3 2) c) := by
    rintro c ⟨low, high⟩
    have last : c ≤ 3 := high
    rcases (show c = 2 ∨ c = 3 by omega) with rfl | rfl
    · rw [two]
      exact .inr (.inl (by decide))
    · rw [three]
      exact .inr (.inl (by decide))
  exact (etrunc_clears_reachable links { bareFile with first_clus := 2 } (by decide)).1
    (.inr (.inl (by decide)))

/-! ### Keeping the front of a chain -/

variable {d' : Disk} {cs : List Nat} {e' : Dirent} {len n : Nat}

/-- A file of as many clusters as its size needs; one without any begins nowhere. -/
structure Whole (fat : Geometry) (d : Disk) (cs : List Nat) (e : Dirent) : Prop where
  count : cs.length = e.file_size ⌈/⌉ fat.byts_per_clus
  chain : cs ≠ [] → Clusters fat d cs ∧ Cursor e cs
  none : cs = [] → e.first_clus = 0 ∧ e.rewind = e

/-- What a file should be cut to, and what happens to the clusters behind. -/
structure Truncated (fat : Geometry) (d : Disk) (cs : List Nat) (len : Nat) (e' : Dirent)
    (d' : Disk) : Prop where
  size : e'.file_size = len
  front : Whole fat d' (cs.take (len ⌈/⌉ fat.byts_per_clus)) e'
  back : ∀ c ∈ cs.drop (len ⌈/⌉ fat.byts_per_clus), fat.entry d' c = 0
  others : ∀ x, (∀ c ∈ cs, ¬fat.InEntry c x) → d' x = d x

theorem clus_num_eq (fat : Geometry) (len : Nat) :
    (if len % fat.byts_per_clus ≠ 0 then len / fat.byts_per_clus + 1
      else len / fat.byts_per_clus) = len ⌈/⌉ fat.byts_per_clus := by
  have pos := fat.byts_per_clus_pos
  have split := Nat.div_add_mod len fat.byts_per_clus
  have rest := Nat.mod_lt len pos
  rw [Nat.ceilDiv_eq_add_pred_div]
  by_cases exact_ : len % fat.byts_per_clus = 0
  · have total : len + fat.byts_per_clus - 1 =
        fat.byts_per_clus * (len / fat.byts_per_clus) + (fat.byts_per_clus - 1) := by omega
    have below : (fat.byts_per_clus - 1) / fat.byts_per_clus = 0 := Nat.div_eq_of_lt (by omega)
    rw [if_neg (not_not.mpr exact_), total, Nat.mul_add_div pos, below, Nat.add_zero]
  · have total : len + fat.byts_per_clus - 1 =
        fat.byts_per_clus * (len / fat.byts_per_clus + 1) + (len % fat.byts_per_clus - 1) := by
      rw [Nat.mul_add_one]
      omega
    have below : (len % fat.byts_per_clus - 1) / fat.byts_per_clus = 0 :=
      Nat.div_eq_of_lt (by omega)
    rw [if_pos exact_, total, Nat.mul_add_div pos, below, Nat.add_zero]

theorem Clusters.length_le (h : Clusters fat d cs) : cs.length ≤ fat.data_clus_cnt := by
  have sub : cs.toFinset ⊆ Finset.Icc 2 (fat.data_clus_cnt + 1) := by
    intro c mem
    exact Finset.mem_Icc.mpr (h.range c (List.mem_toFinset.mp mem))
  have le := Finset.card_le_card sub
  rw [List.toFinset_card_of_nodup h.chain.nodup, Nat.card_Icc] at le
  exact le.trans (by omega)

/-- The entries of a chain are not those of free clusters. -/
theorem Clusters.entry_ne_zero (h : Clusters fat d cs) (mem : c ∈ cs) : fat.entry d c ≠ 0 := by
  obtain ⟨i, hi, rfl⟩ := List.getElem_of_mem mem
  have run := read_fat_run (d := d) (h.range _ mem)
  intro zero
  rw [show d.fetch (fat.entryAt cs[i]) 4 = 0 from zero] at run
  rcases Nat.lt_or_ge (i + 1) cs.length with inside | last
  · obtain ⟨read, range⟩ := h.read_next inside
    rw [read] at run
    have next : cs[i + 1] = 0 := congrArg Prod.fst (Except.ok.inj run)
    exact absurd (next ▸ range.1) (by decide)
  · obtain ⟨clus, read, mark⟩ := h.read_last (i := i) (by omega)
    rw [read] at run
    have next : clus = 0 := congrArg Prod.fst (Except.ok.inj run)
    exact absurd (next ▸ mark.1) (by decide)

/-- The first loop goes to the end of the chain. -/
theorem keepFrom_ends (h : Clusters fat d cs) (pos : 0 < n) {i : Nat} (hi : i < cs.length)
    (enough : cs.length - i < limit) : ∃ clus, keepFrom fat n limit cs[i] d = .ok (clus, d) ∧
      ¬Goes clus := by
  induction limit generalizing i with
  | zero => omega
  | succ limit ih =>
    rw [keepFrom, if_pos ⟨pos, (h.range _ (List.getElem_mem hi)).goes⟩]
    rcases Nat.lt_or_ge (i + 1) cs.length with inside | last
    · obtain ⟨read, range⟩ := h.read_next inside
      rw [Machine.bind_of_ok read]
      exact ih inside (by omega)
    · obtain ⟨clus, read, mark⟩ := h.read_last (i := i) (by omega)
      rw [Machine.bind_of_ok read]
      have stop : ¬Goes clus := fun goes => absurd goes.2 (Nat.not_lt.mpr mark.1)
      obtain ⟨limit, rfl⟩ : ∃ l, limit = l + 1 := ⟨limit - 1, by omega⟩
      refine ⟨clus, ?_, stop⟩
      rw [keepFrom, if_neg fun ⟨_, goes⟩ => stop goes]
      rfl

/-- Where clusters are to be kept, or there are none, only the size is changed. -/
theorem etruncate_keeps (whole : Whole fat d cs e) (le : len ≤ e.file_size)
    (small : e.file_size < 2 ^ 32) (kept : 0 < len ⌈/⌉ fat.byts_per_clus ∨ cs = [])
    (enough : fat.data_clus_cnt + 2 ≤ limit) :
    etruncate fat limit e len d = .ok ((0, { e with file_size := len }), d) := by
  have same : ((len : Int) % 2 ^ 32).toNat = len := by omega
  have walked : ∃ clus, keepFrom fat (len ⌈/⌉ fat.byts_per_clus) limit e.first_clus d =
      .ok (clus, d) ∧ ¬Goes clus := by
    by_cases some : cs = []
    · obtain ⟨first, -⟩ := whole.none some
      have stop : ¬Goes e.first_clus := fun goes => absurd (first ▸ goes.1) (by decide)
      obtain ⟨limit, rfl⟩ : ∃ l, limit = l + 1 := ⟨limit - 1, by omega⟩
      refine ⟨e.first_clus, ?_, stop⟩
      rw [keepFrom, if_neg fun ⟨_, goes⟩ => stop goes]
      rfl
    · obtain ⟨chain, cursor⟩ := whole.chain some
      have pos : 0 < cs.length := List.length_pos_iff.mpr some
      have few := chain.length_le
      have first : cs[0] = e.first_clus :=
        Option.some.inj ((List.getElem?_eq_getElem pos).symm.trans cursor.first)
      rw [← first]
      exact keepFrom_ends chain (kept.resolve_right some) pos (by omega)
  obtain ⟨clus, run, stop⟩ := walked
  obtain ⟨limit, rfl⟩ : ∃ l, limit = l + 1 := ⟨limit - 1, by omega⟩
  rw [etruncate, same, if_neg (Nat.not_lt.mpr le), clus_num_eq, Machine.bind_of_ok run,
    etruncFrom, if_neg stop]
  rfl

/-- Whatever becomes of the clusters, of the entry only the size is changed. -/
theorem etruncate_entry (le : len ≤ e.file_size) (small : e.file_size < 2 ^ 32)
    (returns : etruncate fat limit e len d = .ok ((0, e'), d')) :
    e' = { e with file_size := len } := by
  have same : ((len : Int) % 2 ^ 32).toNat = len := by omega
  rw [etruncate, same, if_neg (Nat.not_lt.mpr le)] at returns
  obtain ⟨clus, d₁, -, returns⟩ := Machine.bind_ok.mp returns
  obtain ⟨u, d₂, -, returns⟩ := Machine.bind_ok.mp returns
  cases returns
  rfl

/-- `etruncate` does what it should exactly where the file keeps all of its clusters. -/
theorem etruncate_truncates_iff (whole : Whole fat d cs e) (small : e.file_size < 2 ^ 32)
    (le : len ≤ e.file_size) : (∃ e' d', (∀ limit ≥ fat.data_clus_cnt + 2,
        etruncate fat limit e len d = .ok ((0, e'), d')) ∧ Truncated fat d cs len e' d') ↔
      len ⌈/⌉ fat.byts_per_clus = e.file_size ⌈/⌉ fat.byts_per_clus := by
  have count := whole.count
  constructor
  · rintro ⟨e', d', returns, truncated⟩
    have run := returns _ (Nat.le_refl _)
    have entry := etruncate_entry le small run
    by_contra other
    have fewer : len ⌈/⌉ fat.byts_per_clus < cs.length := by
      rw [count]
      exact Nat.lt_of_le_of_ne (Nat.div_le_div_right (by omega)) other
    have some : cs ≠ [] := List.length_pos_iff.mp (Nat.zero_lt_of_lt fewer)
    obtain ⟨chain, cursor⟩ := whole.chain some
    rcases Nat.eq_zero_or_pos (len ⌈/⌉ fat.byts_per_clus) with nothing | kept
    · -- the entry still begins with the first cluster
      have front := truncated.front
      rw [nothing, List.take_zero] at front
      have first : e.first_clus = 0 := by
        rw [← (front.none rfl).1, entry]
      have range := chain.range _ (List.mem_of_getElem? cursor.first)
      exact absurd (first ▸ range.1) (by decide)
    · -- nothing has been given back
      rw [etruncate_keeps whole le small (.inl kept) (Nat.le_refl _)] at run
      cases run
      have mem : cs[len ⌈/⌉ fat.byts_per_clus] ∈ cs.drop (len ⌈/⌉ fat.byts_per_clus) := by
        rw [List.drop_eq_getElem_cons fewer]
        exact List.mem_cons_self
      exact chain.entry_ne_zero (List.getElem_mem fewer) (truncated.back _ mem)
  · intro same
    have all : len ⌈/⌉ fat.byts_per_clus = cs.length := same.trans count.symm
    have kept : 0 < len ⌈/⌉ fat.byts_per_clus ∨ cs = [] := by
      rw [all, List.length_pos_iff]
      exact (em (cs = [])).symm
    refine ⟨_, d, fun limit enough => etruncate_keeps whole le small kept enough, rfl, ?_, ?_,
      fun x _ => rfl⟩
    · rw [all, List.take_length]
      refine ⟨all.symm, fun some => ?_, fun nothing => ?_⟩
      · obtain ⟨chain, cursor⟩ := whole.chain some
        exact ⟨chain, cursor.first, cursor.here⟩
      · obtain ⟨first, rewound⟩ := whole.none nothing
        refine ⟨first, ?_⟩
        rw [Dirent.rewind] at rewound ⊢
        exact congrArg (fun e : Dirent => { e with file_size := len }) rewound
    · rw [all, List.drop_length]
      exact fun c mem => absurd mem List.not_mem_nil

/-- A file of two clusters. -/
def pairDisk : Disk := linkDisk 3 FAT32_EOF

def pairFile : Dirent :=
  { bareFile with first_clus := 2, cur_clus := 2, clus_cnt := 0, file_size := 1000 }

theorem pairDisk_entry : ringVolume.entry pairDisk 2 = 3 ∧ ringVolume.entry pairDisk 3 = FAT32_EOF :=
  linkDisk_entry (by decide) (by decide)

theorem pairFile_whole : Whole ringVolume pairDisk [2, 3] pairFile where
  count := rfl
  chain _ := by
    have first : ringVolume.next pairDisk 2 = some 3 := by
      rw [Geometry.next, show pairDisk.fetch _ _ = _ from pairDisk_entry.1]
      rfl
    have last : ringVolume.next pairDisk 3 = none := by
      rw [Geometry.next, show pairDisk.fetch _ _ = _ from pairDisk_entry.2]
      rfl
    exact ⟨⟨⟨first, last⟩, by decide⟩, rfl, rfl⟩
  none nothing := absurd nothing (by decide)

/-- A file of 1000 bytes that is cut to 600 keeps both of its clusters. -/
theorem etruncate_truncates_pair : ∃ e' d', (∀ limit ≥ 4,
    etruncate ringVolume limit pairFile (600 : Nat) pairDisk = .ok ((0, e'), d')) ∧
      Truncated ringVolume pairDisk [2, 3] 600 e' d' :=
  (etruncate_truncates_iff pairFile_whole (by decide) (by decide)).mpr rfl

/-- Of one that is cut to 100 bytes the second cluster is not given back. -/
theorem etruncate_leaks_pair : ¬∃ e' d', (∀ limit ≥ 4,
    etruncate ringVolume limit pairFile (100 : Nat) pairDisk = .ok ((0, e'), d')) ∧
      Truncated ringVolume pairDisk [2, 3] 100 e' d' := by
  rintro ⟨e', d', returns, truncated⟩
  have run := returns 4 (Nat.le_refl _)
  rw [etruncate_keeps pairFile_whole (by decide) (by decide) (.inl (by decide)) (by decide)] at run
  cases run
  have free : ringVolume.entry pairDisk 3 = 0 := truncated.back 3 (by decide)
  rw [pairDisk_entry.2] at free
  cases free

end AvxKernel.Fat
