import AvxKernel.Fat.Beside

/-! What a file holds, as a list of bytes, and what reading and writing it comes to. -/
namespace AvxKernel.Fat

variable {fat : Geometry} {cs : List Nat} {data bytes : List UInt8} {d d' : Disk} {e : Dirent}
  {off n : Nat}

/-- The clusters of a file and its bytes; an empty file may have no clusters. -/
structure Contents (fat : Geometry) (cs : List Nat) (data : List UInt8) (d : Disk) (e : Dirent) : Prop where
  chain : Regular fat d cs e ∨ cs = [] ∧ e.first_clus = 0 ∧ data = []
  file : e.isDir = false
  size : e.file_size = data.length
  bytes : ∀ i (hi : i < data.length), fileBytes fat d cs i = data[i]

/-- Only where the file was read last has changed. -/
def SameFile (e e' : Dirent) : Prop :=
  ∃ cur_clus clus_cnt, e' = { e with cur_clus, clus_cnt }

/-- The bytes that are there of those asked for, where offsets are 32 bits wide. -/
def portion (data : List UInt8) (off n : Nat) : List UInt8 :=
  if off + n < 2 ^ 32 then (data.drop off).take n else []

/-- The bytes laid down over those that are there. -/
def overlay (data : List UInt8) (off : Nat) (bytes : List UInt8) : List UInt8 :=
  data.take off ++ bytes ++ data.drop (off + bytes.length)

/-- Whether `ewrite` takes the bytes. -/
def Accepts (attr : Nat) (data : List UInt8) (off n : Nat) : Prop :=
  off ≤ data.length ∧ off + n < 2 ^ 32 ∧ attr &&& ATTR_READ_ONLY = 0

instance (attr : Nat) (data : List UInt8) (off n : Nat) : Decidable (Accepts attr data off n) :=
  inferInstanceAs (Decidable (_ ∧ _ ∧ _))

theorem overlay_length (le : off ≤ data.length) :
    (overlay data off bytes).length = max data.length (off + bytes.length) := by
  simp only [overlay, List.length_append, List.length_take, List.length_drop]
  omega

theorem overlay_getElem (le : off ≤ data.length) {i : Nat} (hi : i < (overlay data off bytes).length)
    {m : Memory} (holds : ∀ i (hi : i < data.length), m i = data[i]) :
    m.blit off bytes i = (overlay data off bytes)[i] := by
  have front : (data.take off).length = off := by
    rw [List.length_take]
    omega
  rw [overlay_length le] at hi
  simp only [overlay]
  by_cases inside : off ≤ i ∧ i < off + bytes.length
  · obtain ⟨k, rfl⟩ := Nat.exists_eq_add_of_le inside.1
    have hk : k < bytes.length := by omega
    rw [Memory.blit_inside _ _ hk, List.getElem_append_left (by rw [List.length_append]; omega),
      List.getElem_append_right (by omega)]
    simp only [front, Nat.add_sub_cancel_left]
  · rw [Memory.blit_outside _ (by omega), holds i (by omega)]
    by_cases low : i < off
    · rw [List.getElem_append_left (by rw [List.length_append]; omega),
        List.getElem_append_left (by omega), List.getElem_take]
    · rw [List.getElem_append_right (by rw [List.length_append]; omega), List.getElem_drop]
      congr 1
      rw [List.length_append]
      omega

/-- The clusters of a chain and their entries in the table are as they were. -/
structure Intact (fat : Geometry) (cs : List Nat) (d d' : Disk) : Prop where
  entries : ∀ c ∈ cs, fat.entry d' c = fat.entry d c
  bytes : ∀ c ∈ cs, ∀ i < fat.byts_per_clus, d' (fat.clusterAt c + i) = d (fat.clusterAt c + i)

theorem Intact.refl (fat : Geometry) (cs : List Nat) (d : Disk) : Intact fat cs d d :=
  ⟨fun _ _ => rfl, fun _ _ _ _ => rfl⟩

/-- Of two states that are both as a third one was, one is as the other. -/
theorem Intact.between {d'' : Disk} (h : Intact fat cs d d') (h' : Intact fat cs d d'') : Intact fat cs d' d'' where
  entries c mem := (h'.entries c mem).trans (h.entries c mem).symm
  bytes c mem i hi := (h'.bytes c mem i hi).trans (h.bytes c mem i hi).symm

theorem Spared.intact (h : Spared fat cs d d') : Intact fat cs d d' := ⟨h.entries, h.bytes⟩

/-- The bytes of the file are those of its clusters. -/
theorem Contents.intact (h : Contents fat cs data d e) (intact : Intact fat cs d d') :
    Contents fat cs data d' e := by
  obtain ⟨chain, file, size, bytes⟩ := h
  rcases chain with regular | ⟨rfl, first, rfl⟩
  · refine ⟨.inl { regular with clusters := regular.clusters.congr intact.entries }, file, size, ?_⟩
    intro i hi
    rw [← bytes i hi]
    have covered := regular.covered
    obtain ⟨mem, -⟩ := regular.clusters.chain_range (show i < cs.length * fat.byts_per_clus by omega)
    exact intact.bytes _ mem _ (Nat.mod_lt _ Geometry.byts_per_clus_pos)
  · exact ⟨.inr ⟨rfl, first, rfl⟩, file, size, fun i hi => absurd hi (Nat.not_lt_zero i)⟩

theorem Contents.congr (h : Contents fat cs data d e) (spared : Spared fat cs d d') :
    Contents fat cs data d' e := h.intact spared.intact

theorem Contents.same (h : Contents fat cs data d e) {k : Nat} (hk : k < cs.length) :
    Contents fat cs data d (e.seek cs k) := by
  obtain ⟨chain, file, size, bytes⟩ := h
  rcases chain with regular | ⟨rfl, first, rfl⟩
  · exact ⟨.inl { regular with cursor := regular.cursor.seek hk }, file, size, bytes⟩
  · exact absurd hk (Nat.not_lt_zero k)

/-- Whether the entry is valid is nothing to its contents. -/
theorem Contents.mark (h : Contents fat cs data d e) (valid : Int) :
    Contents fat cs data d { e with valid } where
  chain := h.chain.imp_left fun regular => ⟨regular.clusters,
    ⟨regular.cursor.first, regular.cursor.here⟩, regular.file, regular.covered, regular.narrow⟩
  file := h.file
  size := h.size
  bytes := h.bytes

theorem Contents.narrow (h : Contents fat cs data d e) : data.length < 2 ^ 32 := by
  rcases h.chain with regular | ⟨-, -, rfl⟩
  · rw [← h.size]
    exact regular.narrow
  · exact Nat.two_pow_pos 32

/-- Reading gives the bytes of the file, and changes nothing of it. -/
theorem Contents.eread_run (h : Contents fat cs data d e) (hn : n < 2 ^ 32) : ∃ e',
    eread fat e off n d = .ok ((lowInt (portion data off n).length, portion data off n, e'), d) ∧
      SameFile e e' ∧ Contents fat cs data d e' := by
  have narrow := h.narrow
  by_cases small : off + n < 2 ^ 32
  · rcases h.chain with regular | ⟨rfl, -, rfl⟩
    · obtain ⟨k, hk, run⟩ := Fat.eread_run regular small
      have got : (fileBytes fat d cs).window off (min n (e.file_size - off)) = portion data off n := by
        rw [portion, if_pos small, h.size]
        apply List.ext_getElem
        · simp only [Memory.window_length, List.length_take, List.length_drop]
        · intro i hi hi'
          rw [Memory.window_length] at hi
          rw [Memory.window_getElem, List.getElem_take, List.getElem_drop]
          exact h.bytes (off + i) (by omega)
      refine ⟨e.seek cs k, ?_, ⟨_, _, rfl⟩, h.same hk⟩
      rw [run, ← got, Memory.window_length]
    · have none : portion [] off n = [] := by
        rw [portion, if_pos small, List.drop_nil, List.take_nil]
      refine ⟨e, ?_, ⟨_, _, rfl⟩, h⟩
      rw [none, eread, h.size]
      split
      · rfl
      · next inside =>
        rw [List.length_nil, not_or, Nat.not_lt, Nat.le_zero] at inside
        obtain ⟨rfl, -⟩ := inside
        have whole : u32 (0 + n) = n := by
          rw [Nat.zero_add]
          exact Nat.mod_eq_of_lt hn
        have stop : (if ([] : List UInt8).length < n then ([] : List UInt8).length - 0 else n) = 0 := by
          split
          · rfl
          · next none => exact Nat.le_zero.mp (Nat.not_lt.mp none)
        have done : ereadFrom fat 0 (0 + 1) e 0 0 d = .ok (([], e), d) := by
          rw [ereadFrom, if_neg fun goes => absurd goes.2 (Nat.lt_irrefl 0)]
          rfl
        rw [whole, stop]
        exact Machine.bind_of_ok done
  · have past : e.file_size < off ∨ u32 (off + n) < off := by
      rw [h.size, u32]
      omega
    refine ⟨e, ?_, ⟨_, _, rfl⟩, h⟩
    rw [portion, if_neg small, eread, if_pos (or_assoc.mp (.inl past))]
    rfl

/-- What is taken is laid down in the file, as far as its clusters go. -/
theorem Contents.ewrite_run (h : Contents fat cs data d e) (accepts : Accepts e.attr data off bytes.length)
    (some : cs ≠ []) (room : off + bytes.length ≤ cs.length * fat.byts_per_clus) :
    ∃ file_size cur_clus clus_cnt dirty d',
      ewrite fat e (.ofBytes bytes) off bytes.length d =
        .ok ((lowInt bytes.length, { e with file_size, cur_clus, clus_cnt, dirty }), d') ∧
      Contents fat cs (overlay data off bytes) d' { e with file_size, cur_clus, clus_cnt, dirty } ∧
      ∀ a, Outside fat cs a → d' a = d a := by
  obtain ⟨start, small, writable⟩ := accepts
  have regular := h.chain.resolve_right fun ⟨empty, _⟩ => some empty
  have covered := regular.covered
  rw [h.size] at covered
  obtain ⟨k, hk, dirty, d', run, there, away⟩ :=
    Fat.ewrite_run regular writable (h.size ▸ start) room small
  have narrow := h.narrow
  have size : max e.file_size (off + bytes.length) = (overlay data off bytes).length := by
    rw [overlay_length start, h.size]
  refine ⟨_, _, _, _, d', run, ⟨.inl ?_, regular.file, size, ?_⟩, away⟩
  · apply regular.resized away hk
    · rw [h.size]
      omega
    · rw [h.size]
      omega
  · intro i hi
    have inside := hi
    rw [overlay_length start] at inside
    rw [there i (by omega)]
    exact overlay_getElem start hi h.bytes

/-- What is not taken changes nothing. -/
theorem Contents.ewrite_rejects (h : Contents fat cs data d e)
    (rejects : ¬Accepts e.attr data off bytes.length) :
    ewrite fat e (.ofBytes bytes) off bytes.length d = .ok ((-1, e), d) := by
  have refused : e.file_size < off ∨ u32 (off + bytes.length) < off ∨ 0xffffffff < off + bytes.length ∨
      e.attr &&& ATTR_READ_ONLY ≠ 0 := by
    by_contra taken
    simp only [not_or, ne_eq, not_not, h.size] at taken
    exact rejects ⟨by omega, by omega, taken.2.2.2⟩
  rw [ewrite, if_pos refused]
  rfl

/-- All clusters of the file are given back, and no others. -/
theorem Contents.etrunc_run (h : Contents fat cs data d e) (enough : fat.data_clus_cnt + 2 ≤ n) :
    ∃ e' d', etrunc fat n e d = .ok (e', d') ∧ fat.Cleared d d' (· ∈ cs) := by
  rcases h.chain with regular | ⟨rfl, first, -⟩
  · obtain ⟨c, rest, rfl⟩ := List.exists_cons_of_ne_nil regular.clusters.chain.ne_nil
    have few := regular.clusters.length_le
    rw [List.length_cons] at few
    have enough : rest.length + 1 < n := by omega
    obtain ⟨d', run, cleared⟩ := regular.clusters.etruncFrom_run enough
    have begins : c = e.first_clus := Option.some.inj regular.cursor.first
    rw [begins] at run
    refine ⟨{ e with file_size := 0, first_clus := 0, dirty := true }, d', ?_, cleared⟩
    rw [etrunc, Machine.bind_of_ok run]
    rfl
  · obtain ⟨n, rfl⟩ : ∃ m, n = m + 1 := ⟨n - 1, by omega⟩
    have run : etruncFrom fat (n + 1) e.first_clus d = .ok ((), d) := by
      rw [first, etruncFrom, if_neg (by decide)]
      rfl
    refine ⟨{ e with file_size := 0, first_clus := 0, dirty := true }, d, ?_,
      fun c _ mem => absurd mem List.not_mem_nil, fun _ _ => rfl⟩
    rw [etrunc, Machine.bind_of_ok run]
    rfl

/-- The file's own bytes change: still nothing else points into its chain. -/
theorem Spared.own {d₀ : Disk} (h : Spared fat cs d₀ d) (away : ∀ a, Outside fat cs a → d' a = d a) :
    Spared fat cs d' d' ∧ ∀ c, fat.InRange c → fat.entry d' c = fat.entry d c := by
  have tables : ∀ c, fat.InRange c → fat.entry d' c = fat.entry d c := by
    intro c range
    apply Memory.fetch_congr
    intro i hi
    apply away
    intro c' _
    have := @Geometry.entryAt_lt_clusterAt fat c c' range
    omega
  refine ⟨⟨h.range, fun c range out => ?_, fun _ _ => rfl, fun _ _ _ _ => rfl⟩, tables⟩
  rw [tables c range]
  exact h.closed c range out

end AvxKernel.Fat
