import AvxKernel.Vm.Paging

/-! The copies between kernel and user memory of `vm.c`, over `memmove` on the
kernel's own addresses. A call that uses an address the kernel does not map
takes a kernel trap, which panics. -/
namespace AvxKernel.Vm

/-- The kernel's addresses: the two direct-map windows that `entry.S` sets up,
and what `kvminit` maps below them. -/
def mapped (a : Nat) : Bool :=
  a >>> 60 == 9 || a >>> 60 == 8 ||
  (TRAMPOLINE ≤ a && a < TRAMPOLINE + PGSIZE) ||
  (SIGTRAMPOLINE ≤ a && a < SIGTRAMPOLINE + PGSIZE) ||
  (List.range NPROC).any fun p => PROCVKSTACK p ≤ a && a < PROCVKSTACK p + KSTACKSIZE

def loadByte (a : Nat) : Machine Ram UInt8 := do
  let s ← get
  if mapped a then return s.mem a else Machine.halt .fault

def storeByte (a : Nat) (b : UInt8) : Machine Ram Unit := do
  let s ← get
  if mapped a then set (s.setMem (s.mem.fill a 1 b)) else Machine.halt .fault

/-- `memmove`, whose count is a `uint`. -/
def memmove (dst src n : Nat) : Machine Ram Unit := do
  let s ← get
  if (List.range (u32 n)).all fun i => mapped (src + i) && mapped (dst + i) then
    set (s.setMem (s.mem.copy dst src (u32 n)))
  else
    Machine.halt .fault

theorem mapped_frame {pa : Nat} (frame : Frame pa) {i : Nat} (hi : i < PGSIZE) :
    mapped (pa + i) = true := by
  obtain ⟨k, hk, rfl⟩ := frame.eq_add
  have top : (DMWIN_MASK + PGSIZE * k + i) >>> 60 = 9 := by
    rw [Nat.shiftRight_eq_div_pow, show DMWIN_MASK = 9 * 2 ^ 60 by decide]
    rw [PGSIZE] at *
    omega
  simp [mapped, top]

theorem memmove_frames {s : Ram} {dst src n : Nat} (hd : Frame dst) (hs : Frame src) (hn : n ≤ PGSIZE) :
    memmove dst src n s = .ok ((), s.setMem (s.mem.copy dst src n)) := by
  have count : u32 n = n := Nat.mod_eq_of_lt (lt_of_le_of_lt hn (by decide))
  have all : ((List.range n).all fun i => mapped (src + i) && mapped (dst + i)) = true := by
    rw [List.all_eq_true]
    intro i hi
    have lt : i < PGSIZE := lt_of_lt_of_le (List.mem_range.mp hi) hn
    rw [mapped_frame hs lt, mapped_frame hd lt]
    rfl
  rw [memmove, Machine.bind_of_ok (Machine.get_run s), count, if_pos all]
  rfl

/-- Records that the user bytes from `va` on are used through address `a`. -/
def touch (va a n : Nat) : Machine Ram Unit :=
  modify fun s => { s with touched := (List.range n).map (fun i => (va + i, a + i)) ++ s.touched }

theorem chunk_pos (va : Nat) : 0 < PGSIZE - (va - PGROUNDDOWN va) := by
  have := Nat.mod_lt va (show 0 < PGSIZE by decide)
  have := Nat.mod_add_div' va PGSIZE
  rw [PGROUNDDOWN]
  omega

/-- The page-by-page loop that `copyin`, `copyout` and `copyout_zero` share:
`move` is their call of `memmove`, from the kernel side at `kernel`. -/
def copyPages (pagetable : Nat) (move : Nat → Nat → Nat → Machine Ram Unit)
    (kernel va len : Nat) : Machine Ram Int :=
  if len = 0 then
    return 0
  else do
    let va0 := PGROUNDDOWN va
    let pa0 ← walkaddr pagetable va0
    if pa0 = 0 then
      return -1
    else
      let n := min (PGSIZE - (va - va0)) len
      touch va (pa0 + (va - va0) ||| DMWIN_MASK) n
      move kernel (pa0 + (va - va0) ||| DMWIN_MASK) n
      copyPages pagetable move (u64 (kernel + n)) (u64 (va0 + PGSIZE)) (len - n)
termination_by len
decreasing_by
  have := chunk_pos va
  omega

/-- The second argument of `memmove` is its source: `copyout_zero` copies from address 0. -/
def copyout_zero (pagetable dstva len : Nat) : Machine Ram Int :=
  copyPages pagetable (fun _ dst n => memmove dst 0 n) 0 dstva len

def copyout (pagetable dstva src len : Nat) : Machine Ram Int :=
  if MAXVA < dstva then
    Machine.panic "copyout: dstva > MAXVA"
  else if src < PROCVKSTACK (NPROC - 1) then
    Machine.panic "copyout: src < KSTACK"
  else
    copyPages pagetable (fun src dst n => memmove dst src n) src dstva len

def copyin (pagetable dst srcva len : Nat) : Machine Ram Int :=
  if MAXVA < srcva ∧ srcva &&& DMWIN_MASK ≠ 0 then
    Machine.panic "copyin: srcva > MAXVA & srcva is not in 0x9000(x)"
  else
    copyPages pagetable (fun dst src n => memmove dst src n) dst srcva len

/-- The inner loop of `copyinstr`: whether it meets a NUL among `n` bytes. -/
def copyinstrBytes (va : Nat) : Nat → Nat → Nat → Nat → Machine Ram Bool
  | _, _, _, 0 => return false
  | i, p, dst, n + 1 => do
    touch (va + i) p 1
    let b ← loadByte p
    if b = 0 then
      storeByte dst 0
      return true
    else
      storeByte dst b
      copyinstrBytes va (i + 1) (p + 1) (dst + 1) n

/-- Where the inner loop meets no NUL it has stepped `max` and `dst` by `n`. -/
def copyinstr (pagetable dst srcva max : Nat) : Machine Ram Int :=
  if max = 0 then
    return -1
  else do
    let va0 := PGROUNDDOWN srcva
    let pa0 ← walkaddr pagetable va0
    if pa0 = 0 then
      return -1
    else
      let n := min (PGSIZE - (srcva - va0)) max
      let got_null ← copyinstrBytes srcva 0 (pa0 + (srcva - va0) ||| DMWIN_MASK) dst n
      if got_null then
        return 0
      else
        copyinstr pagetable (dst + n) (u64 (va0 + PGSIZE)) (max - n)
termination_by max
decreasing_by
  have := chunk_pos srcva
  omega

end AvxKernel.Vm
