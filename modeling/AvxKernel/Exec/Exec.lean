import AvxKernel.Exec.Load

/-! `exec` itself, one definition for each stretch of it between two points at
which it may fail. The arrays of the source stay in memory, at the addresses of
the image; a failure is a call of `bad` with the values that its locals have
there. -/
namespace AvxKernel.Exec

open Vm

def AT_PHDR : Nat := 3
def AT_PHENT : Nat := 4
def AT_PHNUM : Nat := 5
def AT_PAGESZ : Nat := 6
def AT_BASE : Nat := 7
def AT_ENTRY : Nat := 9
def AT_UID : Nat := 11
def AT_EUID : Nat := 12
def AT_GID : Nat := 13
def AT_EGID : Nat := 14
def AT_HWCAP : Nat := 16
def AT_SECURE : Nat := 23
def AT_RANDOM : Nat := 25

def O_WRONLY : Nat := 0x001
def O_CREATE : Nat := 0x040
def O_APPEND : Nat := 0x400

/-- `enum redir`. -/
inductive Redir where
  | out
  | append
deriving DecidableEq, Repr

section Memory

variable (limit : Nat)

def strlen (s : Nat) : Machine Ram Nat :=
  Machine.loop (fun n => do
    if (← loadByte (s + n)) = 0 then return .inr n else return .inl (n + 1)) limit 0

/-- The characters of a C string. -/
def cstring (s : Nat) : Machine Ram (List UInt8) := do
  let n ← strlen limit s
  let k ← get
  return k.mem.window s n

/-- The failure value is -1 in the `int` that the source returns, and so 2^64-1
where the caller keeps it. -/
def user_stack_push_str (pt ustack str sp stackbase : Nat) : Machine Ram Nat := do
  let argc := u64 ((← peek ustack 8) + 1)
  poke ustack 8 argc
  if MAXARG + 1 < argc then
    return 2 ^ 64 - 1
  else
    let len := (← strlen limit str) + 1
    let sp := u64 (sp + (2 ^ 64 - u64 len))
    let sp := sp - sp % 16
    if sp < stackbase then
      return 2 ^ 64 - 1
    else if (← copyout pt sp str len) < 0 then
      return 2 ^ 64 - 1
    else
      poke (u64 (ustack + 8 * argc)) 8 sp
      poke (u64 (ustack + 8 * (argc + 1))) 8 0
      return s32 sp

def alloc_aux (aux atid value : Nat) : Machine Ram Unit := do
  let argc ← peek aux 8
  poke (u64 (aux + 8 * (argc * 2 + 1))) 8 atid
  poke (u64 (aux + 8 * (argc * 2 + 2))) 8 value
  poke (u64 (aux + 8 * (argc * 2 + 3))) 8 0
  poke (u64 (aux + 8 * (argc * 2 + 4))) 8 0
  poke aux 8 (u64 ((← peek aux 8) + 1))

def loadaux (pagetable sp stackbase aux : Nat) : Machine Ram Nat := do
  let argc := s32 (← peek aux 8)
  if argc = 0 then
    return s32 sp
  else
    let len := s32 (2 * argc + 2) * 8
    let sp := u64 (sp + (2 ^ 64 - u64 len))
    if sp < stackbase then
      return 2 ^ 64 - 1
    else
      poke aux 8 0
      if (← copyout pagetable sp (aux + 8) (u64 len)) < 0 then
        return 2 ^ 64 - 1
      else
        return s32 sp

end Memory

def is_sh_script (path : List UInt8) : Bool :=
  path.drop (path.length - 3) == [46, 115, 104]

/-- What follows the last slash, cut by `safestrcpy` to the size of `p->name`. -/
def programName (path : List UInt8) : List UInt8 :=
  ((path.reverse.takeWhile (· ≠ 47)).reverse).take 15

variable {F : Type} (limit : Nat) (image : Image) (fsys : FileSystem F)

/-- The label `bad`, with the locals that it reads. -/
def bad (is_shell_script : Bool) (pagetable sz interpreter ep : Nat) : Machine (Kernel F) Int := do
  (if pagetable ≠ 0 then onRam (proc_freepagetable limit pagetable sz) else return ())
  (if interpreter ≠ 0 then do
    onFs (fsys.eunlock interpreter)
    onFs (fsys.eput interpreter)
  else
    return ())
  (if ep ≠ 0 then do
    onFs (fsys.eunlock ep)
    onFs (fsys.eput ep)
  else
    return ())
  if is_shell_script then
    Machine.halt (.exit 0)
  else
    return -1

def NOFILEMAX (p : Proc) : Nat := if p.filelimit < NOFILE then p.filelimit else NOFILE

def closeOnExec : Machine (Kernel F) Unit := do
  let p ← myproc
  (List.range (NOFILEMAX p)).forM fun fd => do
    let p ← myproc
    if p.ofile fd ≠ 0 ∧ p.exec_close fd ≠ 0 then
      onFs (fsys.fileclose (p.ofile fd))
      modifyProc fun p => { p with
        ofile := Function.update p.ofile fd 0
        exec_close := Function.update p.exec_close fd 0 }
    else
      return ()

/-- Whether the file of a redirection could be opened as file 1. -/
def redirect (redirection : Redir) (redir_file : Nat) : Machine (Kernel F) Bool := do
  let p ← myproc
  onFs (fsys.fileclose (p.ofile 1))
  modifyProc fun p => { p with ofile := Function.update p.ofile 1 0 }
  let name ← onRam (cstring limit redir_file)
  let omode := match redirection with
    | .out => O_WRONLY ||| O_CREATE
    | .append => O_WRONLY ||| O_CREATE ||| O_APPEND
  let p ← myproc
  let (fd, ofile) ← onFs (fsys.file_open name omode p.ofile)
  modifyProc fun p => { p with ofile := ofile }
  if fd ≠ 1 then
    return false
  else
    modifyProc fun p => { p with exec_close := Function.update p.exec_close 1 1 }
    return true

/-- What the argument loop hands on. -/
structure Args where
  argc : Nat
  sp : Nat
  redirection : Option Redir
  redir_file : Option Nat

/-- The loop over `argv`; none where it goes to `bad`. -/
def pushArgs (pagetable argv sp stackbase : Nat) : Machine Ram (Option Args) :=
  Machine.loop (fun a => do
    let arg ← peek (u64 (argv + 8 * a.argc)) 8
    if arg = 0 then
      return .inr (some a)
    else
      let text ← cstring limit arg
      if text = [62] then
        return .inl { a with argc := a.argc + 1, redirection := some .out }
      else if text = [62, 62] then
        return .inl { a with argc := a.argc + 1, redirection := some .append }
      else if a.redirection.isSome ∧ a.redir_file.isNone then
        return .inl { a with argc := a.argc + 1, redir_file := some arg }
      else if MAXARG ≤ a.argc then
        return .inr none
      else
        let sp ← user_stack_push_str limit pagetable image.ustack arg a.sp stackbase
        if sp = 2 ^ 64 - 1 then
          return .inr none
        else
          return .inl { a with argc := a.argc + 1, sp }) limit ⟨0, sp, none, none⟩

def pushEnv (pagetable env sp stackbase : Nat) : Machine Ram (Option Nat) :=
  if env = 0 then
    return some sp
  else
    Machine.loop (fun (envnum, sp) => do
      let str ← peek (u64 (env + 8 * envnum)) 8
      if str = 0 then
        return .inr (some sp)
      else
        let sp ← user_stack_push_str limit pagetable image.envp str sp stackbase
        if sp = 2 ^ 64 - 1 then return .inr none else return .inl (envnum + 1, sp)) limit (0, sp)

/-- The auxiliary vector, from an array of zeros. -/
def fillAux (elf : Elfhdr) (ph_vaddr interp_start_addr sp : Nat) : Machine Ram Unit := do
  let aux := image.aux
  memset aux 0 ((MAXARG * 2 + 3) * 8)
  alloc_aux aux AT_HWCAP 0
  alloc_aux aux AT_PAGESZ PGSIZE
  alloc_aux aux AT_PHDR ph_vaddr
  alloc_aux aux AT_PHENT elf.phentsize
  alloc_aux aux AT_PHNUM elf.phnum
  alloc_aux aux AT_BASE interp_start_addr
  alloc_aux aux AT_ENTRY elf.entry
  alloc_aux aux AT_UID 0
  alloc_aux aux AT_EUID 0
  alloc_aux aux AT_GID 0
  alloc_aux aux AT_EGID 0
  alloc_aux aux AT_SECURE 0
  alloc_aux aux AT_RANDOM sp

/-- Lays a vector of pointers out below `sp`; none where it goes to `bad`. The
vector of the arguments is aligned before the check, that of the environment
after it. -/
def pushVector (alignFirst : Bool) (pagetable sp stackbase src words : Nat) :
    Machine Ram (Option Nat) := do
  let low := u64 (sp + (2 ^ 64 - u64 (words * 8)))
  let sp := low - low % 16
  if (if alignFirst then sp else low) < stackbase then
    return none
  else if (← copyout pagetable sp src (u64 (words * 8))) < 0 then
    return none
  else
    return some sp

/-- From the first string on the new stack to the pointers to the arguments. -/
def buildStack (elf : Elfhdr) (ph_vaddr interp_start_addr pagetable argv env sp stackbase : Nat) :
    Machine Ram (Option Args) := do
  poke image.envp 8 0
  let sp ← user_stack_push_str limit pagetable image.envp image.ub_bindir sp stackbase
  if sp = 2 ^ 64 - 1 then
    return none
  else
    poke image.random 8 0xcde142a16cb93072
    poke (image.random + 8) 8 0x128a39c127d8bbf2
    let sp := u64 (sp + (2 ^ 64 - 16))
    if sp < stackbase then
      return none
    else if (← copyout pagetable sp image.random 16) < 0 then
      return none
    else
      fillAux image elf ph_vaddr interp_start_addr sp
      poke image.ustack 8 0
      match ← pushArgs limit image pagetable argv sp stackbase with
      | none => return none
      | some args =>
        match ← pushEnv limit image pagetable env args.sp stackbase with
        | none => return none
        | some sp =>
          let sp ← loadaux pagetable sp stackbase image.aux
          if sp = 2 ^ 64 - 1 then
            return none
          else
            let argc ← peek image.envp 8
            match ← (if argc = 0 then return some sp
              else pushVector false pagetable sp stackbase (image.envp + 8) (argc + 1)) with
            | none => return none
            | some sp =>
              let argc ← peek image.ustack 8
              match ← pushVector true pagetable sp stackbase image.ustack (argc + 2) with
              | none => return none
              | some sp => return some { args with argc, sp }

/-- From the first write to the trap frame to the end. -/
def commit (path pagetable sz oldpagetable oldsz program_entry : Nat) (args : Args) :
    Machine (Kernel F) Int := do
  let p ← myproc
  let name ← onRam do
    poke (p.trapframe + 32) 8 (u64 (args.sp + 8))
    cstring limit path
  modifyProc fun p => { p with name := programName name, pagetable, sz }
  onRam do
    poke (p.trapframe + 264) 8 program_entry
    poke (p.trapframe + 16) 8 args.sp
  closeOnExec fsys
  let opened ← (match args.redirection with
    | none => return true
    | some redirection => redirect limit fsys redirection (args.redir_file.getD 0))
  if opened then
    onRam (proc_freepagetable limit oldpagetable oldsz)
    return (if u32 args.argc < 2 ^ 31 then u32 args.argc else u32 args.argc - 2 ^ 32 : Int)
  else
    bad limit fsys false pagetable sz 0 0

/-- The program's entry point and the interpreter's address, or the interpreter
to be put back at `bad`, 0 if it was not found. -/
def loadInterpreter (elf : Elfhdr) (pagetable : Nat) (is_dynamic : Bool) :
    Machine (Kernel F) (Except Nat (Nat × Nat)) :=
  if is_dynamic then do
    let interpreter ← onFs (fsys.ename [47, 108, 105, 98, 99, 46, 115, 111])
    if interpreter = 0 then
      return .error 0
    else
      onFs (fsys.elock interpreter)
      match ← readelfhdr fsys interpreter with
      | none => return .error interpreter
      | some interpreter_elf =>
        let start ← load_elf_interp limit fsys pagetable interpreter_elf interpreter
        onFs (fsys.eunlock interpreter)
        onFs (fsys.eput interpreter)
        return .ok (u64 (start + interpreter_elf.entry), start)
  else
    return .ok (elf.entry, 0)

/-- From the new page table on. -/
def execImage (path argv env ep pagetable oldpagetable : Nat) (elf : Elfhdr) :
    Machine (Kernel F) Int := do
  modifyProc fun p => { p with pagetable }
  -- the result is unsigned, so that it is never below 0, whether the segments are there or not
  let (_, l) ← loadelf limit image fsys elf ep pagetable
  match ← loadInterpreter limit fsys elf pagetable l.is_dynamic with
  | .error interpreter => bad limit fsys false pagetable l.sz interpreter ep
  | .ok (program_entry, interp_start_addr) =>
    onFs (fsys.eunlock ep)
    onFs (fsys.eput ep)
    let p ← myproc
    -- the result of `alloc_vma_stack` is not looked at
    let _ ← onRam (alloc_vma_stack limit p)
    let sp ← onRam (get_proc_sp limit p)
    let stackbase := u64 (sp + (2 ^ 64 - INIT_STACK_SIZE))
    match ← onRam (buildStack limit image elf l.ph_vaddr interp_start_addr pagetable argv env
        sp stackbase) with
    | none => bad limit fsys false pagetable l.sz 0 0
    | some args => commit limit fsys path pagetable l.sz oldpagetable p.sz program_entry args

/-- From the lookup of the program on. -/
def execPath (path argv env : Nat) : Machine (Kernel F) Int := do
  let p ← myproc
  let name ← onRam (cstring limit path)
  if is_sh_script name then
    bad limit fsys true 0 0 0 0
  else
    let ep ← onFs (fsys.ename name)
    if ep = 0 then
      bad limit fsys false 0 0 0 0
    else
      onFs (fsys.elock ep)
      match ← readelfhdr fsys ep with
      | none => bad limit fsys false 0 0 0 ep
      | some elf =>
        let pagetable ← proc_pagetable limit image
        if pagetable = 0 then
          bad limit fsys false 0 0 0 ep
        else
          execImage limit image fsys path argv env ep pagetable p.pagetable elf

def exec (path argv env : Nat) : Machine (Kernel F) Int := do
  let _ ← free_vma_list limit
  let _ ← vma_init limit
  execPath limit image fsys path argv env

end AvxKernel.Exec
