import Xv6.AddressSpace
import Xv6.CopyInStr
import Xv6.InodeRefs

/-!
# `exec`

The code of `exec.c`, and `sys_exec` that fetches its arguments. It works on memory and on
the file system at once, so its state has both (`Exec.State`), with two things that the file
system code leaves out: which inodes the process has locked, and how many of its file system
operations are going on.

`exec` has three parts. `load` finds the file, makes a page table and loads the segments; `stack`
adds a stack with the arguments; then the process gets the new page table and the old one
is freed. A failure in any of them goes to the same clean-up, `bad`.

The array `ustack` has `MAXARG` places, and the zero behind the addresses of `MAXARG` arguments is
stored outside of it. What the machine does then is not said, so the model stops there.
-/

open Prog hiding get modify panic result

namespace Xv6

/-! ## The headers -/

/-- `"\x7FELF"` in little endian. -/
def ELF_MAGIC : ℕ := 0x464C457F

/-- The type of a header whose segment is loaded. -/
def ELF_PROG_LOAD : ℕ := 1

/-- The bytes of `struct elfhdr`. -/
def ELFHDRSIZE : ℕ := 64

/-- The bytes of `struct proghdr`. -/
def PROGHDRSIZE : ℕ := 56

/-- The fields of the file header that `exec` uses. -/
structure Elfhdr where
  magic : ℕ
  entry : ℕ
  phoff : ℕ
  phnum : ℕ
  deriving DecidableEq, Repr

/-- A file header in memory. -/
def Elfhdr.load (b : List UInt8) : Elfhdr :=
  let bytes : Bytes ELFHDRSIZE := fun i => b.getD i 0
  ⟨bytes.getLE 0 4, bytes.getLE 24 8, bytes.getLE 32 8, bytes.getLE 56 2⟩

/-- The fields of a program section header that `exec` uses. -/
structure Proghdr where
  type : ℕ
  off : ℕ
  vaddr : ℕ
  filesz : ℕ
  memsz : ℕ
  deriving DecidableEq, Repr

/-- A program section header in memory. -/
def Proghdr.load (b : List UInt8) : Proghdr :=
  let bytes : Bytes PROGHDRSIZE := fun i => b.getD i 0
  ⟨bytes.getLE 0 4, bytes.getLE 8 8, bytes.getLE 16 8, bytes.getLE 32 8, bytes.getLE 40 8⟩

namespace Exec

/-! ## The state -/

/-- The state of the code: memory and the processes, the file system, the current directories,
the inodes that the process has locked, and the operations it has begun and not ended. -/
structure State where
  k : Kernel
  fs : Fs
  cwd : Fin NPROC → Fin NINODE
  locked : Multiset (Fin NINODE)
  ops : ℤ

/-- Why the machine stops. -/
inductive Stop
  | mem (e : Panic)
  | fs (e : FsPanic)
  | iunlock
  | ustackOverflow

/-- The code of `exec`. -/
abbrev ExecProg (α : Type) : Type := Prog Stop State α

/-- Code of the kernel in `exec`. -/
def onKernel {α : Type} (m : KernelProg α) : ExecProg α := fun st =>
  match m st.k with
  | .ok (a, k) => .ok (a, { st with k := k })
  | .error e => .error (.mem e)

/-- Code that works on memory in `exec`. -/
def onMem {α : Type} (m : MemProg α) : ExecProg α := onKernel (Kernel.onMem m)

/-- Code of the file system in `exec`. -/
def onFs {α : Type} (m : FsProg α) : ExecProg α := fun st =>
  match m st.fs with
  | .ok (a, fs) => .ok (a, { st with fs := fs })
  | .error e => .error (.fs e)

section

variable {α : Type} {st : State} {P : Stop → Prop} {Q : α → State → Prop}

/-- The state with other memory. -/
def State.withMem (st : State) (mem : PhysMem) : State :=
  { st with k := { st.k with mem := mem } }

/-- The state with another file system. -/
def State.withFs (st : State) (fs : Fs) : State := { st with fs := fs }

theorem ends_onKernel {m : KernelProg α}
    (h : Ends m st.k (fun e => P (.mem e)) fun a k => Q a { st with k := k }) :
    Ends (onKernel m) st P Q := by
  unfold Ends onKernel at *
  cases hm : m st.k with
  | error e =>
    rw [hm] at h
    exact h
  | ok r =>
    rw [hm] at h
    exact h

theorem ends_onMem {m : MemProg α}
    (h : Ends m st.k.mem (fun e => P (.mem e)) fun a mem => Q a (st.withMem mem)) :
    Ends (onMem m) st P Q :=
  ends_onKernel (Kernel.ends_onMem h)

theorem onMem_ok {m : MemProg α} {st' : State} {a : α} (h : onMem m st = .ok (a, st')) :
    ∃ mem, m st.k.mem = .ok (a, mem) ∧ st' = st.withMem mem := by
  have hends : Ends (onMem m) st (fun _ => True) fun a st' =>
      ∃ mem, m st.k.mem = .ok (a, mem) ∧ st' = st.withMem mem :=
    ends_onMem ((ends_trivial m st.k.mem).with_run.mono fun _ mem hrun => ⟨mem, hrun.2, rfl⟩)
  exact hends.of_ok h

theorem ends_onFs {m : FsProg α}
    (h : Ends m st.fs (fun e => P (.fs e)) fun a fs => Q a (st.withFs fs)) :
    Ends (onFs m) st P Q := by
  unfold Ends onFs at *
  cases hm : m st.fs with
  | error e =>
    rw [hm] at h
    exact h
  | ok r =>
    rw [hm] at h
    exact h

end

/-- A file system operation begins. -/
def begin_op : ExecProg Unit := Prog.modify fun st => { st with ops := st.ops + 1 }

/-- A file system operation ends. -/
def end_op : ExecProg Unit := Prog.modify fun st => { st with ops := st.ops - 1 }

section

variable (sb : Superblock)

/-- Lock an inode. -/
def ilock (ip : Fin NINODE) : ExecProg Unit := do
  Prog.modify fun st => { st with locked := ip ::ₘ st.locked }
  onFs (Xv6.ilock sb ip)

/-- Unlock an inode. -/
def iunlock (ip : Fin NINODE) : ExecProg Unit := do
  let st ← Prog.get
  if ip ∉ st.locked ∨ (st.fs.itable ip).ref < 1 then Prog.panic .iunlock
  else Prog.modify fun st => { st with locked := st.locked.erase ip }

/-- Release an inode and put it. -/
def iunlockput (ip : Fin NINODE) : ExecProg Unit := do
  iunlock ip
  onFs (iput sb ip)

/-- Read from a file to kernel memory. -/
def readKernel (ip : Fin NINODE) (off n : UInt32) : ExecProg (ℤ × List UInt8) :=
  onFs (readi sb ip (fun _ _ => true) off n)

/-! ## Loading -/

/-- The loop of `loadseg`, with `n` rounds; `i` does not get near the end of its `uint`. -/
def loadsegLoop (pagetable va : ℕ) (ip : Fin NINODE) (offset : UInt32) (sz : ℕ) :
    ℕ → ℕ → ExecProg ℤ
  | 0, _ => pure 0
  | n + 1, i => do
    let pa ← onMem (walkaddr pagetable (u64 (va + i)))
    if pa = 0 then Prog.panic (.mem .loadseg)
    else do
      let m := min (sz - i) PGSIZE
      let r ← readKernel sb ip (offset + UInt32.ofNat i) (UInt32.ofNat m)
      onMem (Prog.modify fun s => s.store pa ((s.mem pa).blit 0 r.2))
      if r.1 ≠ m then pure (-1)
      else loadsegLoop pagetable va ip offset sz n (i + PGSIZE)

/-- Load a segment of `sz` bytes of a file to the pages at `va`. -/
def loadseg (pagetable va : ℕ) (ip : Fin NINODE) (offset sz : UInt32) : ExecProg ℤ :=
  loadsegLoop sb pagetable va ip offset sz.toNat (pageRounds 0 sz.toNat) 0

section

variable [KernelImage]

/-- The loop over the program headers, `n` of them: whether all were loaded, and the size of memory.
The offset `off` is an `int` that is passed on as a `uint`. -/
def loadLoop (pagetable : ℕ) (ip : Fin NINODE) : ℕ → UInt32 → ℕ → ExecProg (Bool × ℕ)
  | 0, _, sz => pure (true, sz)
  | n + 1, off, sz => do
    let r ← readKernel sb ip off (UInt32.ofNat PROGHDRSIZE)
    if r.1 ≠ PROGHDRSIZE then pure (false, sz)
    else
      let ph := Proghdr.load r.2
      if ph.type ≠ ELF_PROG_LOAD then
        loadLoop pagetable ip n (off + UInt32.ofNat PROGHDRSIZE) sz
      else if ph.memsz < ph.filesz then pure (false, sz)
      else if u64 (ph.vaddr + ph.memsz) < ph.vaddr then pure (false, sz)
      else do
        let sz1 ← onMem (uvmalloc pagetable sz (u64 (ph.vaddr + ph.memsz)))
        if sz1 = 0 then pure (false, sz)
        else if ph.vaddr % PGSIZE ≠ 0 then pure (false, sz1)
        else do
          let r ← loadseg sb pagetable ph.vaddr ip (UInt32.ofNat ph.off) (UInt32.ofNat ph.filesz)
          if r < 0 then pure (false, sz1)
          else loadLoop pagetable ip n (off + UInt32.ofNat PROGHDRSIZE) sz1

/-- The clean-up at `bad`: free the new page table, and release the file. -/
def bad (pagetable : Option ℕ) (sz : ℕ) (ip : Option (Fin NINODE)) : ExecProg Unit := do
  match pagetable with
  | none => pure ()
  | some pagetable => onMem (proc_freepagetable pagetable sz)
  match ip with
  | none => pure ()
  | some ip => do
    iunlockput sb ip
    end_op

/-- The segments of an open file: a page table with them and its size. -/
def loadFile (p : Fin NPROC) (ip : Fin NINODE) : ExecProg (Option (ℕ × ℕ × Elfhdr)) := do
  let st ← Prog.get
  let r ← readKernel sb ip 0 (UInt32.ofNat ELFHDRSIZE)
  let elf := Elfhdr.load r.2
  if r.1 ≠ ELFHDRSIZE ∨ elf.magic ≠ ELF_MAGIC then do
    bad sb none 0 (some ip)
    pure none
  else do
    match ← onMem (proc_pagetable ((st.k.proc p).trapframe.getD 0)) with
    | none => do
      bad sb none 0 (some ip)
      pure none
    | some pagetable => do
      let res ← loadLoop sb pagetable ip elf.phnum (UInt32.ofNat elf.phoff) 0
      if res.1 then do
        iunlockput sb ip
        end_op
        pure (some (pagetable, res.2, elf))
      else do
        bad sb (some pagetable) res.2 (some ip)
        pure none

/-- Begin an operation, and lock the inode of a path. -/
def openFile (p : Fin NPROC) (path : List UInt8) : ExecProg (Option (Fin NINODE)) := do
  begin_op
  let st ← Prog.get
  match ← onFs (namei sb (st.cwd p) path) with
  | none => do
    end_op
    pure none
  | some ip => do
    ilock sb ip
    pure (some ip)

/-- The first part of `exec`: the file of a path is loaded. -/
def load (p : Fin NPROC) (path : List UInt8) : ExecProg (Option (ℕ × ℕ × Elfhdr)) := do
  match ← openFile sb p path with
  | none => pure none
  | some ip => loadFile sb p ip

/-! ## The stack -/

/-- Subtraction of 64-bit numbers. -/
def usub (a b : ℕ) : ℕ := u64 (a + (2 ^ 64 - u64 b))

/-- The bytes of a `uint64`. -/
def u64Bytes (v : ℕ) : List UInt8 := (List.range 8).map fun i => UInt8.ofNat (v / 256 ^ i)

omit [KernelImage] in
/-- Push the argument strings from the `argc`-th on: the stack pointer, and their addresses. -/
def pushArgs (pagetable stackbase : ℕ) :
    List (List UInt8) → ℕ → ℕ → List ℕ → MemProg (Option (ℕ × List ℕ))
  | [], _, sp, ustack => pure (some (sp, ustack))
  | arg :: rest, argc, sp, ustack =>
    if MAXARG ≤ argc then pure none
    else
      let sp := usub sp (arg.length + 1)
      let sp := sp - sp % 16
      if sp < stackbase then pure none
      else do
        let r ← copyout pagetable sp (arg ++ [0])
        if r < 0 then pure none
        else pushArgs pagetable stackbase rest (argc + 1) sp (ustack ++ [sp])

omit [KernelImage] in
/-- Push the array of the addresses, with a zero behind them: the stack pointer. -/
def pushArgv (pagetable stackbase sp : ℕ) (ustack : List ℕ) : ExecProg (Option ℕ) :=
  if ustack.length = MAXARG then Prog.panic .ustackOverflow
  else
    let sp := usub sp ((ustack.length + 1) * 8)
    let sp := sp - sp % 16
    if sp < stackbase then pure none
    else do
      let r ← onMem (copyout pagetable sp ((ustack ++ [0]).flatMap u64Bytes))
      if r < 0 then pure none else pure (some sp)

/-- The second part of `exec`: a page that is guarded and a stack page with the arguments. The
result is the stack pointer, and the size that memory has then. -/
def stack (pagetable sz : ℕ) (argv : List (List UInt8)) : ExecProg (Option ℕ × ℕ) := do
  let sz := PGROUNDUP sz
  let sz1 ← onMem (uvmalloc pagetable sz (u64 (sz + 2 * PGSIZE)))
  if sz1 = 0 then pure (none, sz)
  else do
    onMem (uvmclear pagetable (usub sz1 (2 * PGSIZE)))
    let stackbase := usub sz1 PGSIZE
    match ← onMem (pushArgs pagetable stackbase argv 0 sz1 []) with
    | none => pure (none, sz1)
    | some (sp, ustack) => do
      let res ← pushArgv pagetable stackbase sp ustack
      pure (res, sz1)

/-! ## `exec` -/

/-- The name of a program: what is behind the last slash of its path. -/
def lastName (path : List UInt8) : List UInt8 :=
  (path.reverse.takeWhile (· ≠ slash)).reverse

/-- Copy a string to a buffer of 16 bytes: at most 15 bytes of it, with its zero, and then one
more zero. -/
def safestrcpy (old : Bytes 16) (s : List UInt8) : Bytes 16 :=
  old.blit 0 ((s ++ [0]).take 15 ++ [0])

/-- The process with the new image. -/
def commit (path : List UInt8) (pagetable sz sp : ℕ) (elf : Elfhdr) (q : Proc) : Proc :=
  { q with
    regs := { q.regs with a1 := sp, epc := elf.entry, sp := sp }
    name := safestrcpy q.name (lastName path)
    pagetable := some pagetable
    sz := sz }

/-- The rest of `exec`, when the file was loaded: the stack, and then the process gets the new
page table. -/
def finish (p : Fin NPROC) (path : List UInt8) (argv : List (List UInt8)) (pagetable sz : ℕ)
    (elf : Elfhdr) : ExecProg ℤ := do
  let st ← Prog.get
  let oldsz := (st.k.proc p).sz
  match ← stack pagetable sz argv with
  | (none, sz) => do
    bad sb (some pagetable) sz none
    pure (-1)
  | (some sp, sz) => do
    let oldpagetable := st.k.pagetableOf p
    onKernel (Kernel.setProc p (commit path pagetable sz sp elf))
    onMem (proc_freepagetable oldpagetable oldsz)
    pure argv.length

/-- Replace the memory of process `p` by the program at `path`, with the arguments `argv`. -/
def exec (p : Fin NPROC) (path : List UInt8) (argv : List (List UInt8)) : ExecProg ℤ := do
  match ← load sb p path with
  | none => pure (-1)
  | some (pagetable, sz, elf) => finish sb p path argv pagetable sz elf

/-! ## `sys_exec` -/

/-- The `uint64` at `addr` of process `p`. -/
def fetchaddr (p : Fin NPROC) (addr : ℕ) : KernelProg (Option ℕ) := do
  let k ← Prog.get
  if (k.proc p).sz ≤ addr ∨ (k.proc p).sz < u64 (addr + 8) then pure none
  else do
    let res ← Kernel.onMem (copyin (k.pagetableOf p) addr 8)
    if res.2 ≠ 0 then pure none
    else
      let bytes : Bytes 8 := fun i => res.1.getD i 0
      pure (some (bytes.getLE 0 8))

/-- Fetch the arguments from the `i`-th on, at most `n`, each to a page of its own. It returns the
pages, and the arguments if there were not too many. -/
def fetchArgs (p : Fin NPROC) (uargv : ℕ) :
    ℕ → ℕ → List ℕ → List (List UInt8) → KernelProg (List ℕ × Option (List (List UInt8)))
  | 0, _, pages, _ => pure (pages, none)
  | n + 1, i, pages, argv => do
    match ← fetchaddr p (u64 (uargv + 8 * i)) with
    | none => pure (pages, none)
    | some uarg =>
      if uarg = 0 then pure (pages, some argv)
      else do
        match ← Kernel.onMem kalloc with
        | none => pure (pages, none)
        | some page => do
          let res ← fetchstr p uarg PGSIZE
          Kernel.onMem (Prog.modify fun s => s.store page ((s.mem page).blit 0 res.1))
          if res.2 < 0 then pure (pages ++ [page], none)
          else
            fetchArgs p uargv n (i + 1) (pages ++ [page]) (argv ++ [res.1.takeWhile (· ≠ 0)])

/-- Free the pages of the arguments. -/
def freeArgs : List ℕ → MemProg Unit
  | [] => pure ()
  | page :: pages => do
    kfree page
    freeArgs pages

/-- The system call. -/
def sys_exec (p : Fin NPROC) : ExecProg ℤ := do
  let path ← onKernel (argstr p 0 MAXPATH)
  if path.2 < 0 then pure (-1)
  else do
    let uargv ← onKernel (argraw p 1)
    match ← onKernel (fetchArgs p uargv MAXARG 0 [] []) with
    | (pages, none) => do
      onMem (freeArgs pages)
      pure (-1)
    | (pages, some argv) => do
      let ret ← exec sb p (path.1.takeWhile (· ≠ 0)) argv
      onMem (freeArgs pages)
      pure ret

end

end

end Exec

end Xv6
