import Xv6.Kalloc

/-!
# Processes

The process table of `proc.h`, with the fields that the system calls below read
or set. A pointer that may be null is an `Option`; a pointer into the table is
an index.

The page of a trapframe and the contents of that page stand apart: the page
is what the allocator handed out, and the saved registers are the ones the
system calls below read and set.
-/

namespace Xv6

/-- Maximum number of processes. -/
def NPROC : ℕ := 64

instance : NeZero NPROC := ⟨by decide⟩

/-- Open files per process. -/
def NOFILE : ℕ := 16

/-- Open files per system. -/
def NFILE : ℕ := 100

/-- The states of a slot of the process table. -/
inductive ProcState
  | UNUSED
  | USED
  | SLEEPING
  | RUNNABLE
  | RUNNING
  | ZOMBIE
  deriving DecidableEq, Repr

/-- The number of a state in `enum procstate`. -/
def ProcState.num : ProcState → ℕ
  | UNUSED => 0
  | USED => 1
  | SLEEPING => 2
  | RUNNABLE => 3
  | RUNNING => 4
  | ZOMBIE => 5

/-- The saved user registers that system calls use. -/
structure Trapframe where
  epc : ℕ
  sp : ℕ
  a0 : ℕ
  a1 : ℕ
  a2 : ℕ
  a3 : ℕ
  a4 : ℕ
  a5 : ℕ
  a7 : ℕ
  deriving DecidableEq, Repr

/-- A process. -/
structure Proc where
  state : ProcState
  pid : ℤ
  parent : Option (Fin NPROC)
  sz : ℕ
  pagetable : Option ℕ
  trapframe : Option ℕ
  regs : Trapframe
  name : Bytes 16

/-- A free slot of the process table. -/
def unusedProc : Proc where
  state := .UNUSED
  pid := 0
  parent := none
  sz := 0
  pagetable := none
  trapframe := none
  regs := ⟨0, 0, 0, 0, 0, 0, 0, 0, 0⟩
  name := .fill 16 0

/-- What an open file is. -/
inductive FileType
  | FD_NONE
  | FD_PIPE
  | FD_INODE
  | FD_DEVICE
  deriving DecidableEq, Repr

/-- The state of the kernel: memory and the process table. -/
structure Kernel where
  mem : PhysMem
  proc : Fin NPROC → Proc

/-- A kernel with one process. -/
def Kernel.single (mem : PhysMem) (q : Proc) : Kernel where
  mem := mem
  proc := Function.update (fun _ => unusedProc) 0 q

/-- Code of the kernel. -/
abbrev KernelProg (α : Type) : Type := Prog Panic Kernel α

namespace Kernel

/-- Code that works on memory, run by the kernel. -/
def onMem {α : Type} (m : MemProg α) : KernelProg α := fun k =>
  match m k.mem with
  | .ok (a, mem) => .ok (a, { k with mem := mem })
  | .error e => .error e

/-- The page table of a process. -/
def pagetableOf (k : Kernel) (p : Fin NPROC) : ℕ := (k.proc p).pagetable.getD 0

/-- Change the entry of one process. -/
def setProc (p : Fin NPROC) (f : Proc → Proc) : KernelProg Unit :=
  Prog.modify fun k => { k with proc := Function.update k.proc p (f (k.proc p)) }

theorem onMem_ok {α : Type} {m : MemProg α} {k k' : Kernel} {a : α} :
    onMem m k = .ok (a, k') ↔ ∃ mem, m k.mem = .ok (a, mem) ∧ k' = { k with mem := mem } := by
  unfold onMem
  cases h : m k.mem with
  | error e => simp
  | ok r =>
    obtain ⟨b, mem⟩ := r
    constructor
    · intro h'
      obtain ⟨rfl, rfl⟩ := Prod.mk.inj (Except.ok.inj h')
      exact ⟨mem, rfl, rfl⟩
    · rintro ⟨mem', h', rfl⟩
      obtain ⟨rfl, rfl⟩ := Prod.mk.inj (Except.ok.inj h')
      rfl

theorem ends_onMem {α : Type} {m : MemProg α} {k : Kernel} {P : Panic → Prop}
    {Q : α → Kernel → Prop} (h : Prog.Ends m k.mem P fun a mem => Q a { k with mem := mem }) :
    Prog.Ends (onMem m) k P Q := by
  unfold Prog.Ends onMem at *
  cases hm : m k.mem with
  | error e =>
    rw [hm] at h
    exact h
  | ok r =>
    rw [hm] at h
    exact h

end Kernel

end Xv6
