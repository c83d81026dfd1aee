import Xv6.Param
import Xv6.Proc
import Xv6.UserMemory

/-!
# The `getprocs` system call

`getprocs` is meant to list the process table to the caller: one `uproc`
record for every process that is not UNUSED. This module follows the call
from the dispatcher in `syscall.c` over `sys_getprocs` to `procinfo` in
`proc.c`.

The dispatcher calls every handler without arguments, so the pointer that
`sys_getprocs` passes on is whatever the argument register holds at that
time; `procinfo` steps that pointer but copies to the address of its own
local variable, and the length of the copy is the value of the comparison
`sizeof(tempproc) < 0`. So nothing is copied and the copy never fails
(`procinfoLoop_eq`).
-/

namespace Xv6

open Pool List

/-! ## The dispatcher -/

/-- The system calls. -/
inductive Syscall
  | fork | exit | wait | pipe | read | kill | exec | fstat | chdir | dup | getpid | sbrk
  | sleep | uptime | open | write | mknod | unlink | link | mkdir | close | getprocs
  deriving DecidableEq, Repr

/-- The table of handlers, by the numbers of `syscall.h`. -/
def syscalls : List (Option Syscall) :=
  [none, some .fork, some .exit, some .wait, some .pipe, some .read, some .kill, some .exec,
    some .fstat, some .chdir, some .dup, some .getpid, some .sbrk, some .sleep, some .uptime,
    some .open, some .write, some .mknod, some .unlink, some .link, some .mkdir, some .close,
    some .getprocs]

/-- The number of `getprocs`. -/
def SYS_getprocs : ℕ := 22

/-- The handler a number selects, if it is in the table. -/
def syscallHandler (num : ℤ) : Option Syscall :=
  if 0 < num ∧ num < syscalls.length then (syscalls.getD num.toNat none) else none

/-- Run the system call of process `p`: its number is in `a7`, and the result
goes to `a0`. -/
def syscall (handler : Syscall → KernelProg ℤ) (p : Fin NPROC) : KernelProg Unit := do
  let k ← Prog.get
  match syscallHandler (int32 ((k.proc p).regs.a7 % 2 ^ 32)) with
  | some call => do
    let r ← handler call
    Kernel.setProc p fun q => { q with regs := { q.regs with a0 := toReg r } }
  | none => Kernel.setProc p fun q => { q with regs := { q.regs with a0 := toReg (-1) } }

/-! ## The handler -/

/-- Bytes in a `struct uproc`: four `int` fields and a name of 16 bytes. -/
def UPROCSIZE : ℕ := 32

/-- The names of the states, as `procinfo` has them. -/
def states : ProcState → Option String
  | .UNUSED => some "unused"
  | .USED => none
  | .SLEEPING => some "sleep "
  | .RUNNABLE => some "runble"
  | .RUNNING => some "run   "
  | .ZOMBIE => some "zombie"

/-- What the call frame of `procinfo` brings along: where its local variable
`it` is, and what is on the stack where `tempproc` is in each round. -/
structure ProcinfoFrame where
  it : ℕ
  tempproc : ℕ → Bytes UPROCSIZE

/-- An `int` as four bytes of memory hold it. -/
def toWord (v : ℤ) : ℕ := (v % 2 ^ 32).toNat

/-- The record of a process, assembled in `tempproc`: the first one has the
process's own `pid`, the later ones that of its parent. -/
def procinfoRecord (k : Kernel) (frame : ProcinfoFrame) (counter : ℕ) (p : Proc) :
    MemProg (Bytes UPROCSIZE) :=
  let tempproc := (((frame.tempproc counter).setLE 0 4 (toWord p.pid)).setLE 8 4 p.sz).setLE
    4 4 p.state.num
  if counter = 0 then pure tempproc
  else
    match p.parent with
    | none => Prog.panic .kerneltrap
    | some parent => pure (tempproc.setLE 0 4 (toWord (k.proc parent).pid))

/-- The call of `copyout`, whose closing parenthesis stands behind the
comparison: it copies as many bytes of the record as `sizeof(tempproc) < 0`
says. -/
def procinfoCopy (pagetable : ℕ) (frame : ProcinfoFrame) (tempproc : Bytes UPROCSIZE) :
    MemProg ℤ :=
  copyout pagetable frame.it ((ofFn tempproc).take (if UPROCSIZE < 0 then 1 else 0))

/-- The loop of `procinfo` over the table, with its pointer and counter. -/
def procinfoLoop (k : Kernel) (pagetable : ℕ) (frame : ProcinfoFrame) :
    List Proc → ℕ → ℕ → MemProg ℤ
  | [], _, counter => pure counter
  | p :: ps, it, counter =>
    if p.state = .UNUSED then
      procinfoLoop k pagetable frame ps it counter
    else if (states p.state).isSome then do
      let tempproc ← procinfoRecord k frame counter p
      let r ← procinfoCopy pagetable frame tempproc
      if r ≠ 0 then pure (-1)
      else procinfoLoop k pagetable frame ps (it + UPROCSIZE) (counter + 1)
    else
      procinfoLoop k pagetable frame ps it counter

/-- List the processes, for process `p`. -/
def procinfo (frame : ProcinfoFrame) (p : Fin NPROC) (uproc : ℕ) : KernelProg ℤ := do
  let k ← Prog.get
  Kernel.onMem (procinfoLoop k ((k.proc p).pagetable.getD 0) frame
    ((finRange NPROC).map k.proc) uproc 0)

/-- The handler: pass the pointer on. -/
def sys_getprocs (frame : ProcinfoFrame) (p : Fin NPROC) (uproc : ℕ) : KernelProg ℤ :=
  procinfo frame p uproc

/-- The system call of process `p`, where the handler of `getprocs` finds `arg`
in its argument register. -/
def getprocsCall (handler : Syscall → KernelProg ℤ) (frame : ProcinfoFrame) (arg : ℕ)
    (p : Fin NPROC) : KernelProg Unit :=
  syscall (Function.update handler .getprocs (sys_getprocs frame p arg)) p

/-! ## What `procinfo` computes -/

/-- The processes `procinfo` makes a record for. -/
def named (ps : List Proc) : List Proc :=
  ps.filter fun p => p.state ≠ .UNUSED ∧ (states p.state).isSome

/-- Every process whose parent the loop looks at has one. -/
def ParentsKnown (counter : ℕ) (ps : List Proc) : Prop :=
  ∀ p ∈ (if counter = 0 then (named ps).tail else named ps), p.parent.isSome

theorem named_cons_of_named {p : Proc} {ps : List Proc} (hu : p.state ≠ .UNUSED)
    (hs : (states p.state).isSome) : named (p :: ps) = p :: named ps := by
  unfold named
  rw [filter_cons_of_pos]
  simpa using ⟨hu, hs⟩

theorem named_cons_of_not {p : Proc} {ps : List Proc}
    (h : ¬ (p.state ≠ .UNUSED ∧ (states p.state).isSome)) : named (p :: ps) = named ps := by
  unfold named
  rw [filter_cons_of_neg]
  simpa using h

/-- **The copy copies nothing**, and does not fail. -/
theorem procinfoCopy_eq (pt : ℕ) (frame : ProcinfoFrame) (tempproc : Bytes UPROCSIZE) :
    procinfoCopy pt frame tempproc = pure 0 := by
  unfold procinfoCopy
  rw [if_neg (Nat.not_lt_zero _), take_zero, copyout_nil]

/-- The record can be made unless a parent is needed that is not there. -/
theorem procinfoRecord_eq (k : Kernel) (frame : ProcinfoFrame) (counter : ℕ) (p : Proc)
    (s : PhysMem) :
    (counter = 0 ∨ p.parent.isSome → ∃ b, procinfoRecord k frame counter p s = .ok (b, s))
    ∧ (¬ (counter = 0 ∨ p.parent.isSome) →
      procinfoRecord k frame counter p s = .error .kerneltrap) := by
  unfold procinfoRecord
  by_cases hc : counter = 0
  · rw [if_pos hc]
    exact ⟨fun _ => ⟨_, rfl⟩, fun h => absurd (.inl hc) h⟩
  · rw [if_neg hc]
    cases hp : p.parent with
    | none => exact ⟨fun h => by simp [hc] at h, fun _ => rfl⟩
    | some q => exact ⟨fun _ => ⟨_, rfl⟩, fun h => absurd (.inr rfl) h⟩

/-- **Nothing is listed**: `procinfo` leaves memory as it is and returns the
number of named processes, unless it meets a null parent. -/
theorem procinfoLoop_eq (k : Kernel) (pt : ℕ) (frame : ProcinfoFrame) (ps : List Proc)
    (it counter : ℕ) (s : PhysMem) :
    (ParentsKnown counter ps →
      procinfoLoop k pt frame ps it counter s
        = .ok (((counter + (named ps).length : ℕ) : ℤ), s))
    ∧ (¬ ParentsKnown counter ps →
      procinfoLoop k pt frame ps it counter s = .error .kerneltrap) := by
  induction ps generalizing it counter with
  | nil => exact ⟨fun _ => rfl, fun h => absurd (fun p hp => by simp [named] at hp) h⟩
  | cons p ps ih =>
    by_cases hnamed : p.state ≠ .UNUSED ∧ (states p.state).isSome
    · obtain ⟨hu, hs⟩ := hnamed
      have hlist : named (p :: ps) = p :: named ps := named_cons_of_named hu hs
      obtain ⟨hok, herr⟩ := procinfoRecord_eq k frame counter p s
      obtain ⟨ihok, iherr⟩ := ih (it + UPROCSIZE) (counter + 1)
      have hsplit : ParentsKnown counter (p :: ps)
          ↔ (counter = 0 ∨ p.parent.isSome) ∧ ParentsKnown (counter + 1) ps := by
        unfold ParentsKnown
        rw [hlist, if_neg (Nat.succ_ne_zero counter)]
        by_cases hc : counter = 0 <;> simp [hc]
      rw [hsplit, hlist, procinfoLoop, if_neg hu, if_pos hs]
      by_cases hparent : counter = 0 ∨ p.parent.isSome
      · obtain ⟨b, hb⟩ := hok hparent
        rw [Prog.bind_of_ok hb, procinfoCopy_eq, Prog.bind_of_ok rfl, if_neg (by simp)]
        constructor
        · rintro ⟨-, hrest⟩
          rw [ihok hrest, length_cons]
          congr 3
          omega
        · exact fun hnot => iherr fun hrest => hnot ⟨hparent, hrest⟩
      · rw [Prog.bind_of_error (herr hparent)]
        exact ⟨fun h => absurd h.1 hparent, fun _ => rfl⟩
    · have hlist : named (p :: ps) = named ps := named_cons_of_not hnamed
      have hround : procinfoLoop k pt frame (p :: ps) it counter s
          = procinfoLoop k pt frame ps it counter s := by
        rw [procinfoLoop]
        split
        · rfl
        · rename_i hu
          rw [if_neg fun hs => hnamed ⟨hu, hs⟩]
      have hknown : ParentsKnown counter (p :: ps) ↔ ParentsKnown counter ps := by
        unfold ParentsKnown
        rw [hlist]
      rw [hround, hlist, hknown]
      exact ih it counter

/-! ## What the call is for -/

/-- The processes to be listed, in table order. -/
def Kernel.listed (k : Kernel) : List Proc :=
  ((finRange NPROC).map k.proc).filter fun p => p.state ≠ .UNUSED

/-- The record that describes a process: its `pid`, state, size, the `pid` of
its parent or 0, and its name. -/
def Kernel.uprocOf (k : Kernel) (p : Proc) : Bytes UPROCSIZE :=
  let ppid := match p.parent with
    | none => 0
    | some parent => (k.proc parent).pid
  (((((Bytes.fill UPROCSIZE 0).setLE 0 4 (toWord p.pid)).setLE 4 4 p.state.num).setLE
    8 4 p.sz).setLE 12 4 (toWord ppid)).blit 16 (ofFn p.name)

/-- The records stand at `a0` in user memory, one behind the other. -/
def RecordsAt (mem : ℕ → Page) (pagetable a0 : ℕ) (records : List (Bytes UPROCSIZE)) : Prop :=
  ∀ i b, b < UPROCSIZE → ∀ r, records[i]? = some r →
    userByte mem pagetable (a0 + i * UPROCSIZE + b) = some (r.byteAt b)

/-- **A faithful listing.** Where `NPROC` records can be stored at `a0`, the call
returns the number of processes, leaves their records there, and changes
no other user memory; where one of the records cannot be stored, it returns
-1. -/
def ListsProcesses (k : Kernel) (p : Fin NPROC) (run : Except Panic (Unit × Kernel)) : Prop :=
  let a0 := (k.proc p).regs.a0
  let pagetable := (k.proc p).pagetable.getD 0
  (UserRange k.mem.mem pagetable a0 (NPROC * UPROCSIZE) →
    ∃ k', run = .ok ((), k') ∧ (k'.proc p).regs.a0 = k.listed.length
    ∧ RecordsAt k'.mem.mem pagetable a0 (k.listed.map k.uprocOf)
    ∧ ∀ va, va < a0 ∨ a0 + k.listed.length * UPROCSIZE ≤ va →
        userByte k'.mem.mem pagetable va = userByte k.mem.mem pagetable va)
  ∧ ((∃ i < k.listed.length,
        ¬ UserRange k.mem.mem pagetable (a0 + i * UPROCSIZE) UPROCSIZE) →
    ∃ k', run = .ok ((), k') ∧ (k'.proc p).regs.a0 = toReg (-1))

/-! ## When the listing is faithful -/

section

variable {k : Kernel} {p : Fin NPROC} (handler : Syscall → KernelProg ℤ) (frame : ProcinfoFrame)
  (arg : ℕ)

/-- The processes of the table that get a record. -/
def Kernel.named (k : Kernel) : List Proc := Xv6.named ((finRange NPROC).map k.proc)

theorem Kernel.named_eq (k : Kernel) :
    k.named = k.listed.filter fun p => (states p.state).isSome := by
  unfold Kernel.named Kernel.listed Xv6.named
  rw [filter_filter]
  refine filter_congr fun p _ => ?_
  simp [Bool.and_comm]

theorem Kernel.forall_named_iff (k : Kernel) :
    (∀ r ∈ k.listed, (states r.state).isSome) ↔ ∀ q, (k.proc q).state ≠ .USED := by
  unfold Kernel.listed
  simp only [mem_filter, mem_map, mem_finRange, true_and]
  constructor
  · intro h q hq
    have hr := h (k.proc q) ⟨⟨q, rfl⟩, by simp [hq]⟩
    rw [hq] at hr
    cases hr
  · rintro h r ⟨⟨q, rfl⟩, -⟩
    have hq := h q
    cases hstate : (k.proc q).state with
    | USED => exact absurd hstate hq
    | _ => rfl

theorem Kernel.named_length_eq_iff (k : Kernel) :
    k.named.length = k.listed.length ↔ ∀ q, (k.proc q).state ≠ .USED := by
  rw [k.named_eq, ← k.forall_named_iff]
  exact length_filter_eq_length_iff

theorem Kernel.named_eq_listed {k : Kernel} (h : ∀ q, (k.proc q).state ≠ .USED) :
    k.named = k.listed := by
  rw [k.named_eq]
  exact filter_eq_self.mpr (k.forall_named_iff.mpr h)

/-- How the call ends: with the number of named processes in `a0` and memory as
it was, or in a page fault of the kernel. -/
theorem getprocsCall_eq (ha7 : (k.proc p).regs.a7 = SYS_getprocs) :
    (ParentsKnown 0 ((finRange NPROC).map k.proc) →
      ∃ k', getprocsCall handler frame arg p k = .ok ((), k')
        ∧ (k'.proc p).regs.a0 = k.named.length ∧ k'.mem = k.mem)
    ∧ (¬ ParentsKnown 0 ((finRange NPROC).map k.proc) →
      getprocsCall handler frame arg p k = .error .kerneltrap) := by
  obtain ⟨hok, herr⟩ := procinfoLoop_eq k ((k.proc p).pagetable.getD 0) frame
    ((finRange NPROC).map k.proc) arg 0 k.mem
  have hhandler : syscallHandler (int32 ((k.proc p).regs.a7 % 2 ^ 32)) = some .getprocs := by
    rw [ha7]
    decide
  have hcall : getprocsCall handler frame arg p k
      = ((sys_getprocs frame p arg) >>= fun r =>
        Kernel.setProc p fun q => { q with regs := { q.regs with a0 := toReg r } }) k := by
    unfold getprocsCall syscall
    rw [Prog.get_bind]
    simp only [hhandler, Function.update_self]
  rw [hcall]
  constructor
  · intro hknown
    have hproc : sys_getprocs frame p arg k = .ok ((k.named.length : ℤ), k) := by
      unfold sys_getprocs procinfo
      rw [Prog.get_bind, Kernel.onMem_ok]
      refine ⟨k.mem, ?_, rfl⟩
      rw [hok hknown, Nat.zero_add]
      rfl
    rw [Prog.bind_of_ok hproc]
    refine ⟨_, rfl, ?_, rfl⟩
    show (Function.update k.proc p _ p).regs.a0 = _
    rw [Function.update_self]
    show ((k.named.length : ℤ) % 2 ^ 64).toNat = _
    have hle : k.named.length ≤ NPROC := by
      refine le_trans (length_filter_le _ _) ?_
      rw [length_map, length_finRange]
    unfold NPROC at hle
    omega
  · intro hnot
    refine Prog.bind_of_error ?_
    unfold sys_getprocs procinfo
    rw [Prog.get_bind]
    unfold Kernel.onMem
    rw [herr hnot]

/-- A call that returns has the number of named processes in `a0`. -/
theorem getprocsCall_of_ok (ha7 : (k.proc p).regs.a7 = SYS_getprocs) {k' : Kernel}
    (hrun : getprocsCall handler frame arg p k = .ok ((), k')) :
    ParentsKnown 0 ((finRange NPROC).map k.proc)
    ∧ (k'.proc p).regs.a0 = k.named.length ∧ k'.mem = k.mem := by
  obtain ⟨hok, herr⟩ := getprocsCall_eq handler frame arg ha7
  by_cases hknown : ParentsKnown 0 ((finRange NPROC).map k.proc)
  · obtain ⟨k'', hrun', hres⟩ := hok hknown
    obtain rfl : k' = k'' := congrArg Prod.snd (Except.ok.inj (hrun.symm.trans hrun'))
    exact ⟨hknown, hres⟩
  · rw [herr hknown] at hrun
    cases hrun

/-- **Exactly when `getprocs` lists the processes**: every record that is needed
can be stored, and if there is room for `NPROC` records then no process is
USED, every process to be listed but the first has a parent, and the records
stand in user memory already. -/
theorem getprocs_lists_iff (ha7 : (k.proc p).regs.a7 = SYS_getprocs) :
    ListsProcesses k p (getprocsCall handler frame arg p k)
    ↔ (∀ i < k.listed.length, UserRange k.mem.mem ((k.proc p).pagetable.getD 0)
          ((k.proc p).regs.a0 + i * UPROCSIZE) UPROCSIZE)
      ∧ (UserRange k.mem.mem ((k.proc p).pagetable.getD 0) (k.proc p).regs.a0
          (NPROC * UPROCSIZE) →
        (∀ q, (k.proc q).state ≠ .USED) ∧ (∀ q ∈ k.listed.tail, q.parent.isSome)
        ∧ RecordsAt k.mem.mem ((k.proc p).pagetable.getD 0) (k.proc p).regs.a0
            (k.listed.map k.uprocOf)) := by
  have hok := (getprocsCall_eq handler frame arg ha7).1
  have hparents : (∀ q, (k.proc q).state ≠ .USED) →
      (ParentsKnown 0 ((finRange NPROC).map k.proc)
        ↔ ∀ q ∈ k.listed.tail, q.parent.isSome) := by
    intro hused
    rw [← Kernel.named_eq_listed hused]
    rfl
  constructor
  · rintro ⟨hmapped, hfault⟩
    constructor
    · by_contra hnot
      push Not at hnot
      obtain ⟨k', hrun, hres⟩ := hfault hnot
      rw [(getprocsCall_of_ok handler frame arg ha7 hrun).2.1] at hres
      have hle : k.named.length ≤ NPROC := by
        refine le_trans (length_filter_le _ _) ?_
        rw [length_map, length_finRange]
      rw [hres] at hle
      exact absurd hle (by decide)
    · intro hrange
      obtain ⟨k', hrun, hres, hrecords, -⟩ := hmapped hrange
      obtain ⟨hknown, hcount, hmem⟩ := getprocsCall_of_ok handler frame arg ha7 hrun
      have hused := k.named_length_eq_iff.mp (hcount.symm.trans hres)
      refine ⟨hused, (hparents hused).mp hknown, ?_⟩
      rw [hmem] at hrecords
      exact hrecords
  · rintro ⟨hwritable, hcond⟩
    refine ⟨fun hrange => ?_, fun ⟨i, hi, hnot⟩ => absurd (hwritable i hi) hnot⟩
    obtain ⟨hused, hknown, hrecords⟩ := hcond hrange
    obtain ⟨k', hrun, hres, hmem⟩ := hok ((hparents hused).mpr hknown)
    refine ⟨k', hrun, ?_, ?_, ?_⟩
    · rw [hres, Kernel.named_eq_listed hused]
    · rw [hmem]
      exact hrecords
    · rw [hmem]
      exact fun _ _ => rfl

end

/-! ## A kernel with one process -/

/-- A page table of three pages, with one page of zeros at user address 0. -/
def onePageMemory : ℕ → Page := fun pa =>
  if pa = 0x80100000 then (Bytes.fill PGSIZE 0).setLE 0 8 (PA2PTE 0x80101000 ||| PTE_V)
  else if pa = 0x80101000 then (Bytes.fill PGSIZE 0).setLE 0 8 (PA2PTE 0x80102000 ||| PTE_V)
  else if pa = 0x80102000 then (Bytes.fill PGSIZE 0).setLE 0 8
    (PA2PTE 0x80103000 ||| (PTE_R ||| PTE_W ||| PTE_U ||| PTE_V))
  else .fill PGSIZE 0

/-- A kernel that runs one process, with one page of memory, which calls
`getprocs` with the address of that page. -/
def oneProcess : Kernel where
  mem := ⟨onePageMemory, [], fun _ => false⟩
  proc := Function.update (fun _ => unusedProc) 0
    { unusedProc with
      state := .RUNNING
      pid := 1
      sz := PGSIZE
      pagetable := some 0x80100000
      trapframe := some 0x80104000
      regs := { unusedProc.regs with sp := PGSIZE, a7 := SYS_getprocs } }

theorem oneProcess_entry {va : ℕ} (h : va < PGSIZE) :
    entry onePageMemory 2 0x80100000 va
      = PA2PTE 0x80103000 ||| (PTE_R ||| PTE_W ||| PTE_U ||| PTE_V) := by
  have hagree : find onePageMemory 2 0x80100000 va = find onePageMemory 2 0x80100000 0 := by
    refine find_of_agree fun k _ => ?_
    rw [PX_eq, PX_eq, Nat.div_eq_of_lt h]
    rfl
  have hzero : entry onePageMemory 2 0x80100000 0
      = PA2PTE 0x80103000 ||| (PTE_R ||| PTE_W ||| PTE_U ||| PTE_V) := by decide +kernel
  unfold entry at hzero ⊢
  rw [hagree]
  exact hzero

theorem oneProcess_range : UserRange onePageMemory 0x80100000 0 (NPROC * UPROCSIZE) := by
  intro i hi
  have hlt : 0 + i < PGSIZE := by
    unfold NPROC UPROCSIZE PGSIZE at *
    omega
  unfold UserAccessible
  rw [oneProcess_entry hlt]
  refine ⟨lt_trans hlt (by decide), by decide, by decide⟩

/-- The condition of the listing is not met by the kernel with one process:
there is room for the record, but it is not there yet. -/
theorem getprocs_lists_iff_oneProcess :
    (oneProcess.proc 0).regs.a7 = SYS_getprocs
    ∧ ∀ handler frame arg,
      (ListsProcesses oneProcess 0 (getprocsCall handler frame arg 0 oneProcess)
        → RecordsAt onePageMemory 0x80100000 0 (oneProcess.listed.map oneProcess.uprocOf)) :=
  ⟨rfl, fun handler frame arg h =>
    (((getprocs_lists_iff handler frame arg rfl).mp h).2 oneProcess_range).2.2⟩

/-- A call frame with zeros where `tempproc` is. -/
def zeroFrame : ProcinfoFrame := ⟨0x3fffffdf00, fun _ => .fill UPROCSIZE 0⟩

/-- **`getprocs` does not list the one process there is**, even if the argument
register still holds the caller's pointer: the call returns 1, but the first
byte of the record, the low byte of `pid` 1, is not stored. -/
theorem getprocs_stores_nothing :
    ¬ ListsProcesses oneProcess 0 (getprocsCall (fun _ => pure 0) zeroFrame 0 0 oneProcess) := by
  intro h
  obtain ⟨k', hrun, -, hrecords, -⟩ := h.1 oneProcess_range
  have hmem : k'.mem = oneProcess.mem := (getprocsCall_of_ok _ _ _ rfl hrun).2.2
  have hlisted : (oneProcess.listed.map oneProcess.uprocOf)[0]?
      = some (oneProcess.uprocOf (oneProcess.proc 0)) := by rfl
  have hbyte := hrecords 0 0 (by decide) _ hlisted
  rw [hmem] at hbyte
  have hzero : userByte onePageMemory 0x80100000 0 = some 0 := by
    unfold userByte
    rw [if_pos (oneProcess_range 0 (by decide)), oneProcess_entry (by decide)]
    decide +kernel
  have hone : (oneProcess.uprocOf (oneProcess.proc 0)).byteAt 0 = 1 := by decide +kernel
  rw [hone] at hbyte
  exact absurd (hzero.symm.trans hbyte) (by decide)

end Xv6
