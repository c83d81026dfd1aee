import Xv6.Bytes
import Xv6.Pool
import Xv6.Prog
import Xv6.Riscv

/-!
# The physical page allocator

`kalloc.c`: the pages between the end of the kernel image and `PHYSTOP` are
a pool, handed out one at a time. The source keeps the free pages on a list
threaded through their first bytes; here the list stands beside the contents
of the pages. A call of `kalloc` may fail although a page is free: which
calls do is part of the state, and nothing below depends on it.

The memory management code runs on this state and may panic. The panics are
named after the function and the message; a null pointer followed by the
kernel is a page fault in the kernel, which panics in `kerneltrap`, and a
recursion too deep for the kernel stack is one in its guard page.
-/

namespace Xv6

open Pool

/-- The contents of a page. -/
abbrev Page : Type := Bytes PGSIZE

/-- Physical memory: the contents of the page at every page address, the free
pages, and which calls of `kalloc` will fail. -/
abbrev PhysMem : Type := Pool ℕ Page

/-- Why the memory management code stops the machine. -/
inductive Panic
  | kfree
  | walk
  | mappagesSize
  | mappagesRemap
  | uvmunmapNotAligned
  | uvmunmapWalk
  | uvmunmapNotMapped
  | uvmunmapNotLeaf
  | freewalkLeaf
  | uvmcopyNoPte
  | uvmcopyNotPresent
  | uvmclear
  | loadseg
  | kerneltrap
  | argraw
  deriving DecidableEq, Repr

/-- Code that works on physical memory. -/
abbrev MemProg (α : Type) : Type := Prog Panic PhysMem α

section

variable [KernelImage]

/-- Allocate one page, filled with junk. -/
def kalloc : MemProg (Option ℕ) := fun s =>
  match s.alloc with
  | (none, s') => .ok (none, s')
  | (some r, s') => .ok (some r, s'.store r (.fill PGSIZE 5))

/-- Set the contents of a page. -/
def setPage (pa : ℕ) (contents : Page) : MemProg Unit :=
  Prog.modify fun s => s.store pa contents

/-- `memset(pa, c, PGSIZE)`. -/
def memsetPage (pa : ℕ) (c : UInt8) : MemProg Unit := setPage pa (.fill PGSIZE c)

/-- Free the page at `pa`, filled with junk. -/
def kfree (pa : ℕ) : MemProg Unit :=
  if pa % PGSIZE ≠ 0 ∨ pa < KernelImage.end_ ∨ PHYSTOP ≤ pa then
    Prog.panic .kfree
  else do
    memsetPage pa 1
    Prog.modify fun s => s.release pa

/-- Free the pages from `p` on, `n` of them. -/
def freerangeLoop : ℕ → ℕ → MemProg Unit
  | 0, _ => pure ()
  | n + 1, p => do
    kfree p
    freerangeLoop n (p + PGSIZE)

/-- Free every whole page between two addresses. -/
def freerange (pa_start pa_end : ℕ) : MemProg Unit :=
  freerangeLoop ((pa_end - PGROUNDUP pa_start) / PGSIZE) (PGROUNDUP pa_start)

/-- Give the memory above the kernel image to the allocator. -/
def kinit : MemProg Unit := freerange KernelImage.end_ PHYSTOP

/-! ## The pages -/

/-- The pages in `[PGROUNDUP(end), PHYSTOP)`. -/
def physPages : Finset ℕ :=
  (Finset.range ((PHYSTOP - PGROUNDUP KernelImage.end_) / PGSIZE)).image
    fun i => PGROUNDUP KernelImage.end_ + i * PGSIZE

theorem le_PGROUNDUP_end : KernelImage.end_ ≤ PGROUNDUP KernelImage.end_ := by
  have h := KernelImage.end_lt
  unfold PGROUNDUP u64
  unfold PHYSTOP KERNBASE PGSIZE at *
  omega

theorem mem_physPages {p : ℕ} (h : p ∈ physPages) :
    PGSIZE ∣ p ∧ KernelImage.end_ ≤ p ∧ p < PHYSTOP := by
  obtain ⟨i, hi, rfl⟩ := Finset.mem_image.mp h
  rw [Finset.mem_range] at hi
  have hle := le_PGROUNDUP_end
  refine ⟨Nat.dvd_add (PGSIZE_dvd_PGROUNDUP _) (Dvd.intro_left _ rfl), by omega, ?_⟩
  have hmul : (i + 1) * PGSIZE ≤ PHYSTOP - PGROUNDUP KernelImage.end_ :=
    le_trans (Nat.mul_le_mul_right _ hi) (Nat.div_mul_le_self _ _)
  unfold PGSIZE at *
  omega

theorem mem_physPages_of {p : ℕ} (hdvd : PGSIZE ∣ p) (hlo : PGROUNDUP KernelImage.end_ ≤ p)
    (hhi : p < PHYSTOP) : p ∈ physPages := by
  obtain ⟨a, ha⟩ := hdvd
  obtain ⟨b, hb⟩ := PGSIZE_dvd_PGROUNDUP KernelImage.end_
  have hstop : PHYSTOP = PGSIZE * (PHYSTOP / PGSIZE) := by decide
  refine Finset.mem_image.mpr ⟨a - b, Finset.mem_range.mpr ?_, ?_⟩
  · rw [hb] at hlo ⊢
    unfold PGSIZE at *
    omega
  · rw [hb] at hlo ⊢
    unfold PGSIZE at *
    omega

theorem mem_physPages_lt {p : ℕ} (h : p ∈ physPages) : p < 2 ^ 56 := by
  have hlt := (mem_physPages h).2.2
  unfold PHYSTOP KERNBASE at hlt
  omega

theorem physPages_ne_zero {p : ℕ} (h : p ∈ physPages) : p ≠ 0 := by
  have hle := (mem_physPages h).2.1
  have hend := KernelImage.base_le.trans ((Nat.le_add_right _ _).trans
    (KernelImage.trampoline_lt.trans KernelImage.etext_le))
  unfold KERNBASE at hend
  omega

end

/-! ## What the allocator does -/

section

variable {s s' : PhysMem}

theorem kalloc_none (h : kalloc s = .ok (none, s')) :
    s'.mem = s.mem ∧ ∀ R, Exchange s s' R R := by
  unfold kalloc at h
  split at h
  · rename_i s₁ halloc
    obtain ⟨-, rfl⟩ := Prod.mk.inj (Except.ok.inj h)
    exact alloc_none halloc
  · cases h

/-- **`kalloc` hands out a free page**, and changes no other. -/
theorem kalloc_some {pa : ℕ} (h : kalloc s = .ok (some pa, s')) :
    pa ∈ s.free ∧ Exchange s s' 0 {pa} ∧ s'.mem = Function.update s.mem pa (.fill PGSIZE 5) := by
  unfold kalloc at h
  split at h
  · cases h
  · rename_i r s₁ halloc
    obtain ⟨hr, rfl⟩ := Prod.mk.inj (Except.ok.inj h)
    obtain rfl := Option.some.inj hr
    obtain ⟨hmem, hfree, hex⟩ := alloc_some halloc
    refine ⟨hfree, hex.trans (exchange_store (Multiset.mem_singleton_self r) _), ?_⟩
    show Function.update s₁.mem r _ = _
    rw [hmem]

theorem setPage_ok {pa : ℕ} {v : Page} {u : Unit} :
    setPage pa v s = .ok (u, s') ↔ s' = s.store pa v :=
  Prog.modify_ok

variable [KernelImage]

/-- **`kfree` gives a page back**, and changes no other. -/
theorem kfree_spec {pa : ℕ} {u : Unit} (h : kfree pa s = .ok (u, s')) :
    Exchange s s' {pa} 0 ∧ ∀ q, q ≠ pa → s'.mem q = s.mem q := by
  unfold kfree at h
  split at h
  · exact absurd h (by simp [Prog.panic])
  · obtain ⟨_, s₁, h₁, h₂⟩ := Prog.bind_ok.mp h
    obtain rfl := Prog.modify_ok.mp h₂
    obtain rfl := setPage_ok.mp h₁
    refine ⟨(exchange_store (Multiset.mem_singleton_self pa) _).trans (exchange_release _ pa), ?_⟩
    exact fun q hq => Function.update_of_ne hq _ _

end

/-! ## A small machine -/

/-- Where the parts of a kernel may be. -/
@[reducible] def sampleImage : KernelImage where
  etext := 0x80008000
  end_ := 0x80022000
  trampoline := 0x80007000
  base_le := by decide
  trampoline_lt := by decide
  etext_le := by decide
  end_lt := by decide
  trampoline_aligned := by decide
  etext_aligned := by decide

/-- Memory with some free pages. -/
def sampleMemory : PhysMem where
  mem _ := .fill PGSIZE 0
  free := (List.range 16).map fun i => 0x80100000 + i * PGSIZE
  refuse _ := false

theorem sampleMemory_holds :
    Holds (@physPages sampleImage) sampleMemory ({0x80200000} + {0x80201000}) := by
  let _ := sampleImage
  have hall : ∀ p ∈ sampleMemory.free ++ [0x80200000, 0x80201000],
      PGSIZE ∣ p ∧ PGROUNDUP KernelImage.end_ ≤ p ∧ p < PHYSTOP := by decide
  exact .of_list (by decide) fun p hp =>
    mem_physPages_of (hall p hp).1 (hall p hp).2.1 (hall p hp).2.2

end Xv6
