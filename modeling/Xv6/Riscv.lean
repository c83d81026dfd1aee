import Mathlib

/-!
# Pages, page-table entries and the memory layout

The constants and macros of `riscv.h` and `memlayout.h` that the memory
management of the kernel computes with. Addresses and page-table entries are
natural numbers; a sum that the kernel takes in a `uint64` and that may pass
its end is reduced modulo `2 ^ 64` where the source takes it.

A page-table entry (PTE) has its flags in the low ten bits and the number of
the physical page above them.
-/

namespace Xv6

open Nat

/-! ## Pages -/

/-- Bytes in a page. -/
def PGSIZE : ℕ := 4096

/-- Reduction of a `uint64`. -/
def u64 (n : ℕ) : ℕ := n % 2 ^ 64

theorem u64_lt (a : ℕ) : u64 a < 2 ^ 64 := mod_lt _ (by decide)

theorem u64_of_lt {a : ℕ} (h : a < 2 ^ 64) : u64 a = a := mod_eq_of_lt h

/-- The first page boundary not below `sz`, in a `uint64`. -/
def PGROUNDUP (sz : ℕ) : ℕ := u64 (sz + PGSIZE - 1) / PGSIZE * PGSIZE

/-- The page boundary at or below `a`. -/
def PGROUNDDOWN (a : ℕ) : ℕ := a / PGSIZE * PGSIZE

theorem PGSIZE_dvd_PGROUNDUP (sz : ℕ) : PGSIZE ∣ PGROUNDUP sz := Dvd.intro_left _ rfl

theorem PGSIZE_dvd_PGROUNDDOWN (a : ℕ) : PGSIZE ∣ PGROUNDDOWN a := Dvd.intro_left _ rfl

theorem PGROUNDDOWN_of_dvd {a : ℕ} (h : PGSIZE ∣ a) : PGROUNDDOWN a = a :=
  Nat.div_mul_cancel h

/-- The rounds of `for(a = lo; a < hi; a += PGSIZE)`. -/
def pageRounds (lo hi : ℕ) : ℕ := (hi - lo + PGSIZE - 1) / PGSIZE

/-! ## Page-table entries -/

/-- The entry is valid. -/
def PTE_V : ℕ := 1
/-- The page may be read. -/
def PTE_R : ℕ := 2
/-- The page may be written. -/
def PTE_W : ℕ := 4
/-- The page may be executed. -/
def PTE_X : ℕ := 8
/-- User code may use the page. -/
def PTE_U : ℕ := 16

/-- The entry of a physical page, without flags. -/
def PA2PTE (pa : ℕ) : ℕ := pa >>> 12 <<< 10

/-- The physical page of an entry; the shift drops what does not fit a `uint64`. -/
def PTE2PA (pte : ℕ) : ℕ := u64 (pte >>> 10 <<< 12)

/-- The flags of an entry. -/
def PTE_FLAGS (pte : ℕ) : ℕ := pte &&& 0x3FF

/-- The entry is valid – the test `*pte & PTE_V`. -/
def PteValid (pte : ℕ) : Prop := pte &&& PTE_V ≠ 0
  deriving Decidable

/-- The entry lets code read, write or execute, so it names a page and not a
table – the test `pte & (PTE_R|PTE_W|PTE_X)`. -/
def PteLeaf (pte : ℕ) : Prop := pte &&& (PTE_R ||| PTE_W ||| PTE_X) ≠ 0
  deriving Decidable

theorem not_pteValid_zero : ¬ PteValid 0 := by decide

theorem PA2PTE_or {pa flags : ℕ} (hf : flags < 2 ^ 10) :
    PA2PTE pa ||| flags = pa >>> 12 * 2 ^ 10 + flags := by
  unfold PA2PTE
  rw [← shiftLeft_add_eq_or_of_lt hf, shiftLeft_eq]

/-- **`PTE2PA` reads back the page** an entry was made for, whatever its flags. -/
theorem PTE2PA_or {pa flags : ℕ} (hlt : pa < 2 ^ 64) (hf : flags < 2 ^ 10) :
    PTE2PA (PA2PTE pa ||| flags) = PGROUNDDOWN pa := by
  rw [PA2PTE_or hf]
  unfold PTE2PA PGROUNDDOWN PGSIZE u64
  rw [shiftRight_eq_div_pow, shiftRight_eq_div_pow, shiftLeft_eq]
  omega

theorem PA2PTE_or_and {pa flags mask : ℕ} (hm : mask < 2 ^ 10) :
    (PA2PTE pa ||| flags) &&& mask = flags &&& mask := by
  have hzero : PA2PTE pa &&& mask = 0 := by
    unfold PA2PTE
    refine eq_of_testBit_eq fun i => ?_
    rw [testBit_and, testBit_shiftLeft, zero_testBit]
    rcases lt_or_ge i 10 with hi | hi
    · simp [hi]
    · have : mask.testBit i = false :=
        Nat.testBit_lt_two_pow (lt_of_lt_of_le hm (Nat.pow_le_pow_right (by omega) hi))
      simp [this]
  rw [Nat.and_or_distrib_right, hzero, Nat.zero_or]

theorem PA2PTE_or_lt {pa flags : ℕ} (hpa : pa < 2 ^ 56) (hf : flags < 2 ^ 10) :
    PA2PTE pa ||| flags < 2 ^ 64 := by
  rw [PA2PTE_or hf, shiftRight_eq_div_pow]
  omega

theorem PTE_FLAGS_lt (pte : ℕ) : PTE_FLAGS pte < 2 ^ 10 :=
  lt_of_le_of_lt and_le_right (by decide)

theorem pteLeaf_flags (pte : ℕ) : PteLeaf (PTE_FLAGS pte) ↔ PteLeaf pte := by
  unfold PteLeaf PTE_FLAGS
  rw [Nat.and_assoc]
  rfl

theorem PTE_FLAGS_ne_of_leaf {pte : ℕ} (h : PteLeaf pte) : PTE_FLAGS pte ≠ PTE_V := by
  intro heq
  rw [← pteLeaf_flags, heq] at h
  exact h rfl

/-- The flags of a valid entry have the valid bit. -/
theorem PTE_FLAGS_or_valid {pte : ℕ} (h : PteValid pte) :
    PTE_FLAGS pte ||| PTE_V = PTE_FLAGS pte := by
  refine eq_of_testBit_eq fun i => ?_
  unfold PteValid PTE_V at h
  unfold PTE_FLAGS PTE_V
  rw [testBit_or, testBit_and]
  cases i with
  | zero =>
    have hbit : pte.testBit 0 = true := by
      rw [testBit_zero]
      rw [and_one_is_mod] at h
      simp only [decide_eq_true_eq]
      omega
    rw [hbit]
    rfl
  | succ i =>
    have hone : (1 : ℕ).testBit (i + 1) = false :=
      Nat.testBit_lt_two_pow (Nat.one_lt_two_pow (Nat.succ_ne_zero i))
    rw [hone, Bool.or_false]

/-! An entry for a page, as it is stored with some flags: -/

section Entry

variable {pa perm : ℕ}

theorem pteValid_entry (pa perm : ℕ) : PteValid (PA2PTE pa ||| perm ||| PTE_V) := by
  unfold PteValid
  rw [Nat.or_assoc, PA2PTE_or_and (by decide), Nat.and_or_distrib_right]
  show _ ||| 1 ≠ 0
  exact fun h => one_ne_zero (Nat.or_eq_zero_iff.mp h).2

theorem pteLeaf_entry (pa perm : ℕ) : PteLeaf (PA2PTE pa ||| perm ||| PTE_V) ↔ PteLeaf perm := by
  unfold PteLeaf
  rw [Nat.or_assoc, PA2PTE_or_and (by decide), Nat.and_or_distrib_right]
  show _ ||| 0 ≠ 0 ↔ _
  rw [Nat.or_zero]

theorem PTE2PA_entry (hpa : pa < 2 ^ 64) (hperm : perm < 2 ^ 10) :
    PTE2PA (PA2PTE pa ||| perm ||| PTE_V) = PGROUNDDOWN pa := by
  rw [Nat.or_assoc]
  exact PTE2PA_or hpa (Nat.or_lt_two_pow hperm (by decide))

theorem PTE_FLAGS_entry (hperm : perm < 2 ^ 10) :
    PTE_FLAGS (PA2PTE pa ||| perm ||| PTE_V) = perm ||| PTE_V := by
  have hflags : perm ||| PTE_V < 2 ^ 10 := or_lt_two_pow hperm (by decide)
  unfold PTE_FLAGS
  rw [Nat.or_assoc, PA2PTE_or_and (by decide), show (0x3FF : ℕ) = 2 ^ 10 - 1 by rfl,
    Nat.and_two_pow_sub_one_eq_mod, Nat.mod_eq_of_lt hflags]

theorem entry_lt (hpa : pa < 2 ^ 64) (hperm : perm < 2 ^ 64) :
    PA2PTE pa ||| perm ||| PTE_V < 2 ^ 64 := by
  have hlt : PA2PTE pa < 2 ^ 64 := by
    unfold PA2PTE
    rw [shiftLeft_eq, shiftRight_eq_div_pow]
    omega
  exact or_lt_two_pow (or_lt_two_pow hlt hperm) (by decide)

end Entry

/-! ## Virtual addresses -/

/-- Entries in a page table. It stays folded: no proof runs over the slots of
a table one by one. -/
@[irreducible] def NPTE : ℕ := 512

/-- The nine bits of a virtual address that index the table at a level. -/
def PX (level va : ℕ) : ℕ := va >>> (12 + 9 * level) &&& 0x1FF

theorem PX_eq (level va : ℕ) : PX level va = va / PGSIZE / NPTE ^ level % NPTE := by
  unfold PX NPTE
  rw [show (0x1FF : ℕ) = 2 ^ 9 - 1 by rfl, Nat.and_two_pow_sub_one_eq_mod,
    Nat.shiftRight_eq_div_pow, pow_add, pow_mul, ← Nat.div_div_eq_div_mul]
  rfl

theorem PX_lt (level va : ℕ) : PX level va < NPTE := by
  rw [PX_eq]
  exact mod_lt _ (by unfold NPTE; decide)

/-- One beyond the highest virtual address. -/
def MAXVA : ℕ := 2 ^ 38

/-- The trampoline page, at the highest address of every address space. -/
def TRAMPOLINE : ℕ := MAXVA - PGSIZE

/-- The page under it, where a process has its trapframe. -/
def TRAPFRAME : ℕ := TRAMPOLINE - PGSIZE

/-! ## Physical memory -/

/-- Where RAM starts. -/
def KERNBASE : ℕ := 0x80000000

/-- Where RAM ends. -/
def PHYSTOP : ℕ := KERNBASE + 128 * 1024 * 1024

/-- The symbols the linker defines for the kernel image: where its text and
the whole image end, and where in the text the trampoline code is. -/
class KernelImage where
  etext : ℕ
  end_ : ℕ
  trampoline : ℕ
  base_le : KERNBASE ≤ trampoline
  trampoline_lt : trampoline + PGSIZE ≤ etext
  etext_le : etext ≤ end_
  end_lt : end_ + PGSIZE ≤ PHYSTOP
  trampoline_aligned : PGSIZE ∣ trampoline
  etext_aligned : PGSIZE ∣ etext

end Xv6
