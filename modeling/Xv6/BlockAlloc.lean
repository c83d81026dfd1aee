import Xv6.FsLayout
import Xv6.Pool
import Xv6.Prog

/-!
# Allocating disk blocks

`balloc` and `bfree` of `fs.c`. The file system code reads and writes blocks
through the buffer cache, so its disk is the disk as the cache shows it; a
block passed to `log_write` is recorded in the state.

The free data blocks are a pool (`Superblock.pool`), with the bitmap in the
part of a free list, when every block of metadata is marked as used.
-/

open Function Multiset

open Prog hiding get modify panic result

namespace Xv6

open Pool

/-! ## The state of the file system code -/

/-- Size of the table of inodes in memory. -/
def NINODE : ℕ := 50

instance : NeZero NINODE := ⟨by decide⟩

/-- An inode in memory: its number, the pointers to it, whether it was read
from disk, and the copy of the inode on disk. -/
structure Inode where
  inum : ℕ
  ref : ℕ
  valid : Bool
  din : Dinode

/-- The state: the disk as the buffer cache shows it, the blocks passed to
`log_write`, the last one first, and the inode table. -/
structure Fs where
  disk : Disk
  logged : List ℕ
  itable : Fin NINODE → Inode

/-- Why the file system code stops the machine. -/
inductive FsPanic
  | ballocOutOfBlocks
  | freeingFreeBlock
  | iallocNoInodes
  | igetNoInodes
  | ilock
  | ilockNoType
  | bmapOutOfRange
  | dirlookupNotDir
  | dirlookupRead
  | dirlinkRead
  | dirlink
  | isdiremptyReadi
  | unlinkNlink
  | unlinkWritei
  deriving DecidableEq, Repr

/-- Code of the file system. -/
abbrev FsProg (α : Type) : Type := Prog FsPanic Fs α

/-- The contents of a block. -/
def bread (b : ℕ) : FsProg Block := do
  let fs ← Prog.get
  pure (fs.disk b)

/-- Change the contents of a cached block. -/
def modifyData (b : ℕ) (f : Block → Block) : FsProg Unit :=
  Prog.modify fun fs => { fs with disk := update fs.disk b (f (fs.disk b)) }

/-- Record a block in the log. -/
def logWrite (b : ℕ) : FsProg Unit :=
  Prog.modify fun fs => { fs with logged := b :: fs.logged }

section

variable {fs : Fs} {P : FsPanic → Prop}

theorem bread_ends {b : ℕ} {Q : Block → Fs → Prop} (h : Q (fs.disk b) fs) :
    Ends (bread b) fs P Q := h

theorem bread_bind {α : Type} {b : ℕ} {f : Block → FsProg α} :
    (bread b >>= f) fs = f (fs.disk b) fs := rfl

theorem modifyData_ends {b : ℕ} {f : Block → Block} {Q : Unit → Fs → Prop}
    (h : Q () { fs with disk := update fs.disk b (f (fs.disk b)) }) :
    Ends (modifyData b f) fs P Q := h

theorem logWrite_ends {b : ℕ} {Q : Unit → Fs → Prop}
    (h : Q () { fs with logged := b :: fs.logged }) : Ends (logWrite b) fs P Q := h

end

/-- Zero a block. -/
def bzero (bno : ℕ) : FsProg Unit := do
  modifyData bno fun _ => .fill BSIZE 0
  logWrite bno

section

variable (sb : Superblock)

/-- The inner loop of `balloc`: the first clear bit of a bitmap block from
`bi` on, among those of blocks below `sb.size`. -/
def ballocBits (data : Block) (b : ℕ) : ℕ → ℕ → Option ℕ
  | 0, _ => none
  | n + 1, bi =>
    if b + bi < sb.size then
      if data.getBit bi then ballocBits data b n (bi + 1) else some bi
    else none

/-- The outer loop of `balloc`, over the bitmap blocks. -/
def ballocBlocks : ℕ → ℕ → FsProg ℕ
  | 0, _ => Prog.panic .ballocOutOfBlocks
  | n + 1, b =>
    if b < sb.size then do
      let data ← bread (sb.BBLOCK b)
      match ballocBits sb data b BPB 0 with
      | some bi => do
        modifyData (sb.BBLOCK b) fun data => data.setBit bi
        logWrite (sb.BBLOCK b)
        bzero (b + bi)
        pure (b + bi)
      | none => ballocBlocks n (b + BPB)
    else Prog.panic .ballocOutOfBlocks

/-- Allocate a zeroed disk block. -/
def balloc : FsProg ℕ := ballocBlocks sb (sb.size / BPB + 1) 0

/-- Free a disk block. -/
def bfree (b : ℕ) : FsProg Unit := do
  let data ← bread (sb.BBLOCK b)
  if data.getBit (b % BPB) then do
    modifyData (sb.BBLOCK b) fun data => data.clearBit (b % BPB)
    logWrite (sb.BBLOCK b)
  else Prog.panic .freeingFreeBlock

end

/-! ## The first clear bit -/

section Balloc

variable {sb : Superblock}

/-- What the inner loop finds: the first clear bit, or none below the end. -/
theorem ballocBits_eq (sb : Superblock) (data : Block) (b n bi : ℕ) :
    match ballocBits sb data b n bi with
    | some k => bi ≤ k ∧ k < bi + n ∧ b + k < sb.size ∧ data.getBit k = false
        ∧ ∀ j, bi ≤ j → j < k → data.getBit j = true
    | none => ∀ j, bi ≤ j → j < bi + n → b + j < sb.size → data.getBit j = true := by
  induction n generalizing bi with
  | zero => exact fun j h₁ h₂ => by omega
  | succ n ih =>
    rw [ballocBits]
    by_cases hlt : b + bi < sb.size
    · rw [if_pos hlt]
      by_cases hbit : data.getBit bi = true
      · rw [if_pos hbit]
        have hrest := ih (bi + 1)
        split <;> rename_i heq <;> rw [heq] at hrest
        · rename_i k
          obtain ⟨h₁, h₂, h₃, h₄, h₅⟩ := hrest
          refine ⟨by omega, by omega, h₃, h₄, fun j hj hjk => ?_⟩
          rcases Nat.eq_or_lt_of_le hj with rfl | hj
          · exact hbit
          · exact h₅ j hj hjk
        · intro j hj hjn hjs
          rcases Nat.eq_or_lt_of_le hj with rfl | hj
          · exact hbit
          · exact hrest j hj (by omega) hjs
      · rw [if_neg hbit]
        exact ⟨le_rfl, by omega, hlt, Bool.eq_false_iff.mpr hbit, fun j h₁ h₂ => by omega⟩
    · rw [if_neg hlt]
      exact fun j h₁ h₂ h₃ => by omega

theorem bitOf_eq_getBit (disk : Disk) {b k : ℕ} (hb : BPB ∣ b) (hk : k < BPB) :
    sb.bitOf disk (b + k) = (disk (sb.BBLOCK b)).getBit k := by
  obtain ⟨q, rfl⟩ := hb
  unfold Superblock.bitOf Superblock.BBLOCK
  rw [Nat.mul_add_mod, Nat.mod_eq_of_lt hk, Nat.mul_add_div (by decide), Nat.div_eq_of_lt hk,
    Nat.mul_div_cancel_left _ (by decide), Nat.add_zero]

/-- The disk after `balloc` handed out block `b`. -/
def Superblock.allocated (sb : Superblock) (disk : Disk) (b : ℕ) : Disk :=
  update (sb.markUsed disk b) b (.fill BSIZE 0)

/-- Where the outer loop ends, from a bitmap block with no clear bit before it. -/
theorem ballocBlocks_ends {fs : Fs} {P : FsPanic → Prop} (n b : ℕ) (hb : BPB ∣ b)
    (hbefore : ∀ c < b, c < sb.size → sb.bitOf fs.disk c = true)
    (hfuel : sb.size ≤ b + BPB * n)
    (hP : (∀ c < sb.size, sb.bitOf fs.disk c = true) → P .ballocOutOfBlocks) :
    Ends (ballocBlocks sb n b) fs P fun r fs' =>
      r < sb.size ∧ sb.bitOf fs.disk r = false ∧ (∀ c < r, sb.bitOf fs.disk c = true)
      ∧ fs' = { fs with
          disk := sb.allocated fs.disk r, logged := r :: sb.BBLOCK r :: fs.logged } := by
  induction n generalizing b with
  | zero => exact ends_panic (hP fun c hc => hbefore c (by omega) hc)
  | succ n ih =>
    rw [ballocBlocks]
    by_cases hlt : b < sb.size
    · rw [if_pos hlt]
      refine ends_bind (bread_ends ?_)
      have hscan := ballocBits_eq sb (fs.disk (sb.BBLOCK b)) b BPB 0
      split <;> rename_i heq <;> rw [heq] at hscan
      · rename_i k
        obtain ⟨-, hk, hks, hclear, hfirst⟩ := hscan
        rw [Nat.zero_add] at hk
        refine ⟨hks, by rw [bitOf_eq_getBit _ hb hk]; exact hclear, fun c hc => ?_, ?_⟩
        · rcases Nat.lt_or_ge c b with hcb | hcb
          · exact hbefore c hcb (by omega)
          · obtain ⟨j, rfl⟩ := Nat.exists_eq_add_of_le hcb
            rw [bitOf_eq_getBit _ hb (by omega)]
            exact hfirst j (Nat.zero_le _) (by omega)
        · obtain ⟨q, rfl⟩ := hb
          have hblock : sb.BBLOCK (BPB * q + k) = sb.BBLOCK (BPB * q) := by
            unfold Superblock.BBLOCK
            rw [Nat.mul_add_div (by decide), Nat.div_eq_of_lt hk,
              Nat.mul_div_cancel_left _ (by decide), Nat.add_zero]
          unfold Superblock.allocated Superblock.markUsed
          rw [hblock, Nat.mul_add_mod, Nat.mod_eq_of_lt hk]
      · refine ih (b + BPB) (Nat.dvd_add hb dvd_rfl) (fun c hc hcs => ?_)
          (by rw [Nat.mul_succ] at hfuel; omega)
        rcases Nat.lt_or_ge c b with hcb | hcb
        · exact hbefore c hcb hcs
        · obtain ⟨j, rfl⟩ := Nat.exists_eq_add_of_le hcb
          rw [bitOf_eq_getBit _ hb (by omega)]
          exact hscan j (Nat.zero_le _) (by omega) (by omega)
    · rw [if_neg hlt]
      exact ends_panic (hP fun c hc => hbefore c (by omega) hc)

/-- **What `balloc` does**: it hands out the first block whose bit is clear,
marks it as used and zeroes it; it panics when there is none. -/
theorem balloc_ends {fs : Fs} {P : FsPanic → Prop}
    (hP : (∀ c < sb.size, sb.bitOf fs.disk c = true) → P .ballocOutOfBlocks) :
    Ends (balloc sb) fs P fun r fs' =>
      r < sb.size ∧ sb.bitOf fs.disk r = false ∧ (∀ c < r, sb.bitOf fs.disk c = true)
      ∧ fs' = { fs with
          disk := sb.allocated fs.disk r, logged := r :: sb.BBLOCK r :: fs.logged } := by
  refine ballocBlocks_ends _ 0 (Nat.dvd_zero _) (fun c hc => by omega) ?_ hP
  have h := Nat.div_add_mod sb.size BPB
  have hmod := Nat.mod_lt sb.size (show 0 < BPB by decide)
  rw [Nat.mul_succ]
  omega

/-- **What `bfree` does**: it marks the block as free; it panics when it is. -/
theorem bfree_ends {fs : Fs} {P : FsPanic → Prop} {b : ℕ}
    (hP : sb.bitOf fs.disk b = false → P .freeingFreeBlock) :
    Ends (bfree sb b) fs P fun _ fs' =>
      sb.bitOf fs.disk b = true
      ∧ fs' = { fs with
          disk := sb.markFree fs.disk b, logged := sb.BBLOCK b :: fs.logged } := by
  unfold bfree
  refine ends_bind (bread_ends ?_)
  split <;> rename_i hbit
  · exact ⟨hbit, rfl⟩
  · exact hP (Bool.eq_false_iff.mpr hbit)

/-! ## Free blocks as a pool -/

/-- The data blocks of a disk. -/
def Superblock.dataBlocks (sb : Superblock) : Finset ℕ := Finset.Ico sb.datastart sb.size

/-- The data blocks as a pool: those whose bit is clear are free. -/
def Superblock.pool (sb : Superblock) (disk : Disk) : Pool ℕ Block where
  mem b := if sb.datastart ≤ b then disk b else .fill BSIZE 0
  free := (List.range sb.size).filter fun b => sb.datastart ≤ b ∧ sb.bitOf disk b = false
  refuse _ := false

/-- The blocks before the data blocks are marked as used. -/
def Superblock.MetaUsed (sb : Superblock) (disk : Disk) : Prop :=
  ∀ b < sb.datastart, sb.bitOf disk b = true

variable {disk : Disk}

theorem mem_pool_free {b : ℕ} :
    b ∈ (sb.pool disk).free ↔ sb.datastart ≤ b ∧ b < sb.size ∧ sb.bitOf disk b = false := by
  show b ∈ List.filter _ _ ↔ _
  rw [List.mem_filter, List.mem_range, decide_eq_true_eq]
  tauto

theorem nodup_pool_free (disk : Disk) : (sb.pool disk).free.Nodup :=
  List.nodup_range.filter _

theorem pool_mem_of_le {b : ℕ} (h : sb.datastart ≤ b) : (sb.pool disk).mem b = disk b := if_pos h

/-- From `fs` to `fs'`, the owner of the data blocks `R` became the owner of
`R'`; metadata stayed marked as used and no inode on disk changed. -/
structure Moves (sb : Superblock) (fs fs' : Fs) (R R' : Multiset ℕ) : Prop where
  exchange : Exchange (sb.pool fs.disk) (sb.pool fs'.disk) R R'
  metaUsed : sb.MetaUsed fs.disk → sb.MetaUsed fs'.disk
  dinode : ∀ i < sb.ninodes, sb.dinodeOf fs'.disk i = sb.dinodeOf fs.disk i

namespace Moves

variable {fs fs' fs'' : Fs} {R R' R'' : Multiset ℕ}

theorem refl (fs : Fs) (R : Multiset ℕ) : Moves sb fs fs R R :=
  ⟨.refl _ _, id, fun _ _ => rfl⟩

theorem trans (h : Moves sb fs fs' R R') (h' : Moves sb fs' fs'' R' R'') :
    Moves sb fs fs'' R R'' :=
  ⟨h.exchange.trans h'.exchange, h'.metaUsed ∘ h.metaUsed,
    fun i hi => (h'.dinode i hi).trans (h.dinode i hi)⟩

theorem add (h : Moves sb fs fs' R R') (F : Multiset ℕ) : Moves sb fs fs' (R + F) (R' + F) :=
  ⟨h.exchange.add F, h.metaUsed, h.dinode⟩

end Moves

/-- Marking a free data block as used takes it from the pool. -/
theorem exchange_allocated {b : ℕ} (hb : sb.datastart ≤ b) (hsize : b < sb.size)
    (hbit : sb.bitOf disk b = false) :
    Exchange (sb.pool disk) (sb.pool (sb.allocated disk b)) 0 {b} := by
  have hbits : ∀ c < sb.size, sb.bitOf (sb.allocated disk b) c
      = if c = b then true else sb.bitOf disk c := fun c hc =>
    (Superblock.bitOf_update_data hb hc _).trans (Superblock.bitOf_markUsed b c)
  have hnotMem : b ∉ (sb.pool (sb.allocated disk b)).free := by
    rw [mem_pool_free, hbits b hsize, if_pos rfl]
    simp
  constructor
  · rw [add_zero, add_comm, singleton_add]
    refine (Multiset.Nodup.ext (nodup_cons.mpr
      ⟨hnotMem, coe_nodup.mpr (nodup_pool_free _)⟩)
      (coe_nodup.mpr (nodup_pool_free _))).mpr fun c => ?_
    rw [mem_cons, mem_coe, mem_coe, mem_pool_free, mem_pool_free]
    by_cases hc : c < sb.size
    · rw [hbits c hc]
      by_cases hcb : c = b
      · subst hcb
        simp [hb, hc, hbit]
      · simp [hcb, hc]
    · have hcb : c ≠ b := by omega
      simp [hc, hcb]
  · intro c hc
    have hcb : c ≠ b := by
      rintro rfl
      exact hc (by rw [add_zero]; exact mem_pool_free.mpr ⟨hb, hsize, hbit⟩)
    show (if sb.datastart ≤ c then sb.allocated disk b c else _) = if sb.datastart ≤ c then _ else _
    split
    · rename_i hle
      unfold Superblock.allocated Superblock.markUsed
      rw [update_of_ne hcb, update_of_ne]
      have h := sb.BBLOCK_lt hsize
      omega
    · rfl

/-- Marking a used data block as free gives it to the pool. -/
theorem exchange_markFree {b : ℕ} (hb : sb.datastart ≤ b) (hsize : b < sb.size)
    (hbit : sb.bitOf disk b = true) :
    Exchange (sb.pool disk) (sb.pool (sb.markFree disk b)) {b} 0 := by
  have hnotMem : b ∉ (sb.pool disk).free := by
    rw [mem_pool_free, hbit]
    simp
  constructor
  · rw [add_zero, add_comm, singleton_add]
    refine (Multiset.Nodup.ext (coe_nodup.mpr (nodup_pool_free _))
      (nodup_cons.mpr
        ⟨hnotMem, coe_nodup.mpr (nodup_pool_free _)⟩)).mpr fun c => ?_
    rw [mem_cons, mem_coe, mem_coe, mem_pool_free, mem_pool_free,
      Superblock.bitOf_markFree]
    by_cases hcb : c = b
    · subst hcb
      simp [hb, hsize]
    · simp [hcb]
  · intro c hc
    show (if sb.datastart ≤ c then sb.markFree disk b c else _) = if sb.datastart ≤ c then _ else _
    split
    · rename_i hle
      unfold Superblock.markFree
      rw [update_of_ne]
      have h := sb.BBLOCK_lt hsize
      omega
    · rfl

/-- **`balloc` takes a free data block**, and zeroes it; it panics if there is
none. -/
theorem balloc_spec {fs : Fs} (hmeta : sb.MetaUsed fs.disk) {P : FsPanic → Prop}
    (hP : (sb.pool fs.disk).free = [] → P .ballocOutOfBlocks) :
    Ends (balloc sb) fs P fun b fs' =>
      b ∈ (sb.pool fs.disk).free ∧ b ∈ sb.dataBlocks ∧ Moves sb fs fs' 0 {b}
      ∧ fs'.disk b = .fill BSIZE 0 ∧ fs'.itable = fs.itable := by
  have hnone : (∀ c < sb.size, sb.bitOf fs.disk c = true) → P .ballocOutOfBlocks := by
    refine fun hbits => hP (List.eq_nil_iff_forall_not_mem.mpr fun c hc => ?_)
    obtain ⟨-, hsize, hbit⟩ := mem_pool_free.mp hc
    rw [hbits c hsize] at hbit
    cases hbit
  refine (balloc_ends hnone).mono fun b fs' => ?_
  rintro ⟨hsize, hbit, -, rfl⟩
  have hb : sb.datastart ≤ b := by
    by_contra hlt
    rw [hmeta b (by omega)] at hbit
    cases hbit
  have hle := sb.bmapstart_lt
  refine ⟨mem_pool_free.mpr ⟨hb, hsize, hbit⟩, Finset.mem_Ico.mpr ⟨hb, hsize⟩,
    ⟨exchange_allocated hb hsize hbit, fun _ c hc => ?_, fun i hi => ?_⟩,
    update_self _ _ _, rfl⟩
  · show sb.bitOf (sb.allocated fs.disk b) c = true
    rw [Superblock.allocated, Superblock.bitOf_update_data hb (by have := sb.datastart_le; omega),
      Superblock.bitOf_markUsed]
    split
    · rfl
    · exact hmeta c hc
  · show sb.dinodeOf (sb.allocated fs.disk b) i = _
    rw [Superblock.allocated, Superblock.dinodeOf_update hi (by omega), Superblock.markUsed,
      Superblock.dinodeOf_update hi (sb.bmapstart_le_BBLOCK b)]

/-- **`bfree` gives back a data block that is in use.** -/
theorem bfree_spec {fs : Fs} {b : ℕ} (hdata : b ∈ sb.dataBlocks)
    (hused : b ∉ (sb.pool fs.disk).free) {P : FsPanic → Prop} :
    Ends (bfree sb b) fs P fun _ fs' =>
      Moves sb fs fs' {b} 0 ∧ (∀ c, sb.datastart ≤ c → fs'.disk c = fs.disk c)
      ∧ fs'.itable = fs.itable := by
  obtain ⟨hb, hsize⟩ := Finset.mem_Ico.mp hdata
  have hbit : sb.bitOf fs.disk b = true := by
    by_contra hnot
    exact hused (mem_pool_free.mpr ⟨hb, hsize, Bool.eq_false_iff.mpr hnot⟩)
  refine (bfree_ends fun h => ?_).mono fun _ fs' => ?_
  · rw [hbit] at h
    cases h
  rintro ⟨-, rfl⟩
  refine ⟨⟨exchange_markFree hb hsize hbit, fun hmeta c hc => ?_, fun i hi => ?_⟩,
    fun c hc => ?_, rfl⟩
  · show sb.bitOf (sb.markFree fs.disk b) c = true
    rw [Superblock.bitOf_markFree, if_neg (by omega)]
    exact hmeta c hc
  · exact Superblock.dinodeOf_update hi (sb.bmapstart_le_BBLOCK b) _
  · refine update_of_ne ?_ _ _
    have h := sb.BBLOCK_lt hsize
    omega

end Balloc

end Xv6
