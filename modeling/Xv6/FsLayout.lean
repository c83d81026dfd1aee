import Xv6.Param

/-!
# The file system on disk

The format of `fs.h`: after the log come the inode blocks, the free bitmap
and the data blocks, at places the superblock names. Sixteen inodes stand in
a block, and each bitmap block has the bits of 8192 blocks.

The file system is read through three views of the disk: the inode `i`
(`dinodeOf`), the bit of block `b` (`bitOf`), and the data blocks. Because the
areas are disjoint, a store to one of them leaves the other views as they
were; the lemmas here say so once, and nothing above reads a byte.
-/

open Function

namespace Xv6

/-! ## The superblock -/

/-- Size of an inode on disk. -/
def DINODESIZE : ℕ := 64

/-- Inodes per block. -/
def IPB : ℕ := BSIZE / DINODESIZE

/-- Bitmap bits per block. -/
def BPB : ℕ := BSIZE * 8

/-- Addresses of data blocks in an inode. -/
def NDIRECT : ℕ := 12

/-- Addresses of data blocks in an indirect block. -/
@[irreducible] def NINDIRECT : ℕ := BSIZE / 4

/-- Blocks of a file at most. -/
def MAXFILE : ℕ := NDIRECT + NINDIRECT

/-- Number of inodes of the file system `mkfs` makes. -/
def NINODES : ℕ := 200

/-- The superblock of a disk on which the areas follow each other as `mkfs`
lays them out, with block numbers that fit the kernel's `int`. -/
structure Superblock where
  size : ℕ
  ninodes : ℕ
  nlog : ℕ
  logstart : ℕ
  inodestart : ℕ
  bmapstart : ℕ
  log_fits : logstart + nlog ≤ inodestart
  inodes_fit : inodestart + ninodes / IPB + 1 ≤ bmapstart
  bitmap_fits : bmapstart + size / BPB + 1 ≤ size
  size_lt : size < 2 ^ 31

namespace Superblock

variable (sb : Superblock)

/-- The first data block. -/
def datastart : ℕ := sb.bmapstart + sb.size / BPB + 1

/-- The block with inode `i`. -/
def IBLOCK (i : ℕ) : ℕ := i / IPB + sb.inodestart

/-- The block with the bit of block `b`. -/
def BBLOCK (b : ℕ) : ℕ := b / BPB + sb.bmapstart

theorem IBLOCK_lt {i : ℕ} (hi : i < sb.ninodes) : sb.IBLOCK i < sb.bmapstart := by
  have h := sb.inodes_fit
  have hdiv : i / IPB ≤ sb.ninodes / IPB := Nat.div_le_div_right hi.le
  unfold IBLOCK
  omega

theorem bmapstart_le_BBLOCK (b : ℕ) : sb.bmapstart ≤ sb.BBLOCK b := Nat.le_add_left _ _

theorem BBLOCK_lt {b : ℕ} (hb : b < sb.size) : sb.BBLOCK b < sb.datastart := by
  have hdiv : b / BPB ≤ sb.size / BPB := Nat.div_le_div_right hb.le
  unfold BBLOCK datastart
  omega

theorem datastart_le : sb.datastart ≤ sb.size := sb.bitmap_fits

theorem bmapstart_lt : sb.bmapstart < sb.datastart :=
  Nat.lt_succ_of_le (Nat.le_add_right _ _)

end Superblock

/-! ## Inodes -/

/-- An inode on disk: its type, 0 if it is free, device numbers, the number of
directory entries that name it, its size in bytes and its block addresses,
the last of them that of the indirect block. -/
@[ext] structure Dinode where
  type : UInt16
  major : UInt16
  minor : UInt16
  nlink : UInt16
  size : UInt32
  addrs : Fin (NDIRECT + 1) → UInt32

namespace Dinode

/-- The inode in a slot of a block. -/
def load (b : Block) (slot : ℕ) : Dinode :=
  let o := DINODESIZE * slot
  { type := UInt16.ofNat (b.getLE o 2)
    major := UInt16.ofNat (b.getLE (o + 2) 2)
    minor := UInt16.ofNat (b.getLE (o + 4) 2)
    nlink := UInt16.ofNat (b.getLE (o + 6) 2)
    size := UInt32.ofNat (b.getLE (o + 8) 4)
    addrs := fun i => UInt32.ofNat (b.getLE (o + 12 + 4 * i) 4) }

/-- The block with an inode stored in a slot. -/
def store (d : Dinode) (b : Block) (slot : ℕ) : Block :=
  let o := DINODESIZE * slot
  (((((b.setLE o 2 d.type.toNat).setLE (o + 2) 2 d.major.toNat).setLE (o + 4) 2
    d.minor.toNat).setLE (o + 6) 2 d.nlink.toNat).setLE (o + 8) 4 d.size.toNat).setWords (o + 12)
      (NDIRECT + 1) fun i => if h : i < NDIRECT + 1 then (d.addrs ⟨i, h⟩).toNat else 0

theorem ofNat_toNat_mod_short (x : UInt16) : UInt16.ofNat (x.toNat % 256 ^ 2) = x := by
  rw [Nat.mod_eq_of_lt (show x.toNat < 256 ^ 2 from x.toNat_lt), UInt16.ofNat_toNat]

theorem ofNat_toNat_mod_uint (x : UInt32) : UInt32.ofNat (x.toNat % 256 ^ 4) = x := by
  rw [Nat.mod_eq_of_lt (show x.toNat < 256 ^ 4 from x.toNat_lt), UInt32.ofNat_toNat]

/-- **A stored inode is read back.** -/
theorem load_store_self (d : Dinode) (b : Block) {slot : ℕ} (h : slot < IPB) :
    load (d.store b slot) slot = d := by
  have hfit : DINODESIZE * slot + 64 ≤ BSIZE := by
    unfold IPB DINODESIZE BSIZE at *
    omega
  have hdirect : NDIRECT = 12 := rfl
  unfold load store
  refine Dinode.ext ?_ ?_ ?_ ?_ ?_ (funext fun i => ?_)
  case refine_6 =>
    have hi := i.isLt
    simp only
    rw [Bytes.getLE_setWords _ (by omega) hi, dif_pos hi, ofNat_toNat_mod_uint]
  all_goals
    simp (disch := omega) only [Bytes.getLE_setWords_disjoint, Bytes.getLE_setLE_disjoint,
      Bytes.getLE_setLE_same, ofNat_toNat_mod_short, ofNat_toNat_mod_uint]

/-- The other slots of the block keep their inodes. -/
theorem load_store_of_ne (d : Dinode) (b : Block) {slot slot' : ℕ} (h : slot' ≠ slot) :
    load (d.store b slot) slot' = load b slot' := by
  have hout : DINODESIZE * slot' + 64 ≤ DINODESIZE * slot
      ∨ DINODESIZE * slot + 64 ≤ DINODESIZE * slot' := by
    unfold DINODESIZE
    omega
  have hdirect : NDIRECT = 12 := rfl
  unfold load store
  refine Dinode.ext ?_ ?_ ?_ ?_ ?_ (funext fun ⟨i, hi⟩ => ?_) <;>
    simp (disch := omega) only [Bytes.getLE_setWords_disjoint, Bytes.getLE_setLE_disjoint]

end Dinode

/-! ## The views of a disk -/

namespace Superblock

variable (sb : Superblock)

/-- Inode `i` of a disk. -/
def dinodeOf (disk : Disk) (i : ℕ) : Dinode := .load (disk (sb.IBLOCK i)) (i % IPB)

/-- The disk with inode `i` stored. -/
def putDinode (disk : Disk) (i : ℕ) (d : Dinode) : Disk :=
  update disk (sb.IBLOCK i) (d.store (disk (sb.IBLOCK i)) (i % IPB))

/-- The bit of block `b` in the free bitmap: set if the block is in use. -/
def bitOf (disk : Disk) (b : ℕ) : Bool := (disk (sb.BBLOCK b)).getBit (b % BPB)

/-- The disk with the bit of block `b` set. -/
def markUsed (disk : Disk) (b : ℕ) : Disk :=
  update disk (sb.BBLOCK b) ((disk (sb.BBLOCK b)).setBit (b % BPB))

/-- The disk with the bit of block `b` cleared. -/
def markFree (disk : Disk) (b : ℕ) : Disk :=
  update disk (sb.BBLOCK b) ((disk (sb.BBLOCK b)).clearBit (b % BPB))

variable {sb} {disk : Disk}

/-- **Storing an inode** changes that inode and no other. -/
theorem dinodeOf_putDinode (i j : ℕ) (d : Dinode) :
    sb.dinodeOf (sb.putDinode disk i d) j = if j = i then d else sb.dinodeOf disk j := by
  unfold dinodeOf putDinode
  by_cases hblock : sb.IBLOCK j = sb.IBLOCK i
  · rw [hblock, update_self]
    by_cases hji : j = i
    · subst hji
      rw [if_pos rfl, Dinode.load_store_self _ _ (Nat.mod_lt _ (by decide))]
    · rw [if_neg hji, Dinode.load_store_of_ne]
      unfold IBLOCK IPB BSIZE DINODESIZE at *
      omega
  · rw [update_of_ne hblock, if_neg fun h => hblock (by rw [h])]

theorem putDinode_of_le {i b : ℕ} {d : Dinode} (hi : i < sb.ninodes) (hb : sb.bmapstart ≤ b) :
    sb.putDinode disk i d b = disk b := by
  refine update_of_ne ?_ _ _
  have h := sb.IBLOCK_lt hi
  omega

theorem bitOf_putDinode {i : ℕ} {d : Dinode} (hi : i < sb.ninodes) (b : ℕ) :
    sb.bitOf (sb.putDinode disk i d) b = sb.bitOf disk b := by
  unfold bitOf
  rw [putDinode_of_le hi (sb.bmapstart_le_BBLOCK b)]

theorem bitOf_update {b c : ℕ} {data : Block} {v : Bool}
    (h : ∀ k, data.getBit k = if k = b % BPB then v else (disk (sb.BBLOCK b)).getBit k) :
    sb.bitOf (update disk (sb.BBLOCK b) data) c
      = if c = b then v else sb.bitOf disk c := by
  unfold bitOf
  by_cases hblock : sb.BBLOCK c = sb.BBLOCK b
  · rw [hblock, update_self, h]
    by_cases hcb : c = b
    · rw [if_pos hcb, if_pos (by rw [hcb])]
    · rw [if_neg hcb, if_neg]
      unfold BBLOCK BPB BSIZE at *
      omega
  · rw [update_of_ne hblock, if_neg fun h => hblock (by rw [h])]

theorem bitOf_markUsed (b c : ℕ) :
    sb.bitOf (sb.markUsed disk b) c = if c = b then true else sb.bitOf disk c := by
  refine bitOf_update fun k => ?_
  rw [Bytes.getBit_setBit _ (by unfold BPB BSIZE; omega)]
  split <;> simp_all

theorem bitOf_markFree (b c : ℕ) :
    sb.bitOf (sb.markFree disk b) c = if c = b then false else sb.bitOf disk c := by
  refine bitOf_update fun k => ?_
  rw [Bytes.getBit_clearBit _ (by unfold BPB BSIZE; omega)]
  split <;> simp_all

theorem dinodeOf_update {b i : ℕ} (hi : i < sb.ninodes) (hb : sb.bmapstart ≤ b) (data : Block) :
    sb.dinodeOf (update disk b data) i = sb.dinodeOf disk i := by
  unfold dinodeOf
  rw [update_of_ne]
  have h := sb.IBLOCK_lt hi
  omega

theorem bitOf_update_data {b c : ℕ} (hb : sb.datastart ≤ b) (hc : c < sb.size) (data : Block) :
    sb.bitOf (update disk b data) c = sb.bitOf disk c := by
  unfold bitOf
  rw [update_of_ne]
  have h := sb.BBLOCK_lt hc
  omega

end Superblock

end Xv6
