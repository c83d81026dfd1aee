import Xv6.Holes

/-!
# `mkfs`

The program that makes the first disk image, from `mkfs.c`. It works on the
image with its own code: its own inodes (`winode`, `rinode`), its own allocation
– inodes and blocks are handed out in order, and the bitmap is written once at
the end – and its own `iappend`, which finds the blocks of a file as `bmap` does.

A run of `mkfs` ends well, dies with a message because a sector cannot be read,
or stops at an assertion. The sectors that `winode` has written are kept for the
record.
-/

namespace Xv6

/-- The size of the file system in blocks. -/
def FSSIZE : ℕ := 1000

/-- The first sector behind the metadata: boot block, superblock, log, inodes and
bitmap. -/
def nmeta : ℕ := 2 + LOGSIZE + (NINODES / IPB + 1) + (FSSIZE / (BSIZE * 8) + 1)

/-- The type of a file. -/
def T_FILE : UInt16 := 2

/-- The state of `mkfs`: the image file with its number of sectors, and the next
inode and block to hand out. -/
structure Mkfs where
  image : Disk
  nsect : ℕ
  freeinode : ℕ
  freeblock : ℕ
  inodeWrites : List ℕ

/-- How `mkfs` fails. -/
inductive MkfsFail where
  | die
  | assertion
  deriving DecidableEq, Repr

/-- Code of `mkfs`. -/
abbrev MkfsProg (α : Type) : Type := Prog MkfsFail Mkfs α

namespace Mkfs

/-! ## Sectors -/

/-- The sector at the offset `sec * BSIZE`, which is a `uint`. -/
def sector (sec : ℕ) : ℕ := sec * BSIZE % 2 ^ 32 / BSIZE

/-- Write a sector. -/
def wsect (sec : ℕ) (buf : Block) : MkfsProg Unit :=
  Prog.modify fun s => { s with
    image := Function.update s.image (sector sec) buf
    nsect := max s.nsect (sector sec + 1) }

/-- Read a sector; at the end of the image file there is nothing to read. -/
def rsect (sec : ℕ) : MkfsProg Block := do
  let s ← Prog.get
  if sector sec < s.nsect then pure (s.image (sector sec)) else Prog.panic .die

/-! ## Inodes -/

/-- Write an inode. -/
def winode (inum : ℕ) (din : Dinode) : MkfsProg Unit := do
  let bn := mkfsSuper.IBLOCK inum
  let buf ← rsect bn
  wsect bn (din.store buf (inum % IPB))
  Prog.modify fun s => { s with inodeWrites := bn :: s.inodeWrites }

/-- Read an inode. -/
def rinode (inum : ℕ) : MkfsProg Dinode := do
  let buf ← rsect (mkfsSuper.IBLOCK inum)
  pure (.load buf (inum % IPB))

/-- The next inode. -/
def ialloc (type : UInt16) : MkfsProg ℕ := do
  let s ← Prog.get
  Prog.modify fun s => { s with freeinode := s.freeinode + 1 }
  winode s.freeinode ⟨type, 0, 0, 1, 0, fun _ => 0⟩
  pure s.freeinode

/-! ## Blocks -/

/-- The next block: `freeblock++`. -/
def takeBlock : MkfsProg ℕ := do
  let s ← Prog.get
  Prog.modify fun s => { s with freeblock := s.freeblock + 1 }
  pure s.freeblock

/-- The inode with a block in a slot of `addrs`. -/
def fillSlot (din : Dinode) (k : Fin (NDIRECT + 1)) : MkfsProg Dinode :=
  if din.addrs k = 0 then do
    let b ← takeBlock
    pure (din.setAddr k (UInt32.ofNat b))
  else pure din

/-- The block in a slot of `addrs`, allocated if there is none, the inode, and
what the block holds. -/
def slotSect (din : Dinode) (k : Fin (NDIRECT + 1)) : MkfsProg (ℕ × Dinode × Block) := do
  let din ← fillSlot din k
  let buf ← rsect (din.addrs k).toNat
  pure ((din.addrs k).toNat, din, buf)

/-- The `fbn`-th block of a file, the inode, and what the block holds. -/
def blockSect (din : Dinode) (fbn : ℕ) : MkfsProg (ℕ × Dinode × Block) :=
  if h : fbn < NDIRECT then
    slotSect din (Fin.castSucc ⟨fbn, h⟩)
  else do
    let r ← slotSect din (Fin.last NDIRECT)
    if word r.2.2 (fbn - NDIRECT) = 0 then do
      let b ← takeBlock
      wsect r.1 (r.2.2.setLE (4 * (fbn - NDIRECT)) 4 b)
      let buf ← rsect b
      pure (b, r.2.1, buf)
    else do
      let buf ← rsect (word r.2.2 (fbn - NDIRECT)).toNat
      pure ((word r.2.2 (fbn - NDIRECT)).toNat, r.2.1, buf)

/-- The loop of `iappend`: the inode and the offset at its end. -/
def iappendLoop (din : Dinode) (off : ℕ) (p : List UInt8) : MkfsProg (Dinode × ℕ) :=
  if p = [] then pure (din, off)
  else if off / BSIZE < MAXFILE then do
    let r ← blockSect din (off / BSIZE)
    let n1 := min p.length ((off / BSIZE + 1) * BSIZE - off)
    wsect r.1 (r.2.2.blit (off - off / BSIZE * BSIZE) (p.take n1))
    iappendLoop r.2.1 (off + n1) (p.drop n1)
  else Prog.panic .assertion
termination_by p.length
decreasing_by
  have hpos : 0 < p.length := List.length_pos_of_ne_nil ‹_›
  have hoff := Nat.lt_mul_div_succ off (show 0 < BSIZE by decide)
  rw [List.length_drop, Nat.mul_comm (off / BSIZE + 1)]
  omega

/-- Append bytes to a file. -/
def iappend (inum : ℕ) (p : List UInt8) : MkfsProg Unit := do
  let din ← rinode inum
  let r ← iappendLoop din din.size.toNat p
  winode inum { r.1 with size := UInt32.ofNat r.2 }

/-- The bitmap with the first blocks marked as used. -/
def bitmap : ℕ → Block
  | 0 => .fill BSIZE 0
  | used + 1 => (bitmap used).setBit used

/-- Write the bitmap. -/
def balloc (used : ℕ) : MkfsProg Unit :=
  if used < BSIZE * 8 then wsect mkfsSuper.bmapstart (bitmap used) else Prog.panic .assertion

/-! ## The superblock -/

/-- What identifies a file system. -/
def FSMAGIC : ℕ := 0x10203040

/-- The words of a superblock, in their order. -/
def superWords (sb : Superblock) : List ℕ :=
  [FSMAGIC, sb.size, sb.size - sb.datastart, sb.ninodes, sb.nlog, sb.logstart, sb.inodestart,
    sb.bmapstart]

/-- A block with the superblock. -/
def superSect (sb : Superblock) : Block :=
  (Bytes.fill BSIZE 0).setWords 0 (superWords sb).length fun i => (superWords sb).getD i 0

/-- `readsb`: the words of the superblock on a disk. -/
def readsb (disk : Disk) : List ℕ := (List.range 8).map fun i => (disk 1).getLE (4 * i) 4

/-! ## The program -/

/-- A file to be stored: its path, which is a C string, and what `read` returns
of it, call by call, at most a block at a time. -/
structure InputFile where
  path : List UInt8
  reads : List (List UInt8)
  path_nul : 0 ∉ path
  reads_ne : [] ∉ reads
  reads_le : ∀ p ∈ reads, p.length ≤ BSIZE

/-- The contents of the file. -/
def InputFile.contents (f : InputFile) : List UInt8 := f.reads.flatten

/-- The path without `user/`. -/
def InputFile.shortname (f : InputFile) : List UInt8 :=
  if strncmp 5 f.path [117, 115, 101, 114, 47] = 0 then f.path.drop 5 else f.path

/-- The name a file is stored under: without a leading underscore. -/
def InputFile.name (f : InputFile) : List UInt8 :=
  if f.shortname.headD 0 = 95 then f.shortname.tail else f.shortname

/-- The loop that zeroes the image. -/
def zeroLoop : ℕ → MkfsProg Unit
  | 0 => pure ()
  | n + 1 => do
    zeroLoop n
    wsect n (.fill BSIZE 0)

/-- The loop over what `read` returns. -/
def appendReads (inum : ℕ) : List (List UInt8) → MkfsProg Unit
  | [] => pure ()
  | p :: ps => do
    iappend inum p
    appendReads inum ps

/-- Store a file. -/
def addFile (f : InputFile) : MkfsProg Unit :=
  if slash ∈ f.shortname then Prog.panic .assertion
  else do
    let inum ← ialloc T_FILE
    iappend ROOTINO (entryBytes f.name inum)
    appendReads inum f.reads

/-- The loop over the files. -/
def addFiles : List InputFile → MkfsProg Unit
  | [] => pure ()
  | f :: fs => do
    addFile f
    addFiles fs

/-- Round the size of the root directory up. -/
def fixRoot : MkfsProg Unit := do
  let din ← rinode ROOTINO
  winode ROOTINO { din with size := UInt32.ofNat ((din.size.toNat / BSIZE + 1) * BSIZE) }

/-- The root directory with its first two entries. -/
def makeRoot : MkfsProg Unit := do
  let rootino ← ialloc T_DIR
  if rootino ≠ ROOTINO then Prog.panic .assertion
  else do
    iappend rootino (entryBytes dot rootino)
    iappend rootino (entryBytes dotdot rootino)

/-- `main`, with the files on its command line. -/
def main (files : List InputFile) : MkfsProg Unit := do
  zeroLoop FSSIZE
  wsect 1 (superSect mkfsSuper)
  makeRoot
  addFiles files
  fixRoot
  let s ← Prog.get
  balloc s.freeblock

/-- The state `main` starts in: the image file is empty. -/
def start : Mkfs := ⟨fun _ => .fill BSIZE 0, 0, 1, nmeta, []⟩

/-- **`mkfs` exits with status 0**, and leaves this image. -/
def Makes (files : List InputFile) (s : Mkfs) : Prop := main files start = .ok ((), s)

end Mkfs

end Xv6
