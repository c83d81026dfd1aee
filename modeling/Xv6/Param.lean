import Xv6.Bytes

/-!
# Sizes and the disk block

The constants of `kernel/param.h` and `kernel/fs.h` that the modules below
share, under the source's names, and the disk block: `BSIZE` bytes. A disk
is a function from block numbers to blocks.
-/

namespace Xv6

/-- Maximum number of blocks any file system operation writes. -/
def MAXOPBLOCKS : ℕ := 10

/-- Maximum number of data blocks in the on-disk log. -/
def LOGSIZE : ℕ := MAXOPBLOCKS * 3

/-- Block size, in bytes. -/
def BSIZE : ℕ := 1024

/-- The contents of a disk block. -/
abbrev Block : Type := Bytes BSIZE

/-- A disk: the contents of every block. -/
abbrev Disk : Type := ℕ → Block

/-- Maximum number of arguments of `exec`. -/
def MAXARG : ℕ := 32

/-- The value of a 32-bit word read as a C `int`. -/
def int32 (v : ℕ) : ℤ := if v < 2 ^ 31 then v else (v : ℤ) - 2 ^ 32

/-- An `int` in a 64-bit register. -/
def toReg (v : ℤ) : ℕ := (v % 2 ^ 64).toNat

end Xv6
