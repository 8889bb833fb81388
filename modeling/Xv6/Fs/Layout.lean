import Xv6.Param

/-!
# The layout of the disk

`[ boot block | super block | log | inode blocks | free bit map | data blocks ]`, as `kernel/fs.h` has it.
-/

namespace Xv6.Fs

/-- `struct superblock`, without the magic number. -/
structure Superblock where
  /-- Size of the file system image, in blocks. -/
  size : ℕ
  /-- Number of data blocks. -/
  nblocks : ℕ
  /-- Number of inodes. -/
  ninodes : ℕ
  /-- Number of log blocks. -/
  nlog : ℕ
  /-- Block number of the first log block. -/
  logstart : ℕ
  /-- Block number of the first inode block. -/
  inodestart : ℕ
  /-- Block number of the first free map block. -/
  bmapstart : ℕ
  deriving DecidableEq

/-- Block containing inode `i`. -/
def Superblock.IBLOCK (sb : Superblock) (i : ℕ) : ℕ := i / IPB + sb.inodestart

/-- Block of the free map containing the bit for block `b`. -/
def Superblock.BBLOCK (sb : Superblock) (b : ℕ) : ℕ := b / BPB + sb.bmapstart

end Xv6.Fs
