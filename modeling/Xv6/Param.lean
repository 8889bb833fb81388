import Mathlib

/-!
# The constants of `kernel/param.h`

The table sizes and the scheduler's constants, under their own names.  They are
`abbrev`s so that arithmetic sees the numbers.
-/

namespace Xv6

/-- Maximum number of processes. -/
abbrev NPROC : ℕ := 64
/-- Maximum number of CPUs. -/
abbrev NCPU : ℕ := 8
/-- Open files per process. -/
abbrev NOFILE : ℕ := 16
/-- Open files per system. -/
abbrev NFILE : ℕ := 100
/-- Maximum number of active i-nodes. -/
abbrev NINODE : ℕ := 50
/-- Maximum major device number. -/
abbrev NDEV : ℕ := 10
/-- Max exec arguments. -/
abbrev MAXARG : ℕ := 32
/-- Max number of blocks any FS op writes. -/
abbrev MAXOPBLOCKS : ℕ := 10
/-- Max data blocks in the on-disk log. -/
abbrev LOGBLOCKS : ℕ := MAXOPBLOCKS * 3
/-- User stack pages. -/
abbrev USERSTACK : ℕ := 1

instance : NeZero NPROC := ⟨by decide⟩
instance : NeZero NCPU := ⟨by decide⟩
instance : NeZero NFILE := ⟨by decide⟩

/-! ## The multilevel feedback queue -/

abbrev NQUEUES : ℕ := 4
abbrev TIME_SLICE_0 : ℤ := 4
abbrev TIME_SLICE_1 : ℤ := 8
abbrev TIME_SLICE_2 : ℤ := 16
abbrev TIME_SLICE_3 : ℤ := 32
/-- The multiple of the time slice after which a waiting process is promoted. -/
abbrev PROMO_THRESHOLD : ℤ := 10
/-- The initial round-robin cursor of every queue. -/
abbrev INIT_RR_INDEX : ℕ := 0

/-! ## The modes of `kernel/fcntl.h` -/

abbrev O_RDONLY : ℕ := 0x000
abbrev O_WRONLY : ℕ := 0x001
abbrev O_RDWR : ℕ := 0x002
abbrev O_CREATE : ℕ := 0x200
abbrev O_TRUNC : ℕ := 0x400

/-! ## The disk format of `kernel/fs.h`, and the types of `kernel/stat.h` -/

/-- Root i-number. -/
abbrev ROOTINO : ℕ := 1
/-- Block size. -/
abbrev BSIZE : ℕ := 1024
abbrev NDIRECT : ℕ := 12
abbrev NINDIRECT : ℕ := BSIZE / 4
abbrev MAXFILE : ℕ := NDIRECT + NINDIRECT
/-- Inodes per block; a `struct dinode` has 64 bytes. -/
abbrev IPB : ℕ := BSIZE / 64
/-- Bitmap bits per block. -/
abbrev BPB : ℕ := BSIZE * 8

abbrev T_DIR : ℕ := 1
abbrev T_FILE : ℕ := 2
abbrev T_DEVICE : ℕ := 3

/-! ## C integers -/

/-- The number of values of a C `uint`. -/
abbrev UINT : ℕ := 2 ^ 32

/-- The value a C `int` holds after `x` is stored in it: 32 bits, two's complement. -/
def cInt (x : ℤ) : ℤ := (BitVec.ofInt 32 x).toInt

theorem cInt_of_range {x : ℤ} (hlo : -2147483648 ≤ x) (hhi : x ≤ 2147483647) : cInt x = x := by
  rw [cInt, BitVec.toInt_ofInt]
  exact Int.bmod_eq_of_le (by omega) (by omega)

theorem cInt_le {x : ℤ} (h : -2147483648 ≤ x) : cInt x ≤ x := by
  rw [cInt, BitVec.toInt_ofInt, Int.bmod_def]
  split <;> omega

theorem le_cInt (x : ℤ) : -2147483648 ≤ cInt x := by
  rw [cInt, BitVec.toInt_ofInt, Int.bmod_def]
  split <;> omega

end Xv6
