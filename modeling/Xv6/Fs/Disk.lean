import Xv6.Fs.Layout
import Xv6.Lib.Bytes

/-!
# What is on the disk

A disk is a function from block numbers to the bytes of a block.  Inodes and the free map are read from
those bytes as `kernel/fs.h` lays them out: `getDinode` and `putDinode` for a `struct dinode`, `getBit` and
`putBit` for a bit of the map.

The laws at the end are all that is used of the layout.  They say that inodes, bits and data blocks do not
matter to each other, as long as the three regions of the disk are apart (`Superblock.Ok`).
-/

namespace Xv6.Fs

open Bytes

/-- The bytes of the blocks. -/
abbrev Disk := ℕ → Mem

/-- `memmove` of `bs` into a block, at `off`. -/
def patch (m : Mem) (off : ℕ) (bs : List UInt8) : Mem := fun o =>
  if off ≤ o ∧ o < off + bs.length then bs.getD (o - off) 0 else m o

/-! ## Inodes -/

/-- `struct dinode`, of 64 bytes. -/
@[ext] structure Dinode where
  type : UInt16
  major : UInt16
  minor : UInt16
  nlink : UInt16
  size : UInt32
  /-- `uint addrs[NDIRECT+1]` -/
  addrs : Fin 13 → UInt32

namespace Dinode

/-- What `memset` leaves. -/
def zero : Dinode := ⟨0, 0, 0, 0, 0, fun _ => 0⟩

/-- `addrs[k]` -/
def addr (x : Dinode) (k : ℕ) : ℕ := if h : k < 13 then (x.addrs ⟨k, h⟩).toNat else 0

/-- `addrs[k] = b` -/
def setAddr (x : Dinode) (k b : ℕ) : Dinode :=
  if h : k < 13 then { x with addrs := Function.update x.addrs ⟨k, h⟩ (UInt32.ofNat b) }
  else x

section Addr

variable {x : Dinode} {k l b : ℕ}

theorem addr_of_le (h : 12 < k) : x.addr k = 0 := by
  rw [addr, dif_neg (by omega)]

theorem addr_setAddr_self (hk : k ≤ 12) (hb : b < 2 ^ 32) : (x.setAddr k b).addr k = b := by
  rw [setAddr, dif_pos (by omega), addr, dif_pos (by omega)]
  simp only [Function.update_self]
  exact UInt32.toNat_ofNat_of_lt hb

theorem addr_setAddr_of_ne (h : l ≠ k) : (x.setAddr k b).addr l = x.addr l := by
  rw [setAddr]
  split
  · rw [addr, addr]
    split
    · simp only [ne_eq, Fin.mk.injEq, h, not_false_eq_true, Function.update_of_ne]
    · rfl
  · rfl

@[simp] theorem setAddr_type : (x.setAddr k b).type = x.type := by rw [setAddr]; split <;> rfl
@[simp] theorem setAddr_nlink : (x.setAddr k b).nlink = x.nlink := by rw [setAddr]; split <;> rfl
@[simp] theorem setAddr_size : (x.setAddr k b).size = x.size := by rw [setAddr]; split <;> rfl
@[simp] theorem setAddr_major : (x.setAddr k b).major = x.major := by rw [setAddr]; split <;> rfl
@[simp] theorem setAddr_minor : (x.setAddr k b).minor = x.minor := by rw [setAddr]; split <;> rfl

end Addr

/-- The `j`-th byte of the structure. -/
def byte (x : Dinode) (j : ℕ) : UInt8 :=
  if j < 2 then UInt8.ofNat (x.type.toNat / 256 ^ j)
  else if j < 4 then UInt8.ofNat (x.major.toNat / 256 ^ (j - 2))
  else if j < 6 then UInt8.ofNat (x.minor.toNat / 256 ^ (j - 4))
  else if j < 8 then UInt8.ofNat (x.nlink.toNat / 256 ^ (j - 6))
  else if j < 12 then UInt8.ofNat (x.size.toNat / 256 ^ (j - 8))
  else UInt8.ofNat (x.addr ((j - 12) / 4) / 256 ^ ((j - 12) % 4))

/-- The structure at `off`. -/
def decode (m : Mem) (off : ℕ) : Dinode where
  type := UInt16.ofNat (load 2 m off)
  major := UInt16.ofNat (load 2 m (off + 2))
  minor := UInt16.ofNat (load 2 m (off + 4))
  nlink := UInt16.ofNat (load 2 m (off + 6))
  size := UInt32.ofNat (load 4 m (off + 8))
  addrs k := UInt32.ofNat (load 4 m (off + 12 + 4 * k))

/-- The structure is stored at `off`. -/
def encode (x : Dinode) (m : Mem) (off : ℕ) : Mem := fun o =>
  if off ≤ o ∧ o < off + 64 then x.byte (o - off) else m o

section Codec

variable {x : Dinode} {m m' : Mem} {off off' : ℕ}

theorem ofNat_two_bytes (v : UInt16) : UInt16.ofNat (v.toNat % 256 ^ 2) = v := by
  rw [Nat.mod_eq_of_lt (b := 256 ^ 2) v.toNat_lt, UInt16.ofNat_toNat]

theorem ofNat_four_bytes (v : UInt32) : UInt32.ofNat (v.toNat % 256 ^ 4) = v := by
  rw [Nat.mod_eq_of_lt (b := 256 ^ 4) v.toNat_lt, UInt32.ofNat_toNat]

/-- **What is stored is what is read.** -/
theorem decode_encode : decode (x.encode m off) off = x := by
  have hload : ∀ {k f v : ℕ}, f + k ≤ 64 →
      (∀ i < k, x.byte (f + i) = UInt8.ofNat (v / 256 ^ i)) →
      load k (x.encode m off) (off + f) = v % 256 ^ k := by
    intro k f v hle hbyte
    refine load_eq_of_bytes fun i hi => ?_
    rw [encode, if_pos (by omega), show off + f + i - off = f + i by omega]
    exact hbyte i hi
  ext1
  case type =>
    have h := hload (k := 2) (f := 0) (v := x.type.toNat) (by omega) fun i hi => by
      rw [byte, if_pos (by omega), Nat.zero_add]
    change UInt16.ofNat (load 2 (x.encode m off) (off + 0)) = x.type
    rw [h, ofNat_two_bytes]
  case major =>
    have h := hload (k := 2) (f := 2) (v := x.major.toNat) (by omega) fun i hi => by
      rw [byte, if_neg (by omega), if_pos (by omega), Nat.add_sub_cancel_left]
    change UInt16.ofNat (load 2 (x.encode m off) (off + 2)) = x.major
    rw [h, ofNat_two_bytes]
  case minor =>
    have h := hload (k := 2) (f := 4) (v := x.minor.toNat) (by omega) fun i hi => by
      rw [byte, if_neg (by omega), if_neg (by omega), if_pos (by omega), Nat.add_sub_cancel_left]
    change UInt16.ofNat (load 2 (x.encode m off) (off + 4)) = x.minor
    rw [h, ofNat_two_bytes]
  case nlink =>
    have h := hload (k := 2) (f := 6) (v := x.nlink.toNat) (by omega) fun i hi => by
      rw [byte, if_neg (by omega), if_neg (by omega), if_neg (by omega), if_pos (by omega),
        Nat.add_sub_cancel_left]
    change UInt16.ofNat (load 2 (x.encode m off) (off + 6)) = x.nlink
    rw [h, ofNat_two_bytes]
  case size =>
    have h := hload (k := 4) (f := 8) (v := x.size.toNat) (by omega) fun i hi => by
      rw [byte, if_neg (by omega), if_neg (by omega), if_neg (by omega), if_neg (by omega),
        if_pos (by omega), Nat.add_sub_cancel_left]
    change UInt32.ofNat (load 4 (x.encode m off) (off + 8)) = x.size
    rw [h, ofNat_four_bytes]
  case addrs =>
    funext k
    have hk : (k : ℕ) < 13 := k.isLt
    have h := hload (k := 4) (f := 12 + 4 * k) (v := x.addr k) (by omega) fun i hi => by
      rw [byte, if_neg (by omega), if_neg (by omega), if_neg (by omega), if_neg (by omega),
        if_neg (by omega), show (12 + 4 * (k : ℕ) + i - 12) / 4 = k by omega,
        show (12 + 4 * (k : ℕ) + i - 12) % 4 = i by omega]
    change UInt32.ofNat (load 4 (x.encode m off) (off + 12 + 4 * k)) = x.addrs k
    rw [Nat.add_assoc, h, addr, dif_pos hk, ofNat_four_bytes]

theorem decode_congr (h : ∀ o, off ≤ o → o < off + 64 → m o = m' o) :
    decode m off = decode m' off := by
  have hload : ∀ {k f : ℕ}, f + k ≤ 64 → load k m (off + f) = load k m' (off + f) :=
    fun hle => load_congr fun i hi hik => h i (by omega) (by omega)
  have hload0 : load 2 m off = load 2 m' off := hload (f := 0) (by omega)
  ext1
  case addrs =>
    funext k
    have hk : (k : ℕ) < 13 := k.isLt
    change UInt32.ofNat (load 4 m (off + 12 + 4 * k)) = UInt32.ofNat (load 4 m' (off + 12 + 4 * k))
    rw [Nat.add_assoc, hload (by omega)]
  all_goals
    rw [decode, decode]
    simp only [hload0, hload (k := 2) (f := 2) (by omega), hload (k := 2) (f := 4) (by omega),
      hload (k := 2) (f := 6) (by omega), hload (k := 4) (f := 8) (by omega)]

theorem decode_encode_of_disjoint (h : off + 64 ≤ off' ∨ off' + 64 ≤ off) :
    decode (x.encode m off) off' = decode m off' := by
  refine decode_congr fun o hlo hhi => ?_
  rw [encode, if_neg (by omega)]

end Codec

end Dinode

variable (sb : Superblock)

theorem Superblock.IBLOCK_eq (i : ℕ) : sb.IBLOCK i = i / 16 + sb.inodestart := rfl

theorem Superblock.BBLOCK_eq (b : ℕ) : sb.BBLOCK b = b / 8192 + sb.bmapstart := rfl

/-- Inode `i` on the disk. -/
def getDinode (d : Disk) (i : ℕ) : Dinode := .decode (d (sb.IBLOCK i)) (64 * (i % 16))

/-- Inode `i` becomes `x`. -/
def putDinode (d : Disk) (i : ℕ) (x : Dinode) : Disk :=
  Function.update d (sb.IBLOCK i) (x.encode (d (sb.IBLOCK i)) (64 * (i % 16)))

/-! ## The free map -/

/-- Bit `bi` of a block. -/
def testBit (m : Mem) (bi : ℕ) : Bool := (m (bi / 8)).toNat.testBit (bi % 8)

/-- `data[bi/8] |= m`, or `data[bi/8] &= ~m`. -/
def setBit (m : Mem) (bi : ℕ) (v : Bool) : Mem :=
  Function.update m (bi / 8) (if v then m (bi / 8) ||| (1 <<< UInt8.ofNat (bi % 8))
    else m (bi / 8) &&& ~~~(1 <<< UInt8.ofNat (bi % 8)))

theorem testBit_byte : ∀ (v : Bool) (k l : Fin 8) (x : Fin 256),
    (if v then UInt8.ofNat x ||| (1 <<< UInt8.ofNat k)
      else UInt8.ofNat x &&& ~~~(1 <<< UInt8.ofNat k)).toNat.testBit l =
      if l = k then v else (x : ℕ).testBit l := by
  decide +kernel

theorem testBit_setBit (m : Mem) (bi bj : ℕ) (v : Bool) :
    testBit (setBit m bi v) bj = if bj = bi then v else testBit m bj := by
  rw [testBit, testBit, setBit]
  by_cases hbyte : bj / 8 = bi / 8
  · have h := testBit_byte v ⟨bi % 8, Nat.mod_lt _ (by decide)⟩ ⟨bj % 8, Nat.mod_lt _ (by decide)⟩
      ⟨(m (bi / 8)).toNat, (m (bi / 8)).toNat_lt⟩
    simp only [UInt8.ofNat_toNat, Fin.mk.injEq] at h
    rw [hbyte, Function.update_self, h]
    by_cases heq : bj = bi
    · rw [if_pos (by rw [heq]), if_pos heq]
    · rw [if_neg (by omega), if_neg heq]
  · rw [Function.update_of_ne hbyte, if_neg (by rintro rfl; exact hbyte rfl)]

/-- Whether block `b` is marked as used. -/
def getBit (d : Disk) (b : ℕ) : Bool := testBit (d (sb.BBLOCK b)) (b % 8192)

/-- Block `b` is marked as used or as free. -/
def putBit (d : Disk) (b : ℕ) (v : Bool) : Disk :=
  Function.update d (sb.BBLOCK b) (setBit (d (sb.BBLOCK b)) (b % 8192) v)

/-! ## The regions of the disk -/

/-- The number of the first data block. -/
def Superblock.datastart : ℕ := sb.size - sb.nblocks

/-- The inodes, the free map and the data blocks are apart, and the numbers of inodes and of blocks fit
into the fields that hold them. -/
structure Superblock.Ok : Prop where
  inodes : sb.inodestart + (sb.ninodes + 15) / 16 ≤ sb.bmapstart
  bitmap : sb.bmapstart + (sb.size + 8191) / 8192 ≤ sb.datastart
  boot : 0 < sb.inodestart
  root : ROOTINO < sb.ninodes
  ninodes_le : sb.ninodes ≤ 2 ^ 16
  size_lt : sb.size < 2 ^ 31

theorem Superblock.le_bblock (b : ℕ) : sb.bmapstart ≤ sb.BBLOCK b := Nat.le_add_left ..

section Laws

variable {sb} (hsb : sb.Ok) {d : Disk} {i j b c : ℕ}

include hsb

theorem Superblock.Ok.datastart_pos : 0 < sb.datastart := by
  have h₁ := hsb.inodes
  have h₂ := hsb.bitmap
  have h₃ := hsb.boot
  omega

theorem Superblock.Ok.iblock_lt (hi : i < sb.ninodes) : sb.IBLOCK i < sb.bmapstart := by
  have := hsb.inodes
  rw [sb.IBLOCK_eq]
  omega

theorem Superblock.Ok.bblock_lt (hb : b < sb.size) : sb.BBLOCK b < sb.datastart := by
  have := hsb.bitmap
  rw [sb.BBLOCK_eq]
  omega

theorem Superblock.Ok.iblock_lt_datastart (hi : i < sb.ninodes) : sb.IBLOCK i < sb.datastart := by
  have h₁ := hsb.iblock_lt hi
  have h₂ := hsb.bitmap
  omega

omit hsb in
theorem getDinode_putDinode (x : Dinode) :
    getDinode sb (putDinode sb d i x) j = if j = i then x else getDinode sb d j := by
  rw [getDinode, putDinode]
  by_cases hij : j = i
  · rw [if_pos hij, hij, Function.update_self, Dinode.decode_encode]
  · rw [if_neg hij]
    by_cases hblock : sb.IBLOCK j = sb.IBLOCK i
    · -- another inode of the same block
      rw [hblock, Function.update_self, Dinode.decode_encode_of_disjoint, getDinode, hblock]
      rw [sb.IBLOCK_eq, sb.IBLOCK_eq] at hblock
      omega
    · rw [Function.update_of_ne hblock, getDinode]

theorem getDinode_putBit (hi : i < sb.ninodes) (v : Bool) :
    getDinode sb (putBit sb d b v) i = getDinode sb d i := by
  have h₁ := hsb.iblock_lt hi
  have h₂ := sb.le_bblock b
  rw [getDinode, putBit, Function.update_of_ne (by omega), getDinode]

theorem getDinode_update (hi : i < sb.ninodes) (hb : sb.datastart ≤ b) (m : Mem) :
    getDinode sb (Function.update d b m) i = getDinode sb d i := by
  have := hsb.iblock_lt_datastart hi
  rw [getDinode, Function.update_of_ne (by omega), getDinode]

omit hsb in
theorem getBit_putBit (v : Bool) :
    getBit sb (putBit sb d b v) c = if c = b then v else getBit sb d c := by
  rw [getBit, putBit]
  by_cases hblock : sb.BBLOCK c = sb.BBLOCK b
  · rw [hblock, Function.update_self, testBit_setBit, getBit, hblock]
    rw [sb.BBLOCK_eq, sb.BBLOCK_eq] at hblock
    by_cases hcb : c = b
    · rw [if_pos (by rw [hcb]), if_pos hcb]
    · rw [if_neg (by omega), if_neg hcb]
  · rw [Function.update_of_ne hblock, if_neg (by rintro rfl; exact hblock rfl), getBit]

theorem getBit_putDinode (hi : i < sb.ninodes) (x : Dinode) :
    getBit sb (putDinode sb d i x) b = getBit sb d b := by
  have h₁ := hsb.iblock_lt hi
  have h₂ := sb.le_bblock b
  rw [getBit, putDinode, Function.update_of_ne (by omega), getBit]

theorem getBit_update (hb : b < sb.size) (hc : sb.datastart ≤ c) (m : Mem) :
    getBit sb (Function.update d c m) b = getBit sb d b := by
  have := hsb.bblock_lt hb
  rw [getBit, Function.update_of_ne (by omega), getBit]

theorem data_putDinode (hi : i < sb.ninodes) (hb : sb.datastart ≤ b) (x : Dinode) :
    putDinode sb d i x b = d b := by
  have := hsb.iblock_lt_datastart hi
  rw [putDinode, Function.update_of_ne (by omega)]

theorem data_putBit (hc : c < sb.size) (hb : sb.datastart ≤ b) (v : Bool) :
    putBit sb d c v b = d b := by
  have := hsb.bblock_lt hc
  rw [putBit, Function.update_of_ne (by omega)]

end Laws

end Xv6.Fs
