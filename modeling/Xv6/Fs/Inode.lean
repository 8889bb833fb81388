import Xv6.Fs.Disk
import Xv6.Lib.Program

/-!
# Blocks, inodes and their content

`kernel/fs.c` up to `writei`, as a process runs it that has the locks it needs.

A block is what `bread` returns for it (`cached`).  A change to a buffer is there at once; `log_write`
makes it last (`logged`), and puts the block on the list of those that the transaction writes.  A buffer
that has been changed without `log_write` can lose the change when it is evicted.

There is one device, so an entry of the inode table is known by its inode number.  An entry with
`ref = 0` is free; `inUse` is the number of the others.  What was in an entry before does not matter,
since `iget` makes it invalid.

User memory is a function from addresses to bytes; `none` is an address that cannot be read, and kernel
memory has a byte at every address.  A copy stops at the first byte it cannot get.  Addresses do not wrap
around, since no user address is near `2 ^ 64`.
-/

namespace Xv6.Fs

open Bytes Program

/-! ## The state -/

/-- `struct inode` -/
structure Inode where
  ref : ℕ
  valid : Bool
  /-- `ip->lock` is held. -/
  locked : Bool
  /-- The copy of the inode on the disk. -/
  d : Dinode

/-- An entry of the inode table that is not in use. -/
def Inode.free : Inode := ⟨0, false, false, .zero⟩

structure State where
  /-- What `bread` returns. -/
  cached : Disk
  /-- What is in the log or in its place on the disk. -/
  logged : Disk
  /-- The blocks that were given to `log_write`. -/
  written : List ℕ
  /-- The inode table, by inode number. -/
  inode : ℕ → Inode
  /-- The number of entries of the table with `ref > 0`. -/
  inUse : ℕ

/-- Another entry for inode `i` in the table. -/
def State.setInode (s : State) (i : ℕ) (x : Inode) : State :=
  { s with inode := Function.update s.inode i x }

inductive Panic where
  /-- `"freeing free block"` -/
  | bfree
  /-- `"iget: no inodes"` -/
  | igetNoInodes
  /-- `"ilock"` -/
  | ilock
  /-- `"ilock: no type"` -/
  | ilockNoType
  /-- `"iunlock"` -/
  | iunlock
  /-- `"bmap: out of range"` -/
  | bmapOutOfRange
  /-- `"dirlookup not DIR"` -/
  | dirlookupNotDir
  /-- `"dirlookup read"` -/
  | dirlookupRead
  /-- `"dirlink read"` -/
  | dirlinkRead
  /-- `"isdirempty: readi"` -/
  | isdiremptyReadi
  /-- `"unlink: nlink < 1"` -/
  | unlinkNlink
  /-- `"unlink: writei"` -/
  | unlinkWritei
  /-- `"filedup"` -/
  | filedup
  /-- `"fileclose"` -/
  | fileclose
  /-- `"fileread"` -/
  | fileread
  /-- `"filewrite"` -/
  | filewrite
  /-- `"init exiting"` -/
  | initExiting
  /-- A process waits for a lock that it holds. -/
  | deadlock
  deriving DecidableEq

/-- Programs of the file system. -/
abbrev FsM := Prog Panic State

/-! ## Buffers -/

def bread (b : ℕ) : FsM Mem := do
  let s ← get
  return s.cached b

/-- A change to the buffer of block `b`. -/
def modifyBuf (b : ℕ) (f : Mem → Mem) : FsM Unit :=
  modify fun s => { s with cached := Function.update s.cached b (f (s.cached b)) }

def logWrite (b : ℕ) : FsM Unit :=
  modify fun s => { s with
    logged := Function.update s.logged b (s.cached b), written := s.written ++ [b] }

/-- A change to the buffer of block `b`, and `log_write`. -/
def logBuf (b : ℕ) (f : Mem → Mem) : FsM Unit := do
  modifyBuf b f
  logWrite b

/-- Zero a block. -/
def bzero (b : ℕ) : FsM Unit := logBuf b fun _ _ => 0

section Superblock

variable (sb : Superblock)

/-! ## Blocks -/

/-- The loop of `balloc` over the blocks of the free map, from that of block `b` on. -/
def ballocFrom : ℕ → ℕ → FsM ℕ
  | 0, _ => return 0
  | turns + 1, b => do
    let bp ← bread (sb.BBLOCK b)
    match (List.range (min 8192 (sb.size - b))).find? fun bi => !testBit bp bi with
    | some bi =>
      logBuf (sb.BBLOCK b) fun m => setBit m bi true
      bzero (b + bi)
      return b + bi
    | none => ballocFrom turns (b + 8192)

/-- Allocate a zeroed disk block; 0 if out of disk space. -/
def balloc : FsM ℕ := ballocFrom sb ((sb.size + 8191) / 8192) 0

/-- Free a disk block. -/
def bfree (b : ℕ) : FsM Unit := do
  let bp ← bread (sb.BBLOCK b)
  if !testBit bp (b % 8192) then panic .bfree
  else logBuf (sb.BBLOCK b) fun m => setBit m (b % 8192) false

/-! ## The inode table -/

/-- The fields of `ip`. -/
def getInode (i : ℕ) : FsM Dinode := do
  let s ← get
  return (s.inode i).d

/-- An assignment to fields of `ip`. -/
def modifyInode (i : ℕ) (f : Dinode → Dinode) : FsM Unit :=
  modify fun s => s.setInode i { s.inode i with d := f (s.inode i).d }

/-- Copy a modified in-memory inode to disk. -/
def iupdate (i : ℕ) : FsM Unit := do
  modify fun s => { s with cached := putDinode sb s.cached i (s.inode i).d }
  logWrite (sb.IBLOCK i)

/-- Find the inode with number `inum` and return the in-memory copy. -/
def iget (inum : ℕ) : FsM ℕ := do
  let s ← get
  if (s.inode inum).ref > 0 then
    set (s.setInode inum { s.inode inum with ref := (s.inode inum).ref + 1 })
    return inum
  else if s.inUse ≥ NINODE then panic .igetNoInodes
  else
    set { s.setInode inum { Inode.free with ref := 1 } with inUse := s.inUse + 1 }
    return inum

/-- Increment the reference count. -/
def idup (i : ℕ) : FsM ℕ := do
  modify fun s => s.setInode i { s.inode i with ref := (s.inode i).ref + 1 }
  return i

/-- The loop of `ialloc`, from inode `inum` on. -/
def iallocFrom (type : UInt16) : ℕ → ℕ → FsM (Option ℕ)
  | 0, _ => return none
  | turns + 1, inum => do
    let s ← get
    if (getDinode sb s.cached inum).type = 0 then
      modify fun s => { s with cached := putDinode sb s.cached inum { Dinode.zero with type := type } }
      logWrite (sb.IBLOCK inum)
      let ip ← iget inum
      return some ip
    else iallocFrom type turns (inum + 1)

/-- Allocate an inode and mark it as allocated by giving it a type. -/
def ialloc (type : UInt16) : FsM (Option ℕ) := iallocFrom sb type (sb.ninodes - 1) 1

/-- Lock the given inode, and read it from disk if necessary. -/
def ilock (i : ℕ) : FsM Unit := do
  let s ← get
  if (s.inode i).ref < 1 then panic .ilock
  else if (s.inode i).locked then panic .deadlock
  else if (s.inode i).valid then
    set (s.setInode i { s.inode i with locked := true })
  else
    let dip := getDinode sb s.cached i
    set (s.setInode i { s.inode i with locked := true, valid := true, d := dip })
    if dip.type = 0 then panic .ilockNoType

/-- Unlock the given inode. -/
def iunlock (i : ℕ) : FsM Unit := do
  let s ← get
  if !(s.inode i).locked ∨ (s.inode i).ref < 1 then panic .iunlock
  else set (s.setInode i { s.inode i with locked := false })

/-! ## Inode content -/

/-- The `bn`-th address in an indirect block. -/
def entryAt (m : Mem) (bn : ℕ) : ℕ := load 4 m (4 * bn)

/-- `addrs[k]`, allocated if it is 0. -/
def addrOrAlloc (i k : ℕ) : FsM ℕ := do
  let ip ← getInode i
  if ip.addr k = 0 then
    let addr ← balloc sb
    if addr = 0 then return 0
    else
      modifyInode i fun ip => ip.setAddr k addr
      return addr
  else return ip.addr k

/-- Return the disk block address of the `bn`-th block in the inode; allocate one if there is none. -/
def bmap (i bn : ℕ) : FsM ℕ :=
  if bn < 12 then addrOrAlloc sb i bn
  else if bn - 12 < 256 then do
    -- load the indirect block
    let ind ← addrOrAlloc sb i 12
    if ind = 0 then return 0
    else
      let bp ← bread ind
      if entryAt bp (bn - 12) = 0 then
        let addr ← balloc sb
        if addr = 0 then return 0
        else
          logBuf ind fun m => store 4 m (4 * (bn - 12)) addr
          return addr
      else return entryAt bp (bn - 12)
  else panic .bmapOutOfRange

/-- `addrs[k]` is freed. -/
def freeAddr (i k : ℕ) : FsM Unit := do
  let ip ← getInode i
  if ip.addr k = 0 then return ()
  else
    bfree sb (ip.addr k)
    modifyInode i fun ip => ip.setAddr k 0

/-- The `j`-th block of an indirect block is freed. -/
def freeEntry (bp : Mem) (j : ℕ) : FsM Unit :=
  if entryAt bp j = 0 then return () else bfree sb (entryAt bp j)

/-- The indirect block and its blocks are freed. -/
def freeIndirect (i : ℕ) : FsM Unit := do
  let ip ← getInode i
  if ip.addr 12 = 0 then return ()
  else
    let bp ← bread (ip.addr 12)
    forUp (freeEntry sb bp) 0 256
    freeAddr sb i 12

/-- Truncate inode (discard contents). -/
def itrunc (i : ℕ) : FsM Unit := do
  forUp (freeAddr sb i) 0 12
  freeIndirect sb i
  modifyInode i fun ip => { ip with size := 0 }
  iupdate sb i

/-- `ip->ref--`. -/
def dropRef (i : ℕ) : FsM Unit :=
  modify fun s =>
    if (s.inode i).ref ≤ 1 then
      { s.setInode i .free with inUse := s.inUse - 1 }
    else s.setInode i { s.inode i with ref := (s.inode i).ref - 1 }

/-- `acquiresleep(&ip->lock)`, by a process that finds it free or holds it. -/
def acquiresleep (i : ℕ) : FsM Unit := do
  let s ← get
  if (s.inode i).locked then panic .deadlock
  else set (s.setInode i { s.inode i with locked := true })

/-- The inode has no links and no other references: truncate and free. -/
def ifree (i : ℕ) : FsM Unit := do
  acquiresleep i
  itrunc sb i
  modifyInode i fun ip => { ip with type := 0 }
  iupdate sb i
  modify fun s => s.setInode i { s.inode i with valid := false, locked := false }

/-- Drop a reference to an in-memory inode. -/
def iput (i : ℕ) : FsM Unit := do
  let s ← get
  if (s.inode i).ref = 1 ∧ (s.inode i).valid ∧ (s.inode i).d.nlink = 0 then
    ifree sb i
    dropRef i
  else dropRef i

def iunlockput (i : ℕ) : FsM Unit := do
  iunlock i
  iput sb i

/-! ## Reading and writing -/

/-- Memory that is read: `none` is an address that cannot be. -/
abbrev Source := ℕ → Option UInt8

/-- `either_copyin` of `n` bytes at `a`: the bytes that were copied.  It fails if they are fewer. -/
def eitherCopyin (src : Source) : ℕ → ℕ → List UInt8
  | _, 0 => []
  | a, n + 1 =>
    match src a with
    | none => []
    | some c => c :: eitherCopyin src (a + 1) n

/-- `either_copyout` to `a`, where `dst` are the addresses that can be written: the bytes that were
copied.  It fails if they are fewer. -/
def eitherCopyout (dst : ℕ → Bool) : ℕ → List UInt8 → List UInt8
  | _, [] => []
  | a, c :: bs => if dst a then c :: eitherCopyout dst (a + 1) bs else []

/-- `n` bytes of a block. -/
def bytesAt (m : Mem) (off n : ℕ) : List UInt8 := (List.range n).map fun j => m (off + j)

/-- The loop of `readi`: whether no copy has failed, and the bytes that were copied.  Every turn reads a
byte at least, so `fuel = n` is enough. -/
def readiFrom (i : ℕ) (dst : ℕ → Bool) : ℕ → ℕ → ℕ → ℕ → FsM (Bool × List UInt8)
  | 0, _, _, _ => return (true, [])
  | fuel + 1, a, off, n =>
    if n = 0 then return (true, [])
    else do
      let addr ← bmap sb i (off / 1024)
      if addr = 0 then return (true, [])
      else
        let bp ← bread addr
        let m := min n (1024 - off % 1024)
        let bs := eitherCopyout dst a (bytesAt bp (off % 1024) m)
        if bs.length < m then return (false, bs)
        else
          let (ok, rest) ← readiFrom i dst fuel (a + m) (off + m) (n - m)
          return (ok, bs ++ rest)

/-- Read data from inode: the result, and the bytes that are stored from `a` on. -/
def readi (i : ℕ) (dst : ℕ → Bool) (a off n : ℕ) : FsM (ℤ × List UInt8) := do
  let ip ← getInode i
  if off > ip.size.toNat ∨ (off + n) % UINT < off then return (0, [])
  else
    let n := if (off + n) % UINT > ip.size.toNat then ip.size.toNat - off else n
    let (ok, bs) ← readiFrom sb i dst n a off n
    return (if ok then bs.length else -1, bs)

/-- The loop of `writei`: how many bytes were written. -/
def writeiFrom (i : ℕ) (src : Source) : ℕ → ℕ → ℕ → ℕ → FsM ℕ
  | 0, _, _, _ => return 0
  | fuel + 1, a, off, n =>
    if n = 0 then return 0
    else do
      let addr ← bmap sb i (off / 1024)
      if addr = 0 then return 0
      else
        let m := min n (1024 - off % 1024)
        let bs := eitherCopyin src a m
        -- what was copied is in the buffer, also if it is too little
        modifyBuf addr fun bp => patch bp (off % 1024) bs
        if bs.length < m then return 0
        else
          logWrite addr
          let tot ← writeiFrom i src fuel (a + m) (off + m) (n - m)
          return m + tot

/-- Write data to inode: the number of bytes, or -1. -/
def writei (i : ℕ) (src : Source) (a off n : ℕ) : FsM ℤ := do
  let ip ← getInode i
  if off > ip.size.toNat ∨ (off + n) % UINT < off then return -1
  else if (off + n) % UINT > MAXFILE * BSIZE then return -1
  else
    let tot ← writeiFrom sb i src n a off n
    modifyInode i fun ip =>
      if off + tot > ip.size.toNat then { ip with size := UInt32.ofNat (off + tot) } else ip
    -- also if the size did not change, because of bmap
    iupdate sb i
    return tot

/-- Kernel memory that holds `bs` at address 0. -/
def kernelSource (bs : List UInt8) : Source := fun a => some (bs.getD a 0)

/-- Kernel memory can be written. -/
def kernelDest : ℕ → Bool := fun _ => true

end Superblock

end Xv6.Fs
