import Xv6.Fs.Inode

/-!
# Directories and paths

The rest of `kernel/fs.c`: directories, whose content is an array of entries, and the walk along a path.

A name is a pointer to bytes, of which the code reads at most `DIRSIZ`; it need not end with a zero byte
there.  A path is the list of its bytes before the zero byte.
-/

namespace Xv6.Fs

open Bytes Program

/-! ## Names -/

/-- `strncmp`, `k` bytes behind the start of `p` and `q`. -/
def strncmpFrom (p q : Mem) : ℕ → ℕ → ℤ
  | 0, _ => 0
  | n + 1, k =>
    if p k ≠ 0 ∧ p k = q k then strncmpFrom p q n (k + 1) else (p k).toNat - (q k).toNat

def namecmp (s t : Mem) : ℤ := strncmpFrom s t 14 0

/-- The bytes that `strncpy` stores, `k` bytes behind the start of `t`. -/
def strncpyFrom (t : Mem) : ℕ → ℕ → List UInt8
  | 0, _ => []
  | n + 1, k => if t k = 0 then List.replicate (n + 1) 0 else t k :: strncpyFrom t n (k + 1)

/-- A string constant. -/
def constName (bs : List UInt8) : Mem := fun j => bs.getD j 0

/-- `"."` -/
def dot : Mem := constName [46]

/-- `".."` -/
def dotdot : Mem := constName [46, 46]

/-! ## Directory entries -/

/-- `struct dirent` -/
structure Dirent where
  inum : UInt16
  name : Mem

/-- The entry that is stored in 16 bytes. -/
def Dirent.decode (bs : List UInt8) : Dirent where
  inum := .ofNat ((bs.getD 0 0).toNat + 256 * (bs.getD 1 0).toNat)
  name j := bs.getD (2 + j) 0

/-- The bytes of the entry for `inum` with a copy of `name`. -/
def direntBytes (name : Mem) (inum : UInt16) : List UInt8 :=
  .ofNat (inum.toNat % 256) :: .ofNat (inum.toNat / 256) :: strncpyFrom name 14 0

section Superblock

variable (sb : Superblock)

/-- `readi` of the entry at `off`; the caller panics with `e` if there are not enough bytes. -/
def readDirent (e : Panic) (dp off : ℕ) : FsM Dirent := do
  let (r, bs) ← readi sb dp kernelDest 0 off 16
  if r ≠ 16 then panic e else return .decode bs

/-- The number of turns of a loop over the entries of `dp`. -/
def turnsOf (dp : Dinode) : ℕ := (dp.size.toNat + 15) / 16

/-- A turn of the loop of `dirlookup`: the inode number and the offset of an entry for `name`. -/
def dirlookupTurn (dp : ℕ) (name : Mem) (k : ℕ) : FsM (Option (ℕ × ℕ)) := do
  let de ← readDirent sb .dirlookupRead dp (16 * k)
  if de.inum = 0 then return none
  else if namecmp name de.name = 0 then return some (de.inum.toNat, 16 * k)
  else return none

/-- Look for a directory entry in a directory: the inode and the offset of the entry. -/
def dirlookup (dp : ℕ) (name : Mem) : FsM (Option (ℕ × ℕ)) := do
  let d ← getInode dp
  if d.type ≠ .ofNat T_DIR then panic .dirlookupNotDir
  else
    match ← countUp (dirlookupTurn sb dp name) 0 (turnsOf d) with
    | none => return none
    | some (inum, off) =>
      let ip ← iget inum
      return some (ip, off)

/-- A turn of the loop of `dirlink`: whether the entry is empty. -/
def dirlinkTurn (dp k : ℕ) : FsM (Option ℕ) := do
  let de ← readDirent sb .dirlinkRead dp (16 * k)
  if de.inum = 0 then return some (16 * k) else return none

/-- Write a new directory entry into the directory `dp`. -/
def dirlink (dp : ℕ) (name : Mem) (inum : ℕ) : FsM ℤ := do
  -- check that name is not present
  match ← dirlookup sb dp name with
  | some (ip, _) =>
    iput sb ip
    return -1
  | none =>
    -- look for an empty dirent
    let d ← getInode dp
    let empty ← countUp (dirlinkTurn sb dp) 0 (turnsOf d)
    let off := empty.getD (16 * turnsOf d)
    let r ← writei sb dp (kernelSource (direntBytes name (.ofNat inum))) 0 off 16
    if r ≠ 16 then return -1 else return 0

/-- A turn of the loop of `isdirempty`. -/
def isdiremptyTurn (dp k : ℕ) : FsM (Option Unit) := do
  let de ← readDirent sb .isdiremptyReadi dp (16 * k)
  if de.inum ≠ 0 then return some () else return none

/-- Is the directory `dp` empty except for `"."` and `".."`? -/
def isdirempty (dp : ℕ) : FsM Bool := do
  let d ← getInode dp
  let found ← countUp (isdiremptyTurn sb dp) 2 (turnsOf d - 2)
  return found.isNone

/-! ## Paths -/

/-- `'/'` -/
def slash : UInt8 := 47

/-- The name buffer after an element of the path has been copied to it. -/
def copyElem (name : Mem) (elem : List UInt8) : Mem :=
  if 14 ≤ elem.length then fun j => if j < 14 then elem.getD j 0 else name j
  else fun j => if j < elem.length then elem.getD j 0 else if j = elem.length then 0 else name j

/-- Copy the next path element from path into name: the path behind it, and the name. -/
def skipelem (path : List UInt8) (name : Mem) : Option (List UInt8 × Mem) :=
  match path.dropWhile (· = slash) with
  | [] => none
  | c :: p =>
    some (((c :: p).dropWhile (· ≠ slash)).dropWhile (· = slash),
      copyElem name ((c :: p).takeWhile (· ≠ slash)))

/-- The loop of `namex`.  Every turn takes an element off the path, so `fuel` need only be greater than
the length of the path. -/
def namexFrom (nameiparent : Bool) : ℕ → ℕ → List UInt8 → Mem → FsM (Option (ℕ × Mem))
  | 0, _, _, _ => return none
  | fuel + 1, ip, path, name =>
    match skipelem path name with
    | none =>
      if nameiparent then do
        iput sb ip
        return none
      else return some (ip, name)
    | some (path, name) => do
      ilock sb ip
      let d ← getInode ip
      if d.type ≠ .ofNat T_DIR then
        iunlockput sb ip
        return none
      else if nameiparent ∧ path = [] then
        -- stop one level early
        iunlock ip
        return some (ip, name)
      else
        match ← dirlookup sb ip name with
        | none =>
          iunlockput sb ip
          return none
        | some (next, _) =>
          iunlockput sb ip
          namexFrom nameiparent fuel next path name

/-- Look up and return the inode for a path name, by a process whose current directory is `cwd`. -/
def namex (cwd : ℕ) (path : List UInt8) (nameiparent : Bool) (name : Mem) :
    FsM (Option (ℕ × Mem)) := do
  let ip ← if path.head? = some slash then iget ROOTINO else idup cwd
  namexFrom sb nameiparent (path.length + 1) ip path name

/-- The content of a buffer on the stack before it is written. -/
def noName : Mem := fun _ => 0

def namei (cwd : ℕ) (path : List UInt8) : FsM (Option ℕ) := do
  match ← namex sb cwd path false noName with
  | none => return none
  | some (ip, _) => return some ip

def nameiparent (cwd : ℕ) (path : List UInt8) (name : Mem) : FsM (Option (ℕ × Mem)) :=
  namex sb cwd path true name

end Superblock

end Xv6.Fs
