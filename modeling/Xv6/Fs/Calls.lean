import Xv6.Fs.Dir

/-!
# The calls that change names

`sys_link`, `sys_unlink`, `create`, `sys_mkdir` and `sys_mknod` of `kernel/sysfile.c`, by a process whose
current directory is `cwd`.  A path argument that `argstr` cannot fetch is `none`.  The transaction that a
call runs in is not in the model, since it has no effect on what the call does, and there is one device.
-/

namespace Xv6.Fs

open Bytes Program

section Superblock

variable (sb : Superblock) (cwd : ℕ)

/-- `ip->nlink++; iupdate(ip)` and the like. -/
def setNlink (ip : ℕ) (f : UInt16 → UInt16) : FsM Unit := do
  modifyInode ip fun d => { d with nlink := f d.nlink }
  iupdate sb ip

/-- What is done for directories only. -/
def whenDir (type : UInt16) (x : FsM Unit) : FsM Unit := if type = .ofNat T_DIR then x else pure ()

/-! ## `sys_link` -/

/-- `bad:` in `sys_link`. -/
def linkBad (ip : ℕ) : FsM ℤ := do
  ilock sb ip
  setNlink sb ip (· - 1)
  iunlockput sb ip
  return -1

/-- `sys_link` after the count has been raised. -/
def linkEnter (ip : ℕ) (new : List UInt8) : FsM ℤ := do
  match ← nameiparent sb cwd new noName with
  | none => linkBad sb ip
  | some (dp, name) =>
    ilock sb dp
    let r ← dirlink sb dp name ip
    if r < 0 then
      iunlockput sb dp
      linkBad sb ip
    else
      iunlockput sb dp
      iput sb ip
      return 0

/-- Create the path `new` as a link to the same inode as `old`. -/
def sysLink (old new : Option (List UInt8)) : FsM ℤ :=
  match old, new with
  | some old, some new => do
    match ← namei sb cwd old with
    | none => return -1
    | some ip =>
      ilock sb ip
      let d ← getInode ip
      if d.type = .ofNat T_DIR then
        iunlockput sb ip
        return -1
      else
        setNlink sb ip (· + 1)
        iunlock ip
        linkEnter sb cwd ip new
  | _, _ => return -1

/-! ## `sys_unlink` -/

/-- `bad:` in `sys_unlink`. -/
def unlinkBad (dp : ℕ) : FsM ℤ := do
  iunlockput sb dp
  return -1

/-- `sys_unlink` after the checks: the entry at `off` of `dp`, which is for `ip`, is emptied. -/
def unlinkEntry (dp ip off : ℕ) : FsM ℤ := do
  let r ← writei sb dp (kernelSource (List.replicate 16 0)) 0 off 16
  if r ≠ 16 then panic .unlinkWritei
  else
    let d ← getInode ip
    whenDir d.type (setNlink sb dp (· - 1))
    iunlockput sb dp
    setNlink sb ip (· - 1)
    iunlockput sb ip
    return 0

/-- Whether an inode may be removed: directories must be empty. -/
def removable (ip : ℕ) (type : UInt16) : FsM Bool :=
  if type = .ofNat T_DIR then isdirempty sb ip else return true

/-- A `short` that is less than 1. -/
def lessThanOne (n : UInt16) : Bool := n = 0 || 32768 ≤ n

def sysUnlink (path : Option (List UInt8)) : FsM ℤ :=
  match path with
  | none => return -1
  | some path => do
    match ← nameiparent sb cwd path noName with
    | none => return -1
    | some (dp, name) =>
      ilock sb dp
      -- cannot unlink "." or ".."
      if namecmp name dot = 0 ∨ namecmp name dotdot = 0 then unlinkBad sb dp
      else
        match ← dirlookup sb dp name with
        | none => unlinkBad sb dp
        | some (ip, off) =>
          ilock sb ip
          let d ← getInode ip
          if lessThanOne d.nlink then panic .unlinkNlink
          else
            let empty ← removable sb ip d.type
            if !empty then
              iunlockput sb ip
              unlinkBad sb dp
            else unlinkEntry sb dp ip off

/-! ## `create` -/

/-- `fail:` in `create`. -/
def createFail (ip dp : ℕ) : FsM (Option ℕ) := do
  setNlink sb ip fun _ => 0
  iunlockput sb ip
  iunlockput sb dp
  return none

/-- The entries `"."` and `".."` of a new directory: whether there was room for both. -/
def createDots (ip dp : ℕ) (type : UInt16) : FsM Bool :=
  if type = .ofNat T_DIR then do
    let r ← dirlink sb ip dot ip
    if r < 0 then return false
    else
      let r ← dirlink sb ip dotdot dp
      return decide (0 ≤ r)
  else return true

/-- `create` after a new inode has been taken, and locked. -/
def createEnter (ip dp : ℕ) (name : Mem) (type : UInt16) : FsM (Option ℕ) := do
  let dots ← createDots sb ip dp type
  if !dots then createFail sb ip dp
  else
    let r ← dirlink sb dp name ip
    if r < 0 then createFail sb ip dp
    else
      -- now that success is guaranteed, for ".."
      whenDir type (setNlink sb dp (· + 1))
      iunlockput sb dp
      return some ip

/-- Create a file of a type, or find one: the inode, which is locked. -/
def create (path : List UInt8) (type major minor : UInt16) : FsM (Option ℕ) := do
  match ← nameiparent sb cwd path noName with
  | none => return none
  | some (dp, name) =>
    ilock sb dp
    match ← dirlookup sb dp name with
    | some (ip, _) =>
      iunlockput sb dp
      ilock sb ip
      let d ← getInode ip
      if type = .ofNat T_FILE ∧ (d.type = .ofNat T_FILE ∨ d.type = .ofNat T_DEVICE) then return some ip
      else
        iunlockput sb ip
        return none
    | none =>
      match ← ialloc sb type with
      | none =>
        iunlockput sb dp
        return none
      | some ip =>
        ilock sb ip
        modifyInode ip fun d => { d with major := major, minor := minor, nlink := 1 }
        iupdate sb ip
        createEnter sb ip dp name type

/-- `create` and `iunlockput`. -/
def sysMake (path : Option (List UInt8)) (type major minor : UInt16) : FsM ℤ :=
  match path with
  | none => return -1
  | some path => do
    match ← create sb cwd path type major minor with
    | none => return -1
    | some ip =>
      iunlockput sb ip
      return 0

def sysMkdir (path : Option (List UInt8)) : FsM ℤ := sysMake sb cwd path (.ofNat T_DIR) 0 0

def sysMknod (path : Option (List UInt8)) (major minor : UInt16) : FsM ℤ :=
  sysMake sb cwd path (.ofNat T_DEVICE) major minor

end Superblock

end Xv6.Fs
