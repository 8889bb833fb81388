import Xv6.Fs.Calls

/-!
# Open files, descriptors and processes

The file table of `kernel/file.c`, and `open` of `kernel/sysfile.c`.  A process is its current directory
and its descriptors.  Pipes are in the file table, but what is in them does not matter here.
-/

namespace Xv6.Fs

open Bytes Program

/-! ## The tables -/

/-- `enum { FD_NONE, FD_PIPE, FD_INODE, FD_DEVICE }` -/
inductive FileType where
  | none
  | pipe
  | inode
  | device
  deriving DecidableEq

/-- `struct file`, without the pipe. -/
structure File where
  type : FileType
  ref : ℕ
  readable : Bool
  writable : Bool
  ip : ℕ
  /-- A `uint`. -/
  off : ℕ
  major : UInt16
  deriving DecidableEq

/-- The entry of the file table that `fileinit` leaves. -/
def File.free : File := ⟨.none, 0, false, false, 0, 0, 0⟩

/-- `struct proc` -/
structure Proc where
  cwd : ℕ
  ofile : Fin NOFILE → Option (Fin NFILE)

structure Sys where
  fs : State
  file : Fin NFILE → File
  proc : Fin NPROC → Option Proc

namespace Sys

def setFile (s : Sys) (f : Fin NFILE) (x : File) : Sys := { s with file := Function.update s.file f x }

def setProc (s : Sys) (p : Fin NPROC) (x : Option Proc) : Sys :=
  { s with proc := Function.update s.proc p x }

/-- What `p->ofile[fd]` points to. -/
def ofile (s : Sys) (p : Fin NPROC) (fd : Fin NOFILE) : Option (Fin NFILE) :=
  (s.proc p).bind fun x => x.ofile fd

/-- `p->ofile[fd] = f` -/
def setFd (s : Sys) (p : Fin NPROC) (fd : Fin NOFILE) (f : Option (Fin NFILE)) : Sys :=
  s.setProc p ((s.proc p).map fun x => { x with ofile := Function.update x.ofile fd f })

end Sys

/-- Programs with files and processes. -/
abbrev SysM := Prog Panic Sys

/-- A program of the file system. -/
def onFs {α : Type} (x : FsM α) : SysM α := zoom Sys.fs (fun s t => { s with fs := t }) x

section Superblock

variable (sb : Superblock)

/-! ## `kernel/file.c` -/

/-- Allocate a file structure. -/
def filealloc : SysM (Option (Fin NFILE)) := do
  let s ← get
  match (List.finRange NFILE).find? fun f => (s.file f).ref = 0 with
  | none => return none
  | some f =>
    set (s.setFile f { s.file f with ref := 1 })
    return some f

/-- What is done when the last reference to a file has gone. -/
def fileput (ff : File) : SysM Unit :=
  if ff.type = .inode ∨ ff.type = .device then onFs (iput sb ff.ip) else pure ()

/-- Close a file. -/
def fileclose (f : Fin NFILE) : SysM Unit := do
  let s ← get
  if (s.file f).ref < 1 then panic .fileclose
  else if 1 < (s.file f).ref then set (s.setFile f { s.file f with ref := (s.file f).ref - 1 })
  else
    set (s.setFile f { s.file f with ref := 0, type := .none })
    fileput sb (s.file f)

/-! ## Descriptors -/

/-- Allocate a file descriptor. -/
def fdalloc (p : Fin NPROC) (f : Fin NFILE) : SysM (Option (Fin NOFILE)) := do
  let s ← get
  match (List.finRange NOFILE).find? fun fd => (s.ofile p fd).isNone with
  | none => return none
  | some fd =>
    set (s.setFd p fd (some f))
    return some fd

/-! ## `sys_open` -/

/-- The inode that `sys_open` opens, which is locked. -/
def openInode (cwd : ℕ) (path : List UInt8) (omode : UInt32) : FsM (Option ℕ) :=
  if omode &&& .ofNat O_CREATE ≠ 0 then create sb cwd path (.ofNat T_FILE) 0 0
  else do
    match ← namei sb cwd path with
    | none => return none
    | some ip =>
      ilock sb ip
      let d ← getInode ip
      if d.type = .ofNat T_DIR ∧ omode ≠ .ofNat O_RDONLY then
        iunlockput sb ip
        return none
      else return some ip

/-- `filealloc` and `fdalloc`. -/
def openFile (p : Fin NPROC) : SysM (Option (Fin NFILE × Fin NOFILE)) := do
  match ← filealloc with
  | none => return none
  | some f =>
    match ← fdalloc p f with
    | none =>
      fileclose sb f
      return none
    | some fd => return some (f, fd)

/-- The fields that `sys_open` sets in a file. -/
def File.opened (x : File) (ip : ℕ) (d : Dinode) (omode : UInt32) : File :=
  { x with
    type := if d.type = .ofNat T_DEVICE then .device else .inode
    major := if d.type = .ofNat T_DEVICE then d.major else x.major
    off := if d.type = .ofNat T_DEVICE then x.off else 0
    ip := ip
    readable := omode &&& .ofNat O_WRONLY = 0
    writable := omode &&& .ofNat O_WRONLY ≠ 0 ∨ omode &&& .ofNat O_RDWR ≠ 0 }

/-- Truncate a file that is opened with `O_TRUNC`. -/
def openTrunc (ip : ℕ) (d : Dinode) (omode : UInt32) : FsM Unit :=
  if omode &&& .ofNat O_TRUNC ≠ 0 ∧ d.type = .ofNat T_FILE then itrunc sb ip else pure ()

/-- `sys_open` after the inode has been found and locked. -/
def openAs (p : Fin NPROC) (ip : ℕ) (d : Dinode) (omode : UInt32) : SysM ℤ := do
  match ← openFile sb p with
  | none =>
    onFs (iunlockput sb ip)
    return -1
  | some (f, fd) =>
    modify fun s => s.setFile f ((s.file f).opened ip d omode)
    onFs (openTrunc sb ip d omode)
    onFs (iunlock ip)
    return fd

/-- A device number that is out of range, as a `short`. -/
def badMajor (d : Dinode) : Bool := 32768 ≤ d.major || .ofNat NDEV ≤ d.major

/-- A call is made by a process that is there. -/
def withProc (p : Fin NPROC) (f : Proc → SysM ℤ) : SysM ℤ := do
  let s ← get
  match s.proc p with
  | none => return -1
  | some x => f x

def sysOpen (p : Fin NPROC) (path : Option (List UInt8)) (omode : UInt32) : SysM ℤ :=
  withProc p fun x =>
    match path with
    | none => return -1
    | some path => do
      match ← onFs (openInode sb x.cwd path omode) with
      | none => return -1
      | some ip =>
        let d ← onFs (getInode ip)
        if d.type = .ofNat T_DEVICE ∧ badMajor d then
          onFs (iunlockput sb ip)
          return -1
        else openAs sb p ip d omode

end Superblock

end Xv6.Fs
