import Xv6.Fs.Sys

/-!
# Reading open files

`fileread` of `kernel/file.c`.  A read from a pipe or from the console is modelled with what comes to it
while it runs (`Arrivals`), since both wait for others; what is stored in user memory is the list of bytes
from the address on.
-/

namespace Xv6.Fs

open Bytes Program

/-! ## Pipes and the console -/

/-- What comes to a `read` that waits for others. -/
structure Arrivals where
  /-- What is in the pipe when the wait is over; `none` if the process has been killed. -/
  pipe : Option (List UInt8)
  /-- The characters of the console, until the process is killed. -/
  console : List UInt8

/-- The copy loop of `piperead`, from `i` on: where it ends, and the bytes that are stored. -/
def pipeCopy (dst : ℕ → Bool) (a : ℕ) (n : ℤ) : ℕ → List UInt8 → ℤ × List UInt8
  | i, [] => (i, [])
  | i, c :: cs =>
    if i < n then
      if dst (a + i) then
        let (r, bs) := pipeCopy dst a n (i + 1) cs
        (r, c :: bs)
      else (if i = 0 then -1 else i, [])
    else (i, [])

def piperead (pipe : Option (List UInt8)) (dst : ℕ → Bool) (a : ℕ) (n : ℤ) : ℤ × List UInt8 :=
  match pipe with
  | none => (-1, [])
  | some cs => pipeCopy dst a n 0 cs

/-- The loop of `consoleread`, with `n` bytes to go: how many are left, or `none` if the process has been
killed, and the bytes that are stored. -/
def consoleCopy (dst : ℕ → Bool) : ℕ → ℤ → List UInt8 → Option ℤ × List UInt8
  | _, n, [] => if n > 0 then (none, []) else (some n, [])
  | a, n, c :: cs =>
    if n > 0 then
      -- control-D is the end of the file
      if c = 4 then (some n, [])
      else if dst a then
        if c = 10 then (some (n - 1), [c])
        else
          let (r, bs) := consoleCopy dst (a + 1) (n - 1) cs
          (r, c :: bs)
      else (some n, [])
    else (some n, [])

def consoleread (input : List UInt8) (dst : ℕ → Bool) (a : ℕ) (n : ℤ) : ℤ × List UInt8 :=
  let (left, bs) := consoleCopy dst a n input
  (match left with
    | none => -1
    | some m => n - m, bs)

/-- The major number of the console. -/
abbrev CONSOLE : ℕ := 1

section Superblock

variable (sb : Superblock)

/-! ## Reading -/

/-- `f->off += r`, if `r` is positive. -/
def advance (f : Fin NFILE) (r : ℤ) : SysM Unit :=
  if r > 0 then
    modify fun s => s.setFile f { s.file f with off := ((s.file f).off + r.toNat) % UINT }
  else pure ()

/-- An `int` that is passed as a `uint`. -/
def toUint (n : ℤ) : ℕ := (n % 2 ^ 32).toNat

/-- Read from a file of an inode. -/
def readInode (f : Fin NFILE) (dst : ℕ → Bool) (a : ℕ) (n : ℤ) : SysM (ℤ × List UInt8) := do
  let s ← get
  onFs (ilock sb (s.file f).ip)
  let (r, bs) ← onFs (readi sb (s.file f).ip dst a (s.file f).off (toUint n))
  advance f r
  onFs (iunlock (s.file f).ip)
  return (r, bs)

/-- Read from a file: the result, and the bytes that are stored from `a` on. -/
def fileread (f : Fin NFILE) (arrivals : Arrivals) (dst : ℕ → Bool) (a : ℕ) (n : ℤ) :
    SysM (ℤ × List UInt8) := do
  let s ← get
  if !(s.file f).readable then return (-1, [])
  else
    match (s.file f).type with
    | .pipe => return piperead arrivals.pipe dst a n
    | .device =>
      -- the console is the only device
      if (s.file f).major ≠ .ofNat CONSOLE then return (-1, [])
      else return consoleread arrivals.console dst a n
    | .inode => readInode sb f dst a n
    | .none => panic .fileread

end Superblock

end Xv6.Fs
