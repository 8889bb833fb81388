import Xv6.Lib.AtomicWrites
import Xv6.Lib.Bytes
import Xv6.Lib.Loop
import Xv6.Param

/-!
# The log on disk

`write_log`, `write_head`, `install_trans`, `commit`, `read_head` and `recover_from_log` of
`kernel/log.c`, as functions on a machine: the disk with the writes made to it, the buffer cache
and the in-memory header.

The cache is the function `buf` that gives what `bread` returns: the cached copy of a block if
there is one, and the disk's block otherwise.  A buffer that differs from the disk is pinned until
it has been installed, so the cache may drop and read again the others without changing `buf`.
`bwrite` makes buffer and disk agree.  When the machine stops, everything but the disk is lost
(`boot`).

A block is its bytes; the header block holds `n` and `block[]` as little-endian 32-bit integers.
-/

namespace Xv6
namespace Log

open AtomicWrites Bytes

/-- The bytes of a block. -/
abbrev Block := Mem

/-- The contents of a disk. -/
abbrev Disk := ℕ → Block

/-- `struct logheader`. -/
structure LogHeader where
  n : ℤ
  block : ℕ → ℕ

/-- The disk, what `bread` returns, `log.start` and `log.lh`. -/
structure Machine where
  dev : Device ℕ Block
  buf : Disk
  start : ℕ
  lh : LogHeader

namespace Machine

/-- `bread`, a `memmove` of all of `data` into the buffer, and `bwrite`. -/
def bwrite (m : Machine) (blockno : ℕ) (data : Block) : Machine :=
  { m with
    dev := m.dev.write blockno data
    buf := Function.update m.buf blockno data }

theorem bwrite_disk (m : Machine) (blockno : ℕ) (data : Block) :
    (m.bwrite blockno data).dev.disk = Function.update m.dev.disk blockno data := rfl

/-- Copy committed blocks from the log to their home location. -/
def installTrans (m : Machine) : Machine :=
  (List.range m.lh.n.toNat).foldl
    (fun m tail => m.bwrite (m.lh.block tail) (m.buf (m.start + tail + 1))) m

theorem installTrans_start (m : Machine) : m.installTrans.start = m.start := by
  refine Loop.foldl_range (I := fun _ (m' : Machine) => m'.start = m.start) rfl ?_
  intro _ _ _ ih
  exact ih

/-- `lh->n` of a header block. -/
def headN (hb : Block) : ℤ := cInt (load 4 hb 0)

/-- `lh->block[i]` of a header block. -/
def headBlock (hb : Block) (i : ℕ) : ℕ := load 4 hb (4 + 4 * i)

/-- Read the log header from disk into the in-memory log header. -/
def readHead (m : Machine) : Machine :=
  let hb := m.buf m.start
  { m with
    lh :=
      { n := headN hb
        block := fun i => if i < (headN hb).toNat then headBlock hb i else m.lh.block i } }

theorem readHead_start (m : Machine) : m.readHead.start = m.start := rfl

/-- The header block after `write_head` has filled it in; what it held beyond `block[n]` stays. -/
def encodeHead (lh : LogHeader) (hb : Block) : Block :=
  (List.range lh.n.toNat).foldl (fun hb i => store 4 hb (4 + 4 * i) (lh.block i))
    (store 4 hb 0 (lh.n % 2 ^ 32).toNat)

/-- Write the in-memory log header to disk. -/
def writeHead (m : Machine) : Machine :=
  m.bwrite m.start (encodeHead m.lh (m.buf m.start))

theorem writeHead_start (m : Machine) : m.writeHead.start = m.start := rfl

theorem writeHead_head (m : Machine) :
    m.writeHead.dev.disk m.start = encodeHead m.lh (m.buf m.start) :=
  Function.update_self ..

/-- `log.lh.n = 0`. -/
def clear (m : Machine) : Machine := { m with lh := { m.lh with n := 0 } }

theorem clear_start (m : Machine) : m.clear.start = m.start := rfl

/-- `recover_from_log`. -/
def recoverFromLog (m : Machine) : Machine := m.readHead.installTrans.clear.writeHead

theorem recoverFromLog_start (m : Machine) : m.recoverFromLog.start = m.start := by
  rw [recoverFromLog, writeHead_start, clear_start, installTrans_start, readHead_start]

/-- Copy modified blocks from the cache to the log. -/
def writeLog (m : Machine) : Machine :=
  (List.range m.lh.n.toNat).foldl
    (fun m tail => m.bwrite (m.start + tail + 1) (m.buf (m.lh.block tail))) m

theorem writeLog_start (m : Machine) : m.writeLog.start = m.start := by
  refine Loop.foldl_range (I := fun _ (m' : Machine) => m'.start = m.start) rfl ?_
  intro _ _ _ ih
  exact ih

/-- `commit`. -/
def commit (m : Machine) : Machine :=
  if m.lh.n > 0 then m.writeLog.writeHead.installTrans.clear.writeHead else m

theorem commit_start (m : Machine) : m.commit.start = m.start := by
  rw [commit]
  split
  · exact (installTrans_start _).trans (writeLog_start m)
  · rfl

/-- The index at which `log_write` stops: that of `blockno` in the header, or `n`. -/
def logIndex (lh : LogHeader) (blockno : ℕ) : ℕ :=
  ((List.range lh.n.toNat).find? fun i => lh.block i = blockno).getD lh.n.toNat

/-- The caller has put `data` into the buffer of block `blockno`, and calls `log_write`. -/
def logWrite (m : Machine) (blockno : ℕ) (data : Block) : Machine :=
  let i := logIndex m.lh blockno
  { m with
    buf := Function.update m.buf blockno data
    lh :=
      { n := if i = m.lh.n.toNat then m.lh.n + 1 else m.lh.n
        block := Function.update m.lh.block i blockno } }

/-- The machine is turned on, with the log at block `start` of disk `d`. -/
def boot (start : ℕ) (d : Disk) : Machine where
  dev := ⟨d, []⟩
  buf := d
  start := start
  lh := ⟨0, fun _ => 0⟩

/-- One transaction: its blocks are logged, and committed by the last `end_op`. -/
def transact (m : Machine) (t : List (ℕ × Block)) : Machine :=
  (t.foldl (fun m w => m.logWrite w.1 w.2) m).commit

/-- `initlog`, and one transaction after the other. -/
def life (start : ℕ) (d : Disk) (ts : List (List (ℕ × Block))) : Machine :=
  ts.foldl transact (boot start d).recoverFromLog

end Machine

end Log
end Xv6
