import Xv6.Lib.Transition
import Xv6.Param

/-!
# The logging protocol

`begin_op`, `log_write`, `end_op` and `commit` of `kernel/log.c`, as the steps of any number of
processes.  A step is one section under `log.lock`, or one block of the `commit` that runs without
the lock.  `sleep(&log, &log.lock)` gives up the lock and goes to sleep in the section that calls
it, and `wakeup(&log)` makes every sleeper test again.  A process may also be woken by `kkill`
(`Act.kkill`); it then tests again too.

The in-memory header `log.lh` is the list of its block numbers; `log.lh.n` is the list's length.

Three components of the state are bookkeeping that the kernel does not have: every operation has a
number, `pending` collects which operation has logged which block since the last commit, and
`committed` the transactions whose header has been written, the latest first.
-/

namespace Xv6
namespace Log

open Transition

/-- Where the process that runs `commit()` is. -/
inductive CommitPc where
  | start
  /-- `write_log` has copied the first `tail` blocks to the log. -/
  | writeLog (tail : ℕ)
  /-- The next write is the header: the real commit. -/
  | writeHead
  /-- `install_trans` has copied the first `tail` blocks home. -/
  | install (tail : ℕ)
  /-- `log.lh.n = 0` comes next. -/
  | clear
  /-- The header is about to be erased on disk. -/
  | eraseHead
  /-- `commit` has returned to `end_op`. -/
  | done
  deriving DecidableEq

/-- Where a process is. -/
inductive Phase where
  | idle
  /-- `SLEEPING` on `&log` in `begin_op`. -/
  | asleep
  /-- Woken in `begin_op`, about to test again. -/
  | retry
  /-- Between `begin_op` and `end_op` of operation `op`. -/
  | inOp (op : ℕ)
  /-- In `end_op` with `do_commit == 1`. -/
  | commit (pc : CommitPc)
  deriving DecidableEq

/-- A logged block: the number of the operation, and the block number. -/
structure Write where
  op : ℕ
  block : ℕ
  deriving DecidableEq

/-- A committed transaction: the blocks of its header, and the writes it is made of. -/
structure Txn where
  blocks : List ℕ
  writes : List Write
  deriving DecidableEq

/-- `struct log`, where every process is, and the bookkeeping. -/
structure State (P : Type*) where
  outstanding : ℤ
  committing : Bool
  lh : List ℕ
  phase : P → Phase
  nextOp : ℕ
  pending : List Write
  committed : List Txn

/-- The panics of the protocol. -/
inductive Panic where
  | logCommitting
  | tooBigATransaction
  | logWriteOutsideOfTrans
  deriving DecidableEq

/-- The steps of the processes. -/
inductive Act (P : Type*) where
  | beginOp (p : P)
  | kkill (p : P)
  | logWrite (p : P) (blockno : ℕ)
  | endOp (p : P)
  | commit (p : P)
  | endCommit (p : P)
  deriving DecidableEq

variable {P : Type*} [DecidableEq P]

namespace State

/-- Move one process. -/
def setPhase (s : State P) (p : P) (ph : Phase) : State P :=
  { s with phase := Function.update s.phase p ph }

/-- `wakeup(&log)`. -/
def wakeup (s : State P) : State P :=
  { s with phase := fun p => if s.phase p = .asleep then .retry else s.phase p }

/-- The admission test of `begin_op`: there is room for one more operation. -/
def admits (s : State P) : Prop :=
  ¬ ((s.lh.length : ℤ) + (s.outstanding + 1) * MAXOPBLOCKS > LOGBLOCKS)

instance (s : State P) : Decidable s.admits := inferInstanceAs (Decidable (¬ _))

/-- Admit process `p`: `log.outstanding += 1`. -/
def enter (s : State P) (p : P) : State P :=
  { s with
    outstanding := s.outstanding + 1
    phase := Function.update s.phase p (.inOp s.nextOp)
    nextOp := s.nextOp + 1 }

/-- Record block `blockno` in the header, unless it is there already. -/
def record (s : State P) (op blockno : ℕ) : State P :=
  { s with
    lh := if blockno ∈ s.lh then s.lh else s.lh ++ [blockno]
    pending := ⟨op, blockno⟩ :: s.pending }

/-- The header goes to disk. -/
def writeHead (s : State P) : State P :=
  { s with
    committed := ⟨s.lh, s.pending⟩ :: s.committed
    pending := [] }

end State

/-! ## The sections -/

/-- One turn of the loop of `begin_op`. -/
def stepBeginOp (s : State P) (p : P) : Outcome Panic (State P) :=
  if s.phase p = .idle ∨ s.phase p = .retry then
    if s.committing then .next (s.setPhase p .asleep)
    else if ¬ s.admits then .next (s.setPhase p .asleep)
    else .next (s.enter p)
  else .blocked

/-- `kkill` makes a sleeper `RUNNABLE`. -/
def stepKkill (s : State P) (p : P) : Outcome Panic (State P) :=
  if s.phase p = .asleep then .next (s.setPhase p .retry) else .blocked

/-- `log_write`: both panics come before the search for the block in the header. -/
def stepLogWrite (s : State P) (p : P) (blockno : ℕ) : Outcome Panic (State P) :=
  match s.phase p with
  | .inOp op =>
    if s.lh.length ≥ LOGBLOCKS then .panic .tooBigATransaction
    else if s.outstanding < 1 then .panic .logWriteOutsideOfTrans
    else .next (s.record op blockno)
  | _ => .blocked

/-- `end_op` up to the release of `log.lock`. -/
def stepEndOp (s : State P) (p : P) : Outcome Panic (State P) :=
  match s.phase p with
  | .inOp _ =>
    let s' : State P := { s with outstanding := s.outstanding - 1 }
    if s.committing then .panic .logCommitting
    else if s'.outstanding = 0 then
      .next (({ s' with committing := true } : State P).setPhase p (.commit .start))
    else .next (s'.wakeup.setPhase p .idle)
  | _ => .blocked

/-- The next block of `commit()`. -/
def stepCommit (s : State P) (p : P) : Outcome Panic (State P) :=
  match s.phase p with
  | .commit .start =>
    if s.lh.length > 0 then .next (s.setPhase p (.commit (.writeLog 0)))
    else .next (s.setPhase p (.commit .done))
  | .commit (.writeLog tail) =>
    if tail < s.lh.length then .next (s.setPhase p (.commit (.writeLog (tail + 1))))
    else .next (s.setPhase p (.commit .writeHead))
  | .commit .writeHead => .next (s.writeHead.setPhase p (.commit (.install 0)))
  | .commit (.install tail) =>
    if tail < s.lh.length then .next (s.setPhase p (.commit (.install (tail + 1))))
    else .next (s.setPhase p (.commit .clear))
  | .commit .clear => .next (({ s with lh := [] } : State P).setPhase p (.commit .eraseHead))
  | .commit .eraseHead => .next (s.setPhase p (.commit .done))
  | _ => .blocked

/-- The end of `end_op`, when `commit()` has returned. -/
def stepEndCommit (s : State P) (p : P) : Outcome Panic (State P) :=
  match s.phase p with
  | .commit .done => .next (({ s with committing := false } : State P).wakeup.setPhase p .idle)
  | _ => .blocked

/-- A step of the protocol. -/
def step (s : State P) : Act P → Outcome Panic (State P)
  | .beginOp p => stepBeginOp s p
  | .kkill p => stepKkill s p
  | .logWrite p blockno => stepLogWrite s p blockno
  | .endOp p => stepEndOp s p
  | .commit p => stepCommit s p
  | .endCommit p => stepEndCommit s p

/-- The step relation. -/
abbrev Steps : State P → Act P → State P → Prop := ofStep fun s a => (step s a).next?

/-! ## What a step can do -/

namespace State

@[simp] theorem setPhase_phase (s : State P) (p q : P) (ph : Phase) :
    (s.setPhase p ph).phase q = if q = p then ph else s.phase q :=
  Function.update_apply ..

@[simp] theorem enter_phase (s : State P) (p q : P) :
    (s.enter p).phase q = if q = p then .inOp s.nextOp else s.phase q :=
  Function.update_apply ..

omit [DecidableEq P] in
@[simp] theorem wakeup_phase (s : State P) (q : P) :
    s.wakeup.phase q = if s.phase q = .asleep then .retry else s.phase q := rfl

end State

/-- The commit pcs between which only the disk changes. -/
inductive Advance (s : State P) : CommitPc → CommitPc → Prop
  | start : 0 < s.lh.length → Advance s .start (.writeLog 0)
  | empty : s.lh = [] → Advance s .start .done
  | log (tail : ℕ) : tail < s.lh.length → Advance s (.writeLog tail) (.writeLog (tail + 1))
  | logged (tail : ℕ) : Advance s (.writeLog tail) .writeHead
  | home (tail : ℕ) : tail < s.lh.length → Advance s (.install tail) (.install (tail + 1))
  | installed (tail : ℕ) : Advance s (.install tail) .clear
  | erase : Advance s .eraseHead .done

/-- Everything a step can do to the state. -/
inductive Move (s : State P) : Act P → State P → Prop
  | sleep (p : P) : s.phase p = .idle ∨ s.phase p = .retry → s.committing = true ∨ ¬ s.admits →
      Move s (.beginOp p) (s.setPhase p .asleep)
  | enter (p : P) : s.phase p = .idle ∨ s.phase p = .retry → s.committing = false → s.admits →
      Move s (.beginOp p) (s.enter p)
  | kkill (p : P) : s.phase p = .asleep → Move s (.kkill p) (s.setPhase p .retry)
  | logWrite (p : P) (op blockno : ℕ) : s.phase p = .inOp op → s.lh.length < LOGBLOCKS →
      Move s (.logWrite p blockno) (s.record op blockno)
  | endLast (p : P) (op : ℕ) : s.phase p = .inOp op → s.committing = false → s.outstanding = 1 →
      Move s (.endOp p)
        ({ s with outstanding := 0, committing := true }.setPhase p (.commit .start))
  | endOther (p : P) (op : ℕ) : s.phase p = .inOp op → s.committing = false →
      s.outstanding ≠ 1 →
      Move s (.endOp p) ({ s with outstanding := s.outstanding - 1 }.wakeup.setPhase p .idle)
  | advance (p : P) (pc pc' : CommitPc) : s.phase p = .commit pc → Advance s pc pc' →
      Move s (.commit p) (s.setPhase p (.commit pc'))
  | writeHead (p : P) : s.phase p = .commit .writeHead →
      Move s (.commit p) (s.writeHead.setPhase p (.commit (.install 0)))
  | clear (p : P) : s.phase p = .commit .clear →
      Move s (.commit p) ({ s with lh := [] }.setPhase p (.commit .eraseHead))
  | endCommit (p : P) : s.phase p = .commit .done →
      Move s (.endCommit p) ({ s with committing := false }.wakeup.setPhase p .idle)

variable {s s' : State P}

theorem move_beginOp {p : P} (h : stepBeginOp s p = .next s') : Move s (.beginOp p) s' := by
  rw [stepBeginOp] at h
  split at h
  · rename_i hp
    split at h
    · rename_i hc
      rw [← Outcome.next.inj h]
      exact .sleep p hp (Or.inl hc)
    · rename_i hc
      split at h
      · rename_i ha
        rw [← Outcome.next.inj h]
        exact .sleep p hp (Or.inr ha)
      · rename_i ha
        rw [← Outcome.next.inj h]
        exact .enter p hp (by simpa using hc) (not_not.mp ha)
  · exact absurd h (by simp)

theorem move_kkill {p : P} (h : stepKkill s p = .next s') : Move s (.kkill p) s' := by
  rw [stepKkill] at h
  split at h
  · rename_i hp
    rw [← Outcome.next.inj h]
    exact .kkill p hp
  · exact absurd h (by simp)

theorem move_logWrite {p : P} {blockno : ℕ} (h : stepLogWrite s p blockno = .next s') :
    Move s (.logWrite p blockno) s' := by
  rw [stepLogWrite] at h
  split at h
  · rename_i op hp
    split at h
    · exact absurd h (by simp)
    · rename_i hlen
      split at h
      · exact absurd h (by simp)
      · rw [← Outcome.next.inj h]
        exact .logWrite p op blockno hp (by omega)
  · exact absurd h (by simp)

theorem move_endOp {p : P} (h : stepEndOp s p = .next s') : Move s (.endOp p) s' := by
  rw [stepEndOp] at h
  split at h
  · rename_i op hp
    dsimp only at h
    split at h
    · exact absurd h (by simp)
    · rename_i hc
      split at h
      · rename_i h0
        rw [← Outcome.next.inj h, h0]
        exact .endLast p op hp (by simpa using hc) (by omega)
      · rename_i h0
        rw [← Outcome.next.inj h]
        exact .endOther p op hp (by simpa using hc) (by omega)
  · exact absurd h (by simp)

theorem move_commit {p : P} (h : stepCommit s p = .next s') : Move s (.commit p) s' := by
  rw [stepCommit] at h
  split at h
  · rename_i hp
    split at h
    · rename_i hn
      rw [← Outcome.next.inj h]
      exact .advance p _ _ hp (.start hn)
    · rename_i hn
      rw [← Outcome.next.inj h]
      exact .advance p _ _ hp (.empty (List.length_eq_zero_iff.mp (by omega)))
  · rename_i tail hp
    split at h
    · rename_i hn
      rw [← Outcome.next.inj h]
      exact .advance p _ _ hp (.log tail hn)
    · rw [← Outcome.next.inj h]
      exact .advance p _ _ hp (.logged tail)
  · rename_i hp
    rw [← Outcome.next.inj h]
    exact .writeHead p hp
  · rename_i tail hp
    split at h
    · rename_i hn
      rw [← Outcome.next.inj h]
      exact .advance p _ _ hp (.home tail hn)
    · rw [← Outcome.next.inj h]
      exact .advance p _ _ hp (.installed tail)
  · rename_i hp
    rw [← Outcome.next.inj h]
    exact .clear p hp
  · rename_i hp
    rw [← Outcome.next.inj h]
    exact .advance p _ _ hp .erase
  · exact absurd h (by simp)

theorem move_endCommit {p : P} (h : stepEndCommit s p = .next s') : Move s (.endCommit p) s' := by
  rw [stepEndCommit] at h
  split at h
  · rename_i hp
    rw [← Outcome.next.inj h]
    exact .endCommit p hp
  · exact absurd h (by simp)

/-- **Every step is one of the moves.** -/
theorem move_of_step {a : Act P} (h : Steps s a s') : Move s a s' := by
  have h' : step s a = .next s' := Outcome.next?_eq_some h
  cases a with
  | beginOp p => exact move_beginOp h'
  | kkill p => exact move_kkill h'
  | logWrite p blockno => exact move_logWrite h'
  | endOp p => exact move_endOp h'
  | commit p => exact move_commit h'
  | endCommit p => exact move_endCommit h'

/-- After `initlog`: an empty log and no operation. -/
def init : State P where
  outstanding := 0
  committing := false
  lh := []
  phase := fun _ => .idle
  nextOp := 0
  pending := []
  committed := []

end Log
end Xv6
