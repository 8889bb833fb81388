import Xv6.Param

/-!
# The process table and its lock sections

`struct proc` of `kernel/proc.h`, less the fields that belong to memory and files, and what the
functions of `kernel/proc.c` do to one slot while they hold its `p->lock`.  Each definition
below is the body of one such section, as a function on the slot; the order in which CPUs take
the sections is the business of `Xv6.Sched.Smp`.
-/

namespace Xv6
namespace Sched

/-- `enum procstate`. -/
inductive ProcState where
  | unused
  | used
  | sleeping
  | runnable
  | running
  | zombie
  deriving DecidableEq

/-- A slot of the process table `proc[NPROC]`. -/
abbrev Slot : Type := Fin NPROC

/-- `struct proc`: the fields the scheduler, `fork`, `exit`, `wait`, `sleep` and `kill` use.
A channel is an address, `0` when the process is not asleep. -/
structure Proc where
  state : ProcState
  chan : ℕ
  killed : Bool
  xstate : ℤ
  pid : ℤ
  parent : Option Slot
  priority : ℤ
  timerTicksUsed : ℤ
  waitTimerTicks : ℤ
  maxTimeSlice : ℤ
  queueLevel : ℤ
  voluntarilyYielded : Bool
  deriving DecidableEq

/-- The process table. -/
abbrev Table : Type := Slot → Proc

/-- A slot of static, zeroed memory after `procinit`. -/
def Proc.init : Proc where
  state := .unused
  chan := 0
  killed := false
  xstate := 0
  pid := 0
  parent := none
  priority := 0
  timerTicksUsed := 0
  waitTimerTicks := 0
  maxTimeSlice := 0
  queueLevel := 0
  voluntarilyYielded := false

/-! ## The helper functions of the feedback queue -/

/-- `get_time_slice`: the number of ticks of a level. -/
def getTimeSlice (level : ℤ) : ℤ :=
  if level = 0 then TIME_SLICE_0
  else if level = 1 then TIME_SLICE_1
  else if level = 2 then TIME_SLICE_2
  else if level = 3 then TIME_SLICE_3
  else TIME_SLICE_3

@[simp] theorem getTimeSlice_zero : getTimeSlice 0 = 4 := rfl
@[simp] theorem getTimeSlice_one : getTimeSlice 1 = 8 := rfl
@[simp] theorem getTimeSlice_two : getTimeSlice 2 = 16 := rfl
@[simp] theorem getTimeSlice_three : getTimeSlice 3 = 32 := rfl

/-- `has_to_demote`. -/
def Proc.hasToDemote (p : Proc) : Bool := decide (p.maxTimeSlice ≤ p.timerTicksUsed)

/-- `has_to_promote`: the test that `scheduler` makes inline. -/
def Proc.hasToPromote (p : Proc) : Bool :=
  decide (getTimeSlice p.queueLevel * PROMO_THRESHOLD ≤ p.waitTimerTicks)

/-- Enter a level: the assignments `scheduler` makes on a promotion and on a demotion. -/
def Proc.enterLevel (p : Proc) (level : ℤ) : Proc :=
  { p with
    queueLevel := level
    priority := level
    maxTimeSlice := getTimeSlice level
    timerTicksUsed := 0
    waitTimerTicks := 0 }

/-! ## The sections of `scheduler` -/

/-- The promotion check: a `RUNNABLE` process has waited one pass more, and moves up a level
when it has waited for ten of its time slices. -/
def Proc.promote (p : Proc) : Proc :=
  if p.state = .runnable then
    let p := { p with waitTimerTicks := cInt (p.waitTimerTicks + 1) }
    if p.hasToPromote ∧ 0 < p.queueLevel then p.enterLevel (p.queueLevel - 1) else p
  else p

/-- The selection test of level `q`. -/
def Proc.eligible (p : Proc) (q : ℕ) : Bool :=
  decide (p.state = .runnable ∧ p.queueLevel = q)

/-- The dispatch: mark the chosen process `RUNNING` and `swtch` to it.  The thread it resumes
leaves `yield`, `sleep` (which clears `p->chan`) or enters `forkret`, and releases the lock. -/
def Proc.dispatch (p : Proc) : Proc :=
  { p with state := .running, voluntarilyYielded := false, chan := 0 }

/-- The demotion check after `swtch` has come back. -/
def Proc.demote (p : Proc) : Proc :=
  if !p.voluntarilyYielded ∧ p.hasToDemote ∧ p.queueLevel < (NQUEUES : ℤ) - 1 then
    p.enterLevel (p.queueLevel + 1)
  else p

/-! ## The sections that give up the CPU

Each ends in `sched()`, so the scheduler's demotion check runs before the lock is released. -/

/-- `yield`, called by `usertrap` on a timer interrupt and by nothing else. -/
def Proc.yield (p : Proc) : Proc :=
  Proc.demote { p with state := .runnable, voluntarilyYielded := true }

/-- `sleep` on `chan`. -/
def Proc.sleep (p : Proc) (chan : ℕ) : Proc :=
  Proc.demote { p with chan := chan, state := .sleeping, voluntarilyYielded := true }

/-- The last section of `kexit`. -/
def Proc.exit (p : Proc) (status : ℤ) : Proc :=
  Proc.demote { p with xstate := status, state := .zombie }

/-! ## The sections of the other calls -/

/-- `kerneltrap` on a timer interrupt: count a tick of the running process. -/
def Proc.tick (p : Proc) : Proc :=
  if p.state = .running then { p with timerTicksUsed := cInt (p.timerTicksUsed + 1) } else p

/-- `wakeup`, at one slot. -/
def Proc.wakeup (p : Proc) (chan : ℕ) : Proc :=
  if p.state = .sleeping ∧ p.chan = chan then { p with state := .runnable } else p

/-- `kkill`, at one slot. -/
def Proc.kkill (p : Proc) (pid : ℤ) : Proc :=
  if p.pid = pid then
    let p := { p with killed := true }
    if p.state = .sleeping then { p with state := .runnable } else p
  else p

/-- `allocproc` once it has found an `UNUSED` slot. -/
def Proc.allocproc (p : Proc) (pid : ℤ) : Proc :=
  { p with
    pid := pid
    state := .used
    priority := 0
    timerTicksUsed := 0
    waitTimerTicks := 0
    queueLevel := 0
    parent := none
    maxTimeSlice := TIME_SLICE_0
    voluntarilyYielded := false }

/-- `freeproc`; it leaves `max_time_slice` as it is. -/
def Proc.freeproc (p : Proc) : Proc :=
  { p with
    pid := 0
    parent := none
    chan := 0
    killed := false
    xstate := 0
    state := .unused
    priority := 0
    timerTicksUsed := 0
    waitTimerTicks := 0
    queueLevel := 0
    voluntarilyYielded := false }

/-- What `kfork` copies from the parent `p` into the child `np`, whose lock it still holds. -/
def Proc.inherit (np p : Proc) : Proc :=
  { np with
    priority := p.priority
    queueLevel := p.queueLevel
    timerTicksUsed := 0
    waitTimerTicks := 0
    maxTimeSlice := getTimeSlice p.queueLevel
    voluntarilyYielded := false }

/-! ## The promotion check -/

theorem Proc.promote_queueLevel_zero {p : Proc} (h : p.queueLevel = 0) :
    p.promote.queueLevel = 0 := by
  unfold Proc.promote
  split
  · simp [h]
  · exact h

/-- A `RUNNABLE` process that has not waited long enough waits one pass more. -/
theorem Proc.promote_of_lt {p : Proc} (hrunnable : p.state = .runnable)
    (h : cInt (p.waitTimerTicks + 1) < getTimeSlice p.queueLevel * PROMO_THRESHOLD) :
    p.promote = { p with waitTimerTicks := cInt (p.waitTimerTicks + 1) } := by
  unfold Proc.promote
  rw [if_pos hrunnable]
  dsimp only
  rw [if_neg]
  rintro ⟨hlong, -⟩
  rw [Proc.hasToPromote, decide_eq_true_eq] at hlong
  exact absurd hlong (Int.not_le.mpr h)

theorem Proc.promote_of_le {p : Proc} (hrunnable : p.state = .runnable) (hpos : 0 < p.queueLevel)
    (h : getTimeSlice p.queueLevel * PROMO_THRESHOLD ≤ cInt (p.waitTimerTicks + 1)) :
    p.promote = p.enterLevel (p.queueLevel - 1) := by
  unfold Proc.promote
  rw [if_pos hrunnable]
  dsimp only
  rw [if_pos ⟨by rw [Proc.hasToPromote, decide_eq_true_eq]; exact h, hpos⟩]
  rfl

/-! ## What the sections do to the state -/

@[simp] theorem Proc.enterLevel_state (p : Proc) (l : ℤ) : (p.enterLevel l).state = p.state := rfl

@[simp] theorem Proc.enterLevel_queueLevel (p : Proc) (l : ℤ) :
    (p.enterLevel l).queueLevel = l := rfl

@[simp] theorem Proc.demote_state (p : Proc) : p.demote.state = p.state := by
  unfold Proc.demote
  split <;> rfl

@[simp] theorem Proc.demote_chan (p : Proc) : p.demote.chan = p.chan := by
  unfold Proc.demote
  split <;> rfl

@[simp] theorem Proc.promote_state (p : Proc) : p.promote.state = p.state := by
  unfold Proc.promote
  split
  · dsimp only
    split <;> rfl
  · rfl

@[simp] theorem Proc.tick_state (p : Proc) : p.tick.state = p.state := by
  unfold Proc.tick
  split <;> rfl

@[simp] theorem Proc.yield_state (p : Proc) : p.yield.state = .runnable := by
  rw [Proc.yield, Proc.demote_state]

@[simp] theorem Proc.sleep_state (p : Proc) (chan : ℕ) : (p.sleep chan).state = .sleeping := by
  rw [Proc.sleep, Proc.demote_state]

@[simp] theorem Proc.exit_state (p : Proc) (status : ℤ) : (p.exit status).state = .zombie := by
  rw [Proc.exit, Proc.demote_state]

/-- `wakeup` changes a state only from `SLEEPING` to `RUNNABLE`. -/
theorem Proc.wakeup_state (p : Proc) (chan : ℕ) :
    (p.wakeup chan).state = p.state ∨ p.state = .sleeping ∧ (p.wakeup chan).state = .runnable := by
  unfold Proc.wakeup
  split
  · rename_i h
    exact Or.inr ⟨h.1, rfl⟩
  · exact Or.inl rfl

theorem Proc.sleeping_of_wakeup {p : Proc} {chan : ℕ} (h : (p.wakeup chan).state = .sleeping) :
    p.wakeup chan = p ∧ p.state = .sleeping ∧ p.chan ≠ chan := by
  unfold Proc.wakeup at h ⊢
  split at h
  · exact absurd h (by simp)
  · rename_i hne
    rw [if_neg hne]
    exact ⟨rfl, h, fun hchan => hne ⟨h, hchan⟩⟩

/-- `kkill` changes a state only from `SLEEPING` to `RUNNABLE`. -/
theorem Proc.kkill_state (p : Proc) (pid : ℤ) :
    (p.kkill pid).state = p.state ∨ p.state = .sleeping ∧ (p.kkill pid).state = .runnable := by
  unfold Proc.kkill
  split
  · dsimp only
    split
    · rename_i h
      exact Or.inr ⟨h, rfl⟩
    · exact Or.inl rfl
  · exact Or.inl rfl

theorem Proc.sleeping_of_kkill {p : Proc} {pid : ℤ} (h : (p.kkill pid).state = .sleeping) :
    p.kkill pid = p ∧ p.state = .sleeping ∧ p.pid ≠ pid := by
  unfold Proc.kkill at h ⊢
  split at h
  · dsimp only at h
    split at h
    · exact absurd h (by simp)
    · rename_i hne
      exact absurd h hne
  · rename_i hpid
    rw [if_neg hpid]
    exact ⟨rfl, h, hpid⟩

end Sched
end Xv6
