import Xv6.Sched.Exclusion

/-!
# Demotion

`scheduler()` moves a process down a level when `swtch` comes back with
`voluntarily_yielded == 0` and the time slice used up.  A running process comes back through
`yield`, `sleep` or `kexit` alone.  `yield` sets `voluntarily_yielded`, and its only caller is
`usertrap` on a timer interrupt: being preempted counts as yielding.  `kerneltrap`, which counts
the ticks, does not yield.  So the check can succeed only for a process that exits.

The number of timer interrupts a process has seen at its level is not in the kernel's state:
`timer_ticks_used` misses those taken in user mode.  `Counted` adds it to the state.
-/

namespace Xv6
namespace Sched

open Transition

/-! ## Counting timer interrupts -/

/-- The system with, for each slot, the number of timer interrupts that have arrived while its
process was `RUNNING` since the process entered its level. -/
structure Counted where
  sys : State
  ticks : Slot → ℕ

/-- Between `s` and `s'` slot `p` has changed its level or got a new process. -/
def EntersLevel (s s' : State) (p : Slot) : Prop :=
  (s'.proc p).queueLevel ≠ (s.proc p).queueLevel ∨ (s'.proc p).pid ≠ (s.proc p).pid

instance (s s' : State) (p : Slot) : Decidable (EntersLevel s s' p) :=
  inferInstanceAs (Decidable (_ ∨ _))

/-- The step is a timer interrupt, in user or in kernel mode, that finds `p` running. -/
def TimerAt (s : State) (l : Label) (p : Slot) : Prop :=
  (l.act = .kerneltrap ∨ l.act = .yield) ∧ (s.cpu l.cpu).proc = some p ∧
    (s.proc p).state = .running

instance (s : State) (l : Label) (p : Slot) : Decidable (TimerAt s l p) :=
  inferInstanceAs (Decidable (_ ∧ _))

/-- A step of the counting system. -/
def Counted.step (c : Counted) (l : Label) : Option Counted :=
  (Sched.step c.sys l).map fun s' =>
    { sys := s'
      ticks := fun p =>
        if EntersLevel c.sys s' p then 0
        else if TimerAt c.sys l p then c.ticks p + 1
        else c.ticks p }

/-- The counting system at boot. -/
def Counted.boot : Counted where
  sys := Sched.boot
  ticks := fun _ => 0

/-- Only CPU 0 takes steps. -/
def OneCpu (_ : Counted) (l : Label) : Prop := l.cpu = 0

instance (c : Counted) (l : Label) : Decidable (OneCpu c l) :=
  inferInstanceAs (Decidable (l.cpu = 0))

/-- A run on one CPU. -/
abbrev RunsOnOneCpu (h : List Label) (c : Counted) : Prop :=
  RunWith (ofStep Counted.step) OneCpu Counted.boot h c

/-! ## The rule -/

/-- The process `p` runs at level `q`, above the lowest, and with the timer interrupt that
arrives now it has seen the interrupts of its time slice. -/
structure UsedUp (c : Counted) (p : Slot) (q : ℤ) : Prop where
  current : (c.sys.cpu 0).proc = some p
  level : (c.sys.proc p).queueLevel = q
  not_lowest : q < (NQUEUES : ℤ) - 1
  ticks : getTimeSlice q ≤ c.ticks p + 1

/-- The process `p` has been moved down from level `q`. -/
structure Demoted (c : Counted) (p : Slot) (q : ℤ) : Prop where
  level : (c.sys.proc p).queueLevel = q + 1
  priority : (c.sys.proc p).priority = q + 1
  slice : (c.sys.proc p).maxTimeSlice = getTimeSlice (q + 1)
  used : (c.sys.proc p).timerTicksUsed = 0

/-- The demotion rule at the end of a run: a process that has used up its time slice and loses
the CPU to a timer interrupt is moved down when the scheduler releases it. -/
def DemotionRule (c : Counted) : Prop :=
  ∀ p q c', UsedUp c p q → c.step ⟨0, .yield⟩ = some c' → Demoted c' p q

/-! ## Levels along a run -/

/-- Every process that is not a zombie is at level 0. -/
def LevelZero (s : State) : Prop :=
  ∀ p, (s.proc p).state ≠ .zombie → (s.proc p).queueLevel = 0

/-- Yielding does not change the level: the flag it sets is the one the check looks at. -/
@[simp] theorem Proc.yield_queueLevel (p : Proc) : p.yield.queueLevel = p.queueLevel := by
  simp [Proc.yield, Proc.demote]

@[simp] theorem Proc.sleep_queueLevel (p : Proc) (chan : ℕ) :
    (p.sleep chan).queueLevel = p.queueLevel := by
  simp [Proc.sleep, Proc.demote]

@[simp] theorem Proc.tick_queueLevel (p : Proc) : p.tick.queueLevel = p.queueLevel := by
  unfold Proc.tick
  split <;> rfl

@[simp] theorem Proc.wakeup_queueLevel (p : Proc) (chan : ℕ) :
    (p.wakeup chan).queueLevel = p.queueLevel := by
  unfold Proc.wakeup
  split <;> rfl

@[simp] theorem Proc.kkill_queueLevel (p : Proc) (pid : ℤ) :
    (p.kkill pid).queueLevel = p.queueLevel := by
  unfold Proc.kkill
  split
  · dsimp only
    split <;> rfl
  · rfl

variable {s s' : State}

/-- **No section moves a live process off level 0**, as long as ownership is exclusive. -/
theorem LevelZero.of_step {l : Label} (hs : LevelZero s) (hown : Owned s)
    (h : step s l = some s') : LevelZero s' := by
  have hrun : ∀ p t, (s.cpu l.cpu).running t = some p → (s.proc p).queueLevel = 0 := by
    intro p t hp
    have hst := hown.state l.cpu p _ (.running (Cpu.proc_of_running hp).1)
    exact hs p (by rw [hst]; decide)
  intro p hz
  have hslot := slotStep_of_step h p
  generalize hx : s'.proc p = x at hslot hz ⊢
  cases hslot with
  | same => exact hs p hz
  | promote => exact Proc.promote_queueLevel_zero (hs p (by rwa [Proc.promote_state] at hz))
  | dispatch hpc =>
    -- the chosen process is `RUNNABLE`, so it is not a zombie whose level has changed
    have hst := hown.state l.cpu p _ (.chosen hpc)
    exact hs p (by rw [hst]; decide)
  | tick =>
    rw [Proc.tick_state] at hz
    rw [Proc.tick_queueLevel]
    exact hs p hz
  | yield hp => rw [Proc.yield_queueLevel, hrun p _ hp]
  | sleep chan hp => rw [Proc.sleep_queueLevel, hrun p _ hp]
  | exit status => exact absurd (Proc.exit_state _ status) hz
  | alloc q hq => exact hrun q _ hq
  | allocFail => rfl
  | parent => exact hs p hz
  | runnable hth =>
    have hst := hown.state l.cpu p _ (.forking (Or.inr hth))
    exact hs p (by rw [hst]; decide)
  | free => rfl
  | wakeup chan =>
    rw [Proc.wakeup_queueLevel]
    refine hs p fun hp => ?_
    rcases Proc.wakeup_state (s.proc p) chan with hst | ⟨hst, -⟩
    · exact hz (hst.trans hp)
    · exact absurd (hst.symm.trans hp) (by decide)
  | kkill pid =>
    rw [Proc.kkill_queueLevel]
    refine hs p fun hp => ?_
    rcases Proc.kkill_state (s.proc p) pid with hst | ⟨hst, -⟩
    · exact hz (hst.trans hp)
    · exact absurd (hst.symm.trans hp) (by decide)
  | setkilled => exact hs p hz

/-! ## Runs on one CPU -/

/-- What holds along a run on CPU 0: the other CPUs never leave the loop's head, so every pick is
fresh and ownership is exclusive, and live processes stay at level 0. -/
structure OnOneCpu (s : State) : Prop where
  owned : Owned s
  idle : ∀ k, k ≠ 0 → s.cpu k = Cpu.boot
  level : LevelZero s

theorem OnOneCpu.fresh (hs : OnOneCpu s) {l : Label} (hl : l.cpu = 0) : Fresh s l := by
  intro p _ k hk
  rw [hs.idle k (hl ▸ hk)]
  simp [Cpu.boot]

theorem OnOneCpu.of_step (hs : OnOneCpu s) {l : Label} (hl : l.cpu = 0)
    (h : step s l = some s') : OnOneCpu s' where
  owned := hs.owned.of_step (hs.fresh hl) h
  idle := fun k hk => by
    rw [(keeps_step hs.owned h).frame k (hl ▸ hk)]
    exact hs.idle k hk
  level := hs.level.of_step hs.owned h

theorem onOneCpu_boot : OnOneCpu boot where
  owned := owned_boot
  idle := fun _ _ => rfl
  level := fun p _ => by
    by_cases hp : p = 0
    · subst hp
      rfl
    · simp [boot, hp, Proc.init]

theorem onOneCpu_of_run {h : List Label} {c : Counted} (hrun : RunsOnOneCpu h c) :
    OnOneCpu c.sys := by
  refine hrun.invariant (I := fun c => OnOneCpu c.sys) onOneCpu_boot fun t l v ht hl hstep => ?_
  obtain ⟨s', hs', rfl⟩ := Option.map_eq_some_iff.mp hstep
  exact ht.of_step hl hs'

theorem queueLevel_of_step_yield {c c' : Counted} {p : Slot} (hp : (c.sys.cpu 0).proc = some p)
    (h : c.step ⟨0, .yield⟩ = some c') :
    (c'.sys.proc p).queueLevel = (c.sys.proc p).queueLevel := by
  obtain ⟨s', hs', rfl⟩ := Option.map_eq_some_iff.mp h
  replace hs' : stepGiveUp (c.sys.clockintr 0) 0 .normal Proc.yield = some s' := hs'
  obtain ⟨q, hq, rfl⟩ := Option.map_eq_some_iff.mp hs'
  rw [State.clockintr_cpu] at hq
  have hqp : q = p := Option.some.inj ((Cpu.proc_of_running hq).1.symm.trans hp)
  subst hqp
  rw [State.updCpu_proc, State.updProc_proc_self, State.clockintr_proc, Proc.yield_queueLevel]

/-- **No process is ever demoted.**  In every run on one CPU, a process that has used up its
time slice and loses the CPU to a timer interrupt is not moved down; in fact every process that
has not exited is at level 0 throughout. -/
theorem demotion_never {h : List Label} {c : Counted} (hrun : RunsOnOneCpu h c) :
    (∀ p q c', UsedUp c p q → c.step ⟨0, .yield⟩ = some c' → ¬ Demoted c' p q) ∧
      ∀ p, (c.sys.proc p).state ≠ .zombie → (c.sys.proc p).queueLevel = 0 := by
  refine ⟨fun p q c' hused hstep hdem => ?_, (onOneCpu_of_run hrun).level⟩
  have hlevel := queueLevel_of_step_yield hused.current hstep
  rw [hdem.level, hused.level] at hlevel
  omega

/-! ## Four ticks of `init` -/

/-- CPU 0 dispatches the first process and takes four timer interrupts in kernel mode. -/
def fourTicksActs : List Label :=
  scanActs 0 ++ [⟨0, .dispatch⟩] ++ List.replicate 4 ⟨0, .kerneltrap⟩

theorem demotion_never_init :
    ∃ h c c', RunsOnOneCpu h c ∧ UsedUp c 0 0 ∧ c.step ⟨0, .yield⟩ = some c' ∧
      ¬ Demoted c' 0 0 := by
  have hexec : ((execWith Counted.step OneCpu Counted.boot fourTicksActs).bind fun c =>
      (c.step ⟨0, .yield⟩).map fun _ =>
        ((c.sys.cpu 0).proc, (c.sys.proc 0).queueLevel, c.ticks 0)) = some (some 0, 0, 4) := by
    decide +kernel
  obtain ⟨c, hc, hrest⟩ := Option.bind_eq_some_iff.mp hexec
  obtain ⟨c', hc', hfields⟩ := Option.map_eq_some_iff.mp hrest
  simp only [Prod.mk.injEq] at hfields
  have hrun := run_of_execWith hc
  have hused : UsedUp c 0 0 :=
    ⟨hfields.1, hfields.2.1, by decide, by rw [hfields.2.2]; decide⟩
  exact ⟨_, c, c', hrun, hused, hc', (demotion_never hrun).1 0 0 c' hused hc'⟩

/-- **The demotion rule fails** for `init`, preempted after four counted ticks. -/
theorem not_demotionRule : ¬ ∀ h c, RunsOnOneCpu h c → DemotionRule c := by
  intro hall
  have hexec : ((execWith Counted.step OneCpu Counted.boot fourTicksActs).bind fun c =>
      (c.step ⟨0, .yield⟩).map fun c' =>
        ((c.sys.cpu 0).proc, (c.sys.proc 0).queueLevel, c.ticks 0,
          (c'.sys.proc 0).queueLevel)) = some (some 0, 0, 4, 0) := by
    decide +kernel
  obtain ⟨c, hc, hrest⟩ := Option.bind_eq_some_iff.mp hexec
  obtain ⟨c', hc', hfields⟩ := Option.map_eq_some_iff.mp hrest
  simp only [Prod.mk.injEq] at hfields
  obtain ⟨hproc, hlevel, hticks, hlevel'⟩ := hfields
  have hdem := hall _ c (run_of_execWith hc) 0 0 c'
    ⟨hproc, hlevel, by decide, by rw [hticks]; decide⟩ hc'
  exact absurd (hlevel'.symm.trans hdem.level) (by decide)

end Sched
end Xv6
