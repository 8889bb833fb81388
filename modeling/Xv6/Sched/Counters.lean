import Xv6.Sched.Demotion

/-!
# The counters of the feedback queue

`wait_timer_ticks` is incremented by every promotion scan that finds the process `RUNNABLE`, and
`timer_ticks_used` by every timer interrupt that `kerneltrap` takes while it runs.  Both are set
back when the process enters a level, by promotion, demotion or as a child of `kfork`, and by
nothing else.  A process at level 0 is not promoted, and a running process is not demoted before it
exits (`Xv6.Sched.Demotion`), so a long-lived process counts for ever.
-/

namespace Xv6
namespace Sched

open Transition

/-- Both counters of a process are non-negative, so that neither has overflowed. -/
structure Proc.InRange (x : Proc) : Prop where
  used_nonneg : 0 ≤ x.timerTicksUsed
  used_le : x.timerTicksUsed ≤ 2147483647
  wait_nonneg : 0 ≤ x.waitTimerTicks
  wait_le : x.waitTimerTicks ≤ 2147483647

/-! ## The events that are counted -/

/-- The step is a visit of a promotion scan that finds `p` `RUNNABLE`. -/
def ScannedAt (s : State) (l : Label) (p : Slot) : Prop :=
  l.act = .promote ∧ (s.cpu l.cpu).pc = .promote p ∧ (s.proc p).state = .runnable

/-- The step is a timer interrupt in kernel mode that finds `p` running. -/
def TickedAt (s : State) (l : Label) (p : Slot) : Prop :=
  l.act = .kerneltrap ∧ (s.cpu l.cpu).proc = some p ∧ (s.proc p).state = .running

instance (s : State) (l : Label) (p : Slot) : Decidable (ScannedAt s l p) :=
  inferInstanceAs (Decidable (_ ∧ _))

instance (s : State) (l : Label) (p : Slot) : Decidable (TickedAt s l p) :=
  inferInstanceAs (Decidable (_ ∧ _))

/-- The system with the number of visits and of interrupts that each process has seen since it
entered its level. -/
structure Tally where
  sys : State
  scans : Slot → ℕ
  ticks : Slot → ℕ

/-- Count an event, or start again. -/
def tally (count : ℕ) (enters event : Prop) [Decidable enters] [Decidable event] : ℕ :=
  if enters then 0 else if event then count + 1 else count

/-- A step of the counting system. -/
def Tally.step (c : Tally) (l : Label) : Option Tally :=
  (Sched.step c.sys l).map fun s' =>
    { sys := s'
      scans := fun p => tally (c.scans p) (EntersLevel c.sys s' p) (ScannedAt c.sys l p)
      ticks := fun p => tally (c.ticks p) (EntersLevel c.sys s' p) (TickedAt c.sys l p) }

def Tally.boot : Tally where
  sys := Sched.boot
  scans := fun _ => 0
  ticks := fun _ => 0

/-- The step relation. -/
abbrev Tally.Steps : Tally → Label → Tally → Prop := ofStep Tally.step

/-- The event that the step counts, if any, is not the `2^31`st since the process has entered its
level. -/
def Tally.Short (c : Tally) (l : Label) : Prop :=
  ∀ p, (ScannedAt c.sys l p → (c.scans p : ℤ) < 2147483647) ∧
    (TickedAt c.sys l p → (c.ticks p : ℤ) < 2147483647)

instance (c : Tally) (l : Label) : Decidable (c.Short l) :=
  inferInstanceAs (Decidable (∀ _, (_ → _) ∧ (_ → _)))

/-! ## What a section does to the counters -/

/-- What becomes of the counters of a process: they start again, or one of them counts an event, or
they stay, the process being the same and at the same level. -/
inductive CounterStep (x : Proc) (scanned ticked : Prop) : Proc → Prop
  | reset {y : Proc} : y.waitTimerTicks = 0 → y.timerTicksUsed = 0 → CounterStep x scanned ticked y
  | same {y : Proc} : y.waitTimerTicks = x.waitTimerTicks → y.timerTicksUsed = x.timerTicksUsed →
      y.queueLevel = x.queueLevel → y.pid = x.pid → CounterStep x scanned ticked y
  | scan {y : Proc} : scanned → y.waitTimerTicks = cInt (x.waitTimerTicks + 1) →
      y.timerTicksUsed = x.timerTicksUsed → y.queueLevel = x.queueLevel → y.pid = x.pid →
      CounterStep x scanned ticked y
  | tick {y : Proc} : ticked → y.waitTimerTicks = x.waitTimerTicks →
      y.timerTicksUsed = cInt (x.timerTicksUsed + 1) → y.queueLevel = x.queueLevel →
      y.pid = x.pid → CounterStep x scanned ticked y

section Step

variable {s s' : State} {l : Label} {scanned ticked : Prop}

theorem counterStep_refl (x : Proc) : CounterStep x scanned ticked x := .same rfl rfl rfl rfl

theorem counterStep_demote {x y : Proc} (hwait : y.waitTimerTicks = x.waitTimerTicks)
    (hused : y.timerTicksUsed = x.timerTicksUsed) (hlevel : y.queueLevel = x.queueLevel)
    (hpid : y.pid = x.pid) : CounterStep x scanned ticked y.demote := by
  unfold Proc.demote
  split
  · exact .reset rfl rfl
  · exact .same hwait hused hlevel hpid

theorem counterStep_promote {x : Proc} (hscanned : x.state = .runnable → scanned) :
    CounterStep x scanned ticked x.promote := by
  unfold Proc.promote
  split
  · rename_i hrunnable
    dsimp only
    split
    · exact .reset rfl rfl
    · exact .scan (hscanned hrunnable) rfl rfl rfl rfl
  · exact counterStep_refl x

theorem counterStep_tick {x : Proc} (hticked : x.state = .running → ticked) :
    CounterStep x scanned ticked x.tick := by
  unfold Proc.tick
  split
  · rename_i hrunning
    exact .tick (hticked hrunning) rfl rfl rfl rfl
  · exact counterStep_refl x

theorem counterStep_wakeup (x : Proc) (chan : ℕ) :
    CounterStep x scanned ticked (x.wakeup chan) := by
  unfold Proc.wakeup
  split
  · exact .same rfl rfl rfl rfl
  · exact counterStep_refl x

theorem counterStep_kkill (x : Proc) (pid : ℤ) : CounterStep x scanned ticked (x.kkill pid) := by
  unfold Proc.kkill
  split
  · dsimp only
    split <;> exact .same rfl rfl rfl rfl
  · exact counterStep_refl x

/-- **The counters of a slot after a step.** -/
theorem counters_of_step (h : step s l = some s') (p : Slot) :
    CounterStep (s.proc p) (ScannedAt s l p) (TickedAt s l p) (s'.proc p) := by
  have hslot := slotMove_of_step h p
  generalize s'.proc p = x at hslot
  cases hslot with
  | same => exact counterStep_refl _
  | promote hact hpc => exact counterStep_promote fun hrunnable => ⟨hact, hpc, hrunnable⟩
  | tick hact hp => exact counterStep_tick fun hrunning => ⟨hact, hp, hrunning⟩
  | dispatch => exact .same rfl rfl rfl rfl
  | yield => exact counterStep_demote rfl rfl rfl rfl
  | sleep => exact counterStep_demote rfl rfl rfl rfl
  | exit => exact counterStep_demote rfl rfl rfl rfl
  | alloc => exact .reset rfl rfl
  | allocFail => exact .reset rfl rfl
  | parent => exact .same rfl rfl rfl rfl
  | runnable => exact .same rfl rfl rfl rfl
  | free => exact .reset rfl rfl
  | wakeup chan => exact counterStep_wakeup _ chan
  | kkill pid => exact counterStep_kkill _ pid
  | setkilled => exact .same rfl rfl rfl rfl

end Step

/-! ## Runs -/

/-- The counters of a process are at most the number of events, and that is in range. -/
structure Proc.Counts (x : Proc) (scans ticks : ℕ) : Prop where
  wait_nonneg : 0 ≤ x.waitTimerTicks
  wait_le : x.waitTimerTicks ≤ scans
  used_nonneg : 0 ≤ x.timerTicksUsed
  used_le : x.timerTicksUsed ≤ ticks
  scans_le : (scans : ℤ) ≤ 2147483647
  ticks_le : (ticks : ℤ) ≤ 2147483647

theorem Proc.Counts.inRange {x : Proc} {m n : ℕ} (h : x.Counts m n) : x.InRange :=
  ⟨h.used_nonneg, Int.le_trans h.used_le h.ticks_le, h.wait_nonneg,
    Int.le_trans h.wait_le h.scans_le⟩

theorem le_tally (count : ℕ) {enters : Prop} (event : Prop) [Decidable enters] [Decidable event]
    (henters : ¬ enters) : count ≤ tally count enters event := by
  rw [tally, if_neg henters]
  split <;> omega

theorem tally_le {count : ℕ} (enters : Prop) {event : Prop} [Decidable enters] [Decidable event]
    (hcount : (count : ℤ) ≤ 2147483647) (hevent : event → (count : ℤ) < 2147483647) :
    (tally count enters event : ℤ) ≤ 2147483647 := by
  unfold tally
  split
  · decide
  · split
    · rename_i h
      have := hevent h
      omega
    · exact hcount

/-- **One step keeps the counters below the number of events.** -/
theorem Tally.counts_of_step {c c' : Tally} {l : Label} (hshort : c.Short l)
    (h : c.step l = some c') {p : Slot} (hp : (c.sys.proc p).Counts (c.scans p) (c.ticks p)) :
    (c'.sys.proc p).Counts (c'.scans p) (c'.ticks p) := by
  obtain ⟨s', hs', rfl⟩ := Option.map_eq_some_iff.mp h
  have hscans := tally_le (EntersLevel c.sys s' p) hp.scans_le (hshort p).1
  have hticks := tally_le (EntersLevel c.sys s' p) hp.ticks_le (hshort p).2
  have hstay : ∀ y : Proc, s'.proc p = y → y.queueLevel = (c.sys.proc p).queueLevel →
      y.pid = (c.sys.proc p).pid → ¬ EntersLevel c.sys s' p := by
    intro y hy hlevel hpid henters
    rw [EntersLevel, hy] at henters
    exact henters.elim (fun hne => hne hlevel) fun hne => hne hpid
  have hwait0 := hp.wait_nonneg
  have hwait := hp.wait_le
  have hused0 := hp.used_nonneg
  have hused := hp.used_le
  dsimp only
  generalize hy : s'.proc p = y
  have hcount := counters_of_step hs' p
  rw [hy] at hcount
  cases hcount with
  | reset hw hu => exact ⟨by omega, by omega, by omega, by omega, hscans, hticks⟩
  | same hw hu hlevel hpid =>
    have henters := hstay y hy hlevel hpid
    have hle := le_tally (c.scans p) (ScannedAt c.sys l p) henters
    have hle' := le_tally (c.ticks p) (TickedAt c.sys l p) henters
    exact ⟨by omega, by omega, by omega, by omega, hscans, hticks⟩
  | scan hev hw hu hlevel hpid =>
    have henters := hstay y hy hlevel hpid
    have hlt := (hshort p).1 hev
    rw [cInt_of_range (by omega) (by omega)] at hw
    have hone : tally (c.scans p) (EntersLevel c.sys s' p) (ScannedAt c.sys l p) =
        c.scans p + 1 := by
      rw [tally, if_neg henters, if_pos hev]
    have hle' := le_tally (c.ticks p) (TickedAt c.sys l p) henters
    exact ⟨by omega, by omega, by omega, by omega, hscans, hticks⟩
  | tick hev hw hu hlevel hpid =>
    have henters := hstay y hy hlevel hpid
    have hlt := (hshort p).2 hev
    rw [cInt_of_range (by omega) (by omega)] at hu
    have hone : tally (c.ticks p) (EntersLevel c.sys s' p) (TickedAt c.sys l p) =
        c.ticks p + 1 := by
      rw [tally, if_neg henters, if_pos hev]
    have hle := le_tally (c.scans p) (ScannedAt c.sys l p) henters
    exact ⟨by omega, by omega, by omega, by omega, hscans, hticks⟩

theorem Tally.counts_boot (p : Slot) :
    (Tally.boot.sys.proc p).Counts (Tally.boot.scans p) (Tally.boot.ticks p) := by
  have hzero : ∀ x : Proc, x.waitTimerTicks = 0 → x.timerTicksUsed = 0 → x.Counts 0 0 :=
    fun x hw hu => ⟨by omega, by omega, by omega, by omega, by decide, by decide⟩
  by_cases hp : p = 0
  · subst hp
    exact hzero _ rfl rfl
  · have hinit : Tally.boot.sys.proc p = Proc.init := by simp [Tally.boot, Sched.boot, hp]
    rw [hinit]
    exact hzero _ rfl rfl

/-! ## Two thousand million interrupts -/

/-- CPU 0 runs `init` in the kernel, and its counter stands at `n`. -/
structure InKernel (s : State) (n : ℤ) : Prop where
  pc : (s.cpu 0).pc = .swtch
  proc : (s.cpu 0).proc = some 0
  state : (s.proc 0).state = .running
  used : (s.proc 0).timerTicksUsed = n

theorem InKernel.kerneltrap {s : State} {n : ℤ} (hs : InKernel s n) :
    ∃ s', step s ⟨0, .kerneltrap⟩ = some s' ∧ InKernel s' (cInt (n + 1)) := by
  have hint : (s.cpu 0).interruptible = true := by simp [Cpu.interruptible, hs.pc]
  have hstep : step s ⟨0, .kerneltrap⟩ = some ((s.clockintr 0).updProc 0 Proc.tick) := by
    show stepKerneltrap s 0 = _
    rw [stepKerneltrap, if_pos hint, hs.proc]
  refine ⟨_, hstep, ?_, ?_, ?_, ?_⟩
  · rw [State.updProc_cpu, State.clockintr_cpu, hs.pc]
  · rw [State.updProc_cpu, State.clockintr_cpu, hs.proc]
  · rw [State.updProc_proc_self, State.clockintr_proc, Proc.tick_state, hs.state]
  · rw [State.updProc_proc_self, State.clockintr_proc, Proc.tick, if_pos hs.state, hs.used]

theorem exists_run_inKernel (n : ℕ) (hn : (n : ℤ) ≤ 2147483647) :
    ∃ h s, Run Steps boot h s ∧ InKernel s n := by
  induction n with
  | zero =>
    have hexec : ((exec step boot (scanActs 0 ++ [⟨0, .dispatch⟩])).map fun s =>
        ((s.cpu 0).pc, (s.cpu 0).proc, (s.proc 0).state, (s.proc 0).timerTicksUsed)) =
        some (.swtch, some 0, .running, 0) := by
      decide +kernel
    obtain ⟨s, hs, hfields⟩ := Option.map_eq_some_iff.mp hexec
    simp only [Prod.mk.injEq] at hfields
    obtain ⟨hpc, hproc, hstate, hused⟩ := hfields
    exact ⟨_, s, run_of_execWith hs, hpc, hproc, hstate, hused⟩
  | succ n ih =>
    obtain ⟨h, s, hrun, hs⟩ := ih (by omega)
    obtain ⟨s', hstep, hs'⟩ := hs.kerneltrap
    rw [cInt_of_range (by omega) (by omega)] at hs'
    exact ⟨_, s', hrun.step trivial hstep, by exact_mod_cast hs'⟩

end Sched
end Xv6
