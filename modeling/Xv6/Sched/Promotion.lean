import Xv6.Sched.Counters
import Xv6.Sched.Starvation
import Xv6.Sched.Bookkeeping

/-!
# When a process is promoted

A process above level 0 is to be promoted when it has waited for ten of its time slices.  The time
it has waited is kept in `wait_timer_ticks`, but that counter does not count clock ticks.  It counts
the visits of promotion scans, of which every CPU makes one in every pass of its loop, and a pass
takes as long as the process that it chooses takes to give up the CPU.  Nor does it start again when
the process runs: the dispatch leaves it as it is.

`Waited` adds to the state how many clock ticks each process has been waiting for.
-/

namespace Xv6
namespace Sched

open Transition

/-! ## The time a process waits -/

/-- The process is `RUNNABLE` and not dispatched. -/
def Waits (s : State) (p : Slot) : Prop :=
  (s.proc p).state = .runnable ∧ ∀ k, (s.cpu k).proc ≠ some p

instance (s : State) (p : Slot) : Decidable (Waits s p) := inferInstanceAs (Decidable (_ ∧ _))

/-- The step is a clock tick: CPU 0 takes a timer interrupt, in user or in kernel mode. -/
def ClockTick (l : Label) : Prop := l.cpu = 0 ∧ (l.act = .kerneltrap ∨ l.act = .yield)

instance (l : Label) : Decidable (ClockTick l) := inferInstanceAs (Decidable (_ ∧ _))

/-- The system with, for each slot, the number of clock ticks since its process has begun to wait,
and whether there has been one since the last visit of a promotion scan. -/
structure Waited where
  sys : State
  waited : Slot → ℕ
  due : Slot → Bool

/-- A step. -/
def Waited.step (c : Waited) (l : Label) : Option Waited :=
  (Sched.step c.sys l).map fun s' =>
    { sys := s'
      waited := fun p =>
        if Waits c.sys p ∧ Waits s' p then
          if ClockTick l then c.waited p + 1 else c.waited p
        else 0
      due := fun p =>
        if Waits c.sys p ∧ Waits s' p then
          if ClockTick l then true else if ScannedAt c.sys l p then false else c.due p
        else false }

/-- Nobody has waited yet. -/
def Waited.start (s : State) : Waited where
  sys := s
  waited := fun _ => 0
  due := fun _ => false

/-- The step relation. -/
abbrev Waited.Steps : Waited → Label → Waited → Prop := ofStep Waited.step

/-- A promotion scan visits a waiting process above level 0 only after a clock tick, and such a
process is dispatched only with its counter at 0. -/
structure Waited.Paced (c : Waited) (l : Label) : Prop where
  visit : ∀ p, ScannedAt c.sys l p → 0 < (c.sys.proc p).queueLevel → c.due p = true
  dispatch : ∀ p, switchesTo c.sys l = some p → 0 < (c.sys.proc p).queueLevel →
    (c.sys.proc p).waitTimerTicks = 0

/-! ## What a step does -/

section Step

variable {s s' : State} {l : Label} {p : Slot}

theorem proc_of_step {k : CpuId} (h : step s l = some s') (hp : (s'.cpu k).proc = some p) :
    (s.cpu k).proc = some p ∨ switchesTo s l = some p := by
  have hmove := move_of_step h
  by_cases hk : k = l.cpu
  · obtain ⟨j, a⟩ := l
    subst hk
    cases hmove with
    | dispatch q hpc =>
      rw [State.updCpu_cpu_self] at hp
      right
      rw [switchesTo, hpc]
      exact hp
    | yield | sleep | exit =>
      rw [State.updCpu_cpu_self] at hp
      exact absurd hp (by simp [Cpu.descheduled])
    | tick | idle => exact Or.inl (by simpa using hp)
    | free | wakeup | kkill | setkilled | allocFail => exact Or.inl hp
    | promote | pick | skip | alloc | parent | runnable | reparent =>
      rw [State.updCpu_cpu_self] at hp
      exact Or.inl hp
  · rw [hmove.frame hk] at hp
    exact Or.inl hp

theorem Waits.of_step (hp : Waits s p) (hdispatch : switchesTo s l ≠ some p)
    (h : step s l = some s') : Waits s' p := by
  obtain ⟨hrunnable, hidle⟩ := hp
  refine ⟨?_, fun k hk => (proc_of_step h hk).elim (hidle k) hdispatch⟩
  have hrunning : ∀ t, (s.cpu l.cpu).running t ≠ some p :=
    fun t ht => hidle l.cpu (Cpu.proc_of_running ht).1
  have hslot := slotMove_of_step h p
  generalize s'.proc p = x at hslot
  cases hslot with
  | same | parent | setkilled => exact hrunnable
  | promote => rw [Proc.promote_state, hrunnable]
  | dispatch hact hpc => exact absurd (by rw [switchesTo, hact, hpc]) hdispatch
  | tick => rw [Proc.tick_state, hrunnable]
  | yield _ hq => exact absurd hq (hrunning _)
  | sleep chan _ hq => exact absurd hq (hrunning _)
  | exit status _ hq => exact absurd hq (hrunning _)
  | alloc q _ _ hun => exact absurd (hrunnable.symm.trans hun) (by simp)
  | allocFail _ hun => exact absurd (hrunnable.symm.trans hun) (by simp)
  | runnable => rfl
  | free _ hz => exact absurd (hrunnable.symm.trans hz) (by simp)
  | wakeup chan =>
    rcases Proc.wakeup_state (s.proc p) chan with hst | ⟨-, hst⟩
    · rw [hst, hrunnable]
    · exact hst
  | kkill pid =>
    rcases Proc.kkill_state (s.proc p) pid with hst | ⟨-, hst⟩
    · rw [hst, hrunnable]
    · exact hst

/-- A live process whose level is lowered is promoted: a scan finds it `RUNNABLE`, with a counter
that reaches ten of its time slices. -/
theorem scannedAt_of_level_lt (h : step s l = some s') (hunused : (s.proc p).state ≠ .unused)
    (hzombie : (s.proc p).state ≠ .zombie)
    (hlt : (s'.proc p).queueLevel < (s.proc p).queueLevel) :
    ScannedAt s l p ∧ 0 < (s.proc p).queueLevel ∧
      (s'.proc p).queueLevel = (s.proc p).queueLevel - 1 ∧
      getTimeSlice (s.proc p).queueLevel * PROMO_THRESHOLD ≤ cInt ((s.proc p).waitTimerTicks + 1) := by
  have hdemote : ∀ x : Proc, ¬ x.demote.queueLevel < x.queueLevel := by
    intro x
    unfold Proc.demote
    split
    · rw [Proc.enterLevel_queueLevel]
      omega
    · exact Int.lt_irrefl _
  have hslot := slotMove_of_step h p
  generalize s'.proc p = x at hslot hlt ⊢
  cases hslot with
  | same | parent | setkilled | dispatch | runnable => exact absurd hlt (Int.lt_irrefl _)
  | promote hact hpc =>
    unfold Proc.promote at hlt ⊢
    split at hlt
    · rename_i hrunnable
      dsimp only at hlt
      split at hlt
      · rename_i hup
        rw [if_pos hrunnable]
        dsimp only
        rw [if_pos hup]
        have hlong := hup.1
        rw [Proc.hasToPromote, decide_eq_true_eq] at hlong
        exact ⟨⟨hact, hpc, hrunnable⟩, hup.2, rfl, hlong⟩
      · exact absurd hlt (Int.lt_irrefl _)
    · exact absurd hlt (Int.lt_irrefl _)
  | tick =>
    rw [Proc.tick_queueLevel] at hlt
    exact absurd hlt (Int.lt_irrefl _)
  | yield => exact absurd hlt (hdemote _)
  | sleep => exact absurd hlt (hdemote _)
  | exit => exact absurd hlt (hdemote _)
  | alloc _ _ _ hun => exact absurd hun hunused
  | allocFail _ hun => exact absurd hun hunused
  | free _ hz => exact absurd hz hzombie
  | wakeup chan =>
    rw [Proc.wakeup_queueLevel] at hlt
    exact absurd hlt (Int.lt_irrefl _)
  | kkill pid =>
    rw [Proc.kkill_queueLevel] at hlt
    exact absurd hlt (Int.lt_irrefl _)

end Step

/-! ## Runs -/

/-- The counter of `p` is not ahead of the clock.  `due` is a tick in hand, for the next visit. -/
structure Waited.Honest (c : Waited) (p : Slot) : Prop where
  due_le : c.due p = true → 1 ≤ c.waited p
  due_waits : c.due p = true → Waits c.sys p
  range : -2147483648 ≤ (c.sys.proc p).waitTimerTicks
  waiting : 0 < (c.sys.proc p).queueLevel → Waits c.sys p →
    (c.sys.proc p).waitTimerTicks + (if c.due p then 1 else 0) ≤ c.waited p
  idle : 0 < (c.sys.proc p).queueLevel → ¬ Waits c.sys p → (c.sys.proc p).waitTimerTicks = 0

section Run

variable {c c' : Waited} {l : Label} {p : Slot}

theorem Waited.record_of_waits (h : c.step l = some c') (hW : Waits c.sys p)
    (hW' : Waits c'.sys p) :
    c'.waited p = (if ClockTick l then c.waited p + 1 else c.waited p) ∧
      c'.due p = if ClockTick l then true else if ScannedAt c.sys l p then false else c.due p := by
  obtain ⟨s', hs', rfl⟩ := Option.map_eq_some_iff.mp h
  exact ⟨if_pos ⟨hW, hW'⟩, if_pos ⟨hW, hW'⟩⟩

theorem Waited.due_of_step (hdue : c.due p = true → 1 ≤ c.waited p) (h : c.step l = some c')
    (hd : c'.due p = true) : 1 ≤ c'.waited p ∧ Waits c'.sys p := by
  have hW : Waits c.sys p ∧ Waits c'.sys p := by
    obtain ⟨s', hs', rfl⟩ := Option.map_eq_some_iff.mp h
    by_contra hW
    exact absurd hd (by simp [hW])
  obtain ⟨hwaited, hdue'⟩ := Waited.record_of_waits h hW.1 hW.2
  refine ⟨?_, hW.2⟩
  rw [hdue'] at hd
  rw [hwaited]
  by_cases htick : ClockTick l
  · rw [if_pos htick]
    omega
  · rw [if_neg htick] at hd ⊢
    split at hd
    · exact absurd hd (by simp)
    · exact hdue hd

theorem Waited.honest_of_zero (hdue : c.due p = true → 1 ≤ c.waited p ∧ Waits c.sys p)
    (hzero : (c.sys.proc p).waitTimerTicks = 0) : c.Honest p where
  due_le := fun hd => (hdue hd).1
  due_waits := fun hd => (hdue hd).2
  range := by omega
  waiting := fun _ _ => by
    rw [hzero]
    split
    · rename_i hd
      have hone := (hdue hd).1
      omega
    · omega
  idle := fun _ _ => hzero

theorem Waited.Honest.of_same (hc : c.Honest p) (hpaced : c.Paced l) (h : c.step l = some c')
    (hw : (c'.sys.proc p).waitTimerTicks = (c.sys.proc p).waitTimerTicks)
    (hlevel : (c'.sys.proc p).queueLevel = (c.sys.proc p).queueLevel) : c'.Honest p := by
  have hdue' : c'.due p = true → 1 ≤ c'.waited p ∧ Waits c'.sys p := Waited.due_of_step hc.due_le h
  by_cases hzero : (c.sys.proc p).waitTimerTicks = 0
  · exact Waited.honest_of_zero hdue' (hw.trans hzero)
  · -- a process above level 0 with a counter that is not 0 is waiting, and is not dispatched
    have hstay : 0 < (c.sys.proc p).queueLevel → Waits c.sys p ∧ Waits c'.sys p := by
      intro hpos
      have hW : Waits c.sys p := by
        by_contra hW
        exact hzero (hc.idle hpos hW)
      obtain ⟨s', hs', rfl⟩ := Option.map_eq_some_iff.mp h
      exact ⟨hW, hW.of_step (fun hsw => hzero (hpaced.dispatch p hsw hpos)) hs'⟩
    refine ⟨fun hd => (hdue' hd).1, fun hd => (hdue' hd).2, by rw [hw]; exact hc.range,
      fun hpos _ => ?_, fun hpos hW' => ?_⟩
    · rw [hlevel] at hpos
      obtain ⟨hW, hW'⟩ := hstay hpos
      obtain ⟨hwaited, hdue⟩ := Waited.record_of_waits h hW hW'
      have hle := hc.waiting hpos hW
      rw [hw, hwaited, hdue]
      by_cases htick : ClockTick l
      · simp only [htick, if_true]
        split at hle <;> omega
      · simp only [htick, if_false]
        by_cases hscan : ScannedAt c.sys l p
        · simp only [hscan, if_true]
          split at hle <;> simp <;> omega
        · simp only [hscan, if_false]
          exact hle
    · rw [hlevel] at hpos
      exact absurd (hstay hpos).2 hW'

theorem Waited.Honest.of_scan (hc : c.Honest p) (hpaced : c.Paced l) (h : c.step l = some c')
    (hscan : ScannedAt c.sys l p)
    (hw : (c'.sys.proc p).waitTimerTicks = cInt ((c.sys.proc p).waitTimerTicks + 1))
    (hlevel : (c'.sys.proc p).queueLevel = (c.sys.proc p).queueLevel) : c'.Honest p := by
  have hdue' : c'.due p = true → 1 ≤ c'.waited p ∧ Waits c'.sys p := Waited.due_of_step hc.due_le h
  have hact : l.act = .promote := hscan.1
  have hstay : 0 < (c.sys.proc p).queueLevel → c.due p = true ∧ Waits c.sys p ∧ Waits c'.sys p := by
    intro hpos
    have hd := hpaced.visit p hscan hpos
    obtain ⟨s', hs', rfl⟩ := Option.map_eq_some_iff.mp h
    have hW := hc.due_waits hd
    exact ⟨hd, hW, hW.of_step (by rw [switchesTo, hact]; simp) hs'⟩
  refine ⟨fun hd => (hdue' hd).1, fun hd => (hdue' hd).2, by rw [hw]; exact le_cInt _,
    fun hpos _ => ?_, fun hpos hW' => ?_⟩
  · rw [hlevel] at hpos
    obtain ⟨hd, hW, hW'⟩ := hstay hpos
    obtain ⟨hwaited, hdue⟩ := Waited.record_of_waits h hW hW'
    have hle := hc.waiting hpos hW
    rw [if_pos hd] at hle
    have htick : ¬ ClockTick l := fun ht => by
      rw [ClockTick, hact] at ht
      exact absurd ht.2 (by simp)
    have hrange := hc.range
    have hcInt : cInt ((c.sys.proc p).waitTimerTicks + 1) ≤ (c.sys.proc p).waitTimerTicks + 1 :=
      cInt_le (by omega)
    rw [if_neg htick] at hwaited
    rw [if_neg htick, if_pos hscan] at hdue
    rw [hw, hwaited, hdue]
    simp only [Bool.false_eq_true, if_false]
    omega
  · rw [hlevel] at hpos
    exact absurd (hstay hpos).2.2 hW'

/-- **One step keeps the counter behind the clock.** -/
theorem Waited.Honest.of_step (hc : c.Honest p) (hpaced : c.Paced l) (h : c.step l = some c') :
    c'.Honest p := by
  have hcount : CounterStep (c.sys.proc p) (ScannedAt c.sys l p) (TickedAt c.sys l p)
      (c'.sys.proc p) := by
    obtain ⟨s', hs', rfl⟩ := Option.map_eq_some_iff.mp h
    exact counters_of_step hs' p
  generalize hx : c'.sys.proc p = x at hcount
  cases hcount with
  | reset hw _ =>
    exact Waited.honest_of_zero (fun hd => Waited.due_of_step hc.due_le h hd) (hx ▸ hw)
  | same hw _ hlevel _ => exact hc.of_same hpaced h (hx ▸ hw) (hx ▸ hlevel)
  | tick _ hw _ hlevel _ => exact hc.of_same hpaced h (hx ▸ hw) (hx ▸ hlevel)
  | scan hscan hw _ hlevel _ => exact hc.of_scan hpaced h hscan (hx ▸ hw) (hx ▸ hlevel)

theorem Waited.honest_start {s₀ : State} (hzero : (s₀.proc p).waitTimerTicks = 0) :
    (Waited.start s₀).Honest p :=
  Waited.honest_of_zero (fun hd => absurd hd (by simp [Waited.start])) hzero

/-- **A process is not promoted early** in a run in which every visit of a promotion scan to a
waiting process above level 0 comes after a clock tick that no visit before has counted, and in which
no process above level 0 is dispatched with a counter that is not 0.  From any state in which the
counter of `p` is 0, or not ahead of the clock, whenever `p` is moved to a lower level it is moved
by one, it is waiting, and it has been waiting for ten of its time slices of clock ticks. -/
theorem promotion_not_early (p : Slot) :
    (∀ s₀ : State, (s₀.proc p).waitTimerTicks = 0 → (Waited.start s₀).Honest p) ∧
      ∀ c₀ h c l c', c₀.Honest p → RunWith Waited.Steps Waited.Paced c₀ h c → c.Paced l →
        c.step l = some c' → (c.sys.proc p).state ≠ .unused → (c.sys.proc p).state ≠ .zombie →
        (c'.sys.proc p).queueLevel < (c.sys.proc p).queueLevel →
        (c'.sys.proc p).queueLevel = (c.sys.proc p).queueLevel - 1 ∧ Waits c.sys p ∧
          PROMO_THRESHOLD * getTimeSlice (c.sys.proc p).queueLevel ≤ c.waited p := by
  refine ⟨fun _ => Waited.honest_start, ?_⟩
  intro c₀ h c l c' hstart hrun hpaced hstep hunused hzombie hlt
  have hhonest : c.Honest p :=
    hrun.invariant (I := fun c => c.Honest p) hstart fun _ _ _ ht hp hs => ht.of_step hp hs
  obtain ⟨s', hs', rfl⟩ := Option.map_eq_some_iff.mp hstep
  obtain ⟨hscan, hpos, hlevel, hlong⟩ := scannedAt_of_level_lt hs' hunused hzombie hlt
  have hd := hpaced.visit p hscan hpos
  have hW := hhonest.due_waits hd
  refine ⟨hlevel, hW, ?_⟩
  have hle := hhonest.waiting hpos hW
  rw [if_pos hd] at hle
  have hrange := hhonest.range
  calc PROMO_THRESHOLD * getTimeSlice (c.sys.proc p).queueLevel
      = getTimeSlice (c.sys.proc p).queueLevel * PROMO_THRESHOLD := Int.mul_comm ..
    _ ≤ cInt ((c.sys.proc p).waitTimerTicks + 1) := hlong
    _ ≤ (c.sys.proc p).waitTimerTicks + 1 := cInt_le (by omega)
    _ ≤ c.waited p := hle

end Run

/-! ## A process at level 1 and a busy one at level 0 -/

/-- A process at level 1 whose counter is at `n`, in slot 0, and one at level 0, in slot 1.  All
CPUs are at the head of their loops. -/
def oneWaiting (n : ℤ) : State where
  proc := Function.update (Function.update (fun _ => Proc.init) 1 Proc.userinit) 0
    { Proc.init with
      state := .runnable
      pid := 2
      priority := 1
      queueLevel := 1
      maxTimeSlice := TIME_SLICE_1
      waitTimerTicks := n }
  cpu := fun _ => Cpu.boot
  nextpid := 3
  initproc := 1
  ticks := 0

/-- The process has waited for 79 clock ticks, and 79 visits have counted them. -/
def Waited.oneTickShort : Waited where
  sys := oneWaiting 79
  waited := fun _ => 79
  due := fun _ => false

instance (c : Waited) (l : Label) : Decidable (c.Paced l) :=
  decidable_of_iff ((∀ p, ScannedAt c.sys l p → 0 < (c.sys.proc p).queueLevel → c.due p = true) ∧
    ∀ p ∈ switchesTo c.sys l, 0 < (c.sys.proc p).queueLevel →
      (c.sys.proc p).waitTimerTicks = 0)
    ⟨fun ⟨hvisit, hdispatch⟩ => ⟨hvisit, hdispatch⟩, fun ⟨hvisit, hdispatch⟩ => ⟨hvisit, hdispatch⟩⟩

/-- At the eightieth tick the process is promoted. -/
theorem promotion_not_early_eighty :
    ∃ h c c', RunWith Waited.Steps Waited.Paced Waited.oneTickShort h c ∧
      c.step ⟨1, .promote⟩ = some c' ∧ (c'.sys.proc 0).queueLevel = 0 ∧ Waits c.sys 0 ∧
      PROMO_THRESHOLD * getTimeSlice 1 ≤ c.waited 0 := by
  have hexec : ((execWith Waited.step Waited.Paced Waited.oneTickShort [⟨0, .kerneltrap⟩]).bind
      fun c => (c.step ⟨1, .promote⟩).map fun c' =>
        (decide (c.Paced ⟨1, .promote⟩), (c.sys.proc 0).state, (c.sys.proc 0).queueLevel,
          (c'.sys.proc 0).queueLevel)) = some (true, .runnable, 1, 0) := by
    decide +kernel
  obtain ⟨c, hc, hrest⟩ := Option.bind_eq_some_iff.mp hexec
  obtain ⟨c', hc', hfields⟩ := Option.map_eq_some_iff.mp hrest
  simp only [Prod.mk.injEq, decide_eq_true_eq] at hfields
  obtain ⟨hpaced, hstate, hlevel, hlevel'⟩ := hfields
  have hstart : Waited.oneTickShort.Honest 0 :=
    ⟨fun hd => absurd hd (by simp [Waited.oneTickShort]),
      fun hd => absurd hd (by simp [Waited.oneTickShort]), by decide, fun _ _ => by decide,
      fun _ hW => absurd (by decide) hW⟩
  have hrun := run_of_execWith hc
  obtain ⟨-, hW, hle⟩ := (promotion_not_early 0).2 _ _ c ⟨1, .promote⟩ c' hstart hrun hpaced hc'
    (by rw [hstate]; decide) (by rw [hstate]; decide) (by rw [hlevel, hlevel']; decide)
  rw [hlevel] at hle
  exact ⟨_, c, c', hrun, hc', hlevel', hW, hle⟩

/-! ## Eighty passes between two clock ticks -/

/-- CPU 0 is at the head of its loop.  The process in slot 0 waits at level 1 with its counter at
`n`, the one in slot 1 is `RUNNABLE` at level 0, and there is no other. -/
structure Busy (s : State) (n : ℤ) : Prop where
  pc : (s.cpu 0).pc = .promote 0
  state : (s.proc 0).state = .runnable
  level : (s.proc 0).queueLevel = 1
  wait : (s.proc 0).waitTimerTicks = n
  other : (s.proc 1).state = .runnable
  other_level : (s.proc 1).queueLevel = 0
  rest : ∀ q, q ≠ 0 → q ≠ 1 → (s.proc q).state = .unused

theorem busy_oneWaiting (n : ℤ) : Busy (oneWaiting n) n where
  pc := rfl
  state := rfl
  level := rfl
  wait := rfl
  other := rfl
  other_level := rfl
  rest := fun q h0 h1 => by
    simp [oneWaiting, h0, h1, Proc.init]

section Busy

variable {s : State} {n : ℤ}

theorem Busy.promote_zero (hs : Busy s n) (hlo : 0 ≤ n) (hhi : n + 1 < 80) :
    (s.proc 0).promote = { s.proc 0 with waitTimerTicks := n + 1 } := by
  have hcount : cInt ((s.proc 0).waitTimerTicks + 1) = n + 1 := by
    rw [hs.wait]
    exact cInt_of_range (by omega) (by omega)
  rw [Proc.promote_of_lt hs.state, hcount]
  rw [hcount, hs.level]
  exact hhi

theorem Busy.chosen (hs : Busy s n) (hlo : 0 ≤ n) (hhi : n + 1 < 80) (cursors : Cursors) :
    (pass s.proc cursors).chosen = some 1 := by
  have helig : (promotionScan s.proc 1).eligible 0 := by
    rw [promotionScan_apply, Proc.eligible, decide_eq_true_eq]
    exact ⟨by rw [Proc.promote_state, hs.other], Proc.promote_queueLevel_zero hs.other_level⟩
  obtain ⟨p, hscan, hsel⟩ := selectionScan_of_eligible cursors helig
  obtain ⟨-, hchosen⟩ := pass_eq s.proc cursors
  rw [hchosen, hsel]
  obtain ⟨e, -, -, hp, -⟩ := scanLevel_eq_some hscan
  rw [promotionScan_apply, Proc.eligible, decide_eq_true_eq, Proc.promote_state] at hp
  -- the waiting process is at level 1, and the other slots are free
  have h0 : p ≠ 0 := by
    rintro rfl
    rw [hs.promote_zero hlo hhi] at hp
    exact absurd (hs.level.symm.trans hp.2) (by decide)
  have h1 : p = 1 := by
    by_contra h1
    exact absurd (hp.1.symm.trans (hs.rest p h0 h1)) (by simp)
  rw [h1]
  rfl

/-- **A pass without a clock tick**: the other process is dispatched, falls asleep, and a device
wakes it up. -/
theorem Busy.pass (hs : Busy s n) (hlo : 0 ≤ n) (hhi : n + 1 < 80) :
    ∃ h s', Run Steps s h s' ∧ Busy s' (n + 1) ∧ ∀ l ∈ h, ¬ ClockTick l := by
  obtain ⟨k, s₁, hexec, hproc, -, hpc, -, -⟩ := exec_pass hs.pc
  rw [hs.chosen hlo hhi] at hpc
  have htable : ∀ q, s₁.proc q = (s.proc q).promote := fun q => by rw [hproc, pass_table]
  obtain ⟨s₂, hs₂⟩ : ∃ s₂, s₂ = (s₁.updProc 1 Proc.dispatch).updCpu 0 fun c =>
    { c with proc := some 1, pc := .swtch, thread := .normal } := ⟨_, rfl⟩
  have hdispatch : step s₁ ⟨0, .dispatch⟩ = some s₂ := by
    show stepDispatch s₁ 0 = _
    rw [stepDispatch, hpc, hs₂]
    rfl
  obtain ⟨s₃, hs₃⟩ : ∃ s₃, s₃ = (s₂.updProc 1 fun x => x.sleep 1).updCpu 0 Cpu.descheduled :=
    ⟨_, rfl⟩
  have hsleep : step s₂ ⟨0, .sleep 1⟩ = some s₃ := by
    show stepGiveUp s₂ 0 .normal _ = _
    have hrunning : (s₂.cpu 0).running .normal = some 1 := by
      rw [hs₂, State.updCpu_cpu_self]
      rfl
    rw [stepGiveUp, hrunning, hs₃]
    rfl
  obtain ⟨s₄, hs₄⟩ : ∃ s₄, s₄ = s₃.updProc 1 fun x => x.wakeup 1 := ⟨_, rfl⟩
  have hcpu₃ : s₃.cpu 0 = (s₂.cpu 0).descheduled := by
    rw [hs₃, State.updCpu_cpu_self]
    rfl
  have hwakeup : step s₃ ⟨0, .wakeup 1 1⟩ = some s₄ := by
    show stepWakeup s₃ 0 1 1 = _
    rw [stepWakeup, hcpu₃,
      if_pos ⟨by simp [Cpu.interruptible, Cpu.descheduled], by simp [Cpu.descheduled]⟩, hs₄]
  have hrun := (((run_of_execWith hexec).step trivial hdispatch).step trivial hsleep).step trivial
    hwakeup
  have hother : ∀ q, q ≠ 1 → s₄.proc q = (s.proc q).promote := by
    intro q hq
    rw [hs₄, State.updProc_proc_of_ne _ _ hq, hs₃, State.updCpu_proc,
      State.updProc_proc_of_ne _ _ hq, hs₂, State.updCpu_proc, State.updProc_proc_of_ne _ _ hq,
      htable]
  have hone : s₄.proc 1 = ((s.proc 1).promote.dispatch.sleep 1).wakeup 1 := by
    rw [hs₄, State.updProc_proc_self, hs₃, State.updCpu_proc, State.updProc_proc_self, hs₂,
      State.updCpu_proc, State.updProc_proc_self, htable]
  have hzero := (hother 0 (by decide)).trans (hs.promote_zero hlo hhi)
  refine ⟨_, s₄, hrun, ⟨?_, ?_, ?_, ?_, ?_, ?_, fun q h0 h1 => ?_⟩, fun l hl => ?_⟩
  · rw [hs₄, State.updProc_cpu, hcpu₃]
    rfl
  · rw [hzero]
    exact hs.state
  · rw [hzero]
    exact hs.level
  · rw [hzero]
  · rw [hone, Proc.wakeup, if_pos ⟨Proc.sleep_state .., by rw [Proc.sleep, Proc.demote_chan]⟩]
  · rw [hone, Proc.wakeup_queueLevel, Proc.sleep_queueLevel]
    exact Proc.promote_queueLevel_zero hs.other_level
  · rw [hother q h1, Proc.promote_state, hs.rest q h0 h1]
  · rintro ⟨-, hact⟩
    simp only [List.mem_cons, List.mem_reverse, List.mem_append, List.mem_replicate] at hl
    rcases hl with rfl | rfl | rfl | ⟨-, rfl⟩ | ⟨-, rfl⟩ <;> simp at hact

theorem exists_run_busy (n : ℕ) (hn : n < 80) :
    ∃ h s, Run Steps (oneWaiting 0) h s ∧ Busy s n ∧ ∀ l ∈ h, ¬ ClockTick l := by
  induction n with
  | zero => exact ⟨[], _, .nil, busy_oneWaiting 0, by simp⟩
  | succ n ih =>
    obtain ⟨h, s, hrun, hs, hticks⟩ := ih (by omega)
    obtain ⟨h', s', hrun', hs', hticks'⟩ := hs.pass (by omega) (by omega)
    refine ⟨_, s', hrun.trans hrun', by exact_mod_cast hs', fun l hl => ?_⟩
    rcases List.mem_append.mp hl with hl | hl
    · exact hticks' l hl
    · exact hticks l hl

end Busy

/-- A run with its record of the time that processes have waited: without a clock tick, none. -/
theorem Waited.exists_run {s₀ s : State} {h : List Label} (hrun : Run Sched.Steps s₀ h s)
    (hticks : ∀ l ∈ h, ¬ ClockTick l) :
    ∃ c, Run Waited.Steps (Waited.start s₀) h c ∧ c.sys = s ∧ ∀ p, c.waited p = 0 := by
  induction hrun with
  | nil => exact ⟨_, .nil, rfl, fun _ => rfl⟩
  | @step h t u l _ _ hR ih =>
    obtain ⟨c, hc, rfl, hzero⟩ := ih fun l hl => hticks l (List.mem_cons_of_mem _ hl)
    have hstep : c.step l = (some u).map _ := congrArg (Option.map _) hR
    refine ⟨_, hc.step trivial hstep, rfl, fun p => ?_⟩
    dsimp only
    split
    · rw [if_neg (hticks l (List.mem_cons_self ..))]
      exact hzero p
    · rfl

/-- **A process is promoted without having waited for a single clock tick.** -/
theorem not_promotion_not_early :
    ¬ ∀ (s₀ : State) (p : Slot) (h : List Label) (c : Waited) (l : Label) (c' : Waited),
      (∀ q, (s₀.proc q).state ≠ .unused → (s₀.proc q).Bookkept) → 0 < (s₀.proc p).queueLevel →
      (s₀.proc p).waitTimerTicks = 0 → Run Waited.Steps (Waited.start s₀) h c →
      c.step l = some c' → (c.sys.proc p).state = .runnable →
      (c'.sys.proc p).queueLevel = (c.sys.proc p).queueLevel - 1 →
      PROMO_THRESHOLD * getTimeSlice (c.sys.proc p).queueLevel ≤ c.waited p := by
  intro hall
  obtain ⟨h, s, hrun, hs, hticks⟩ := exists_run_busy 79 (by decide)
  obtain ⟨c, hc, rfl, hzero⟩ := Waited.exists_run hrun hticks
  -- the eightieth visit
  have hstep : Sched.step c.sys ⟨0, .promote⟩ = some ((c.sys.updProc 0 Proc.promote).updCpu 0
      fun c => { c with pc := nextPromote 0 }) := by
    show stepPromote c.sys 0 = _
    rw [stepPromote, hs.pc]
  have hpromoted : (c.sys.proc 0).promote.queueLevel = (c.sys.proc 0).queueLevel - 1 := by
    rw [Proc.promote_of_le hs.state (by rw [hs.level]; decide)]
    · rfl
    · rw [hs.level, hs.wait]
      decide
  obtain ⟨c', hc'⟩ : ∃ c', c.step ⟨0, .promote⟩ = some c' ∧
      c'.sys.proc 0 = (c.sys.proc 0).promote := by
    refine ⟨_, by rw [Waited.step, hstep]; rfl, ?_⟩
    dsimp only
    rw [State.updCpu_proc, State.updProc_proc_self]
  have hle := hall (oneWaiting 0) 0 h c ⟨0, .promote⟩ c' (fun q hq => ?_) (by decide) rfl hc hc'.1
    hs.state (by rw [hc'.2, hpromoted])
  · rw [hzero, hs.level] at hle
    exact absurd hle (by decide)
  · by_cases h0 : q = 0
    · subst h0
      exact ⟨by decide, by decide, by decide, by decide⟩
    · by_cases h1 : q = 1
      · subst h1
        exact (Proc.bookkept_allocproc Proc.init 1).congr rfl rfl rfl
      · exact absurd ((busy_oneWaiting 0).rest q h0 h1) hq

end Sched
end Xv6
