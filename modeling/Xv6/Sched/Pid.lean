import Xv6.Sched.Counters

/-!
# Process ids

`allocpid` returns `nextpid++`, a C `int`, and every call of `allocproc` that finds a free slot takes
one, also when it then runs out of memory.  While the counter is positive every new pid is above all
pids in use.  After `2^31 - 1` allocations it wraps, and the pids it gives out are negative, then
zero, then those of processes that may still be there.
-/

namespace Xv6
namespace Sched

open Transition

/-- Pids identify processes. -/
structure PidsDistinct (s : State) : Prop where
  pos : ∀ p, (s.proc p).state ≠ .unused → 0 < (s.proc p).pid
  inj : ∀ p q, (s.proc p).state ≠ .unused → (s.proc q).state ≠ .unused →
    (s.proc p).pid = (s.proc q).pid → p = q
  /-- A pid other than 0 is found in at most one slot of the table, free slots included. -/
  only : ∀ p q, (s.proc p).pid ≠ 0 → (s.proc p).pid = (s.proc q).pid → p = q

/-- An allocation is made before the counter has wrapped, and a pick is fresh. -/
structure Numbered (s : State) (l : Label) : Prop where
  fresh : Fresh s l
  counter : ∀ np ok, l.act = .kforkAlloc np ok → 0 < s.nextpid

/-! ## What a step does to pids -/

variable {s s' : State} {l : Label}

/-- What becomes of a slot: it is free, or it is as free as before and keeps its pid, or it gets the
next pid. -/
theorem pid_of_step (hown : Owned s) (h : step s l = some s') (p : Slot) :
    (s'.proc p).state = .unused ∧ (s'.proc p).pid = 0 ∨
      ((s'.proc p).state = .unused ↔ (s.proc p).state = .unused) ∧
        (s'.proc p).pid = (s.proc p).pid ∨
      l.act = .kforkAlloc p true ∧ (s'.proc p).pid = s.nextpid ∧ (s'.proc p).state ≠ .unused := by
  have hrunning : ∀ t, (s.cpu l.cpu).running t = some p → (s.proc p).state ≠ .unused := by
    intro t ht
    rw [hown.state l.cpu p _ (.running (Cpu.proc_of_running ht).1)]
    decide
  have hdemote : ∀ x : Proc, x.demote.pid = x.pid := by
    intro x
    unfold Proc.demote
    split <;> rfl
  have hslot := slotMove_of_step h p
  generalize s'.proc p = x at hslot
  cases hslot with
  | same | parent | setkilled => exact Or.inr (Or.inl ⟨Iff.rfl, rfl⟩)
  | promote =>
    refine Or.inr (Or.inl ⟨by rw [Proc.promote_state], ?_⟩)
    unfold Proc.promote
    split
    · dsimp only
      split <;> rfl
    · rfl
  | dispatch _ hpc =>
    have hst := hown.state l.cpu p _ (.chosen hpc)
    exact Or.inr (Or.inl ⟨by simp [Proc.dispatch, hst], rfl⟩)
  | tick =>
    refine Or.inr (Or.inl ⟨by rw [Proc.tick_state], ?_⟩)
    unfold Proc.tick
    split <;> rfl
  | yield _ hp => exact Or.inr (Or.inl ⟨by simp [hrunning _ hp], hdemote _⟩)
  | sleep chan _ hp => exact Or.inr (Or.inl ⟨by simp [hrunning _ hp], hdemote _⟩)
  | exit status _ hp => exact Or.inr (Or.inl ⟨by simp [hrunning _ hp], hdemote _⟩)
  | alloc q hact => exact Or.inr (Or.inr ⟨hact, rfl, by simp [Proc.inherit, Proc.allocproc]⟩)
  | allocFail => exact Or.inl ⟨rfl, rfl⟩
  | runnable _ hth =>
    have hst := hown.state l.cpu p _ (.forking (Or.inr hth))
    exact Or.inr (Or.inl ⟨by simp [hst], rfl⟩)
  | free => exact Or.inl ⟨rfl, rfl⟩
  | wakeup chan =>
    refine Or.inr (Or.inl ⟨?_, ?_⟩)
    · rcases Proc.wakeup_state (s.proc p) chan with hst | ⟨hst, hst'⟩
      · rw [hst]
      · simp [hst, hst']
    · unfold Proc.wakeup
      split <;> rfl
  | kkill pid =>
    refine Or.inr (Or.inl ⟨?_, ?_⟩)
    · rcases Proc.kkill_state (s.proc p) pid with hst | ⟨hst, hst'⟩
      · rw [hst]
      · simp [hst, hst']
    · unfold Proc.kkill
      split
      · dsimp only
        split <;> rfl
      · rfl

theorem nextpid_of_step (h : step s l = some s') :
    (∀ np ok, l.act ≠ .kforkAlloc np ok) ∧ s'.nextpid = s.nextpid ∨
      ∃ np ok, l.act = .kforkAlloc np ok ∧ s'.nextpid = cInt (s.nextpid + 1) := by
  obtain ⟨j, a⟩ := l
  have hmove := move_of_step h
  have hclock : (s.clockintr j).nextpid = s.nextpid := by
    unfold State.clockintr
    split <;> rfl
  cases hmove with
  | alloc p np => exact Or.inr ⟨np, true, rfl, rfl⟩
  | allocFail p np => exact Or.inr ⟨np, false, rfl, rfl⟩
  | tick | idle | yield => exact Or.inl ⟨by simp, hclock⟩
  | _ => exact Or.inl ⟨by simp, rfl⟩

/-! ## Runs -/

/-- The invariant: pids are below the counter as long as it has not wrapped. -/
structure BelowCounter (s : State) : Prop where
  range : s.nextpid ≤ 2147483647
  free : ∀ p, (s.proc p).state = .unused → (s.proc p).pid = 0
  pos : ∀ p, (s.proc p).state ≠ .unused → 0 < (s.proc p).pid
  lt_nextpid : 0 < s.nextpid → ∀ p, (s.proc p).state ≠ .unused → (s.proc p).pid < s.nextpid
  inj : ∀ p q, (s.proc p).state ≠ .unused → (s.proc q).state ≠ .unused →
    (s.proc p).pid = (s.proc q).pid → p = q

theorem BelowCounter.pidsDistinct (hs : BelowCounter s) : PidsDistinct s where
  pos := hs.pos
  inj := hs.inj
  only := fun p q hne heq => by
    have hused : ∀ r, (s.proc r).pid ≠ 0 → (s.proc r).state ≠ .unused :=
      fun r hr hst => hr (hs.free r hst)
    exact hs.inj p q (hused p hne) (hused q (heq ▸ hne)) heq

theorem belowCounter_boot : BelowCounter boot := by
  have hinit : (boot.proc 0).pid = 1 := rfl
  have hother : ∀ p, p ≠ 0 → boot.proc p = Proc.init := fun p hp => by simp [boot, hp]
  have hused : ∀ p, (boot.proc p).state ≠ .unused → p = 0 := by
    intro p hp
    by_contra hne
    exact hp (by rw [hother p hne]; rfl)
  refine ⟨by decide, fun p hp => ?_, fun p hp => ?_, fun _ p hp => ?_, fun p q hp hq _ => ?_⟩
  · by_cases hne : p = 0
    · subst hne
      exact absurd hp (by decide)
    · rw [hother p hne]
      rfl
  · rw [hused p hp, hinit]
    decide
  · rw [hused p hp, hinit]
    decide
  · rw [hused p hp, hused q hq]

theorem BelowCounter.nextpid_of_step (hs : BelowCounter s) (hl : Numbered s l)
    (h : step s l = some s') : s'.nextpid ≤ 2147483647 ∧ (0 < s'.nextpid →
      s.nextpid ≤ s'.nextpid ∧ ∀ np ok, l.act = .kforkAlloc np ok → s.nextpid < s'.nextpid) := by
  have hrange := hs.range
  rcases Sched.nextpid_of_step h with ⟨hact, hnext⟩ | ⟨np, ok, hact, hnext⟩
  · refine ⟨by omega, fun _ => ⟨by omega, fun np ok h' => absurd h' (hact np ok)⟩⟩
  · have hpos := hl.counter np ok hact
    by_cases hmax : s.nextpid = 2147483647
    · have hwrap : s'.nextpid = -2147483648 := by
        rw [hnext, hmax]
        decide
      refine ⟨by omega, fun h' => absurd h' (by omega)⟩
    · rw [cInt_of_range (by omega) (by omega)] at hnext
      exact ⟨by omega, fun _ => ⟨by omega, fun _ _ _ => by omega⟩⟩

/-- **One step keeps pids below the counter.** -/
theorem BelowCounter.of_step (hs : BelowCounter s) (hown : Owned s) (hl : Numbered s l)
    (h : step s l = some s') : BelowCounter s' := by
  have hslot := pid_of_step hown h
  obtain ⟨hrange, hcounter⟩ := hs.nextpid_of_step hl h
  refine ⟨hrange, fun p hp => ?_, fun p hp => ?_, fun hpos p hp => ?_, fun p q hp hq heq => ?_⟩
  · rcases hslot p with ⟨-, hpid⟩ | ⟨hst, hpid⟩ | ⟨-, -, hst⟩
    · exact hpid
    · rw [hpid]
      exact hs.free p (hst.mp hp)
    · exact absurd hp hst
  · rcases hslot p with ⟨hst, -⟩ | ⟨hst, hpid⟩ | ⟨hact, hpid, -⟩
    · exact absurd hst hp
    · rw [hpid]
      exact hs.pos p fun h' => hp (hst.mpr h')
    · rw [hpid]
      exact hl.counter p true hact
  · obtain ⟨hle, hlt⟩ := hcounter hpos
    rcases hslot p with ⟨hst, -⟩ | ⟨hst, hpid⟩ | ⟨hact, hpid, -⟩
    · exact absurd hst hp
    · have hp' : (s.proc p).state ≠ .unused := fun h' => hp (hst.mpr h')
      rw [hpid]
      by_cases hnext : 0 < s.nextpid
      · have hbelow := hs.lt_nextpid hnext p hp'
        omega
      · -- the counter had wrapped: no allocation, so it has not come back
        rcases Sched.nextpid_of_step h with ⟨-, hsame⟩ | ⟨np, ok, hact, -⟩
        · omega
        · exact absurd (hl.counter np ok hact) hnext
    · rw [hpid]
      exact hlt p true hact
  · -- a slot that gets the next pid is above all others
    have hnew : ∀ r r', l.act = .kforkAlloc r true → (s'.proc r).pid = s.nextpid →
        (s'.proc r').state ≠ .unused → (s'.proc r).pid = (s'.proc r').pid → r = r' := by
      intro r r' hact hpid hr' heq
      rcases hslot r' with ⟨hst, -⟩ | ⟨hst, hpid'⟩ | ⟨hact', -, -⟩
      · exact absurd hst hr'
      · have hbelow := hs.lt_nextpid (hl.counter r true hact) r' fun h' => hr' (hst.mpr h')
        omega
      · rw [hact] at hact'
        simpa using hact'
    rcases hslot p with ⟨hst, -⟩ | ⟨hst, hpid⟩ | ⟨hact, hpid, -⟩
    · exact absurd hst hp
    · rcases hslot q with ⟨hst', -⟩ | ⟨hst', hpid'⟩ | ⟨hact, hpid', -⟩
      · exact absurd hst' hq
      · exact hs.inj p q (fun h' => hp (hst.mpr h')) (fun h' => hq (hst'.mpr h'))
          (by rw [← hpid, ← hpid', heq])
      · exact (hnew q p hact hpid' hp heq.symm).symm
    · exact hnew p q hact hpid hq heq

/-- **Pids are positive and distinct** in every run in which no scan picks a process that another
CPU has picked and not yet dispatched, and no process is allocated after `nextpid` has wrapped. -/
theorem pids_distinct {h : List Label} (hrun : RunWith Steps Numbered boot h s) :
    PidsDistinct s := by
  have hinv : Owned s ∧ BelowCounter s :=
    hrun.invariant (I := fun s => Owned s ∧ BelowCounter s) ⟨owned_boot, belowCounter_boot⟩
      fun _ _ _ ⟨hown, hbelow⟩ hl hstep =>
        ⟨hown.of_step hl.fresh hstep, hbelow.of_step hown hl hstep⟩
  exact hinv.2.pidsDistinct

/-- The action takes a pid. -/
def Act.takesPid : Act → Bool
  | .kforkAlloc _ _ => true
  | _ => false

instance (s : State) (l : Label) : Decidable (Numbered s l) :=
  decidable_of_iff (Fresh s l ∧ (l.act.takesPid → 0 < s.nextpid))
    ⟨fun ⟨hfresh, hpid⟩ => ⟨hfresh, fun np ok hact => hpid (by rw [hact]; rfl)⟩,
      fun ⟨hfresh, hpid⟩ => ⟨hfresh, fun htakes => by
        cases hact : l.act with
        | kforkAlloc np ok => exact hpid np ok hact
        | _ => exact absurd htakes (by simp [hact, Act.takesPid])⟩⟩

/-- `init` has forked a child. -/
theorem pids_distinct_fork :
    ∃ h s, RunWith Steps Numbered boot h s ∧ (s.proc 1).pid = 2 ∧ PidsDistinct s := by
  have hexec : ((execWith step Numbered boot forkActs).map fun s => (s.proc 1).pid) = some 2 := by
    decide +kernel
  obtain ⟨s, hs, hpid⟩ := Option.map_eq_some_iff.mp hexec
  have hrun := run_of_execWith hs
  exact ⟨_, s, hrun, hpid, pids_distinct hrun⟩

/-! ## Two thousand million failed forks -/

/-- CPU 0 runs `init`, slot 1 is free, and `n` is the next pid. -/
structure Forking (s : State) (n : ℤ) : Prop where
  running : (s.cpu 0).running .normal = some 0
  free : (s.proc 1).state = .unused
  next : s.nextpid = n

theorem Forking.fail {n : ℤ} (hs : Forking s n) :
    ∃ s', step s ⟨0, .kforkAlloc 1 false⟩ = some s' ∧ Forking s' (cInt (n + 1)) := by
  have hstep : step s ⟨0, .kforkAlloc 1 false⟩ = some ({ s with
      nextpid := cInt (s.nextpid + 1) }.updProc 1 fun x => (x.allocproc s.nextpid).freeproc) := by
    show stepKforkAlloc s 0 1 false = _
    rw [stepKforkAlloc, hs.running]
    simp [hs.free]
  refine ⟨_, hstep, hs.running, ?_, ?_⟩
  · rw [State.updProc_proc_self]
    rfl
  · rw [← hs.next]
    rfl

theorem exists_run_forking (n : ℕ) (hn : (n : ℤ) + 2 ≤ 2147483647) :
    ∃ h s, Run Steps boot h s ∧ Forking s (n + 2) := by
  induction n with
  | zero =>
    have hexec : ((exec step boot (scanActs 0 ++ [⟨0, .dispatch⟩])).map fun s =>
        ((s.cpu 0).running .normal, (s.proc 1).state, s.nextpid)) = some (some 0, .unused, 2) := by
      decide +kernel
    obtain ⟨s, hs, hfields⟩ := Option.map_eq_some_iff.mp hexec
    simp only [Prod.mk.injEq] at hfields
    obtain ⟨hrunning, hfree, hnext⟩ := hfields
    exact ⟨_, s, run_of_execWith hs, hrunning, hfree, hnext⟩
  | succ n ih =>
    obtain ⟨h, s, hrun, hs⟩ := ih (by omega)
    obtain ⟨s', hstep, hs'⟩ := hs.fail
    rw [cInt_of_range (by omega) (by omega)] at hs'
    refine ⟨_, s', hrun.step trivial hstep, ?_⟩
    rw [show ((n + 1 : ℕ) : ℤ) + 2 = n + 2 + 1 by omega]
    exact hs'

/-- **A process gets a negative pid.** -/
theorem not_pids_distinct : ¬ ∀ h s, Run Steps boot h s → PidsDistinct s := by
  intro hall
  obtain ⟨h, s, hrun, hs⟩ := exists_run_forking 2147483645 (by decide)
  -- the counter wraps, and the next fork succeeds
  obtain ⟨s₁, hstep₁, hs₁⟩ := hs.fail
  have hneg : s₁.nextpid = -2147483648 := by
    rw [hs₁.next]
    decide
  have hstep₂ : step s₁ ⟨0, .kforkAlloc 1 true⟩ = some (({ s₁ with
      nextpid := cInt (s₁.nextpid + 1) }.updProc 1 fun x =>
        (x.allocproc s₁.nextpid).inherit (s₁.proc 0)).updCpu 0
          fun c => { c with thread := .forked 1 }) := by
    show stepKforkAlloc s₁ 0 1 true = _
    rw [stepKforkAlloc, hs₁.running]
    simp [hs₁.free]
  have hpids := hall _ _ ((hrun.step trivial hstep₁).step trivial hstep₂)
  have hpos := hpids.pos 1
  rw [State.updCpu_proc, State.updProc_proc_self] at hpos
  replace hpos : 0 < s₁.nextpid := hpos (by simp [Proc.inherit, Proc.allocproc])
  omega

end Sched
end Xv6
