import Xv6.Sched.Exclusion
import Xv6.Sched.Pass

/-!
# Round robin within a level

On one CPU, a process that is dispatched at level `q` is not dispatched there again before every other
process that has been waiting at level `q` since then.

A dispatch leaves the cursor of the level behind the process, so that every other slot is nearer to the
cursor than the process itself.  The scan of the level does not go past a process that waits there, and the
cursor only moves behind what the scan finds.  So the waiting process stays nearer to the cursor
(`Ahead`), until it is found.
-/

namespace Xv6
namespace Sched

open Transition

variable {s s' : State} {j : CpuId} {p p' : Slot} {q : ℕ}

/-! ## The property -/

/-- Only CPU `j` takes steps. -/
def Only (j : CpuId) (_ : State) (l : Label) : Prop := l.cpu = j

/-- Only CPU `j` takes steps, and whenever it selects, `p` is `RUNNABLE` at level `q`. -/
def WaitsAt (j : CpuId) (p : Slot) (q : ℕ) (s : State) (l : Label) : Prop :=
  l.cpu = j ∧ (l.act = .select → (s.proc p).eligible q)

instance (j : CpuId) (s : State) (l : Label) : Decidable (Only j s l) :=
  inferInstanceAs (Decidable (l.cpu = j))

instance (j : CpuId) (p : Slot) (q : ℕ) (s : State) (l : Label) : Decidable (WaitsAt j p q s l) :=
  inferInstanceAs (Decidable (_ ∧ _))

/-- CPU `j` dispatches `p` at level `q`. -/
structure Dispatches (j : CpuId) (p : Slot) (q : ℕ) (s s' : State) : Prop where
  chosen : (s.cpu j).pc = .dispatch p
  level : (s.proc p).queueLevel = q
  step : Steps s ⟨j, .dispatch⟩ s'

/-! ## What a step does to the scan -/

/-- What a step of CPU `j` does to its scan: it picks a process, it goes on to the next slot, or it leaves
the cursors alone and is not in the middle of a level. -/
inductive ScanStep (s : State) (j : CpuId) : Act → State → Prop
  | pick {s' : State} (q checked : ℕ) (p : Slot) : (s.cpu j).pc = .select q checked →
      p = slotAt ((s.cpu j).lastQueuedProc q + checked) → (s.proc p).eligible q → s'.proc = s.proc →
      (s'.cpu j).pc = .dispatch p →
      (s'.cpu j).lastQueuedProc = Function.update (s.cpu j).lastQueuedProc q ((p.val + 1) % NPROC) →
      ScanStep s j .select s'
  | skip {s' : State} (q checked : ℕ) : (s.cpu j).pc = .select q checked →
      ¬ (s.proc (slotAt ((s.cpu j).lastQueuedProc q + checked))).eligible q → s'.proc = s.proc →
      (s'.cpu j).pc = nextSelect q checked → (s'.cpu j).lastQueuedProc = (s.cpu j).lastQueuedProc →
      ScanStep s j .select s'
  | other {a : Act} {s' : State} : (∀ p, (s'.cpu j).pc ≠ .dispatch p) →
      (∀ q checked, (s'.cpu j).pc = .select q checked → checked = 0) →
      (s'.cpu j).lastQueuedProc = (s.cpu j).lastQueuedProc → ScanStep s j a s'

/-- A step that leaves the CPU in a thread or at the head of the loop, where it was. -/
theorem ScanStep.of_cpu {a : Act} {c : Cpu} (hcpu : s'.cpu j = c) (hpc : c.pc = .swtch ∨ c.pc = .promote 0)
    (hcursors : c.lastQueuedProc = (s.cpu j).lastQueuedProc) : ScanStep s j a s' := by
  refine .other ?_ ?_ (by rw [hcpu, hcursors])
  · intro p hp
    rw [hcpu] at hp
    rcases hpc with h | h <;> exact nomatch h.symm.trans hp
  · intro q checked hp
    rw [hcpu] at hp
    rcases hpc with h | h <;> exact nomatch h.symm.trans hp

theorem Cpu.pc_of_interruptible {c : Cpu} (h : c.interruptible) : c.pc = .swtch ∨ c.pc = .promote 0 := by
  simpa [Cpu.interruptible] using h

theorem Cpu.pc_of_running {c : Cpu} {t : Thread} (h : c.running t = some p) :
    c.pc = .swtch ∨ c.pc = .promote 0 := .inl (Cpu.proc_of_running h).2.1

theorem nextPromote_eq_select {i : Slot} {checked : ℕ} (h : nextPromote i = .select q checked) :
    checked = 0 := by
  unfold nextPromote at h
  split at h
  · exact nomatch h
  · exact (Pc.select.inj h).2.symm

/-- **What a step does to the scan.** -/
theorem scanStep_of_step {l : Label} (h : step s l = some s') : ScanStep s l.cpu l.act s' := by
  have hmove := move_of_step h
  generalize l.cpu = j, l.act = a at hmove
  cases hmove with
  | promote i hpc =>
    refine .other (fun p hp => ?_) (fun q checked hp => ?_) ?_
    · rw [State.updCpu_cpu_self] at hp
      revert hp
      simp only [nextPromote]
      split <;> simp
    · rw [State.updCpu_cpu_self] at hp
      exact nextPromote_eq_select hp
    · rw [State.updCpu_cpu_self]
      rfl
  | pick q checked p hpc hp helig =>
    exact .pick q checked p hpc hp helig rfl (by rw [State.updCpu_cpu_self]) (by rw [State.updCpu_cpu_self])
  | skip q checked hpc hskip =>
    exact .skip q checked hpc hskip rfl (by rw [State.updCpu_cpu_self]) (by rw [State.updCpu_cpu_self])
  | dispatch p => exact .of_cpu (State.updCpu_cpu_self ..) (.inl rfl) rfl
  | tick p hint => exact .of_cpu (congrFun (State.clockintr_cpu s j) j) (Cpu.pc_of_interruptible hint) rfl
  | idle hint => exact .of_cpu (congrFun (State.clockintr_cpu s j) j) (Cpu.pc_of_interruptible hint) rfl
  | yield p =>
    refine .of_cpu (State.updCpu_cpu_self ..) (.inr rfl) ?_
    rw [State.updProc_cpu, State.clockintr_cpu]
    rfl
  | sleep p => exact .of_cpu (State.updCpu_cpu_self ..) (.inr rfl) rfl
  | exit p => exact .of_cpu (State.updCpu_cpu_self ..) (.inr rfl) rfl
  | alloc p np hp => exact .of_cpu (State.updCpu_cpu_self ..) (Cpu.pc_of_running (c := s.cpu j) hp) rfl
  | allocFail p np hp => exact .of_cpu rfl (Cpu.pc_of_running hp) rfl
  | parent p np hpc => exact .of_cpu (State.updCpu_cpu_self ..) (.inl hpc) rfl
  | runnable np hpc => exact .of_cpu (State.updCpu_cpu_self ..) (.inl hpc) rfl
  | reparent p hp => exact .of_cpu (State.updCpu_cpu_self ..) (Cpu.pc_of_running (c := s.cpu j) hp) rfl
  | free p pp hp => exact .of_cpu rfl (Cpu.pc_of_running hp) rfl
  | wakeup p chan hint => exact .of_cpu rfl (Cpu.pc_of_interruptible hint) rfl
  | kkill p p' pid hp => exact .of_cpu rfl (Cpu.pc_of_running hp) rfl
  | setkilled p hp => exact .of_cpu rfl (Cpu.pc_of_running hp) rfl

/-! ## A dispatch moves the cursor behind the process -/

/-- What CPU `j` is about to dispatch was picked at a level whose cursor is behind it now. -/
def CursorBehind (j : CpuId) (s : State) : Prop :=
  ∀ p, (s.cpu j).pc = .dispatch p → ∃ q, (s.proc p).eligible q ∧
    (s.cpu j).lastQueuedProc q = (p.val + 1) % NPROC

theorem CursorBehind.of_step {l : Label} (hl : l.cpu = j) (h : step s l = some s') : CursorBehind j s' := by
  have hscan := scanStep_of_step h
  rw [hl] at hscan
  intro p hp
  generalize l.act = a at hscan
  cases hscan with
  | pick q checked p' hpc hp' helig hproc hpc' hcursors =>
    obtain rfl : p' = p := Pc.dispatch.inj (hpc'.symm.trans hp)
    refine ⟨q, by rw [hproc]; exact helig, ?_⟩
    rw [hcursors, Function.update_self]
  | skip q checked hpc hskip hproc hpc' => exact absurd (hpc'.symm.trans hp) (nextSelect_ne_dispatch q checked p)
  | other hdispatch => exact absurd hp (hdispatch p)

theorem cursorBehind_of_run {start : State} {h : List Label} (hstart : (start.cpu j).pc = .promote 0)
    (hrun : RunWith Steps (Only j) start h s) : CursorBehind j s := by
  refine hrun.invariant (fun p hp => nomatch hstart.symm.trans hp) fun t l v _ hl hstep => ?_
  exact .of_step hl hstep

/-! ## The waiting process stays ahead -/

/-- The other slots are nearer to the cursor behind `p` than `p`. -/
theorem cyclicDistance_behind (hne : p' ≠ p) :
    cyclicDistance ((p.val + 1) % NPROC) p' < cyclicDistance ((p.val + 1) % NPROC) p := by
  have hp : p.val < 64 := p.isLt
  have hp' : p'.val < 64 := p'.isLt
  have hval : p'.val ≠ p.val := fun hv => hne (Fin.ext hv)
  simp only [cyclicDistance, NPROC]
  omega

/-- A cursor that moves behind a slot found before `p'` keeps the order of `p'` and `p`. -/
theorem cyclicDistance_advance {start e : ℕ} (he : e < cyclicDistance start p')
    (hlt : cyclicDistance start p' < cyclicDistance start p) :
    cyclicDistance (((slotAt (start + e)).val + 1) % NPROC) p' <
      cyclicDistance (((slotAt (start + e)).val + 1) % NPROC) p := by
  have hp : p.val < 64 := p.isLt
  have hp' : p'.val < 64 := p'.isLt
  simp only [slotAt, cyclicDistance, NPROC] at he hlt ⊢
  omega

/-- The scan of level `q` comes to `p'` before `p`, and has not yet gone past `p'`. -/
structure Ahead (j : CpuId) (p' p : Slot) (q : ℕ) (s : State) : Prop where
  order : cyclicDistance ((s.cpu j).lastQueuedProc q) p' < cyclicDistance ((s.cpu j).lastQueuedProc q) p
  scan : ∀ checked, (s.cpu j).pc = .select q checked →
    checked ≤ cyclicDistance ((s.cpu j).lastQueuedProc q) p'
  chosen : ∀ x, (s.cpu j).pc = .dispatch x → (s.proc x).queueLevel = q → x ≠ p
  waiting : (s.cpu j).pc ≠ .dispatch p'

/-- `p'` has been found. -/
def Found (j : CpuId) (p' : Slot) (q : ℕ) (s : State) : Prop :=
  (s.cpu j).pc = .dispatch p' ∧ (s.proc p').queueLevel = q

/-- The step dispatches `p`. -/
def DispatchOf (j : CpuId) (p : Slot) (s : State) (l : Label) : Prop :=
  l.act = .dispatch ∧ (s.cpu j).pc = .dispatch p

theorem act_of_dispatch {l : Label} (hl : l.cpu = j) (hpc : (s.cpu j).pc = .dispatch p)
    (h : step s l = some s') : l.act = .dispatch := by
  have hmove := move_of_step h
  rw [hl] at hmove
  have hint : ¬ (s.cpu j).interruptible := by simp [Cpu.interruptible, hpc]
  have hrun : ∀ t p, (s.cpu j).running t ≠ some p := by
    intro t p hp
    exact nomatch hpc.symm.trans (Cpu.proc_of_running hp).2.1
  generalize l.act = a at hmove
  cases hmove with
  | promote i hi => exact nomatch hpc.symm.trans hi
  | pick q checked p hi => exact nomatch hpc.symm.trans hi
  | skip q checked hi => exact nomatch hpc.symm.trans hi
  | dispatch => rfl
  | tick p hi => exact absurd hi hint
  | idle hi => exact absurd hi hint
  | yield p hp => exact absurd hp (hrun _ p)
  | sleep p chan hp => exact absurd hp (hrun _ p)
  | exit p status hp => exact absurd hp (hrun _ p)
  | alloc p np hp => exact absurd hp (hrun _ p)
  | allocFail p np hp => exact absurd hp (hrun _ p)
  | parent p np hi => exact nomatch hpc.symm.trans hi
  | runnable np hi => exact nomatch hpc.symm.trans hi
  | reparent p hp => exact absurd hp (hrun _ p)
  | free p pp hp => exact absurd hp (hrun _ p)
  | wakeup p chan hi => exact absurd hi hint
  | kkill p p' pid hp => exact absurd hp (hrun _ p)
  | setkilled p hp => exact absurd hp (hrun _ p)

theorem Proc.eligible_iff {x : Proc} : x.eligible q = true ↔ x.state = .runnable ∧ x.queueLevel = q := by
  rw [Proc.eligible, decide_eq_true_eq]

/-- **One step.**  The waiting process stays ahead, or is found. -/
theorem Ahead.of_step {l : Label} (ha : Ahead j p' p q s) (hl : WaitsAt j p' q s l)
    (h : step s l = some s') : Ahead j p' p q s' ∨ Found j p' q s' := by
  have hscan := scanStep_of_step h
  rw [hl.1] at hscan
  have hwaits := hl.2
  generalize l.act = a at hscan hwaits
  cases hscan with
  | pick q' checked x hpc hx helig hproc hpc' hcursors =>
    have hlevel := (Proc.eligible_iff.mp helig).2
    by_cases hq : q' = q
    · subst hq
      have hle := ha.scan checked hpc
      by_cases hxp : x = p'
      · subst hxp
        exact .inr ⟨hpc', by rw [hproc]; exact hlevel⟩
      · -- the scan finds a slot before `p'`
        have hlt : checked < cyclicDistance ((s.cpu j).lastQueuedProc q') p' := by
          refine lt_of_le_of_ne hle fun heq => hxp ?_
          rw [hx, heq, slotAt_cyclicDistance]
        have horder := cyclicDistance_advance hlt ha.order
        rw [← hx] at horder
        refine .inl ⟨?_, fun c hc => (nomatch hpc'.symm.trans hc), fun y hy _ => ?_,
          fun hp' => hxp (Pc.dispatch.inj (hpc'.symm.trans hp'))⟩
        · rw [hcursors, Function.update_self]
          exact horder
        · obtain rfl : x = y := Pc.dispatch.inj (hpc'.symm.trans hy)
          rintro rfl
          have hdist : cyclicDistance ((s.cpu j).lastQueuedProc q') x = checked := by
            rw [hx]
            exact cyclicDistance_slotAt (hlt.trans (cyclicDistance_lt _ _))
          exact absurd ha.order (by omega)
    · refine .inl ⟨?_, fun c hc => (nomatch hpc'.symm.trans hc), fun y hy hyq => ?_, fun hp' => ?_⟩
      · rw [hcursors, Function.update_of_ne (Ne.symm hq)]
        exact ha.order
      · obtain rfl : x = y := Pc.dispatch.inj (hpc'.symm.trans hy)
        rw [hproc, hlevel] at hyq
        exact absurd (Int.ofNat.inj hyq) hq
      · obtain rfl : x = p' := Pc.dispatch.inj (hpc'.symm.trans hp')
        have hlevel' := (Proc.eligible_iff.mp (hwaits rfl)).2
        exact absurd (Int.ofNat.inj (hlevel.symm.trans hlevel')) hq
  | skip q' checked hpc hskip hproc hpc' hcursors =>
    refine .inl ⟨by rw [hcursors]; exact ha.order, fun c hc => ?_, fun y hy =>
      absurd (hpc'.symm.trans hy) (nextSelect_ne_dispatch q' checked y), fun hp' =>
      absurd (hpc'.symm.trans hp') (nextSelect_ne_dispatch q' checked p')⟩
    have hnext := hpc'.symm.trans hc
    rw [hcursors]
    unfold nextSelect at hnext
    split at hnext
    · -- the next slot of the same level, which was not `p'`
      obtain ⟨rfl, rfl⟩ := Pc.select.inj hnext
      have hle := ha.scan checked hpc
      have hne : checked ≠ cyclicDistance ((s.cpu j).lastQueuedProc q') p' := by
        rintro rfl
        rw [slotAt_cyclicDistance] at hskip
        exact hskip (hwaits rfl)
      omega
    · split at hnext
      · obtain ⟨-, rfl⟩ := Pc.select.inj hnext
        exact Nat.zero_le _
      · exact nomatch hnext
  | other hdispatch hselect hcursors =>
    refine .inl ⟨by rw [hcursors]; exact ha.order, fun c hc => ?_, fun y hy => absurd hy (hdispatch y),
      hdispatch p'⟩
    rw [hselect q c hc]
    exact Nat.zero_le _

/-- Along a run without a dispatch of `p'`, the waiting process stays ahead, or is found. -/
theorem Ahead.of_run {h : List Label} (ha : Ahead j p' p q s)
    (hrun : RunWith Steps (fun t l => WaitsAt j p' q t l ∧ ¬ DispatchOf j p' t l) s h s') :
    Ahead j p' p q s' ∨ Found j p' q s' := by
  refine hrun.invariant (I := fun t => Ahead j p' p q t ∨ Found j p' q t) (.inl ha) ?_
  intro t l v hinv hl hstep
  rcases hinv with hahead | hfound
  · exact hahead.of_step hl.1 hstep
  · exact absurd ⟨act_of_dispatch hl.1.1 hfound.1 hstep, hfound.1⟩ hl.2

/-- A dispatch of `p` at level `q` puts every other slot ahead of it. -/
theorem Dispatches.ahead (hd : Dispatches j p q s s') (hbehind : CursorBehind j s) (hne : p' ≠ p) :
    Ahead j p' p q s' := by
  obtain ⟨q', helig, hcursor⟩ := hbehind p hd.chosen
  obtain rfl : q = q' := Int.ofNat.inj (hd.level.symm.trans (Proc.eligible_iff.mp helig).2)
  have hmove := move_of_step hd.step
  have hcpu : (s'.cpu j).pc = .swtch ∧ (s'.cpu j).lastQueuedProc = (s.cpu j).lastQueuedProc := by
    cases hmove
    rw [State.updCpu_cpu_self]
    exact ⟨rfl, rfl⟩
  refine ⟨?_, fun c hc => (nomatch hcpu.1.symm.trans hc), fun x hx => (nomatch hcpu.1.symm.trans hx),
    fun hp' => (nomatch hcpu.1.symm.trans hp')⟩
  rw [hcpu.2, hcursor]
  exact cyclicDistance_behind hne

/-- **Round robin.**  On one CPU, between two dispatches of `p` at level `q`, every other process that is
`RUNNABLE` at level `q` whenever the scheduler selects is dispatched at level `q`. -/
theorem round_robin {start s₁ s₁' s₂ s₂' : State} {h h' : List Label}
    (hstart : (start.cpu j).pc = .promote 0) (hrun : RunWith Steps (Only j) start h s₁)
    (hfirst : Dispatches j p q s₁ s₁') (hbetween : RunWith Steps (WaitsAt j p' q) s₁' h' s₂)
    (hsecond : Dispatches j p q s₂ s₂') (hne : p' ≠ p) :
    ∃ h₁ t t' h₂, RunWith Steps (WaitsAt j p' q) s₁' h₁ t ∧ Dispatches j p' q t t' ∧
      RunWith Steps (WaitsAt j p' q) t' h₂ s₂ ∧ h' = h₂ ++ ⟨j, .dispatch⟩ :: h₁ := by
  have hahead := hfirst.ahead (cursorBehind_of_run hstart hrun) hne
  rcases hbetween.all_or_first (fun t l => ¬ DispatchOf j p' t l) with hall | hex
  · -- without a dispatch of `p'` there is no second dispatch of `p`
    rcases hahead.of_run hall with ha | hfound
    · exact absurd rfl (ha.chosen p hsecond.chosen hsecond.level)
    · exact absurd (Pc.dispatch.inj (hfound.1.symm.trans hsecond.chosen)) hne
  · obtain ⟨h₁, t, ⟨k, a⟩, t', h₂, hrun₁, hwaits, hdisp, hstep, hrun₂, heq⟩ := hex
    obtain ⟨rfl, hpc⟩ := not_not.mp hdisp
    obtain rfl : k = j := hwaits.1
    have hlevel : (t.proc p').queueLevel = q := by
      rcases hahead.of_run hrun₁ with ha | hfound
      · exact absurd hpc ha.waiting
      · exact hfound.2
    exact ⟨h₁, t, t', h₂, hrun₁.mono fun _ _ hC => hC.1, ⟨hpc, hlevel, hstep⟩, hrun₂, heq⟩

/-- After its first dispatch `init` forks and is preempted; the child runs until it is preempted, and the
scan comes round to `init`. -/
def childTurnActs : List Label :=
  [⟨0, .kforkAlloc 1 true⟩, ⟨0, .kforkParent⟩, ⟨0, .kforkRunnable⟩, ⟨0, .yield⟩] ++ scanActs 0 ++
    [⟨0, .dispatch⟩, ⟨0, .yield⟩] ++ scanActs 0 ++ List.replicate 62 ⟨0, .select⟩

theorem round_robin_child : ∃ s s' : State, Dispatches 0 0 0 s s' ∧
    ∃ h₁ t t', RunWith Steps (WaitsAt 0 1 0) s' h₁ t ∧ Dispatches 0 1 0 t t' := by
  have hexec : ((execWith step (Only 0) boot (scanActs 0)).bind fun s₁ =>
      (step s₁ ⟨0, .dispatch⟩).bind fun s₁' => (execWith step (WaitsAt 0 1 0) s₁' childTurnActs).bind
        fun s₂ => (step s₂ ⟨0, .dispatch⟩).map fun _ =>
          ((s₁.cpu 0).pc, (s₁.proc 0).queueLevel, (s₂.cpu 0).pc, (s₂.proc 0).queueLevel)) =
      some (.dispatch 0, 0, .dispatch 0, 0) := by
    decide +kernel
  obtain ⟨s₁, hs₁, hrest⟩ := Option.bind_eq_some_iff.mp hexec
  obtain ⟨s₁', hs₁', hrest⟩ := Option.bind_eq_some_iff.mp hrest
  obtain ⟨s₂, hs₂, hrest⟩ := Option.bind_eq_some_iff.mp hrest
  obtain ⟨s₂', hs₂', hfields⟩ := Option.map_eq_some_iff.mp hrest
  simp only [Prod.mk.injEq] at hfields
  obtain ⟨hpc₁, hlevel₁, hpc₂, hlevel₂⟩ := hfields
  have hfirst : Dispatches 0 0 0 s₁ s₁' := ⟨hpc₁, hlevel₁, hs₁'⟩
  obtain ⟨h₁, t, t', -, hrun, hd, -, -⟩ := round_robin
    (show (boot.cpu 0).pc = .promote 0 from rfl) (run_of_execWith hs₁) hfirst
    (run_of_execWith hs₂) ⟨hpc₂, hlevel₂, hs₂'⟩ (show (1 : Slot) ≠ 0 by decide)
  exact ⟨s₁, s₁', hfirst, h₁, t, t', hrun, hd⟩

end Sched
end Xv6
