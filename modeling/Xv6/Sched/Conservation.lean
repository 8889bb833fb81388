import Xv6.Sched.Bookkeeping
import Xv6.Sched.Demotion

/-!
# Does a scan find the process that is there?

The selection scan visits the levels in ascending order, and in each level the slots from the
cursor on, with all locks released in between.  The promotion scans of the other CPUs move
processes the other way, from level `q` to level `q - 1`.  A process that is promoted after the
scan has passed its slot in level `q - 1`, and before it comes to it in level `q`, is missed, though
it is `RUNNABLE` all the time.

The visits of a scan are numbered: the slot `checked` places after the cursor of level `q` is visit
`scanIndex q checked`, and `visitOf` is the visit at which a process at a given level is found.  The
scan finds a process as long as that visit is still ahead of it.
-/

namespace Xv6
namespace Sched

open Transition

/-! ## The visits of a scan -/

/-- The number of visits before the one that looks at level `q`, `checked` places after the
cursor. -/
def scanIndex (q checked : ℕ) : ℕ := q * NPROC + checked

/-- The visit at which slot `p` is looked at in level `q`. -/
def visitOf (cursors : Cursors) (q : ℕ) (p : Slot) : ℕ := scanIndex q (cyclicDistance (cursors q) p)

/-- The next visit of a CPU, if its selection scan is going on. -/
def Cpu.visit? (c : Cpu) : Option ℕ :=
  match c.pc with
  | .select q checked => some (scanIndex q checked)
  | _ => none

/-- The number of steps of CPU `j` in a run. -/
def ownSteps (j : CpuId) (h : List Label) : ℕ := (h.filter fun l => l.cpu = j).length

/-- A moment of a scan of CPU `j` at which `p` is `RUNNABLE`. -/
def Persists (j : CpuId) (p : Slot) (s : State) (_ : Label) : Prop :=
  (s.cpu j).visit?.isSome ∧ (s.proc p).state = .runnable

instance (j : CpuId) (p : Slot) (s : State) (l : Label) : Decidable (Persists j p s l) :=
  inferInstanceAs (Decidable (_ ∧ _))

/-- If the step is a promotion of `p`, the scan of CPU `j` has not yet come to the visit at which
it would find `p` at its new level. -/
def NotBehind (j : CpuId) (p : Slot) (s : State) (l : Label) : Prop :=
  l.act = .promote → (s.cpu l.cpu).pc = .promote p →
    (s.proc p).promote.queueLevel ≠ (s.proc p).queueLevel → ∀ n ∈ (s.cpu j).visit?,
      n ≤ visitOf (s.cpu j).lastQueuedProc (s.proc p).promote.queueLevel.toNat p

instance (j : CpuId) (p : Slot) (s : State) (l : Label) : Decidable (NotBehind j p s l) :=
  inferInstanceAs (Decidable (_ → _ → _ → _))

/-! ## Ahead of the scan -/

variable {s s' : State} {j : CpuId} {p : Slot}

/-- The scan of CPU `j` stands before visit `n`, and `p`, if it is `RUNNABLE`, is found at that
visit or later. -/
structure AheadOf (s : State) (j : CpuId) (p : Slot) (q checked : ℕ) : Prop where
  pc : (s.cpu j).pc = .select q checked
  level_lt : q < NQUEUES
  checked_lt : checked < NPROC
  ahead : (s.proc p).state = .runnable → (s.proc p).Bookkept ∧
    scanIndex q checked ≤ visitOf (s.cpu j).lastQueuedProc (s.proc p).queueLevel.toNat p

theorem Proc.Bookkept.toNat_lt {x : Proc} (hx : x.Bookkept) : x.queueLevel.toNat < NQUEUES := by
  have hlt : x.queueLevel < 4 := hx.level_lt
  show x.queueLevel.toNat < 4
  omega

theorem visitOf_lt (cursors : Cursors) {q : ℕ} (hq : q < NQUEUES) :
    visitOf cursors q p < NQUEUES * NPROC := by
  have hd := cyclicDistance_lt (cursors q) p
  simp only [visitOf, scanIndex, NPROC, NQUEUES] at hq hd ⊢
  omega

theorem eq_of_visitOf {cursors : Cursors} {q r checked : ℕ} (hc : checked < NPROC)
    (h : scanIndex q checked = visitOf cursors r p) :
    q = r ∧ slotAt (cursors q + checked) = p := by
  have hd := cyclicDistance_lt (cursors r) p
  have hqr : q = r ∧ checked = cyclicDistance (cursors r) p := by
    simp only [visitOf, scanIndex, NPROC] at h hc hd
    omega
  obtain ⟨rfl, rfl⟩ := hqr
  exact ⟨rfl, slotAt_cyclicDistance ..⟩

theorem AheadOf.succ_le {q checked : ℕ} (hs : AheadOf s j p q checked)
    (hrunnable : (s.proc p).state = .runnable)
    (hmiss : ¬ (s.proc (slotAt ((s.cpu j).lastQueuedProc q + checked))).eligible q) :
    scanIndex q checked + 1 ≤ visitOf (s.cpu j).lastQueuedProc (s.proc p).queueLevel.toNat p := by
  obtain ⟨hbooks, hle⟩ := hs.ahead hrunnable
  have hnonneg := hbooks.level_nonneg
  refine Nat.lt_of_le_of_ne hle fun heq => hmiss ?_
  obtain ⟨hq, hp⟩ := eq_of_visitOf hs.checked_lt heq
  rw [hp, Proc.eligible, decide_eq_true_eq]
  exact ⟨hrunnable, by omega⟩

theorem nextSelect_of_lt {q checked : ℕ} (hc : checked < NPROC)
    (hlt : scanIndex q checked + 1 < NQUEUES * NPROC) :
    ∃ q' checked', nextSelect q checked = .select q' checked' ∧ q' < NQUEUES ∧
      checked' < NPROC ∧ scanIndex q' checked' = scanIndex q checked + 1 := by
  simp only [scanIndex, NPROC, NQUEUES] at hlt hc ⊢
  unfold nextSelect
  by_cases hc1 : checked + 1 < NPROC
  · rw [if_pos hc1]
    exact ⟨q, checked + 1, rfl, by omega, hc1, by omega⟩
  · have hq1 : q + 1 < NQUEUES := by
      simp only [NPROC, NQUEUES] at hc1 ⊢
      omega
    rw [if_neg hc1, if_pos hq1]
    simp only [NPROC] at hc1
    exact ⟨q + 1, 0, rfl, hq1, by omega, by omega⟩

/-- A step of CPU `j` in its scan: it chooses a process, or goes on to the next visit. -/
theorem AheadOf.own_step {a : Act} {q checked : ℕ} (hs : AheadOf s j p q checked)
    (hrunnable : (s.proc p).state = .runnable) (h : step s ⟨j, a⟩ = some s') :
    (∃ p', (s'.cpu j).pc = .dispatch p') ∨
      ∃ q' checked', AheadOf s' j p q' checked' ∧
        scanIndex q' checked' = scanIndex q checked + 1 := by
  have hmove := move_of_step h
  have hpc := hs.pc
  have hswtch : ∀ t, (s.cpu j).running t = none := by
    intro t
    rw [Cpu.running, hpc]
    simp
  have hint : (s.cpu j).interruptible = false := by simp [Cpu.interruptible, hpc]
  cases hmove with
  | pick q' checked' p' => exact Or.inl ⟨p', by rw [State.updCpu_cpu_self]⟩
  | skip q' checked' hpc' hmiss =>
    obtain ⟨rfl, rfl⟩ := Pc.select.inj (hpc.symm.trans hpc')
    right
    have hahead := hs.succ_le hrunnable hmiss
    have hbooks := (hs.ahead hrunnable).1
    have hlt := visitOf_lt (p := p) (s.cpu j).lastQueuedProc hbooks.toNat_lt
    obtain ⟨r, c, hnext, hr, hc, hindex⟩ :=
      nextSelect_of_lt hs.checked_lt (Nat.lt_of_le_of_lt hahead hlt)
    refine ⟨r, c, ⟨?_, hr, hc, fun _ => ⟨hbooks, ?_⟩⟩, hindex⟩
    · rw [State.updCpu_cpu_self]
      exact hnext
    · rw [State.updCpu_cpu_self, State.updCpu_proc, hindex]
      exact hahead
  | promote _ h' => exact absurd (hpc.symm.trans h') (by simp)
  | dispatch _ h' => exact absurd (hpc.symm.trans h') (by simp)
  | tick _ h' => exact absurd (hint.symm.trans h') (by simp)
  | idle h' => exact absurd (hint.symm.trans h') (by simp)
  | wakeup _ _ h' => exact absurd (hint.symm.trans h') (by simp)
  | yield _ h' => exact absurd ((hswtch _).symm.trans h') (by simp)
  | sleep _ _ h' => exact absurd ((hswtch _).symm.trans h') (by simp)
  | exit _ _ h' => exact absurd ((hswtch _).symm.trans h') (by simp)
  | alloc _ _ h' => exact absurd ((hswtch _).symm.trans h') (by simp)
  | allocFail _ _ h' => exact absurd ((hswtch _).symm.trans h') (by simp)
  | parent _ _ h' => exact absurd (hpc.symm.trans h') (by simp)
  | runnable _ h' => exact absurd (hpc.symm.trans h') (by simp)
  | reparent _ h' => exact absurd ((hswtch _).symm.trans h') (by simp)
  | free _ _ h' => exact absurd ((hswtch _).symm.trans h') (by simp)
  | kkill _ _ _ h' => exact absurd ((hswtch _).symm.trans h') (by simp)
  | setkilled _ h' => exact absurd ((hswtch _).symm.trans h') (by simp)

/-- The books of a process are in order and its level is that of `x`. -/
def Proc.SameLevel (x y : Proc) : Prop := y.Bookkept ∧ y.queueLevel = x.queueLevel

/-- A process that is `RUNNABLE` before and after a step keeps its level, unless the step promotes
it. -/
theorem level_of_step {l : Label} (h : step s l = some s') (hrunnable : (s.proc p).state = .runnable)
    (hrunnable' : (s'.proc p).state = .runnable) (hbooks : (s.proc p).Bookkept) :
    (s.proc p).SameLevel (s'.proc p) ∨
      l.act = .promote ∧ (s.cpu l.cpu).pc = .promote p ∧ s'.proc p = (s.proc p).promote := by
  have hslot := slotMove_of_step h p
  generalize s'.proc p = x at hslot hrunnable' ⊢
  cases hslot with
  | same => exact Or.inl ⟨hbooks, rfl⟩
  | promote hact hpc => exact Or.inr ⟨hact, hpc, rfl⟩
  | dispatch => exact absurd hrunnable' (by simp [Proc.dispatch])
  | tick => exact Or.inl ⟨hbooks.tick, Proc.tick_queueLevel _⟩
  | yield => exact Or.inl ⟨hbooks.yield, Proc.yield_queueLevel _⟩
  | sleep chan => exact absurd hrunnable' (by simp)
  | exit status => exact absurd hrunnable' (by simp)
  | alloc q _ _ hun => exact absurd (hrunnable.symm.trans hun) (by simp)
  | allocFail _ hun => exact absurd (hrunnable.symm.trans hun) (by simp)
  | parent => exact Or.inl ⟨hbooks.congr rfl rfl rfl, rfl⟩
  | runnable => exact Or.inl ⟨hbooks.congr rfl rfl rfl, rfl⟩
  | free _ hz => exact absurd (hrunnable.symm.trans hz) (by simp)
  | wakeup chan => exact Or.inl ⟨hbooks.wakeup chan, Proc.wakeup_queueLevel _ chan⟩
  | kkill pid => exact Or.inl ⟨hbooks.kkill pid, Proc.kkill_queueLevel _ pid⟩
  | setkilled => exact Or.inl ⟨hbooks.congr rfl rfl rfl, rfl⟩

/-- A step of another CPU leaves `p` ahead of the scan, unless it takes it behind. -/
theorem AheadOf.other_step {l : Label} {q checked : ℕ} (hs : AheadOf s j p q checked)
    (hl : j ≠ l.cpu) (hrunnable : (s.proc p).state = .runnable) (hbehind : NotBehind j p s l)
    (h : step s l = some s') : AheadOf s' j p q checked := by
  have hcpu : s'.cpu j = s.cpu j := (move_of_step h).frame hl
  obtain ⟨hbooks, hle⟩ := hs.ahead hrunnable
  refine ⟨by rw [hcpu, hs.pc], hs.level_lt, hs.checked_lt, fun hrunnable' => ?_⟩
  rw [hcpu]
  rcases level_of_step h hrunnable hrunnable' hbooks with ⟨hbooks', hlevel⟩ | ⟨hact, hpc, heq⟩
  · rw [hlevel]
    exact ⟨hbooks', hle⟩
  · rw [heq]
    refine ⟨hbooks.promote, ?_⟩
    by_cases hsame : (s.proc p).promote.queueLevel = (s.proc p).queueLevel
    · rw [hsame]
      exact hle
    · refine hbehind hact hpc hsame (scanIndex q checked) ?_
      rw [Cpu.visit?, hs.pc]
      rfl

/-! ## Runs -/

/-- Where a scan with `p` ahead of it can be after `n` of its own steps: it has chosen a process, or
it is at visit `n`. -/
def ScanOf (j : CpuId) (p : Slot) (n : ℕ) (s : State) : Prop :=
  (∃ p', (s.cpu j).pc = .dispatch p') ∨ ∃ q checked, AheadOf s j p q checked ∧ scanIndex q checked = n

theorem ScanOf.of_step {l : Label} {n : ℕ} (hs : ScanOf j p n s) (hpersists : Persists j p s l)
    (hbehind : NotBehind j p s l) (h : step s l = some s') :
    ScanOf j p (n + if l.cpu = j then 1 else 0) s' := by
  obtain ⟨hscanning, hrunnable⟩ := hpersists
  rcases hs with ⟨p', hp'⟩ | ⟨q, checked, hahead, hn⟩
  · rw [Cpu.visit?, hp'] at hscanning
    exact absurd hscanning (by simp)
  · by_cases hl : l.cpu = j
    · obtain ⟨k, a⟩ := l
      obtain rfl : k = j := hl
      rw [if_pos rfl]
      rcases hahead.own_step hrunnable h with hchosen | ⟨q', checked', hahead', hindex⟩
      · exact Or.inl hchosen
      · exact Or.inr ⟨q', checked', hahead', by rw [hindex, hn]⟩
    · rw [if_neg hl]
      exact Or.inr ⟨q, checked, hahead.other_step (Ne.symm hl) hrunnable hbehind h, hn⟩

theorem ownSteps_cons (j : CpuId) (l : Label) (h : List Label) :
    ownSteps j (l :: h) = ownSteps j h + if l.cpu = j then 1 else 0 := by
  unfold ownSteps
  rw [List.filter_cons]
  by_cases hl : l.cpu = j
  · simp [hl]
  · simp [hl]

/-- **A scan does not miss a process that no promotion takes behind it.**  From any state in which
CPU `j` begins a selection scan and the books of `p` are in order, in every interleaving in which
`p` is `RUNNABLE` as long as the scan goes on, and is promoted only to a visit that the scan has not
made yet, the scan chooses a process: it is at visit `n` after `n` of its own steps or has chosen a
process before, and it has chosen one when all visits have been made. -/
theorem conservation {s₀ : State} {h : List Label} (hstart : (s₀.cpu j).pc = .select 0 0)
    (hbooks : (s₀.proc p).Bookkept)
    (hrun : RunWith Steps (fun s l => Persists j p s l ∧ NotBehind j p s l) s₀ h s) :
    ((∃ p', (s.cpu j).pc = .dispatch p') ∨ ∃ q checked, q < NQUEUES ∧ checked < NPROC ∧
        (s.cpu j).pc = .select q checked ∧ scanIndex q checked = ownSteps j h) ∧
      (ownSteps j h = NQUEUES * NPROC → ∃ p', (s.cpu j).pc = .dispatch p') := by
  have hscan : ScanOf j p (ownSteps j h) s := by
    refine hrun.invariant_history (I := fun h s => ScanOf j p (ownSteps j h) s) ?_
      fun h t l v ht hC hstep => ?_
    · exact Or.inr ⟨0, 0, ⟨hstart, by decide, by decide, fun _ => ⟨hbooks, Nat.zero_le _⟩⟩, rfl⟩
    · rw [ownSteps_cons]
      exact ht.of_step hC.1 hC.2 hstep
  rcases hscan with hchosen | ⟨q, checked, hahead, hn⟩
  · exact ⟨Or.inl hchosen, fun _ => hchosen⟩
  · have hq := hahead.level_lt
    have hc := hahead.checked_lt
    refine ⟨Or.inr ⟨q, checked, hq, hc, hahead.pc, hn⟩, fun hall => ?_⟩
    rw [← hn] at hall
    simp only [scanIndex, NQUEUES, NPROC] at hall hq hc
    omega

/-! ## A process at level 1 that is about to be promoted -/

/-- A process at level 1 that has waited for 79 passes. -/
def Proc.almostPromoted : Proc :=
  { Proc.init with
    state := .runnable
    pid := 2
    priority := 1
    queueLevel := 1
    maxTimeSlice := TIME_SLICE_1
    waitTimerTicks := 79 }

/-- It is alone in the table; CPU 0 begins a selection scan, the others are at the head of their
loops. -/
def aboutToPromote : State where
  proc := Function.update (fun _ => Proc.init) 0 Proc.almostPromoted
  cpu := fun k => { Cpu.boot with pc := if k = 0 then .select 0 0 else .promote 0 }
  nextpid := 3
  initproc := 0
  ticks := 0

theorem Proc.almostPromoted_bookkept : Proc.almostPromoted.Bookkept :=
  ⟨by decide, by decide, by decide, by decide⟩

/-- CPU 1 promotes the process before the scan has made its first visit; the scan finds it. -/
theorem conservation_promoted :
    ∃ h s, RunWith Steps (fun s l => Persists 0 0 s l ∧ NotBehind 0 0 s l) aboutToPromote h s ∧
      (s.proc 0).queueLevel = 0 ∧ ((∃ p', (s.cpu 0).pc = .dispatch p') ∨
        ∃ q checked, q < NQUEUES ∧ checked < NPROC ∧ (s.cpu 0).pc = .select q checked ∧
          scanIndex q checked = ownSteps 0 h) := by
  have hexec : ((execWith step (fun s l => Persists 0 0 s l ∧ NotBehind 0 0 s l) aboutToPromote
      [⟨1, .promote⟩, ⟨0, .select⟩]).map fun s => (s.proc 0).queueLevel) = some 0 := by
    decide +kernel
  obtain ⟨s, hs, hlevel⟩ := Option.map_eq_some_iff.mp hexec
  have hrun := run_of_execWith hs
  exact ⟨_, s, hrun, hlevel, (conservation rfl Proc.almostPromoted_bookkept hrun).1⟩

/-- CPU 0 scans level 0, then CPU 1 promotes the process to that level, then CPU 0 scans the
others. -/
def missedActs : List Label :=
  List.replicate NPROC ⟨0, .select⟩ ++ [⟨1, .promote⟩] ++
    List.replicate ((NQUEUES - 1) * NPROC) ⟨0, .select⟩

/-- **The scan misses a process that is `RUNNABLE` all the time**, and the CPU waits for an
interrupt. -/
theorem not_conservation :
    ¬ ∀ (s₀ : State) (j : CpuId) (p : Slot) (h : List Label) (s : State),
      (∀ q, (s₀.proc q).state ≠ .unused → (s₀.proc q).Bookkept) → (s₀.cpu j).pc = .select 0 0 →
      RunWith Steps (Persists j p) s₀ h s → (s.proc p).state = .runnable →
      (s.cpu j).pc ≠ .promote 0 := by
  intro hall
  have hexec : ((execWith step (Persists 0 0) aboutToPromote missedActs).map fun s =>
      ((s.proc 0).state, (s.cpu 0).pc)) = some (.runnable, .promote 0) := by
    decide +kernel
  obtain ⟨s, hs, hfields⟩ := Option.map_eq_some_iff.mp hexec
  obtain ⟨hrunnable, hpc⟩ := Prod.mk.inj hfields
  refine hall aboutToPromote 0 0 _ s (fun q hq => ?_) rfl (run_of_execWith hs) hrunnable hpc
  by_cases hq0 : q = 0
  · subst hq0
    exact Proc.almostPromoted_bookkept
  · exact absurd (by simp [aboutToPromote, hq0, Proc.init]) hq

end Sched
end Xv6
