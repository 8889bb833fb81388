import Xv6.Sched.Exclusion
import Xv6.Sched.Pass

/-!
# The books of the feedback queue

The level of a process is stored three times, as `queue_level`, as `priority` and, through
`get_time_slice`, as `max_time_slice`.  `Proc.Bookkept` says that the three agree and that the level
is one of those the selection scan visits.

The setting is that of runs in which no process is current on two CPUs.  That does not make every
dispatch find its process `RUNNABLE`: a CPU may have picked a process long ago, and find it asleep,
or dead, or forked anew.  What the switch then does depends on the saved context of the slot.  A
thread that has called `kexit` comes back from `sched()` to `panic("zombie exit")`, with its lock
held for ever, so such a dispatch is not completed; `Threads` adds to the state which slots have a
context that can be resumed.  `freeproc` leaves `max_time_slice` as it is, and it is only thanks to
that panic that a freed slot with a stale slice does not run.
-/

namespace Xv6
namespace Sched

open Transition

/-! ## The books of one process -/

/-- The three copies of the level agree, and the level is in range. -/
structure Proc.Bookkept (x : Proc) : Prop where
  level_nonneg : 0 ≤ x.queueLevel
  level_lt : x.queueLevel < NQUEUES
  priority : x.priority = x.queueLevel
  slice : x.maxTimeSlice = getTimeSlice x.queueLevel

namespace Proc

variable {x y : Proc}

theorem Bookkept.congr (hx : x.Bookkept) (hlevel : y.queueLevel = x.queueLevel)
    (hpriority : y.priority = x.priority) (hslice : y.maxTimeSlice = x.maxTimeSlice) :
    y.Bookkept where
  level_nonneg := hlevel ▸ hx.level_nonneg
  level_lt := hlevel ▸ hx.level_lt
  priority := by rw [hpriority, hlevel, hx.priority]
  slice := by rw [hslice, hlevel, hx.slice]

theorem bookkept_enterLevel (x : Proc) {l : ℤ} (hlo : 0 ≤ l) (hhi : l < NQUEUES) :
    (x.enterLevel l).Bookkept := ⟨hlo, hhi, rfl, rfl⟩

theorem Bookkept.promote (hx : x.Bookkept) : x.promote.Bookkept := by
  have hlt := hx.level_lt
  unfold Proc.promote
  split
  · dsimp only
    split
    · rename_i hup
      have hpos : 0 < x.queueLevel := hup.2
      exact bookkept_enterLevel _ (show 0 ≤ x.queueLevel - 1 by omega)
        (show x.queueLevel - 1 < NQUEUES by omega)
    · exact hx.congr rfl rfl rfl
  · exact hx

theorem Bookkept.demote (hx : x.Bookkept) : x.demote.Bookkept := by
  have hnonneg := hx.level_nonneg
  unfold Proc.demote
  split
  · rename_i hdown
    have hlt := hdown.2.2
    exact bookkept_enterLevel _ (by omega) (by omega)
  · exact hx

theorem Bookkept.dispatch (hx : x.Bookkept) : x.dispatch.Bookkept := hx.congr rfl rfl rfl

theorem Bookkept.yield (hx : x.Bookkept) : x.yield.Bookkept :=
  Bookkept.demote (hx.congr rfl rfl rfl)

theorem Bookkept.sleep (hx : x.Bookkept) (chan : ℕ) : (x.sleep chan).Bookkept :=
  Bookkept.demote (hx.congr rfl rfl rfl)

theorem Bookkept.exit (hx : x.Bookkept) (status : ℤ) : (x.exit status).Bookkept :=
  Bookkept.demote (hx.congr rfl rfl rfl)

theorem Bookkept.tick (hx : x.Bookkept) : x.tick.Bookkept := by
  unfold Proc.tick
  split
  · exact hx.congr rfl rfl rfl
  · exact hx

theorem Bookkept.wakeup (hx : x.Bookkept) (chan : ℕ) : (x.wakeup chan).Bookkept := by
  unfold Proc.wakeup
  split
  · exact hx.congr rfl rfl rfl
  · exact hx

theorem Bookkept.kkill (hx : x.Bookkept) (pid : ℤ) : (x.kkill pid).Bookkept := by
  unfold Proc.kkill
  split
  · dsimp only
    split
    · exact hx.congr rfl rfl rfl
    · exact hx.congr rfl rfl rfl
  · exact hx

theorem bookkept_allocproc (y : Proc) (pid : ℤ) : (y.allocproc pid).Bookkept :=
  ⟨le_rfl, show (0 : ℤ) < NQUEUES by decide, rfl, rfl⟩

theorem bookkept_allocproc_freeproc (y : Proc) (pid : ℤ) :
    (y.allocproc pid).freeproc.Bookkept :=
  ⟨le_rfl, show (0 : ℤ) < NQUEUES by decide, rfl, rfl⟩

theorem Bookkept.inherit (hx : x.Bookkept) (y : Proc) : (y.inherit x).Bookkept :=
  ⟨hx.level_nonneg, hx.level_lt, hx.priority, rfl⟩

/-! The sections that leave `p->parent` alone. -/

theorem demote_parent (x : Proc) : x.demote.parent = x.parent := by
  unfold Proc.demote
  split <;> rfl

theorem promote_parent (x : Proc) : x.promote.parent = x.parent := by
  unfold Proc.promote
  split
  · dsimp only
    split <;> rfl
  · rfl

theorem tick_parent (x : Proc) : x.tick.parent = x.parent := by
  unfold Proc.tick
  split <;> rfl

theorem wakeup_parent (x : Proc) (chan : ℕ) : (x.wakeup chan).parent = x.parent := by
  unfold Proc.wakeup
  split <;> rfl

theorem kkill_parent (x : Proc) (pid : ℤ) : (x.kkill pid).parent = x.parent := by
  unfold Proc.kkill
  split
  · dsimp only
    split <;> rfl
  · rfl

end Proc

/-! ## Threads that can be resumed -/

/-- The system with, for each slot, whether `swtch` to its saved context comes back to a point
that releases `p->lock`. -/
structure Threads where
  sys : State
  resumable : Slot → Bool

/-- The process whose context the step switches to. -/
def switchesTo (s : State) (l : Label) : Option Slot :=
  match l.act, (s.cpu l.cpu).pc with
  | .dispatch, .dispatch p => some p
  | _, _ => none

/-- The contexts after a step.  `allocproc` points the context at `forkret`; if it runs out of
memory it may not get that far, and this counts as resumable too.  A thread that has called
`kexit` is not. -/
def Threads.contexts (c : Threads) (l : Label) : Slot → Bool :=
  match l.act, (c.sys.cpu l.cpu).proc with
  | .kforkAlloc np _, _ => Function.update c.resumable np true
  | .kexitZombie _, some p => Function.update c.resumable p false
  | _, _ => c.resumable

/-- One section; a switch to a thread that has exited ends in `panic`. -/
def Threads.step (c : Threads) (l : Label) : Option Threads :=
  if ∀ p ∈ switchesTo c.sys l, c.resumable p then
    (Sched.step c.sys l).map fun s' => { sys := s', resumable := c.contexts l }
  else none

/-- After boot the first process is the only one with a context. -/
def Threads.boot : Threads where
  sys := Sched.boot
  resumable := fun p => decide (p = 0)

/-- The step relation. -/
abbrev Threads.Steps : Threads → Label → Threads → Prop := ofStep Threads.step

/-- Each process is run by at most one CPU. -/
def Threads.AtMostOne (c : Threads) (_ : Label) : Prop := Exclusive c.sys

theorem exclusive_iff (s : State) :
    Exclusive s ↔ ∀ j k, j ≠ k → (s.cpu j).proc = none ∨ (s.cpu j).proc ≠ (s.cpu k).proc := by
  constructor
  · intro hs j k hjk
    cases hj : (s.cpu j).proc with
    | none => exact Or.inl rfl
    | some p => exact Or.inr fun hk => hjk (hs j k p hj hk.symm)
  · intro hs j k p hj hk
    by_contra hjk
    rcases hs j k hjk with h | h
    · exact absurd (hj.symm.trans h) (by simp)
    · exact h (hj.trans hk.symm)

instance (c : Threads) (l : Label) : Decidable (c.AtMostOne l) :=
  decidable_of_iff _ (exclusive_iff c.sys).symm

/-- A CPU is between the sections of `kfork` for the child `np`. -/
def Cpu.Forking (c : Cpu) (np : Slot) : Prop := c.thread = .forked np ∨ c.thread = .linked np

/-- A slot: its books are in order, for a free slot as well if its context can be resumed, and the
context of a zombie cannot. -/
structure Proc.Sound (x : Proc) (resumable : Bool) : Prop where
  books : x.state ≠ .unused ∨ resumable → x.Bookkept
  zombie : x.state = .zombie → resumable = false

/-- A process that can be current: neither free nor dead. -/
def Proc.Live (x : Proc) : Prop := x.state ≠ .unused ∧ x.state ≠ .zombie

/-- A CPU: its cursors are in the table, its current process is alive, and the child it is forking
is not free and has no other parent, so that nobody else can free it. -/
structure Cpu.Sound (c : Cpu) (t : Table) : Prop where
  cursors : ∀ q, c.lastQueuedProc q < NPROC
  current : ∀ p, c.proc = some p → (t p).Live
  child : ∀ np, c.Forking np → (t np).state ≠ .unused
  only_parent : ∀ np, c.Forking np → ∀ p, (t np).parent = some p → c.proc = some p

/-- What holds along the runs. -/
structure Sound (c : Threads) : Prop where
  slot : ∀ p, (c.sys.proc p).Sound (c.resumable p)
  cpu : ∀ j, (c.sys.cpu j).Sound c.sys.proc
  one_child : ∀ j k np, (c.sys.cpu j).Forking np → (c.sys.cpu k).Forking np → j = k

/-! ## What a step keeps -/

section Step

variable {c c' : Threads} {j : CpuId} {q : Slot}

theorem Cpu.sound_of_not_forking {cpu : Cpu} {t : Table} (hcursors : ∀ r, cpu.lastQueuedProc r < NPROC)
    (hcurrent : ∀ p, cpu.proc = some p → (t p).Live) (hidle : ∀ np, ¬ cpu.Forking np) :
    cpu.Sound t where
  cursors := hcursors
  current := hcurrent
  child := fun np h => absurd h (hidle np)
  only_parent := fun np h => absurd h (hidle np)

theorem Cpu.not_forking_descheduled (cpu : Cpu) (np : Slot) : ¬ cpu.descheduled.Forking np := by
  intro h
  rcases h with h | h <;> exact absurd h (by simp [Cpu.descheduled])

theorem Cpu.not_forking {cpu : Cpu} (h : cpu.thread = .normal ∨ cpu.thread = .exiting)
    (np : Slot) : ¬ cpu.Forking np := by
  intro hf
  rcases h with h | h <;> rcases hf with hf | hf <;> exact absurd (h.symm.trans hf) (by simp)

/-- A step of CPU `j` that changes slot `q` alone owes what concerns the two. -/
theorem Sound.upd (hc : Sound c) {x : Proc} (cpu : Cpu)
    (hproc : c'.sys.proc = Function.update c.sys.proc q x)
    (hcpu : c'.sys.cpu = Function.update c.sys.cpu j cpu)
    (hres : ∀ p, p ≠ q → c'.resumable p = c.resumable p) (hq : x.Sound (c'.resumable q))
    (hcurrent : ∀ k, k ≠ j → (c.sys.cpu k).proc = some q → x.Live)
    (hchild : ∀ k, k ≠ j → (c.sys.cpu k).Forking q → x.state ≠ .unused ∧
      ∀ p, x.parent = some p → (c.sys.cpu k).proc = some p)
    (hj : cpu.Sound (Function.update c.sys.proc q x))
    (hone : ∀ k np, k ≠ j → (c.sys.cpu k).Forking np → ¬ cpu.Forking np) : Sound c' where
  slot := fun p => by
    rw [hproc, Function.update_apply]
    split
    · rename_i hp
      exact hp ▸ hq
    · rename_i hp
      rw [hres p hp]
      exact hc.slot p
  cpu := fun k => by
    rw [hcpu, hproc]
    by_cases hk : k = j
    · subst hk
      rw [Function.update_self]
      exact hj
    · have hck := hc.cpu k
      rw [Function.update_of_ne hk]
      refine ⟨hck.cursors, fun p hp => ?_, fun np hnp => ?_, fun np hnp p hp => ?_⟩
      · by_cases hpq : p = q
        · subst hpq
          rw [Function.update_self]
          exact hcurrent k hk hp
        · rw [Function.update_of_ne hpq]
          exact hck.current p hp
      · by_cases hnq : np = q
        · subst hnq
          rw [Function.update_self]
          exact (hchild k hk hnp).1
        · rw [Function.update_of_ne hnq]
          exact hck.child np hnp
      · by_cases hnq : np = q
        · subst hnq
          rw [Function.update_self] at hp
          exact (hchild k hk hnp).2 p hp
        · rw [Function.update_of_ne hnq] at hp
          exact hck.only_parent np hnp p hp
  one_child := fun k k' np hk hk' => by
    rw [hcpu] at hk hk'
    by_cases hkj : k = j <;> by_cases hkj' : k' = j
    · rw [hkj, hkj']
    · subst hkj
      rw [Function.update_self] at hk
      rw [Function.update_of_ne hkj'] at hk'
      exact absurd hk (hone k' np hkj' hk')
    · subst hkj'
      rw [Function.update_self] at hk'
      rw [Function.update_of_ne hkj] at hk
      exact absurd hk' (hone k np hkj hk)
    · rw [Function.update_of_ne hkj] at hk
      rw [Function.update_of_ne hkj'] at hk'
      exact hc.one_child k k' np hk hk'

/-- A section that leaves a live process alive and its parent as it is, and moves no CPU but within
the scheduler's loop. -/
theorem Sound.quiet (hc : Sound c) (q : Slot) {x : Proc} (cpu : Cpu)
    (hproc : c'.sys.proc = Function.update c.sys.proc q x)
    (hcpu : c'.sys.cpu = Function.update c.sys.cpu j cpu)
    (hres : c'.resumable = c.resumable)
    (hbooks : (c.sys.proc q).Bookkept → x.Bookkept)
    (hstate : x.state = (c.sys.proc q).state ∨
      (c.sys.proc q).state = .sleeping ∧ x.state = .runnable)
    (hparent : x.parent = (c.sys.proc q).parent)
    (hcursors : ∀ r, cpu.lastQueuedProc r < NPROC)
    (hcur : cpu.proc = (c.sys.cpu j).proc) (hthread : cpu.thread = (c.sys.cpu j).thread) :
    Sound c' := by
  have hunused : x.state = .unused ↔ (c.sys.proc q).state = .unused := by
    rcases hstate with hst | ⟨hst, hst'⟩
    · rw [hst]
    · simp [hst, hst']
  have hzombie : x.state = .zombie ↔ (c.sys.proc q).state = .zombie := by
    rcases hstate with hst | ⟨hst, hst'⟩
    · rw [hst]
    · simp [hst, hst']
  have hlive : (c.sys.proc q).Live → x.Live := fun h =>
    ⟨fun h' => h.1 (hunused.mp h'), fun h' => h.2 (hzombie.mp h')⟩
  have hfork : ∀ np, cpu.Forking np ↔ (c.sys.cpu j).Forking np := by
    intro np
    rw [Cpu.Forking, Cpu.Forking, hthread]
  have hcj := hc.cpu j
  refine hc.upd cpu hproc hcpu (fun p _ => by rw [hres]) ⟨fun h => ?_, fun h => ?_⟩
    (fun k _ hk => hlive ((hc.cpu k).current q hk))
    (fun k _ hk => ⟨fun h => (hc.cpu k).child q hk (hunused.mp h), fun p hp => ?_⟩)
    ⟨hcursors, fun p hp => ?_, fun np hnp => ?_, fun np hnp p hp => ?_⟩
    (fun k np hk hnp hj => hk (hc.one_child k j np hnp ((hfork np).mp hj)))
  · rw [hres, Ne, hunused] at h
    exact hbooks ((hc.slot q).books h)
  · rw [hres]
    exact (hc.slot q).zombie (hzombie.mp h)
  · rw [hparent] at hp
    exact (hc.cpu k).only_parent q hk p hp
  · rw [hcur] at hp
    by_cases hpq : p = q
    · subst hpq
      rw [Function.update_self]
      exact hlive (hcj.current p hp)
    · rw [Function.update_of_ne hpq]
      exact hcj.current p hp
  · by_cases hnq : np = q
    · subst hnq
      rw [Function.update_self]
      exact fun h => hcj.child np ((hfork np).mp hnp) (hunused.mp h)
    · rw [Function.update_of_ne hnq]
      exact hcj.child np ((hfork np).mp hnp)
  · rw [hcur]
    refine hcj.only_parent np ((hfork np).mp hnp) p ?_
    by_cases hnq : np = q
    · subst hnq
      rwa [Function.update_self, hparent] at hp
    · rwa [Function.update_of_ne hnq] at hp

theorem Sound.giveUp (hc : Sound c) (hexcl : Exclusive c.sys) {t : Thread} {x : Proc}
    (hq : (c.sys.cpu j).running t = some q)
    (hproc : c'.sys.proc = Function.update c.sys.proc q x)
    (hcpu : c'.sys.cpu = Function.update c.sys.cpu j (c.sys.cpu j).descheduled)
    (hres : ∀ p, p ≠ q → c'.resumable p = c.resumable p)
    (hbooks : (c.sys.proc q).Bookkept → x.Bookkept) (hunused : x.state ≠ .unused)
    (hzombie : x.state = .zombie → c'.resumable q = false)
    (hparent : x.parent = (c.sys.proc q).parent) : Sound c' := by
  obtain ⟨hcur, -, -⟩ := Cpu.proc_of_running hq
  have hlive := (hc.cpu j).current q hcur
  have hidle := (c.sys.cpu j).not_forking_descheduled
  refine hc.upd _ hproc hcpu hres
    ⟨fun _ => hbooks ((hc.slot q).books (Or.inl hlive.1)), hzombie⟩
    (fun k hk hkq => absurd (hexcl k j q hkq hcur) hk)
    (fun k _ hk => ⟨hunused, fun p hp => ?_⟩)
    (Cpu.sound_of_not_forking (hc.cpu j).cursors (fun p hp => ?_) hidle)
    (fun k np _ _ => hidle np)
  · rw [hparent] at hp
    exact (hc.cpu k).only_parent q hk p hp
  · exact absurd hp (by simp [Cpu.descheduled])

/-- `reparent` changes no state and no books, and not the parent of a child that is being forked:
that parent is not exiting. -/
theorem Sound.reparent (hc : Sound c) (hexcl : Exclusive c.sys) {p : Slot}
    (hp : (c.sys.cpu j).running .normal = some p)
    (hproc : c'.sys.proc = (c.sys.reparent p).proc)
    (hcpu : c'.sys.cpu = Function.update c.sys.cpu j { c.sys.cpu j with thread := .exiting })
    (hres : c'.resumable = c.resumable) : Sound c' := by
  obtain ⟨hcur, -, hthread⟩ := Cpu.proc_of_running hp
  have hsame : ∀ q, c'.sys.proc q = { c.sys.proc q with parent := (c'.sys.proc q).parent } := by
    intro q
    rw [hproc, State.reparent]
    dsimp only
    split <;> rfl
  have hstate : ∀ q, (c'.sys.proc q).state = (c.sys.proc q).state := fun q => by rw [hsame]
  have hlive : ∀ q, (c.sys.proc q).Live → (c'.sys.proc q).Live := fun q h => by
    rw [Proc.Live, hstate]
    exact h
  refine ⟨fun q => ?_, fun k => ?_, fun k k' np hk hk' => ?_⟩
  · rw [hres]
    refine ⟨fun h => ?_, fun h => (hc.slot q).zombie ((hstate q).symm.trans h)⟩
    rw [hstate] at h
    rw [hsame]
    exact ((hc.slot q).books h).congr rfl rfl rfl
  · have hck := hc.cpu k
    by_cases hk : k = j
    · subst hk
      rw [hcpu, Function.update_self]
      exact Cpu.sound_of_not_forking hck.cursors (fun q hq => hlive q (hck.current q hq))
        (Cpu.not_forking (Or.inr rfl))
    · rw [hcpu, Function.update_of_ne hk]
      refine ⟨hck.cursors, fun q hq => hlive q (hck.current q hq),
        fun np hnp => by rw [hstate]; exact hck.child np hnp, fun np hnp q hq => ?_⟩
      -- a child of `p` that is being forked would be forked by `p` itself, on this CPU
      rw [hproc, State.reparent] at hq
      dsimp only at hq
      split at hq
      · rename_i hnpp
        exact absurd (hexcl k j p (hck.only_parent np hnp p hnpp) hcur) hk
      · exact hck.only_parent np hnp q hq
  · rw [hcpu] at hk hk'
    by_cases hkj : k = j
    · subst hkj
      rw [Function.update_self] at hk
      exact absurd hk (Cpu.not_forking (Or.inr rfl) np)
    · by_cases hkj' : k' = j
      · subst hkj'
        rw [Function.update_self] at hk'
        exact absurd hk' (Cpu.not_forking (Or.inr rfl) np)
      · rw [Function.update_of_ne hkj] at hk
        rw [Function.update_of_ne hkj'] at hk'
        exact hc.one_child k k' np hk hk'

theorem Threads.step_eq_some {l : Label} (h : c.step l = some c') :
    (∀ p ∈ switchesTo c.sys l, c.resumable p) ∧ Sched.step c.sys l = some c'.sys ∧
      c'.resumable = c.contexts l := by
  unfold Threads.step at h
  split at h
  · rename_i hguard
    obtain ⟨s', hs', rfl⟩ := Option.map_eq_some_iff.mp h
    exact ⟨hguard, hs', rfl⟩
  · exact absurd h (by simp)

/-- **What one section keeps**, from any sound state in which no process is on two CPUs. -/
theorem Sound.of_step {l : Label} (hc : Sound c) (hexcl : Exclusive c.sys)
    (h : c.step l = some c') : Sound c' := by
  obtain ⟨hguard, hstep, hres⟩ := Threads.step_eq_some h
  have hmove := move_of_step hstep
  obtain ⟨j, a⟩ := l
  generalize hs' : c'.sys = s' at hmove
  dsimp only at hmove hres hguard
  have hcj := hc.cpu j
  -- a section that changes no CPU
  have hstay : c.sys.cpu = Function.update c.sys.cpu j (c.sys.cpu j) :=
    (Function.update_eq_self ..).symm
  cases hmove with
  | promote i =>
    exact hc.quiet i { c.sys.cpu j with pc := nextPromote i } (by rw [hs']; rfl)
      (by rw [hs']; rfl) hres Proc.Bookkept.promote
      (Or.inl (Proc.promote_state _)) (Proc.promote_parent _) hcj.cursors rfl rfl
  | pick q checked p =>
    refine hc.quiet p (x := c.sys.proc p)
      { c.sys.cpu j with
        pc := .dispatch p
        lastQueuedProc := Function.update (c.sys.cpu j).lastQueuedProc q ((p.val + 1) % NPROC) }
      ?_ (by rw [hs']; rfl) hres id (Or.inl rfl) rfl (fun r => ?_) rfl rfl
    · rw [hs', Function.update_eq_self]
      rfl
    · dsimp only
      rw [Function.update_apply]
      split
      · exact Nat.mod_lt _ (by decide)
      · exact hcj.cursors r
  | skip q checked =>
    refine hc.quiet 0 (x := c.sys.proc 0) { c.sys.cpu j with pc := nextSelect q checked } ?_
      (by rw [hs']; rfl) hres id (Or.inl rfl) rfl hcj.cursors rfl rfl
    rw [hs', Function.update_eq_self]
    rfl
  | dispatch p hpc =>
    have hresumable : c.resumable p = true := hguard p (by rw [switchesTo, hpc]; rfl)
    have hlive : (c.sys.proc p).dispatch.Live := ⟨by simp [Proc.dispatch], by simp [Proc.dispatch]⟩
    refine hc.upd (q := p) { c.sys.cpu j with proc := some p, pc := .swtch, thread := .normal }
      (by rw [hs']; rfl) (by rw [hs']; rfl) (fun q _ => by rw [hres]; rfl)
      ⟨fun _ => ((hc.slot p).books (Or.inr hresumable)).dispatch, fun h => absurd h hlive.2⟩
      (fun _ _ _ => hlive)
      (fun k _ hk => ⟨hlive.1, fun q hq => (hc.cpu k).only_parent p hk q hq⟩)
      (Cpu.sound_of_not_forking hcj.cursors (fun q hq => ?_) (Cpu.not_forking (Or.inl rfl)))
      (fun _ np _ _ => Cpu.not_forking (Or.inl rfl) np)
    obtain rfl : p = q := Option.some.inj hq
    rw [Function.update_self]
    exact hlive
  | tick p =>
    refine hc.quiet p _ ?_ ?_ hres Proc.Bookkept.tick (Or.inl (Proc.tick_state _))
      (Proc.tick_parent _) hcj.cursors rfl rfl
    · rw [hs', State.updProc, State.clockintr_proc]
    · rw [hs', State.updProc_cpu, State.clockintr_cpu]
      exact hstay
  | idle =>
    refine hc.quiet 0 (x := c.sys.proc 0) _ ?_ ?_ hres id (Or.inl rfl) rfl hcj.cursors rfl rfl
    · rw [hs', State.clockintr_proc, Function.update_eq_self]
    · rw [hs', State.clockintr_cpu]
      exact hstay
  | yield p hp =>
    refine hc.giveUp hexcl hp ?_ ?_ (fun q _ => by rw [hres]; rfl) Proc.Bookkept.yield
      (by simp) (by simp) (Proc.demote_parent _)
    · rw [hs', State.updCpu_proc, State.updProc, State.clockintr_proc]
    · rw [hs', State.updCpu, State.updProc_cpu, State.clockintr_cpu]
  | sleep p chan hp =>
    exact hc.giveUp hexcl hp (by rw [hs']; rfl) (by rw [hs']; rfl) (fun q _ => by rw [hres]; rfl)
      (fun hb => hb.sleep chan) (by simp) (by simp) (Proc.demote_parent _)
  | exit p status hp =>
    have hr : c'.resumable = Function.update c.resumable p false := by
      rw [hres, Threads.contexts, (Cpu.proc_of_running hp).1]
    refine hc.giveUp hexcl hp (by rw [hs']; rfl) (by rw [hs']; rfl) (fun q hq => ?_)
      (fun hb => hb.exit status) (by simp) (fun _ => ?_) (Proc.demote_parent _)
    · rw [hr, Function.update_of_ne hq]
    · rw [hr, Function.update_self]
  | alloc p np hp hunused =>
    obtain ⟨hcur, -, hthread⟩ := Cpu.proc_of_running hp
    have hr : c'.resumable = Function.update c.resumable np true := hres
    have hlive := hcj.current p hcur
    have hbooks := ((hc.slot p).books (Or.inl hlive.1)).inherit
      ((c.sys.proc np).allocproc c.sys.nextpid)
    -- the slot was free, so it is not current and nobody is forking it
    have hfree : ∀ k q, (c.sys.cpu k).proc = some q → q ≠ np := by
      intro k q hq hqn
      exact ((hc.cpu k).current q hq).1 (hqn ▸ hunused)
    have hfork : ∀ k, ¬ (c.sys.cpu k).Forking np := fun k hk => (hc.cpu k).child np hk hunused
    refine hc.upd (q := np) { c.sys.cpu j with thread := .forked np } (by rw [hs']; rfl)
      (by rw [hs']; rfl) (fun q hq => ?_)
      ⟨fun _ => hbooks, fun h => absurd h (by simp [Proc.inherit, Proc.allocproc])⟩
      (fun k _ hk => absurd rfl (hfree k np hk)) (fun k _ hk => absurd hk (hfork k))
      ⟨hcj.cursors, fun q hq => ?_, fun q hq => ?_, fun q hq r hr => ?_⟩ (fun k q _ hk hq => ?_)
    · rw [hr, Function.update_of_ne hq]
    · rw [Function.update_of_ne (hfree j q hq)]
      exact hcj.current q hq
    all_goals obtain rfl : np = q := by simpa [Cpu.Forking] using hq
    · rw [Function.update_self]
      simp [Proc.inherit, Proc.allocproc]
    · rw [Function.update_self] at hr
      exact absurd hr (by simp [Proc.inherit, Proc.allocproc])
    · exact hfork k hk
  | allocFail p np hp hunused =>
    have hr : c'.resumable = Function.update c.resumable np true := hres
    have hfree : ∀ k q, (c.sys.cpu k).proc = some q → q ≠ np := by
      intro k q hq hqn
      exact ((hc.cpu k).current q hq).1 (hqn ▸ hunused)
    have hfork : ∀ k, ¬ (c.sys.cpu k).Forking np := fun k hk => (hc.cpu k).child np hk hunused
    refine hc.upd (j := j) (q := np) _ (by rw [hs']; rfl) (by rw [hs']; exact hstay) (fun q hq => ?_)
      ⟨fun _ => Proc.bookkept_allocproc_freeproc _ _,
        fun h => absurd h (by simp [Proc.freeproc])⟩
      (fun k _ hk => absurd rfl (hfree k np hk)) (fun k _ hk => absurd hk (hfork k))
      ⟨hcj.cursors, fun q hq => ?_, fun q hq => ?_, fun q hq r hr => ?_⟩
      (fun k q hk hq hq' => hk (hc.one_child k j q hq hq'))
    · rw [hr, Function.update_of_ne hq]
    · rw [Function.update_of_ne (hfree j q hq)]
      exact hcj.current q hq
    all_goals have hqn : q ≠ np := fun h => hfork j (h ▸ hq)
    · rw [Function.update_of_ne hqn]
      exact hcj.child q hq
    · rw [Function.update_of_ne hqn] at hr
      exact hcj.only_parent q hq r hr
  | parent p np hpc hp hth =>
    have hnp : (c.sys.cpu j).Forking np := Or.inl hth
    have hlive := hcj.current
    refine hc.upd (q := np) (x := { c.sys.proc np with parent := some p })
      { c.sys.cpu j with thread := .linked np } (by rw [hs']; rfl) (by rw [hs']; rfl) (fun q _ => by rw [hres]; rfl)
      ⟨fun h => ?_, fun h => ?_⟩ (fun k _ hk => (hc.cpu k).current np hk)
      (fun k hk hkn => absurd (hc.one_child k j np hkn hnp) hk)
      ⟨hcj.cursors, fun q hq => ?_, fun q hq => ?_, fun q hq r hr => ?_⟩ (fun k q hk hkq hq => ?_)
    · rw [hres] at h
      exact ((hc.slot np).books h).congr rfl rfl rfl
    · rw [hres]
      exact (hc.slot np).zombie h
    · rw [Function.update_apply]
      split
      · rename_i hqn
        exact hqn ▸ hlive q hq
      · exact hlive q hq
    all_goals obtain rfl : np = q := by simpa [Cpu.Forking] using hq
    · rw [Function.update_self]
      exact hcj.child np hnp
    · rw [Function.update_self] at hr
      exact hp.trans hr
    · exact hk (hc.one_child k j np hkq hnp)
  | runnable np hpc hth =>
    have hnp : (c.sys.cpu j).Forking np := Or.inr hth
    have hlive : Proc.Live { c.sys.proc np with state := .runnable } := ⟨by simp, by simp⟩
    refine hc.upd (q := np) (x := { c.sys.proc np with state := .runnable })
      { c.sys.cpu j with thread := .normal } (by rw [hs']; rfl) (by rw [hs']; rfl) (fun q _ => by rw [hres]; rfl)
      ⟨fun _ => ((hc.slot np).books (Or.inl (hcj.child np hnp))).congr rfl rfl rfl,
        fun h => absurd h hlive.2⟩
      (fun _ _ _ => hlive) (fun k hk hkn => absurd (hc.one_child k j np hkn hnp) hk)
      (Cpu.sound_of_not_forking hcj.cursors (fun q hq => ?_) (Cpu.not_forking (Or.inl rfl)))
      (fun _ q _ _ => Cpu.not_forking (Or.inl rfl) q)
    rw [Function.update_apply]
    split
    · exact hlive
    · exact hcj.current q hq
  | reparent p hp =>
    exact hc.reparent hexcl hp (by rw [hs']; rfl) (by rw [hs']; rfl) hres
  | free p pp hp hpar hz =>
    obtain ⟨hcur, -, hthread⟩ := Cpu.proc_of_running hp
    have hdead : c'.resumable pp = false := by
      rw [hres]
      exact (hc.slot pp).zombie hz
    have hnot : ∀ k, (c.sys.cpu k).proc ≠ some pp := fun k hk => ((hc.cpu k).current pp hk).2 hz
    -- the parent is in `kwait` on this CPU, so it is not forking the zombie
    have hfork : ∀ k, ¬ (c.sys.cpu k).Forking pp := by
      intro k hk
      have hkj := hexcl k j p ((hc.cpu k).only_parent pp hk p hpar) hcur
      subst hkj
      exact Cpu.not_forking (Or.inl hthread) pp hk
    refine hc.upd (j := j) (q := pp) _ (by rw [hs']; rfl) (by rw [hs']; exact hstay)
      (fun q _ => by rw [hres]; rfl) ⟨fun h => ?_, fun _ => hdead⟩
      (fun k _ hk => absurd hk (hnot k)) (fun k _ hk => absurd hk (hfork k))
      (Cpu.sound_of_not_forking hcj.cursors (fun q hq => ?_) (Cpu.not_forking (Or.inl hthread)))
      (fun _ q _ _ => Cpu.not_forking (Or.inl hthread) q)
    · rcases h with h | h
      · exact absurd rfl h
      · exact absurd (hdead.symm.trans h) (by simp)
    · have hqpp : q ≠ pp := by
        rintro rfl
        exact hnot j hq
      rw [Function.update_of_ne hqpp]
      exact hcj.current q hq
  | wakeup p chan =>
    exact hc.quiet p _ (by rw [hs']; rfl) (by rw [hs']; exact hstay) hres
      (fun hb => hb.wakeup chan) (Proc.wakeup_state _ chan) (Proc.wakeup_parent _ chan)
      hcj.cursors rfl rfl
  | kkill _ p pid =>
    exact hc.quiet p _ (by rw [hs']; rfl) (by rw [hs']; exact hstay) hres
      (fun hb => hb.kkill pid) (Proc.kkill_state _ pid) (Proc.kkill_parent _ pid)
      hcj.cursors rfl rfl
  | setkilled p =>
    exact hc.quiet p (x := { c.sys.proc p with killed := true }) _ (by rw [hs']; rfl)
      (by rw [hs']; exact hstay) hres (fun hb => hb.congr rfl rfl rfl) (Or.inl rfl) rfl
      hcj.cursors rfl rfl

end Step

/-! ## Runs -/

theorem sound_boot : Sound Threads.boot := by
  have hinit : Proc.userinit.Bookkept := (Proc.bookkept_allocproc Proc.init 1).congr rfl rfl rfl
  have hother : ∀ p, p ≠ 0 → Threads.boot.sys.proc p = Proc.init := by
    intro p hp
    simp [Threads.boot, boot, hp]
  have hidle : ∀ np, ¬ Cpu.boot.Forking np := Cpu.not_forking (Or.inl rfl)
  refine ⟨fun p => ?_, fun j => ?_, fun j k np h => absurd h (hidle np)⟩
  · by_cases hp : p = 0
    · subst hp
      exact ⟨fun _ => hinit, fun h => absurd h (by decide)⟩
    · rw [hother p hp]
      refine ⟨fun h => ?_, fun h => absurd h (by decide)⟩
      rcases h with h | h
      · exact absurd rfl h
      · exact absurd h (by simp [Threads.boot, hp])
  · exact Cpu.sound_of_not_forking (fun _ => show INIT_RR_INDEX < NPROC by decide)
      (fun p hp => absurd hp (by simp [Threads.boot, boot, Cpu.boot])) hidle

/-- A process with its books in order is eligible at its level, which the scan visits; the slots it
visits there include that of the process. -/
theorem exists_visit {t : Table} {p : Slot} (hrunnable : (t p).state = .runnable)
    (hbooks : (t p).Bookkept) (cursors : Cursors) :
    ∃ q checked, q < NQUEUES ∧ checked < NPROC ∧ slotAt (cursors q + checked) = p ∧
      (t p).eligible q := by
  have hnonneg := hbooks.level_nonneg
  have hlt := hbooks.level_lt
  refine ⟨(t p).queueLevel.toNat, cyclicDistance (cursors (t p).queueLevel.toNat) p, by omega,
    cyclicDistance_lt _ _, slotAt_cyclicDistance _ _, ?_⟩
  rw [Proc.eligible, decide_eq_true_eq]
  exact ⟨hrunnable, by omega⟩

/-- A section keeps the books of its slot. -/
def KeepsBooks (f : Proc → Proc) : Prop := ∀ x, x.Bookkept → (f x).Bookkept

/-- The books of the feedback queue, when no `p->lock` is held. -/
structure BooksInOrder (s : State) : Prop where
  books : ∀ p, (s.proc p).state ≠ .unused → (s.proc p).Bookkept
  cursors : ∀ j q, (s.cpu j).lastQueuedProc q < NPROC
  /-- The scan over the levels comes to every `RUNNABLE` process, -/
  visited : ∀ j p, (s.proc p).state = .runnable → ∃ q checked, q < NQUEUES ∧ checked < NPROC ∧
    slotAt ((s.cpu j).lastQueuedProc q + checked) = p ∧ (s.proc p).eligible q
  /-- and so, undisturbed, chooses one if there is one. -/
  chooses : ∀ j p, (s.proc p).state = .runnable →
    (selectionScan s.proc (s.cpu j).lastQueuedProc).isSome

theorem Sound.booksInOrder {c : Threads} (hc : Sound c) : BooksInOrder c.sys := by
  have hbooks : ∀ p, (c.sys.proc p).state ≠ .unused → (c.sys.proc p).Bookkept :=
    fun p hp => (hc.slot p).books (Or.inl hp)
  have hrunnable : ∀ p, (c.sys.proc p).state = .runnable → (c.sys.proc p).Bookkept :=
    fun p hp => hbooks p (by rw [hp]; decide)
  refine ⟨hbooks, fun j => (hc.cpu j).cursors, fun j p hp => ?_, fun j p hp => ?_⟩
  · exact exists_visit hp (hrunnable p hp) (c.sys.cpu j).lastQueuedProc
  · obtain ⟨q, -, hq, -, -, helig⟩ := exists_visit hp (hrunnable p hp) (c.sys.cpu j).lastQueuedProc
    exact selectionScan_isSome _ hq helig

/-- **The books are in order** in every state of every run in which no process is run by two CPUs
at a time.  Every section keeps them: promotion, demotion, dispatch, `yield`, `sleep` and `exit`
for a process whose books are in order, `allocproc` for any slot, also when it fails and frees the
slot again, and `kfork` for the child of any parent. -/
theorem bookkeeping :
    (∀ h c, RunWith Threads.Steps Threads.AtMostOne Threads.boot h c → BooksInOrder c.sys) ∧
      (∀ c c' l, Sound c → c.AtMostOne l → c.step l = some c' → Sound c') ∧
      KeepsBooks Proc.promote ∧ KeepsBooks Proc.demote ∧ KeepsBooks Proc.dispatch ∧
      KeepsBooks Proc.yield ∧ (∀ chan, KeepsBooks fun x => x.sleep chan) ∧
      (∀ status, KeepsBooks fun x => x.exit status) ∧
      (∀ y pid, (Proc.allocproc y pid).Bookkept ∧ (Proc.allocproc y pid).freeproc.Bookkept ∧
        KeepsBooks (Proc.inherit (Proc.allocproc y pid))) := by
  refine ⟨fun h c hrun => ?_, fun c c' l hc hone hstep => hc.of_step hone hstep,
    fun _ => Proc.Bookkept.promote, fun _ => Proc.Bookkept.demote, fun _ => Proc.Bookkept.dispatch,
    fun _ => Proc.Bookkept.yield, fun chan _ hx => hx.sleep chan,
    fun status _ hx => hx.exit status, fun y pid => ?_⟩
  · have hc : Sound c := hrun.invariant sound_boot fun _ _ _ ht hone hstep => ht.of_step hone hstep
    exact hc.booksInOrder
  · exact ⟨Proc.bookkept_allocproc y pid, Proc.bookkept_allocproc_freeproc y pid,
      fun x hx => hx.inherit _⟩

/-- `init` forks on CPU 0, and CPU 1 picks the child. -/
theorem bookkeeping_fork :
    ∃ h c, RunWith Threads.Steps Threads.AtMostOne Threads.boot h c ∧
      (c.sys.proc 1).state = .runnable ∧ BooksInOrder c.sys := by
  have hexec : ((execWith Threads.step Threads.AtMostOne Threads.boot forkActs).map fun c =>
      (c.sys.proc 1).state) = some .runnable := by
    decide +kernel
  obtain ⟨c, hc, hstate⟩ := Option.map_eq_some_iff.mp hexec
  have hrun := run_of_execWith hc
  exact ⟨_, c, hrun, hstate, bookkeeping.1 _ c hrun⟩

end Sched
end Xv6
