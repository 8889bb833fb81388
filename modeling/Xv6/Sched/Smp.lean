import Xv6.Lib.Transition
import Xv6.Sched.Proc

/-!
# The scheduler on several CPUs

The state of the process table and of the CPUs, and the step function whose runs are the
interleavings of the CPUs.  Every step is one section between `acquire` and `release` of a
`p->lock` (or of `wait_lock`, for the two assignments to `p->parent`), taken by one CPU.

A CPU is either in its own `scheduler()` loop or inside the `swtch` of that loop, where the
thread of `c->proc` runs.  The loop is cut at its lock sections:

* `Pc.promote i`: the promotion scan is about to lock slot `i`;
* `Pc.select q checked`: the selection scan of level `q` is about to lock the slot that lies
  `checked` places after the round-robin cursor;
* `Pc.dispatch p`: the scan has found `p` and released its lock; `p`'s lock is about to be
  acquired again for the switch;
* `Pc.swtch`: the chosen process runs.

`wfi` has no effect on this state, so a scan that finds nothing goes back to the loop's head.
A running thread is `normal` except between the sections of one `kfork` or one `kexit`, where it
does not give up the CPU.
-/

namespace Xv6
namespace Sched

/-- A CPU, an index of `cpus[NCPU]`. -/
abbrev CpuId : Type := Fin NCPU

/-- Where a CPU is in `scheduler()`. -/
inductive Pc where
  | promote (i : Slot)
  | select (q checked : ℕ)
  | dispatch (chosen : Slot)
  | swtch
  deriving DecidableEq

/-- Where the thread a CPU runs is between the sections of `kfork` and `kexit`. -/
inductive Thread where
  | normal
  /-- `kfork` has allocated the child and released its lock. -/
  | forked (np : Slot)
  /-- `kfork` has set the child's parent. -/
  | linked (np : Slot)
  /-- `kexit` has given the children to init. -/
  | exiting
  deriving DecidableEq

/-- `struct cpu`, with the CPU's round-robin cursors `rr_state[cpu].last_queued_proc`. -/
structure Cpu where
  proc : Option Slot
  pc : Pc
  thread : Thread
  lastQueuedProc : ℕ → ℕ

/-- The state shared by the CPUs. -/
structure State where
  proc : Table
  cpu : CpuId → Cpu
  nextpid : ℤ
  initproc : Slot
  ticks : ℕ

/-- The actions of a CPU: the three sections of `scheduler()`, and the sections a running
thread or an interrupt handler can take. -/
inductive Act where
  | promote
  | select
  | dispatch
  /-- A timer interrupt in kernel mode. -/
  | kerneltrap
  /-- A timer interrupt in user mode: `usertrap` calls `yield`. -/
  | yield
  | sleep (chan : ℕ)
  /-- The first section of `kfork`; `ok` says whether the memory it needs is there. -/
  | kforkAlloc (np : Slot) (ok : Bool)
  | kforkParent
  | kforkRunnable
  | kexitReparent
  | kexitZombie (status : ℤ)
  | kwaitFree (pp : Slot)
  | wakeup (p : Slot) (chan : ℕ)
  | kkill (p : Slot) (pid : ℤ)
  | setkilled
  deriving DecidableEq

/-- An action and the CPU that takes it. -/
structure Label where
  cpu : CpuId
  act : Act
  deriving DecidableEq

/-! ## Updates -/

/-- Apply a section to one slot. -/
def State.updProc (s : State) (p : Slot) (f : Proc → Proc) : State :=
  { s with proc := Function.update s.proc p (f (s.proc p)) }

/-- Change one CPU. -/
def State.updCpu (s : State) (j : CpuId) (f : Cpu → Cpu) : State :=
  { s with cpu := Function.update s.cpu j (f (s.cpu j)) }

@[simp] theorem State.updProc_cpu (s : State) (p : Slot) (f : Proc → Proc) :
    (s.updProc p f).cpu = s.cpu := rfl

@[simp] theorem State.updCpu_proc (s : State) (j : CpuId) (f : Cpu → Cpu) :
    (s.updCpu j f).proc = s.proc := rfl

@[simp] theorem State.updCpu_cpu_self (s : State) (j : CpuId) (f : Cpu → Cpu) :
    (s.updCpu j f).cpu j = f (s.cpu j) := by
  simp [State.updCpu]

theorem State.updCpu_cpu_of_ne (s : State) {j k : CpuId} (f : Cpu → Cpu) (h : k ≠ j) :
    (s.updCpu j f).cpu k = s.cpu k := by
  simp [State.updCpu, h]

@[simp] theorem State.updProc_proc_self (s : State) (p : Slot) (f : Proc → Proc) :
    (s.updProc p f).proc p = f (s.proc p) := by
  simp [State.updProc]

theorem State.updProc_proc_of_ne (s : State) {p q : Slot} (f : Proc → Proc) (h : q ≠ p) :
    (s.updProc p f).proc q = s.proc q := by
  simp [State.updProc, h]

/-! ## The loop of `scheduler()` -/

/-- The slot at an index, taken modulo `NPROC`. -/
def slotAt (n : ℕ) : Slot := ⟨n % NPROC, Nat.mod_lt n (by decide)⟩

/-- The promotion scan after slot `i`. -/
def nextPromote (i : Slot) : Pc :=
  if h : i.val + 1 < NPROC then .promote ⟨i.val + 1, h⟩ else .select 0 0

/-- The selection scan after a slot of level `q` that was not eligible. -/
def nextSelect (q checked : ℕ) : Pc :=
  if checked + 1 < NPROC then .select q (checked + 1)
  else if q + 1 < NQUEUES then .select (q + 1) 0
  else .promote 0

/-- Whether interrupts are taken: a thread runs, or the loop is at its head, where `scheduler`
turns interrupts on. -/
def Cpu.interruptible (c : Cpu) : Bool :=
  decide (c.pc = .swtch ∨ c.pc = .promote 0)

/-- The thread running on the CPU, if it is in the phase `t`. -/
def Cpu.running (c : Cpu) (t : Thread) : Option Slot :=
  if c.pc = .swtch ∧ c.thread = t then c.proc else none

/-- Back to the head of the loop, after `swtch` has returned and `c->proc = 0`. -/
def Cpu.descheduled (c : Cpu) : Cpu :=
  { c with proc := none, pc := .promote 0, thread := .normal }

/-- The clock: `clockintr` counts a tick on CPU 0. -/
def State.clockintr (s : State) (j : CpuId) : State :=
  if j = 0 then { s with ticks := (s.ticks + 1) % 2 ^ 32 } else s

@[simp] theorem State.clockintr_proc (s : State) (j : CpuId) : (s.clockintr j).proc = s.proc := by
  unfold State.clockintr
  split <;> rfl

@[simp] theorem State.clockintr_cpu (s : State) (j : CpuId) : (s.clockintr j).cpu = s.cpu := by
  unfold State.clockintr
  split <;> rfl

/-! ## Steps -/

/-- The promotion scan, at one slot. -/
def stepPromote (s : State) (j : CpuId) : Option State :=
  match (s.cpu j).pc with
  | .promote i =>
    some ((s.updProc i Proc.promote).updCpu j fun c => { c with pc := nextPromote i })
  | _ => none

/-- The selection scan, at one slot: pick the process there, or go on. -/
def stepSelect (s : State) (j : CpuId) : Option State :=
  match (s.cpu j).pc with
  | .select q checked =>
    let idx := slotAt ((s.cpu j).lastQueuedProc q + checked)
    if (s.proc idx).eligible q then
      some (s.updCpu j fun c =>
        { c with
          pc := .dispatch idx
          lastQueuedProc := Function.update c.lastQueuedProc q ((idx.val + 1) % NPROC) })
    else
      some (s.updCpu j fun c => { c with pc := nextSelect q checked })
  | _ => none

/-- The dispatch of the chosen process. -/
def stepDispatch (s : State) (j : CpuId) : Option State :=
  match (s.cpu j).pc with
  | .dispatch p =>
    some ((s.updProc p Proc.dispatch).updCpu j fun c =>
      { c with proc := some p, pc := .swtch, thread := .normal })
  | _ => none

/-- A section `f` of the running thread that ends in `sched()`. -/
def stepGiveUp (s : State) (j : CpuId) (t : Thread) (f : Proc → Proc) : Option State :=
  ((s.cpu j).running t).map fun p => (s.updProc p f).updCpu j Cpu.descheduled

/-- A timer interrupt in user mode. -/
def stepYield (s : State) (j : CpuId) : Option State :=
  stepGiveUp (s.clockintr j) j .normal Proc.yield

/-- A timer interrupt in kernel mode: `kerneltrap` counts it but does not yield. -/
def stepKerneltrap (s : State) (j : CpuId) : Option State :=
  if (s.cpu j).interruptible then
    match (s.cpu j).proc with
    | some p => some ((s.clockintr j).updProc p Proc.tick)
    | none => some (s.clockintr j)
  else none

/-- `allocproc` finds the slot `np`, and `kfork` fills it, or frees it when memory runs out. -/
def stepKforkAlloc (s : State) (j : CpuId) (np : Slot) (ok : Bool) : Option State :=
  match (s.cpu j).running .normal with
  | some p =>
    if (s.proc np).state = .unused then
      let s' := { s with nextpid := cInt (s.nextpid + 1) }
      if ok then
        some ((s'.updProc np fun x => (x.allocproc s.nextpid).inherit (s.proc p)).updCpu j
          fun c => { c with thread := .forked np })
      else
        some (s'.updProc np fun x => (x.allocproc s.nextpid).freeproc)
    else none
  | none => none

/-- `np->parent = p`, under `wait_lock`. -/
def stepKforkParent (s : State) (j : CpuId) : Option State :=
  match (s.cpu j).pc, (s.cpu j).proc, (s.cpu j).thread with
  | .swtch, some p, .forked np =>
    some ((s.updProc np fun x => { x with parent := some p }).updCpu j
      fun c => { c with thread := .linked np })
  | _, _, _ => none

/-- The last section of `kfork`. -/
def stepKforkRunnable (s : State) (j : CpuId) : Option State :=
  match (s.cpu j).pc, (s.cpu j).thread with
  | .swtch, .linked np =>
    some ((s.updProc np fun x => { x with state := .runnable }).updCpu j
      fun c => { c with thread := .normal })
  | _, _ => none

/-- `reparent`: the children of `p` go to init. -/
def State.reparent (s : State) (p : Slot) : State :=
  { s with
    proc := fun q =>
      if (s.proc q).parent = some p then { s.proc q with parent := some s.initproc }
      else s.proc q }

/-- `kexit` up to `reparent`; init does not exit (`panic("init exiting")`). -/
def stepKexitReparent (s : State) (j : CpuId) : Option State :=
  match (s.cpu j).running .normal with
  | some p =>
    if p = s.initproc then none
    else some ((s.reparent p).updCpu j fun c => { c with thread := .exiting })
  | none => none

/-- `kwait` frees a zombie child. -/
def stepKwaitFree (s : State) (j : CpuId) (pp : Slot) : Option State :=
  match (s.cpu j).running .normal with
  | some p =>
    if (s.proc pp).parent = some p ∧ (s.proc pp).state = .zombie then
      some (s.updProc pp Proc.freeproc)
    else none
  | none => none

/-- `wakeup(chan)` at slot `p`, by a thread or an interrupt handler. -/
def stepWakeup (s : State) (j : CpuId) (p : Slot) (chan : ℕ) : Option State :=
  if (s.cpu j).interruptible ∧ (s.cpu j).proc ≠ some p then
    some (s.updProc p fun x => x.wakeup chan)
  else none

/-- `kkill(pid)` at slot `p`. -/
def stepKkill (s : State) (j : CpuId) (p : Slot) (pid : ℤ) : Option State :=
  match (s.cpu j).running .normal with
  | some _ => some (s.updProc p fun x => x.kkill pid)
  | none => none

/-- `setkilled`, on the current process. -/
def stepSetkilled (s : State) (j : CpuId) : Option State :=
  match (s.cpu j).running .normal with
  | some p => some (s.updProc p fun x => { x with killed := true })
  | none => none

/-- One section, taken by CPU `l.cpu`; `none` when the CPU is not at that section. -/
def step (s : State) (l : Label) : Option State :=
  match l.act with
  | .promote => stepPromote s l.cpu
  | .select => stepSelect s l.cpu
  | .dispatch => stepDispatch s l.cpu
  | .kerneltrap => stepKerneltrap s l.cpu
  | .yield => stepYield s l.cpu
  | .sleep chan => stepGiveUp s l.cpu .normal fun p => p.sleep chan
  | .kforkAlloc np ok => stepKforkAlloc s l.cpu np ok
  | .kforkParent => stepKforkParent s l.cpu
  | .kforkRunnable => stepKforkRunnable s l.cpu
  | .kexitReparent => stepKexitReparent s l.cpu
  | .kexitZombie status => stepGiveUp s l.cpu .exiting fun p => p.exit status
  | .kwaitFree pp => stepKwaitFree s l.cpu pp
  | .wakeup p chan => stepWakeup s l.cpu p chan
  | .kkill p pid => stepKkill s l.cpu p pid
  | .setkilled => stepSetkilled s l.cpu

/-- The step relation. -/
abbrev Steps : State → Label → State → Prop := Transition.ofStep step

/-! ## What a step can do -/

/-- The sections, with the guard of each and the state after it. -/
inductive Move (s : State) (j : CpuId) : Act → State → Prop
  | promote (i : Slot) : (s.cpu j).pc = .promote i →
      Move s j .promote
        ((s.updProc i Proc.promote).updCpu j fun c => { c with pc := nextPromote i })
  | pick (q checked : ℕ) (p : Slot) : (s.cpu j).pc = .select q checked →
      p = slotAt ((s.cpu j).lastQueuedProc q + checked) → (s.proc p).eligible q →
      Move s j .select (s.updCpu j fun c =>
        { c with
          pc := .dispatch p
          lastQueuedProc := Function.update c.lastQueuedProc q ((p.val + 1) % NPROC) })
  | skip (q checked : ℕ) : (s.cpu j).pc = .select q checked →
      ¬ (s.proc (slotAt ((s.cpu j).lastQueuedProc q + checked))).eligible q →
      Move s j .select (s.updCpu j fun c => { c with pc := nextSelect q checked })
  | dispatch (p : Slot) : (s.cpu j).pc = .dispatch p →
      Move s j .dispatch ((s.updProc p Proc.dispatch).updCpu j fun c =>
        { c with proc := some p, pc := .swtch, thread := .normal })
  | tick (p : Slot) : (s.cpu j).interruptible → (s.cpu j).proc = some p →
      Move s j .kerneltrap ((s.clockintr j).updProc p Proc.tick)
  | idle : (s.cpu j).interruptible → (s.cpu j).proc = none →
      Move s j .kerneltrap (s.clockintr j)
  | yield (p : Slot) : (s.cpu j).running .normal = some p →
      Move s j .yield (((s.clockintr j).updProc p Proc.yield).updCpu j Cpu.descheduled)
  | sleep (p : Slot) (chan : ℕ) : (s.cpu j).running .normal = some p →
      Move s j (.sleep chan) ((s.updProc p fun x => x.sleep chan).updCpu j Cpu.descheduled)
  | exit (p : Slot) (status : ℤ) : (s.cpu j).running .exiting = some p →
      Move s j (.kexitZombie status)
        ((s.updProc p fun x => x.exit status).updCpu j Cpu.descheduled)
  | alloc (p np : Slot) : (s.cpu j).running .normal = some p → (s.proc np).state = .unused →
      Move s j (.kforkAlloc np true)
        (({ s with nextpid := cInt (s.nextpid + 1) }.updProc np
          fun x => (x.allocproc s.nextpid).inherit (s.proc p)).updCpu j
            fun c => { c with thread := .forked np })
  | allocFail (p np : Slot) : (s.cpu j).running .normal = some p → (s.proc np).state = .unused →
      Move s j (.kforkAlloc np false)
        ({ s with nextpid := cInt (s.nextpid + 1) }.updProc np
          fun x => (x.allocproc s.nextpid).freeproc)
  | parent (p np : Slot) : (s.cpu j).pc = .swtch → (s.cpu j).proc = some p →
      (s.cpu j).thread = .forked np →
      Move s j .kforkParent ((s.updProc np fun x => { x with parent := some p }).updCpu j
        fun c => { c with thread := .linked np })
  | runnable (np : Slot) : (s.cpu j).pc = .swtch → (s.cpu j).thread = .linked np →
      Move s j .kforkRunnable ((s.updProc np fun x => { x with state := .runnable }).updCpu j
        fun c => { c with thread := .normal })
  | reparent (p : Slot) : (s.cpu j).running .normal = some p → p ≠ s.initproc →
      Move s j .kexitReparent ((s.reparent p).updCpu j fun c => { c with thread := .exiting })
  | free (p pp : Slot) : (s.cpu j).running .normal = some p → (s.proc pp).parent = some p →
      (s.proc pp).state = .zombie → Move s j (.kwaitFree pp) (s.updProc pp Proc.freeproc)
  | wakeup (p : Slot) (chan : ℕ) : (s.cpu j).interruptible → (s.cpu j).proc ≠ some p →
      Move s j (.wakeup p chan) (s.updProc p fun x => x.wakeup chan)
  | kkill (q p : Slot) (pid : ℤ) : (s.cpu j).running .normal = some q →
      Move s j (.kkill p pid) (s.updProc p fun x => x.kkill pid)
  | setkilled (p : Slot) : (s.cpu j).running .normal = some p →
      Move s j .setkilled (s.updProc p fun x => { x with killed := true })

theorem move_of_step {s s' : State} {l : Label} (h : step s l = some s') :
    Move s l.cpu l.act s' := by
  obtain ⟨j, a⟩ := l
  cases a with
  | promote =>
    replace h : stepPromote s j = some s' := h
    unfold stepPromote at h
    split at h
    · rename_i i hpc
      rw [← Option.some.inj h]
      exact .promote i hpc
    · exact absurd h (by simp)
  | select =>
    replace h : stepSelect s j = some s' := h
    unfold stepSelect at h
    split at h
    · rename_i q checked hpc
      dsimp only at h
      split at h
      · rename_i helig
        rw [← Option.some.inj h]
        exact .pick q checked _ hpc rfl helig
      · rename_i helig
        rw [← Option.some.inj h]
        exact .skip q checked hpc helig
    · exact absurd h (by simp)
  | dispatch =>
    replace h : stepDispatch s j = some s' := h
    unfold stepDispatch at h
    split at h
    · rename_i p hpc
      rw [← Option.some.inj h]
      exact .dispatch p hpc
    · exact absurd h (by simp)
  | kerneltrap =>
    replace h : stepKerneltrap s j = some s' := h
    unfold stepKerneltrap at h
    split at h
    · rename_i hint
      split at h
      · rename_i p hp
        rw [← Option.some.inj h]
        exact .tick p hint hp
      · rename_i hp
        rw [← Option.some.inj h]
        exact .idle hint hp
    · exact absurd h (by simp)
  | yield =>
    replace h : stepGiveUp (s.clockintr j) j .normal Proc.yield = some s' := h
    obtain ⟨p, hp, rfl⟩ := Option.map_eq_some_iff.mp h
    rw [State.clockintr_cpu] at hp
    exact .yield p hp
  | sleep chan =>
    obtain ⟨p, hp, rfl⟩ := Option.map_eq_some_iff.mp h
    exact .sleep p chan hp
  | kforkAlloc np ok =>
    replace h : stepKforkAlloc s j np ok = some s' := h
    unfold stepKforkAlloc at h
    split at h
    · rename_i p hp
      dsimp only at h
      split at h
      · rename_i hunused
        cases ok with
        | true =>
          rw [← Option.some.inj h]
          exact .alloc p np hp hunused
        | false =>
          rw [← Option.some.inj h]
          exact .allocFail p np hp hunused
      · exact absurd h (by simp)
    · exact absurd h (by simp)
  | kforkParent =>
    replace h : stepKforkParent s j = some s' := h
    unfold stepKforkParent at h
    split at h
    · rename_i p np hpc hp hth
      rw [← Option.some.inj h]
      exact .parent p np hpc hp hth
    · exact absurd h (by simp)
  | kforkRunnable =>
    replace h : stepKforkRunnable s j = some s' := h
    unfold stepKforkRunnable at h
    split at h
    · rename_i np hpc hth
      rw [← Option.some.inj h]
      exact .runnable np hpc hth
    · exact absurd h (by simp)
  | kexitReparent =>
    replace h : stepKexitReparent s j = some s' := h
    unfold stepKexitReparent at h
    split at h
    · rename_i p hp
      split at h
      · exact absurd h (by simp)
      · rename_i hinit
        rw [← Option.some.inj h]
        exact .reparent p hp hinit
    · exact absurd h (by simp)
  | kexitZombie status =>
    obtain ⟨p, hp, rfl⟩ := Option.map_eq_some_iff.mp h
    exact .exit p status hp
  | kwaitFree pp =>
    replace h : stepKwaitFree s j pp = some s' := h
    unfold stepKwaitFree at h
    split at h
    · rename_i p hp
      split at h
      · rename_i hz
        rw [← Option.some.inj h]
        exact .free p pp hp hz.1 hz.2
      · exact absurd h (by simp)
    · exact absurd h (by simp)
  | wakeup p chan =>
    replace h : stepWakeup s j p chan = some s' := h
    unfold stepWakeup at h
    split at h
    · rename_i hguard
      rw [← Option.some.inj h]
      exact .wakeup p chan hguard.1 hguard.2
    · exact absurd h (by simp)
  | kkill p pid =>
    replace h : stepKkill s j p pid = some s' := h
    unfold stepKkill at h
    split at h
    · rename_i q hq
      rw [← Option.some.inj h]
      exact .kkill q p pid hq
    · exact absurd h (by simp)
  | setkilled =>
    replace h : stepSetkilled s j = some s' := h
    unfold stepSetkilled at h
    split at h
    · rename_i p hp
      rw [← Option.some.inj h]
      exact .setkilled p hp
    · exact absurd h (by simp)

theorem Move.frame {s s' : State} {j : CpuId} {a : Act} (h : Move s j a s') {k : CpuId}
    (hk : k ≠ j) : s'.cpu k = s.cpu k := by
  cases h <;> simp [State.updCpu, State.updProc, State.reparent, hk]

/-! ## What a step does to one slot -/

/-- What a step of CPU `j` from `s` can make of slot `p`.  Every invariant of single slots is
derived from this list. -/
inductive SlotStep (s : State) (j : CpuId) (p : Slot) : Proc → Prop
  | same : SlotStep s j p (s.proc p)
  | promote : (s.cpu j).pc = .promote p → SlotStep s j p (s.proc p).promote
  | dispatch : (s.cpu j).pc = .dispatch p → SlotStep s j p (s.proc p).dispatch
  | tick : (s.cpu j).proc = some p → SlotStep s j p (s.proc p).tick
  | yield : (s.cpu j).running .normal = some p → SlotStep s j p (s.proc p).yield
  | sleep (chan : ℕ) : (s.cpu j).running .normal = some p → SlotStep s j p ((s.proc p).sleep chan)
  | exit (status : ℤ) : (s.cpu j).running .exiting = some p →
      SlotStep s j p ((s.proc p).exit status)
  | alloc (q : Slot) : (s.cpu j).running .normal = some q → (s.proc p).state = .unused →
      SlotStep s j p (((s.proc p).allocproc s.nextpid).inherit (s.proc q))
  | allocFail : (s.proc p).state = .unused → SlotStep s j p ((s.proc p).allocproc s.nextpid).freeproc
  | parent (q : Option Slot) : SlotStep s j p { s.proc p with parent := q }
  | runnable : (s.cpu j).thread = .linked p → SlotStep s j p { s.proc p with state := .runnable }
  | free : (s.proc p).state = .zombie → SlotStep s j p (s.proc p).freeproc
  | wakeup (chan : ℕ) : SlotStep s j p ((s.proc p).wakeup chan)
  | kkill (pid : ℤ) : SlotStep s j p ((s.proc p).kkill pid)
  | setkilled : SlotStep s j p { s.proc p with killed := true }

/-- The same with the action that does it. -/
inductive SlotMove (s : State) (l : Label) (p : Slot) : Proc → Prop
  | same : SlotMove s l p (s.proc p)
  | promote : l.act = .promote → (s.cpu l.cpu).pc = .promote p → SlotMove s l p (s.proc p).promote
  | dispatch : l.act = .dispatch → (s.cpu l.cpu).pc = .dispatch p →
      SlotMove s l p (s.proc p).dispatch
  | tick : l.act = .kerneltrap → (s.cpu l.cpu).proc = some p → SlotMove s l p (s.proc p).tick
  | yield : l.act = .yield → (s.cpu l.cpu).running .normal = some p →
      SlotMove s l p (s.proc p).yield
  | sleep (chan : ℕ) : l.act = .sleep chan → (s.cpu l.cpu).running .normal = some p →
      SlotMove s l p ((s.proc p).sleep chan)
  | exit (status : ℤ) : l.act = .kexitZombie status → (s.cpu l.cpu).running .exiting = some p →
      SlotMove s l p ((s.proc p).exit status)
  | alloc (q : Slot) : l.act = .kforkAlloc p true → (s.cpu l.cpu).running .normal = some q →
      (s.proc p).state = .unused →
      SlotMove s l p (((s.proc p).allocproc s.nextpid).inherit (s.proc q))
  | allocFail : l.act = .kforkAlloc p false → (s.proc p).state = .unused →
      SlotMove s l p ((s.proc p).allocproc s.nextpid).freeproc
  | parent (q : Option Slot) : l.act = .kforkParent ∨ l.act = .kexitReparent →
      SlotMove s l p { s.proc p with parent := q }
  | runnable : l.act = .kforkRunnable → (s.cpu l.cpu).thread = .linked p →
      SlotMove s l p { s.proc p with state := .runnable }
  | free : l.act = .kwaitFree p → (s.proc p).state = .zombie → SlotMove s l p (s.proc p).freeproc
  | wakeup (chan : ℕ) : l.act = .wakeup p chan → SlotMove s l p ((s.proc p).wakeup chan)
  | kkill (pid : ℤ) : l.act = .kkill p pid → SlotMove s l p ((s.proc p).kkill pid)
  | setkilled : l.act = .setkilled → (s.cpu l.cpu).running .normal = some p →
      SlotMove s l p { s.proc p with killed := true }

theorem SlotMove.slotStep {s : State} {l : Label} {p : Slot} {x : Proc} (h : SlotMove s l p x) :
    SlotStep s l.cpu p x := by
  cases h with
  | same => exact .same
  | promote _ hpc => exact .promote hpc
  | dispatch _ hpc => exact .dispatch hpc
  | tick _ hp => exact .tick hp
  | yield _ hp => exact .yield hp
  | sleep chan _ hp => exact .sleep chan hp
  | exit status _ hp => exact .exit status hp
  | alloc q _ hq hunused => exact .alloc q hq hunused
  | allocFail _ hunused => exact .allocFail hunused
  | parent q => exact .parent q
  | runnable _ hth => exact .runnable hth
  | free _ hz => exact .free hz
  | wakeup chan => exact .wakeup chan
  | kkill pid => exact .kkill pid
  | setkilled => exact .setkilled

theorem slotMove_updProc {s t : State} {l : Label} {q : Slot} {f : Proc → Proc}
    (ht : t.proc = s.proc) (hq : SlotMove s l q (f (s.proc q))) (p : Slot) :
    SlotMove s l p ((t.updProc q f).proc p) := by
  by_cases hpq : p = q
  · subst hpq
    rw [State.updProc_proc_self, ht]
    exact hq
  · rw [State.updProc_proc_of_ne _ _ hpq, ht]
    exact .same

theorem slotMove_of_step {s s' : State} {l : Label} (h : step s l = some s') (p : Slot) :
    SlotMove s l p (s'.proc p) := by
  obtain ⟨j, a⟩ := l
  have hmove := move_of_step h
  cases hmove with
  | promote i hpc => exact slotMove_updProc rfl (.promote rfl hpc) p
  | pick | skip => exact .same
  | dispatch q hpc => exact slotMove_updProc rfl (.dispatch rfl hpc) p
  | tick q _ hq => exact slotMove_updProc (State.clockintr_proc s j) (.tick rfl hq) p
  | idle =>
    rw [State.clockintr_proc]
    exact .same
  | yield q hq => exact slotMove_updProc (State.clockintr_proc s j) (.yield rfl hq) p
  | sleep q chan hq =>
    exact slotMove_updProc (f := fun x => x.sleep chan) rfl (.sleep chan rfl hq) p
  | exit q status hq =>
    exact slotMove_updProc (f := fun x => x.exit status) rfl (.exit status rfl hq) p
  | alloc q np hq hunused =>
    exact slotMove_updProc (s := s) (f := fun x => (x.allocproc s.nextpid).inherit (s.proc q)) rfl
      (.alloc q rfl hq hunused) p
  | allocFail q np _ hunused =>
    exact slotMove_updProc (s := s) (f := fun x => (x.allocproc s.nextpid).freeproc) rfl
      (.allocFail rfl hunused) p
  | parent q np =>
    exact slotMove_updProc (f := fun x => { x with parent := some q }) rfl
      (.parent (some q) (Or.inl rfl)) p
  | runnable np _ hth =>
    exact slotMove_updProc (f := fun x => { x with state := .runnable }) rfl (.runnable rfl hth) p
  | reparent q =>
    rw [State.updCpu_proc]
    unfold State.reparent
    dsimp only
    split
    · exact .parent (some s.initproc) (Or.inr rfl)
    · exact .same
  | free q pp _ _ hz => exact slotMove_updProc rfl (.free rfl hz) p
  | wakeup q chan => exact slotMove_updProc rfl (.wakeup chan rfl) p
  | kkill _ q pid => exact slotMove_updProc rfl (.kkill pid rfl) p
  | setkilled q hq =>
    exact slotMove_updProc (f := fun x => { x with killed := true }) rfl (.setkilled rfl hq) p

theorem slotStep_of_step {s s' : State} {l : Label} (h : step s l = some s') (p : Slot) :
    SlotStep s l.cpu p (s'.proc p) := (slotMove_of_step h p).slotStep

/-! ## Boot -/

/-- A CPU that enters `scheduler()`. -/
def Cpu.boot : Cpu where
  proc := none
  pc := .promote 0
  thread := .normal
  lastQueuedProc := fun _ => INIT_RR_INDEX

/-- The first process, as `userinit` leaves it. -/
def Proc.userinit : Proc := { Proc.init.allocproc 1 with state := .runnable }

/-- After `procinit` and `userinit`: one `RUNNABLE` process, and every CPU enters
`scheduler()`.  A CPU that is not there takes no step. -/
def boot : State where
  proc := Function.update (fun _ => Proc.init) 0 Proc.userinit
  cpu := fun _ => Cpu.boot
  nextpid := 2
  initproc := 0
  ticks := 0

end Sched
end Xv6
