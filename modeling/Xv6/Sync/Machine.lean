import Xv6.Lib.Transition
import Xv6.Sched.Proc

/-!
# Kernel threads with spinlocks

The threads of the kernel, one for each process and any number of interrupt handlers, interleaved
at the granularity of `acquire` and `release`.  What a thread does is given as data: `Code` maps a
place in the code to an instruction, and the instructions are the lock operations, a computation
between two of them, and the functions of `kernel/proc.c` through which all waiting goes: `sleep`,
`wakeup`, `killed`, `kkill`, `yield` and `sched`.  These are cut at their own lock operations
(`Pc`), so that nothing in them is more atomic than in the source.

A process is one thread: it is run by at most one CPU at a time.  While its thread is switched out,
at `off` or `asleep`, it takes no step.  `swtch` leaves the process's lock to the scheduler, which
releases it (`settle`), and the scheduler resumes a `RUNNABLE` process with the lock held
(`dispatch`).

A step of a thread is a primitive act on the shared state and a new place (`next`), so that a proof
can ask what an act does to the state without asking which function it belongs to.
-/

namespace Xv6
namespace Sync

open Sched Transition

/-- A spinlock: that of a process, or a condition lock. -/
inductive Lock (K : Type) where
  | proc (p : Slot)
  | cond (l : K)
  deriving DecidableEq

/-- A thread of the kernel.  The schedulers of all CPUs are one thread here; it runs no code, and
only holds the locks of processes that are switched out. -/
inductive Thread where
  | proc (p : Slot)
  | intr (n : ℕ)
  | sched
  deriving DecidableEq

/-- The assignments to the process table that `kfork`, `kexit`, `kwait` and `setkilled` make. -/
inductive TableOp where
  /-- `allocproc` and what `kfork` copies from the parent. -/
  | alloc (np : Slot)
  /-- `allocproc` and `freeproc`, when memory has run out. -/
  | allocFail (np : Slot)
  | setParent (pp parent : Slot)
  /-- `np->state = RUNNABLE` -/
  | ready (np : Slot)
  /-- `p->xstate = status; p->state = ZOMBIE` of the current process. -/
  | exit (status : ℤ)
  /-- `freeproc(pp)` -/
  | free (pp : Slot)
  /-- `p->killed = 1` of the current process. -/
  | setkilled

/-- An instruction.  `ι` is what the hardware and user programs supply, `σ` the data that condition
locks protect, `ℓ` the places in the code. -/
inductive Instr (K ι σ ℓ : Type) where
  | acquire (l : Lock K) (x : ℓ)
  | release (l : Lock K) (x : ℓ)
  | compute (f : ι → Table → σ → σ × ℓ)
  | table (op : TableOp) (x : ℓ)
  | sleep (chan : ℕ) (lk : K) (x : ℓ)
  | wakeup (chan : ℕ) (x : ℓ)
  /-- Go on at `x` if the process has been killed, else at `y`. -/
  | killed (x y : ℓ)
  | kkill (pid : ℤ) (x : ℓ)
  | yield (x : ℓ)
  | sched (x : ℓ)
  | panic

/-- The code of every thread, and the place where a new process starts. -/
structure Code (K ι σ ℓ : Type) where
  instr : Thread → ℓ → Instr K ι σ ℓ
  forkret : ℓ

/-- The place of a thread, inside the functions of `kernel/proc.c` too. -/
inductive Pc (K ℓ : Type) where
  | code (x : ℓ)
  /-- `sleep` has acquired `p->lock`, -/
  | sleepLocked (chan : ℕ) (lk : K) (x : ℓ)
  /-- has released `lk`, -/
  | sleepUnlocked (chan : ℕ) (lk : K) (x : ℓ)
  /-- is switched out, -/
  | asleep (chan : ℕ) (lk : K) (x : ℓ)
  /-- has come back from `sched`, holding `p->lock`, -/
  | woken (lk : K) (x : ℓ)
  /-- and is about to acquire `lk` again. -/
  | relock (lk : K) (x : ℓ)
  /-- The scan of `wakeup` is at slot `i`, -/
  | wakeup (chan i : ℕ) (x : ℓ)
  /-- and has acquired the lock of `q`. -/
  | wakeupLocked (chan : ℕ) (q : Slot) (x : ℓ)
  | killedLocked (x y : ℓ)
  | kkill (pid : ℤ) (i : ℕ) (x : ℓ)
  | kkillLocked (pid : ℤ) (q : Slot) (x : ℓ)
  | yieldLocked (x : ℓ)
  /-- Switched out, not in `sleep`. -/
  | off (x : ℓ)
  /-- Back from there, holding `p->lock`. -/
  | resumed (x : ℓ)
  deriving DecidableEq

/-- A process that has exited: its slot, its pid and its status. -/
structure Exit where
  slot : Slot
  pid : ℤ
  xstate : ℤ
  deriving DecidableEq

/-- A successful `kwait`: who called it, the parent of the zombie at that time, what was returned,
and which exit it was, counted from 0. -/
structure Wait where
  caller : Thread
  parent : Option Slot
  exit : Exit
  tag : ℕ
  deriving DecidableEq

/-- The state of the kernel.  The last three fields are a record of exits and waits, which no code
reads. -/
structure State (K σ ℓ : Type) where
  proc : Table
  data : σ
  lock : Lock K → Option Thread
  pc : Thread → Pc K ℓ
  nextpid : ℤ
  exits : List Exit
  waits : List Wait
  /-- Which exit has made the zombie in a slot. -/
  tag : Slot → ℕ

variable {K ι σ ℓ : Type}

/-! ## Updates -/

namespace State

variable (s : State K σ ℓ)

/-- Change one slot. -/
def setProc (p : Slot) (f : Proc → Proc) : State K σ ℓ :=
  { s with proc := Function.update s.proc p (f (s.proc p)) }

/-- Change the holder of a lock. -/
def setLock [DecidableEq K] (l : Lock K) (t : Option Thread) : State K σ ℓ :=
  { s with lock := Function.update s.lock l t }

/-- A thread goes on at another place. -/
def goto (t : Thread) (pc : Pc K ℓ) : State K σ ℓ :=
  { s with pc := Function.update s.pc t pc }

@[simp] theorem setProc_data (p : Slot) (f : Proc → Proc) : (s.setProc p f).data = s.data := rfl
@[simp] theorem setProc_lock (p : Slot) (f : Proc → Proc) : (s.setProc p f).lock = s.lock := rfl
@[simp] theorem setProc_pc (p : Slot) (f : Proc → Proc) : (s.setProc p f).pc = s.pc := rfl
@[simp] theorem goto_proc (t : Thread) (pc : Pc K ℓ) : (s.goto t pc).proc = s.proc := rfl
@[simp] theorem goto_data (t : Thread) (pc : Pc K ℓ) : (s.goto t pc).data = s.data := rfl
@[simp] theorem goto_lock (t : Thread) (pc : Pc K ℓ) : (s.goto t pc).lock = s.lock := rfl

@[simp] theorem setProc_proc_self (p : Slot) (f : Proc → Proc) :
    (s.setProc p f).proc p = f (s.proc p) := Function.update_self ..

theorem setProc_proc_of_ne {p q : Slot} (f : Proc → Proc) (h : q ≠ p) :
    (s.setProc p f).proc q = s.proc q := Function.update_of_ne h ..

@[simp] theorem goto_pc_self (t : Thread) (pc : Pc K ℓ) : (s.goto t pc).pc t = pc :=
  Function.update_self ..

theorem goto_pc_of_ne {t u : Thread} (pc : Pc K ℓ) (h : u ≠ t) : (s.goto t pc).pc u = s.pc u :=
  Function.update_of_ne h ..

variable [DecidableEq K]

@[simp] theorem setLock_proc (l : Lock K) (t : Option Thread) : (s.setLock l t).proc = s.proc := rfl
@[simp] theorem setLock_data (l : Lock K) (t : Option Thread) : (s.setLock l t).data = s.data := rfl
@[simp] theorem setLock_pc (l : Lock K) (t : Option Thread) : (s.setLock l t).pc = s.pc := rfl

@[simp] theorem setLock_lock_self (l : Lock K) (t : Option Thread) :
    (s.setLock l t).lock l = t := Function.update_self ..

theorem setLock_lock_of_ne {l m : Lock K} (t : Option Thread) (h : m ≠ l) :
    (s.setLock l t).lock m = s.lock m := Function.update_of_ne h ..

end State

/-! ## Assignments to the process table -/

/-- `myproc()`. -/
def Thread.myproc : Thread → Option Slot
  | .proc p => some p
  | _ => none

/-- `np->parent = parent`. -/
def Proc.setParent (parent : Slot) (p : Proc) : Proc := { p with parent := some parent }

def Proc.ready (p : Proc) : Proc := { p with state := .runnable }

/-- The assignments of `kexit`, before `sched`. -/
def Proc.zombie (status : ℤ) (p : Proc) : Proc := { p with xstate := status, state := .zombie }

def Proc.setkilled (p : Proc) : Proc := { p with killed := true }

/-- The exit that a zombie stands for. -/
def exitOf (tb : Table) (p : Slot) : Exit := ⟨p, (tb p).pid, (tb p).xstate⟩

/-- The slot that an assignment changes, and how. -/
def State.edited (s : State K σ ℓ) (t : Thread) : TableOp → Option (Slot × (Proc → Proc))
  | .alloc np => some (np, fun x =>
    match t.myproc with
    | some p => (x.allocproc s.nextpid).inherit (s.proc p)
    | none => x.allocproc s.nextpid)
  | .allocFail np => some (np, fun x => (x.allocproc s.nextpid).freeproc)
  | .setParent pp parent => some (pp, Proc.setParent parent)
  | .ready np => some (np, Proc.ready)
  | .exit status => t.myproc.map fun p => (p, Proc.zombie status)
  | .free pp => some (pp, Proc.freeproc)
  | .setkilled => t.myproc.map fun p => (p, Proc.setkilled)

/-- The table after an assignment. -/
def State.editTable (s : State K σ ℓ) (t : Thread) (op : TableOp) : Table :=
  match s.edited t op with
  | some (p, f) => Function.update s.proc p (f (s.proc p))
  | none => s.proc

/-- What an assignment does.  `alloc` sets `np->context`, so the new thread will start at
`forkret`; `alloc` and `allocFail` take a pid. -/
def State.table (s : State K σ ℓ) (forkret : ℓ) (t : Thread) (op : TableOp) : State K σ ℓ :=
  let s' := { s with proc := s.editTable t op }
  match op with
  | .alloc np => { s'.goto (.proc np) (.off forkret) with nextpid := cInt (s.nextpid + 1) }
  | .allocFail _ => { s' with nextpid := cInt (s.nextpid + 1) }
  | .setParent .. | .ready _ | .setkilled => s'
  | .exit status =>
    match t.myproc with
    | some p =>
      { s' with
        exits := s.exits ++ [⟨p, (s.proc p).pid, status⟩]
        tag := Function.update s.tag p s.exits.length }
    | none => s'
  | .free pp =>
    { s' with waits := s.waits ++ [⟨t, (s.proc pp).parent, exitOf s.proc pp, s.tag pp⟩] }

section Table

variable (s : State K σ ℓ) (forkret : ℓ) (t : Thread) (op : TableOp)

@[simp] theorem State.table_proc : (s.table forkret t op).proc = s.editTable t op := by
  cases op with
  | exit => simp only [State.table]; cases t.myproc <;> rfl
  | _ => rfl

@[simp] theorem State.table_lock : (s.table forkret t op).lock = s.lock := by
  cases op with
  | exit => simp only [State.table]; cases t.myproc <;> rfl
  | _ => rfl

@[simp] theorem State.table_data : (s.table forkret t op).data = s.data := by
  cases op with
  | exit => simp only [State.table]; cases t.myproc <;> rfl
  | _ => rfl

theorem State.table_pc (u : Thread) : (s.table forkret t op).pc u = s.pc u ∨
    ∃ np, op = .alloc np ∧ u = .proc np ∧ (s.table forkret t op).pc u = .off forkret := by
  cases op with
  | alloc np =>
    by_cases hu : u = .proc np
    · exact Or.inr ⟨np, rfl, hu, hu ▸ State.goto_pc_self ..⟩
    · exact Or.inl (State.goto_pc_of_ne _ _ hu)
  | exit => left; simp only [State.table]; cases t.myproc <;> rfl
  | _ => exact Or.inl rfl

/-- A slot after an assignment: as before, or the one that was changed. -/
theorem State.editTable_apply (p : Slot) : s.editTable t op p = s.proc p ∨
    ∃ f, s.edited t op = some (p, f) ∧ s.editTable t op p = f (s.proc p) := by
  rw [State.editTable]
  cases hop : s.edited t op with
  | none => exact Or.inl rfl
  | some r =>
    obtain ⟨q, f⟩ := r
    by_cases hp : p = q
    · subst hp
      exact Or.inr ⟨f, rfl, Function.update_self ..⟩
    · exact Or.inl (Function.update_of_ne hp ..)

theorem State.editTable_alloc (np : Slot) : s.editTable t (.alloc np) np =
    match t.myproc with
    | some p => ((s.proc np).allocproc s.nextpid).inherit (s.proc p)
    | none => (s.proc np).allocproc s.nextpid := Function.update_self ..

theorem State.edited_state {p : Slot} {f : Proc → Proc} (h : s.edited t op = some (p, f))
    (x : Proc) : (f x).state = .used ∨ (f x).state = .unused ∨ (f x).state = .runnable ∨
      (f x).state = .zombie ∨ (f x).state = x.state ∧ (f x).chan = x.chan := by
  cases op with
  | alloc np =>
    obtain ⟨-, rfl⟩ := Prod.mk.inj (Option.some.inj h)
    left
    dsimp only
    cases t.myproc <;> rfl
  | allocFail np =>
    obtain ⟨-, rfl⟩ := Prod.mk.inj (Option.some.inj h)
    exact Or.inr (Or.inl rfl)
  | setParent pp parent =>
    obtain ⟨-, rfl⟩ := Prod.mk.inj (Option.some.inj h)
    exact Or.inr (Or.inr (Or.inr (Or.inr ⟨rfl, rfl⟩)))
  | ready np =>
    obtain ⟨-, rfl⟩ := Prod.mk.inj (Option.some.inj h)
    exact Or.inr (Or.inr (Or.inl rfl))
  | exit status =>
    obtain ⟨q, -, hq⟩ := Option.map_eq_some_iff.mp h
    obtain ⟨-, rfl⟩ := Prod.mk.inj hq
    exact Or.inr (Or.inr (Or.inr (Or.inl rfl)))
  | free pp =>
    obtain ⟨-, rfl⟩ := Prod.mk.inj (Option.some.inj h)
    exact Or.inr (Or.inl rfl)
  | setkilled =>
    obtain ⟨q, -, hq⟩ := Option.map_eq_some_iff.mp h
    obtain ⟨-, rfl⟩ := Prod.mk.inj hq
    exact Or.inr (Or.inr (Or.inr (Or.inr ⟨rfl, rfl⟩)))

theorem State.sleeping_of_editTable {p : Slot} (h : (s.editTable t op p).state = .sleeping) :
    (s.proc p).state = .sleeping ∧ (s.editTable t op p).chan = (s.proc p).chan := by
  rcases s.editTable_apply t op p with heq | ⟨f, hf, heq⟩
  · rw [heq] at h ⊢
    exact ⟨h, rfl⟩
  · rw [heq] at h ⊢
    rcases s.edited_state t op hf (s.proc p) with h' | h' | h' | h' | ⟨h', hchan⟩
    · exact absurd (h'.symm.trans h) (by simp)
    · exact absurd (h'.symm.trans h) (by simp)
    · exact absurd (h'.symm.trans h) (by simp)
    · exact absurd (h'.symm.trans h) (by simp)
    · exact ⟨h'.symm.trans h, hchan⟩

end Table

/-! ## Steps -/

variable [DecidableEq K]

/-- A primitive act of a thread. -/
inductive Act (K σ : Type) where
  | acquire (l : Lock K)
  | release (l : Lock K)
  /-- Change slot `p` and release its lock. -/
  | edit (p : Slot) (f : Proc → Proc)
  | data (d : σ)
  | table (op : TableOp)
  /-- Change the slot of the thread and `swtch` to the scheduler. -/
  | switch (f : Proc → Proc)
  | skip

/-- Do an act; `none` if the thread has to spin, or the lock operation is not allowed. -/
def State.apply (s : State K σ ℓ) (forkret : ℓ) (t : Thread) : Act K σ → Option (State K σ ℓ)
  | .acquire l => if s.lock l = none then some (s.setLock l (some t)) else none
  | .release l => if s.lock l = some t then some (s.setLock l none) else none
  | .edit p f =>
    if s.lock (.proc p) = some t then some ((s.setProc p f).setLock (.proc p) none) else none
  | .data d => some { s with data := d }
  | .table op => some (s.table forkret t op)
  | .switch f =>
    match t with
    | .proc p =>
      if s.lock (.proc p) = some t then
        some ((s.setProc p f).setLock (.proc p) (some .sched))
      else none
    | _ => none
  | .skip => some s

/-- `sleep` on `chan`, before `sched`. -/
def Proc.fallAsleep (chan : ℕ) (p : Proc) : Proc :=
  { p with chan := chan, state := .sleeping, voluntarilyYielded := true }

/-- `yield`, before `sched`. -/
def Proc.giveWay (p : Proc) : Proc := { p with state := .runnable, voluntarilyYielded := true }

/-- `p->chan = 0`. -/
def Proc.clearChan (p : Proc) : Proc := { p with chan := 0 }

/-- The next act of the instruction at a place in the code. -/
def Instr.next (t : Thread) (i : ι) (tb : Table) (d : σ) :
    Instr K ι σ ℓ → Option (Act K σ × Pc K ℓ)
  | .acquire l x => some (.acquire l, .code x)
  | .release l x => some (.release l, .code x)
  | .compute f => some (.data (f i tb d).1, .code (f i tb d).2)
  | .table op x => some (.table op, .code x)
  | .sleep chan lk x => t.myproc.map fun p => (.acquire (.proc p), .sleepLocked chan lk x)
  | .wakeup chan x => some (.skip, .wakeup chan 0 x)
  | .killed x y => t.myproc.map fun p => (.acquire (.proc p), .killedLocked x y)
  | .kkill pid x => some (.skip, .kkill pid 0 x)
  | .yield x => t.myproc.map fun p => (.acquire (.proc p), .yieldLocked x)
  | .sched x => some (.switch id, .off x)
  | .panic => none

/-- The next act of a thread and the place after it. -/
def Code.next (code : Code K ι σ ℓ) (t : Thread) (i : ι) (tb : Table) (d : σ) :
    Pc K ℓ → Option (Act K σ × Pc K ℓ)
  | .code x => (code.instr t x).next t i tb d
  | .sleepLocked chan lk x => some (.release (.cond lk), .sleepUnlocked chan lk x)
  | .sleepUnlocked chan lk x => some (.switch (Proc.fallAsleep chan), .asleep chan lk x)
  | .asleep .. | .off _ => none
  | .woken lk x => t.myproc.map fun p => (.edit p Proc.clearChan, .relock lk x)
  | .relock lk x => some (.acquire (.cond lk), .code x)
  | .wakeup chan i x =>
    if h : i < NPROC then
      if t = .proc ⟨i, h⟩ then some (.skip, .wakeup chan (i + 1) x)
      else some (.acquire (.proc ⟨i, h⟩), .wakeupLocked chan ⟨i, h⟩ x)
    else some (.skip, .code x)
  | .wakeupLocked chan q x =>
    some (.edit q fun p => p.wakeup chan, .wakeup chan (q + 1) x)
  | .killedLocked x y => t.myproc.map fun p => (.edit p id, .code (if (tb p).killed then x else y))
  | .kkill pid i x =>
    if h : i < NPROC then some (.acquire (.proc ⟨i, h⟩), .kkillLocked pid ⟨i, h⟩ x)
    else some (.skip, .code x)
  | .kkillLocked pid q x =>
    some (.edit q fun p => p.kkill pid,
      if (tb q).pid = pid then .code x else .kkill pid (q + 1) x)
  | .yieldLocked x => some (.switch Proc.giveWay, .off x)
  | .resumed x => t.myproc.map fun p => (.edit p id, .code x)

/-- The place of a thread that is switched in. -/
def Pc.resume? : Pc K ℓ → Option (Pc K ℓ)
  | .asleep _ lk x => some (.woken lk x)
  | .off x => some (.resumed x)
  | _ => none

/-- The assignments of the scheduler before `swtch`. -/
def Proc.run (p : Proc) : Proc := { p with state := .running, voluntarilyYielded := false }

inductive Label (ι : Type) where
  /-- The next act of a thread. -/
  | run (t : Thread) (i : ι)
  /-- The scheduler switches to a process. -/
  | dispatch (p : Slot)
  /-- The scheduler, back from a process, releases its lock. -/
  | settle (p : Slot)

/-- One step. -/
def step (code : Code K ι σ ℓ) (s : State K σ ℓ) : Label ι → Option (State K σ ℓ)
  | .run t i =>
    if t = .sched then none
    else
      (code.next t i s.proc s.data (s.pc t)).bind fun r =>
        (s.apply code.forkret t r.1).map fun s' => s'.goto t r.2
  | .dispatch p =>
    if s.lock (.proc p) = none ∧ (s.proc p).state = .runnable then
      (s.pc (.proc p)).resume?.map fun pc =>
        ((s.setProc p Proc.run).setLock (.proc p) (some (.proc p))).goto (.proc p) pc
    else none
  | .settle p =>
    if s.lock (.proc p) = some .sched then
      some ((s.setProc p Proc.demote).setLock (.proc p) none)
    else none

/-- The step relation. -/
abbrev Steps (code : Code K ι σ ℓ) : State K σ ℓ → Label ι → State K σ ℓ → Prop :=
  ofStep (step code)

/-! ## What a step can do -/

variable {code : Code K ι σ ℓ} {s s' : State K σ ℓ}

/-- The acts of a thread, one by one. -/
inductive Next (code : Code K ι σ ℓ) (t : Thread) (i : ι) (tb : Table) (d : σ) :
    Pc K ℓ → Act K σ → Pc K ℓ → Prop
  | acquire (x : ℓ) (l : Lock K) (y : ℓ) : code.instr t x = .acquire l y →
      Next code t i tb d (.code x) (.acquire l) (.code y)
  | release (x : ℓ) (l : Lock K) (y : ℓ) : code.instr t x = .release l y →
      Next code t i tb d (.code x) (.release l) (.code y)
  | compute (x : ℓ) (f : ι → Table → σ → σ × ℓ) : code.instr t x = .compute f →
      Next code t i tb d (.code x) (.data (f i tb d).1) (.code (f i tb d).2)
  | table (x : ℓ) (op : TableOp) (y : ℓ) : code.instr t x = .table op y →
      Next code t i tb d (.code x) (.table op) (.code y)
  | sleep (p : Slot) (x : ℓ) (chan : ℕ) (lk : K) (y : ℓ) : t = .proc p →
      code.instr t x = .sleep chan lk y →
      Next code t i tb d (.code x) (.acquire (.proc p)) (.sleepLocked chan lk y)
  | wakeup (x : ℓ) (chan : ℕ) (y : ℓ) : code.instr t x = .wakeup chan y →
      Next code t i tb d (.code x) .skip (.wakeup chan 0 y)
  | killed (p : Slot) (x y z : ℓ) : t = .proc p → code.instr t x = .killed y z →
      Next code t i tb d (.code x) (.acquire (.proc p)) (.killedLocked y z)
  | kkill (x : ℓ) (pid : ℤ) (y : ℓ) : code.instr t x = .kkill pid y →
      Next code t i tb d (.code x) .skip (.kkill pid 0 y)
  | yield (p : Slot) (x y : ℓ) : t = .proc p → code.instr t x = .yield y →
      Next code t i tb d (.code x) (.acquire (.proc p)) (.yieldLocked y)
  | sched (x y : ℓ) : code.instr t x = .sched y →
      Next code t i tb d (.code x) (.switch id) (.off y)
  | sleepLocked (chan : ℕ) (lk : K) (x : ℓ) :
      Next code t i tb d (.sleepLocked chan lk x) (.release (.cond lk)) (.sleepUnlocked chan lk x)
  | sleepUnlocked (chan : ℕ) (lk : K) (x : ℓ) :
      Next code t i tb d (.sleepUnlocked chan lk x) (.switch (Proc.fallAsleep chan))
        (.asleep chan lk x)
  | woken (p : Slot) (lk : K) (x : ℓ) : t = .proc p →
      Next code t i tb d (.woken lk x) (.edit p Proc.clearChan) (.relock lk x)
  | relock (lk : K) (x : ℓ) : Next code t i tb d (.relock lk x) (.acquire (.cond lk)) (.code x)
  | wakeupSelf (chan : ℕ) (q : Slot) (x : ℓ) : t = .proc q →
      Next code t i tb d (.wakeup chan q x) .skip (.wakeup chan (q + 1) x)
  | wakeupLock (chan : ℕ) (q : Slot) (x : ℓ) : t ≠ .proc q →
      Next code t i tb d (.wakeup chan q x) (.acquire (.proc q)) (.wakeupLocked chan q x)
  | wakeupDone (chan n : ℕ) (x : ℓ) : NPROC ≤ n →
      Next code t i tb d (.wakeup chan n x) .skip (.code x)
  | wakeupLocked (chan : ℕ) (q : Slot) (x : ℓ) :
      Next code t i tb d (.wakeupLocked chan q x) (.edit q fun p => p.wakeup chan)
        (.wakeup chan (q + 1) x)
  | killedLocked (p : Slot) (x y : ℓ) : t = .proc p →
      Next code t i tb d (.killedLocked x y) (.edit p id) (.code (if (tb p).killed then x else y))
  | kkillLock (pid : ℤ) (q : Slot) (x : ℓ) :
      Next code t i tb d (.kkill pid q x) (.acquire (.proc q)) (.kkillLocked pid q x)
  | kkillNone (pid : ℤ) (n : ℕ) (x : ℓ) : NPROC ≤ n →
      Next code t i tb d (.kkill pid n x) .skip (.code x)
  | kkillHit (pid : ℤ) (q : Slot) (x : ℓ) : (tb q).pid = pid →
      Next code t i tb d (.kkillLocked pid q x) (.edit q fun p => p.kkill pid) (.code x)
  | kkillMiss (pid : ℤ) (q : Slot) (x : ℓ) : (tb q).pid ≠ pid →
      Next code t i tb d (.kkillLocked pid q x) (.edit q fun p => p.kkill pid)
        (.kkill pid (q + 1) x)
  | yieldLocked (x : ℓ) : Next code t i tb d (.yieldLocked x) (.switch Proc.giveWay) (.off x)
  | resumed (p : Slot) (x : ℓ) : t = .proc p →
      Next code t i tb d (.resumed x) (.edit p id) (.code x)

theorem Thread.eq_of_myproc {t : Thread} {p : Slot} (h : t.myproc = some p) : t = .proc p := by
  cases t with
  | proc q => rw [Option.some.inj h]
  | intr | sched => exact absurd h (by simp [Thread.myproc])

omit [DecidableEq K] in
theorem next_of_instr {t : Thread} {i : ι} {tb : Table} {d : σ} {x : ℓ} {act : Act K σ}
    {pc : Pc K ℓ} (h : (code.instr t x).next t i tb d = some (act, pc)) :
    Next code t i tb d (.code x) act pc := by
  cases hx : code.instr t x with
  | acquire l y =>
    rw [hx] at h
    obtain ⟨rfl, rfl⟩ := Prod.mk.inj (Option.some.inj h)
    exact .acquire x l y hx
  | release l y =>
    rw [hx] at h
    obtain ⟨rfl, rfl⟩ := Prod.mk.inj (Option.some.inj h)
    exact .release x l y hx
  | compute f =>
    rw [hx] at h
    obtain ⟨rfl, rfl⟩ := Prod.mk.inj (Option.some.inj h)
    exact .compute x f hx
  | table op y =>
    rw [hx] at h
    obtain ⟨rfl, rfl⟩ := Prod.mk.inj (Option.some.inj h)
    exact .table x op y hx
  | sleep chan lk y =>
    rw [hx] at h
    obtain ⟨p, hp, heq⟩ := Option.map_eq_some_iff.mp h
    obtain ⟨rfl, rfl⟩ := Prod.mk.inj heq
    exact .sleep p x chan lk y (Thread.eq_of_myproc hp) hx
  | wakeup chan y =>
    rw [hx] at h
    obtain ⟨rfl, rfl⟩ := Prod.mk.inj (Option.some.inj h)
    exact .wakeup x chan y hx
  | killed y z =>
    rw [hx] at h
    obtain ⟨p, hp, heq⟩ := Option.map_eq_some_iff.mp h
    obtain ⟨rfl, rfl⟩ := Prod.mk.inj heq
    exact .killed p x y z (Thread.eq_of_myproc hp) hx
  | kkill pid y =>
    rw [hx] at h
    obtain ⟨rfl, rfl⟩ := Prod.mk.inj (Option.some.inj h)
    exact .kkill x pid y hx
  | yield y =>
    rw [hx] at h
    obtain ⟨p, hp, heq⟩ := Option.map_eq_some_iff.mp h
    obtain ⟨rfl, rfl⟩ := Prod.mk.inj heq
    exact .yield p x y (Thread.eq_of_myproc hp) hx
  | sched y =>
    rw [hx] at h
    obtain ⟨rfl, rfl⟩ := Prod.mk.inj (Option.some.inj h)
    exact .sched x y hx
  | panic =>
    rw [hx] at h
    exact absurd h (by simp [Instr.next])

omit [DecidableEq K] in
theorem next_of_next {t : Thread} {i : ι} {tb : Table} {d : σ} {pc pc' : Pc K ℓ} {act : Act K σ}
    (h : code.next t i tb d pc = some (act, pc')) : Next code t i tb d pc act pc' := by
  cases pc with
  | code x => exact next_of_instr h
  | sleepLocked chan lk x =>
    obtain ⟨rfl, rfl⟩ := Prod.mk.inj (Option.some.inj h)
    exact .sleepLocked chan lk x
  | sleepUnlocked chan lk x =>
    obtain ⟨rfl, rfl⟩ := Prod.mk.inj (Option.some.inj h)
    exact .sleepUnlocked chan lk x
  | asleep | off => exact absurd h (by simp [Code.next])
  | woken lk x =>
    obtain ⟨p, hp, heq⟩ := Option.map_eq_some_iff.mp h
    obtain ⟨rfl, rfl⟩ := Prod.mk.inj heq
    exact .woken p lk x (Thread.eq_of_myproc hp)
  | relock lk x =>
    obtain ⟨rfl, rfl⟩ := Prod.mk.inj (Option.some.inj h)
    exact .relock lk x
  | wakeup chan n x =>
    rw [Code.next] at h
    split at h
    · rename_i hn
      split at h
      · rename_i ht
        obtain ⟨rfl, rfl⟩ := Prod.mk.inj (Option.some.inj h)
        exact .wakeupSelf chan ⟨n, hn⟩ x ht
      · rename_i ht
        obtain ⟨rfl, rfl⟩ := Prod.mk.inj (Option.some.inj h)
        exact .wakeupLock chan ⟨n, hn⟩ x ht
    · rename_i hn
      obtain ⟨rfl, rfl⟩ := Prod.mk.inj (Option.some.inj h)
      exact .wakeupDone chan n x (Nat.le_of_not_lt hn)
  | wakeupLocked chan q x =>
    obtain ⟨rfl, rfl⟩ := Prod.mk.inj (Option.some.inj h)
    exact .wakeupLocked chan q x
  | killedLocked x y =>
    obtain ⟨p, hp, heq⟩ := Option.map_eq_some_iff.mp h
    obtain ⟨rfl, rfl⟩ := Prod.mk.inj heq
    exact .killedLocked p x y (Thread.eq_of_myproc hp)
  | kkill pid n x =>
    rw [Code.next] at h
    split at h
    · rename_i hn
      obtain ⟨rfl, rfl⟩ := Prod.mk.inj (Option.some.inj h)
      exact .kkillLock pid ⟨n, hn⟩ x
    · rename_i hn
      obtain ⟨rfl, rfl⟩ := Prod.mk.inj (Option.some.inj h)
      exact .kkillNone pid n x (Nat.le_of_not_lt hn)
  | kkillLocked pid q x =>
    obtain ⟨rfl, rfl⟩ := Prod.mk.inj (Option.some.inj h)
    by_cases hpid : (tb q).pid = pid
    · rw [if_pos hpid]
      exact .kkillHit pid q x hpid
    · rw [if_neg hpid]
      exact .kkillMiss pid q x hpid
  | yieldLocked x =>
    obtain ⟨rfl, rfl⟩ := Prod.mk.inj (Option.some.inj h)
    exact .yieldLocked x
  | resumed x =>
    obtain ⟨p, hp, heq⟩ := Option.map_eq_some_iff.mp h
    obtain ⟨rfl, rfl⟩ := Prod.mk.inj heq
    exact .resumed p x (Thread.eq_of_myproc hp)

theorem step_dispatch {p : Slot} (h : step code s (.dispatch p) = some s') :
    ∃ pc, s.lock (.proc p) = none ∧ (s.proc p).state = .runnable ∧
      (s.pc (.proc p)).resume? = some pc ∧
      s' = ((s.setProc p Proc.run).setLock (.proc p) (some (.proc p))).goto (.proc p) pc := by
  rw [step] at h
  split at h
  · rename_i hguard
    obtain ⟨pc, hpc, hs'⟩ := Option.map_eq_some_iff.mp h
    exact ⟨pc, hguard.1, hguard.2, hpc, hs'.symm⟩
  · exact absurd h (by simp)

theorem step_settle {p : Slot} (h : step code s (.settle p) = some s') :
    s.lock (.proc p) = some .sched ∧ s' = (s.setProc p Proc.demote).setLock (.proc p) none := by
  rw [step] at h
  split at h
  · rename_i hguard
    exact ⟨hguard, (Option.some.inj h).symm⟩
  · exact absurd h (by simp)

/-- What an act does to the state, with its guard. -/
inductive Acted (s : State K σ ℓ) (forkret : ℓ) (t : Thread) : Act K σ → State K σ ℓ → Prop
  | acquire (l : Lock K) : s.lock l = none → Acted s forkret t (.acquire l) (s.setLock l (some t))
  | release (l : Lock K) : s.lock l = some t → Acted s forkret t (.release l) (s.setLock l none)
  | edit (p : Slot) (f : Proc → Proc) : s.lock (.proc p) = some t →
      Acted s forkret t (.edit p f) ((s.setProc p f).setLock (.proc p) none)
  | data (d : σ) : Acted s forkret t (.data d) { s with data := d }
  | table (op : TableOp) : Acted s forkret t (.table op) (s.table forkret t op)
  | switch (p : Slot) (f : Proc → Proc) : t = .proc p → s.lock (.proc p) = some t →
      Acted s forkret t (.switch f) ((s.setProc p f).setLock (.proc p) (some .sched))
  | skip : Acted s forkret t .skip s

theorem acted_of_apply {forkret : ℓ} {t : Thread} {act : Act K σ}
    (h : s.apply forkret t act = some s') : Acted s forkret t act s' := by
  cases act with
  | acquire l =>
    rw [State.apply] at h
    split at h
    · rename_i hl
      rw [← Option.some.inj h]
      exact .acquire l hl
    · exact absurd h (by simp)
  | release l =>
    rw [State.apply] at h
    split at h
    · rename_i hl
      rw [← Option.some.inj h]
      exact .release l hl
    · exact absurd h (by simp)
  | edit p f =>
    rw [State.apply] at h
    split at h
    · rename_i hl
      rw [← Option.some.inj h]
      exact .edit p f hl
    · exact absurd h (by simp)
  | data d =>
    rw [← Option.some.inj h]
    exact .data d
  | table op =>
    rw [← Option.some.inj h]
    exact .table op
  | switch f =>
    cases t with
    | proc p =>
      simp only [State.apply] at h
      split at h
      · rename_i hl
        rw [← Option.some.inj h]
        exact .switch p f rfl hl
      · exact absurd h (by simp)
    | intr | sched => exact absurd h (by simp [State.apply])
  | skip =>
    rw [← Option.some.inj h]
    exact .skip

theorem step_run {t : Thread} {i : ι} (h : step code s (.run t i) = some s') :
    ∃ pc act pc' s₁, t ≠ .sched ∧ s.pc t = pc ∧ Next code t i s.proc s.data pc act pc' ∧
      Acted s code.forkret t act s₁ ∧ s' = s₁.goto t pc' := by
  rw [step] at h
  split at h
  · exact absurd h (by simp)
  · rename_i ht
    obtain ⟨⟨act, pc⟩, hnext, hrest⟩ := Option.bind_eq_some_iff.mp h
    obtain ⟨s₁, happly, hs'⟩ := Option.map_eq_some_iff.mp hrest
    exact ⟨s.pc t, act, pc, s₁, ht, rfl, next_of_next hnext, acted_of_apply happly, hs'.symm⟩

end Sync
end Xv6
