import Xv6.Lib.Transition
import Xv6.Sched.Proc

/-!
# Spinlocks, interrupts and the switching of threads

Any number of CPUs run the scheduler and the kernel threads of any number of processes.  `push_off` and
`pop_off` (`kernel/spinlock.c`) keep two numbers for each CPU: how deep it is inside of `push_off`s, and
whether interrupts were on outside of all of them.  Both belong to the thread that runs there, but a thread
can leave its CPU in `sched` and come back on another one, and the scheduler runs in between with what it
finds.

At each step the thread on a CPU may begin any of the operations of `Act`, in whatever order; those that
take several instructions with shared data (`acquire`, `release`, `sched`) are cut into steps by a place
(`Pc`), and the steps of the CPUs interleave.  Instructions on the numbers of the CPU alone, with interrupts
off, are taken together.  The restrictions are those of the kernel's code: `sched` is called by a process
with only its lock held and a state other than `RUNNING`, `pop_off` for a `push_off` that has not been
undone, `intr_on`, `intr_off` and the return from a trap outside of all `push_off`s, and the state and the
context of a process are changed under its lock.

An interrupt can be taken at any time when interrupts are on, also inside of `push_off`, before it has turned
them off; the handler is a frame on top of the one that was interrupted.  The scheduler does not look at the
state of the process again that it has chosen before it switches to it, so the same process may be resumed
twice; each time it goes on from the registers that were saved in `p->context` last.
-/

namespace Xv6
namespace Intr

open Sched Transition

variable {C P K : Type}

/-- A spinlock: that of a process, or another one. -/
inductive Lock (P K : Type) where
  | proc (p : P)
  | other (k : K)
  deriving DecidableEq

/-- `struct spinlock` -/
structure Spinlock (C : Type) where
  locked : Bool
  cpu : Option C

/-- `struct cpu`, with the interrupt enable bit of the CPU's `sstatus`. -/
structure Cpu (P : Type) where
  proc : Option P
  noff : ℕ
  intena : Bool
  intr : Bool

inductive Panic where
  | acquire
  | release
  | popOffInterruptible
  | popOff
  | schedLock
  | schedLocks
  | schedRunning
  | schedInterruptible
  /-- `p` is null in `sched`. -/
  | fault
  deriving DecidableEq

/-- What `push_off` is called for. -/
inductive Purpose (L : Type) where
  | plain
  | acquire (l : L)
  deriving DecidableEq

/-- The place of a thread. -/
inductive Pc (L : Type) where
  /-- Between two operations. -/
  | run
  /-- `push_off` has read `old = intr_get()`. -/
  | push (old : Bool) (why : Purpose L)
  /-- `acquire` is at its loop, -/
  | spin (l : L)
  /-- and is through with it. -/
  | got (l : L)
  /-- `release` has cleared `lk->cpu`, -/
  | unlock (l : L)
  /-- and has given the lock free. -/
  | pop
  /-- `sched` has been called, -/
  | sched
  /-- and has made its checks and read `intena`. -/
  | swtch (intena : Bool)
  /-- `swtch` has returned to `sched`. -/
  | back (intena : Bool)
  deriving DecidableEq

/-- An interrupt can be taken here, if interrupts are on. -/
def Pc.interruptible {L : Type} : Pc L → Bool
  | .run | .push _ _ => true
  | _ => false

/-- A thread, or a handler on top of one.  No code reads the last three fields: the locks it has acquired and
not released, the number of its `push_off`s that are not undone, and whether interrupts were on when it called
the outermost of them. -/
structure Frame (L : Type) where
  pc : Pc L
  held : Finset L
  depth : ℕ
  was : Bool

/-- What runs on a CPU, or is saved in a context: the topmost frame and the interrupted ones below.  A new
process is `fresh` until `forkret` has released the lock that the scheduler has acquired for it. -/
structure Flow (L : Type) where
  frame : Frame L
  interrupted : List (Frame L)
  fresh : Bool

/-- The state of the machine.  `sched c` is `c->context`, where the scheduler goes on when the process leaves
the CPU, and `chosen c` is a variable of the scheduler. -/
structure State (C P K : Type) where
  cpu : C → Cpu P
  lock : Lock P K → Spinlock C
  state : P → ProcState
  flow : C → Flow (Lock P K)
  sched : C → Flow (Lock P K)
  chosen : C → Option P
  context : P → Flow (Lock P K)

/-- What the thread on a CPU can do. -/
inductive Act (P K : Type) where
  | pushOff
  | acquire (l : Lock P K)
  /-- The next step of the operation it is in. -/
  | go
  | release (l : Lock P K)
  | popOff
  | intrOn
  | intrOff
  /-- An interrupt is taken, -/
  | trap
  /-- and `kerneltrap` returns. -/
  | trapRet
  | setState (p : P) (x : ProcState)
  /-- `allocproc` lets the context of `p` point to `forkret`. -/
  | allocproc (p : P)
  | sched
  /-- The scheduler finds `p` to be `RUNNABLE`. -/
  | choose (p : P)
  /-- It switches to the process that it has chosen. -/
  | dispatch (p : P)

/-! ## `push_off` and `pop_off` -/

/-- `push_off` after `old = intr_get()` -/
def Cpu.pushOff (k : Cpu P) (old : Bool) : Cpu P :=
  { k with intr := false, intena := if k.noff = 0 then old else k.intena, noff := k.noff + 1 }

/-- `pop_off` -/
def Cpu.popOff (k : Cpu P) : Except Panic (Cpu P) :=
  if k.intr then .error .popOffInterruptible
  else if k.noff < 1 then .error .popOff
  else .ok { k with noff := k.noff - 1, intr := if k.noff - 1 = 0 ∧ k.intena then true else k.intr }

/-- `myproc`, with interrupts off. -/
def Cpu.myproc (k : Cpu P) : Except Panic (Option P × Cpu P) := do
  let k := k.pushOff k.intr
  let p := k.proc
  let k ← k.popOff
  return (p, k)

/-! ## Steps -/

/-- The context that `allocproc` makes: `forkret` finds the lock of its process held, and releases it. -/
def forkret [DecidableEq P] [DecidableEq K] (p : P) : Flow (Lock P K) :=
  ⟨⟨.run, {.proc p}, 1, false⟩, [], true⟩

namespace State

variable [DecidableEq C] [DecidableEq P] [DecidableEq K] (s : State C P K) (c : C)

def setCpu (k : Cpu P) : State C P K := { s with cpu := Function.update s.cpu c k }

def setFlow (f : Flow (Lock P K)) : State C P K := { s with flow := Function.update s.flow c f }

def setFrame (f : Frame (Lock P K)) : State C P K := s.setFlow c { s.flow c with frame := f }

def setLock (l : Lock P K) (x : Spinlock C) : State C P K := { s with lock := Function.update s.lock l x }

/-- The frame on top. -/
def frame : Frame (Lock P K) := (s.flow c).frame

/-- `holding` -/
def holding (l : Lock P K) : Bool := (s.lock l).locked && (s.lock l).cpu = some c

/-- A call of `push_off`. -/
def callPushOff (why : Purpose (Lock P K)) : Outcome Panic (State C P K) :=
  match (s.frame c).pc with
  | .run =>
    .next (s.setFrame c { s.frame c with
      pc := .push (s.cpu c).intr why
      was := if (s.frame c).depth = 0 then (s.cpu c).intr else (s.frame c).was })
  | _ => .blocked

/-- The rest of `push_off`, and the check of `acquire`. -/
def finishPushOff (old : Bool) : Purpose (Lock P K) → Outcome Panic (State C P K)
  | .plain =>
    .next ((s.setCpu c ((s.cpu c).pushOff old)).setFrame c
      { s.frame c with pc := .run, depth := (s.frame c).depth + 1 })
  | .acquire l =>
    if s.holding c l then .panic .acquire
    else .next ((s.setCpu c ((s.cpu c).pushOff old)).setFrame c
      { s.frame c with pc := .spin l, depth := (s.frame c).depth + 1 })

/-- A call of `pop_off`.  A process is no longer new once its `push_off`s are undone. -/
def callPopOff : Outcome Panic (State C P K) :=
  match (s.cpu c).popOff with
  | .error e => .panic e
  | .ok k =>
    .next ((s.setCpu c k).setFlow c { s.flow c with
      frame := { s.frame c with pc := .run, depth := (s.frame c).depth - 1 }
      fresh := (s.flow c).fresh && (s.frame c).depth != 1 })

/-- `release`, up to `lk->cpu = 0`. -/
def callRelease (l : Lock P K) : Outcome Panic (State C P K) :=
  match (s.frame c).pc with
  | .run =>
    if s.holding c l then
      .next ((s.setLock l { s.lock l with cpu := none }).setFrame c { s.frame c with pc := .unlock l })
    else .panic .release
  | _ => .blocked

/-- `sched`, up to `intena = mycpu()->intena`. -/
def schedCheck : Outcome Panic (State C P K) :=
  match (s.cpu c).myproc with
  | .error e => .panic e
  | .ok (none, _) => .panic .fault
  | .ok (some p, k) =>
    if !s.holding c (.proc p) then .panic .schedLock
    else if k.noff ≠ 1 then .panic .schedLocks
    else if s.state p = .running then .panic .schedRunning
    else if k.intr then .panic .schedInterruptible
    else .next ((s.setCpu c k).setFrame c { s.frame c with pc := .swtch k.intena })

/-- `swtch(&p->context, &mycpu()->context)` of process `p`.  The scheduler sets `c->proc = 0`. -/
def leave (p : P) (intena : Bool) : State C P K :=
  { s with
    context := Function.update s.context p
      { s.flow c with frame := { s.frame c with pc := .back intena } }
    flow := Function.update s.flow c (s.sched c)
    chosen := Function.update s.chosen c none
    cpu := Function.update s.cpu c { s.cpu c with proc := none } }

/-- `chosen->state = RUNNING; c->proc = chosen; swtch(&c->context, &chosen->context)` -/
def enter (p : P) : State C P K :=
  { s with
    state := Function.update s.state p .running
    sched := Function.update s.sched c (s.flow c)
    flow := Function.update s.flow c (s.context p)
    cpu := Function.update s.cpu c { s.cpu c with proc := some p } }

/-- The next step of an operation. -/
def go : Outcome Panic (State C P K) :=
  match (s.frame c).pc with
  | .run => .blocked
  | .push old why => s.finishPushOff c old why
  | .spin l =>
    if (s.lock l).locked then .blocked
    else .next ((s.setLock l { s.lock l with locked := true }).setFrame c { s.frame c with pc := .got l })
  | .got l =>
    .next ((s.setLock l { s.lock l with cpu := some c }).setFrame c
      { s.frame c with pc := .run, held := insert l (s.frame c).held })
  | .unlock l =>
    .next ((s.setLock l { s.lock l with locked := false }).setFrame c
      { s.frame c with pc := .pop, held := (s.frame c).held.erase l })
  | .pop => s.callPopOff c
  | .sched => s.schedCheck c
  | .swtch intena =>
    match (s.cpu c).proc with
    | some p => .next (s.leave c p intena)
    | none => .blocked
  | .back intena =>
    .next ((s.setCpu c { s.cpu c with intena := intena }).setFrame c { s.frame c with pc := .run })

/-- What the kernel's code sees to before it begins an operation. -/
def Allowed : Act P K → Prop
  | .pushOff | .acquire _ | .go | .release _ => True
  | .popOff => (s.frame c).pc = .run ∧ (s.frame c).held.card < (s.frame c).depth
  | .intrOn | .intrOff => (s.frame c).pc = .run ∧ (s.frame c).depth = 0
  | .trap => (s.frame c).pc.interruptible ∧ (s.cpu c).intr
  | .trapRet => (s.frame c).pc = .run ∧ (s.frame c).depth = 0
  | .setState p _ | .allocproc p => (s.frame c).pc = .run ∧ .proc p ∈ (s.frame c).held
  | .sched => (s.frame c).pc = .run ∧ (s.flow c).fresh = false ∧ (s.frame c).depth = 1 ∧
      ∃ p ∈ (s.cpu c).proc, (s.frame c).held = {.proc p} ∧ s.state p ≠ .running
  | .choose p => (s.frame c).pc = .run ∧ (s.cpu c).proc = none ∧ .proc p ∈ (s.frame c).held ∧ s.state p = .runnable
  | .dispatch p => (s.frame c).pc = .run ∧ (s.cpu c).proc = none ∧ (s.flow c).interrupted.length = 0 ∧
      s.chosen c = some p ∧ (s.frame c).held = {.proc p} ∧ (s.frame c).depth = 1

instance (a : Act P K) : Decidable (s.Allowed c a) :=
  match a with
  | .pushOff | .acquire _ | .go | .release _ => inferInstanceAs (Decidable True)
  | .popOff | .intrOn | .intrOff | .trap | .trapRet => inferInstanceAs (Decidable (_ ∧ _))
  | .setState _ _ | .allocproc _ | .sched | .choose _ | .dispatch _ => inferInstanceAs (Decidable (_ ∧ _))

/-- A step of the thread on `c`, if the code allows it. -/
def step : Act P K → Outcome Panic (State C P K)
  | .pushOff => s.callPushOff c .plain
  | .acquire l => s.callPushOff c (.acquire l)
  | .go => s.go c
  | .release l => s.callRelease c l
  | .popOff => s.callPopOff c
  | .intrOn => .next (s.setCpu c { s.cpu c with intr := true })
  | .intrOff => .next (s.setCpu c { s.cpu c with intr := false })
  | .trap =>
    .next ((s.setCpu c { s.cpu c with intr := false }).setFlow c
      { s.flow c with frame := ⟨.run, ∅, 0, false⟩, interrupted := s.frame c :: (s.flow c).interrupted })
  | .trapRet =>
    match (s.flow c).interrupted with
    | [] => .blocked
    | f :: fs =>
      .next ((s.setCpu c { s.cpu c with intr := true }).setFlow c
        { s.flow c with frame := f, interrupted := fs })
  | .setState p x => .next { s with state := Function.update s.state p x }
  | .allocproc p => .next { s with context := Function.update s.context p (forkret p) }
  | .sched => .next (s.setFrame c { s.frame c with pc := .sched })
  | .choose p => .next { s with chosen := Function.update s.chosen c (some p) }
  | .dispatch p => .next (s.enter c p)

end State

section Runs

variable [DecidableEq C] [DecidableEq P] [DecidableEq K]

/-- The step relation of the machine. -/
def next (s : State C P K) (a : C × Act P K) : Option (State C P K) :=
  if s.Allowed a.1 a.2 then (s.step a.1 a.2).next? else none

/-- The machine when the CPUs have reached `scheduler`. -/
def boot : State C P K where
  cpu _ := ⟨none, 0, false, false⟩
  lock _ := ⟨false, none⟩
  state _ := .unused
  flow _ := ⟨⟨.run, ∅, 0, false⟩, [], false⟩
  sched _ := ⟨⟨.run, ∅, 0, false⟩, [], false⟩
  chosen _ := none
  context p := forkret p

end Runs

end Intr
end Xv6
