import Xv6.Lib.Ring
import Xv6.Sync.Machine

/-!
# The calls that wait

The code of the calls that sleep or wake somebody up: `pipewrite`, `piperead` and `pipeclose`
(`kernel/pipe.c`), `consoleread` and `consoleintr` (`kernel/console.c`), `sys_pause`
(`kernel/sysproc.c`), `kfork`, `kexit` with `reparent`, and `kwait` (`kernel/proc.c`), and
`usertrap` and `clockintr` (`kernel/trap.c`) around them.

Each function is an inductive type of places and a map from places to instructions, in the order of
the source; a place is named after the statement that is next.  The argument of the call is kept in
`Loc`.  What is not decided by the kernel comes from the `Input` of a step: which call a process
makes, whether `copyin`, `copyout` or `kalloc` succeeds, and the byte that `copyin` finds.

An interrupt handler is a thread of its own.  On the machine it borrows the CPU of some process,
which `wakeup` then skips; that process is `RUNNING`, so skipping it makes no difference.
-/

namespace Xv6
namespace Sync

open Sched

/-! ## Locks, channels and data -/

/-- `wait_lock`, `tickslock`, `cons.lock` and the locks of pipes. -/
inductive CondLock where
  | wait
  | ticks
  | cons
  | pipe (k : ℕ)
  deriving DecidableEq

/-- The address of a process, as a channel; 0 is the null pointer. -/
def procChan (p : Slot) : ℕ := p + 1

/-- `&ticks` -/
def ticksChan : ℕ := NPROC + 1

/-- `&cons.r` -/
def consChan : ℕ := NPROC + 2

/-- `&pi->nread` -/
def nreadChan (k : ℕ) : ℕ := NPROC + 3 + 2 * k

/-- `&pi->nwrite` -/
def nwriteChan (k : ℕ) : ℕ := NPROC + 4 + 2 * k

abbrev PIPESIZE : ℕ := 512

/-- `struct pipe`.  The last two fields are a record of the bytes that `pipewrite` has stored and
of those that `piperead` has delivered; no code reads them. -/
structure Pipe where
  data : ℕ → UInt8
  nread : ℕ
  nwrite : ℕ
  readopen : Bool
  writeopen : Bool
  accepted : List UInt8
  delivered : List UInt8

namespace Pipe

/-- `pi->nread == pi->nwrite` -/
abbrev Empty (pi : Pipe) : Prop := pi.nread = pi.nwrite

/-- `pi->nwrite == pi->nread + PIPESIZE` -/
abbrev Full (pi : Pipe) : Prop := pi.nwrite = (pi.nread + PIPESIZE) % UINT

/-- `pi->data[pi->nwrite++ % PIPESIZE] = ch` -/
def put (pi : Pipe) (ch : UInt8) : Pipe :=
  { pi with
    data := Function.update pi.data (pi.nwrite % PIPESIZE) ch
    nwrite := (pi.nwrite + 1) % UINT
    accepted := pi.accepted ++ [ch] }

/-- `copyout` of `pi->data[pi->nread % PIPESIZE]`, and `pi->nread++`. -/
def get (pi : Pipe) : Pipe :=
  { pi with
    nread := (pi.nread + 1) % UINT
    delivered := pi.delivered ++ [pi.data (pi.nread % PIPESIZE)] }

/-- `pi->writeopen = 0` or `pi->readopen = 0`. -/
def close (pi : Pipe) (writable : Bool) : Pipe :=
  if writable then { pi with writeopen := false } else { pi with readopen := false }

end Pipe

abbrev INPUT_BUF_SIZE : ℕ := 128

/-- `cons`. -/
structure Console where
  buf : ℕ → UInt8
  r : ℕ
  w : ℕ
  e : ℕ

/-- `C('D')` and the like. -/
def ctrl (c : Char) : UInt8 := UInt8.ofNat (c.toNat - '@'.toNat)

def newline : UInt8 := 10

/-- What the condition locks protect, `wait_lock` apart. -/
structure Data where
  pipe : ℕ → Pipe
  cons : Console
  ticks : ℕ

/-- Change one pipe. -/
def Data.setPipe (d : Data) (k : ℕ) (f : Pipe → Pipe) : Data :=
  { d with pipe := Function.update d.pipe k (f (d.pipe k)) }

/-- The first process: `userinit` runs before any other, and `allocproc` takes slot 0. -/
def initproc : Slot := 0

/-! ## Places -/

/-- What a process asks for when it enters the kernel. -/
inductive Call where
  | pipewrite (k : ℕ) (n : ℤ)
  | piperead (k : ℕ) (n : ℤ)
  | pipeclose (k : ℕ) (writable : Bool)
  | consoleread (n : ℤ)
  | pause (n : ℤ)
  | fork
  | exit (status : ℤ)
  /-- `addr` says whether the argument is non-zero. -/
  | wait (addr : Bool)
  | kill (pid : ℤ)
  /-- Not a system call but an exception that nobody handles. -/
  | fault
  /-- Not a system call but an interrupt, of the timer or of a device. -/
  | interrupt (timer : Bool)
  deriving DecidableEq

/-- What the kernel does not decide. -/
structure Input where
  call : Call
  ok : Bool
  byte : UInt8

inductive Write where
  | acquire
  | loop (i : ℤ)
  | killed (i : ℤ)
  | full (i : ℤ)
  | wakeFull (i : ℤ)
  | sleep (i : ℤ)
  | wake (i : ℤ)
  | release (i : ℤ)
  deriving DecidableEq

inductive Read where
  | acquire
  | loop
  | killed
  | sleep
  | copy (i : ℤ)
  | wake (i : ℤ)
  | release (i : ℤ)
  deriving DecidableEq

inductive Close where
  | acquire
  | close
  | wake
  | release
  deriving DecidableEq

inductive ConsRead where
  | acquire
  | loop (n : ℤ)
  | killed (n : ℤ)
  | sleep (n : ℤ)
  | release
  deriving DecidableEq

inductive Pause where
  | acquire
  | start
  | loop (ticks0 : ℕ)
  | killed (ticks0 : ℕ)
  | sleep (ticks0 : ℕ)
  | release
  deriving DecidableEq

inductive Fork where
  | scan (i : ℕ)
  | test (np : Slot)
  | next (np : Slot)
  | alloc (np : Slot)
  | fail (np : Slot)
  | failed (np : Slot)
  | unlock (np : Slot)
  | acquireWait (np : Slot)
  | parent (np : Slot)
  | releaseWait (np : Slot)
  | lock (np : Slot)
  | ready (np : Slot)
  | release (np : Slot)
  deriving DecidableEq

inductive Exiting where
  | start
  | close
  | acquireWait
  | reparent (i : ℕ)
  | adopt (pp : Slot)
  | wakeInit (pp : Slot)
  | parent
  | wakeParent (chan : ℕ)
  | lock
  | zombie
  | releaseWait
  | sched
  | dead
  deriving DecidableEq

inductive Waiting where
  | acquireWait
  | scan (i : ℕ) (havekids : Bool)
  | lock (pp : Slot)
  | test (pp : Slot)
  | next (pp : Slot)
  | fail (pp : Slot)
  | free (pp : Slot)
  | freed (pp : Slot)
  | killed
  | sleep
  | releaseWait
  deriving DecidableEq

inductive Fault where
  | acquire
  | set
  | release
  deriving DecidableEq

inductive Clock where
  | acquire
  | tick
  | wake
  | release
  deriving DecidableEq

inductive ConsIntr where
  | acquire
  | body
  | wake
  | release
  deriving DecidableEq

/-- A place in the code of the kernel, with the arguments of the call. -/
inductive Loc where
  | user
  /-- `usertrap`, before `syscall` -/
  | enter (c : Call)
  /-- `usertrap`, before the last test of `killed` -/
  | ret (timer : Bool)
  | yield
  | fault (x : Fault)
  | pipewrite (k : ℕ) (n : ℤ) (x : Write)
  | piperead (k : ℕ) (n : ℤ) (x : Read)
  /-- `after` is the status of the exit during which the pipe is closed, if it is one. -/
  | pipeclose (k : ℕ) (writable : Bool) (after : Option ℤ) (x : Close)
  | consoleread (target : ℤ) (x : ConsRead)
  | pause (n : ℤ) (x : Pause)
  | kill (pid : ℤ)
  | fork (x : Fork)
  | exit (status : ℤ) (x : Exiting)
  | wait (addr : Bool) (x : Waiting)
  | irq
  | clockintr (x : Clock)
  | consoleintr (c : UInt8) (x : ConsIntr)
  deriving DecidableEq

abbrev KInstr := Instr CondLock Input Data Loc

/-- Go on at another place. -/
def jump (x : Loc) : KInstr := .compute fun _ _ d => (d, x)

/-! ## Pipes -/

/-- The loop body of `pipewrite` once the process is known to be alive: find the pipe full, or copy
a byte in. -/
def pipewriteBody (k : ℕ) (n i : ℤ) (inp : Input) (d : Data) : Data × Loc :=
  if (d.pipe k).Full then (d, .pipewrite k n (.wakeFull i))
  else if inp.ok then (d.setPipe k (·.put inp.byte), .pipewrite k n (.loop (i + 1)))
  else (d, .pipewrite k n (.wake i))

/-- `pipewrite(pi, addr, n)` -/
def pipewrite (k : ℕ) (n : ℤ) : Write → KInstr
  | .acquire => .acquire (.cond (.pipe k)) (.pipewrite k n (.loop 0))
  | .loop i => .compute fun _ _ d =>
      if i < n then
        if (d.pipe k).readopen then (d, .pipewrite k n (.killed i))
        else (d, .pipewrite k n (.release (-1)))
      else (d, .pipewrite k n (.wake i))
  | .killed i => .killed (.pipewrite k n (.release (-1))) (.pipewrite k n (.full i))
  | .full i => .compute fun inp _ d => pipewriteBody k n i inp d
  | .wakeFull i => .wakeup (nreadChan k) (.pipewrite k n (.sleep i))
  | .sleep i => .sleep (nwriteChan k) (.pipe k) (.pipewrite k n (.loop i))
  | .wake i => .wakeup (nreadChan k) (.pipewrite k n (.release i))
  | .release _ => .release (.cond (.pipe k)) (.ret false)

/-- The second loop of `piperead`: one byte. -/
def pipereadBody (k : ℕ) (n i : ℤ) (inp : Input) (d : Data) : Data × Loc :=
  if i < n then
    if (d.pipe k).Empty then (d, .piperead k n (.wake i))
    else if inp.ok then (d.setPipe k Pipe.get, .piperead k n (.copy (i + 1)))
    else (d, .piperead k n (.wake (if i = 0 then -1 else i)))
  else (d, .piperead k n (.wake i))

/-- `piperead(pi, addr, n)` -/
def piperead (k : ℕ) (n : ℤ) : Read → KInstr
  | .acquire => .acquire (.cond (.pipe k)) (.piperead k n .loop)
  | .loop => .compute fun _ _ d =>
      if (d.pipe k).Empty ∧ (d.pipe k).writeopen then (d, .piperead k n .killed)
      else (d, .piperead k n (.copy 0))
  | .killed => .killed (.piperead k n (.release (-1))) (.piperead k n .sleep)
  | .sleep => .sleep (nreadChan k) (.pipe k) (.piperead k n .loop)
  | .copy i => .compute fun inp _ d => pipereadBody k n i inp d
  | .wake i => .wakeup (nwriteChan k) (.piperead k n (.release i))
  | .release _ => .release (.cond (.pipe k)) (.ret false)

/-- `pipeclose(pi, writable)`; after the last close the memory of the pipe is freed. -/
def pipeclose (k : ℕ) (writable : Bool) (after : Option ℤ) : Close → KInstr
  | .acquire => .acquire (.cond (.pipe k)) (.pipeclose k writable after .close)
  | .close => .compute fun _ _ d =>
      (d.setPipe k (·.close writable), .pipeclose k writable after .wake)
  | .wake => .wakeup (if writable then nreadChan k else nwriteChan k)
      (.pipeclose k writable after .release)
  | .release => .release (.cond (.pipe k))
      (match after with
      | some status => .exit status .close
      | none => .ret false)

/-! ## The console and the clock -/

/-- The body of the loop of `consoleread`, with a byte in the buffer. -/
def consolereadBody (target n : ℤ) (inp : Input) (d : Data) : Data × Loc :=
  let c := d.cons.buf (d.cons.r % INPUT_BUF_SIZE)
  let d' := { d with cons := { d.cons with r := (d.cons.r + 1) % UINT } }
  if c = ctrl 'D' then
    (if n < target then d else d', .consoleread target .release)
  else if inp.ok = false then (d', .consoleread target .release)
  else if c = newline then (d', .consoleread target .release)
  else (d', .consoleread target (.loop (n - 1)))

/-- `consoleread(user_dst, dst, n)` -/
def consoleread (target : ℤ) : ConsRead → KInstr
  | .acquire => .acquire (.cond .cons) (.consoleread target (.loop target))
  | .loop n => .compute fun inp _ d =>
      if 0 < n then
        if d.cons.r = d.cons.w then (d, .consoleread target (.killed n))
        else consolereadBody target n inp d
      else (d, .consoleread target .release)
  | .killed n => .killed (.consoleread target .release) (.consoleread target (.sleep n))
  | .sleep n => .sleep consChan .cons (.consoleread target (.loop n))
  | .release => .release (.cond .cons) (.ret false)

/-- `C('U')`: erase back to the last newline, at most the whole buffer. -/
def killLine (cons : Console) : ℕ → Console
  | 0 => cons
  | fuel + 1 =>
    let e := (cons.e + UINT - 1) % UINT
    if cons.e ≠ cons.w ∧ cons.buf (e % INPUT_BUF_SIZE) ≠ newline then
      killLine { cons with e := e } fuel
    else cons

/-- The `switch` of `consoleintr`; the flag says whether to wake the reader. -/
def consoleintrBody (cons : Console) (c : UInt8) : Console × Bool :=
  if c = ctrl 'P' then (cons, false)
  else if c = ctrl 'U' then (killLine cons INPUT_BUF_SIZE, false)
  else if c = ctrl 'H' ∨ c = 127 then
    (if cons.e ≠ cons.w then { cons with e := (cons.e + UINT - 1) % UINT } else cons, false)
  else if c ≠ 0 ∧ (cons.e + UINT - cons.r) % UINT < INPUT_BUF_SIZE then
    let c := if c = 13 then newline else c
    let e := (cons.e + 1) % UINT
    let cons :=
      { cons with buf := Function.update cons.buf (cons.e % INPUT_BUF_SIZE) c, e := e }
    if c = newline ∨ c = ctrl 'D' ∨ (e + UINT - cons.r) % UINT = INPUT_BUF_SIZE then
      ({ cons with w := e }, true)
    else (cons, false)
  else (cons, false)

/-- `consoleintr(c)` -/
def consoleintr (c : UInt8) : ConsIntr → KInstr
  | .acquire => .acquire (.cond .cons) (.consoleintr c .body)
  | .body => .compute fun _ _ d =>
      ({ d with cons := (consoleintrBody d.cons c).1 },
        if (consoleintrBody d.cons c).2 then .consoleintr c .wake else .consoleintr c .release)
  | .wake => .wakeup consChan (.consoleintr c .release)
  | .release => .release (.cond .cons) .irq

/-- `sys_pause`, with `n` already made non-negative. -/
def pause (n : ℤ) : Pause → KInstr
  | .acquire => .acquire (.cond .ticks) (.pause n .start)
  | .start => .compute fun _ _ d => (d, .pause n (.loop d.ticks))
  | .loop ticks0 => .compute fun _ _ d =>
      if ((d.ticks + UINT - ticks0) % UINT : ℕ) < n then (d, .pause n (.killed ticks0))
      else (d, .pause n .release)
  | .killed ticks0 => .killed (.pause n .release) (.pause n (.sleep ticks0))
  | .sleep ticks0 => .sleep ticksChan .ticks (.pause n (.loop ticks0))
  | .release => .release (.cond .ticks) (.ret false)

/-- `clockintr` -/
def clockintr : Clock → KInstr
  | .acquire => .acquire (.cond .ticks) (.clockintr .tick)
  | .tick => .compute fun _ _ d => ({ d with ticks := (d.ticks + 1) % UINT }, .clockintr .wake)
  | .wake => .wakeup ticksChan (.clockintr .release)
  | .release => .release (.cond .ticks) .irq

/-! ## Processes -/

/-- `kfork`, with `allocproc`.  Running out of memory in either ends in `freeproc`. -/
def kfork (p : Slot) : Fork → KInstr
  | .scan i =>
      if h : i < NPROC then .acquire (.proc ⟨i, h⟩) (.fork (.test ⟨i, h⟩)) else jump (.ret false)
  | .test np => .compute fun inp tb d =>
      if (tb np).state = .unused then
        if inp.ok then (d, .fork (.alloc np)) else (d, .fork (.fail np))
      else (d, .fork (.next np))
  | .next np => .release (.proc np) (.fork (.scan (np + 1)))
  | .fail np => .table (.allocFail np) (.fork (.failed np))
  | .failed np => .release (.proc np) (.ret false)
  | .alloc np => .table (.alloc np) (.fork (.unlock np))
  | .unlock np => .release (.proc np) (.fork (.acquireWait np))
  | .acquireWait np => .acquire (.cond .wait) (.fork (.parent np))
  | .parent np => .table (.setParent np p) (.fork (.releaseWait np))
  | .releaseWait np => .release (.cond .wait) (.fork (.lock np))
  | .lock np => .acquire (.proc np) (.fork (.ready np))
  | .ready np => .table (.ready np) (.fork (.release np))
  | .release np => .release (.proc np) (.ret false)

/-- The channel of a parent. -/
def parentChan : Option Slot → ℕ
  | some q => procChan q
  | none => 0

/-- `kexit(status)`, with `reparent`.  Of the files that it closes only pipes matter here. -/
def kexit (p : Slot) (status : ℤ) : Exiting → KInstr
  | .start => if p = initproc then .panic else jump (.exit status .close)
  | .close => .compute fun inp _ d =>
      match inp.call with
      | .pipeclose k writable => (d, .pipeclose k writable (some status) .acquire)
      | _ => (d, .exit status .acquireWait)
  | .acquireWait => .acquire (.cond .wait) (.exit status (.reparent 0))
  | .reparent i => .compute fun _ tb d =>
      if h : i < NPROC then
        if (tb ⟨i, h⟩).parent = some p then (d, .exit status (.adopt ⟨i, h⟩))
        else (d, .exit status (.reparent (i + 1)))
      else (d, .exit status .parent)
  | .adopt pp => .table (.setParent pp initproc) (.exit status (.wakeInit pp))
  | .wakeInit pp => .wakeup (procChan initproc) (.exit status (.reparent (pp + 1)))
  | .parent => .compute fun _ tb d => (d, .exit status (.wakeParent (parentChan (tb p).parent)))
  | .wakeParent chan => .wakeup chan (.exit status .lock)
  | .lock => .acquire (.proc p) (.exit status .zombie)
  | .zombie => .table (.exit status) (.exit status .releaseWait)
  | .releaseWait => .release (.cond .wait) (.exit status .sched)
  | .sched => .sched (.exit status .dead)
  | .dead => .panic

/-- `kwait(addr)` -/
def kwait (p : Slot) (addr : Bool) : Waiting → KInstr
  | .acquireWait => .acquire (.cond .wait) (.wait addr (.scan 0 false))
  | .scan i havekids => .compute fun _ tb d =>
      if h : i < NPROC then
        if (tb ⟨i, h⟩).parent = some p then (d, .wait addr (.lock ⟨i, h⟩))
        else (d, .wait addr (.scan (i + 1) havekids))
      else if havekids then (d, .wait addr .killed)
      else (d, .wait addr .releaseWait)
  | .lock pp => .acquire (.proc pp) (.wait addr (.test pp))
  | .test pp => .compute fun inp tb d =>
      if (tb pp).state = .zombie then
        if addr ∧ inp.ok = false then (d, .wait addr (.fail pp)) else (d, .wait addr (.free pp))
      else (d, .wait addr (.next pp))
  | .next pp => .release (.proc pp) (.wait addr (.scan (pp + 1) true))
  | .fail pp => .release (.proc pp) (.wait addr .releaseWait)
  | .free pp => .table (.free pp) (.wait addr (.freed pp))
  | .freed pp => .release (.proc pp) (.wait addr .releaseWait)
  | .killed => .killed (.wait addr .releaseWait) (.wait addr .sleep)
  | .sleep => .sleep (procChan p) .wait (.wait addr (.scan 0 false))
  | .releaseWait => .release (.cond .wait) (.ret false)

/-! ## Traps -/

/-- `setkilled` of the current process. -/
def setkilled (p : Slot) : Fault → KInstr
  | .acquire => .acquire (.proc p) (.fault .set)
  | .set => .table .setkilled (.fault .release)
  | .release => .release (.proc p) (.ret false)

/-- The first place of a call. -/
def Call.first : Call → Loc
  | .pipewrite k n => .pipewrite k n .acquire
  | .piperead k n => .piperead k n .acquire
  | .pipeclose k writable => .pipeclose k writable none .acquire
  | .consoleread n => .consoleread n .acquire
  | .pause n => .pause (max n 0) .acquire
  | .fork => .fork (.scan 0)
  | .exit status => .exit status .start
  | .wait addr => .wait addr .acquireWait
  | .kill pid => .kill pid
  | .fault => .fault .acquire
  | .interrupt timer => .ret timer

/-- How a process enters the kernel: a system call is preceded by a test of `killed`. -/
def Call.enter : Call → Loc
  | .fault => .fault .acquire
  | .interrupt timer => .ret timer
  | c => .enter c

/-- The code of a process. -/
def procInstr (p : Slot) : Loc → KInstr
  | .user => .compute fun inp _ d => (d, inp.call.enter)
  | .enter c => .killed (.exit (-1) .start) c.first
  | .ret timer => .killed (.exit (-1) .start) (if timer then .yield else .user)
  | .yield => .yield .user
  | .fault x => setkilled p x
  | .pipewrite k n x => pipewrite k n x
  | .piperead k n x => piperead k n x
  | .pipeclose k writable after x => pipeclose k writable after x
  | .consoleread target x => consoleread target x
  | .pause n x => pause n x
  | .kill pid => .kkill pid (.ret false)
  | .fork x => kfork p x
  | .exit status x => kexit p status x
  | .wait addr x => kwait p addr x
  | .irq | .clockintr _ | .consoleintr .. => .panic

/-- The code of an interrupt handler. -/
def intrInstr : Loc → KInstr
  | .irq => .compute fun inp _ d =>
      (d, if inp.ok then .clockintr .acquire else .consoleintr inp.byte .acquire)
  | .clockintr x => clockintr x
  | .consoleintr c x => consoleintr c x
  | _ => .panic

/-- The code of the kernel. -/
def kernel : Code CondLock Input Data Loc where
  instr
    | .proc p, x => procInstr p x
    | .intr _, x => intrInstr x
    | .sched, _ => .panic
  forkret := .user

abbrev KState := State CondLock Data Loc
abbrev KLabel := Label Input
abbrev KSteps : KState → KLabel → KState → Prop := Steps kernel

/-! ## The first state -/

/-- A new pipe, as `pipealloc` leaves it. -/
def Pipe.init (data : ℕ → UInt8) : Pipe where
  data := data
  nread := 0
  nwrite := 0
  readopen := true
  writeopen := true
  accepted := []
  delivered := []

/-- After `userinit`: the first process is `RUNNABLE`, all other slots are `UNUSED`. -/
def bootTable : Table := fun p =>
  if p = initproc then { (Proc.init.allocproc 1) with state := .runnable } else Proc.init

/-- The state after `userinit`.  The memory of the pipes is what `kalloc` has left there. -/
def boot (data : ℕ → ℕ → UInt8) : KState where
  proc := bootTable
  data :=
    { pipe := fun k => Pipe.init (data k)
      cons := ⟨fun _ => 0, 0, 0, 0⟩
      ticks := 0 }
  lock _ := none
  pc
    | .proc _ => .off .user
    | .intr _ => .code .irq
    | .sched => .code .irq
  nextpid := 2
  exits := []
  waits := []
  tag _ := 0

end Sync
end Xv6
