import Xv6.Sync.Calls
import Xv6.Sync.Monitor

/-!
# Locks and process states of the kernel
-/

namespace Xv6
namespace Sync

open Sched Transition

variable {p q np : Slot} {x y : Loc} {op : TableOp} {t u : Thread} {chan : ℕ} {lk : CondLock}
  {pc pc' : Pc CondLock Loc} {st : ProcState} {f : Proc → Proc} {i : Input} {tb : Table} {d : Data}
  {act : Act CondLock Data}

/-! ## Locks -/

/-- The locks that `kfork` holds. -/
def Fork.own : Fork → Lock CondLock → Prop
  | .scan _, _ | .acquireWait _, _ | .lock _, _ => False
  | .test np, m | .next np, m | .fail np, m | .failed np, m | .alloc np, m | .unlock np, m
  | .ready np, m | .release np, m => m = .proc np
  | .parent _, m | .releaseWait _, m => m = .cond .wait

/-- The locks that `kexit` holds. -/
def Exiting.own (p : Slot) : Exiting → Lock CondLock → Prop
  | .start, _ | .close, _ | .acquireWait, _ | .dead, _ => False
  | .reparent _, m | .adopt _, m | .wakeInit _, m | .parent, m | .wakeParent _, m | .lock, m =>
    m = .cond .wait
  | .zombie, m | .releaseWait, m => m = .cond .wait ∨ m = .proc p
  | .sched, m => m = .proc p

/-- The locks that `kwait` holds. -/
def Waiting.own : Waiting → Lock CondLock → Prop
  | .acquireWait, _ => False
  | .scan .., m | .lock _, m | .killed, m | .sleep, m | .releaseWait, m => m = .cond .wait
  | .test pp, m | .next pp, m | .fail pp, m | .free pp, m | .freed pp, m =>
    m = .cond .wait ∨ m = .proc pp

/-- The locks that process `p` holds at a place. -/
def procOwn (p : Slot) : Loc → Lock CondLock → Prop
  | .fault x, m => x ≠ .acquire ∧ m = .proc p
  | .pipewrite k _ x, m => x ≠ .acquire ∧ m = .cond (.pipe k)
  | .piperead k _ x, m => x ≠ .acquire ∧ m = .cond (.pipe k)
  | .pipeclose k _ _ x, m => x ≠ .acquire ∧ m = .cond (.pipe k)
  | .consoleread _ x, m => x ≠ .acquire ∧ m = .cond .cons
  | .pause _ x, m => x ≠ .acquire ∧ m = .cond .ticks
  | .fork x, m => x.own m
  | .exit _ x, m => x.own p m
  | .wait _ x, m => x.own m
  | _, _ => False

/-- The locks that an interrupt handler holds at a place. -/
def intrOwn : Loc → Lock CondLock → Prop
  | .clockintr x, m => x ≠ .acquire ∧ m = .cond .ticks
  | .consoleintr _ x, m => x ≠ .acquire ∧ m = .cond .cons
  | _, _ => False

/-- The locks that a thread holds at a place. -/
def own : Thread → Loc → Lock CondLock → Prop
  | .proc p => procOwn p
  | .intr _ => intrOwn
  | .sched => fun _ _ => False

theorem Call.first_own (p : Slot) (c : Call) (m : Lock CondLock) : ¬ procOwn p c.first m := by
  cases c <;> simp [Call.first, procOwn, Fork.own, Exiting.own, Waiting.own]

theorem Call.enter_own (p : Slot) (c : Call) (m : Lock CondLock) : ¬ procOwn p c.enter m := by
  cases c <;> simp [Call.enter, procOwn]

def Lock.IsCond : Lock CondLock → Prop
  | .cond _ => True
  | .proc _ => False

/-- An instruction at `x` keeps the order of locks, and does to them what `own` says. -/
def Ordered (t : Thread) (x : Loc) : KInstr → Prop
  | .acquire l y => (∀ m, own t y m ↔ own t x m ∨ m = l) ∧ ∀ m, own t x m → m.IsCond ∧ ¬ l.IsCond
  | .release l y => own t x l ∧ ∀ m, own t y m ↔ own t x m ∧ m ≠ l
  | .compute f => ∀ i tb d m, own t (f i tb d).2 m ↔ own t x m
  | .table _ y => ∀ m, own t y m ↔ own t x m
  | .sleep _ lk y =>
    (∃ p, t = .proc p) ∧ ∀ m, (own t x m ↔ m = .cond lk) ∧ (own t y m ↔ m = .cond lk)
  | .wakeup _ y | .kkill _ y => ∀ m, (own t y m ↔ own t x m) ∧ (own t x m → m.IsCond)
  | .killed y z => (∃ p, t = .proc p) ∧
      ∀ m, (own t y m ↔ own t x m) ∧ (own t z m ↔ own t x m) ∧ (own t x m → m.IsCond)
  | .yield y => (∃ p, t = .proc p) ∧ ∀ m, ¬ own t x m ∧ ¬ own t y m
  | .sched y => ∃ p, t = .proc p ∧ ∀ m, (own t x m ↔ m = .proc p) ∧ ¬ own t y m
  | .panic => ∀ m, ¬ own t x m

/-- One of two locks is released. -/
theorem eq_iff_kept {k l m : Lock CondLock} (h : l ≠ k) : m = l ↔ (m = l ∨ m = k) ∧ m ≠ k := by
  constructor
  · rintro rfl
    exact ⟨Or.inl rfl, h⟩
  · rintro ⟨heq | heq, hne⟩
    · exact heq
    · exact absurd heq hne

/-- The code of the kernel does so. -/
theorem kernel_ordered (t : Thread) (x : Loc) : Ordered t x (kernel.instr t x) := by
  cases t with
  | sched => exact fun _ => id
  | intr n =>
    cases x with
    | irq =>
      intro inp tb d m
      dsimp only
      split <;> simp [own, intrOwn]
    | clockintr x =>
      cases x <;> simp [kernel, intrInstr, clockintr, Ordered, own, intrOwn, Lock.IsCond]
    | consoleintr c x =>
      cases x with
      | body =>
        intro inp tb d m
        dsimp only
        split <;> simp [own, intrOwn]
      | _ => simp [kernel, intrInstr, consoleintr, Ordered, own, intrOwn, Lock.IsCond]
    | _ => exact fun _ => id
  | proc p =>
    cases x with
    | user => exact fun inp _ _ m => iff_of_false (inp.call.enter_own p m) id
    | enter c =>
      exact ⟨⟨p, rfl⟩, fun m => ⟨Iff.rfl, iff_of_false (c.first_own p m) id, False.elim⟩⟩
    | ret timer => cases timer <;> simp [kernel, procInstr, Ordered, own, procOwn, Exiting.own]
    | fault x => cases x <;> simp [kernel, procInstr, setkilled, Ordered, own, procOwn]
    | pipewrite k n x =>
      cases x with
      | loop | full =>
        intro inp tb d m
        dsimp only [pipewriteBody]
        split_ifs <;> simp [own, procOwn]
      | _ => simp [kernel, procInstr, pipewrite, Ordered, own, procOwn, Lock.IsCond]
    | piperead k n x =>
      cases x with
      | loop | copy =>
        intro inp tb d m
        dsimp only [pipereadBody]
        split_ifs <;> simp [own, procOwn]
      | _ => simp [kernel, procInstr, piperead, Ordered, own, procOwn, Lock.IsCond]
    | pipeclose k writable after x =>
      cases x with
      | release =>
        cases after <;> simp [kernel, procInstr, pipeclose, Ordered, own, procOwn, Exiting.own]
      | _ => simp [kernel, procInstr, pipeclose, Ordered, own, procOwn, Lock.IsCond]
    | consoleread target x =>
      cases x with
      | loop =>
        intro inp tb d m
        dsimp only [consolereadBody]
        split_ifs <;> simp [own, procOwn]
      | _ => simp [kernel, procInstr, consoleread, Ordered, own, procOwn, Lock.IsCond]
    | pause n x =>
      cases x with
      | loop =>
        intro inp tb d m
        dsimp only
        split_ifs <;> simp [own, procOwn]
      | _ => simp [kernel, procInstr, pause, Ordered, own, procOwn, Lock.IsCond]
    | fork x =>
      cases x with
      | scan i =>
        simp only [kernel, procInstr, kfork]
        split <;> simp [jump, Ordered, own, procOwn, Fork.own]
      | test =>
        intro inp tb d m
        dsimp only
        split_ifs <;> simp [own, procOwn, Fork.own]
      | _ => simp [kernel, procInstr, kfork, Ordered, own, procOwn, Fork.own]
    | exit status x =>
      cases x with
      | start =>
        simp only [kernel, procInstr, kexit]
        split <;> simp [jump, Ordered, own, procOwn, Exiting.own]
      | close =>
        intro inp tb d m
        dsimp only
        split <;> simp [own, procOwn, Exiting.own]
      | reparent =>
        intro inp tb d m
        dsimp only
        split_ifs <;> simp [own, procOwn, Exiting.own]
      | releaseWait =>
        exact ⟨Or.inl rfl, fun m => (eq_iff_kept (by simp)).trans (and_congr_left' or_comm)⟩
      | _ => simp [kernel, procInstr, kexit, Ordered, own, procOwn, Exiting.own, Lock.IsCond]
    | wait addr x =>
      cases x with
      | scan | test =>
        intro inp tb d m
        dsimp only
        split_ifs <;> simp [own, procOwn, Waiting.own]
      | next | fail | freed => exact ⟨Or.inr rfl, fun m => eq_iff_kept (by simp)⟩
      | _ => simp [kernel, procInstr, kwait, Ordered, own, procOwn, Waiting.own, Lock.IsCond]
    | _ => simp [kernel, procInstr, Ordered, own, procOwn]

/-- The kernel holds the locks that `own` says. -/
theorem kernel_disciplined : Disciplined kernel own where
  instr t x := by
    have h := kernel_ordered t x
    cases hx : kernel.instr t x <;> rw [hx] at h
    case acquire l y => exact fun m => (h.1 m).mp
    case release l y => exact fun m => (h.2 m).mp
    case compute f => exact fun i tb d m => (h i tb d m).mp
    case table op y => exact fun m => (h m).mp
    case sleep c lk y =>
      exact ⟨fun m hm => (h.2 m).1.mpr ((h.2 m).2.mp hm),
        fun q hq => absurd ((h.2 _).2.mp hq) (by simp)⟩
    case wakeup c y => exact ⟨fun m => (h m).1.mp, fun q hq => (h _).2 ((h _).1.mp hq)⟩
    case kkill pid y => exact ⟨fun m => (h m).1.mp, fun q hq => (h _).2 ((h _).1.mp hq)⟩
    case killed y z =>
      obtain ⟨-, h⟩ := h
      exact ⟨⟨fun m => (h m).1.mp, fun q hq => (h _).2.2 ((h _).1.mp hq)⟩,
        fun m => (h m).2.1.mp, fun q hq => (h _).2.2 ((h _).2.1.mp hq)⟩
    case yield y => exact ⟨fun m hm => absurd hm (h.2 m).2, fun q => (h.2 _).2⟩
    case sched y =>
      obtain ⟨p, -, h⟩ := h
      exact ⟨fun m hm => absurd hm (h m).2, fun q => (h _).2⟩
    case panic => trivial
  forkret t m := by cases t <;> simp [own, kernel, procOwn, intrOwn]

/-! ## Assignments to the table -/

/-- The places where the process table is changed. -/
inductive TablePlace (p : Slot) : Loc → TableOp → Loc → Prop
  | alloc (np : Slot) : TablePlace p (.fork (.alloc np)) (.alloc np) (.fork (.unlock np))
  | allocFail (np : Slot) : TablePlace p (.fork (.fail np)) (.allocFail np) (.fork (.failed np))
  | parent (np : Slot) :
      TablePlace p (.fork (.parent np)) (.setParent np p) (.fork (.releaseWait np))
  | ready (np : Slot) : TablePlace p (.fork (.ready np)) (.ready np) (.fork (.release np))
  | adopt (status : ℤ) (pp : Slot) : TablePlace p (.exit status (.adopt pp))
      (.setParent pp initproc) (.exit status (.wakeInit pp))
  | zombie (status : ℤ) :
      TablePlace p (.exit status .zombie) (.exit status) (.exit status .releaseWait)
  | free (addr : Bool) (pp : Slot) :
      TablePlace p (.wait addr (.free pp)) (.free pp) (.wait addr (.freed pp))
  | setkilled : TablePlace p (.fault .set) .setkilled (.fault .release)

theorem tablePlace_of_procInstr (h : procInstr p x = .table op y) : TablePlace p x op y := by
  cases x with
  | fork x =>
    cases x with
    | scan i =>
      simp only [procInstr, kfork] at h
      split at h <;> exact nomatch h
    | alloc np => cases h; exact .alloc np
    | fail np => cases h; exact .allocFail np
    | parent np => cases h; exact .parent np
    | ready np => cases h; exact .ready np
    | _ => exact nomatch h
  | exit status x =>
    cases x with
    | start =>
      simp only [procInstr, kexit] at h
      split at h <;> exact nomatch h
    | adopt pp => cases h; exact .adopt status pp
    | zombie => cases h; exact .zombie status
    | _ => exact nomatch h
  | wait addr x =>
    cases x with
    | free pp => cases h; exact .free addr pp
    | _ => exact nomatch h
  | fault x =>
    cases x with
    | set => cases h; exact .setkilled
    | _ => exact nomatch h
  | pipewrite k n x => cases x <;> exact nomatch h
  | piperead k n x => cases x <;> exact nomatch h
  | pipeclose k writable after x => cases x <;> exact nomatch h
  | consoleread target x => cases x <;> exact nomatch h
  | pause n x => cases x <;> exact nomatch h
  | _ => exact nomatch h

theorem tablePlace_of_instr (h : kernel.instr t x = .table op y) :
    ∃ p, t = .proc p ∧ TablePlace p x op y := by
  cases t with
  | proc p => exact ⟨p, rfl, tablePlace_of_procInstr h⟩
  | intr n =>
    cases x with
    | clockintr x => cases x <;> exact nomatch h
    | consoleintr c x => cases x <;> exact nomatch h
    | _ => exact nomatch h
  | sched => exact nomatch h

/-! ## Calls of `sleep` -/

/-- The calls of `sleep`: the channel, the lock, and the place to return to. -/
inductive SleepPlace (p : Slot) : ℕ → CondLock → Loc → Prop
  | write (k : ℕ) (n i : ℤ) :
      SleepPlace p (nwriteChan k) (.pipe k) (.pipewrite k n (.loop i))
  | read (k : ℕ) (n : ℤ) : SleepPlace p (nreadChan k) (.pipe k) (.piperead k n .loop)
  | cons (target n : ℤ) : SleepPlace p consChan .cons (.consoleread target (.loop n))
  | pause (n : ℤ) (ticks0 : ℕ) : SleepPlace p ticksChan .ticks (.pause n (.loop ticks0))
  | wait (addr : Bool) : SleepPlace p (procChan p) .wait (.wait addr (.scan 0 false))

/-- The process has tested `killed`, and comes to `sleep` without testing it again. -/
def Loc.alive : Loc → Prop
  | .pipewrite _ _ (.full _) | .pipewrite _ _ (.wakeFull _) | .pipewrite _ _ (.sleep _)
  | .piperead _ _ .sleep | .consoleread _ (.sleep _) | .pause _ (.sleep _) | .wait _ .sleep => True
  | _ => False

theorem sleepPlace_of_procInstr (h : procInstr p x = .sleep chan lk y) :
    SleepPlace p chan lk y ∧ x.alive := by
  cases x with
  | pipewrite k n x =>
    cases x with
    | sleep i => cases h; exact ⟨.write k n i, trivial⟩
    | _ => exact nomatch h
  | piperead k n x =>
    cases x with
    | sleep => cases h; exact ⟨.read k n, trivial⟩
    | _ => exact nomatch h
  | consoleread target x =>
    cases x with
    | sleep n => cases h; exact ⟨.cons target n, trivial⟩
    | _ => exact nomatch h
  | pause n x =>
    cases x with
    | sleep ticks0 => cases h; exact ⟨.pause n ticks0, trivial⟩
    | _ => exact nomatch h
  | wait addr x =>
    cases x with
    | sleep => cases h; exact ⟨.wait addr, trivial⟩
    | _ => exact nomatch h
  | fork x =>
    cases x with
    | scan i =>
      simp only [procInstr, kfork] at h
      split at h <;> exact nomatch h
    | _ => exact nomatch h
  | exit status x =>
    cases x with
    | start =>
      simp only [procInstr, kexit] at h
      split at h <;> exact nomatch h
    | _ => exact nomatch h
  | fault x => cases x <;> exact nomatch h
  | pipeclose k writable after x => cases x <;> exact nomatch h
  | _ => exact nomatch h

/-- The thread is inside `sleep(chan, lk)`, before it has been resumed. -/
def Pc.SleepsOn (chan : ℕ) (lk : CondLock) (x : Loc) : Pc CondLock Loc → Prop
  | .sleepLocked c l y | .sleepUnlocked c l y | .asleep c l y => c = chan ∧ l = lk ∧ y = x
  | _ => False

theorem SleepPlace.of_nread {k : ℕ} (h : SleepPlace p (nreadChan k) lk x) :
    lk = .pipe k ∧ ∃ n, x = .piperead k n .loop := by
  generalize hc : nreadChan k = c at h
  cases h with
  | read k' n =>
    have hk : k = k' := by unfold nreadChan at hc; omega
    subst hk
    exact ⟨rfl, n, rfl⟩
  | write => unfold nreadChan nwriteChan at hc; omega
  | cons => unfold nreadChan consChan at hc; omega
  | pause => unfold nreadChan ticksChan at hc; omega
  | wait => unfold nreadChan procChan at hc; omega

theorem SleepPlace.of_nwrite {k : ℕ} (h : SleepPlace p (nwriteChan k) lk x) :
    lk = .pipe k ∧ ∃ n i, x = .pipewrite k n (.loop i) := by
  generalize hc : nwriteChan k = c at h
  cases h with
  | write k' n i =>
    have hk : k = k' := by unfold nwriteChan at hc; omega
    subst hk
    exact ⟨rfl, n, i, rfl⟩
  | read => unfold nreadChan nwriteChan at hc; omega
  | cons => unfold nwriteChan consChan at hc; omega
  | pause => unfold nwriteChan ticksChan at hc; omega
  | wait => unfold nwriteChan procChan at hc; omega

/-! ## Process states -/

/-- The process is already a `ZOMBIE` and on its way to `sched`. -/
def Loc.dying : Loc → Bool
  | .exit _ .releaseWait | .exit _ .sched => true
  | _ => false

/-- The states that a process can be in while its thread is at a place. -/
def Fits : Pc CondLock Loc → ProcState → Prop
  | .off _, st => st ≠ .running ∧ st ≠ .sleeping
  | .asleep .., st => st = .sleeping ∨ st = .runnable
  | .code x, st => st = if x.dying then .zombie else .running
  | _, st => st = .running

theorem Fits.off (h : Fits pc st) (hst : st = .unused ∨ st = .used) : ∃ x, pc = .off x := by
  cases pc with
  | off x => exact ⟨x, rfl⟩
  | asleep => rcases hst with rfl | rfl <;> simp [Fits] at h
  | code x => rcases hst with rfl | rfl <;> cases hx : x.dying <;> simp [Fits, hx] at h
  | _ => rcases hst with rfl | rfl <;> exact nomatch h

/-- What `kfork` and `kwait` know about the state of another process whose lock they hold, or which
nobody else has a pointer to. -/
def Loc.expects : Loc → Option (Slot × ProcState)
  | .fork (.alloc np) | .fork (.fail np) => some (np, .unused)
  | .fork (.unlock np) | .fork (.acquireWait np) | .fork (.parent np) | .fork (.releaseWait np)
  | .fork (.lock np) | .fork (.ready np) => some (np, .used)
  | .wait _ (.fail pp) | .wait _ (.free pp) => some (pp, .zombie)
  | _ => none

/-- Nothing is known here about the state of another process. -/
def Loc.Plain (x : Loc) : Prop := x.dying = false ∧ x.expects = none

/-- What the instructions do to these two. -/
def Instr.Local (x : Loc) : KInstr → Prop
  | .acquire _ y => x.dying = false ∧ y.dying = false ∧ (y.expects = x.expects ∨ y.expects = none)
  | .release _ y => y.dying = x.dying ∧ (y.expects = x.expects ∨ y.expects = none)
  | .compute f => x.dying = false ∧ ∀ i tb d, (f i tb d).2.dying = false ∧
      ∀ np st, (f i tb d).2.expects = some (np, st) → (tb np).state = st ∧ st ≠ .used
  | .table .. | .panic => True
  | .sleep _ _ y | .wakeup _ y | .kkill _ y | .yield y => x.dying = false ∧ y.Plain
  | .killed y z => x.dying = false ∧ y.Plain ∧ z.Plain
  | .sched y => x.dying = true ∧ y.Plain

theorem Call.first_plain (c : Call) : c.first.Plain := by
  cases c <;> exact ⟨rfl, rfl⟩

theorem Call.enter_plain (c : Call) : c.enter.Plain := by
  cases c <;> exact ⟨rfl, rfl⟩

theorem local_compute {f : Input → Table → Data → Data × Loc} (hx : x.dying = false)
    (h : ∀ i tb d, (f i tb d).2.Plain) : Instr.Local x (.compute f) := by
  refine ⟨hx, fun i tb d => ⟨(h i tb d).1, ?_⟩⟩
  intro np st hst
  rw [(h i tb d).2] at hst
  exact nomatch hst

theorem pipes_local (p : Slot) (x : Loc) (h : (∃ k n y, x = .pipewrite k n y) ∨
    (∃ k n y, x = .piperead k n y) ∨ ∃ k w st y, x = .pipeclose k w st y) :
    Instr.Local x (procInstr p x) := by
  rcases h with ⟨k, n, y, rfl⟩ | ⟨k, n, y, rfl⟩ | ⟨k, w, st, y, rfl⟩
  · cases y with
    | loop =>
      refine local_compute rfl fun i tb d => ?_
      split_ifs <;> exact ⟨rfl, rfl⟩
    | full =>
      refine local_compute rfl fun i tb d => ?_
      rw [pipewriteBody]
      split_ifs <;> exact ⟨rfl, rfl⟩
    | _ => simp [procInstr, pipewrite, Instr.Local, Loc.Plain, Loc.dying, Loc.expects]
  · cases y with
    | loop =>
      refine local_compute rfl fun i tb d => ?_
      split_ifs <;> exact ⟨rfl, rfl⟩
    | copy =>
      refine local_compute rfl fun i tb d => ?_
      rw [pipereadBody]
      split_ifs <;> exact ⟨rfl, rfl⟩
    | _ => simp [procInstr, piperead, Instr.Local, Loc.Plain, Loc.dying, Loc.expects]
  · cases y with
    | close => exact local_compute rfl fun i tb d => ⟨rfl, rfl⟩
    | release => cases st <;> exact ⟨rfl, Or.inl rfl⟩
    | _ => simp [procInstr, pipeclose, Instr.Local, Loc.Plain, Loc.dying, Loc.expects]

theorem procInstr_local (p : Slot) (x : Loc) : Instr.Local x (procInstr p x) := by
  cases x with
  | user => exact local_compute rfl fun i _ _ => i.call.enter_plain
  | enter c => exact ⟨rfl, ⟨rfl, rfl⟩, c.first_plain⟩
  | ret timer => cases timer <;> exact ⟨rfl, ⟨rfl, rfl⟩, ⟨rfl, rfl⟩⟩
  | yield | kill => exact ⟨rfl, rfl, rfl⟩
  | fault x => cases x <;> simp [procInstr, setkilled, Instr.Local, Loc.dying, Loc.expects]
  | pipewrite k n y => exact pipes_local p _ (Or.inl ⟨k, n, y, rfl⟩)
  | piperead k n y => exact pipes_local p _ (Or.inr (Or.inl ⟨k, n, y, rfl⟩))
  | pipeclose k w st y => exact pipes_local p _ (Or.inr (Or.inr ⟨k, w, st, y, rfl⟩))
  | consoleread target y =>
    cases y with
    | loop =>
      refine local_compute rfl fun i tb d => ?_
      dsimp only [consolereadBody]
      split_ifs <;> exact ⟨rfl, rfl⟩
    | _ => simp [procInstr, consoleread, Instr.Local, Loc.Plain, Loc.dying, Loc.expects]
  | pause n y =>
    cases y with
    | start => exact local_compute rfl fun i tb d => ⟨rfl, rfl⟩
    | loop =>
      refine local_compute rfl fun i tb d => ?_
      split_ifs <;> exact ⟨rfl, rfl⟩
    | _ => simp [procInstr, pause, Instr.Local, Loc.Plain, Loc.dying, Loc.expects]
  | fork y =>
    cases y with
    | scan i =>
      simp only [procInstr, kfork]
      split
      · exact ⟨rfl, rfl, Or.inr rfl⟩
      · exact local_compute rfl fun _ _ _ => ⟨rfl, rfl⟩
    | test np =>
      refine ⟨rfl, fun i tb d => ?_⟩
      dsimp only
      split_ifs with hstate hok
      · exact ⟨rfl, by rintro q st ⟨⟩; exact ⟨hstate, by simp⟩⟩
      · exact ⟨rfl, by rintro q st ⟨⟩; exact ⟨hstate, by simp⟩⟩
      · exact ⟨rfl, by rintro q st ⟨⟩⟩
    | _ => simp [procInstr, kfork, Instr.Local, Loc.dying, Loc.expects]
  | exit status y =>
    cases y with
    | start =>
      simp only [procInstr, kexit]
      split
      · trivial
      · exact local_compute rfl fun _ _ _ => ⟨rfl, rfl⟩
    | close =>
      refine local_compute rfl fun i tb d => ?_
      split <;> exact ⟨rfl, rfl⟩
    | reparent i =>
      refine local_compute rfl fun i tb d => ?_
      split_ifs <;> exact ⟨rfl, rfl⟩
    | parent => exact local_compute rfl fun i tb d => ⟨rfl, rfl⟩
    | _ => simp [procInstr, kexit, Instr.Local, Loc.Plain, Loc.dying, Loc.expects]
  | wait addr y =>
    cases y with
    | scan i havekids =>
      refine local_compute rfl fun i tb d => ?_
      split_ifs <;> exact ⟨rfl, rfl⟩
    | test pp =>
      refine ⟨rfl, fun i tb d => ?_⟩
      dsimp only
      split_ifs with hstate hok
      · exact ⟨rfl, by rintro q st ⟨⟩; exact ⟨hstate, by simp⟩⟩
      · exact ⟨rfl, by rintro q st ⟨⟩; exact ⟨hstate, by simp⟩⟩
      · exact ⟨rfl, by rintro q st ⟨⟩⟩
    | _ => simp [procInstr, kwait, Instr.Local, Loc.Plain, Loc.dying, Loc.expects]
  | irq | clockintr | consoleintr => trivial

theorem Instr.Local.returnsTo {ins : KInstr} (h : ins.Local x) : ins.ReturnsTo Loc.Plain := by
  cases ins with
  | acquire | release | compute | table | panic => trivial
  | _ => exact h.2

/-- What holds of every reachable state of the kernel and does not concern a single call. -/
structure Base (s : KState) : Prop where
  sound : Sound s
  sleeps : ∀ p chan lk x, (s.pc (.proc p)).SleepsOn chan lk x → SleepPlace p chan lk x
  holds : Holds own s
  returns : ∀ t x, (s.pc t).returns x → ∀ p, t = .proc p → x.Plain
  fits : ∀ p, Fits (s.pc (.proc p)) (s.proc p).state
  expects : ∀ p x np st, s.pc (.proc p) = .code x → x.expects = some (np, st) →
    (s.proc np).state = st
  /-- A new process is known to its parent only. -/
  fresh : ∀ p p' x x' np, s.pc (.proc p) = .code x → s.pc (.proc p') = .code x' →
    x.expects = some (np, .used) → x'.expects = some (np, .used) → p = p'

/-- How a step changes the state of process `q`. -/
inductive StateMove (s : KState) (a : KLabel) (q : Slot) : ProcState → ProcState → Prop
  | same (st : ProcState) : StateMove s a q st st
  /-- `wakeup` and `kkill` -/
  | wake : StateMove s a q .sleeping .runnable
  | dispatch : a = .dispatch q → StateMove s a q .runnable .running
  | sleep (i : Input) (chan : ℕ) (lk : CondLock) (x : Loc) : a = .run (.proc q) i →
      s.pc (.proc q) = .sleepUnlocked chan lk x → StateMove s a q .running .sleeping
  | yield (i : Input) (x : Loc) : a = .run (.proc q) i → s.pc (.proc q) = .yieldLocked x →
      StateMove s a q .running .runnable
  | exit (i : Input) (status : ℤ) : a = .run (.proc q) i →
      s.pc (.proc q) = .code (.exit status .zombie) → StateMove s a q .running .zombie
  | alloc (p : Slot) (i : Input) : a = .run (.proc p) i →
      s.pc (.proc p) = .code (.fork (.alloc q)) → StateMove s a q .unused .used
  | ready (p : Slot) (i : Input) : a = .run (.proc p) i →
      s.pc (.proc p) = .code (.fork (.ready q)) → StateMove s a q .used .runnable
  | free (p : Slot) (i : Input) (addr : Bool) : a = .run (.proc p) i →
      s.pc (.proc p) = .code (.wait addr (.free q)) → StateMove s a q .zombie .unused

variable {s s' : KState} {a : KLabel}

/-- What a step does to the slot of process `q`. -/
inductive ProcMove (s : KState) (q : Slot) : KLabel → Proc → Prop
  | same (a : KLabel) : ProcMove s q a (s.proc q)
  | wakeup (t : Thread) (i : Input) (chan : ℕ) : ProcMove s q (.run t i) ((s.proc q).wakeup chan)
  /-- `kkill` finds its victim. -/
  | kkill (t : Thread) (i : Input) (x : Loc) : s.pc t = .kkillLocked (s.proc q).pid q x →
      ProcMove s q (.run t i) ((s.proc q).kkill (s.proc q).pid)
  /-- `sleep` clears `p->chan`. -/
  | woken (t : Thread) (i : Input) : ProcMove s q (.run t i) (Proc.clearChan (s.proc q))
  | sleep (i : Input) (chan : ℕ) (lk : CondLock) (x : Loc) :
      s.pc (.proc q) = .sleepUnlocked chan lk x →
      ProcMove s q (.run (.proc q) i) (Proc.fallAsleep chan (s.proc q))
  | yield (i : Input) (x : Loc) : s.pc (.proc q) = .yieldLocked x →
      ProcMove s q (.run (.proc q) i) (Proc.giveWay (s.proc q))
  | assign (p : Slot) (i : Input) (x y : Loc) (op : TableOp) (f : Proc → Proc) :
      s.pc (.proc p) = .code x → TablePlace p x op y → s.edited (.proc p) op = some (q, f) →
      ProcMove s q (.run (.proc p) i) (f (s.proc q))
  | dispatch : (s.proc q).state = .runnable → ProcMove s q (.dispatch q) (Proc.run (s.proc q))
  | settle : ProcMove s q (.settle q) (s.proc q).demote

theorem Proc.kkill_of_ne {p : Proc} {pid : ℤ} (h : p.pid ≠ pid) : p.kkill pid = p := by
  rw [Proc.kkill, if_neg h]

theorem edit_procMove (hpc : s.pc t = pc) (h : Next kernel t i s.proc s.data pc (.edit q f) pc') :
    ProcMove s q (.run t i) (f (s.proc q)) := by
  cases h with
  | killedLocked | resumed => exact .same _
  | woken => exact .woken t i
  | wakeupLocked chan => exact .wakeup t i chan
  | kkillHit pid _ x hpid =>
    subst hpid
    exact .kkill t i x hpc
  | kkillMiss pid _ x hpid =>
    rw [show (fun p : Proc => p.kkill pid) (s.proc q) = s.proc q from Proc.kkill_of_ne hpid]
    exact .same _

theorem switch_procMove (hpc : s.pc (.proc q) = pc)
    (h : Next kernel (.proc q) i s.proc s.data pc (.switch f) pc') :
    ProcMove s q (.run (.proc q) i) (f (s.proc q)) := by
  cases h with
  | sched => exact .same _
  | sleepUnlocked chan lk x => exact .sleep i chan lk x hpc
  | yieldLocked x => exact .yield i x hpc

theorem procMove_setProc {r : Slot} (h : ProcMove s r a (f (s.proc r))) :
    ProcMove s q a ((s.setProc r f).proc q) := by
  by_cases hqr : q = r
  · subst hqr
    rw [State.setProc_proc_self]
    exact h
  · rw [State.setProc_proc_of_ne _ _ hqr]
    exact .same _

theorem procMove_of_step (h : step kernel s a = some s') (q : Slot) :
    ProcMove s q a (s'.proc q) := by
  cases a with
  | run t i =>
    obtain ⟨pc, act, pc', s₁, -, hpc, hnext, hacted, rfl⟩ := step_run h
    rw [State.goto_proc]
    cases hacted with
    | acquire | release | data | skip => exact .same _
    | table op =>
      cases hnext with
      | table x op y hx =>
        obtain ⟨p, rfl, hplace⟩ := tablePlace_of_instr hx
        rw [State.table_proc]
        rcases s.editTable_apply (.proc p) op q with heq | ⟨f, hf, heq⟩
        · rw [heq]
          exact .same _
        · rw [heq]
          exact .assign p i x y op f hpc hplace hf
    | edit r f => exact procMove_setProc (edit_procMove hpc hnext)
    | switch r f ht =>
      subst ht
      exact procMove_setProc (switch_procMove hpc hnext)
  | dispatch r =>
    obtain ⟨pc, -, hrunnable, -, rfl⟩ := step_dispatch h
    exact procMove_setProc (.dispatch hrunnable)
  | settle r =>
    obtain ⟨-, rfl⟩ := step_settle h
    exact procMove_setProc .settle

/-- The assignments that the code makes to the table, and the states they lead between. -/
theorem Base.table_move (hs : Base s) (hpc : s.pc (.proc p) = .code x)
    (hplace : TablePlace p x op y) (hf : s.edited (.proc p) op = some (q, f)) :
    StateMove s (.run (.proc p) i) q (s.proc q).state (f (s.proc q)).state := by
  have hexpects := hs.expects p x q
  cases hplace with
  | alloc np =>
    obtain ⟨rfl, rfl⟩ := Prod.mk.inj (Option.some.inj hf)
    rw [hexpects .unused hpc rfl]
    exact .alloc p i rfl hpc
  | allocFail np =>
    obtain ⟨rfl, rfl⟩ := Prod.mk.inj (Option.some.inj hf)
    rw [hexpects .unused hpc rfl]
    exact .same _
  | ready np =>
    obtain ⟨rfl, rfl⟩ := Prod.mk.inj (Option.some.inj hf)
    rw [hexpects .used hpc rfl]
    exact .ready p i rfl hpc
  | zombie status =>
    obtain ⟨rfl, rfl⟩ := Prod.mk.inj (Option.some.inj hf)
    have hfits := hs.fits p
    rw [hpc] at hfits
    rw [hfits]
    exact .exit i status rfl hpc
  | free addr pp =>
    obtain ⟨rfl, rfl⟩ := Prod.mk.inj (Option.some.inj hf)
    rw [hexpects .zombie hpc rfl]
    exact .free p i addr rfl hpc
  | parent | adopt | setkilled =>
    obtain ⟨rfl, rfl⟩ := Prod.mk.inj (Option.some.inj hf)
    exact .same _

theorem edit_state (h : Next kernel t i tb d pc (.edit q f) pc') (x : Proc) :
    (f x).state = x.state ∨ x.state = .sleeping ∧ (f x).state = .runnable := by
  cases h with
  | woken | killedLocked | resumed => exact Or.inl rfl
  | wakeupLocked c => exact x.wakeup_state c
  | kkillHit pid | kkillMiss pid => exact x.kkill_state pid

/-- `wakeup` and `kkill` make a sleeping process `RUNNABLE`, and change no other state. -/
theorem stateMove_of_wakes {x y : Proc}
    (h : y.state = x.state ∨ x.state = .sleeping ∧ y.state = .runnable) :
    StateMove s a q x.state y.state := by
  rcases h with heq | ⟨hold, hnew⟩
  · rw [heq]
    exact .same _
  · rw [hold, hnew]
    exact .wake

theorem Base.state_move (hs : Base s) (h : step kernel s a = some s') (q : Slot) :
    StateMove s a q (s.proc q).state (s'.proc q).state := by
  have hmove := procMove_of_step h q
  generalize s'.proc q = x' at hmove ⊢
  have hfits := hs.fits q
  cases hmove with
  | same | woken => exact .same _
  | wakeup t i chan => exact stateMove_of_wakes ((s.proc q).wakeup_state chan)
  | kkill => exact stateMove_of_wakes ((s.proc q).kkill_state _)
  | sleep i chan lk x hpc =>
    rw [hpc] at hfits
    rw [hfits]
    exact .sleep i chan lk x rfl hpc
  | yield i x hpc =>
    rw [hpc] at hfits
    rw [hfits]
    exact .yield i x rfl hpc
  | assign p i x y op f hpc hplace hf => exact hs.table_move hpc hplace hf
  | dispatch hrunnable =>
    rw [hrunnable]
    exact .dispatch rfl
  | settle =>
    rw [Proc.demote_state]
    exact .same _

/-- A thread that does not take the step stays where it is, unless it is dispatched, or belongs to
a slot that is allocated, where it was switched out. -/
theorem Base.pc_other (hs : Base s) (h : step kernel s a = some s') (ha : ∀ i, a ≠ .run u i) :
    (s'.pc u = s.pc u ∧ ∀ p, u = .proc p → a ≠ .dispatch p) ∨
      (∃ np p i x, u = .proc np ∧ a = .run (.proc p) i ∧
        s.pc (.proc p) = .code (.fork (.alloc np)) ∧ s.pc u = .off x ∧ s'.pc u = .off .user) ∨
      ∃ p, u = .proc p ∧ a = .dispatch p ∧ (s.pc u).resume? = some (s'.pc u) := by
  cases a with
  | run t i =>
    have htu : u ≠ t := fun heq => ha i (heq ▸ rfl)
    obtain ⟨pc, act, pc', s₁, -, hpc, hnext, hacted, rfl⟩ := step_run h
    rw [State.goto_pc_of_ne _ _ htu]
    cases hacted with
    | table op =>
      rcases s.table_pc kernel.forkret t op u with hkept | ⟨np, hop, hu, hoff⟩
      · exact Or.inl ⟨hkept, by simp⟩
      · subst hop hu
        cases hnext with
        | table x op y hx =>
          obtain ⟨p, rfl, hplace⟩ := tablePlace_of_instr hx
          cases hplace
          -- the slot is `UNUSED`, so its thread is switched out
          have hunused : (s.proc np).state = .unused := hs.expects p _ np .unused hpc rfl
          have hfits := hs.fits np
          rw [hunused] at hfits
          obtain ⟨x, hx⟩ := hfits.off (Or.inl rfl)
          exact Or.inr (Or.inl ⟨np, p, i, x, rfl, rfl, hpc, hx, hoff⟩)
    | _ => exact Or.inl ⟨rfl, by simp⟩
  | dispatch p =>
    obtain ⟨pc, -, -, hpc, rfl⟩ := step_dispatch h
    by_cases hu : u = .proc p
    · subst hu
      refine Or.inr (Or.inr ⟨p, rfl, rfl, ?_⟩)
      rw [State.goto_pc_self]
      exact hpc
    · refine Or.inl ⟨State.goto_pc_of_ne _ _ hu, ?_⟩
      rintro q hq ⟨⟩
      exact hu hq
  | settle p =>
    obtain ⟨-, rfl⟩ := step_settle h
    exact Or.inl ⟨rfl, by simp⟩

theorem fits_code (hx : x.dying = false) : Fits (.code x) st ↔ st = .running := by
  simp [Fits, hx]

/-- An act that does not change the table, or only releases a lock, fits the same state. -/
theorem fits_kept (h : Next kernel (.proc p) i tb d pc act pc') (hret : ∀ x, pc.returns x → x.Plain)
    (hfits : Fits pc st) (htable : ∀ op, act ≠ .table op) (hswitch : ∀ f, act ≠ .switch f) :
    Fits pc' st := by
  have hlocal := procInstr_local p
  cases h with
  | acquire x l y hx =>
    have hx' := hlocal x
    rw [show procInstr p x = _ from hx] at hx'
    exact (fits_code hx'.2.1).mpr ((fits_code hx'.1).mp hfits)
  | release x l y hx =>
    have hx' := hlocal x
    rw [show procInstr p x = _ from hx] at hx'
    rw [Fits, hx'.1]
    exact hfits
  | compute x f hx =>
    have hx' := hlocal x
    rw [show procInstr p x = _ from hx] at hx'
    exact (fits_code (hx'.2 _ _ _).1).mpr ((fits_code hx'.1).mp hfits)
  | sleep _ x _ _ _ _ hx | wakeup x _ _ hx | killed _ x _ _ _ hx | kkill x _ _ hx
  | yield _ x _ _ hx =>
    have hx' := hlocal x
    rw [show procInstr p x = _ from hx] at hx'
    exact (fits_code hx'.1).mp hfits
  | table => exact absurd rfl (htable _)
  | sched | sleepUnlocked | yieldLocked => exact absurd rfl (hswitch _)
  | relock _ x | wakeupDone _ _ x | kkillNone _ _ x | kkillHit _ _ x | resumed _ x =>
    exact (fits_code (hret x rfl).1).mpr hfits
  | killedLocked _ x y =>
    split
    · exact (fits_code (hret x (Or.inl rfl)).1).mpr hfits
    · exact (fits_code (hret y (Or.inr rfl)).1).mpr hfits
  | _ => exact hfits

theorem Base.table_fits (hs : Base s) {i : Input} (hpc : s.pc (.proc p) = .code x)
    (hplace : TablePlace p x op y) : Fits (.code y) (s.editTable (.proc p) op p).state := by
  have hfits := hs.fits p
  have hmove : StateMove s (.run (.proc p) i) p (s.proc p).state
      (s.editTable (.proc p) op p).state := by
    rcases s.editTable_apply (.proc p) op p with heq | ⟨f, hf, heq⟩
    · rw [heq]
      exact .same _
    · rw [heq]
      exact hs.table_move hpc hplace hf
  rw [hpc] at hfits
  cases hplace with
  | zombie status =>
    show (Function.update s.proc p _ p).state = _
    rw [Function.update_self]
    rfl
  | _ =>
    rw [show (s.proc p).state = .running from hfits] at hmove
    generalize (s.editTable (.proc p) _ p).state = st at hmove ⊢
    cases hmove with
    | same => rfl
    | sleep _ _ _ _ _ h | yield _ _ _ h | exit _ _ _ h => exact nomatch hpc.symm.trans h

theorem Base.own_fits (hs : Base s) (h : step kernel s (.run (.proc p) i) = some s') :
    Fits (s'.pc (.proc p)) (s'.proc p).state := by
  have hawake := hs.sound.awake h
  obtain ⟨pc, act, pc', s₁, -, hpc, hnext, hacted, rfl⟩ := step_run h
  have hfits := hs.fits p
  have hret := fun x hx => hs.returns (.proc p) x hx p rfl
  rw [hpc] at hfits hret
  rw [State.goto_pc_self, State.goto_proc]
  cases hacted with
  | acquire | release | data | skip => exact fits_kept hnext hret hfits (by simp) (by simp)
  | table op =>
    cases hnext with
    | table x op y hx =>
      rw [State.table_proc]
      exact hs.table_fits (i := i) hpc (tablePlace_of_procInstr hx)
  | edit r f =>
    have hkept := fits_kept hnext hret hfits (by simp) (by simp)
    rw [State.setLock_proc]
    by_cases hpr : p = r
    · subst hpr
      rw [State.setProc_proc_self]
      rcases edit_state hnext (s.proc p) with heq | ⟨hold, -⟩
      · rw [heq]
        exact hkept
      · exact absurd hold hawake
    · rw [State.setProc_proc_of_ne _ _ hpr]
      exact hkept
  | switch r f ht =>
    cases ht
    rw [State.setLock_proc, State.setProc_proc_self]
    cases hnext with
    | sched x y hx =>
      have hx' := procInstr_local p x
      rw [show procInstr p x = _ from hx] at hx'
      rw [Fits, hx'.1] at hfits
      show (s.proc p).state ≠ .running ∧ (s.proc p).state ≠ .sleeping
      rw [hfits]
      exact ⟨by simp, by simp⟩
    | sleepUnlocked chan lk x => exact Or.inl rfl
    | yieldLocked x => exact ⟨by simp [Proc.giveWay], by simp [Proc.giveWay]⟩

theorem Fits.wake (h : Fits pc .sleeping) : Fits pc .runnable := by
  cases pc with
  | off x => exact absurd rfl h.2
  | asleep => exact Or.inr rfl
  | code x => cases hx : x.dying <;> simp [Fits, hx] at h
  | _ => exact nomatch h

theorem Fits.zombie (h : Fits pc .zombie) :
    (∃ x, pc = .off x) ∨ ∃ x, pc = .code x ∧ x.dying = true := by
  cases pc with
  | off x => exact Or.inl ⟨x, rfl⟩
  | asleep => simp [Fits] at h
  | code x => cases hx : x.dying <;> simp_all [Fits]
  | _ => exact nomatch h

theorem Loc.own_of_dying (hx : x.dying = true) : procOwn p x (.proc p) := by
  cases x with
  | exit status x =>
    cases x with
    | releaseWait => exact Or.inr rfl
    | sched => rfl
    | _ => exact nomatch hx
  | _ => exact nomatch hx

theorem Base.eq_of_own (hs : Base s) {p' : Slot} {x' : Loc} {l : Lock CondLock}
    (hpc : s.pc (.proc p) = .code x) (hpc' : s.pc (.proc p') = .code x') (hl : procOwn p x l)
    (hl' : procOwn p' x' l) : p = p' := by
  have hlock := hs.holds.lock (.proc p) l (by simp) (hpc ▸ hl)
  have hlock' := hs.holds.lock (.proc p') l (by simp) (hpc' ▸ hl')
  exact Thread.proc.inj (Option.some.inj (hlock.symm.trans hlock'))

theorem Base.other_fits (hs : Base s) (h : step kernel s a = some s')
    (ha : ∀ i, a ≠ .run (.proc p) i) : Fits (s'.pc (.proc p)) (s'.proc p).state := by
  have hfits := hs.fits p
  have hmove := hs.state_move h p
  rcases hs.pc_other h ha with ⟨hpc, hnot⟩ | ⟨np, p', i, x, hp, -, hpc', -, hnew⟩ | ⟨p', hp, ha', -⟩
  · rw [hpc]
    generalize (s.proc p).state = st at hmove hfits
    generalize (s'.proc p).state = st' at hmove ⊢
    cases hmove with
    | same => exact hfits
    | wake => exact hfits.wake
    | dispatch heq => exact absurd heq (hnot p rfl)
    | sleep i _ _ _ heq | yield i _ heq | exit i _ heq => exact absurd heq (ha i)
    | alloc =>
      obtain ⟨x, hx⟩ := hfits.off (Or.inl rfl)
      rw [hx]
      exact ⟨by simp, by simp⟩
    | ready =>
      obtain ⟨x, hx⟩ := hfits.off (Or.inr rfl)
      rw [hx]
      exact ⟨by simp, by simp⟩
    | free p' i addr heq hpc' =>
      rcases hfits.zombie with ⟨x, hx⟩ | ⟨x, hx, hdying⟩
      · rw [hx]
        exact ⟨by simp, by simp⟩
      · -- a dying process holds its own lock, which `kwait` has
        have hpp' := hs.eq_of_own hx hpc' (Loc.own_of_dying hdying) (Or.inr rfl)
        exact absurd heq (by rw [hpp'] at ha; exact ha i)
  · cases hp
    rw [hnew]
    rw [hs.expects p' _ p .unused hpc' rfl] at hmove
    generalize (s'.proc p).state = st' at hmove ⊢
    cases hmove with
    | same | alloc => exact ⟨by simp, by simp⟩
  · cases hp
    subst ha'
    obtain ⟨pc, -, -, hpc, rfl⟩ := step_dispatch h
    rw [State.goto_pc_self, State.goto_proc, State.setLock_proc, State.setProc_proc_self]
    rcases Pc.resume_cases hpc with ⟨c, lk, x, -, rfl⟩ | ⟨x, -, rfl⟩
    · rfl
    · rfl

theorem Base.step_fits (hs : Base s) (h : step kernel s a = some s') (p : Slot) :
    Fits (s'.pc (.proc p)) (s'.proc p).state := by
  by_cases ha : ∃ i, a = .run (.proc p) i
  · obtain ⟨i, rfl⟩ := ha
    exact hs.own_fits h
  · exact hs.other_fits h fun i hi => ha ⟨i, hi⟩

theorem Loc.expects_cases (h : x.expects = some (np, st)) :
    st = .unused ∧ (∀ p, procOwn p x (.proc np)) ∨ st = .used ∨
      st = .zombie ∧ ∀ p, procOwn p x (.proc np) := by
  cases x with
  | fork x =>
    cases x with
    | alloc | fail =>
      obtain ⟨rfl, rfl⟩ := Prod.mk.inj (Option.some.inj h)
      exact Or.inl ⟨rfl, fun _ => rfl⟩
    | unlock | acquireWait | parent | releaseWait | lock | ready =>
      obtain ⟨rfl, rfl⟩ := Prod.mk.inj (Option.some.inj h)
      exact Or.inr (Or.inl rfl)
    | _ => exact nomatch h
  | wait addr x =>
    cases x with
    | fail | free =>
      obtain ⟨rfl, rfl⟩ := Prod.mk.inj (Option.some.inj h)
      exact Or.inr (Or.inr ⟨rfl, fun _ => Or.inr rfl⟩)
    | _ => exact nomatch h
  | _ => exact nomatch h

/-- How a process comes to know the state of another one: by the test before, by what it knew, or
by allocating it. -/
theorem expects_next (h : Next kernel (.proc p) i tb d pc act (.code y))
    (hret : ∀ x, pc.returns x → x.Plain) (hy : y.expects = some (np, st)) :
    (∃ x, pc = .code x ∧ x.expects = some (np, st) ∧
      ((∃ l, act = .acquire l) ∨ (∃ l, act = .release l) ∨ act = .table (.setParent np p))) ∨
    ((tb np).state = st ∧ st ≠ .used ∧ ∃ d', act = .data d') ∨
    pc = .code (.fork (.alloc np)) ∧ act = .table (.alloc np) ∧ st = .used := by
  have hlocal := procInstr_local p
  -- the places that the functions of `kernel/proc.c` return to are plain
  have hplain : ∀ z, z.Plain → y ≠ z := by
    rintro z hz rfl
    exact nomatch hz.2.symm.trans hy
  generalize hpc' : Pc.code y = pc' at h
  cases h with
  | acquire x l z hx =>
    cases hpc'
    have hx' := hlocal x
    rw [show procInstr p x = _ from hx] at hx'
    rcases hx'.2.2 with heq | heq
    · exact Or.inl ⟨x, rfl, heq ▸ hy, Or.inl ⟨l, rfl⟩⟩
    · exact nomatch heq.symm.trans hy
  | release x l z hx =>
    cases hpc'
    have hx' := hlocal x
    rw [show procInstr p x = _ from hx] at hx'
    rcases hx'.2 with heq | heq
    · exact Or.inl ⟨x, rfl, heq ▸ hy, Or.inr (Or.inl ⟨l, rfl⟩)⟩
    · exact nomatch heq.symm.trans hy
  | compute x f hx =>
    cases hpc'
    have hx' := hlocal x
    rw [show procInstr p x = _ from hx] at hx'
    obtain ⟨hstate, hne⟩ := (hx'.2 i tb d).2 np st hy
    exact Or.inr (Or.inl ⟨hstate, hne, _, rfl⟩)
  | table x op z hx =>
    cases hpc'
    cases tablePlace_of_procInstr hx with
    | alloc =>
      obtain ⟨rfl, rfl⟩ := Prod.mk.inj (Option.some.inj hy)
      exact Or.inr (Or.inr ⟨rfl, rfl, rfl⟩)
    | parent =>
      obtain ⟨rfl, rfl⟩ := Prod.mk.inj (Option.some.inj hy)
      exact Or.inl ⟨_, rfl, rfl, Or.inr (Or.inr rfl)⟩
    | _ => exact nomatch hy
  | relock _ x | wakeupDone _ _ x | kkillNone _ _ x | kkillHit _ _ x | resumed _ x =>
    cases hpc'
    exact absurd rfl (hplain _ (hret _ rfl))
  | killedLocked _ x z =>
    cases hpc'
    split at hplain
    · exact absurd rfl (hplain _ (hret _ (Or.inl rfl)))
    · exact absurd rfl (hplain _ (hret _ (Or.inr rfl)))
  | _ => exact nomatch hpc'

theorem Base.own_expects (hs : Base s) (h : step kernel s (.run (.proc p) i) = some s')
    (hpc' : s'.pc (.proc p) = .code y) (hy : y.expects = some (np, st)) :
    (s'.proc np).state = st := by
  obtain ⟨pc, act, pc', s₁, -, hpc, hnext, hacted, rfl⟩ := step_run h
  rw [State.goto_pc_self] at hpc'
  subst hpc'
  have hret := fun x hx => hs.returns (.proc p) x hx p rfl
  rw [hpc] at hret
  rw [State.goto_proc]
  rcases expects_next hnext hret hy with ⟨x, rfl, hx, hact⟩ | ⟨hstate, -, d', rfl⟩ | ⟨-, rfl, rfl⟩
  · have hold := hs.expects p x np st hpc hx
    rcases hact with ⟨l, rfl⟩ | ⟨l, rfl⟩ | rfl
    · cases hacted
      exact hold
    · cases hacted
      exact hold
    · cases hacted
      rw [State.table_proc]
      show (Function.update s.proc np _ np).state = st
      rw [Function.update_self]
      exact hold
  · cases hacted
    exact hstate
  · cases hacted
    rw [State.table_proc, State.editTable_alloc]
    rfl

theorem Base.other_expects (hs : Base s) (h : step kernel s a = some s')
    (ha : ∀ i, a ≠ .run (.proc p) i) (hpc : s.pc (.proc p) = .code x)
    (hx : x.expects = some (np, st)) : (s'.proc np).state = st := by
  have hold := hs.expects p x np st hpc hx
  have hmove := hs.state_move h np
  have hcases := Loc.expects_cases hx
  rw [hold] at hmove
  generalize (s'.proc np).state = st' at hmove ⊢
  cases hmove with
  | same => rfl
  | alloc p' i heq hpc' =>
    rcases hcases with ⟨-, hown⟩ | h | ⟨h, -⟩
    · have hpp' := hs.eq_of_own hpc hpc' (hown p) rfl
      exact absurd heq (by rw [hpp'] at ha; exact ha i)
    · exact nomatch h
    · exact nomatch h
  | ready p' i heq hpc' =>
    have hpp' := hs.fresh p p' _ _ np hpc hpc' hx rfl
    exact absurd heq (by rw [hpp'] at ha; exact ha i)
  | free p' i addr heq hpc' =>
    rcases hcases with ⟨h, -⟩ | h | ⟨-, hown⟩
    · exact nomatch h
    · exact nomatch h
    · have hpp' := hs.eq_of_own hpc hpc' (hown p) (Or.inr rfl)
      exact absurd heq (by rw [hpp'] at ha; exact ha i)
  | _ =>
    rcases hcases with ⟨h, -⟩ | h | ⟨h, -⟩
    all_goals exact nomatch h

/-- A thread that is at a place of the code and did not take the step was there before. -/
theorem Base.code_other (hs : Base s) (h : step kernel s a = some s') (ha : ∀ i, a ≠ .run u i)
    (hpc : s'.pc u = .code x) : s.pc u = .code x := by
  rcases hs.pc_other h ha with ⟨hkept, -⟩ | ⟨np, p, i, y, -, -, -, -, hnew⟩ | ⟨p, -, -, hresume⟩
  · exact hkept.symm.trans hpc
  · exact nomatch hnew.symm.trans hpc
  · rw [hpc] at hresume
    rcases Pc.resume_cases hresume with ⟨c, lk, y, -, hback⟩ | ⟨y, -, hback⟩
    · exact nomatch hback
    · exact nomatch hback

theorem Base.step_expects (hs : Base s) (h : step kernel s a = some s')
    (hpc : s'.pc (.proc p) = .code x) (hx : x.expects = some (np, st)) :
    (s'.proc np).state = st := by
  by_cases ha : ∃ i, a = .run (.proc p) i
  · obtain ⟨i, rfl⟩ := ha
    exact hs.own_expects h hpc hx
  · have ha' : ∀ i, a ≠ .run (.proc p) i := fun i hi => ha ⟨i, hi⟩
    exact hs.other_expects h ha' (hs.code_other h ha' hpc) hx

/-- A process that knows of a `USED` slot knew of it before, or allocates it. -/
theorem Base.used_before (hs : Base s) (h : step kernel s a = some s')
    (hpc : s'.pc (.proc p) = .code x) (hx : x.expects = some (np, .used)) :
    (∃ y, s.pc (.proc p) = .code y ∧ y.expects = some (np, .used)) ∨
      (∃ i, a = .run (.proc p) i) ∧ s.pc (.proc p) = .code (.fork (.alloc np)) := by
  by_cases ha : ∃ i, a = .run (.proc p) i
  · obtain ⟨i, rfl⟩ := ha
    obtain ⟨pc, act, pc', s₁, -, hpc₀, hnext, -, rfl⟩ := step_run h
    rw [State.goto_pc_self] at hpc
    subst hpc
    have hret := fun x hx => hs.returns (.proc p) x hx p rfl
    rw [hpc₀] at hret ⊢
    rcases expects_next hnext hret hx with ⟨y, rfl, hy, -⟩ | ⟨-, hne, -⟩ | ⟨rfl, -, -⟩
    · exact Or.inl ⟨y, rfl, hy⟩
    · exact absurd rfl hne
    · exact Or.inr ⟨⟨i, rfl⟩, rfl⟩
  · exact Or.inl ⟨x, hs.code_other h (fun i hi => ha ⟨i, hi⟩) hpc, hx⟩

theorem Base.step_fresh (hs : Base s) (h : step kernel s a = some s') {p' : Slot} {x' : Loc}
    (hpc : s'.pc (.proc p) = .code x) (hpc' : s'.pc (.proc p') = .code x')
    (hx : x.expects = some (np, .used)) (hx' : x'.expects = some (np, .used)) : p = p' := by
  rcases hs.used_before h hpc hx with ⟨y, hy, hexp⟩ | ⟨⟨i, hi⟩, halloc⟩
  · rcases hs.used_before h hpc' hx' with ⟨y', hy', hexp'⟩ | ⟨-, halloc'⟩
    · exact hs.fresh p p' y y' np hy hy' hexp hexp'
    · exact nomatch (hs.expects p y np _ hy hexp).symm.trans
        (hs.expects p' _ np .unused halloc' rfl)
  · rcases hs.used_before h hpc' hx' with ⟨y', hy', hexp'⟩ | ⟨⟨i', hi'⟩, -⟩
    · exact nomatch (hs.expects p' y' np _ hy' hexp').symm.trans
        (hs.expects p _ np .unused halloc rfl)
    · rw [hi] at hi'
      cases hi'
      rfl

theorem Base.step_sleeps (hs : Base s) (h : step kernel s a = some s')
    (hx : (s'.pc (.proc p)).SleepsOn chan lk x) : SleepPlace p chan lk x := by
  by_cases ha : ∃ i, a = .run (.proc p) i
  · obtain ⟨i, rfl⟩ := ha
    obtain ⟨pc, act, pc', s₁, -, hpc, hnext, -, rfl⟩ := step_run h
    rw [State.goto_pc_self] at hx
    cases hnext with
    | sleep _ y _ _ _ _ hy =>
      obtain ⟨rfl, rfl, rfl⟩ := hx
      exact (sleepPlace_of_procInstr hy).1
    | sleepLocked | sleepUnlocked => exact hs.sleeps p chan lk x (hpc ▸ hx)
    | _ => exact hx.elim
  · rcases hs.pc_other h fun i hi => ha ⟨i, hi⟩ with
      ⟨hkept, -⟩ | ⟨np, q, i, y, -, -, -, -, hnew⟩ | ⟨q, -, -, hresume⟩
    · exact hs.sleeps p chan lk x (hkept ▸ hx)
    · rw [hnew] at hx
      exact hx.elim
    · rcases Pc.resume_cases hresume with ⟨c, l, y, -, hback⟩ | ⟨y, -, hback⟩
      · rw [hback] at hx
        exact hx.elim
      · rw [hback] at hx
        exact hx.elim

/-- Every step keeps `Base`. -/
theorem Base.step (hs : Base s) (h : step kernel s a = some s') : Base s' where
  sound := hs.sound.step h
  sleeps _ _ _ _ hx := hs.step_sleeps h hx
  holds := hs.holds.step kernel_disciplined h
  returns t x hx := by
    refine returns_of_step (P := fun t x => ∀ p, t = .proc p → x.Plain) ?_ ?_ hs.returns h hx
    · intro t x
      cases t with
      | proc p => exact (procInstr_local p x).returnsTo.mono fun y hy _ _ => hy
      | intr n => exact Instr.returnsTo_of_forall _ fun y p hp => nomatch hp
      | sched => trivial
    · rintro t p -
      exact ⟨rfl, rfl⟩
  fits p := hs.step_fits h p
  expects _ _ _ _ hpc hx := hs.step_expects h hpc hx
  fresh _ _ _ _ _ hpc hpc' hx hx' := hs.step_fresh h hpc hpc' hx hx'

/-! ## The killed flag -/

/-- How a step changes the flag `killed` of process `q`. -/
inductive KilledMove (s : KState) (a : KLabel) (q : Slot) : Bool → Bool → Prop
  | same (b : Bool) : KilledMove s a q b b
  /-- `kkill` finds its victim. -/
  | kill (t : Thread) (i : Input) (x : Loc) (b : Bool) : a = .run t i →
      s.pc t = .kkillLocked (s.proc q).pid q x → KilledMove s a q b true
  | setkilled (i : Input) (b : Bool) : a = .run (.proc q) i →
      s.pc (.proc q) = .code (.fault .set) → KilledMove s a q b true
  /-- `freeproc` -/
  | free (b : Bool) : (s.proc q).state = .unused ∨ (s.proc q).state = .zombie →
      KilledMove s a q b false

theorem Base.table_killed (hs : Base s) (hpc : s.pc (.proc p) = .code x)
    (hplace : TablePlace p x op y) (hf : s.edited (.proc p) op = some (q, f)) :
    KilledMove s (.run (.proc p) i) q (s.proc q).killed (f (s.proc q)).killed := by
  have hexpects := hs.expects p x q
  cases hplace with
  | allocFail np =>
    obtain ⟨rfl, rfl⟩ := Prod.mk.inj (Option.some.inj hf)
    exact .free _ (Or.inl (hexpects .unused hpc rfl))
  | free addr pp =>
    obtain ⟨rfl, rfl⟩ := Prod.mk.inj (Option.some.inj hf)
    exact .free _ (Or.inr (hexpects .zombie hpc rfl))
  | setkilled =>
    obtain ⟨rfl, rfl⟩ := Prod.mk.inj (Option.some.inj hf)
    exact .setkilled i _ rfl hpc
  | _ =>
    obtain ⟨rfl, rfl⟩ := Prod.mk.inj (Option.some.inj hf)
    exact .same _

theorem Proc.wakeup_killed (p : Proc) (chan : ℕ) : (p.wakeup chan).killed = p.killed := by
  unfold Proc.wakeup
  split <;> rfl

theorem Proc.kkill_killed (p : Proc) : (p.kkill p.pid).killed = true := by
  rw [Proc.kkill, if_pos rfl]
  dsimp only
  split <;> rfl

theorem Proc.demote_killed (p : Proc) : p.demote.killed = p.killed := by
  unfold Proc.demote
  split <;> rfl

theorem Base.killed_move (hs : Base s) (h : Sync.step kernel s a = some s') (q : Slot) :
    KilledMove s a q (s.proc q).killed (s'.proc q).killed := by
  have hmove := procMove_of_step h q
  generalize s'.proc q = x' at hmove ⊢
  cases hmove with
  | same | woken | sleep | yield | dispatch => exact .same _
  | wakeup t i chan =>
    rw [Proc.wakeup_killed]
    exact .same _
  | kkill t i x hpc =>
    rw [Proc.kkill_killed]
    exact .kill t i x _ rfl hpc
  | assign p i x y op f hpc hplace hf => exact hs.table_killed hpc hplace hf
  | settle =>
    rw [Proc.demote_killed]
    exact .same _

/-! ## Steps at a place of the code -/

theorem next_of_code (hpc : s.pc (.proc p) = .code x)
    (h : Sync.step kernel s (.run (.proc p) i) = some s') :
    ∃ act pc' s₁, (procInstr p x).next (.proc p) i s.proc s.data = some (act, pc') ∧
      s.apply .user (.proc p) act = some s₁ ∧ s' = s₁.goto (.proc p) pc' := by
  rw [Sync.step, if_neg (by simp), hpc] at h
  obtain ⟨⟨act, pc'⟩, hnext, hrest⟩ := Option.bind_eq_some_iff.mp h
  obtain ⟨s₁, happly, hs'⟩ := Option.map_eq_some_iff.mp hrest
  exact ⟨act, pc', s₁, hnext, happly, hs'.symm⟩

theorem step_compute {f : Input → Table → Data → Data × Loc} (hpc : s.pc (.proc p) = .code x)
    (hx : procInstr p x = .compute f) (h : Sync.step kernel s (.run (.proc p) i) = some s') :
    s' = ({ s with data := (f i s.proc s.data).1 } : KState).goto (.proc p)
      (.code (f i s.proc s.data).2) := by
  obtain ⟨act, pc', s₁, hnext, happly, rfl⟩ := next_of_code hpc h
  rw [hx] at hnext
  obtain ⟨rfl, rfl⟩ := Prod.mk.inj (Option.some.inj hnext)
  rw [← Option.some.inj happly]

theorem step_wakeup (hpc : s.pc (.proc p) = .code x) (hx : procInstr p x = .wakeup chan y)
    (h : Sync.step kernel s (.run (.proc p) i) = some s') :
    s' = s.goto (.proc p) (.wakeup chan 0 y) := by
  obtain ⟨act, pc', s₁, hnext, happly, rfl⟩ := next_of_code hpc h
  rw [hx] at hnext
  obtain ⟨rfl, rfl⟩ := Prod.mk.inj (Option.some.inj hnext)
  rw [← Option.some.inj happly]

/-- A thread at a place of the code that does not take the step stays there. -/
theorem Base.code_kept (hs : Base s) (h : Sync.step kernel s a = some s') (ha : ∀ i, a ≠ .run u i)
    (hpc : s.pc u = .code x) : s'.pc u = .code x := by
  rcases hs.pc_other h ha with ⟨hkept, -⟩ | ⟨np, p, i, y, -, -, -, hold, -⟩ | ⟨p, -, -, hresume⟩
  · exact hkept.trans hpc
  · exact nomatch hold.symm.trans hpc
  · rw [hpc] at hresume
    exact nomatch hresume

/-! ## Signals -/

/-- Process `q` scans the table in `wakeup(chan)`, has not passed `p`, and holds `lk` when it
returns. -/
def Scans (s : KState) (chan : ℕ) (lk : CondLock) (p q : Slot) : Prop :=
  (s.pc (.proc q)).ahead chan p ∧ ∃ x, (s.pc (.proc q)).returns x ∧ procOwn q x (.cond lk)

theorem Next.returns_of_ahead (h : Next kernel t i tb d pc act pc') (hpc : pc.ahead chan p)
    (hpc' : pc'.ahead chan p) (hx : pc.returns x) : pc'.returns x := by
  cases h with
  | wakeupSelf | wakeupLock | wakeupLocked => exact hx
  | wakeupDone => exact hpc'.elim
  | _ => exact hpc.elim

theorem Scans.step (hs : Base s) (h : Sync.step kernel s a = some s') (hpq : q ≠ p)
    (hq : Scans s chan lk p q) (hd : Dormant s' p chan lk) : Scans s' chan lk p q := by
  obtain ⟨hahead, x, hx, hown⟩ := hq
  by_cases ha : ∃ i, a = .run (.proc q) i
  · obtain ⟨i, rfl⟩ := ha
    have hahead' := hs.sound.ahead_of_step h (by simpa using hpq) hahead hd
    obtain ⟨pc, act, pc', s₁, -, hpc, hnext, -, rfl⟩ := step_run h
    refine ⟨hahead', x, ?_, hown⟩
    rw [State.goto_pc_self] at hahead' ⊢
    rw [hpc] at hahead hx
    exact hnext.returns_of_ahead hahead hahead' hx
  · rcases hs.pc_other h fun i hi => ha ⟨i, hi⟩ with
      ⟨hkept, -⟩ | ⟨np, r, i, y, -, -, -, hold, -⟩ | ⟨r, -, -, hresume⟩
    · rw [Scans, hkept]
      exact ⟨hahead, x, hx, hown⟩
    · rw [hold] at hahead
      exact hahead.elim
    · rcases Pc.resume_cases hresume with ⟨c, l, y, hold, -⟩ | ⟨y, hold, -⟩
      · rw [hold] at hahead
        exact hahead.elim
      · rw [hold] at hahead
        exact hahead.elim

theorem Scans.lock (hq : Scans s chan lk p q) (hs : Base s) :
    s.lock (.cond lk) = some (.proc q) := by
  obtain ⟨hahead, x, hx, hown⟩ := hq
  refine hs.holds.lock (.proc q) _ (by simp) ?_
  generalize s.pc (.proc q) = pc at hahead hx ⊢
  cases pc with
  | wakeup => cases hx; exact hown
  | wakeupLocked => cases hx; exact Or.inl hown
  | _ => exact hahead.elim

/-- **The signal rule.**  `p` may be dormant in `sleep(chan, lk)` as long as `ok` holds, or another
process owes it a `wakeup`: by its place (`P`) or because its scan has not passed `p`.  A step keeps
this if `ok` holds when `p` goes to sleep, whoever makes `ok` false then owes a `wakeup`, and who
owes one goes on owing it until the scan. -/
theorem signal_step (hs : Base s) (h : Sync.step kernel s a = some s') {ok ok' : Prop}
    {P P' : Slot → Prop}
    (hsleep : ∀ i x, a = .run (.proc p) i → s.pc (.proc p) = .sleepLocked chan lk x → ok')
    (hok : Dormant s p chan lk → ok → ok' ∨ ∃ q, q ≠ p ∧ P' q)
    (hP : ∀ q, q ≠ p → Dormant s p chan lk → P q → ok' ∨ P' q ∨ Scans s' chan lk p q)
    (hold : Dormant s p chan lk → ok ∨ ∃ q, q ≠ p ∧ (P q ∨ Scans s chan lk p q))
    (hd : Dormant s' p chan lk) : ok' ∨ ∃ q, q ≠ p ∧ (P' q ∨ Scans s' chan lk p q) := by
  rcases hs.sound.dormant_of_step h hd with hd₀ | ⟨i, x, ha, hpc, -⟩
  · rcases hold hd₀ with hok₀ | ⟨q, hqp, hq | hq⟩
    · rcases hok hd₀ hok₀ with hok' | ⟨q, hqp, hq⟩
      · exact Or.inl hok'
      · exact Or.inr ⟨q, hqp, Or.inl hq⟩
    · rcases hP q hqp hd₀ hq with hok' | hq'
      · exact Or.inl hok'
      · exact Or.inr ⟨q, hqp, hq'⟩
    · exact Or.inr ⟨q, hqp, Or.inr (hq.step hs h hqp hd)⟩
  · exact Or.inl (hsleep i x ha hpc)

theorem Dormant.not_code (hd : Dormant s p chan lk) (hpc : s.pc (.proc q) = .code x) : q ≠ p := by
  rintro rfl
  rcases hd with ⟨y, hy⟩ | ⟨⟨y, hy⟩, -⟩
  · exact nomatch hy.symm.trans hpc
  · exact nomatch hy.symm.trans hpc

theorem Base.dormant_of_sleeping (hs : Base s) (hp : (s.proc p).state = .sleeping) :
    ∃ lk x, SleepPlace p (s.proc p).chan lk x ∧ s.pc (.proc p) = .asleep (s.proc p).chan lk x ∧
      Dormant s p (s.proc p).chan lk := by
  obtain ⟨lk, x, hpc⟩ := hs.sound.sleeping p hp
  exact ⟨lk, x, hs.sleeps p _ lk x (hpc ▸ ⟨rfl, rfl, rfl⟩), hpc, Or.inr ⟨⟨x, hpc⟩, hp⟩⟩

/-! ## Reachable states -/

theorem boot_start (data : ℕ → ℕ → UInt8) : Start (boot data) where
  lock _ := rfl
  pc t := by
    cases t with
    | proc p => exact Or.inr ⟨_, rfl⟩
    | intr | sched => exact Or.inl ⟨_, rfl⟩
  awake p := by
    show (bootTable p).state ≠ .sleeping
    unfold bootTable
    split <;> simp [Proc.init]

theorem boot_base (data : ℕ → ℕ → UInt8) : Base (boot data) where
  sound := (boot_start data).sound
  sleeps _ _ _ _ hx := hx.elim
  holds := (boot_start data).holds fun t x hx l => by
    cases t with
    | proc p => rcases hx with hx | hx <;> cases hx; exact id
    | intr n => rcases hx with hx | hx <;> cases hx; exact id
    | sched => exact id
  returns t x hx p hp := by
    subst hp
    cases hx
    exact ⟨rfl, rfl⟩
  fits p := by
    show (bootTable p).state ≠ .running ∧ (bootTable p).state ≠ .sleeping
    unfold bootTable
    split <;> simp [Proc.init]
  expects _ _ _ _ hpc := nomatch hpc
  fresh _ _ _ _ _ hpc := nomatch hpc

/-- A state that the kernel can reach. -/
def Reachable (s : KState) : Prop := ∃ data h, Run KSteps (boot data) h s

theorem Reachable.base (hs : Reachable s) : Base s := by
  obtain ⟨data, h, hrun⟩ := hs
  exact hrun.invariant (boot_base data) fun _ _ _ ht _ hstep => ht.step hstep

/-- Process `p` takes `n` steps; if it enters the kernel, then for `c`. -/
def acts (p : Slot) (c : Call) (n : ℕ) : List KLabel :=
  List.replicate n (.run (.proc p) ⟨c, true, 7⟩)

/-- The state after `userinit`, with zeroes in the pipes. -/
def boot₀ : KState := boot fun _ _ => 0

theorem reachable_of_exec {as : List KLabel} (h : exec (step kernel) boot₀ as = some s) :
    Reachable s := ⟨_, _, run_of_execWith h⟩

end Sync
end Xv6
