import Xv6.Sync.Interrupts

/-!
# Interrupts are restored for each thread

`noff` of a CPU is the number of `push_off`s that the thread on it has not undone, and `intena` is what the
outermost of them found, although both are left to the scheduler when the thread leaves in `sched`.  For the
first this is so because a thread leaves with one `push_off` not undone, that of the lock of its process, and
the scheduler, which resumes it with this lock held, has made one as well.  For the second `sched` keeps
`intena` in a variable.

The invariant has a part for each CPU, of which a step changes one (`CpuOk`), a part for what the contexts of
processes hold (`Saved`), and a part for the locks, that each has at most one owner (`LocksOk`).
-/

namespace Xv6
namespace Intr

open Sched Transition

variable {C P K L : Type}

/-! ## One CPU -/

/-- The `push_off`s of a frame that are for a lock, or for an operation in progress. -/
def Frame.need (f : Frame L) : ℕ :=
  f.held.card + match f.pc with
    | .spin _ | .got _ | .pop => 1
    | _ => 0

/-- The numbers of the CPU are those of the frame that runs on it. -/
structure FrameOk (k : Cpu P) (f : Frame L) : Prop where
  depth : k.noff = f.depth
  off : 0 < k.noff → k.intr = false
  need : f.need ≤ f.depth
  push : ∀ old why, f.pc = .push old why → old = k.intr ∧ (f.depth = 0 → f.was = old)
  unlock : ∀ l, f.pc = .unlock l → l ∈ f.held

/-- Whether interrupts were on is kept in `intena`, or in the variable of `sched`. -/
structure Kept (k : Cpu P) (f : Frame L) : Prop where
  intena : 0 < f.depth → (∀ i, f.pc ≠ .back i) → k.intena = f.was
  swtch : ∀ i, f.pc = .swtch i → i = f.was
  back : ∀ i, f.pc = .back i → i = f.was

/-- A frame that has been interrupted: interrupts were on. -/
def Quiet (f : Frame L) : Prop :=
  f.depth = 0 ∧ f.held = ∅ ∧ (f.pc = .run ∨ ∃ why, f.pc = .push true why ∧ f.was = true)

/-- Inside of `sched`. -/
def Pc.switching : Pc L → Bool
  | .sched | .swtch _ | .back _ => true
  | _ => false

/-- The invariant of one CPU: `f` runs on it, and its scheduler goes on at `g`. -/
structure CpuOk (k : Cpu P) (f g : Flow (Lock P K)) : Prop where
  frame : FrameOk k f.frame
  kept : k.proc.isSome → f.fresh = false → Kept k f.frame
  quiet : ∀ x ∈ f.interrupted, Quiet x
  switching : f.frame.pc.switching → f.fresh = false ∧ f.frame.depth = 1 ∧
    ∃ p, k.proc = some p ∧ f.frame.held = {.proc p}
  sched : ∀ p, k.proc = some p →
    g.frame.pc = .run ∧ g.frame.held = {.proc p} ∧ g.frame.depth = 1 ∧ g.interrupted = []

/-- What the context of a process holds. -/
structure Saved (p : P) (f : Flow (Lock P K)) : Prop where
  held : f.frame.held = {.proc p}
  depth : f.frame.depth = 1
  quiet : ∀ x ∈ f.interrupted, Quiet x
  pc : f.fresh = true ∧ f.frame.pc = .run ∨ f.fresh = false ∧ f.frame.pc = .back f.frame.was

section Cpu

variable {k : Cpu P} {f g : Flow (Lock P K)} {x : Frame L}

theorem saved_forkret [DecidableEq P] [DecidableEq K] (p : P) : Saved (K := K) p (forkret p) :=
  ⟨rfl, rfl, nofun, Or.inl ⟨rfl, rfl⟩⟩

theorem Cpu.popOff_eq (hoff : k.intr = false) (hpos : 0 < k.noff) :
    k.popOff = .ok { k with noff := k.noff - 1, intr := decide (k.noff = 1) && k.intena } := by
  rw [Cpu.popOff, if_neg (by rw [hoff]; decide), if_neg (by omega)]
  congr 2
  by_cases hone : k.noff = 1
  · cases hi : k.intena <;> simp [hone, hoff]
  · rw [if_neg (by omega), hoff, decide_eq_false hone, Bool.false_and]

theorem Cpu.myproc_eq (hoff : k.intr = false) (hpos : 0 < k.noff) : k.myproc = .ok (k.proc, k) := by
  have hpush : k.pushOff k.intr = { k with noff := k.noff + 1 } := by
    rw [Cpu.pushOff, if_neg (by omega), hoff]
  have hpop : ({ k with noff := k.noff + 1 } : Cpu P).popOff = .ok k := by
    rw [Cpu.popOff_eq (k := { k with noff := k.noff + 1 }) hoff (Nat.succ_pos _)]
    have hne : decide (k.noff + 1 = 1) = false := decide_eq_false (by omega)
    rw [hne, Bool.false_and, Nat.add_sub_cancel, ← hoff]
  rw [Cpu.myproc, hpush]
  dsimp only
  rw [hpop]
  rfl

theorem Kept.of_depth_zero (h0 : x.depth = 0) (hpc : x.pc.switching = false) : Kept k x := by
  refine ⟨fun hpos => absurd h0 (Nat.pos_iff_ne_zero.mp hpos), fun i hi => ?_, fun i hi => ?_⟩
  · rw [hi] at hpc
    exact nomatch hpc
  · rw [hi] at hpc
    exact nomatch hpc

namespace CpuOk

variable (h : CpuOk k f g)

include h

theorem callPushOff (hpc : f.frame.pc = .run) (why : Purpose (Lock P K)) :
    CpuOk k { f with frame := { f.frame with
      pc := .push k.intr why
      was := if f.frame.depth = 0 then k.intr else f.frame.was } } g where
  frame := by
    refine ⟨h.frame.depth, h.frame.off, ?_, ?_, nofun⟩
    · have := h.frame.need
      simpa [Frame.need, hpc] using this
    · rintro old why' hpush
      obtain ⟨rfl, -⟩ := Pc.push.inj hpush
      exact ⟨rfl, fun h0 => if_pos h0⟩
  kept hp hf := by
    refine ⟨fun hpos _ => ?_, nofun, nofun⟩
    dsimp only
    rw [if_neg (Nat.pos_iff_ne_zero.mp hpos)]
    exact (h.kept hp hf).intena hpos (by rw [hpc]; nofun)
  quiet := h.quiet
  switching hcon := nomatch hcon
  sched := h.sched

theorem pushOff {old : Bool} {why : Purpose (Lock P K)} (hpc : f.frame.pc = .push old why) {pc : Pc (Lock P K)}
    (hto : pc = .run ∨ ∃ l, pc = .spin l) :
    CpuOk (k.pushOff old) { f with frame := { f.frame with pc := pc, depth := f.frame.depth + 1 } } g where
  frame := by
    have hneed := h.frame.need
    have hdepth := h.frame.depth
    refine ⟨congrArg (· + 1) hdepth, fun _ => rfl, ?_, ?_, ?_⟩
    · obtain rfl | ⟨l, rfl⟩ := hto
      · simp only [Frame.need, hpc] at hneed ⊢
        omega
      · simp only [Frame.need, hpc] at hneed ⊢
        omega
    · obtain rfl | ⟨l, rfl⟩ := hto <;> nofun
    · obtain rfl | ⟨l, rfl⟩ := hto <;> nofun
  kept hp hf := by
    obtain ⟨-, hwas⟩ := h.frame.push old why hpc
    refine ⟨fun _ _ => ?_, ?_, ?_⟩
    · show (if k.noff = 0 then old else k.intena) = f.frame.was
      split
      · rename_i h0
        exact (hwas (h.frame.depth ▸ h0)).symm
      · rename_i h0
        exact (h.kept hp hf).intena (by have := h.frame.depth; omega) (by rw [hpc]; nofun)
    · obtain rfl | ⟨l, rfl⟩ := hto <;> nofun
    · obtain rfl | ⟨l, rfl⟩ := hto <;> nofun
  quiet := h.quiet
  switching hcon := by obtain rfl | ⟨l, rfl⟩ := hto <;> exact nomatch hcon
  sched := h.sched

theorem popOff (hneed : f.frame.held.card < f.frame.depth) (hpc : f.frame.pc.switching = false) :
    CpuOk { k with noff := k.noff - 1, intr := decide (k.noff = 1) && k.intena }
      { f with
        frame := { f.frame with pc := .run, depth := f.frame.depth - 1 }
        fresh := f.fresh && f.frame.depth != 1 } g where
  frame := by
    have hdepth := h.frame.depth
    refine ⟨congrArg (· - 1) hdepth, fun hpos => ?_, ?_, nofun, nofun⟩
    · dsimp only at hpos ⊢
      rw [decide_eq_false (by omega), Bool.false_and]
    · simp only [Frame.need]
      omega
  kept hp hf := by
    refine ⟨fun hpos _ => ?_, nofun, nofun⟩
    have hne : (f.frame.depth != 1) = true := by
      dsimp only at hpos
      simp only [bne_iff_ne]
      omega
    rw [hne, Bool.and_true] at hf
    refine (h.kept hp hf).intena (by omega) fun i hi => ?_
    rw [hi] at hpc
    exact nomatch hpc
  quiet := h.quiet
  switching hcon := nomatch hcon
  sched := h.sched

theorem setIntr (hpc : f.frame.pc = .run) (h0 : f.frame.depth = 0) (b : Bool) :
    CpuOk { k with intr := b } f g where
  frame := by
    refine ⟨h.frame.depth, fun hpos => ?_, h.frame.need, by rw [hpc]; nofun, by rw [hpc]; nofun⟩
    have := h.frame.depth
    dsimp only at hpos
    omega
  kept hp hf := ⟨(h.kept hp hf).intena, (h.kept hp hf).swtch, (h.kept hp hf).back⟩
  quiet := h.quiet
  switching := h.switching
  sched := h.sched

theorem quiet_frame (hpc : f.frame.pc.interruptible) (hi : k.intr) : Quiet f.frame := by
  have h0 : f.frame.depth = 0 := by
    by_contra hne
    have := h.frame.off (by rw [h.frame.depth]; omega)
    rw [hi] at this
    exact nomatch this
  have hheld : f.frame.held.card = 0 := by
    have := h.frame.need
    rw [Frame.need] at this
    omega
  refine ⟨h0, Finset.card_eq_zero.mp hheld, ?_⟩
  cases hx : f.frame.pc with
  | run => exact Or.inl rfl
  | push old why =>
    obtain ⟨hold, hwas⟩ := h.frame.push old why hx
    rw [hi] at hold
    subst hold
    exact Or.inr ⟨why, rfl, hwas h0⟩
  | _ =>
    rw [hx] at hpc
    exact nomatch hpc

theorem trap (hpc : f.frame.pc.interruptible) (hi : k.intr) :
    CpuOk { k with intr := false }
      { f with frame := ⟨.run, ∅, 0, false⟩, interrupted := f.frame :: f.interrupted } g where
  frame := by
    refine ⟨h.frame.depth.trans (h.quiet_frame hpc hi).1, fun _ => rfl, ?_, nofun, nofun⟩
    simp [Frame.need]
  kept _ _ := ⟨fun hpos => absurd hpos (Nat.lt_irrefl 0), nofun, nofun⟩
  quiet x hx := by
    rcases List.mem_cons.mp hx with rfl | hx
    · exact h.quiet_frame hpc hi
    · exact h.quiet x hx
  switching hcon := nomatch hcon
  sched := h.sched

theorem trapRet (h0 : f.frame.depth = 0) {x : Frame (Lock P K)} {xs : List (Frame (Lock P K))}
    (hxs : f.interrupted = x :: xs) :
    CpuOk { k with intr := true } { f with frame := x, interrupted := xs } g := by
  obtain ⟨hdepth, hheld, hpc⟩ := h.quiet x (hxs ▸ List.mem_cons_self)
  have hswitching : x.pc.switching = false := by
    obtain hrun | ⟨why, hpush, -⟩ := hpc
    · rw [hrun]
      rfl
    · rw [hpush]
      rfl
  refine ⟨⟨?_, fun hpos => ?_, ?_, fun old why hpush => ?_, fun l hunlock => ?_⟩, fun _ _ => .of_depth_zero hdepth hswitching,
    fun y hy => h.quiet y (hxs ▸ List.mem_cons_of_mem x hy),
    fun hcon => absurd (hswitching.symm.trans hcon) Bool.false_ne_true, h.sched⟩
  · rw [hdepth, ← h0]
    exact h.frame.depth
  · have := h.frame.depth
    dsimp only at hpos
    omega
  · rw [Frame.need, hheld, hdepth]
    obtain hrun | ⟨why, hpush, -⟩ := hpc
    · simp [hrun]
    · simp [hpush]
  · obtain hrun | ⟨why', hpush', hwas⟩ := hpc
    · exact nomatch hrun.symm.trans hpush
    · obtain ⟨rfl, -⟩ := Pc.push.inj (hpush'.symm.trans hpush)
      exact ⟨rfl, fun _ => hwas⟩
  · obtain hrun | ⟨why, hpush, -⟩ := hpc
    · exact nomatch hrun.symm.trans hunlock
    · exact nomatch hpush.symm.trans hunlock

theorem callSched (hpc : f.frame.pc = .run) (hfresh : f.fresh = false) (hdepth : f.frame.depth = 1) {p : P}
    (hp : k.proc = some p) (hheld : f.frame.held = {.proc p}) :
    CpuOk k { f with frame := { f.frame with pc := .sched } } g where
  frame := by
    refine ⟨h.frame.depth, h.frame.off, ?_, nofun, nofun⟩
    have := h.frame.need
    simpa [Frame.need, hpc] using this
  kept hp hf := ⟨fun hpos _ => (h.kept hp hf).intena hpos (by rw [hpc]; nofun), nofun, nofun⟩
  quiet := h.quiet
  switching _ := ⟨hfresh, hdepth, p, hp, hheld⟩
  sched := h.sched

theorem readIntena (hpc : f.frame.pc = .sched) :
    CpuOk k { f with frame := { f.frame with pc := .swtch k.intena } } g where
  frame := by
    refine ⟨h.frame.depth, h.frame.off, ?_, nofun, nofun⟩
    have := h.frame.need
    simpa [Frame.need, hpc] using this
  kept hp hf := by
    obtain ⟨-, hdepth, -⟩ := h.switching (by rw [hpc]; rfl)
    have hkept := (h.kept hp hf).intena (by omega) (by rw [hpc]; nofun)
    refine ⟨fun _ _ => hkept, fun i hi => ?_, nofun⟩
    rw [← Pc.swtch.inj hi]
    exact hkept
  quiet := h.quiet
  switching _ := h.switching (by rw [hpc]; rfl)
  sched := h.sched

theorem restoreIntena {i : Bool} (hpc : f.frame.pc = .back i) :
    CpuOk { k with intena := i } { f with frame := { f.frame with pc := .run } } g where
  frame := by
    refine ⟨h.frame.depth, h.frame.off, ?_, nofun, nofun⟩
    have := h.frame.need
    simpa [Frame.need, hpc] using this
  kept hp hf := ⟨fun _ _ => (h.kept hp hf).back i hpc, nofun, nofun⟩
  quiet := h.quiet
  switching hcon := nomatch hcon
  sched := h.sched

theorem leave {i : Bool} (hpc : f.frame.pc = .swtch i) {p : P} (hp : k.proc = some p) :
    CpuOk { k with proc := none } g g ∧ Saved p { f with frame := { f.frame with pc := .back i } } := by
  obtain ⟨hfresh, hdepth, q, hq, hheld⟩ := h.switching (by rw [hpc]; rfl)
  obtain rfl := Option.some_inj.mp (hp.symm.trans hq)
  obtain ⟨hrun, hheld', hdepth', hquiet⟩ := h.sched p hp
  have hwas := (h.kept (by rw [hp]; rfl) hfresh).swtch i hpc
  refine ⟨⟨⟨?_, h.frame.off, ?_, by rw [hrun]; nofun, by rw [hrun]; nofun⟩, nofun, by rw [hquiet]; nofun, by rw [hrun]; nofun, nofun⟩,
    ⟨hheld, hdepth, h.quiet, Or.inr ⟨hfresh, congrArg Pc.back hwas⟩⟩⟩
  · exact h.frame.depth.trans (hdepth.trans hdepth'.symm)
  · rw [Frame.need, hrun, hheld', hdepth', Finset.card_singleton]
    exact Nat.le_refl 1

theorem enter (hpc : f.frame.pc = .run) {p : P} (hheld : f.frame.held = {.proc p}) (hdepth : f.frame.depth = 1)
    (hquiet : f.interrupted = []) {x : Flow (Lock P K)} (hx : Saved p x) :
    CpuOk { k with proc := some p } x f where
  frame := by
    refine ⟨h.frame.depth.trans (hdepth.trans hx.depth.symm), h.frame.off, ?_, ?_, ?_⟩
    · rw [Frame.need, hx.held, hx.depth, Finset.card_singleton]
      obtain ⟨-, hrun⟩ | ⟨-, hback⟩ := hx.pc
      · rw [hrun]
        exact Nat.le_refl 1
      · rw [hback]
        exact Nat.le_refl 1
    · obtain ⟨-, hrun⟩ | ⟨-, hback⟩ := hx.pc
      · rw [hrun]
        nofun
      · rw [hback]
        nofun
    · obtain ⟨-, hrun⟩ | ⟨-, hback⟩ := hx.pc
      · rw [hrun]
        nofun
      · rw [hback]
        nofun
  kept _ hf := by
    obtain ⟨hfresh, -⟩ | ⟨-, hback⟩ := hx.pc
    · exact nomatch hfresh.symm.trans hf
    · refine ⟨fun _ hne => absurd hback (hne _), fun i hi => (nomatch hback.symm.trans hi), fun i hi => ?_⟩
      exact (Pc.back.inj (hback.symm.trans hi)).symm
  quiet := hx.quiet
  switching hcon := by
    obtain ⟨-, hrun⟩ | ⟨hfresh, -⟩ := hx.pc
    · rw [hrun] at hcon
      exact nomatch hcon
    · exact ⟨hfresh, hx.depth, p, rfl, hx.held⟩
  sched q hq := by
    obtain rfl := Option.some_inj.mp hq
    exact ⟨hpc, hheld, hdepth, hquiet⟩

theorem setPc (hfrom : f.frame.pc.switching = false) {pc : Pc (Lock P K)} {held : Finset (Lock P K)}
    (hto : pc.switching = false) (hpush : ∀ old why, pc ≠ .push old why) (hunlock : ∀ l, pc = .unlock l → l ∈ held)
    (hneed : (⟨pc, held, f.frame.depth, f.frame.was⟩ : Frame (Lock P K)).need ≤ f.frame.need) :
    CpuOk k { f with frame := { f.frame with pc := pc, held := held } } g where
  frame := ⟨h.frame.depth, h.frame.off, hneed.trans h.frame.need, fun old why hcon => absurd hcon (hpush old why),
    hunlock⟩
  kept hp hf := by
    refine ⟨fun hpos _ => (h.kept hp hf).intena hpos fun i hi => ?_, fun i hi => ?_, fun i hi => ?_⟩
    · rw [hi] at hfrom
      exact nomatch hfrom
    · dsimp only at hi
      rw [hi] at hto
      exact nomatch hto
    · dsimp only at hi
      rw [hi] at hto
      exact nomatch hto
  quiet := h.quiet
  switching hcon := absurd (hto.symm.trans hcon) Bool.false_ne_true
  sched := h.sched

end CpuOk

end Cpu

/-! ## The locks -/

/-- What a thread has to do with a lock: nothing, it has got it in `acquire`, it holds it, or it has cleared
`lk->cpu` in `release`. -/
inductive Role where
  | out
  | entering
  | holding
  | leaving

/-- The lock, when the thread on `c` is the one that has to do with it. -/
def Role.lock (c : C) : Role → Spinlock C
  | .out => ⟨false, none⟩
  | .entering => ⟨true, none⟩
  | .holding => ⟨true, some c⟩
  | .leaving => ⟨true, none⟩

/-- At most one thread has to do with the lock. -/
structure LockOk (x : Spinlock C) (role : C → Role) : Prop where
  owner : ∀ c, role c ≠ .out → x = (role c).lock c ∧ ∀ d, d ≠ c → role d = .out
  free : (∀ c, role c = .out) → x = ⟨false, none⟩

section Lock

variable {x : Spinlock C} {role : C → Role} {c : C}

theorem LockOk.others (h : LockOk x role) (hc : role c ≠ .out ∨ x.locked = false) {d : C} (hd : d ≠ c) :
    role d = .out := by
  rcases hc with hc | hfree
  · exact (h.owner c hc).2 d hd
  · by_contra hout
    rw [(h.owner d hout).1] at hfree
    cases hrole : role d with
    | out => exact hout hrole
    | entering | holding | leaving =>
      rw [hrole] at hfree
      exact nomatch hfree

/-- **The owner of a lock, or a thread that finds it free, changes its role.** -/
theorem LockOk.update [DecidableEq C] (h : LockOk x role) (hc : role c ≠ .out ∨ x.locked = false) (r : Role) :
    LockOk (r.lock c) (Function.update role c r) := by
  have hothers : ∀ d, d ≠ c → Function.update role c r d = .out := by
    intro d hd
    rw [Function.update_of_ne hd]
    exact h.others hc hd
  refine ⟨fun d hout => ?_, fun hall => ?_⟩
  · obtain rfl : d = c := by
      by_contra hd
      exact hout (hothers d hd)
    exact ⟨by rw [Function.update_self], hothers⟩
  · have := hall c
    rw [Function.update_self] at this
    rw [this]
    rfl

theorem LockOk.cpu_eq_iff (h : LockOk x role) : x.locked = true ∧ x.cpu = some c ↔ role c = .holding := by
  refine ⟨fun ⟨hlocked, hcpu⟩ => ?_, fun hrole => ?_⟩
  · by_contra hne
    have hall : ∀ d, role d = .out := by
      intro d
      by_contra hout
      have hx := (h.owner d hout).1
      cases hrole : role d with
      | out => exact hout hrole
      | entering | leaving =>
        rw [hx, hrole] at hcpu
        exact nomatch hcpu
      | holding =>
        rw [hx, hrole] at hcpu
        exact hne (Option.some_inj.mp hcpu ▸ hrole)
    rw [h.free hall] at hlocked
    exact nomatch hlocked
  · have hx := (h.owner c (by rw [hrole]; nofun)).1
    rw [hrole] at hx
    rw [hx]
    exact ⟨rfl, rfl⟩

end Lock

/-- The role of a thread, from its place and the locks it has acquired. -/
def Frame.role [DecidableEq L] (f : Frame L) (l : L) : Role :=
  if f.pc = .got l then .entering
  else if f.pc = .unlock l then .leaving
  else if l ∈ f.held then .holding
  else .out

/-- At a place where a lock changes hands. -/
def Pc.locking : Pc L → Bool
  | .got _ | .unlock _ => true
  | _ => false

theorem Frame.role_of_not_locking [DecidableEq L] {f : Frame L} (h : f.pc.locking = false) (l : L) :
    f.role l = if l ∈ f.held then .holding else .out := by
  have hgot : f.pc ≠ .got l := by
    intro hcon
    rw [hcon] at h
    exact nomatch h
  have hunlock : f.pc ≠ .unlock l := by
    intro hcon
    rw [hcon] at h
    exact nomatch h
  rw [Frame.role, if_neg hgot, if_neg hunlock]

/-! ## The invariant -/

section Steps

variable [DecidableEq C] [DecidableEq P] [DecidableEq K] {s t : State C P K} {c : C}

/-- The invariant of the machine.  The last part is about a process that has called `sched`: nobody else can
set its state. -/
structure Inv (s : State C P K) : Prop where
  cpu : ∀ c, CpuOk (s.cpu c) (s.flow c) (s.sched c)
  context : ∀ p, Saved p (s.context p)
  locks : ∀ l, LockOk (s.lock l) fun c => (s.frame c).role l
  state : ∀ c p, (s.frame c).pc = .sched → (s.cpu c).proc = some p → s.state p ≠ .running

omit [DecidableEq C] in
theorem inv_boot : Inv (boot : State C P K) where
  cpu _ := ⟨⟨rfl, nofun, Nat.le_refl 0, nofun, nofun⟩, nofun, nofun, nofun, nofun⟩
  context p := saved_forkret p
  locks _ := ⟨fun _ hout => absurd rfl hout, fun _ => rfl⟩
  state _ _ := nofun

omit [DecidableEq P] [DecidableEq K] in
theorem State.frame_setFlow (s : State C P K) (c : C) (f : Flow (Lock P K)) (d : C) :
    (s.setFlow c f).frame d = if d = c then f.frame else s.frame d := by
  rw [State.frame, State.setFlow]
  dsimp only
  rw [Function.update_apply]
  split <;> rfl

theorem Inv.holding_iff (h : Inv s) (hpc : (s.frame c).pc.locking = false) (l : Lock P K) :
    s.holding c l = true ↔ l ∈ (s.frame c).held := by
  rw [State.holding, Bool.and_eq_true, decide_eq_true_eq, (h.locks l).cpu_eq_iff, Frame.role_of_not_locking hpc]
  split <;> simp_all

theorem Inv.eq_of_held (h : Inv s) {d : C} (hc : (s.frame c).pc.locking = false)
    (hd : (s.frame d).pc.locking = false) {l : Lock P K} (hcl : l ∈ (s.frame c).held)
    (hdl : l ∈ (s.frame d).held) : d = c := by
  have hrole : ∀ e : C, (s.frame e).pc.locking = false → l ∈ (s.frame e).held → (s.frame e).role l = .holding := by
    intro e he hmem
    rw [Frame.role_of_not_locking he, if_pos hmem]
  by_contra hne
  have hout := ((h.locks l).owner c (by rw [hrole c hc hcl]; nofun)).2 d hne
  exact nomatch (hrole d hd hdl).symm.trans hout

theorem Inv.switch (h : Inv s) {k : Cpu P} {f g : Flow (Lock P K)} (hok : CpuOk k f g)
    (hcontext : ∀ p, Saved p (t.context p)) (hcpu : t.cpu = Function.update s.cpu c k)
    (hflow : t.flow = Function.update s.flow c f) (hsched : t.sched = Function.update s.sched c g)
    (hlock : t.lock = s.lock) (hheld : f.frame.held = (s.frame c).held)
    (hfrom : (s.frame c).pc.locking = false) (hto : f.frame.pc.locking = false)
    (hself : ∀ p, f.frame.pc = .sched → k.proc = some p → t.state p ≠ .running)
    (hothers : ∀ d p, d ≠ c → (s.frame d).pc = .sched → (s.cpu d).proc = some p → t.state p ≠ .running) :
    Inv t := by
  have hframe : ∀ d, t.frame d = if d = c then f.frame else s.frame d := by
    intro d
    rw [State.frame, hflow, Function.update_apply]
    split <;> rfl
  refine ⟨fun d => ?_, hcontext, fun l => ?_, fun d p hd hp => ?_⟩
  · rw [hcpu, hflow, hsched]
    by_cases hd : d = c
    · subst hd
      simpa using hok
    · simpa [Function.update_of_ne hd] using h.cpu d
  · have hrole : (fun d => (t.frame d).role l) = fun d => (s.frame d).role l := by
      funext d
      rw [hframe]
      split
      · rename_i hd
        rw [hd, Frame.role_of_not_locking hto, Frame.role_of_not_locking hfrom, hheld]
      · rfl
    rw [hrole, hlock]
    exact h.locks l
  · rw [hframe] at hd
    rw [hcpu, Function.update_apply] at hp
    split at hd
    · rename_i heq
      rw [if_pos heq] at hp
      exact hself p hd hp
    · rename_i hne
      rw [if_neg hne] at hp
      exact hothers d p hne hd hp

theorem Inv.setLocal (h : Inv s) {k : Cpu P} {f : Flow (Lock P K)} (hok : CpuOk k f (s.sched c))
    (hheld : f.frame.held = (s.frame c).held) (hfrom : (s.frame c).pc.locking = false)
    (hto : f.frame.pc.locking = false)
    (hself : ∀ p, f.frame.pc = .sched → k.proc = some p → s.state p ≠ .running) :
    Inv ((s.setCpu c k).setFlow c f) :=
  h.switch hok h.context rfl rfl (Function.update_eq_self _ _).symm rfl hheld hfrom hto hself
    fun d p _ => h.state d p

theorem Inv.setLocking (h : Inv s) {l : Lock P K} {x : Spinlock C} {f : Frame (Lock P K)}
    (hok : CpuOk (s.cpu c) { s.flow c with frame := f } (s.sched c)) (hpc : f.pc ≠ .sched)
    (hfrom : (s.frame c).role l ≠ .out ∨ (s.lock l).locked = false) (hx : x = (f.role l).lock c)
    (hothers : ∀ m, m ≠ l → f.role m = (s.frame c).role m) : Inv ((s.setLock l x).setFrame c f) := by
  have hframe : ∀ d, ((s.setLock l x).setFrame c f).frame d = if d = c then f else s.frame d :=
    (s.setLock l x).frame_setFlow c _
  refine ⟨fun d => ?_, h.context, fun m => ?_, fun d p hsched hp => ?_⟩
  · by_cases hd : d = c
    · subst hd
      simpa [State.setFrame, State.setFlow, State.setLock] using hok
    · simpa [State.setFrame, State.setFlow, State.setLock, Function.update_of_ne hd] using h.cpu d
  · have hrole : (fun d => (((s.setLock l x).setFrame c f).frame d).role m) =
        Function.update (fun d => (s.frame d).role m) c (f.role m) := by
      funext d
      rw [hframe, Function.update_apply]
      split <;> rfl
    have hlock : ((s.setLock l x).setFrame c f).lock m = if m = l then x else s.lock m := Function.update_apply ..
    rw [hrole, hlock]
    split
    · rename_i hm
      subst hm
      rw [hx]
      exact (h.locks m).update hfrom _
    · rename_i hm
      rw [hothers m hm, Function.update_eq_self_iff.mpr rfl]
      exact h.locks m
  · rw [hframe] at hsched
    split at hsched
    · exact absurd hsched hpc
    · exact h.state d p hsched hp

end Steps

section Run

variable [DecidableEq C] [DecidableEq P] [DecidableEq K] {s t : State C P K} {c : C}

omit [DecidableEq P] [DecidableEq K] in
theorem State.setFrame_eq (s : State C P K) (c : C) (f : Frame (Lock P K)) :
    s.setFrame c f = (s.setCpu c (s.cpu c)).setFlow c { s.flow c with frame := f } := by
  rw [State.setCpu, Function.update_eq_self]
  rfl

omit [DecidableEq P] [DecidableEq K] in
theorem State.setFlow_self (s : State C P K) (c : C) (k : Cpu P) :
    (s.setCpu c k).setFlow c (s.flow c) = s.setCpu c k := by
  simp [State.setFlow, State.setCpu]

/-- The panics that remain: a thread acquires a lock that it holds, or releases one that it does not hold. -/
def Misuse (s : State C P K) (c : C) (a : Act P K) : Panic → Prop
  | .acquire => ∃ old l, (s.frame c).pc = .push old (.acquire l) ∧ l ∈ (s.frame c).held
  | .release => ∃ l, a = .release l ∧ l ∉ (s.frame c).held
  | _ => False

section Steps

variable (h : Inv s)
include h

theorem Inv.callPushOff (a : Act P K) (why : Purpose (Lock P K)) :
    (s.callPushOff c why).Meets (Misuse s c a) Inv := by
  rw [State.callPushOff]
  split
  · rename_i hpc
    rw [State.setFrame_eq]
    exact h.setLocal ((h.cpu c).callPushOff hpc why) rfl (by rw [hpc]; rfl) rfl nofun
  · trivial

theorem Inv.finishPushOff {old : Bool} {why : Purpose (Lock P K)} (hpc : (s.frame c).pc = .push old why) :
    (s.finishPushOff c old why).Meets (Misuse s c .go) Inv := by
  have hlocking : (s.frame c).pc.locking = false := by
    rw [hpc]
    rfl
  cases why with
  | plain => exact h.setLocal ((h.cpu c).pushOff hpc (Or.inl rfl)) rfl hlocking rfl nofun
  | acquire l =>
    rw [State.finishPushOff]
    split
    · rename_i hholding
      exact ⟨old, l, hpc, (h.holding_iff hlocking l).mp hholding⟩
    · exact h.setLocal ((h.cpu c).pushOff hpc (Or.inr ⟨l, rfl⟩)) rfl hlocking rfl nofun

omit [DecidableEq C] in
theorem Inv.popOff_eq (hneed : (s.frame c).held.card < (s.frame c).depth) :
    (s.cpu c).popOff = .ok { s.cpu c with
      noff := (s.cpu c).noff - 1, intr := decide ((s.cpu c).noff = 1) && (s.cpu c).intena } := by
  have hpos : 0 < (s.cpu c).noff := by
    rw [(h.cpu c).frame.depth]
    exact Nat.zero_lt_of_lt hneed
  exact Cpu.popOff_eq ((h.cpu c).frame.off hpos) hpos

theorem Inv.callPopOff (a : Act P K) (hneed : (s.frame c).held.card < (s.frame c).depth)
    (hpc : (s.frame c).pc = .run ∨ (s.frame c).pc = .pop) : (s.callPopOff c).Meets (Misuse s c a) Inv := by
  rw [State.callPopOff, h.popOff_eq hneed]
  refine h.setLocal ((h.cpu c).popOff hneed ?_) rfl ?_ rfl nofun
  · obtain hpc | hpc := hpc
    · exact congrArg Pc.switching hpc
    · exact congrArg Pc.switching hpc
  · obtain hpc | hpc := hpc
    · exact congrArg Pc.locking hpc
    · exact congrArg Pc.locking hpc

theorem Inv.callRelease (l : Lock P K) : (s.callRelease c l).Meets (Misuse s c (.release l)) Inv := by
  rw [State.callRelease]
  split
  · rename_i hpc
    have hlocking : (s.frame c).pc.locking = false := by
      rw [hpc]
      rfl
    split
    · rename_i hholding
      have hmem := (h.holding_iff hlocking l).mp hholding
      have hrole : (s.frame c).role l = .holding := by
        rw [Frame.role_of_not_locking hlocking, if_pos hmem]
      have hlock := ((h.locks l).owner c (by rw [hrole]; nofun)).1
      rw [hrole] at hlock
      refine h.setLocking ((h.cpu c).setPc (congrArg Pc.switching hpc) rfl nofun ?_ ?_) nofun
        (Or.inl (by rw [hrole]; nofun)) ?_ fun m hm => ?_
      · intro m hm
        rw [← Pc.unlock.inj hm]
        exact hmem
      · exact Nat.add_le_add_left (Nat.zero_le _) _
      · rw [hlock]
        simp [Frame.role, Role.lock]
      · rw [Frame.role_of_not_locking hlocking, Frame.role, if_neg nofun,
          if_neg fun hcon => hm (Pc.unlock.inj hcon).symm]
    · rename_i hholding
      exact ⟨l, rfl, fun hmem => hholding ((h.holding_iff hlocking l).mpr hmem)⟩
  · trivial

theorem Inv.testAndSet {l : Lock P K} (hpc : (s.frame c).pc = .spin l) (hfree : (s.lock l).locked = false) :
    Inv ((s.setLock l { s.lock l with locked := true }).setFrame c { s.frame c with pc := .got l }) := by
  have hall : ∀ d, (s.frame d).role l = .out := by
    intro d
    by_contra hout
    rw [((h.locks l).owner d hout).1] at hfree
    cases hrole : (s.frame d).role l with
    | out => exact hout hrole
    | entering | holding | leaving =>
      rw [hrole] at hfree
      exact nomatch hfree
  refine h.setLocking ((h.cpu c).setPc (congrArg Pc.switching hpc) rfl nofun nofun ?_) nofun (Or.inr hfree) ?_
    fun m hm => ?_
  · have hneed : (s.frame c).need = (s.frame c).held.card + 1 := by
      rw [Frame.need, hpc]
    exact hneed.ge
  · rw [(h.locks l).free hall, Frame.role, if_pos rfl]
    rfl
  · rw [Frame.role_of_not_locking (congrArg Pc.locking hpc), Frame.role,
      if_neg fun hcon => hm (Pc.got.inj hcon).symm, if_neg nofun]

theorem Inv.setLockCpu {l : Lock P K} (hpc : (s.frame c).pc = .got l) :
    Inv ((s.setLock l { s.lock l with cpu := some c }).setFrame c
      { s.frame c with pc := .run, held := insert l (s.frame c).held }) := by
  have hrole : (s.frame c).role l = .entering := if_pos hpc
  have hlock := ((h.locks l).owner c (by rw [hrole]; nofun)).1
  rw [hrole] at hlock
  refine h.setLocking ((h.cpu c).setPc (congrArg Pc.switching hpc) rfl nofun nofun ?_) nofun
    (Or.inl (by rw [hrole]; nofun)) ?_ fun m hm => ?_
  · have hneed : (s.frame c).need = (s.frame c).held.card + 1 := by
      rw [Frame.need, hpc]
    exact (Finset.card_insert_le l _).trans hneed.ge
  · rw [hlock, Frame.role_of_not_locking rfl, if_pos (Finset.mem_insert_self l _)]
    rfl
  · have hbefore : (s.frame c).role m = if m ∈ (s.frame c).held then .holding else .out := by
      rw [Frame.role, if_neg fun hcon => hm (Pc.got.inj (hcon.symm.trans hpc)), if_neg (by rw [hpc]; nofun)]
    rw [hbefore, Frame.role_of_not_locking rfl]
    simp [hm]

theorem Inv.unlock {l : Lock P K} (hpc : (s.frame c).pc = .unlock l) :
    Inv ((s.setLock l { s.lock l with locked := false }).setFrame c
      { s.frame c with pc := .pop, held := (s.frame c).held.erase l }) := by
  have hrole : (s.frame c).role l = .leaving := by
    rw [Frame.role, if_neg (by rw [hpc]; nofun), if_pos hpc]
  have hlock := ((h.locks l).owner c (by rw [hrole]; nofun)).1
  rw [hrole] at hlock
  have hmem := (h.cpu c).frame.unlock l hpc
  refine h.setLocking ((h.cpu c).setPc (congrArg Pc.switching hpc) rfl nofun nofun ?_) nofun
    (Or.inl (by rw [hrole]; nofun)) ?_ fun m hm => ?_
  · have hneed : (s.frame c).need = (s.frame c).held.card := by
      rw [Frame.need, hpc]
      rfl
    exact (Finset.card_erase_add_one hmem).le.trans hneed.ge
  · rw [hlock, Frame.role_of_not_locking rfl, if_neg (Finset.notMem_erase l _)]
    rfl
  · have hbefore : (s.frame c).role m = if m ∈ (s.frame c).held then .holding else .out := by
      rw [Frame.role, if_neg (by rw [hpc]; nofun), if_neg fun hcon => hm (Pc.unlock.inj (hcon.symm.trans hpc))]
    rw [hbefore, Frame.role_of_not_locking rfl]
    simp [hm]

theorem Inv.schedCheck_eq (hpc : (s.frame c).pc = .sched) :
    s.schedCheck c = .next (s.setFrame c { s.frame c with pc := .swtch (s.cpu c).intena }) := by
  obtain ⟨-, hdepth, p, hp, hheld⟩ := (h.cpu c).switching (congrArg Pc.switching hpc)
  have hnoff : (s.cpu c).noff = 1 := (h.cpu c).frame.depth.trans hdepth
  have hoff := (h.cpu c).frame.off (by omega)
  have hholding : s.holding c (.proc p) = true := by
    rw [h.holding_iff (congrArg Pc.locking hpc)]
    exact hheld ▸ Finset.mem_singleton_self _
  rw [State.schedCheck, Cpu.myproc_eq hoff (by omega), hp]
  dsimp only
  rw [hholding, if_neg (by decide), if_neg (by omega), if_neg (h.state c p hpc hp), hoff, if_neg (by decide),
    State.setCpu, Function.update_eq_self]

theorem Inv.leave {i : Bool} (hpc : (s.frame c).pc = .swtch i) {p : P} (hp : (s.cpu c).proc = some p) :
    Inv (s.leave c p i) := by
  obtain ⟨hok, hsaved⟩ := (h.cpu c).leave hpc hp
  obtain ⟨-, -, q, hq, hheld⟩ := (h.cpu c).switching (congrArg Pc.switching hpc)
  obtain rfl := Option.some_inj.mp (hp.symm.trans hq)
  obtain ⟨hrun, hheld', -⟩ := (h.cpu c).sched p hp
  refine h.switch hok (fun q => ?_) rfl rfl (Function.update_eq_self _ _).symm rfl (hheld'.trans hheld.symm)
    (congrArg Pc.locking hpc) (congrArg Pc.locking hrun) (by rw [hrun]; nofun) fun d q _ => h.state d q
  show Saved q (Function.update s.context p _ q)
  by_cases hqp : q = p
  · subst hqp
    rw [Function.update_self]
    exact hsaved
  · rw [Function.update_of_ne hqp]
    exact h.context q

/-- The state of a process that has called `sched` is not set by anybody else. -/
theorem Inv.ne_of_sched {p q : P} {d : C} (hrun : (s.frame c).pc = .run) (hmem : .proc p ∈ (s.frame c).held)
    (hd : (s.frame d).pc = .sched) (hq : (s.cpu d).proc = some q) : q ≠ p := by
  rintro rfl
  obtain ⟨-, -, p, hp, hheld⟩ := (h.cpu d).switching (congrArg Pc.switching hd)
  obtain rfl := Option.some_inj.mp (hp.symm.trans hq)
  have hdc := h.eq_of_held (congrArg Pc.locking hrun) (congrArg Pc.locking hd) hmem
    (hheld ▸ Finset.mem_singleton_self _)
  rw [hdc, hrun] at hd
  exact nomatch hd

theorem Inv.enter {p : P} (hallowed : s.Allowed c (.dispatch p)) : Inv (s.enter c p) := by
  obtain ⟨hrun, hnone, hquiet, -, hheld, hdepth⟩ := hallowed
  have hsaved := h.context p
  have hmem : .proc p ∈ (s.frame c).held := hheld ▸ Finset.mem_singleton_self _
  have hto : (s.context p).frame.pc.locking = false ∧ (s.context p).frame.pc ≠ .sched := by
    obtain ⟨-, hpc⟩ | ⟨-, hpc⟩ := hsaved.pc
    · rw [hpc]
      exact ⟨rfl, nofun⟩
    · rw [hpc]
      exact ⟨rfl, nofun⟩
  refine h.switch ((h.cpu c).enter hrun hheld hdepth (List.length_eq_zero_iff.mp hquiet) hsaved) h.context rfl rfl
    rfl rfl (hsaved.held.trans hheld.symm) (congrArg Pc.locking hrun) hto.1 (fun q hq => absurd hq hto.2)
    fun d q _ hd hq => ?_
  show Function.update s.state p .running q ≠ .running
  rw [Function.update_of_ne (h.ne_of_sched hrun hmem hd hq)]
  exact h.state d q hd hq

theorem Inv.go : (s.go c).Meets (Misuse s c .go) Inv := by
  rw [State.go]
  split
  · trivial
  · rename_i hpc
    exact h.finishPushOff hpc
  · rename_i hpc
    split
    · trivial
    · rename_i hfree
      exact h.testAndSet hpc (by simpa using hfree)
  · rename_i hpc
    exact h.setLockCpu hpc
  · rename_i hpc
    exact h.unlock hpc
  · rename_i hpc
    have hneed := (h.cpu c).frame.need
    rw [Frame.need, show (s.flow c).frame.pc = .pop from hpc] at hneed
    exact h.callPopOff .go (Nat.lt_of_succ_le hneed) (Or.inr hpc)
  · rename_i hpc
    rw [h.schedCheck_eq hpc, State.setFrame_eq]
    exact h.setLocal ((h.cpu c).readIntena hpc) rfl (congrArg Pc.locking hpc) rfl nofun
  · rename_i hpc
    split
    · rename_i hp
      exact h.leave hpc hp
    · trivial
  · rename_i hpc
    exact h.setLocal ((h.cpu c).restoreIntena hpc) rfl (congrArg Pc.locking hpc) rfl nofun

theorem Inv.setIntr (hpc : (s.frame c).pc = .run) (h0 : (s.frame c).depth = 0) (b : Bool) :
    Inv (s.setCpu c { s.cpu c with intr := b }) := by
  rw [← State.setFlow_self]
  refine h.setLocal ((h.cpu c).setIntr hpc h0 b) rfl (congrArg Pc.locking hpc) (congrArg Pc.locking hpc) ?_
  intro p hsched
  exact nomatch hpc.symm.trans hsched

/-- **A step keeps the invariant**, or it is a panic for a lock that is acquired twice or not held. -/
theorem Inv.step {a : Act P K} (hallowed : s.Allowed c a) : (s.step c a).Meets (Misuse s c a) Inv := by
  cases a with
  | pushOff => exact h.callPushOff .pushOff .plain
  | acquire l => exact h.callPushOff (.acquire l) (.acquire l)
  | go => exact h.go
  | release l => exact h.callRelease l
  | popOff => exact h.callPopOff .popOff hallowed.2 (Or.inl hallowed.1)
  | intrOn => exact h.setIntr hallowed.1 hallowed.2 true
  | intrOff => exact h.setIntr hallowed.1 hallowed.2 false
  | trap =>
    obtain ⟨hpc, hi⟩ := hallowed
    obtain ⟨-, hheld, hplace⟩ := (h.cpu c).quiet_frame hpc hi
    refine h.setLocal ((h.cpu c).trap hpc hi) hheld.symm ?_ rfl nofun
    obtain hrun | ⟨why, hpush, -⟩ := hplace
    · exact congrArg Pc.locking hrun
    · exact congrArg Pc.locking hpush
  | trapRet =>
    obtain ⟨hpc, h0⟩ := hallowed
    rw [State.step]
    split
    · trivial
    · rename_i x xs hxs
      obtain ⟨-, hheld, hplace⟩ := (h.cpu c).quiet x (hxs ▸ List.mem_cons_self)
      have hnone : (s.frame c).held = ∅ := by
        have hneed := (h.cpu c).frame.need
        rw [Frame.need] at hneed
        have hcard : (s.frame c).held.card ≤ (s.frame c).depth := (Nat.le_add_right _ _).trans hneed
        exact Finset.card_eq_zero.mp (by omega)
      have hto : x.pc.locking = false ∧ x.pc ≠ .sched := by
        obtain hrun | ⟨why, hpush, -⟩ := hplace
        · rw [hrun]
          exact ⟨rfl, nofun⟩
        · rw [hpush]
          exact ⟨rfl, nofun⟩
      exact h.setLocal ((h.cpu c).trapRet h0 hxs) (hheld.trans hnone.symm) (congrArg Pc.locking hpc) hto.1
        fun p hp => absurd hp hto.2
  | setState p x =>
    obtain ⟨hrun, hmem⟩ := hallowed
    refine ⟨h.cpu, h.context, h.locks, fun d q hd hq => ?_⟩
    show Function.update s.state p x q ≠ .running
    rw [Function.update_of_ne (h.ne_of_sched hrun hmem hd hq)]
    exact h.state d q hd hq
  | allocproc p =>
    refine ⟨h.cpu, fun q => ?_, h.locks, h.state⟩
    show Saved q (Function.update s.context p (forkret p) q)
    by_cases hqp : q = p
    · subst hqp
      rw [Function.update_self]
      exact saved_forkret q
    · rw [Function.update_of_ne hqp]
      exact h.context q
  | sched =>
    obtain ⟨hrun, hfresh, hdepth, p, hp, hheld, hstate⟩ := hallowed
    rw [State.step, State.setFrame_eq]
    refine h.setLocal ((h.cpu c).callSched hrun hfresh hdepth hp hheld) rfl (congrArg Pc.locking hrun) rfl ?_
    intro q _ hq
    obtain rfl := Option.some_inj.mp (hq.symm.trans hp)
    exact hstate
  | choose p => exact ⟨h.cpu, h.context, h.locks, h.state⟩
  | dispatch p => exact h.enter hallowed

end Steps

omit [DecidableEq P] [DecidableEq K] in
theorem State.noff_le_update {k : Cpu P} (hle : (s.cpu c).noff ≤ k.noff) :
    (s.cpu c).noff ≤ (Function.update s.cpu c k c).noff := by
  rw [Function.update_self]
  exact hle

/-- Only `pop_off` counts down: in `release`, or for a `push_off` of its own. -/
theorem Inv.noff_le_or_popOff (h : Inv s) {a : Act P K} (hallowed : s.Allowed c a) (hstep : s.step c a = .next t) :
    (s.cpu c).noff ≤ (t.cpu c).noff ∨ ((s.frame c).pc = .run ∨ (s.frame c).pc = .pop) ∧
      (s.frame c).held.card < (s.frame c).depth ∧ s.callPopOff c = .next t := by
  cases a with
  | pushOff | acquire l =>
    rw [State.step, State.callPushOff] at hstep
    split at hstep
    · rw [← Outcome.next.inj hstep]
      exact Or.inl (Nat.le_refl _)
    · exact nomatch hstep
  | go =>
    rw [State.step, State.go] at hstep
    split at hstep
    · exact nomatch hstep
    · rename_i old why hpc
      cases why with
      | plain =>
        rw [← Outcome.next.inj hstep]
        exact Or.inl (State.noff_le_update (Nat.le_succ _))
      | acquire l =>
        rw [State.finishPushOff] at hstep
        split at hstep
        · exact nomatch hstep
        · rw [← Outcome.next.inj hstep]
          exact Or.inl (State.noff_le_update (Nat.le_succ _))
    · split at hstep
      · exact nomatch hstep
      · rw [← Outcome.next.inj hstep]
        exact Or.inl (Nat.le_refl _)
    · rw [← Outcome.next.inj hstep]
      exact Or.inl (Nat.le_refl _)
    · rw [← Outcome.next.inj hstep]
      exact Or.inl (Nat.le_refl _)
    · rename_i hpc
      have hneed := (h.cpu c).frame.need
      rw [Frame.need, show (s.flow c).frame.pc = .pop from hpc] at hneed
      exact Or.inr ⟨Or.inr hpc, Nat.lt_of_succ_le hneed, hstep⟩
    · rename_i hpc
      rw [h.schedCheck_eq hpc] at hstep
      rw [← Outcome.next.inj hstep]
      exact Or.inl (Nat.le_refl _)
    · split at hstep
      · rw [← Outcome.next.inj hstep]
        exact Or.inl (State.noff_le_update (Nat.le_refl _))
      · exact nomatch hstep
    · rw [← Outcome.next.inj hstep]
      exact Or.inl (State.noff_le_update (Nat.le_refl _))
  | release l =>
    rw [State.step, State.callRelease] at hstep
    split at hstep
    · split at hstep
      · rw [← Outcome.next.inj hstep]
        exact Or.inl (Nat.le_refl _)
      · exact nomatch hstep
    · exact nomatch hstep
  | popOff => exact Or.inr ⟨Or.inl hallowed.1, hallowed.2, hstep⟩
  | trapRet =>
    rw [State.step] at hstep
    split at hstep
    · exact nomatch hstep
    · rw [← Outcome.next.inj hstep]
      exact Or.inl (State.noff_le_update (Nat.le_refl _))
  | intrOn | intrOff | trap | dispatch p =>
    rw [← Outcome.next.inj hstep]
    exact Or.inl (State.noff_le_update (Nat.le_refl _))
  | setState p x | allocproc p | sched | choose p =>
    rw [← Outcome.next.inj hstep]
    exact Or.inl (Nat.le_refl _)

/-- When the last `push_off` is undone, interrupts are as they were outside of it. -/
theorem Inv.intr_popOff (h : Inv s) (hpc : (s.frame c).pc = .run ∨ (s.frame c).pc = .pop)
    (hneed : (s.frame c).held.card < (s.frame c).depth) (hstep : s.callPopOff c = .next t) {p : P}
    (hp : (s.cpu c).proc = some p) (hfresh : (s.flow c).fresh = false) (h0 : (t.cpu c).noff = 0) :
    (t.cpu c).intr = (s.frame c).was := by
  rw [State.callPopOff, h.popOff_eq hneed] at hstep
  have hcpu : t.cpu c = { s.cpu c with
      noff := (s.cpu c).noff - 1, intr := decide ((s.cpu c).noff = 1) && (s.cpu c).intena } := by
    rw [← Outcome.next.inj hstep]
    exact Function.update_self ..
  have hnoff := (h.cpu c).frame.depth
  have hdepth : (s.flow c).frame.depth = (s.frame c).depth := rfl
  have hkept := (h.cpu c).kept (by rw [hp]; rfl) hfresh
  rw [hcpu] at h0 ⊢
  dsimp only at h0 ⊢
  rw [decide_eq_true (by omega), Bool.true_and]
  refine hkept.intena (by omega) fun i hi => ?_
  obtain hpc | hpc := hpc
  · exact nomatch hpc.symm.trans hi
  · exact nomatch hpc.symm.trans hi

/-- **Interrupts are restored for each thread.**  In every state that is reached by any number of CPUs and
processes, interrupts are off on a CPU inside of `push_off`s; when the number of these goes to zero in the
thread of a process, one that is through with `forkret`'s release, interrupts are on if and only if they were
on when the thread called the outermost of them, on whichever CPU that was; and neither `pop_off` nor `sched`
panics, the only panics being those of `acquire` for a lock that the thread holds and of `release` for one
that it does not hold. -/
theorem interrupts_restored {h : List (C × Act P K)} (hrun : Run (ofStep next) boot h s) :
    (∀ c, 0 < (s.cpu c).noff → (s.cpu c).intr = false) ∧
    (∀ c a t p, next s (c, a) = some t → (s.cpu c).proc = some p → (s.flow c).fresh = false →
      0 < (s.cpu c).noff → (t.cpu c).noff = 0 → (t.cpu c).intr = (s.frame c).was) ∧
    ∀ c a e, s.Allowed c a → s.step c a = .panic e → Misuse s c a e := by
  have hinv : Inv s := by
    refine hrun.invariant inv_boot fun u a v hu _ hv => ?_
    rw [ofStep, next] at hv
    split at hv
    · rename_i hallowed
      have hmeets := hu.step hallowed
      rw [Outcome.next?_eq_some hv] at hmeets
      exact hmeets
    · exact nomatch hv
  refine ⟨fun c => (hinv.cpu c).frame.off, fun c a t p hstep hp hfresh hpos h0 => ?_, fun c a e hallowed hpanic => ?_⟩
  · rw [next] at hstep
    split at hstep
    · rename_i hallowed
      obtain hle | ⟨hpc, hneed, hpop⟩ := hinv.noff_le_or_popOff hallowed (Outcome.next?_eq_some hstep)
      · exact absurd h0 (Nat.pos_iff_ne_zero.mp (Nat.lt_of_lt_of_le hpos hle))
      · exact hinv.intr_popOff hpc hneed hpop hp hfresh h0
    · exact nomatch hstep
  · have hmeets := hinv.step hallowed
    rw [hpanic] at hmeets
    exact hmeets

end Run

/-- CPU 0 makes a process and switches to it; the process turns interrupts on, acquires its lock and calls
`sched`, and is resumed by CPU 1, where it releases the lock. -/
def migration : List (Fin 2 × Act Unit Empty) :=
  let l : Lock Unit Empty := .proc ()
  let acquire (c : Fin 2) : List (Fin 2 × Act Unit Empty) := [(c, .acquire l), (c, .go), (c, .go), (c, .go)]
  let release (c : Fin 2) : List (Fin 2 × Act Unit Empty) := [(c, .release l), (c, .go), (c, .go)]
  acquire 0 ++ [(0, .allocproc ()), (0, .setState () .runnable), (0, .choose ()), (0, .dispatch ())] ++
    release 0 ++ [(0, .intrOn)] ++
    acquire 0 ++ [(0, .setState () .runnable), (0, .sched), (0, .go), (0, .go)] ++
    release 0 ++ acquire 1 ++ [(1, .choose ()), (1, .dispatch ()), (1, .go)] ++ [(1, .release l), (1, .go)]

/-- Interrupts are on at CPU 1 afterwards, as they were at CPU 0 before. -/
theorem interrupts_restored_migration : ∃ h s t, Run (ofStep next) (boot : State (Fin 2) Unit Empty) h s ∧
    next s (1, .go) = some t ∧ (t.cpu 1).noff = 0 ∧ (t.cpu 1).intr = true := by
  have heval : (exec next (boot : State (Fin 2) Unit Empty) migration).any (fun s =>
      decide ((s.cpu 1).proc = some () ∧ (s.flow 1).fresh = false ∧ 0 < (s.cpu 1).noff ∧ (s.frame 1).was = true) &&
        (next s (1, .go)).any fun t => (t.cpu 1).noff = 0) = true := by
    decide +kernel
  obtain ⟨s, hexec, hs⟩ := (Option.any_eq_true ..).mp heval
  rw [Bool.and_eq_true, decide_eq_true_eq] at hs
  obtain ⟨⟨hp, hfresh, hpos, hwas⟩, hgo⟩ := hs
  obtain ⟨t, hstep, h0⟩ := (Option.any_eq_true ..).mp hgo
  rw [decide_eq_true_eq] at h0
  have hrun : Run (ofStep next) boot migration.reverse s := run_of_execWith hexec
  exact ⟨_, s, t, hrun, hstep, h0, ((interrupts_restored hrun).2.1 1 .go t () hstep hp hfresh hpos h0).trans hwas⟩

end Intr
end Xv6
