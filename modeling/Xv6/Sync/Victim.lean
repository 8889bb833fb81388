import Xv6.Sync.Base

/-!
# Whom `kkill` finds

`kkill` of `kernel/proc.c` compares pids only, and `freeproc` leaves pid 0 in an `UNUSED` slot, so
`kill(0)` finds one: it returns 0 and sets `killed` there.  `allocproc` does not clear the flag, and
the next child that gets the slot is `RUNNABLE` and killed already.

As long as no `kkill(0)` looks at a slot, an `UNUSED` slot has pid 0 and a clear flag (`Unmarked`),
so `kkill` finds processes only, and a child that is killed at its `np->state = RUNNABLE` was named
by a `kkill` after its allocation.  Which slots have been named since they were last allocated is
recorded beside the kernel (`Victims`).
-/

namespace Xv6
namespace Sync

open Sched Transition

/-- The slot with which a `kkill` ends in this step.  It compares the pid it was called with with
that of the slot, and returns 0 if they are equal. -/
def found (s : KState) : KLabel → Option Slot
  | .run t _ =>
    match s.pc t with
    | .kkillLocked pid q _ => if (s.proc q).pid = pid then some q else none
    | _ => none
  | _ => none

/-- The slot that `kfork` gets from `allocproc` in this step. -/
def allocated (s : KState) : KLabel → Option Slot
  | .run (.proc p) _ =>
    match s.pc (.proc p) with
    | .code (.fork (.alloc np)) => some np
    | _ => none
  | _ => none

/-- The child that `kfork` makes `RUNNABLE` in this step. -/
def readied (s : KState) : KLabel → Option Slot
  | .run (.proc p) _ =>
    match s.pc (.proc p) with
    | .code (.fork (.ready np)) => some np
    | _ => none
  | _ => none

/-- The kernel, and the slots that a `kkill` has found since they were last allocated. -/
structure Victims where
  sys : KState
  named : Slot → Bool

def Victims.record (c : Victims) (a : KLabel) (q : Slot) : Bool :=
  if found c.sys a = some q then true
  else if allocated c.sys a = some q then false
  else c.named q

def Victims.step (c : Victims) (a : KLabel) : Option Victims :=
  (Sync.step kernel c.sys a).map fun s' => ⟨s', c.record a⟩

def Victims.boot (data : ℕ → ℕ → UInt8) : Victims := ⟨Sync.boot data, fun _ => false⟩

abbrev Victims.Steps (c : Victims) (a : KLabel) (c' : Victims) : Prop := c.step a = some c'

/-- The step is not one in which a `kkill(0)` looks at a slot. -/
def NotZero (c : Victims) : KLabel → Prop
  | .run t _ =>
    match c.sys.pc t with
    | .kkillLocked pid _ _ => pid ≠ 0
    | _ => True
  | _ => True

instance (c : Victims) : (a : KLabel) → Decidable (NotZero c a)
  | .run t _ => by
    dsimp only [NotZero]
    cases c.sys.pc t with
    | kkillLocked pid q x => exact inferInstanceAs (Decidable (pid ≠ 0))
    | _ => exact .isTrue trivial
  | .dispatch _ => .isTrue trivial
  | .settle _ => .isTrue trivial

variable {s s' : KState} {a : KLabel} {c c' : Victims}

theorem found_eq_some {q : Slot} (h : found s a = some q) :
    ∃ t i x, a = .run t i ∧ s.pc t = .kkillLocked (s.proc q).pid q x := by
  unfold found at h
  split at h
  · rename_i t i
    split at h
    · rename_i pid r x hpc
      split at h
      · rename_i hpid
        cases Option.some.inj h
        exact ⟨t, i, x, rfl, hpid ▸ hpc⟩
      · cases h
    · cases h
  · cases h

theorem found_of_kkillLocked {t : Thread} {i : Input} {q : Slot} {x : Loc}
    (hpc : s.pc t = .kkillLocked (s.proc q).pid q x) : found s (.run t i) = some q := by
  simp only [found, hpc, if_true]

theorem allocated_eq_some {q : Slot} (h : allocated s a = some q) :
    ∃ p i, a = .run (.proc p) i ∧ s.pc (.proc p) = .code (.fork (.alloc q)) := by
  unfold allocated at h
  split at h
  · rename_i p i
    split at h
    · rename_i np hpc
      cases Option.some.inj h
      exact ⟨p, i, rfl, hpc⟩
    · exact nomatch h
  · exact nomatch h

theorem readied_eq_some {q : Slot} (h : readied s a = some q) :
    ∃ p i, a = .run (.proc p) i ∧ s.pc (.proc p) = .code (.fork (.ready q)) := by
  unfold readied at h
  split at h
  · rename_i p i
    split at h
    · rename_i np hpc
      cases Option.some.inj h
      exact ⟨p, i, rfl, hpc⟩
    · exact nomatch h
  · exact nomatch h

/-! ## The flag of a slot that nobody has named -/

/-- What holds of slot `q`: it is empty, with pid 0 and a clear flag, or it is being filled, and is
killed only if it has been named. -/
structure Unmarked (c : Victims) (q : Slot) : Prop where
  empty : (c.sys.proc q).state = .unused → (c.sys.proc q).pid = 0 ∧ (c.sys.proc q).killed = false
  child : (c.sys.proc q).state = .used → (c.sys.proc q).killed = true → c.named q = true

theorem Unmarked.not_found {q : Slot} (hq : Unmarked c q) (hzero : NotZero c a)
    (hfound : found c.sys a = some q) : (c.sys.proc q).state ≠ .unused := by
  intro hunused
  obtain ⟨t, i, x, rfl, hpc⟩ := found_eq_some hfound
  simp only [NotZero, hpc] at hzero
  exact hzero (hq.empty hunused).1

theorem Proc.demote_pid (p : Proc) : p.demote.pid = p.pid := by
  unfold Proc.demote
  split <;> rfl

theorem Proc.wakeup_pid (p : Proc) (chan : ℕ) : (p.wakeup chan).pid = p.pid := by
  unfold Proc.wakeup
  split <;> rfl

/-- A slot that is `UNUSED` after an assignment has just been through `freeproc`, or was `UNUSED`
and keeps its pid and its flag. -/
theorem Base.assign_unused (hs : Base s) {p q : Slot} {x y : Loc} {op : TableOp} {f : Proc → Proc}
    (hpc : s.pc (.proc p) = .code x) (hplace : TablePlace p x op y)
    (hf : s.edited (.proc p) op = some (q, f)) (hq : (f (s.proc q)).state = .unused) :
    (f (s.proc q)).pid = 0 ∧ (f (s.proc q)).killed = false ∨
      (s.proc q).state = .unused ∧ (f (s.proc q)).pid = (s.proc q).pid ∧
        (f (s.proc q)).killed = (s.proc q).killed := by
  cases hplace with
  | allocFail | free =>
    obtain ⟨rfl, rfl⟩ := Prod.mk.inj (Option.some.inj hf)
    exact Or.inl ⟨rfl, rfl⟩
  | alloc | ready | zombie =>
    obtain ⟨rfl, rfl⟩ := Prod.mk.inj (Option.some.inj hf)
    exact nomatch hq
  | parent | adopt =>
    obtain ⟨rfl, rfl⟩ := Prod.mk.inj (Option.some.inj hf)
    exact Or.inr ⟨hq, rfl, rfl⟩
  | setkilled =>
    -- a process that calls `setkilled` is running
    obtain ⟨rfl, rfl⟩ := Prod.mk.inj (Option.some.inj hf)
    have hfits := hs.fits p
    rw [hpc] at hfits
    exact nomatch hfits.symm.trans hq

theorem Unmarked.step_empty {q : Slot} (hq : Unmarked c q) (hs : Base c.sys)
    (hzero : NotZero c a) (h : Sync.step kernel c.sys a = some s')
    (hunused : (s'.proc q).state = .unused) :
    (s'.proc q).pid = 0 ∧ (s'.proc q).killed = false := by
  have hmove := procMove_of_step h q
  generalize s'.proc q = x at hmove hunused ⊢
  cases hmove with
  | same | woken => exact hq.empty hunused
  | wakeup t i chan =>
    rw [Proc.wakeup_pid, Proc.wakeup_killed]
    rcases (c.sys.proc q).wakeup_state chan with heq | ⟨-, hnew⟩
    · exact hq.empty (heq.symm.trans hunused)
    · exact nomatch hnew.symm.trans hunused
  | kkill t i x hpc =>
    rcases (c.sys.proc q).kkill_state (c.sys.proc q).pid with heq | ⟨-, hnew⟩
    · exact absurd (heq.symm.trans hunused) (hq.not_found hzero (found_of_kkillLocked hpc))
    · exact nomatch hnew.symm.trans hunused
  | sleep | yield | dispatch => exact nomatch hunused
  | assign p i x y op f hpc hplace hf =>
    rcases hs.assign_unused hpc hplace hf hunused with hfreed | ⟨hold, hpid, hkilled⟩
    · exact hfreed
    · rw [hpid, hkilled]
      exact hq.empty hold
  | settle =>
    rw [Proc.demote_state] at hunused
    rw [Proc.demote_pid, Proc.demote_killed]
    exact hq.empty hunused

theorem Victims.record_kept {q : Slot} (hs : Base c.sys) (hstate : (c.sys.proc q).state ≠ .unused)
    (hq : c.named q = true) : c.record a q = true := by
  unfold Victims.record
  split
  · rfl
  · split
    · rename_i halloc
      obtain ⟨p, i, rfl, hpc⟩ := allocated_eq_some halloc
      exact absurd (hs.expects p _ q .unused hpc rfl) hstate
    · exact hq

theorem Unmarked.step_child {q : Slot} (hq : Unmarked c q) (hs : Base c.sys)
    (h : Sync.step kernel c.sys a = some s') (hused : (s'.proc q).state = .used)
    (hkilled : (s'.proc q).killed = true) : c.record a q = true := by
  have hstate := hs.state_move h q
  have hflag := hs.killed_move h q
  have hfits := hs.fits q
  rw [hused] at hstate
  rw [hkilled] at hflag
  generalize hold : (c.sys.proc q).state = st at hstate
  generalize hb : (c.sys.proc q).killed = b at hflag
  cases hflag with
  | kill t i x _ ha hpc =>
    subst ha
    rw [Victims.record, if_pos (found_of_kkillLocked hpc)]
  | setkilled i _ ha hpc =>
    -- the process is running, and so was neither `USED` nor `UNUSED`
    rw [hpc] at hfits
    have hrunning := hold.symm.trans hfits
    cases hstate with
    | same => exact nomatch hrunning
    | alloc => exact nomatch hrunning
  | same =>
    cases hstate with
    | same => exact Victims.record_kept hs (by simp [hold]) (hq.child hold hb)
    | alloc => exact nomatch hb.symm.trans (hq.empty hold).2

theorem Unmarked.step {q : Slot} (hq : Unmarked c q) (hs : Base c.sys) (hzero : NotZero c a)
    (h : c.Steps a c') : Unmarked c' q := by
  obtain ⟨s', hs', rfl⟩ := Option.map_eq_some_iff.mp h
  exact ⟨hq.step_empty hs hzero hs', hq.step_child hs hs'⟩

theorem unmarked_boot (data : ℕ → ℕ → UInt8) (q : Slot) : Unmarked (Victims.boot data) q where
  empty hunused := by
    change (bootTable q).state = .unused at hunused
    show (bootTable q).pid = 0 ∧ (bootTable q).killed = false
    unfold bootTable at hunused ⊢
    split at hunused
    · exact nomatch hunused
    · rename_i hq
      rw [if_neg hq]
      exact ⟨rfl, rfl⟩
  child hused := by
    change (bootTable q).state = .used at hused
    unfold bootTable at hused
    split at hused <;> exact nomatch hused

/-! ## Runs -/

theorem step_ready {p q : Slot} {i : Input} (hpc : s.pc (.proc p) = .code (.fork (.ready q)))
    (h : Sync.step kernel s (.run (.proc p) i) = some s') : s'.proc q = Proc.ready (s.proc q) := by
  obtain ⟨act, pc', s₁, hnext, happly, rfl⟩ := next_of_code hpc h
  obtain ⟨rfl, rfl⟩ := Prod.mk.inj (Option.some.inj hnext)
  rw [← Option.some.inj happly, State.goto_proc, State.table_proc]
  exact Function.update_self ..

/-- **A kill finds a process.**  In every run in which no `kkill(0)` looks at a slot, a `kkill`
returns 0 for a process only, and a child that `kfork` makes `RUNNABLE` has its flag clear, unless a
`kkill` has named it since it was allocated. -/
theorem kkill_finds_process {data : ℕ → ℕ → UInt8} {h : List KLabel}
    (hrun : RunWith Victims.Steps NotZero (Victims.boot data) h c) (hstep : c.Steps a c')
    (hzero : NotZero c a) (q : Slot) :
    (found c.sys a = some q → (c.sys.proc q).state ≠ .unused) ∧
      (readied c.sys a = some q → (c'.sys.proc q).state = .runnable ∧
        ((c'.sys.proc q).killed = false ∨ c.named q = true)) := by
  have hinv := hrun.invariant (I := fun c => Base c.sys ∧ ∀ q, Unmarked c q)
    ⟨boot_base data, unmarked_boot data⟩ fun d b d' hd hb hd' => by
      obtain ⟨s', hs', hd''⟩ := Option.map_eq_some_iff.mp hd'
      exact ⟨hd'' ▸ hd.1.step hs', fun q => (hd.2 q).step hd.1 hb hd'⟩
  obtain ⟨hbase, hunmarked⟩ := hinv
  refine ⟨(hunmarked q).not_found hzero, fun hready => ?_⟩
  obtain ⟨p, i, rfl, hpc⟩ := readied_eq_some hready
  obtain ⟨s', hs', rfl⟩ := Option.map_eq_some_iff.mp hstep
  rw [step_ready hpc hs']
  refine ⟨rfl, ?_⟩
  cases hkilled : (c.sys.proc q).killed with
  | false => exact Or.inl hkilled
  | true => exact Or.inr ((hunmarked q).child (hbase.expects p _ q .used hpc rfl) hkilled)

/-- The first process is in `kfork`, just before it makes its child `RUNNABLE`. -/
def childActs : List KLabel := [.dispatch 0] ++ acts 0 .fork 15

/-- A step of the first process. -/
def act₀ : KLabel := .run (.proc 0) ⟨.fork, true, 7⟩

theorem kkill_finds_process_fork :
    ∃ h c c', RunWith Victims.Steps NotZero (Victims.boot fun _ _ => 0) h c ∧ c.Steps act₀ c' ∧
      NotZero c act₀ ∧ readied c.sys act₀ = some 1 ∧ (c'.sys.proc 1).state = .runnable ∧
      ((c'.sys.proc 1).killed = false ∨ c.named 1 = true) := by
  have hexec : ((execWith Victims.step NotZero (Victims.boot fun _ _ => 0) childActs).bind fun c =>
      (c.step act₀).map fun _ => (decide (NotZero c act₀), readied c.sys act₀)) =
      some (true, some 1) := by
    decide +kernel
  obtain ⟨c, hc, hrest⟩ := Option.bind_eq_some_iff.mp hexec
  obtain ⟨c', hc', hfields⟩ := Option.map_eq_some_iff.mp hrest
  obtain ⟨hzero, hready⟩ := Prod.mk.inj hfields
  have hrun := run_of_execWith hc
  have hchild := (kkill_finds_process hrun hc' (of_decide_eq_true hzero) 1).2 hready
  exact ⟨_, c, c', hrun, hc', of_decide_eq_true hzero, hready, hchild⟩

/-- The first process calls `kill(0)`, and its scan is about to find slot 1. -/
def killActs : List KLabel := [.dispatch 0] ++ acts 0 (.kill 0) 8

/-- **`kill(0)`.**  It returns 0 though no process has pid 0; and if the first process then forks,
the child in the slot that was found starts out killed, though no `kkill` has named it. -/
theorem not_kkill_finds_process :
    (¬ ∀ h c a c' q, Run Victims.Steps (Victims.boot fun _ _ => 0) h c → c.Steps a c' →
      found c.sys a = some q → (c.sys.proc q).state ≠ .unused) ∧
    ¬ ∀ h c a c' q, Run Victims.Steps (Victims.boot fun _ _ => 0) h c → c.Steps a c' →
      readied c.sys a = some q → (c'.sys.proc q).killed = false ∨ c.named q = true := by
  refine ⟨fun hall => ?_, fun hall => ?_⟩
  · have hexec : ((exec Victims.step (Victims.boot fun _ _ => 0) killActs).bind fun c =>
        (c.step act₀).map fun _ => (found c.sys act₀, (c.sys.proc 1).state)) =
        some (some 1, .unused) := by
      decide +kernel
    obtain ⟨c, hc, hrest⟩ := Option.bind_eq_some_iff.mp hexec
    obtain ⟨c', hc', hfields⟩ := Option.map_eq_some_iff.mp hrest
    obtain ⟨hfound, hunused⟩ := Prod.mk.inj hfields
    exact hall _ c act₀ c' 1 (run_of_execWith hc) hc' hfound hunused
  · have hexec : ((exec Victims.step (Victims.boot fun _ _ => 0)
        (killActs ++ acts 0 .fork 17)).bind fun c =>
        (c.step act₀).map fun c' => (readied c.sys act₀, (c'.sys.proc 1).killed, c.named 1)) =
        some (some 1, true, false) := by
      decide +kernel
    obtain ⟨c, hc, hrest⟩ := Option.bind_eq_some_iff.mp hexec
    obtain ⟨c', hc', hfields⟩ := Option.map_eq_some_iff.mp hrest
    simp only [Prod.mk.injEq] at hfields
    obtain ⟨hready, hkilled, hnamed⟩ := hfields
    rcases hall _ c act₀ c' 1 (run_of_execWith hc) hc' hready with hclear | hname
    · exact nomatch hclear.symm.trans hkilled
    · exact nomatch hnamed.symm.trans hname

end Sync
end Xv6
