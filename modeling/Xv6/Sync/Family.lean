import Xv6.Lib.Forest
import Xv6.Sync.Base

/-!
# The process tree

Parent pointers are set by `kfork`, moved to the first process by `reparent`, and cleared by
`allocproc` and `freeproc` (`FamilyMove`).  While a process holds `wait_lock` nobody else changes
them, and nobody becomes a `ZOMBIE`, so what `kexit` and `kwait` have seen in their scans of the
table stays true (`Loc.kin`).  In particular a process has no children left when it becomes a
`ZOMBIE`: no parent pointer ever refers to a slot that is not in use, and a slot that is freed or
allocated has no children.
-/

namespace Xv6
namespace Sync

open Sched Transition

variable {β : Type} {x y : Loc} {op : TableOp} {f : Proc → Proc} {t : Thread} {q np c : Slot}
  {i : Input} {pc pc' : Pc CondLock Loc} {d : Data}

variable {s s' : KState} {a : KLabel}

/-! ## Fields that only the assignments to the table change -/

/-- A field that the scheduler, `sleep`, `wakeup`, `kkill` and `yield` leave alone. -/
structure Stable {β : Type} (g : Proc → β) : Prop where
  wakeup : ∀ x chan, g (x.wakeup chan) = g x
  kkill : ∀ x pid, g (x.kkill pid) = g x
  demote : ∀ x, g x.demote = g x
  run : ∀ x, g (Proc.run x) = g x
  fallAsleep : ∀ x chan, g (Proc.fallAsleep chan x) = g x
  giveWay : ∀ x, g (Proc.giveWay x) = g x
  clearChan : ∀ x, g (Proc.clearChan x) = g x

/-- A function of a process that agrees on processes equal up to the fields those change. -/
theorem stable_of_fields (g : ℤ → Option Slot → ℤ → β) :
    Stable fun x => g x.pid x.parent x.xstate where
  wakeup x chan := by
    unfold Proc.wakeup
    split <;> rfl
  kkill x pid := by
    unfold Proc.kkill
    split
    · dsimp only
      split <;> rfl
    · rfl
  demote x := by
    unfold Proc.demote
    split <;> rfl
  run _ := rfl
  fallAsleep _ _ := rfl
  giveWay _ := rfl
  clearChan _ := rfl

/-- The assignment to the table that a step makes. -/
structure Assigns (s : KState) (a : KLabel) (s' : KState) (p : Slot) (x : Loc) (op : TableOp)
    (y : Loc) : Prop where
  label : ∃ i, a = .run (.proc p) i
  pc : s.pc (.proc p) = .code x
  place : TablePlace p x op y
  next : s' = (s.table .user (.proc p) op).goto (.proc p) (.code y)

theorem Assigns.proc {p : Slot} (h : Assigns s a s' p x op y) :
    s'.proc = s.editTable (.proc p) op := by
  rw [h.next, State.goto_proc, State.table_proc]

theorem State.setProc_stable {g : Proc → β} (s : KState) {p : Slot}
    (hf : g (f (s.proc p)) = g (s.proc p)) (q : Slot) :
    g ((s.setProc p f).proc q) = g (s.proc q) := by
  by_cases hqp : q = p
  · subst hqp
    rw [State.setProc_proc_self, hf]
  · rw [State.setProc_proc_of_ne _ _ hqp]

theorem Stable.step {g : Proc → β} (hg : Stable g) (h : Sync.step kernel s a = some s') :
    (∀ q, g (s'.proc q) = g (s.proc q)) ∨ ∃ p x op y, Assigns s a s' p x op y := by
  cases a with
  | run t i =>
    obtain ⟨pc, act, pc', s₁, -, hpc, hnext, hacted, rfl⟩ := step_run h
    cases hacted with
    | acquire | release | data | skip => exact Or.inl fun _ => rfl
    | table op =>
      cases hnext with
      | table x op y hx =>
        obtain ⟨p, rfl, hplace⟩ := tablePlace_of_instr hx
        exact Or.inr ⟨p, x, op, y, ⟨i, rfl⟩, hpc, hplace, rfl⟩
    | edit r f =>
      have hf : g (f (s.proc r)) = g (s.proc r) := by
        cases hnext with
        | killedLocked | resumed => rfl
        | woken => exact hg.clearChan _
        | wakeupLocked => exact hg.wakeup _ _
        | kkillHit | kkillMiss => exact hg.kkill _ _
      exact Or.inl (State.setProc_stable s hf)
    | switch r f =>
      have hf : g (f (s.proc r)) = g (s.proc r) := by
        cases hnext with
        | sched => rfl
        | sleepUnlocked => exact hg.fallAsleep _ _
        | yieldLocked => exact hg.giveWay _
      exact Or.inl (State.setProc_stable s hf)
  | dispatch r =>
    obtain ⟨pc, -, -, -, rfl⟩ := step_dispatch h
    exact Or.inl (State.setProc_stable s (hg.run _))
  | settle r =>
    obtain ⟨-, rfl⟩ := step_settle h
    exact Or.inl (State.setProc_stable s (hg.demote _))

/-! ## Changes of parent pointers -/

/-- The parent pointers. -/
def family (tb : Table) : Slot → Option Slot := Proc.parent ∘ tb

theorem family_editTable (h : s.edited t op = some (q, f)) :
    family (s.editTable t op) = Function.update (family s.proc) q (f (s.proc q)).parent := by
  rw [State.editTable, h]
  exact Function.comp_update ..

/-- How a step changes the parent pointers. -/
inductive FamilyMove (s : KState) (a : KLabel) : (Slot → Option Slot) → Prop
  | same : FamilyMove s a (family s.proc)
  | fork (p : Slot) (i : Input) (np : Slot) : a = .run (.proc p) i →
      s.pc (.proc p) = .code (.fork (.parent np)) →
      FamilyMove s a (Function.update (family s.proc) np (some p))
  | adopt (p : Slot) (i : Input) (status : ℤ) (pp : Slot) : a = .run (.proc p) i →
      s.pc (.proc p) = .code (.exit status (.adopt pp)) →
      FamilyMove s a (Function.update (family s.proc) pp (some initproc))
  /-- `allocproc` -/
  | alloc (np : Slot) : (s.proc np).state = .unused →
      FamilyMove s a (Function.update (family s.proc) np none)
  | free (p : Slot) (i : Input) (addr : Bool) (pp : Slot) : a = .run (.proc p) i →
      s.pc (.proc p) = .code (.wait addr (.free pp)) →
      FamilyMove s a (Function.update (family s.proc) pp none)

theorem Base.family_move (hs : Base s) (h : Sync.step kernel s a = some s') :
    FamilyMove s a (family s'.proc) := by
  rcases (stable_of_fields fun _ parent _ => parent).step h with hkept | ⟨p, x, op, y, has⟩
  · rw [show family s'.proc = family s.proc from funext hkept]
    exact .same
  · rw [has.proc]
    obtain ⟨i, ha⟩ := has.label
    have hpc := has.pc
    cases has.place with
    | alloc np =>
      rw [family_editTable rfl]
      exact .alloc np (hs.expects p _ np .unused hpc rfl)
    | allocFail np =>
      rw [family_editTable rfl]
      exact .alloc np (hs.expects p _ np .unused hpc rfl)
    | parent np =>
      rw [family_editTable rfl]
      exact .fork p i np ha hpc
    | adopt status pp =>
      rw [family_editTable rfl]
      exact .adopt p i status pp ha hpc
    | free addr pp =>
      rw [family_editTable rfl]
      exact .free p i addr pp ha hpc
    | ready | zombie | setkilled =>
      rw [family_editTable rfl]
      convert FamilyMove.same
      exact Function.update_eq_self ..

/-! ## What `kfork`, `kexit` and `kwait` know about the family of a process -/

/-- No child of `p` among the first `n` slots is a `ZOMBIE`. -/
def NoZombie (p : Slot) (tb : Table) (n : ℕ) : Prop :=
  ∀ c : Slot, c.val < n → (tb c).parent = some p → (tb c).state ≠ .zombie

/-- How many slots `reparent` has been through. -/
def Exiting.passed : Exiting → ℕ
  | .reparent i => i
  | .adopt pp => pp
  | .wakeInit pp => pp + 1
  | .parent | .wakeParent _ | .lock | .zombie => NPROC
  | _ => 0

/-- What `kexit` knows; `D` are the processes asleep in `kwait`.  The first process does not come
here: it panics. -/
def Exiting.kin (p : Slot) (tb : Table) (D : Slot → Prop) (x : Exiting) : Prop :=
  p ≠ initproc ∧ (∀ c : Slot, c.val < x.passed → (tb c).parent ≠ some p) ∧
    match x with
    | .adopt pp => (tb pp).parent = some p
    | .wakeParent chan => chan = parentChan (tb p).parent
    | .lock | .zombie => ∀ q, (tb p).parent = some q → ¬ D q
    | _ => True

/-- What `kwait` knows. -/
def Waiting.kin (p : Slot) (tb : Table) : Waiting → Prop
  | .scan i _ => NoZombie p tb i
  | .lock pp | .test pp => NoZombie p tb pp ∧ (tb pp).parent = some p
  | .next pp => NoZombie p tb (pp + 1)
  | .fail pp | .free pp => (tb pp).parent = some p
  | .killed | .sleep => NoZombie p tb NPROC
  | .acquireWait | .freed _ | .releaseWait => True

/-- What process `p` knows about its family at a place. -/
def Loc.kin (p : Slot) (tb : Table) (D : Slot → Prop) : Loc → Prop
  | .fork (.releaseWait np) | .fork (.lock np) | .fork (.ready np) => (tb np).parent ≠ none
  | .pipeclose _ _ (some _) _ => p ≠ initproc
  | .exit _ .start | .exit _ .dead => True
  | .exit _ x => x.kin p tb D
  | .wait _ x => x.kin p tb
  | _ => True

/-- What is known in a call of `sleep` until the lock is released. -/
def Loc.sleepKin (p : Slot) (tb : Table) : Loc → Prop
  | .wait _ (.scan ..) => NoZombie p tb NPROC
  | _ => True

/-- What is known at a place in `kernel/proc.c` too.  In `wakeup`, the sleepers ahead of the scan do
not count. -/
def Pc.kin (p : Slot) (tb : Table) (D : Slot → Prop) : Pc CondLock Loc → Prop
  | .code x => x.kin p tb D
  | .wakeup c n x => x.kin p tb fun r => D r ∧ ¬ (c = procChan r ∧ n ≤ r)
  | .wakeupLocked c q x => x.kin p tb fun r => D r ∧ ¬ (c = procChan r ∧ q ≤ r)
  | .killedLocked x y => x.kin p tb D ∧ y.kin p tb D
  | .sleepLocked _ _ x => x.sleepKin p tb ∧ ∀ tb' D', x.kin p tb' D'
  | .sleepUnlocked _ _ x | .asleep _ _ x | .woken _ x | .relock _ x | .kkill _ _ x
  | .kkillLocked _ _ x | .yieldLocked x | .off x | .resumed x => ∀ tb' D', x.kin p tb' D'

/-- What an instruction has to establish; assignments to the table are looked at one by one. -/
def Instr.Kin (p : Slot) (x : Loc) : KInstr → Prop
  | .acquire _ y | .release _ y => ∀ tb D, x.kin p tb D → y.kin p tb D
  | .wakeup c y => ∀ tb D, x.kin p tb D → y.kin p tb fun r => D r ∧ c ≠ procChan r
  | .compute f => ∀ i tb D d, x.kin p tb D → (f i tb d).2.kin p tb D
  | .sleep _ _ y => (∀ tb D, x.kin p tb D → y.sleepKin p tb) ∧ ∀ tb D, y.kin p tb D
  | .killed y z => ∀ tb D, x.kin p tb D → y.kin p tb D ∧ z.kin p tb D
  | .kkill _ y | .yield y | .sched y => ∀ tb D, y.kin p tb D
  | .table .. | .panic => True

theorem NoZombie.zero (p : Slot) (tb : Table) : NoZombie p tb 0 :=
  fun _ hc => absurd hc (Nat.not_lt_zero _)

theorem NoZombie.succ {p : Slot} {tb : Table} {i : Slot} (h : NoZombie p tb i)
    (hi : (tb i).parent = some p → (tb i).state ≠ .zombie) : NoZombie p tb (i + 1) := by
  intro c hc hparent
  rcases Nat.lt_succ_iff_lt_or_eq.mp hc with hlt | heq
  · exact h c hlt hparent
  · obtain rfl := Fin.ext heq
    exact hi hparent

theorem kfork_kin (p : Slot) (x : Fork) : Instr.Kin p (.fork x) (kfork p x) := by
  cases x with
  | scan i =>
    rw [kfork]
    split
    · exact fun _ _ _ => trivial
    · exact fun _ _ _ _ _ => trivial
  | test np =>
    intro inp tb D d _
    dsimp only
    split_ifs <;> trivial
  | releaseWait np | lock np => exact fun _ _ hnp => hnp
  | _ => simp [kfork, Instr.Kin, Loc.kin]

theorem kexit_kin (p : Slot) (status : ℤ) (x : Exiting) :
    Instr.Kin p (.exit status x) (kexit p status x) := by
  cases x with
  | start =>
    rw [kexit]
    split
    · trivial
    · rename_i hp
      exact fun _ tb _ _ _ => ⟨hp, fun c hc => absurd hc (Nat.not_lt_zero _), trivial⟩
  | close =>
    intro inp tb D d hx
    dsimp only
    split
    · exact hx.1
    · exact hx
  | acquireWait => exact fun tb D hx => hx
  | reparent i =>
    intro inp tb D d hx
    obtain ⟨hp, hpassed, -⟩ := hx
    dsimp only
    split_ifs with hi hparent
    · exact ⟨hp, hpassed, hparent⟩
    · refine ⟨hp, ?_, trivial⟩
      intro c hc
      rcases Nat.lt_succ_iff_lt_or_eq.mp hc with hlt | heq
      · exact hpassed c hlt
      · obtain rfl : c = ⟨i, hi⟩ := Fin.ext heq
        exact hparent
    · exact ⟨hp, fun c _ => hpassed c (lt_of_lt_of_le c.isLt (Nat.le_of_not_lt hi)), trivial⟩
  | wakeInit pp => exact fun tb D hx => hx
  | parent =>
    intro inp tb D d hx
    exact ⟨hx.1, hx.2.1, rfl⟩
  | wakeParent chan =>
    intro tb D hx
    obtain ⟨hp, hpassed, hchan⟩ := hx
    refine ⟨hp, hpassed, fun q hq hD => hD.2 ?_⟩
    rw [hchan, hq]
    rfl
  | lock => exact fun tb D hx => hx
  | releaseWait => exact fun tb D hx => hx
  | sched => exact fun tb _ => trivial
  | adopt | zombie | dead => trivial

theorem kwait_kin (p : Slot) (addr : Bool) (x : Waiting) :
    Instr.Kin p (.wait addr x) (kwait p addr x) := by
  cases x with
  | acquireWait => exact fun tb _ _ => NoZombie.zero p tb
  | scan i havekids =>
    intro inp tb D d hx
    dsimp only
    split_ifs with hi hparent hkids
    · exact ⟨hx, hparent⟩
    · exact NoZombie.succ (i := ⟨i, hi⟩) hx fun h => absurd h hparent
    · exact fun c _ => hx c (lt_of_lt_of_le c.isLt (Nat.le_of_not_lt hi))
    · trivial
  | lock pp => exact fun tb D hx => hx
  | test pp =>
    intro inp tb D d hx
    dsimp only
    split_ifs with hstate hfail
    · exact hx.2
    · exact hx.2
    · exact hx.1.succ fun _ => hstate
  | next pp => exact fun tb D hx => hx
  | killed => exact fun tb D hx => ⟨trivial, hx⟩
  | sleep => exact ⟨fun tb D hx => hx, fun tb _ => NoZombie.zero p tb⟩
  | free | fail | freed | releaseWait => simp [kwait, Instr.Kin, Loc.kin, Waiting.kin]

theorem Call.first_kin (c : Call) (p : Slot) (tb : Table) (D : Slot → Prop) :
    c.first.kin p tb D := by
  cases c <;> trivial

theorem Call.enter_kin (c : Call) (p : Slot) (tb : Table) (D : Slot → Prop) :
    c.enter.kin p tb D := by
  cases c <;> trivial

theorem procInstr_kin (p : Slot) (x : Loc) : Instr.Kin p x (procInstr p x) := by
  cases x with
  | user => exact fun inp tb D _ _ => inp.call.enter_kin p tb D
  | enter c => exact fun tb _ _ => ⟨trivial, c.first_kin p tb _⟩
  | ret timer => cases timer <;> exact fun _ _ _ => ⟨trivial, trivial⟩
  | pipewrite k n x =>
    cases x with
    | loop i =>
      intro inp tb D d _
      dsimp only
      split_ifs <;> trivial
    | full i =>
      intro inp tb D d _
      dsimp only [pipewriteBody]
      split_ifs <;> trivial
    | killed i => exact fun _ _ _ => ⟨trivial, trivial⟩
    | sleep i => exact ⟨fun _ _ _ => trivial, fun _ _ => trivial⟩
    | _ => simp [procInstr, pipewrite, Instr.Kin, Loc.kin]
  | piperead k n x =>
    cases x with
    | loop =>
      intro inp tb D d _
      dsimp only
      split_ifs <;> trivial
    | copy i =>
      intro inp tb D d _
      dsimp only [pipereadBody]
      split_ifs <;> trivial
    | killed => exact fun _ _ _ => ⟨trivial, trivial⟩
    | sleep => exact ⟨fun _ _ _ => trivial, fun _ _ => trivial⟩
    | _ => simp [procInstr, piperead, Instr.Kin, Loc.kin]
  | pipeclose k writable after x =>
    cases after with
    | none => cases x <;> simp [procInstr, pipeclose, Instr.Kin, Loc.kin]
    | some status =>
      cases x with
      | release =>
        exact fun tb D hp => ⟨hp, fun c hc => absurd hc (Nat.not_lt_zero _), trivial⟩
      | _ => simp [procInstr, pipeclose, Instr.Kin, Loc.kin]
  | consoleread target x =>
    cases x with
    | loop n =>
      intro inp tb D d _
      dsimp only [consolereadBody]
      split_ifs <;> trivial
    | killed n => exact fun _ _ _ => ⟨trivial, trivial⟩
    | sleep n => exact ⟨fun _ _ _ => trivial, fun _ _ => trivial⟩
    | _ => simp [procInstr, consoleread, Instr.Kin, Loc.kin]
  | pause n x =>
    cases x with
    | loop ticks0 =>
      intro inp tb D d _
      dsimp only
      split_ifs <;> trivial
    | killed n => exact fun _ _ _ => ⟨trivial, trivial⟩
    | sleep n => exact ⟨fun _ _ _ => trivial, fun _ _ => trivial⟩
    | _ => simp [procInstr, pause, Instr.Kin, Loc.kin]
  | fork x => exact kfork_kin p x
  | exit status x => exact kexit_kin p status x
  | wait addr x => exact kwait_kin p addr x
  | fault x => cases x <;> simp [procInstr, setkilled, Instr.Kin, Loc.kin]
  | _ => simp [procInstr, Instr.Kin, Loc.kin]

/-- No parent pointer is changed, and nobody becomes a `ZOMBIE` or falls asleep. -/
structure Kept (tb : Table) (D : Slot → Prop) (tb' : Table) (D' : Slot → Prop) : Prop where
  parent : ∀ c, (tb' c).parent = (tb c).parent
  zombie : ∀ c, (tb' c).state = .zombie → (tb c).state = .zombie
  asleep : ∀ r, D' r → D r

section Kept

variable {tb tb' : Table} {D D' : Slot → Prop} {p : Slot}

theorem NoZombie.kept {n : ℕ} (hx : NoZombie p tb n) (h : Kept tb D tb' D') : NoZombie p tb' n :=
  fun c hc hparent hstate => hx c hc (h.parent c ▸ hparent) (h.zombie c hstate)

theorem Exiting.kin_kept {x : Exiting} (hx : x.kin p tb D) (h : Kept tb D tb' D') :
    x.kin p tb' D' := by
  obtain ⟨hp, hpassed, hrest⟩ := hx
  refine ⟨hp, fun c hc => h.parent c ▸ hpassed c hc, ?_⟩
  cases x with
  | adopt pp => exact (h.parent pp).trans hrest
  | wakeParent chan => exact (congrArg parentChan (h.parent p)).symm ▸ hrest
  | lock | zombie => exact fun q hq hD => hrest q (h.parent p ▸ hq) (h.asleep q hD)
  | _ => trivial

theorem Waiting.kin_kept {x : Waiting} (hx : x.kin p tb) (h : Kept tb D tb' D') : x.kin p tb' := by
  cases x with
  | scan | next | killed | sleep => exact NoZombie.kept hx h
  | lock pp | test pp => exact ⟨hx.1.kept h, (h.parent pp).trans hx.2⟩
  | fail pp | free pp => exact (h.parent pp).trans hx
  | acquireWait | freed | releaseWait => trivial

theorem Loc.kin_kept (hx : x.kin p tb D) (h : Kept tb D tb' D') : x.kin p tb' D' := by
  cases x with
  | fork x =>
    cases x with
    | releaseWait np | lock np | ready np => exact fun hnone => hx ((h.parent np).symm.trans hnone)
    | _ => trivial
  | pipeclose k writable after x =>
    cases after with
    | none => trivial
    | some status => exact hx
  | exit status x =>
    cases x with
    | start | dead => trivial
    | _ => exact Exiting.kin_kept hx h
  | wait addr x => exact Waiting.kin_kept hx h
  | _ => trivial

theorem Loc.sleepKin_kept (hx : x.sleepKin p tb) (h : Kept tb D tb' D') : x.sleepKin p tb' := by
  cases x with
  | wait addr x =>
    cases x with
    | scan => exact NoZombie.kept hx h
    | _ => trivial
  | _ => trivial

theorem Pc.kin_kept (hpc : pc.kin p tb D) (h : Kept tb D tb' D') : pc.kin p tb' D' := by
  cases pc with
  | code => exact Loc.kin_kept hpc h
  | wakeup | wakeupLocked =>
    exact Loc.kin_kept hpc ⟨h.parent, h.zombie, fun r hr => ⟨h.asleep r hr.1, hr.2⟩⟩
  | killedLocked => exact ⟨Loc.kin_kept hpc.1 h, Loc.kin_kept hpc.2 h⟩
  | sleepLocked => exact ⟨Loc.sleepKin_kept hpc.1 h, hpc.2⟩
  | _ => exact hpc

/-- What is known without `wait_lock`: a new process keeps its parent. -/
theorem Loc.kin_of_not_own (hx : x.kin p tb D) (hown : ¬ procOwn p x (.cond .wait))
    (hnp : ∀ np, x.expects = some (np, .used) → (tb np).parent ≠ none → (tb' np).parent ≠ none) :
    x.kin p tb' D' := by
  cases x with
  | fork x =>
    cases x with
    | lock np | ready np => exact hnp np rfl hx
    | releaseWait np => exact absurd rfl hown
    | _ => trivial
  | pipeclose k writable after x =>
    cases after with
    | none => trivial
    | some status => exact hx
  | exit status x =>
    cases x with
    | start | dead => trivial
    | close | acquireWait | sched => exact ⟨hx.1, fun c hc => absurd hc (Nat.not_lt_zero _), trivial⟩
    | zombie | releaseWait => exact absurd (Or.inl rfl) hown
    | _ => exact absurd rfl hown
  | wait addr x =>
    cases x with
    | acquireWait => trivial
    | test | next | fail | free | freed => exact absurd (Or.inl rfl) hown
    | _ => exact absurd rfl hown
  | _ => trivial

theorem Loc.sleepKin_of_not_own (hown : ¬ procOwn p x (.cond .wait)) : x.sleepKin p tb := by
  cases x with
  | wait addr x =>
    cases x with
    | scan => exact absurd rfl hown
    | _ => trivial
  | _ => trivial

theorem Pc.kin_of_not_own (hpc : pc.kin p tb D)
    (hown : ¬ pc.own (procOwn p) (.proc p) (.cond .wait)) (hret : ∀ x, pc.returns x → x.Plain)
    (hnp : ∀ x np, pc = .code x → x.expects = some (np, .used) → (tb np).parent ≠ none →
      (tb' np).parent ≠ none) : pc.kin p tb' D' := by
  have hplain : ∀ x, pc.returns x → ∀ np, x.expects = some (np, .used) →
      (tb np).parent ≠ none → (tb' np).parent ≠ none :=
    fun x hx np hnp => nomatch (hret x hx).2.symm.trans hnp
  cases pc with
  | code x => exact Loc.kin_of_not_own hpc hown fun np => hnp x np rfl
  | wakeup _ _ x => exact Loc.kin_of_not_own hpc hown (hplain x rfl)
  | wakeupLocked _ _ x =>
    exact Loc.kin_of_not_own hpc (fun hx => hown (Or.inl hx)) (hplain x rfl)
  | killedLocked x y =>
    exact ⟨Loc.kin_of_not_own hpc.1 (fun hx => hown (Or.inl (Or.inl hx))) (hplain x (Or.inl rfl)),
      Loc.kin_of_not_own hpc.2 (fun hx => hown (Or.inl (Or.inr hx))) (hplain y (Or.inr rfl))⟩
  | sleepLocked _ _ x =>
    exact ⟨Loc.sleepKin_of_not_own fun hx => hown (Or.inl hx), hpc.2⟩
  | _ => exact hpc

end Kept

/-- An act that is not an assignment to the table; whoever is asleep after it was so before, and is
not passed by a scan. -/
theorem kin_next {p : Slot} {tb : Table} {act : Act CondLock Data} {D D' : Slot → Prop}
    (h : Next kernel (.proc p) i tb d pc act pc') (hact : ∀ op, act ≠ .table op)
    (hD : ∀ r, D' r → D r) (hahead : ∀ r, D' r → pc.ahead (procChan r) r → pc'.ahead (procChan r) r)
    (hpc : pc.kin p tb D) : pc'.kin p tb D' := by
  have hkin := procInstr_kin p
  have hkept : Kept tb D tb D' := ⟨fun _ => rfl, fun _ => id, hD⟩
  cases h with
  | acquire x _ _ hx | release x _ _ hx | killed _ x _ _ _ hx =>
    have hx' := hkin x
    rw [show procInstr p x = _ from hx] at hx'
    exact Pc.kin_kept (hx' tb D hpc) hkept
  | wakeup x c _ hx =>
    have hx' := hkin x
    rw [show procInstr p x = _ from hx] at hx'
    refine Loc.kin_kept (hx' tb D hpc) ⟨fun _ => rfl, fun _ => id, fun r hr => ⟨hD r hr.1, ?_⟩⟩
    exact fun hc => hr.2 ⟨hc, Nat.zero_le _⟩
  | compute x _ hx =>
    have hx' := hkin x
    rw [show procInstr p x = _ from hx] at hx'
    exact Loc.kin_kept (hx' i tb D d hpc) hkept
  | table => exact absurd rfl (hact _)
  | kkill x _ _ hx | yield _ x _ _ hx | sched x _ hx =>
    have hx' := hkin x
    rw [show procInstr p x = _ from hx] at hx'
    exact hx'
  | sleep _ x _ _ _ _ hx =>
    have hx' := hkin x
    rw [show procInstr p x = _ from hx] at hx'
    exact ⟨hx'.1 tb D hpc, hx'.2⟩
  | wakeupSelf | wakeupLock | wakeupLocked =>
    exact Loc.kin_kept hpc ⟨fun _ => rfl, fun _ => id,
      fun r hr => ⟨hD r hr.1, fun hr' => hr.2 (hahead r hr.1 hr')⟩⟩
  | wakeupDone =>
    exact Loc.kin_kept hpc ⟨fun _ => rfl, fun _ => id, fun r hr => ⟨hD r hr, hahead r hr⟩⟩
  | sleepLocked => exact hpc.2
  | relock | kkillNone | kkillHit | resumed => exact hpc tb D'
  | killedLocked _ x y =>
    split
    · exact Loc.kin_kept hpc.1 hkept
    · exact Loc.kin_kept hpc.2 hkept
  | _ => exact hpc

/-- The processes other than `p` that are asleep in `kwait`. -/
def KwaitSleepers (s : KState) (p r : Slot) : Prop := r ≠ p ∧ Dormant s r (procChan r) .wait

theorem edit_zombie {tb : Table} (h : Next kernel t i tb d pc (.edit q f) pc') (x : Proc)
    (hx : (f x).state = .zombie) : x.state = .zombie := by
  rcases edit_state h x with heq | ⟨-, hnew⟩
  · exact heq.symm.trans hx
  · exact nomatch hnew.symm.trans hx

theorem switch_zombie {tb : Table} (h : Next kernel t i tb d pc (.switch f) pc') (x : Proc)
    (hx : (f x).state = .zombie) : x.state = .zombie := by
  cases h with
  | sched => exact hx
  | sleepUnlocked | yieldLocked => exact nomatch hx

theorem State.setProc_zombie {p : Slot}
    (hf : (f (s.proc p)).state = .zombie → (s.proc p).state = .zombie)
    (h : ((s.setProc p f).proc q).state = .zombie) : (s.proc q).state = .zombie := by
  by_cases hqp : q = p
  · subst hqp
    rw [State.setProc_proc_self] at h
    exact hf h
  · rwa [State.setProc_proc_of_ne _ _ hqp] at h

theorem Base.kin_own (hs : Base s) {p : Slot}
    (hkin : (s.pc (.proc p)).kin p s.proc (KwaitSleepers s p))
    (h : Sync.step kernel s (.run (.proc p) i) = some s')
    (hassign : ¬ ∃ x op y, Assigns s (.run (.proc p) i) s' p x op y) :
    (s'.pc (.proc p)).kin p s'.proc (KwaitSleepers s' p) := by
  have hasleep : ∀ r, KwaitSleepers s' p r → KwaitSleepers s p r := by
    intro r hr
    refine ⟨hr.1, ?_⟩
    rcases hs.sound.dormant_of_step h hr.2 with hd | ⟨j, x, heq, -⟩
    · exact hd
    · cases heq
      exact absurd rfl hr.1
  have hahead : ∀ r, KwaitSleepers s' p r → (s.pc (.proc p)).ahead (procChan r) r →
      (s'.pc (.proc p)).ahead (procChan r) r :=
    fun r hr hr' => hs.sound.ahead_of_step h (by simpa using hr.1.symm) hr' hr.2
  have hparent : ∀ q, (s'.proc q).parent = (s.proc q).parent := by
    rcases (stable_of_fields fun _ parent _ => parent).step h with hkept | ⟨q, x, op, y, has⟩
    · exact hkept
    · obtain ⟨j, hj⟩ := has.label
      cases hj
      exact absurd ⟨x, op, y, has⟩ hassign
  obtain ⟨pc, act, pc', s₁, -, hpc, hnext, hacted, rfl⟩ := step_run h
  have hact : ∀ op, act ≠ .table op := by
    rintro op rfl
    cases hnext with
    | table x op y hx =>
      cases hacted
      exact hassign ⟨x, op, y, ⟨i, rfl⟩, hpc, tablePlace_of_procInstr hx, rfl⟩
  rw [hpc] at hkin hahead
  rw [State.goto_pc_self] at hahead ⊢
  refine Pc.kin_kept (kin_next hnext hact hasleep hahead hkin) ⟨hparent, fun c hc => ?_, fun _ => id⟩
  cases hacted with
  | acquire | release | data | skip => exact hc
  | table op => exact absurd rfl (hact op)
  | edit r f => exact State.setProc_zombie (edit_zombie hnext _) hc
  | switch r f => exact State.setProc_zombie (switch_zombie hnext _) hc

/-! ## The invariant -/

/-- `RUNNABLE`, `RUNNING` or `SLEEPING`. -/
def ProcState.Live : ProcState → Prop
  | .runnable | .running | .sleeping => True
  | .unused | .used | .zombie => False

/-- The process tree. -/
structure Tree (s : KState) : Prop where
  kin : ∀ p, (s.pc (.proc p)).kin p s.proc (KwaitSleepers s p)
  /-- Every parent is live. -/
  live : ∀ c q, (s.proc c).parent = some q → ProcState.Live (s.proc q).state
  init : ProcState.Live (s.proc initproc).state
  /-- Everybody else has a parent, -/
  parent : ∀ c, c ≠ initproc → ProcState.Live (s.proc c).state ∨ (s.proc c).state = .zombie →
    (s.proc c).parent ≠ none
  unused : ∀ c, (s.proc c).state = .unused → (s.proc c).parent = none
  /-- and whoever has one descends from the first process. -/
  reaches : ∀ c, (s.proc c).parent ≠ none → Forest.Reaches (family s.proc) initproc c

theorem Base.eq_of_wait (hs : Base s) {p : Slot} (hlock : s.lock (.cond .wait) = some (.proc p))
    (hpc : s.pc (.proc q) = .code x) (hown : procOwn q x (.cond .wait)) : q = p := by
  have hlock' := hs.holds.lock (.proc q) (.cond .wait) (by simp) (hpc ▸ hown)
  exact Thread.proc.inj (Option.some.inj (hlock'.symm.trans hlock))

theorem Base.live_kept (hs : Base s) (h : Sync.step kernel s a = some s')
    (hq : ProcState.Live (s.proc q).state)
    (hexit : ∀ status, s.pc (.proc q) ≠ .code (.exit status .zombie)) :
    ProcState.Live (s'.proc q).state := by
  have hmove := hs.state_move h q
  generalize (s.proc q).state = st at hmove hq
  generalize (s'.proc q).state = st' at hmove ⊢
  cases hmove with
  | same => exact hq
  | wake | dispatch | sleep | yield | ready => trivial
  | exit _ status _ hpc => exact absurd hpc (hexit status)
  | alloc | free => exact hq.elim

theorem Tree.update_unused (ht : Tree s) (hnp : (s.proc np).state = .unused) :
    Function.update (family s.proc) np none = family s.proc := by
  rw [← show family s.proc np = none from ht.unused np hnp]
  exact Function.update_eq_self ..

/-- While `p` holds `wait_lock`, nobody else changes the family, becomes a `ZOMBIE` or falls asleep
in `kwait`. -/
theorem Tree.kept_of_wait (ht : Tree s) (hs : Base s) (h : Sync.step kernel s a = some s')
    {p : Slot} (hlock : s.lock (.cond .wait) = some (.proc p)) (ha : ∀ i, a ≠ .run (.proc p) i) :
    Kept s.proc (KwaitSleepers s p) s'.proc (KwaitSleepers s' p) where
  parent c := by
    show family s'.proc c = family s.proc c
    have hmove := hs.family_move h
    generalize family s'.proc = fam at hmove ⊢
    cases hmove with
    | same => rfl
    | fork q i np heq hpc =>
      obtain rfl := hs.eq_of_wait hlock hpc rfl
      exact absurd heq (ha i)
    | adopt q i status pp heq hpc =>
      obtain rfl := hs.eq_of_wait hlock hpc rfl
      exact absurd heq (ha i)
    | alloc np hnp => rw [ht.update_unused hnp]
    | free q i addr pp heq hpc =>
      obtain rfl := hs.eq_of_wait hlock hpc (Or.inl rfl)
      exact absurd heq (ha i)
  zombie c hc := by
    have hmove := hs.state_move h c
    rw [hc] at hmove
    generalize (s.proc c).state = st at hmove ⊢
    cases hmove with
    | same => rfl
    | exit i status heq hpc =>
      obtain rfl := hs.eq_of_wait hlock hpc (Or.inl rfl)
      exact absurd heq (ha i)
  asleep r hr := by
    refine ⟨hr.1, ?_⟩
    rcases hs.sound.dormant_of_step h hr.2 with hd | ⟨i, x, -, -, hlock'⟩
    · exact hd
    · exact absurd (Thread.proc.inj (Option.some.inj (hlock'.symm.trans hlock))) hr.1

theorem Base.parent_of_used (hs : Base s) (h : Sync.step kernel s a = some s')
    (hused : (s.proc np).state = .used) (hnp : (s.proc np).parent ≠ none) :
    (s'.proc np).parent ≠ none := by
  show family s'.proc np ≠ none
  have hmove := hs.family_move h
  generalize family s'.proc = fam at hmove ⊢
  cases hmove with
  | same => exact hnp
  | fork | adopt =>
    rw [Function.update_apply]
    split
    · simp
    · exact hnp
  | alloc q hq =>
    rw [Function.update_of_ne]
    · exact hnp
    · rintro rfl
      exact nomatch hq.symm.trans hused
  | free p i addr q _ hpc =>
    rw [Function.update_of_ne]
    · exact hnp
    · rintro rfl
      exact nomatch (hs.expects p _ _ .zombie hpc rfl).symm.trans hused

theorem step_assigns {p : Slot} (hpc : s.pc (.proc p) = .code x) (hx : procInstr p x = .table op y)
    (h : Sync.step kernel s (.run (.proc p) i) = some s') :
    Assigns s (.run (.proc p) i) s' p x op y := by
  obtain ⟨act, pc', s₁, hnext, happly, rfl⟩ := next_of_code hpc h
  rw [hx] at hnext
  obtain ⟨rfl, rfl⟩ := Prod.mk.inj (Option.some.inj hnext)
  rw [← Option.some.inj happly]
  exact ⟨⟨i, rfl⟩, hpc, tablePlace_of_procInstr hx, rfl⟩

theorem proc_of_free {p pp : Slot} {addr : Bool}
    (hpc : s.pc (.proc p) = .code (.wait addr (.free pp)))
    (h : Sync.step kernel s (.run (.proc p) i) = some s') : s'.proc pp = (s.proc pp).freeproc := by
  rw [(step_assigns hpc rfl h).proc]
  exact Function.update_self ..

theorem Tree.kin_assigns (ht : Tree s) {p : Slot} (has : Assigns s a s' p x op y) :
    y.kin p s'.proc (KwaitSleepers s' p) := by
  have hkin := ht.kin p
  rw [has.pc] at hkin
  rw [has.proc]
  cases has.place with
  | parent np =>
    show family _ np ≠ none
    rw [family_editTable rfl, Function.update_self]
    exact nofun
  | adopt status pp =>
    obtain ⟨hp, hpassed, -⟩ := hkin
    refine ⟨hp, fun c hc => ?_, trivial⟩
    show family _ c ≠ some p
    rw [family_editTable rfl]
    rcases Nat.lt_succ_iff_lt_or_eq.mp hc with hlt | heq
    · rw [Function.update_of_ne (Fin.ne_of_lt hlt)]
      exact hpassed c hlt
    · obtain rfl := Fin.ext heq
      rw [Function.update_self]
      exact fun heq => hp (Option.some.inj heq).symm
  | zombie status => exact ⟨hkin.1, fun c hc => absurd hc (Nat.not_lt_zero _), trivial⟩
  | _ => trivial

theorem Tree.step_kin (ht : Tree s) (hs : Base s) (h : Sync.step kernel s a = some s')
    (p : Slot) : (s'.pc (.proc p)).kin p s'.proc (KwaitSleepers s' p) := by
  by_cases ha : ∃ i, a = .run (.proc p) i
  · obtain ⟨i, rfl⟩ := ha
    by_cases hassign : ∃ x op y, Assigns s (.run (.proc p) i) s' p x op y
    · obtain ⟨x, op, y, has⟩ := hassign
      rw [show s'.pc (.proc p) = .code y by rw [has.next, State.goto_pc_self]]
      exact ht.kin_assigns has
    · exact hs.kin_own (ht.kin p) h hassign
  · have ha' : ∀ i, a ≠ .run (.proc p) i := fun i hi => ha ⟨i, hi⟩
    have hkin := ht.kin p
    rcases hs.pc_other h ha' with ⟨hkept, -⟩ | ⟨np, q, i, y, -, -, -, -, hnew⟩ | ⟨q, -, -, hresume⟩
    · rw [hkept]
      by_cases hlock : s.lock (.cond .wait) = some (.proc p)
      · exact Pc.kin_kept hkin (ht.kept_of_wait hs h hlock ha')
      · refine Pc.kin_of_not_own hkin (fun hown => hlock ?_)
          (fun x hx => hs.returns (.proc p) x hx p rfl) fun x np hpc hx => ?_
        · exact hs.holds.lock (.proc p) _ (by simp) hown
        · exact hs.parent_of_used h (hs.expects p x np .used hpc hx)
    · rw [hnew]
      exact fun _ _ => trivial
    · rcases Pc.resume_cases hresume with ⟨c, l, y, hold, hback⟩ | ⟨y, hold, hback⟩
      · rw [hold] at hkin
        rw [hback]
        exact hkin
      · rw [hold] at hkin
        rw [hback]
        exact hkin

/-- Who becomes a `ZOMBIE` is not the first process, and has no children. -/
theorem Tree.childless (ht : Tree s) {status : ℤ}
    (hpc : s.pc (.proc q) = .code (.exit status .zombie)) :
    q ≠ initproc ∧ Forest.Leaf (family s.proc) q := by
  have hkin := ht.kin q
  rw [hpc] at hkin
  exact ⟨hkin.1, fun c => hkin.2.1 c c.isLt⟩

theorem Tree.step_init (ht : Tree s) (hs : Base s) (h : Sync.step kernel s a = some s') :
    ProcState.Live (s'.proc initproc).state :=
  hs.live_kept h ht.init fun _ hpc => (ht.childless hpc).1 rfl

theorem Base.running_of_fork (hs : Base s) {p : Slot}
    (hpc : s.pc (.proc p) = .code (.fork (.parent np))) : (s.proc p).state = .running := by
  have hfits := hs.fits p
  rwa [hpc] at hfits

theorem Tree.step_live (ht : Tree s) (hs : Base s) (h : Sync.step kernel s a = some s')
    (hc : family s'.proc c = some q) : ProcState.Live (s'.proc q).state := by
  have hold (hc : family s.proc c = some q) : ProcState.Live (s'.proc q).state :=
    hs.live_kept h (ht.live c q hc) fun _ hpc => (ht.childless hpc).2 c hc
  have hmove := hs.family_move h
  generalize family s'.proc = fam at hmove hc
  cases hmove with
  | same => exact hold hc
  | fork p i np _ hpc =>
    rw [Function.update_apply] at hc
    split at hc
    · obtain rfl := Option.some.inj hc
      refine hs.live_kept h ?_ fun _ hpc' => nomatch hpc.symm.trans hpc'
      rw [hs.running_of_fork hpc]
      trivial
    · exact hold hc
  | adopt p i status pp =>
    rw [Function.update_apply] at hc
    split at hc
    · obtain rfl := Option.some.inj hc
      exact ht.step_init hs h
    · exact hold hc
  | alloc | free =>
    rw [Function.update_apply] at hc
    split at hc
    · exact nomatch hc
    · exact hold hc

theorem Tree.step_parent (ht : Tree s) (hs : Base s) (h : Sync.step kernel s a = some s')
    (hne : c ≠ initproc) (hc : ProcState.Live (s'.proc c).state ∨ (s'.proc c).state = .zombie) :
    (s'.proc c).parent ≠ none := by
  by_cases hold : ProcState.Live (s.proc c).state ∨ (s.proc c).state = .zombie
  · have hparent := ht.parent c hne hold
    show family s'.proc c ≠ none
    have hmove := hs.family_move h
    generalize family s'.proc = fam at hmove ⊢
    cases hmove with
    | same => exact hparent
    | fork | adopt =>
      rw [Function.update_apply]
      split
      · simp
      · exact hparent
    | alloc np hnp =>
      rw [Function.update_of_ne]
      · exact hparent
      · rintro rfl
        rw [hnp] at hold
        rcases hold with hold | hold
        · exact hold.elim
        · exact nomatch hold
    | free p i addr pp ha hpc =>
      rw [Function.update_of_ne]
      · exact hparent
      · rintro rfl
        subst ha
        rw [proc_of_free hpc h] at hc
        rcases hc with hc | hc
        · exact hc.elim
        · exact nomatch hc
  · -- a new process, which `kfork` makes `RUNNABLE`
    have hmove := hs.state_move h c
    generalize hst : (s.proc c).state = st at hmove hold
    generalize (s'.proc c).state = st' at hmove hc
    cases hmove with
    | same => exact absurd hc hold
    | ready p i _ hpc =>
      have hkin := ht.kin p
      rw [hpc] at hkin
      exact hs.parent_of_used h hst hkin
    | alloc =>
      rcases hc with hc | hc
      · exact hc.elim
      · exact nomatch hc
    | free => exact absurd (Or.inr rfl) hold
    | wake | dispatch | sleep | yield | exit => exact absurd (Or.inl trivial) hold

theorem Tree.step_unused (ht : Tree s) (hs : Base s) (h : Sync.step kernel s a = some s')
    (hc : (s'.proc c).state = .unused) : (s'.proc c).parent = none := by
  have hmove := hs.state_move h c
  rw [hc] at hmove
  generalize hst : (s.proc c).state = st at hmove
  cases hmove with
  | same =>
    have hparent := ht.unused c hst
    show family s'.proc c = none
    have hmove := hs.family_move h
    generalize family s'.proc = fam at hmove ⊢
    cases hmove with
    | same => exact hparent
    | fork p i np _ hpc =>
      rw [Function.update_of_ne]
      · exact hparent
      · rintro rfl
        exact nomatch (hs.expects p _ _ .used hpc rfl).symm.trans hst
    | adopt p i status pp _ hpc =>
      rw [Function.update_of_ne]
      · exact hparent
      · rintro rfl
        have hkin := ht.kin p
        rw [hpc] at hkin
        exact nomatch hkin.2.2.symm.trans hparent
    | alloc | free =>
      rw [Function.update_apply]
      split
      · rfl
      · exact hparent
  | free p i addr ha hpc =>
    subst ha
    rw [proc_of_free hpc h]
    rfl

theorem Tree.leaf (ht : Tree s) {x : Slot} (hx : ¬ ProcState.Live (s.proc x).state) :
    Forest.Leaf (family s.proc) x := fun c hc => hx (ht.live c x hc)

theorem Tree.reaches_of_live (ht : Tree s) {p : Slot} (hp : ProcState.Live (s.proc p).state) :
    Forest.Reaches (family s.proc) initproc p := by
  by_cases hne : p = initproc
  · subst hne
    exact .root
  · exact ht.reaches p (ht.parent p hne (Or.inl hp))

theorem Tree.step_reaches (ht : Tree s) (hs : Base s) (h : Sync.step kernel s a = some s')
    (hc : family s'.proc c ≠ none) : Forest.Reaches (family s'.proc) initproc c := by
  have hmove := hs.family_move h
  generalize family s'.proc = fam at hmove hc ⊢
  cases hmove with
  | same => exact ht.reaches c hc
  | fork p i np _ hpc =>
    have hused : (s.proc np).state = .used := hs.expects p _ np .used hpc rfl
    have hleaf : Forest.Leaf (family s.proc) np := ht.leaf (by rw [hused]; exact id)
    by_cases hcnp : c = np
    · subst hcnp
      have hrunning := hs.running_of_fork hpc
      refine Forest.Reaches.hang hleaf (ht.reaches_of_live (by rw [hrunning]; trivial)) ?_
      rintro rfl
      exact nomatch hrunning.symm.trans hused
    · rw [Function.update_of_ne hcnp] at hc
      exact (ht.reaches c hc).update_leaf hleaf _ hcnp
  | adopt p i status pp _ hpc =>
    by_cases hcpp : c = pp
    · subst hcpp
      exact .step (Function.update_self ..) .root
    · rw [Function.update_of_ne hcpp] at hc
      exact (ht.reaches c hc).update_root pp
  | alloc np hnp =>
    rw [ht.update_unused hnp] at hc ⊢
    exact ht.reaches c hc
  | free p i addr pp _ hpc =>
    have hzombie : (s.proc pp).state = .zombie := hs.expects p _ pp .zombie hpc rfl
    have hcpp : c ≠ pp := by
      rintro rfl
      exact hc (Function.update_self ..)
    rw [Function.update_of_ne hcpp] at hc
    exact (ht.reaches c hc).update_leaf (ht.leaf (by rw [hzombie]; exact id)) _ hcpp

theorem Tree.step (ht : Tree s) (hs : Base s) (h : Sync.step kernel s a = some s') : Tree s' where
  kin := ht.step_kin hs h
  live _ _ hc := ht.step_live hs h hc
  init := ht.step_init hs h
  parent _ hne hc := ht.step_parent hs h hne hc
  unused _ hc := ht.step_unused hs h hc
  reaches _ hc := ht.step_reaches hs h hc

theorem bootTable_parent (c : Slot) : (bootTable c).parent = none := by
  unfold bootTable
  split <;> rfl

theorem boot_tree (data : ℕ → ℕ → UInt8) : Tree (boot data) where
  kin _ _ _ := trivial
  live c q hc := nomatch (bootTable_parent c).symm.trans hc
  init := trivial
  parent c hne hc := by
    rw [show (boot data).proc c = Proc.init from if_neg hne] at hc
    rcases hc with hc | hc
    · exact hc.elim
    · exact nomatch hc
  unused c _ := bootTable_parent c
  reaches c hc := absurd (bootTable_parent c) hc

theorem Reachable.tree (hs : Reachable s) : Tree s := by
  obtain ⟨data, h, hrun⟩ := hs
  have hinv := hrun.invariant (I := fun s => Base s ∧ Tree s) ⟨boot_base data, boot_tree data⟩
    fun _ _ _ ht _ hstep => ⟨ht.1.step hstep, ht.2.step ht.1 hstep⟩
  exact hinv.2

theorem Base.pid_kept (hs : Base s) (h : Sync.step kernel s a = some s')
    (hq : ProcState.Live (s.proc q).state) : (s'.proc q).pid = (s.proc q).pid := by
  rcases (stable_of_fields fun pid _ _ => pid).step h with hkept | ⟨p, x, op, y, has⟩
  · exact hkept q
  · rw [has.proc]
    rcases s.editTable_apply (.proc p) op q with heq | ⟨f, hf, heq⟩
    · rw [heq]
    · rw [heq]
      have hexpects := hs.expects p x q
      have hpc := has.pc
      cases has.place with
      | alloc np | allocFail np =>
        obtain ⟨rfl, -⟩ := Prod.mk.inj (Option.some.inj hf)
        rw [hexpects .unused hpc rfl] at hq
        exact hq.elim
      | free addr pp =>
        obtain ⟨rfl, -⟩ := Prod.mk.inj (Option.some.inj hf)
        rw [hexpects .zombie hpc rfl] at hq
        exact hq.elim
      | _ =>
        obtain ⟨-, rfl⟩ := Prod.mk.inj (Option.some.inj hf)
        rfl

/-- The first process forks. -/
def forkActs : List KLabel := [.dispatch 0] ++ acts 0 .fork 17

end Sync
end Xv6
