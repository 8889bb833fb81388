import Xv6.Sync.Base

/-!
# No deadlock

There are two kinds of spinlocks here, those of processes and the condition locks.  The kernel never
asks for a condition lock while it holds a lock, and for the lock of a process only while it holds
condition locks at most (`Ordered`); so the holder of the lock of a process never waits, and the
holder of a condition lock waits for the former only.

For this the locks that a thread holds have to be known exactly: `Exact` says that they are those of
its place, no fewer (as in `Holds`) and no more.
-/

namespace Xv6
namespace Sync

open Sched Transition

variable {s s' : KState} {a : KLabel} {t u : Thread} {k l m : Lock CondLock} {p q : Slot}

/-! ## The locks that are held -/

/-- The lock of the process that the thread runs. -/
def Thread.Mine : Thread → Lock CondLock → Prop
  | .proc p, m => m = .proc p
  | _, _ => False

/-- The locks that a thread holds at a place. -/
def HeldAt (t : Thread) (m : Lock CondLock) : Pc CondLock Loc → Prop
  | .code x | .wakeup _ _ x | .kkill _ _ x => own t x m
  | .sleepLocked _ lk _ => m = .cond lk ∨ t.Mine m
  | .sleepUnlocked .. | .woken .. | .yieldLocked _ | .resumed _ => t.Mine m
  | .asleep .. | .relock .. | .off _ => False
  | .wakeupLocked _ q x | .kkillLocked _ q x => own t x m ∨ m = .proc q
  | .killedLocked x _ => own t x m ∨ t.Mine m

/-- The locks with which the functions of `kernel/proc.c` are called. -/
def Tidy (t : Thread) : Pc CondLock Loc → Prop
  | .code _ => True
  | .sleepLocked _ lk x | .sleepUnlocked _ lk x | .asleep _ lk x | .woken lk x | .relock lk x =>
    ∀ m, own t x m ↔ m = .cond lk
  | .wakeup _ _ x | .wakeupLocked _ _ x | .kkill _ _ x | .kkillLocked _ _ x =>
    ∀ m, own t x m → m.IsCond
  | .killedLocked x y =>
    (∃ p, t = .proc p) ∧ ∀ m, (own t y m ↔ own t x m) ∧ (own t x m → m.IsCond)
  | .yieldLocked x | .off x | .resumed x => ∀ m, ¬ own t x m

theorem not_isCond_proc (p : Slot) : ¬ (Lock.proc p).IsCond := id

theorem Thread.mine_iff : t.Mine m ↔ ∃ p, t = .proc p ∧ m = .proc p := by
  cases t <;> simp [Thread.Mine]

/-- What an act of a thread does to the locks it holds. -/
theorem Next.held_iff {i : Input} {tb : Table} {d : Data} {pc pc' : Pc CondLock Loc}
    {act : Act CondLock Data} (h : Next kernel t i tb d pc act pc') (htidy : Tidy t pc) :
    Tidy t pc' ∧ ∀ m, HeldAt t m pc' ↔ act = .acquire m ∨ HeldAt t m pc ∧ ¬ act.takes t m := by
  have hord := kernel_ordered t
  cases h with
  | acquire x l y hx =>
    have ho := hord x
    rw [hx] at ho
    refine ⟨trivial, fun m => ?_⟩
    simp [HeldAt, Act.takes, ho.1 m, or_comm, eq_comm]
  | release x l y hx =>
    have ho := hord x
    rw [hx] at ho
    exact ⟨trivial, fun m => by simp [HeldAt, Act.takes, ho.2 m]⟩
  | compute x f hx =>
    have ho := hord x
    rw [hx] at ho
    exact ⟨trivial, fun m => by simp [HeldAt, Act.takes, ho i tb d m]⟩
  | table x op y hx =>
    have ho := hord x
    rw [hx] at ho
    exact ⟨trivial, fun m => by simp [HeldAt, Act.takes, ho m]⟩
  | sleep p x c lk y ht hx =>
    have ho := hord x
    rw [hx] at ho
    subst ht
    refine ⟨fun m => (ho.2 m).2, fun m => ?_⟩
    simp [HeldAt, Act.takes, Thread.Mine, (ho.2 m).1, or_comm, eq_comm]
  | wakeup x c y hx | kkill x pid y hx =>
    have ho := hord x
    rw [hx] at ho
    exact ⟨fun m hm => (ho m).2 ((ho m).1.mp hm), fun m => by simp [HeldAt, Act.takes, (ho m).1]⟩
  | killed p x y z ht hx =>
    have ho := hord x
    rw [hx] at ho
    obtain ⟨-, ho⟩ := ho
    subst ht
    refine ⟨⟨⟨p, rfl⟩, fun m => ⟨(ho m).2.1.trans (ho m).1.symm, ?_⟩⟩, fun m => ?_⟩
    · exact fun hm => (ho m).2.2 ((ho m).1.mp hm)
    simp [HeldAt, Act.takes, Thread.Mine, (ho m).1, or_comm, eq_comm]
  | yield p x y ht hx =>
    have ho := hord x
    rw [hx] at ho
    subst ht
    refine ⟨fun m => (ho.2 m).2, fun m => ?_⟩
    simp [HeldAt, Act.takes, Thread.Mine, (ho.2 m).1, eq_comm]
  | sched x y hx =>
    have ho := hord x
    rw [hx] at ho
    obtain ⟨p, rfl, ho⟩ := ho
    exact ⟨fun m => (ho m).2, fun m => by simp [HeldAt, Act.takes, (ho m).1]⟩
  | sleepLocked c lk x =>
    refine ⟨htidy, fun m => ?_⟩
    have hne : t.Mine m → m ≠ .cond lk := by
      rw [Thread.mine_iff]
      rintro ⟨p, -, rfl⟩
      simp
    simp [HeldAt, Act.takes]
    tauto
  | sleepUnlocked c lk x | yieldLocked x =>
    refine ⟨htidy, fun m => ?_⟩
    simp [HeldAt, Act.takes, Thread.mine_iff]
  | woken p lk x ht =>
    subst ht
    exact ⟨htidy, fun m => by simp [HeldAt, Act.takes, Thread.Mine]⟩
  | resumed p x ht =>
    subst ht
    exact ⟨trivial, fun m => by simp [HeldAt, Act.takes, Thread.Mine, htidy m]⟩
  | relock lk x => exact ⟨trivial, fun m => by simp [HeldAt, htidy m, eq_comm]⟩
  | wakeupSelf | wakeupDone | kkillNone => exact ⟨by trivial, fun m => by simp [HeldAt, Act.takes]⟩
  | wakeupLock c q x | kkillLock pid q x =>
    exact ⟨htidy, fun m => by simp [HeldAt, Act.takes, or_comm, eq_comm]⟩
  | wakeupLocked c q x | kkillMiss pid q x | kkillHit pid q x =>
    refine ⟨by first | exact htidy | trivial, fun m => ?_⟩
    have hne : own t x m → m ≠ .proc q := by
      rintro hm rfl
      exact htidy _ hm
    simp [HeldAt, Act.takes]
    tauto
  | killedLocked p x y ht =>
    subst ht
    refine ⟨trivial, fun m => ?_⟩
    have hite : own (.proc p) (if (tb p).killed then x else y) m ↔ own (.proc p) x m := by
      split
      · exact Iff.rfl
      · exact (htidy.2 m).1
    have hne : own (.proc p) x m → m ≠ .proc p := by
      rintro hm rfl
      exact (htidy.2 _).2 hm
    simp [HeldAt, Act.takes, hite, Thread.Mine]
    tauto

/-- A thread holds the locks of its place and no others, and the scheduler no condition lock. -/
structure Exact (s : KState) : Prop where
  tidy : ∀ t, Tidy t (s.pc t)
  held : ∀ t m, t ≠ .sched → (s.lock m = some t ↔ HeldAt t m (s.pc t))
  sched : ∀ m, s.lock m = some .sched → ¬ m.IsCond

theorem setLock_eq_some {w : Option Thread} :
    (s.setLock l w).lock m = some u ↔ m = l ∧ w = some u ∨ m ≠ l ∧ s.lock m = some u := by
  by_cases hm : m = l
  · simp [hm]
  · simp [State.setLock_lock_of_ne _ _ hm, hm]

/-- What an act does to the locks of the thread. -/
theorem Acted.lock_iff {act : Act CondLock Data} {x : Loc} (h : Acted s x t act s')
    (ht : t ≠ .sched) :
    s'.lock m = some t ↔ act = .acquire m ∨ s.lock m = some t ∧ ¬ act.takes t m := by
  cases h with
  | acquire l hl =>
    have hne : s.lock m = some t → m ≠ l := fun hm heq => absurd (heq ▸ hm) (by simp [hl])
    rw [setLock_eq_some, Act.acquire.injEq, eq_comm (a := l)]
    simp only [Act.takes, not_false_eq_true, and_true]
    tauto
  | release l | edit p => simp [setLock_eq_some, Act.takes, and_comm]
  | switch p f htp =>
    subst htp
    simp [setLock_eq_some, Act.takes, and_comm]
  | table | data | skip => simp [Act.takes]

/-- Who does not take the step gets no lock, unless it is the scheduler or is dispatched. -/
theorem lock_other (h : step kernel s a = some s') (ha : ∀ i, a ≠ .run u i)
    (hm : s'.lock m = some u) : s.lock m = some u ∨ (u = .sched ∧ ¬ m.IsCond) ∨
      ∃ p, a = .dispatch p ∧ u = .proc p ∧ m = .proc p := by
  cases a with
  | run t i =>
    have htu : t ≠ u := fun heq => ha i (heq ▸ rfl)
    obtain ⟨-, act, pc, s₁, -, -, -, hacted, rfl⟩ := step_run h
    rw [State.goto_lock] at hm
    cases hacted with
    | acquire l | release l | edit p =>
      rcases setLock_eq_some.mp hm with ⟨-, heq⟩ | ⟨-, hm⟩
      · simp [htu] at heq
      · exact Or.inl hm
    | switch p =>
      rcases setLock_eq_some.mp hm with ⟨rfl, heq⟩ | ⟨-, hm⟩
      · exact Or.inr (Or.inl ⟨(Option.some.inj heq).symm, id⟩)
      · exact Or.inl hm
    | table => exact Or.inl (by simpa using hm)
    | data | skip => exact Or.inl hm
  | dispatch p =>
    obtain ⟨pc, -, -, -, rfl⟩ := step_dispatch h
    rcases setLock_eq_some.mp hm with ⟨rfl, heq⟩ | ⟨-, hm⟩
    · exact Or.inr (Or.inr ⟨p, rfl, (Option.some.inj heq).symm, rfl⟩)
    · exact Or.inl hm
  | settle p =>
    obtain ⟨-, rfl⟩ := step_settle h
    rcases setLock_eq_some.mp hm with ⟨-, ⟨⟩⟩ | ⟨-, hm⟩
    exact Or.inl hm

/-- The thread that takes the step. -/
theorem Exact.step_self (hs : Exact s) {i : Input} (h : step kernel s (.run t i) = some s') :
    Tidy t (s'.pc t) ∧ ∀ m, s'.lock m = some t ↔ HeldAt t m (s'.pc t) := by
  obtain ⟨pc, act, pc', s₁, ht, rfl, hnext, hacted, rfl⟩ := step_run h
  obtain ⟨htidy, hheld⟩ := hnext.held_iff (hs.tidy t)
  rw [State.goto_pc_self]
  refine ⟨htidy, fun m => ?_⟩
  rw [State.goto_lock, hacted.lock_iff ht, hheld m, hs.held t m ht]

/-- Every other thread. -/
theorem Exact.step_other (hs : Exact s) (hbase : Base s) (h : step kernel s a = some s')
    (ha : ∀ i, a ≠ .run u i) :
    Tidy u (s'.pc u) ∧ ∀ m, u ≠ .sched → (s'.lock m = some u ↔ HeldAt u m (s'.pc u)) := by
  have htidy := hs.tidy u
  have hheld := hs.held u
  rcases hbase.pc_other h ha with ⟨hpc, hdisp⟩ | ⟨np, p, i, x, rfl, rfl, -, hoff, hpc⟩ |
    ⟨p, rfl, rfl, hpc⟩
  · rw [hpc]
    refine ⟨htidy, fun m hu => ⟨fun hm => ?_, fun hm => lock_kept h ((hheld m hu).mpr hm) hu ha⟩⟩
    rcases lock_other h ha hm with hm | ⟨rfl, -⟩ | ⟨p, rfl, rfl, -⟩
    · exact (hheld m hu).mp hm
    · exact absurd rfl hu
    · exact absurd rfl (hdisp p rfl)
  · rw [hpc]
    refine ⟨fun m => id, fun m hu => iff_of_false (fun hm => ?_) id⟩
    rcases lock_other h ha hm with hm | ⟨⟨⟩, -⟩ | ⟨q, ⟨⟩, -⟩
    exact absurd ((hheld m hu).mp hm) (by rw [hoff]; exact id)
  · have hlock : s'.lock (.proc p) = some (.proc p) := by
      obtain ⟨pc, -, -, -, rfl⟩ := step_dispatch h
      rw [State.goto_lock, State.setLock_lock_self]
    -- it held no lock before, and the scheduler has left it its own
    have hmine : ∀ m, ¬ HeldAt (.proc p) m (s.pc (.proc p)) →
        (s'.lock m = some (.proc p) ↔ Thread.Mine (.proc p) m) := by
      refine fun m hnone => ⟨fun hm => ?_, fun hm => hm ▸ hlock⟩
      rcases lock_other h ha hm with hm | ⟨⟨⟩, -⟩ | ⟨q, -, hq, hm⟩
      · exact absurd ((hheld m (by simp)).mp hm) hnone
      · rw [hm, ← Thread.proc.inj hq]
        rfl
    rcases Pc.resume_cases hpc with ⟨c, lk, x, hold, hnew⟩ | ⟨x, hold, hnew⟩ <;>
      (rw [hold] at htidy hmine; rw [hnew]; exact ⟨htidy, fun m _ => hmine m id⟩)

theorem Exact.step (hs : Exact s) (hbase : Base s) (h : step kernel s a = some s') : Exact s' where
  tidy t := by
    by_cases ha : ∃ i, a = .run t i
    · obtain ⟨i, rfl⟩ := ha
      exact (hs.step_self h).1
    · exact (hs.step_other hbase h (not_exists.mp ha)).1
  held t m ht := by
    by_cases ha : ∃ i, a = .run t i
    · obtain ⟨i, rfl⟩ := ha
      exact (hs.step_self h).2 m
    · exact (hs.step_other hbase h (not_exists.mp ha)).2 m ht
  sched m hm := by
    have ha : ∀ i, a ≠ .run .sched i := by
      rintro i rfl
      obtain ⟨-, -, -, -, hne, -⟩ := step_run h
      exact hne rfl
    rcases lock_other h ha hm with hm | ⟨-, hm⟩ | ⟨p, -, ⟨⟩, -⟩
    · exact hs.sched m hm
    · exact hm

theorem boot_exact (data : ℕ → ℕ → UInt8) : Exact (boot data) where
  tidy t := by cases t <;> simp [boot, Tidy, own, procOwn]
  held t m _ := by cases t <;> simp [boot, HeldAt, own, intrOwn]
  sched m hm := by simp [boot] at hm

theorem Reachable.exact (hs : Reachable s) : Exact s := by
  obtain ⟨data, h, hrun⟩ := hs
  have hboth : Base s ∧ Exact s := hrun.invariant (I := fun s => Base s ∧ Exact s)
    ⟨boot_base data, boot_exact data⟩
    fun _ _ _ ht _ hstep => ⟨ht.1.step hstep, ht.2.step ht.1 hstep⟩
  exact hboth.2

/-! ## Progress -/

/-- The thread `t`, which holds the lock `l`, takes its next step whatever its input is; the
scheduler is about to release the lock. -/
def Runs (s : KState) (l : Lock CondLock) : Thread → Prop
  | .sched => ∃ p, l = .proc p ∧ (step kernel s (.settle p)).isSome
  | t => ∀ i, (step kernel s (.run t i)).isSome

/-- The thread `t` spins for the lock of process `q`, which `u` holds. -/
def WaitsFor (s : KState) (t : Thread) (q : Slot) (u : Thread) : Prop :=
  (∀ i, ∃ pc, kernel.next t i s.proc s.data (s.pc t) = some (.acquire (.proc q), pc)) ∧
    s.lock (.proc q) = some u

/-- An act whose guard holds. -/
theorem runs_of_next (ht : t ≠ .sched)
    (h : ∀ i, ∃ r, kernel.next t i s.proc s.data (s.pc t) = some r ∧
      (s.apply kernel.forkret t r.1).isSome) : Runs s l t := by
  have hruns : ∀ i, (step kernel s (.run t i)).isSome := fun i => by
    obtain ⟨r, hnext, happly⟩ := h i
    simpa [step, ht, hnext] using happly
  cases t with
  | sched => exact absurd rfl ht
  | _ => exact hruns

/-- A thread about to acquire the lock of a process. -/
theorem runs_or_waits (ht : t ≠ .sched) (hl : l.IsCond)
    (h : ∀ i, ∃ pc, kernel.next t i s.proc s.data (s.pc t) = some (.acquire (.proc q), pc)) :
    Runs s l t ∨ l.IsCond ∧ ∃ q u, WaitsFor s t q u := by
  cases hq : s.lock (.proc q) with
  | none =>
    refine Or.inl (runs_of_next ht fun i => ?_)
    obtain ⟨pc, hpc⟩ := h i
    exact ⟨_, hpc, by simp [State.apply, hq]⟩
  | some u => exact Or.inr ⟨hl, q, u, h, hq⟩

/-- The holder of a lock at an instruction of the code. -/
theorem Exact.progress_code (hs : Exact s) (ht : t ≠ .sched) {x : Loc} (hpc : s.pc t = .code x)
    (hl : own t x l) : Runs s l t ∨ l.IsCond ∧ ∃ q u, WaitsFor s t q u := by
  have hlock : ∀ m, own t x m → s.lock m = some t := fun m hm => (hs.held t m ht).mpr (hpc ▸ hm)
  have ho := kernel_ordered t x
  cases hx : kernel.instr t x with
  | compute | table | wakeup | kkill =>
    exact Or.inl (runs_of_next ht fun i => ⟨_, by rw [hpc, Code.next, hx]; rfl, rfl⟩)
  | acquire k y =>
    rw [hx] at ho
    obtain ⟨hcond, hk⟩ := ho.2 l hl
    cases k with
    | cond => exact absurd trivial hk
    | proc q => exact runs_or_waits ht hcond fun i => ⟨_, by rw [hpc, Code.next, hx]; rfl⟩
  | release k y =>
    rw [hx] at ho
    exact Or.inl (runs_of_next ht fun i =>
      ⟨_, by rw [hpc, Code.next, hx]; rfl, by simp [State.apply, hlock k ho.1]⟩)
  | sleep c lk y =>
    rw [hx] at ho
    obtain ⟨⟨p, rfl⟩, ho⟩ := ho
    exact runs_or_waits ht ((ho l).1.mp hl ▸ trivial) fun i => ⟨_, by rw [hpc, Code.next, hx]; rfl⟩
  | killed y z =>
    rw [hx] at ho
    obtain ⟨⟨p, rfl⟩, ho⟩ := ho
    exact runs_or_waits ht ((ho l).2.2 hl) fun i => ⟨_, by rw [hpc, Code.next, hx]; rfl⟩
  | yield y =>
    rw [hx] at ho
    exact absurd hl (ho.2 l).1
  | sched y =>
    rw [hx] at ho
    obtain ⟨p, rfl, ho⟩ := ho
    exact Or.inl (runs_of_next ht fun i =>
      ⟨_, by rw [hpc, Code.next, hx]; rfl, by simp [State.apply, hlock _ ((ho _).1.mpr rfl)]⟩)
  | panic =>
    rw [hx] at ho
    exact absurd hl (ho l)

/-- The holder of a lock runs, or it holds a condition lock and waits for the lock of a process. -/
theorem Exact.progress (hs : Exact s) (hl : s.lock l = some t) :
    Runs s l t ∨ l.IsCond ∧ ∃ q u, WaitsFor s t q u := by
  by_cases ht : t = .sched
  · subst ht
    cases l with
    | cond => exact absurd trivial (hs.sched _ hl)
    | proc p => exact Or.inl ⟨p, rfl, by simp [Sync.step, hl]⟩
  have htidy := hs.tidy t
  have hlock : ∀ m, HeldAt t m (s.pc t) → s.lock m = some t := fun m => (hs.held t m ht).mpr
  have hheld := (hs.held t l ht).mp hl
  -- a thread that holds its own lock is that of a process
  have hmine : ∀ {P : Prop}, (∀ p, t = .proc p → l = .proc p → P) → t.Mine l → P := by
    intro P hP hm
    obtain ⟨p, hp, hlp⟩ := Thread.mine_iff.mp hm
    exact hP p hp hlp
  cases hpc : s.pc t with
  | code x =>
    rw [hpc] at hheld
    exact hs.progress_code ht hpc hheld
  | asleep | relock | off =>
    rw [hpc] at hheld
    exact hheld.elim
  | sleepLocked c lk x =>
    have hlk := hlock (.cond lk) (hpc ▸ Or.inl rfl)
    exact Or.inl (runs_of_next ht fun i => ⟨_, by rw [hpc]; rfl, by simp [State.apply, hlk]⟩)
  | sleepUnlocked | woken | yieldLocked | resumed =>
    rw [hpc] at hheld
    refine hmine (fun p hp hlp => ?_) hheld
    subst hp hlp
    exact Or.inl (runs_of_next ht fun i => ⟨_, by rw [hpc]; rfl, by simp [State.apply, hl]⟩)
  | wakeup c n x =>
    rw [hpc] at htidy hheld
    by_cases hn : n < NPROC
    · by_cases hself : t = .proc ⟨n, hn⟩
      · exact Or.inl (runs_of_next ht fun i =>
          ⟨_, by rw [hpc, Code.next, dif_pos hn, if_pos hself], rfl⟩)
      · exact runs_or_waits ht (htidy l hheld) fun i =>
          ⟨_, by rw [hpc, Code.next, dif_pos hn, if_neg hself]⟩
    · exact Or.inl (runs_of_next ht fun i => ⟨_, by rw [hpc, Code.next, dif_neg hn], rfl⟩)
  | kkill pid n x =>
    rw [hpc] at htidy hheld
    by_cases hn : n < NPROC
    · exact runs_or_waits ht (htidy l hheld) fun i => ⟨_, by rw [hpc, Code.next, dif_pos hn]⟩
    · exact Or.inl (runs_of_next ht fun i => ⟨_, by rw [hpc, Code.next, dif_neg hn], rfl⟩)
  | wakeupLocked c q x | kkillLocked pid q x =>
    have hq := hlock (.proc q) (hpc ▸ Or.inr rfl)
    exact Or.inl (runs_of_next ht fun i => ⟨_, by rw [hpc]; rfl, by simp [State.apply, hq]⟩)
  | killedLocked x y =>
    rw [hpc] at htidy
    obtain ⟨⟨p, rfl⟩, -⟩ := htidy
    have hp := hlock (.proc p) (hpc ▸ Or.inr rfl)
    exact Or.inl (runs_of_next ht fun i => ⟨_, by rw [hpc]; rfl, by simp [State.apply, hp]⟩)

/-- **The kernel never deadlocks.**  Whoever holds a lock runs, or it holds a condition lock and
spins for the lock of one process, and then the holder of that one runs. -/
theorem no_deadlock (hs : Reachable s) (hl : s.lock l = some t) :
    Runs s l t ∨ l.IsCond ∧ ∃ q u, WaitsFor s t q u ∧ Runs s (.proc q) u := by
  refine (hs.exact.progress hl).imp_right ?_
  rintro ⟨hcond, q, u, hwait⟩
  refine ⟨hcond, q, u, hwait, ?_⟩
  rcases hs.exact.progress hwait.2 with hruns | ⟨hproc, -⟩
  · exact hruns
  · exact absurd hproc (not_isCond_proc q)

/-- The first process forks and calls `wait`, where it asks for the lock of its child; the
scheduler has just switched to the child, which still holds it. -/
theorem no_deadlock_wait : ∃ s, Reachable s ∧ s.lock (.cond .wait) = some (.proc 0) ∧
    ∃ q u, WaitsFor s (.proc 0) q u ∧ Runs s (.proc q) u := by
  have hexec : ((exec (step kernel) boot₀
      ([.dispatch 0] ++ acts 0 .fork 12 ++ acts 0 (.wait false) 13 ++ [.dispatch 1])).map fun s =>
        ((s.lock (.cond .wait), s.lock (.proc 1)), s.pc (.proc 0))) =
      some ((some (.proc 0), some (.proc 1)), .code (.wait false (.lock 1))) := by
    decide +kernel
  obtain ⟨s, hs, hfields⟩ := Option.map_eq_some_iff.mp hexec
  simp only [Prod.mk.injEq] at hfields
  obtain ⟨⟨hwait, hchild⟩, hpc⟩ := hfields
  have hreach := reachable_of_exec hs
  refine ⟨s, hreach, hwait, ?_⟩
  rcases no_deadlock hreach hwait with hruns | ⟨-, hfree⟩
  · have hsome := hruns ⟨.fork, true, 0⟩
    rw [step, if_neg (by simp), hpc] at hsome
    simp [Code.next, kernel, procInstr, kwait, Instr.next, State.apply, hchild] at hsome
  · exact hfree

end Sync
end Xv6
