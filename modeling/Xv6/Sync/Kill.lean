import Xv6.Sync.Pipe

/-!
# Killing a process that goes to sleep

Each of the five loops that wait (`pipewrite`, `piperead`, `consoleread`, `sys_pause`, `kwait`) tests
`killed` and then calls `sleep`.  The test acquires and releases `p->lock`, and `sleep` acquires it
again; in between a `kkill` sets the flag of a process that is still `RUNNING`, wakes nobody, and the
process goes to sleep with the flag set.

`Loc.alive` marks the places between the test and the `sleep`.  A process gets there only by a test
that has found the flag clear (`procInstr_alive`), so as long as no `kkill` hits it there, it goes
to sleep with the flag clear; once it holds its own lock in `sleep`, a `kkill` has to wait until it
is `SLEEPING`, and then wakes it.
-/

namespace Xv6
namespace Sync

open Sched Transition

variable {x y : Loc} {p q : Slot} {i : Input} {tb : Table} {d : Data} {pc pc' : Pc CondLock Loc}
  {act : Act CondLock Data} {t : Thread}

variable {s s' : KState} {a : KLabel}

/-! ## Between the test and the sleep -/

/-- Such a place is reached from another one, or from the test. -/
def Instr.Alive (x : Loc) : KInstr → Prop
  | .acquire _ y | .release _ y | .table _ y | .sleep _ _ y | .kkill _ y | .yield y | .sched y =>
    ¬ y.alive
  | .compute f => ∀ i tb d, (f i tb d).2.alive → x.alive
  | .wakeup _ y => (y.alive → x.alive) ∧ ∀ k n j, y ≠ .pipewrite k n (.full j)
  | .killed y _ => ¬ y.alive
  | .panic => True

theorem alive_compute {f : Input → Table → Data → Data × Loc} (h : ∀ i tb d, ¬ (f i tb d).2.alive) :
    Instr.Alive x (.compute f) :=
  fun i tb d hf => absurd hf (h i tb d)

theorem Call.enter_alive (c : Call) : ¬ c.enter.alive := by
  cases c <;> exact id

theorem procInstr_alive (p : Slot) (x : Loc) : Instr.Alive x (procInstr p x) := by
  cases x with
  | user => exact alive_compute fun i _ _ => i.call.enter_alive
  | pipewrite k n x =>
    cases x with
    | loop j =>
      refine alive_compute fun i tb d => ?_
      split_ifs <;> exact id
    | full j => exact fun _ _ _ _ => trivial
    | _ => simp [procInstr, pipewrite, Instr.Alive, Loc.alive]
  | piperead k n x =>
    cases x with
    | loop =>
      refine alive_compute fun i tb d => ?_
      split_ifs <;> exact id
    | copy j =>
      refine alive_compute fun i tb d => ?_
      rw [pipereadBody]
      split_ifs <;> exact id
    | _ => simp [procInstr, piperead, Instr.Alive, Loc.alive]
  | pipeclose k writable after x =>
    cases x with
    | release => cases after <;> exact id
    | _ => simp [procInstr, pipeclose, Instr.Alive, Loc.alive]
  | consoleread target x =>
    cases x with
    | loop n =>
      refine alive_compute fun i tb d => ?_
      dsimp only [consolereadBody]
      split_ifs <;> exact id
    | _ => simp [procInstr, consoleread, Instr.Alive, Loc.alive]
  | pause n x =>
    cases x with
    | loop ticks0 =>
      refine alive_compute fun i tb d => ?_
      split_ifs <;> exact id
    | _ => simp [procInstr, pause, Instr.Alive, Loc.alive]
  | fork x =>
    cases x with
    | scan i =>
      simp only [procInstr, kfork]
      split
      · exact id
      · exact alive_compute fun _ _ _ => id
    | test np =>
      refine alive_compute fun i tb d => ?_
      split_ifs <;> exact id
    | _ => simp [procInstr, kfork, Instr.Alive, Loc.alive]
  | exit status x =>
    cases x with
    | start =>
      simp only [procInstr, kexit]
      split
      · trivial
      · exact alive_compute fun _ _ _ => id
    | close =>
      refine alive_compute fun i tb d => ?_
      split <;> exact id
    | reparent i =>
      refine alive_compute fun i tb d => ?_
      split_ifs <;> exact id
    | _ => simp [procInstr, kexit, Instr.Alive, Loc.alive]
  | wait addr x =>
    cases x with
    | scan i havekids | test pp =>
      refine alive_compute fun i tb d => ?_
      split_ifs <;> exact id
    | _ => simp [procInstr, kwait, Instr.Alive, Loc.alive]
  | fault x => cases x <;> simp [procInstr, setkilled, Instr.Alive, Loc.alive]
  | _ => simp [procInstr, Instr.Alive, Loc.alive]

/-- The thread is at `x`, or will be when the `wakeup` it is in returns. -/
def Pc.going (x : Loc) : Pc CondLock Loc → Prop
  | .code y | .wakeup _ _ y | .wakeupLocked _ _ y => y = x
  | _ => False

/-- The thread is in another function of `kernel/proc.c`, which returns to `x`; from `killed`, when
it has found the flag set. -/
def Pc.resumes (x : Loc) : Pc CondLock Loc → Prop
  | .code _ | .wakeup .. | .wakeupLocked .. => False
  | .killedLocked y _ => y = x
  | pc => pc.returns x

/-- The thread is in a `wakeup` that returns to `x`. -/
def Pc.scanning (x : Loc) : Pc CondLock Loc → Prop
  | .wakeup _ _ y | .wakeupLocked _ _ y => y = x
  | _ => False

/-- Where the flag is known to be clear, unless `X` holds. -/
structure Alive (X : KState → Slot → Prop) (s : KState) : Prop where
  clear : ∀ p x, (s.pc (.proc p)).going x → x.alive → (s.proc p).killed = false ∨ X s p
  resumes : ∀ p x, (s.pc (.proc p)).resumes x → ¬ x.alive
  scanning : ∀ p x, (s.pc (.proc p)).scanning x → ∀ k n j, x ≠ .pipewrite k n (.full j)

theorem alive_next (h : Next kernel (.proc p) i tb d pc act pc')
    (hres : ∀ x, pc.resumes x → ¬ x.alive) (hy : pc'.going y) (halive : y.alive) :
    ((∃ x z, pc = .killedLocked x z) ∧ (tb p).killed = false) ∨ ∃ x, pc.going x ∧ x.alive := by
  have hcode := procInstr_alive p
  cases h with
  | acquire x _ _ hx | release x _ _ hx | table x _ _ hx =>
    have hx' := hcode x
    rw [show procInstr p x = _ from hx] at hx'
    cases hy
    exact absurd halive hx'
  | compute x f hx =>
    have hx' := hcode x
    rw [show procInstr p x = _ from hx] at hx'
    cases hy
    exact Or.inr ⟨x, rfl, hx' i tb d halive⟩
  | wakeup x _ _ hx =>
    have hx' := hcode x
    rw [show procInstr p x = _ from hx] at hx'
    cases hy
    exact Or.inr ⟨x, rfl, hx'.1 halive⟩
  | wakeupSelf | wakeupLock | wakeupDone | wakeupLocked => exact Or.inr ⟨y, hy, halive⟩
  | relock | kkillNone | kkillHit | resumed =>
    cases hy
    exact absurd halive (hres _ rfl)
  | killedLocked q x z hq =>
    cases hq
    have hy' : (if (tb p).killed then x else z) = y := hy
    cases hk : (tb p).killed with
    | false => exact Or.inl ⟨⟨x, z, rfl⟩, rfl⟩
    | true =>
      rw [hk, if_pos rfl] at hy'
      exact absurd (hy' ▸ halive) (hres x rfl)
  | _ => exact hy.elim

theorem resumes_next (h : Next kernel (.proc p) i tb d pc act pc')
    (hres : ∀ x, pc.resumes x → ¬ x.alive) (hy : pc'.resumes y) : ¬ y.alive := by
  have hcode := procInstr_alive p
  cases h with
  | sleep _ x _ _ _ _ hx | killed _ x _ _ _ hx | kkill x _ _ hx | yield _ x _ _ hx
  | sched x _ hx =>
    have hx' := hcode x
    rw [show procInstr p x = _ from hx] at hx'
    cases hy
    exact hx'
  | sleepLocked | sleepUnlocked | woken | kkillLock | kkillMiss | yieldLocked => exact hres y hy
  | _ => exact hy.elim

theorem scanning_next (h : Next kernel (.proc p) i tb d pc act pc')
    (hscan : ∀ x, pc.scanning x → ∀ k n j, x ≠ .pipewrite k n (.full j)) (hy : pc'.scanning y) :
    ∀ k n j, y ≠ .pipewrite k n (.full j) := by
  cases h with
  | wakeup x _ _ hx =>
    have hx' := procInstr_alive p x
    rw [show procInstr p x = _ from hx] at hx'
    cases hy
    exact hx'.2
  | wakeupSelf | wakeupLock | wakeupLocked => exact hscan y hy
  | _ => exact hy.elim

theorem Alive.own_clear {X : KState → Slot → Prop} (hA : Alive X s) (hs : Base s)
    (h : step kernel s (.run (.proc p) i) = some s')
    (hX : ∀ x, (s.pc (.proc p)).going x → x.alive → X s p → X s' p) (hy : (s'.pc (.proc p)).going y)
    (halive : y.alive) : (s'.proc p).killed = false ∨ X s' p := by
  have hmove := hs.killed_move h p
  have hres := hA.resumes p
  have hclear := hA.clear p
  obtain ⟨pc, act, pc', s₁, -, hpc, hnext, hacted, rfl⟩ := step_run h
  rw [State.goto_pc_self] at hy
  -- the step is a test or starts from such a place: it does not change the flag
  have hkept : (s.proc p).killed = false →
      (((s₁.goto (.proc p) pc').proc p).killed = false) := by
    intro hfalse
    rw [hfalse] at hmove
    generalize ((s₁.goto (.proc p) pc').proc p).killed = b at hmove ⊢
    cases hmove with
    | same | free => rfl
    | kill t j x _ ha hpc' =>
      cases ha
      rw [hpc] at hpc'
      subst hpc'
      rcases alive_next hnext (hpc ▸ hres) hy halive with ⟨⟨x, z, hx⟩, -⟩ | ⟨x, hx, -⟩
      · exact nomatch hx
      · exact hx.elim
    | setkilled j _ ha hpc' =>
      rw [hpc] at hpc'
      subst hpc'
      rcases alive_next hnext (hpc ▸ hres) hy halive with ⟨⟨x, z, hx⟩, -⟩ | ⟨x, hx, hfault⟩
      · exact nomatch hx
      · cases hx
        exact hfault.elim
  rcases alive_next hnext (hpc ▸ hres) hy halive with ⟨-, hfalse⟩ | ⟨x, hx, hxalive⟩
  · exact Or.inl (hkept hfalse)
  · rcases hclear x (hpc ▸ hx) hxalive with hfalse | hXs
    · exact Or.inl (hkept hfalse)
    · exact Or.inr (hX x (hpc ▸ hx) hxalive hXs)

/-- What is true of the flag is kept by every step, if `X` is, and if a `kkill` that hits a process
between the test and the sleep makes `X` true. -/
theorem Alive.step {X : KState → Slot → Prop} (hA : Alive X s) (hs : Base s)
    (h : Sync.step kernel s a = some s')
    (hX : ∀ p x y, (s.pc (.proc p)).going x → x.alive → (s'.pc (.proc p)).going y → y.alive →
      X s p → X s' p)
    (hkill : ∀ t i q x y, a = .run t i → t ≠ .proc q → s.pc t = .kkillLocked (s.proc q).pid q x →
      (s.pc (.proc q)).going y → y.alive → X s' q) : Alive X s' := by
  constructor
  · intro p y hy halive
    by_cases ha : ∃ i, a = .run (.proc p) i
    · obtain ⟨i, rfl⟩ := ha
      exact hA.own_clear hs h (fun x hx hxalive => hX p x y hx hxalive hy halive) hy halive
    · have ha' : ∀ i, a ≠ .run (.proc p) i := fun i hi => ha ⟨i, hi⟩
      rcases hs.pc_other h ha' with
        ⟨hpc, -⟩ | ⟨np, r, i, z, -, -, -, -, hnew⟩ | ⟨r, -, -, hresume⟩
      · have hgoing : (s.pc (.proc p)).going y := hpc ▸ hy
        rcases hA.clear p y hgoing halive with hfalse | hXs
        · have hmove := hs.killed_move h p
          rw [hfalse] at hmove
          generalize hb : (s'.proc p).killed = b at hmove
          cases hmove with
          | same | free => exact Or.inl rfl
          | kill t j x _ heq hpc' =>
            have htp : t ≠ .proc p := fun htp => ha' j (htp ▸ heq)
            exact Or.inr (hkill t j p x y heq htp hpc' hgoing halive)
          | setkilled j _ heq => exact absurd heq (ha' j)
        · exact Or.inr (hX p y y hgoing halive hy halive hXs)
      · rw [hnew] at hy
        exact hy.elim
      · rcases Pc.resume_cases hresume with ⟨c, l, z, -, hback⟩ | ⟨z, -, hback⟩
        · rw [hback] at hy
          exact hy.elim
        · rw [hback] at hy
          exact hy.elim
  · intro p y hy
    by_cases ha : ∃ i, a = .run (.proc p) i
    · obtain ⟨i, rfl⟩ := ha
      have hres := hA.resumes p
      obtain ⟨pc, act, pc', s₁, -, hpc, hnext, hacted, rfl⟩ := step_run h
      rw [State.goto_pc_self] at hy
      exact resumes_next hnext (hpc ▸ hres) hy
    · rcases hs.pc_other h fun i hi => ha ⟨i, hi⟩ with
        ⟨hpc, -⟩ | ⟨np, r, i, z, -, -, -, -, hnew⟩ | ⟨r, -, -, hresume⟩
      · exact hA.resumes p y (hpc ▸ hy)
      · rw [hnew] at hy
        cases hy
        exact id
      · rcases Pc.resume_cases hresume with ⟨c, l, z, hold, hback⟩ | ⟨z, hold, hback⟩
        · rw [hback] at hy
          exact hA.resumes p y (hold ▸ hy)
        · rw [hback] at hy
          exact hA.resumes p y (hold ▸ hy)
  · intro p y hy
    by_cases ha : ∃ i, a = .run (.proc p) i
    · obtain ⟨i, rfl⟩ := ha
      have hscan := hA.scanning p
      obtain ⟨pc, act, pc', s₁, -, hpc, hnext, hacted, rfl⟩ := step_run h
      rw [State.goto_pc_self] at hy
      exact scanning_next hnext (hpc ▸ hscan) hy
    · rcases hs.pc_other h fun i hi => ha ⟨i, hi⟩ with
        ⟨hpc, -⟩ | ⟨np, r, i, z, -, -, -, -, hnew⟩ | ⟨r, -, -, hresume⟩
      · exact hA.scanning p y (hpc ▸ hy)
      · rw [hnew] at hy
        exact hy.elim
      · rcases Pc.resume_cases hresume with ⟨c, l, z, hold, hback⟩ | ⟨z, hold, hback⟩
        · rw [hback] at hy
          exact hy.elim
        · rw [hback] at hy
          exact hy.elim

theorem boot_alive (X : KState → Slot → Prop) (data : ℕ → ℕ → UInt8) : Alive X (boot data) where
  clear p x hx := hx.elim
  resumes p x hx := by cases hx; exact id
  scanning p x hx := hx.elim

/-! ## No kill is lost if none falls in between -/

/-- A `pipewrite` that will find space, and test `killed` again. -/
def FindsSpace (s : KState) (p : Slot) : Prop :=
  ∃ k n j, s.pc (.proc p) = .code (.pipewrite k n (.full j)) ∧ ¬ (s.data.pipe k).Full

/-- The process has tested `killed`, and will not test it again before it sleeps. -/
def Committed (s : KState) (q : Slot) : Prop :=
  (∃ x, (s.pc (.proc q)).going x ∧ x.alive) ∧ ¬ FindsSpace s q

/-- A `kkill` does not hit a process that is committed to sleep. -/
def Prompt (s : KState) (a : KLabel) : Prop :=
  ∀ t i q x, a = .run t i → s.pc t = .kkillLocked (s.proc q).pid q x → ¬ Committed s q

theorem FindsSpace.other_step (hs : Base s) (h : step kernel s a = some s')
    (ha : ∀ i, a ≠ .run (.proc p) i) (hp : FindsSpace s p) : FindsSpace s' p := by
  obtain ⟨k, n, j, hpc, hspace⟩ := hp
  have hlock : s.lock (.cond (.pipe k)) = some (.proc p) :=
    hs.holds.lock (.proc p) _ (by simp) (hpc ▸ ⟨by simp, rfl⟩)
  refine ⟨k, n, j, hs.code_kept h ha hpc, ?_⟩
  rw [hs.pipe_kept h hlock ha]
  exact hspace

theorem FindsSpace.step (hs : Base s) (h : Sync.step kernel s a = some s')
    (hy : (s'.pc (.proc p)).going y) (halive : y.alive) (hp : FindsSpace s p) :
    FindsSpace s' p := by
  by_cases ha : ∃ i, a = .run (.proc p) i
  · obtain ⟨i, rfl⟩ := ha
    obtain ⟨k, n, j, hpc, hspace⟩ := hp
    rw [step_compute hpc rfl h, State.goto_pc_self, pipewriteBody, if_neg hspace] at hy
    split_ifs at hy <;> cases hy <;> exact halive.elim
  · exact hp.other_step hs h fun i hi => ha ⟨i, hi⟩

theorem kill_wakes (h : step kernel s a = some s') (ha : a = .run t i)
    (hpc : s.pc t = .kkillLocked (s.proc q).pid q x) : (s'.proc q).state ≠ .sleeping := by
  subst ha
  obtain ⟨pc, act, pc', s₁, -, hpc₀, hnext, hacted, rfl⟩ := step_run h
  rw [hpc] at hpc₀
  subst hpc₀
  cases hnext with
  | kkillHit =>
    cases hacted
    rw [State.goto_proc, State.setLock_proc, State.setProc_proc_self]
    exact fun hsleeping => (Proc.sleeping_of_kkill hsleeping).2.2 rfl
  | kkillMiss _ _ _ hpid => exact absurd rfl hpid

/-- A process goes to sleep, and sleeps, with the flag clear. -/
structure Heeded (s : KState) : Prop where
  alive : Alive FindsSpace s
  entering : ∀ p chan lk x, s.pc (.proc p) = .sleepLocked chan lk x ∨
    s.pc (.proc p) = .sleepUnlocked chan lk x → (s.proc p).killed = false
  asleep : ∀ p, (s.proc p).state = .sleeping → (s.proc p).killed = false

theorem Base.killed_kept (hs : Base s) (h : Sync.step kernel s a = some s')
    (hq : (s.proc q).killed = false)
    (hkill : ∀ t i x, a = .run t i → s.pc t ≠ .kkillLocked (s.proc q).pid q x)
    (hfault : ∀ i, a = .run (.proc q) i → s.pc (.proc q) ≠ .code (.fault .set)) :
    (s'.proc q).killed = false := by
  have hmove := hs.killed_move h q
  rw [hq] at hmove
  generalize (s'.proc q).killed = b at hmove ⊢
  cases hmove with
  | same | free => rfl
  | kill t i x _ ha hpc => exact absurd hpc (hkill t i x ha)
  | setkilled i _ ha hpc => exact absurd hpc (hfault i ha)

theorem Base.not_victim (hs : Base s) (hq : s.lock (.proc q) = some (.proc q))
    (hpc : ∀ pid x, s.pc (.proc q) ≠ .kkillLocked pid q x) (ht : t ≠ .sched) (pid : ℤ) (x : Loc) :
    s.pc t ≠ .kkillLocked pid q x := by
  intro ht'
  have hlock := hs.sound.held.lock t (.proc q) ht (ht' ▸ Or.inr rfl)
  have htq := Option.some.inj (hlock.symm.trans hq)
  subst htq
  exact hpc pid x ht'

theorem Heeded.own_entering (hH : Heeded s) (hs : Base s)
    (h : step kernel s (.run (.proc p) i) = some s') {chan : ℕ} {lk : CondLock}
    (hpc' : s'.pc (.proc p) = .sleepLocked chan lk x ∨ s'.pc (.proc p) = .sleepUnlocked chan lk x) :
    (s'.proc p).killed = false := by
  obtain ⟨hfalse, hkill, hfault⟩ : (s.proc p).killed = false ∧
      (∀ pid y, s.pc (.proc p) ≠ .kkillLocked pid p y) ∧
      s.pc (.proc p) ≠ .code (.fault .set) := by
    have hclear := hH.alive.clear p
    have hentering := hH.entering p
    obtain ⟨pc, act, pc', s₁, -, hpc, hnext, -, rfl⟩ := step_run h
    rw [State.goto_pc_self] at hpc'
    rw [hpc]
    cases hnext with
    | sleep _ z c l y _ hz =>
      have halive := (sleepPlace_of_procInstr hz).2
      refine ⟨?_, by simp, ?_⟩
      · rcases hclear z (hpc ▸ rfl) halive with hfalse | ⟨k, n, j, hfull, -⟩
        · exact hfalse
        · rw [hpc] at hfull
          cases hfull
          exact nomatch hz
      · rintro ⟨⟩
        exact halive
    | sleepLocked c l y => exact ⟨hentering c l y (Or.inl hpc), by simp, by simp⟩
    | _ => rcases hpc' with hpc' | hpc' <;> exact nomatch hpc'
  refine hs.killed_kept h hfalse ?_ ?_
  · rintro t j y ⟨⟩
    exact hkill _ y
  · exact fun _ _ => hfault

theorem ne_sched_of_step (h : step kernel s (.run t i) = some s') : t ≠ .sched := by
  obtain ⟨pc, act, pc', s₁, ht, -⟩ := step_run h
  exact ht

theorem Heeded.step_entering (hH : Heeded s) (hs : Base s) (h : step kernel s a = some s')
    {chan : ℕ} {lk : CondLock}
    (hpc' : s'.pc (.proc p) = .sleepLocked chan lk x ∨ s'.pc (.proc p) = .sleepUnlocked chan lk x) :
    (s'.proc p).killed = false := by
  by_cases ha : ∃ i, a = .run (.proc p) i
  · obtain ⟨i, rfl⟩ := ha
    exact hH.own_entering hs h hpc'
  · have ha' : ∀ i, a ≠ .run (.proc p) i := fun i hi => ha ⟨i, hi⟩
    have hpc : s.pc (.proc p) = .sleepLocked chan lk x ∨
        s.pc (.proc p) = .sleepUnlocked chan lk x := by
      rcases hs.pc_other h ha' with
        ⟨hkept, -⟩ | ⟨np, r, i, z, -, -, -, -, hnew⟩ | ⟨r, -, -, hresume⟩
      · rwa [hkept] at hpc'
      · rw [hnew] at hpc'
        exact absurd hpc' (by simp)
      · rcases Pc.resume_cases hresume with ⟨c, l, z, -, hback⟩ | ⟨z, -, hback⟩
        · rw [hback] at hpc'
          exact absurd hpc' (by simp)
        · rw [hback] at hpc'
          exact absurd hpc' (by simp)
    -- it holds its own lock, so a `kkill` cannot have it
    have hlock : s.lock (.proc p) = some (.proc p) := by
      refine hs.sound.held.lock (.proc p) _ (by simp) ?_
      rcases hpc with hpc | hpc
      · exact hpc ▸ Or.inr ⟨p, rfl, rfl⟩
      · exact hpc ▸ Or.inr ⟨p, rfl, rfl⟩
    have hne : ∀ pid y, s.pc (.proc p) ≠ .kkillLocked pid p y := by
      intro pid y
      rcases hpc with hpc | hpc
      · simp [hpc]
      · simp [hpc]
    refine hs.killed_kept h (hH.entering p chan lk x hpc) ?_ ?_
    · rintro t i y rfl
      exact hs.not_victim hlock hne (ne_sched_of_step h) _ y
    · exact fun i hi => absurd hi (ha' i)

theorem Heeded.step_asleep (hH : Heeded s) (hs : Base s) (h : step kernel s a = some s')
    (hp : (s'.proc p).state = .sleeping) : (s'.proc p).killed = false := by
  have hkill : ∀ t i x, a = .run t i → s.pc t ≠ .kkillLocked (s.proc p).pid p x :=
    fun t i x ha hpc => kill_wakes h ha hpc hp
  by_cases ha : ∃ i, a = .run (.proc p) i
  · obtain ⟨i, rfl⟩ := ha
    obtain ⟨lk, x, hpc, -⟩ := hs.sound.fallAsleep h hp
    refine hs.killed_kept h (hH.entering p _ lk x (Or.inr hpc)) hkill ?_
    intro _ _ hfault
    exact nomatch hpc.symm.trans hfault
  · have ha' : ∀ i, a ≠ .run (.proc p) i := fun i hi => ha ⟨i, hi⟩
    have hsleeping := (sleeping_of_step h ha' hp).1
    exact hs.killed_kept h (hH.asleep p hsleeping) hkill fun i hi => absurd hi (ha' i)

theorem Heeded.step (hH : Heeded s) (hs : Base s) (ha : Prompt s a)
    (h : Sync.step kernel s a = some s') : Heeded s' where
  alive := by
    refine hH.alive.step hs h ?_ ?_
    · intro p x y _ _ hy halive hp
      exact hp.step hs h hy halive
    · intro t i q x y heq htq hpc hy halive
      have hspace : FindsSpace s q := by
        by_contra hno
        exact ha t i q x heq hpc ⟨⟨y, hy, halive⟩, hno⟩
      refine hspace.other_step hs h ?_
      intro j hj
      rw [heq] at hj
      cases hj
      exact htq rfl
  entering _ _ _ _ hpc := hH.step_entering hs h hpc
  asleep _ hp := hH.step_asleep hs h hp

theorem boot_heeded (data : ℕ → ℕ → UInt8) : Heeded (boot data) where
  alive := boot_alive _ data
  entering p chan lk x hpc := by rcases hpc with hpc | hpc <;> exact nomatch hpc
  asleep p hp := absurd hp ((boot_start data).awake p)

/-- The first process forks, and the child calls `sys_pause` and tests `killed`. -/
def pauseActs : List KLabel :=
  [.dispatch 0] ++ acts 0 .fork 19 ++ [.dispatch 1] ++ acts 1 (.pause 5) 9

/-- The step is not the one with which a `kkill` finds its victim. -/
def NoKill (s : KState) : KLabel → Prop
  | .run t _ =>
    match s.pc t with
    | .kkillLocked .. => False
    | _ => True
  | _ => True

instance (s : KState) (a : KLabel) : Decidable (NoKill s a) := by
  unfold NoKill
  split
  · split <;> infer_instance
  · infer_instance

theorem NoKill.prompt (h : NoKill s a) : Prompt s a := by
  rintro t i q x rfl hpc
  simp only [NoKill, hpc] at h

end Sync
end Xv6
