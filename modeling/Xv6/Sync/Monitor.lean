import Xv6.Sync.Machine

/-!
# Sleeping and waking

What holds of every system of threads, whatever code they run.

A process is dormant in `sleep(chan, lk)` from the moment it has released `lk` until a `wakeup`, a
`kkill` or the scheduler changes its state.  Two facts carry everything.  A process becomes dormant
only while it holds `lk` itself, since the release of `lk` is the step that does it.  And it holds
its own lock until it is switched out, so that a `wakeup` that has acquired this lock finds it
`SLEEPING`, not on the way there.  So as long as a thread that scans the table in `wakeup(chan)`
holds `lk`, the slots behind the scan have no process that is dormant in `sleep(chan, lk)`.
-/

namespace Xv6
namespace Sync

open Sched Transition

variable {K ι σ ℓ : Type} [DecidableEq K] {code : Code K ι σ ℓ} {s s' : State K σ ℓ}
  {a : Label ι} {p q : Slot} {t u : Thread} {l : Lock K} {lk : K} {chan : ℕ}

/-! ## Locks -/

theorem lock_kept (h : step code s a = some s') (hl : s.lock l = some u) (hu : u ≠ .sched)
    (ha : ∀ i, a ≠ .run u i) : s'.lock l = some u := by
  cases a with
  | run t i =>
    have htu : t ≠ u := fun heq => ha i (heq ▸ rfl)
    obtain ⟨-, act, pc, s₁, -, -, -, hacted, rfl⟩ := step_run h
    rw [State.goto_lock]
    cases hacted with
    | acquire m hm =>
      have hne : l ≠ m := fun heq => absurd (hl.symm.trans (heq ▸ hm)) (by simp)
      rw [State.setLock_lock_of_ne _ _ hne, hl]
    | release m hm =>
      have hne : l ≠ m := fun heq => htu (Option.some.inj ((heq ▸ hm).symm.trans hl))
      rw [State.setLock_lock_of_ne _ _ hne, hl]
    | edit p f hm =>
      have hne : l ≠ .proc p := fun heq => htu (Option.some.inj ((heq ▸ hm).symm.trans hl))
      rw [State.setLock_lock_of_ne _ _ hne, State.setProc_lock, hl]
    | data d => exact hl
    | table op => rw [State.table_lock, hl]
    | switch p f _ hm =>
      have hne : l ≠ .proc p := fun heq => htu (Option.some.inj ((heq ▸ hm).symm.trans hl))
      rw [State.setLock_lock_of_ne _ _ hne, State.setProc_lock, hl]
    | skip => exact hl
  | dispatch p =>
    obtain ⟨pc, hm, -, -, rfl⟩ := step_dispatch h
    have hne : l ≠ .proc p := fun heq => absurd (hl.symm.trans (heq ▸ hm)) (by simp)
    rw [State.goto_lock, State.setLock_lock_of_ne _ _ hne, State.setProc_lock, hl]
  | settle p =>
    obtain ⟨hm, rfl⟩ := step_settle h
    have hne : l ≠ .proc p := fun heq => hu (Option.some.inj (hl.symm.trans (heq ▸ hm)))
    rw [State.setLock_lock_of_ne _ _ hne, State.setProc_lock, hl]

/-! ## Places -/

/-- A step moves the thread that takes it, a process that is dispatched, and a new process. -/
theorem pc_of_step (h : step code s a = some s') (ha : ∀ i, a ≠ .run u i) :
    s'.pc u = s.pc u ∨
      (∃ p, u = .proc p ∧ s'.pc u = .off code.forkret ∧ (s'.proc p).state = .used) ∨
      ∃ p, u = .proc p ∧ (s.pc u).resume? = some (s'.pc u) ∧ (s'.proc p).state = .running ∧
        s'.lock (.proc p) = some u := by
  cases a with
  | run t i =>
    have htu : u ≠ t := fun heq => ha i (heq ▸ rfl)
    obtain ⟨-, act, pc, s₁, -, -, -, hacted, rfl⟩ := step_run h
    rw [State.goto_pc_of_ne _ _ htu]
    cases hacted with
    | table op =>
      rcases s.table_pc code.forkret t op u with hpc | ⟨np, hop, hu, hpc⟩
      · exact Or.inl hpc
      · subst hop
        refine Or.inr (Or.inl ⟨np, hu, hpc, ?_⟩)
        rw [State.goto_proc, State.table_proc, State.editTable_alloc]
        cases t.myproc <;> rfl
    | _ => exact Or.inl rfl
  | dispatch p =>
    obtain ⟨pc, -, -, hpc, rfl⟩ := step_dispatch h
    by_cases hu : u = .proc p
    · subst hu
      refine Or.inr (Or.inr ⟨p, rfl, ?_, ?_, ?_⟩)
      · rw [State.goto_pc_self]
        exact hpc
      · rw [State.goto_proc, State.setLock_proc, State.setProc_proc_self]
        rfl
      · rw [State.goto_lock, State.setLock_lock_self]
    · exact Or.inl (State.goto_pc_of_ne _ _ hu)
  | settle p =>
    obtain ⟨-, rfl⟩ := step_settle h
    exact Or.inl rfl

omit [DecidableEq K] in
theorem Pc.resume_cases {pc pc' : Pc K ℓ} (h : pc.resume? = some pc') :
    (∃ c lk x, pc = .asleep c lk x ∧ pc' = .woken lk x) ∨ ∃ x, pc = .off x ∧ pc' = .resumed x := by
  cases pc with
  | asleep c lk x => exact Or.inl ⟨c, lk, x, rfl, (Option.some.inj h).symm⟩
  | off x => exact Or.inr ⟨x, rfl, (Option.some.inj h).symm⟩
  | _ => exact absurd h (by simp [Pc.resume?])

/-! ## Locks that a thread holds at a place -/

/-- The locks that a thread holds at a place, if it holds the locks `own` between the calls of the
functions of `kernel/proc.c`. -/
def Pc.own (own : ℓ → Lock K → Prop) (t : Thread) (m : Lock K) : Pc K ℓ → Prop
  | .code x => own x m
  | .sleepLocked _ _ x => own x m ∨ ∃ p, t = .proc p ∧ m = .proc p
  | .sleepUnlocked _ lk x => own x m ∧ m ≠ .cond lk ∨ ∃ p, t = .proc p ∧ m = .proc p
  | .asleep _ lk x => own x m ∧ m ≠ .cond lk
  | .woken lk x => own x m ∧ m ≠ .cond lk ∨ ∃ p, t = .proc p ∧ m = .proc p
  | .relock lk x => own x m ∧ m ≠ .cond lk
  | .wakeup _ _ x | .kkill _ _ x | .off x => own x m
  | .wakeupLocked _ q x | .kkillLocked _ q x => own x m ∨ m = .proc q
  | .killedLocked x y => (own x m ∨ own y m) ∨ ∃ p, t = .proc p ∧ m = .proc p
  | .yieldLocked x | .resumed x => own x m ∨ ∃ p, t = .proc p ∧ m = .proc p

/-- The places to which a function of `kernel/proc.c` returns. -/
def Pc.returns (x : ℓ) : Pc K ℓ → Prop
  | .code _ => False
  | .killedLocked y z => x = y ∨ x = z
  | .sleepLocked _ _ y | .sleepUnlocked _ _ y | .asleep _ _ y | .woken _ y | .relock _ y
  | .wakeup _ _ y | .wakeupLocked _ _ y | .kkill _ _ y | .kkillLocked _ _ y | .yieldLocked y
  | .off y | .resumed y => x = y

/-- A function of `kernel/proc.c` is called at `x` and returns to `y`: no lock of a process is
held. -/
def Calls (own : ℓ → Lock K → Prop) (x y : ℓ) : Prop :=
  (∀ m, own y m → own x m) ∧ ∀ q, ¬ own y (.proc q)

/-- An instruction keeps the locks that are held at the place it leads to. -/
def Instr.Disciplined (own : ℓ → Lock K → Prop) (x : ℓ) : Instr K ι σ ℓ → Prop
  | .acquire l y => ∀ m, own y m → own x m ∨ m = l
  | .release l y => ∀ m, own y m → own x m ∧ m ≠ l
  | .compute f => ∀ i tb d m, own (f i tb d).2 m → own x m
  | .table _ y => ∀ m, own y m → own x m
  | .sleep _ _ y | .wakeup _ y | .kkill _ y | .yield y | .sched y => Calls own x y
  | .killed y z => Calls own x y ∧ Calls own x z
  | .panic => True

/-- Code that holds the locks `own` says. -/
structure Disciplined (code : Code K ι σ ℓ) (own : Thread → ℓ → Lock K → Prop) : Prop where
  instr : ∀ t x, (code.instr t x).Disciplined (own t) x
  forkret : ∀ t m, ¬ own t code.forkret m

/-- The locks that an act gives away. -/
def Act.takes (t : Thread) (m : Lock K) : Act K σ → Prop
  | .release l => m = l
  | .edit p _ => m = .proc p
  | .switch _ => ∃ p, t = .proc p ∧ m = .proc p
  | _ => False

theorem Acted.lock_kept {act : Act K σ} {forkret : ℓ} (h : Acted s forkret t act s')
    (hl : s.lock l = some t) (hact : ¬ act.takes t l) : s'.lock l = some t := by
  cases h with
  | acquire m hm =>
    by_cases heq : l = m
    · rw [heq, State.setLock_lock_self]
    · rw [State.setLock_lock_of_ne _ _ heq, hl]
  | release m hm => rw [State.setLock_lock_of_ne _ _ hact, hl]
  | edit p f => rw [State.setLock_lock_of_ne _ _ hact, State.setProc_lock, hl]
  | data => exact hl
  | table op => rw [State.table_lock, hl]
  | switch p f ht =>
    have hne : l ≠ .proc p := fun heq => hact ⟨p, ht, heq⟩
    rw [State.setLock_lock_of_ne _ _ hne, State.setProc_lock, hl]
  | skip => exact hl

section Own

variable {own : Thread → ℓ → Lock K → Prop} {i : ι} {tb : Table} {d : σ} {pc pc' : Pc K ℓ}
  {act : Act K σ}

omit [DecidableEq K]

/-- A lock that is held after an act was acquired by it, or was held before and is kept. -/
theorem Next.own_cases (hcode : Disciplined code own) (h : Next code t i tb d pc act pc')
    (hret : ∀ x, pc.returns x → ∀ q, ¬ own t x (.proc q)) (hl : pc'.own (own t) t l) :
    act = .acquire l ∨ pc.own (own t) t l ∧ ¬ act.takes t l := by
  cases h with
  | acquire x m y hx =>
    have hd := hcode.instr t x
    rw [hx] at hd
    rcases hd l hl with hx | rfl
    · exact Or.inr ⟨hx, id⟩
    · exact Or.inl rfl
  | release x m y hx =>
    have hd := hcode.instr t x
    rw [hx] at hd
    exact Or.inr (hd l hl)
  | compute x f hx =>
    have hd := hcode.instr t x
    rw [hx] at hd
    exact Or.inr ⟨hd _ _ _ l hl, id⟩
  | table x op y hx =>
    have hd := hcode.instr t x
    rw [hx] at hd
    exact Or.inr ⟨hd l hl, id⟩
  | sleep p x c lk y ht hx | yield p x y ht hx =>
    have hd := hcode.instr t x
    rw [hx] at hd
    subst ht
    rcases hl with hl | ⟨p', hp', rfl⟩
    · exact Or.inr ⟨hd.1 l hl, id⟩
    · cases hp'
      exact Or.inl rfl
  | killed p x y z ht hx =>
    have hd := hcode.instr t x
    rw [hx] at hd
    subst ht
    rcases hl with (hl | hl) | ⟨p', hp', rfl⟩
    · exact Or.inr ⟨hd.1.1 l hl, id⟩
    · exact Or.inr ⟨hd.2.1 l hl, id⟩
    · cases hp'
      exact Or.inl rfl
  | wakeup x c y hx | kkill x pid y hx =>
    have hd := hcode.instr t x
    rw [hx] at hd
    exact Or.inr ⟨hd.1 l hl, id⟩
  | sched x y hx =>
    have hd := hcode.instr t x
    rw [hx] at hd
    refine Or.inr ⟨hd.1 l hl, ?_⟩
    rintro ⟨p, -, rfl⟩
    exact hd.2 p hl
  | sleepLocked c lk x =>
    rcases hl with ⟨hl, hne⟩ | ⟨p, rfl, rfl⟩
    · exact Or.inr ⟨Or.inl hl, hne⟩
    · exact Or.inr ⟨Or.inr ⟨p, rfl, rfl⟩, fun heq => nomatch heq⟩
  | sleepUnlocked c lk x =>
    refine Or.inr ⟨Or.inl hl, ?_⟩
    rintro ⟨p, -, rfl⟩
    exact hret x rfl p hl.1
  | woken p lk x ht =>
    refine Or.inr ⟨Or.inl hl, ?_⟩
    rintro rfl
    exact hret x rfl p hl.1
  | relock lk x =>
    by_cases heq : l = .cond lk
    · exact Or.inl (by rw [heq])
    · exact Or.inr ⟨⟨hl, heq⟩, id⟩
  | wakeupSelf | wakeupDone | kkillNone => exact Or.inr ⟨hl, id⟩
  | wakeupLock c q x | kkillLock pid q x =>
    rcases hl with hl | rfl
    · exact Or.inr ⟨hl, id⟩
    · exact Or.inl rfl
  | wakeupLocked c q x | kkillHit pid q x | kkillMiss pid q x =>
    refine Or.inr ⟨Or.inl hl, ?_⟩
    rintro rfl
    exact hret x rfl q hl
  | killedLocked p x y ht =>
    have hxy : own t x l ∨ own t y l := by
      change own t (if (tb p).killed then x else y) l at hl
      split at hl
      · exact Or.inl hl
      · exact Or.inr hl
    refine Or.inr ⟨Or.inl hxy, ?_⟩
    rintro rfl
    rcases hxy with h | h
    · exact hret x (Or.inl rfl) p h
    · exact hret y (Or.inr rfl) p h
  | yieldLocked x =>
    refine Or.inr ⟨Or.inl hl, ?_⟩
    rintro ⟨p, -, rfl⟩
    exact hret x rfl p hl
  | resumed p x ht =>
    refine Or.inr ⟨Or.inl hl, ?_⟩
    rintro rfl
    exact hret x rfl p hl

end Own

/-- An instruction that calls a function of `kernel/proc.c` lets it return to a place with `P`. -/
def Instr.ReturnsTo (P : ℓ → Prop) : Instr K ι σ ℓ → Prop
  | .acquire .. | .release .. | .compute _ | .table .. | .panic => True
  | .sleep _ _ y | .wakeup _ y | .kkill _ y | .yield y | .sched y => P y
  | .killed y z => P y ∧ P z

omit [DecidableEq K] in
theorem Instr.ReturnsTo.mono {P Q : ℓ → Prop} {ins : Instr K ι σ ℓ} (h : ins.ReturnsTo P)
    (hPQ : ∀ y, P y → Q y) : ins.ReturnsTo Q := by
  cases ins with
  | acquire | release | compute | table | panic => trivial
  | killed => exact ⟨hPQ _ h.1, hPQ _ h.2⟩
  | _ => exact hPQ _ h

omit [DecidableEq K] in
theorem Instr.returnsTo_of_forall {P : ℓ → Prop} (ins : Instr K ι σ ℓ) (h : ∀ y, P y) :
    ins.ReturnsTo P := by
  cases ins with
  | acquire | release | compute | table | panic => trivial
  | killed => exact ⟨h _, h _⟩
  | _ => exact h _

omit [DecidableEq K] in
theorem Next.returns {P : ℓ → Prop} {i : ι} {tb : Table} {d : σ} {pc pc' : Pc K ℓ} {act : Act K σ}
    (hcode : ∀ x, (code.instr t x).ReturnsTo P) (h : Next code t i tb d pc act pc') {y : ℓ}
    (hy : pc'.returns y) : pc.returns y ∨ P y := by
  cases h with
  | acquire | release | compute | table | relock | wakeupDone | killedLocked | kkillNone | kkillHit
  | resumed => exact hy.elim
  | sleep p x _ _ _ _ hx | wakeup x _ _ hx | kkill x _ _ hx | yield p x _ _ hx | sched x _ hx =>
    have hP := hcode x
    rw [hx] at hP
    cases hy
    exact Or.inr hP
  | killed p x _ _ _ hx =>
    have hP := hcode x
    rw [hx] at hP
    rcases hy with rfl | rfl
    · exact Or.inr hP.1
    · exact Or.inr hP.2
  | _ => exact Or.inl hy

theorem returns_of_step {P : Thread → ℓ → Prop}
    (hcode : ∀ t x, (code.instr t x).ReturnsTo (P t)) (hforkret : ∀ t, P t code.forkret)
    (hs : ∀ t x, (s.pc t).returns x → P t x) (h : step code s a = some s') {x : ℓ}
    (hx : (s'.pc u).returns x) : P u x := by
  by_cases ha : ∃ i, a = .run u i
  · obtain ⟨i, rfl⟩ := ha
    obtain ⟨pc, act, pc', s₁, -, heq, hnext, -, rfl⟩ := step_run h
    rw [State.goto_pc_self] at hx
    rcases hnext.returns (hcode u) hx with hpc | hP
    · exact hs u x (heq ▸ hpc)
    · exact hP
  · have ha' : ∀ i, a ≠ .run u i := fun i hi => ha ⟨i, hi⟩
    rcases pc_of_step h ha' with hpc | ⟨p, -, hpc, -⟩ | ⟨p, rfl, hpc, -, -⟩
    · exact hs u x (hpc ▸ hx)
    · rw [hpc] at hx
      cases hx
      exact hforkret u
    · rcases Pc.resume_cases hpc with ⟨c, lk, y, hold, hnew⟩ | ⟨y, hold, hnew⟩
      · rw [hnew] at hx
        exact hs _ x (hold ▸ hx)
      · rw [hnew] at hx
        exact hs _ x (hold ▸ hx)

omit [DecidableEq K] in
theorem Instr.Disciplined.returnsTo {own : ℓ → Lock K → Prop} {x : ℓ} {ins : Instr K ι σ ℓ}
    (h : ins.Disciplined own x) : ins.ReturnsTo fun y => ∀ q, ¬ own y (.proc q) := by
  cases ins with
  | acquire | release | compute | table | panic => trivial
  | killed => exact ⟨h.1.2, h.2.2⟩
  | _ => exact h.2

/-- Every thread holds the locks that its place says. -/
structure Holds (own : Thread → ℓ → Lock K → Prop) (s : State K σ ℓ) : Prop where
  lock : ∀ t l, t ≠ .sched → (s.pc t).own (own t) t l → s.lock l = some t
  returns : ∀ t x, (s.pc t).returns x → ∀ q, ¬ own t x (.proc q)

theorem Holds.step {own : Thread → ℓ → Lock K → Prop} (hcode : Disciplined code own)
    (hs : Holds own s) (h : step code s a = some s') : Holds own s' := by
  constructor
  · intro u l hu hl
    by_cases ha : ∃ i, a = .run u i
    · obtain ⟨i, rfl⟩ := ha
      obtain ⟨pc, act, pc', s₁, -, heq, hnext, hacted, rfl⟩ := step_run h
      rw [State.goto_pc_self] at hl
      rw [State.goto_lock]
      rcases hnext.own_cases hcode (heq ▸ hs.returns u) hl with rfl | ⟨hpc, htakes⟩
      · cases hacted
        rw [State.setLock_lock_self]
      · exact hacted.lock_kept (hs.lock u l hu (heq ▸ hpc)) htakes
    · have ha' : ∀ i, a ≠ .run u i := fun i hi => ha ⟨i, hi⟩
      rcases pc_of_step h ha' with hpc | ⟨p, -, hpc, -⟩ | ⟨p, rfl, hpc, -, hlock⟩
      · rw [hpc] at hl
        exact lock_kept h (hs.lock u l hu hl) hu ha'
      · rw [hpc] at hl
        exact absurd hl (hcode.forkret u l)
      · rcases Pc.resume_cases hpc with ⟨c, lk, x, hold, hnew⟩ | ⟨x, hold, hnew⟩
        · rw [hnew] at hl
          rcases hl with hl | ⟨p', hp', rfl⟩
          · exact lock_kept h (hs.lock _ l hu (hold ▸ hl)) hu ha'
          · cases hp'
            exact hlock
        · rw [hnew] at hl
          rcases hl with hl | ⟨p', hp', rfl⟩
          · exact lock_kept h (hs.lock _ l hu (hold ▸ hl)) hu ha'
          · cases hp'
            exact hlock
  · intro u x hx
    exact returns_of_step (P := fun t y => ∀ q, ¬ own t y (.proc q))
      (fun t y => (hcode.instr t y).returnsTo) (fun t q => hcode.forkret t _) hs.returns h hx

/-! ## Dormant processes -/

/-- Process `p` is in `sleep(chan, lk)`, has released `lk`, and has not been woken. -/
def Dormant (s : State K σ ℓ) (p : Slot) (chan : ℕ) (lk : K) : Prop :=
  (∃ x, s.pc (.proc p) = .sleepUnlocked chan lk x) ∨
    (∃ x, s.pc (.proc p) = .asleep chan lk x) ∧ (s.proc p).state = .sleeping

omit [DecidableEq K] in
/-- An edit that another process makes of a slot, if that is `SLEEPING` afterwards. -/
theorem Next.sleeping_of_edit {i : ι} {tb : Table} {d : σ} {pc pc' : Pc K ℓ} {f : Proc → Proc}
    (h : Next code t i tb d pc (.edit p f) pc') (ht : t ≠ .proc p) {x : Proc}
    (hx : (f x).state = .sleeping) :
    x.state = .sleeping ∧ (f x).chan = x.chan ∧ ∀ c y, pc = .wakeupLocked c p y → x.chan ≠ c := by
  cases h with
  | woken _ _ _ hp => exact absurd hp ht
  | wakeupLocked c =>
    obtain ⟨heq, hstate, hchan⟩ := Proc.sleeping_of_wakeup hx
    dsimp only
    rw [heq]
    refine ⟨hstate, rfl, ?_⟩
    intro c' y hpc
    cases hpc
    exact hchan
  | killedLocked _ _ _ hp => exact absurd hp ht
  | kkillHit pid | kkillMiss pid =>
    obtain ⟨heq, hstate, -⟩ := Proc.sleeping_of_kkill hx
    dsimp only
    rw [heq]
    exact ⟨hstate, rfl, by simp⟩
  | resumed _ _ hp => exact absurd hp ht

/-- No other thread puts a process to sleep, or changes the channel of one that sleeps. -/
theorem sleeping_of_step (h : step code s a = some s') (ha : ∀ i, a ≠ .run (.proc p) i)
    (hp : (s'.proc p).state = .sleeping) :
    (s.proc p).state = .sleeping ∧ (s'.proc p).chan = (s.proc p).chan := by
  cases a with
  | run t i =>
    have htp : t ≠ .proc p := fun heq => ha i (heq ▸ rfl)
    obtain ⟨pc, act, pc', s₁, -, -, hnext, hacted, rfl⟩ := step_run h
    rw [State.goto_proc] at hp ⊢
    cases hacted with
    | acquire | release | data | skip => exact ⟨hp, rfl⟩
    | table op =>
      rw [State.table_proc] at hp ⊢
      exact s.sleeping_of_editTable t op hp
    | edit q f =>
      rw [State.setLock_proc] at hp ⊢
      by_cases hpq : p = q
      · subst hpq
        rw [State.setProc_proc_self] at hp ⊢
        obtain ⟨hsleeping, hchan, -⟩ := hnext.sleeping_of_edit htp hp
        exact ⟨hsleeping, hchan⟩
      · rw [State.setProc_proc_of_ne _ _ hpq] at hp ⊢
        exact ⟨hp, rfl⟩
    | switch q f ht =>
      have hpq : p ≠ q := fun heq => htp (heq ▸ ht)
      rw [State.setLock_proc, State.setProc_proc_of_ne _ _ hpq] at hp ⊢
      exact ⟨hp, rfl⟩
  | dispatch q =>
    obtain ⟨pc, -, -, -, rfl⟩ := step_dispatch h
    rw [State.goto_proc, State.setLock_proc] at hp ⊢
    by_cases hpq : p = q
    · subst hpq
      rw [State.setProc_proc_self] at hp
      exact absurd hp (by simp [Proc.run])
    · rw [State.setProc_proc_of_ne _ _ hpq] at hp ⊢
      exact ⟨hp, rfl⟩
  | settle q =>
    obtain ⟨-, rfl⟩ := step_settle h
    rw [State.setLock_proc] at hp ⊢
    by_cases hpq : p = q
    · subst hpq
      rw [State.setProc_proc_self] at hp ⊢
      rw [Proc.demote_state] at hp
      exact ⟨hp, Proc.demote_chan _⟩
    · rw [State.setProc_proc_of_ne _ _ hpq] at hp ⊢
      exact ⟨hp, rfl⟩

/-! ## What holds of every reachable state -/

/-- No lock is held between the calls, as far as anyone knows. -/
def ownNone : Thread → ℓ → Lock K → Prop := fun _ _ _ => False

omit [DecidableEq K] in
theorem disciplined_ownNone : Disciplined code ownNone where
  instr t x := by cases code.instr t x <;> simp [Instr.Disciplined, ownNone, Calls]
  forkret _ _ := id

/-- The functions of `kernel/proc.c` hold the locks they have acquired, and a `SLEEPING` process is
switched out in `sleep` on its channel. -/
structure Sound (s : State K σ ℓ) : Prop where
  held : Holds ownNone s
  sleeping : ∀ p, (s.proc p).state = .sleeping →
    ∃ lk x, s.pc (.proc p) = .asleep (s.proc p).chan lk x

omit [DecidableEq K] in
theorem Next.state_of_edit {i : ι} {tb : Table} {d : σ} {pc pc' : Pc K ℓ} {f : Proc → Proc}
    (h : Next code t i tb d pc (.edit p f) pc') {x : Proc} (hx : (f x).state = .sleeping) :
    x.state = .sleeping := by
  cases h with
  | woken | killedLocked | resumed => exact hx
  | wakeupLocked => exact (Proc.sleeping_of_wakeup hx).2.1
  | kkillHit | kkillMiss => exact (Proc.sleeping_of_kkill hx).2.1

theorem Sound.awake {i : ι} (hs : Sound s) (h : step code s (.run (.proc p) i) = some s') :
    (s.proc p).state ≠ .sleeping := by
  intro hsleeping
  obtain ⟨lk, x, hpc⟩ := hs.sleeping p hsleeping
  obtain ⟨pc, act, pc', s₁, -, heq, hnext, -, -⟩ := step_run h
  rw [heq] at hpc
  subst hpc
  cases hnext

/-- A process falls asleep by its own step, the call of `sched` in `sleep`. -/
theorem Sound.fallAsleep {i : ι} (hs : Sound s) (h : step code s (.run (.proc p) i) = some s')
    (hp : (s'.proc p).state = .sleeping) :
    ∃ lk x, s.pc (.proc p) = .sleepUnlocked (s'.proc p).chan lk x ∧
      s'.pc (.proc p) = .asleep (s'.proc p).chan lk x := by
  have hawake := hs.awake h
  obtain ⟨pc, act, pc', s₁, -, heq, hnext, hacted, rfl⟩ := step_run h
  rw [State.goto_proc] at hp
  cases hacted with
  | acquire | release | data | skip => exact absurd hp hawake
  | table op =>
    rw [State.table_proc] at hp
    exact absurd (s.sleeping_of_editTable _ op hp).1 hawake
  | edit q f =>
    rw [State.setLock_proc] at hp
    by_cases hpq : p = q
    · subst hpq
      rw [State.setProc_proc_self] at hp
      exact absurd (hnext.state_of_edit hp) hawake
    · rw [State.setProc_proc_of_ne _ _ hpq] at hp
      exact absurd hp hawake
  | switch q f ht =>
    cases ht
    rw [State.setLock_proc, State.setProc_proc_self] at hp
    cases hnext with
    | sched => exact absurd hp hawake
    | sleepUnlocked chan lk x =>
      have hchan : ((((s.setProc p (Proc.fallAsleep chan)).setLock (.proc p) (some .sched)).goto
          (.proc p) (.asleep chan lk x)).proc p).chan = chan := by
        rw [State.goto_proc, State.setLock_proc, State.setProc_proc_self]
        rfl
      rw [hchan, State.goto_pc_self]
      exact ⟨lk, x, heq, rfl⟩
    | yieldLocked => exact absurd hp (by simp [Proc.giveWay])

theorem Sound.step_sleeping (hs : Sound s) (h : step code s a = some s')
    (hp : (s'.proc p).state = .sleeping) :
    ∃ lk x, s'.pc (.proc p) = .asleep (s'.proc p).chan lk x := by
  by_cases ha : ∃ i, a = .run (.proc p) i
  · obtain ⟨i, rfl⟩ := ha
    obtain ⟨lk, x, -, hpc⟩ := hs.fallAsleep h hp
    exact ⟨lk, x, hpc⟩
  · have ha' : ∀ i, a ≠ .run (.proc p) i := fun i hi => ha ⟨i, hi⟩
    obtain ⟨hsleeping, hchan⟩ := sleeping_of_step h ha' hp
    obtain ⟨lk, x, hpc⟩ := hs.sleeping p hsleeping
    rw [← hchan] at hpc
    rcases pc_of_step h ha' with hkept | ⟨q, hq, -, hused⟩ | ⟨q, hq, -, hrunning, -⟩
    · exact ⟨lk, x, hkept.trans hpc⟩
    · cases hq
      exact absurd (hused.symm.trans hp) (by simp)
    · cases hq
      exact absurd (hrunning.symm.trans hp) (by simp)

theorem Sound.step (hs : Sound s) (h : step code s a = some s') : Sound s' where
  held := hs.held.step disciplined_ownNone h
  sleeping _ hp := hs.step_sleeping h hp

/-- **Going dormant.**  A process becomes dormant in `sleep(chan, lk)` by releasing `lk`. -/
theorem Sound.dormant_of_step (hs : Sound s) (h : Sync.step code s a = some s')
    (hd : Dormant s' p chan lk) :
    Dormant s p chan lk ∨ ∃ i x, a = .run (.proc p) i ∧
      s.pc (.proc p) = .sleepLocked chan lk x ∧ s.lock (.cond lk) = some (.proc p) := by
  by_cases ha : ∃ i, a = .run (.proc p) i
  · obtain ⟨i, rfl⟩ := ha
    rcases hd with ⟨x, hpc⟩ | ⟨⟨x, hpc⟩, hsleeping⟩
    · obtain ⟨pc, act, pc', s₁, -, heq, hnext, hacted, rfl⟩ := step_run h
      rw [State.goto_pc_self] at hpc
      subst hpc
      cases hnext with
      | sleepLocked =>
        cases hacted with
        | release _ hl => exact Or.inr ⟨i, x, rfl, heq, hl⟩
    · obtain ⟨lk', x', hpc₀, hpc₁⟩ := hs.fallAsleep h hsleeping
      rw [hpc₁] at hpc
      cases hpc
      exact Or.inl (Or.inl ⟨x, hpc₀⟩)
  · have ha' : ∀ i, a ≠ .run (.proc p) i := fun i hi => ha ⟨i, hi⟩
    left
    have hpc : s'.pc (.proc p) = s.pc (.proc p) := by
      rcases pc_of_step h ha' with hkept | ⟨q, -, hoff, -⟩ | ⟨q, -, hresume, -⟩
      · exact hkept
      · rcases hd with ⟨x, hpc⟩ | ⟨⟨x, hpc⟩, -⟩
        · exact absurd (hoff.symm.trans hpc) (by simp)
        · exact absurd (hoff.symm.trans hpc) (by simp)
      · rcases Pc.resume_cases hresume with ⟨c, lk, x, -, hback⟩ | ⟨x, -, hback⟩
        · rcases hd with ⟨x, hpc⟩ | ⟨⟨x, hpc⟩, -⟩
          · exact absurd (hback.symm.trans hpc) (by simp)
          · exact absurd (hback.symm.trans hpc) (by simp)
        · rcases hd with ⟨x, hpc⟩ | ⟨⟨x, hpc⟩, -⟩
          · exact absurd (hback.symm.trans hpc) (by simp)
          · exact absurd (hback.symm.trans hpc) (by simp)
    rcases hd with ⟨x, hx⟩ | ⟨⟨x, hx⟩, hsleeping⟩
    · exact Or.inl ⟨x, hpc ▸ hx⟩
    · exact Or.inr ⟨⟨x, hpc ▸ hx⟩, (sleeping_of_step h ha' hsleeping).1⟩

/-! ## The scan of `wakeup` -/

/-- The scan of `wakeup(chan)` at this place has not passed slot `p`. -/
def Pc.ahead (chan : ℕ) (p : Slot) : Pc K ℓ → Prop
  | .wakeup c i _ => c = chan ∧ i ≤ p
  | .wakeupLocked c q _ => c = chan ∧ q ≤ p
  | _ => False

/-- **The scan wakes what it passes.**  A slot that is dormant after a step of a scan is still ahead
of it. -/
theorem Sound.ahead_of_step {i : ι} (hs : Sound s) (h : Sync.step code s (.run t i) = some s')
    (htp : t ≠ .proc p) (hahead : (s.pc t).ahead chan p) (hd : Dormant s' p chan lk) :
    (s'.pc t).ahead chan p := by
  have hd₀ : Dormant s p chan lk := by
    rcases hs.dormant_of_step h hd with hd₀ | ⟨j, x, heq, -⟩
    · exact hd₀
    · cases heq
      exact absurd rfl htp
  obtain ⟨pc, act, pc', s₁, hsched, heq, hnext, hacted, rfl⟩ := step_run h
  rw [State.goto_pc_self]
  have hheld := fun l => hs.held.lock t l hsched
  rw [heq] at hahead hheld
  cases hnext with
  | wakeupSelf c q x ht =>
    refine ⟨hahead.1, Nat.lt_of_le_of_ne hahead.2 ?_⟩
    intro hqp
    exact htp (ht.trans (by rw [Fin.ext hqp]))
  | wakeupLock c q x => exact hahead
  | wakeupDone c n x hn => exact absurd p.isLt (Nat.not_lt.mpr (Nat.le_trans hn hahead.2))
  | wakeupLocked c q x =>
    refine ⟨hahead.1, Nat.lt_of_le_of_ne hahead.2 ?_⟩
    -- the scan is at `p` and holds its lock, so `p` is switched out, and `SLEEPING` on `chan`
    intro hqp
    cases Fin.ext hqp
    have hl : s.lock (.proc p) = some t := hheld _ (Or.inr rfl)
    rcases hd₀ with ⟨y, hpc⟩ | ⟨⟨y, hpc⟩, hsleeping⟩
    · have hown := hs.held.lock (.proc p) (.proc p) (by simp) (hpc ▸ Or.inr ⟨p, rfl, rfl⟩)
      exact htp (Option.some.inj (hl.symm.trans hown))
    · obtain ⟨lk', y', hpc'⟩ := hs.sleeping p hsleeping
      rw [hpc] at hpc'
      cases hpc'
      cases hacted
      rcases hd with ⟨y, hpc''⟩ | ⟨-, hsleeping'⟩
      · rw [State.goto_pc_of_ne _ _ (Ne.symm htp), State.setLock_pc, State.setProc_pc, hpc] at hpc''
        exact absurd hpc'' (by simp)
      · rw [State.goto_proc, State.setLock_proc, State.setProc_proc_self] at hsleeping'
        exact (Proc.sleeping_of_wakeup hsleeping').2.2 hahead.1.symm
  | _ => exact hahead.elim

/-! ## No wakeup is lost -/

/-- A state with no lock held, no thread inside the functions of `kernel/proc.c` and nobody
asleep. -/
structure Start (s : State K σ ℓ) : Prop where
  lock : ∀ l, s.lock l = none
  pc : ∀ t, (∃ x, s.pc t = .code x) ∨ ∃ x, s.pc t = .off x
  awake : ∀ p, (s.proc p).state ≠ .sleeping

omit [DecidableEq K] in
/-- At the start nothing is held, if nothing is to be held at the first places. -/
theorem Start.holds {own : Thread → ℓ → Lock K → Prop} (hs : Start s)
    (hown : ∀ t x, s.pc t = .code x ∨ s.pc t = .off x → ∀ l, ¬ own t x l) : Holds own s where
  lock t l _ hl := by
    rcases hs.pc t with ⟨x, hpc⟩ | ⟨x, hpc⟩
    · rw [hpc] at hl
      exact absurd hl (hown t x (Or.inl hpc) l)
    · rw [hpc] at hl
      exact absurd hl (hown t x (Or.inr hpc) l)
  returns t x hx q := by
    rcases hs.pc t with ⟨y, hpc⟩ | ⟨y, hpc⟩
    · rw [hpc] at hx
      exact hx.elim
    · rw [hpc] at hx
      subst hx
      exact hown t x (Or.inr hpc) _

omit [DecidableEq K] in
theorem Start.sound (hs : Start s) : Sound s where
  held := hs.holds fun _ _ _ _ => id
  sleeping p hp := absurd hp (hs.awake p)

theorem Start.sound_of_run {C : State K σ ℓ → Label ι → Prop} {h : List (Label ι)} (hs : Start s)
    (hrun : RunWith (Steps code) C s h s') : Sound s' :=
  hrun.invariant hs.sound fun _ _ _ ht _ hstep => ht.step hstep

/-- A place inside the call of `wakeup(chan)` that returns to `x`. -/
def Pc.inWakeup (chan : ℕ) (x : ℓ) : Pc K ℓ → Prop
  | .wakeup c _ y => c = chan ∧ y = x
  | .wakeupLocked c _ y => c = chan ∧ y = x
  | _ => False

instance [DecidableEq ℓ] (chan : ℕ) (x : ℓ) (pc : Pc K ℓ) : Decidable (pc.inWakeup chan x) := by
  cases pc <;> unfold Pc.inWakeup <;> infer_instance

omit [DecidableEq K] in
/-- The acts of a call of `wakeup` leave the condition locks alone. -/
theorem Next.inWakeup {i : ι} {tb : Table} {d : σ} {pc pc' : Pc K ℓ} {act : Act K σ} {x : ℓ}
    (h : Next code t i tb d pc act pc') (hpc : pc.inWakeup chan x) :
    act = .skip ∨ (∃ q, act = .acquire (.proc q)) ∨ ∃ q f, act = .edit q f := by
  cases h with
  | wakeupSelf | wakeupDone => exact Or.inl rfl
  | wakeupLock c q => exact Or.inr (Or.inl ⟨q, rfl⟩)
  | wakeupLocked c q => exact Or.inr (Or.inr ⟨q, _, rfl⟩)
  | _ => exact hpc.elim

theorem cond_of_inWakeup {i : ι} {x : ℓ} (h : step code s (.run t i) = some s')
    (hpc : (s.pc t).inWakeup chan x) : s'.lock (.cond lk) = s.lock (.cond lk) := by
  obtain ⟨pc, act, pc', s₁, -, heq, hnext, hacted, rfl⟩ := step_run h
  rw [heq] at hpc
  rw [State.goto_lock]
  rcases hnext.inWakeup hpc with rfl | ⟨q, rfl⟩ | ⟨q, f, rfl⟩
  · cases hacted
    rfl
  · cases hacted
    rw [State.setLock_lock_of_ne _ _ (by simp)]
  · cases hacted
    rw [State.setLock_lock_of_ne _ _ (by simp), State.setProc_lock]

/-- In a call of `wakeup(chan)` that returns to `x`, or just back from it, thread `t` holds `lk`,
and `p` is dormant only if the scan has not passed it. -/
structure Waking (t : Thread) (p : Slot) (chan : ℕ) (lk : K) (x : ℓ) (s : State K σ ℓ) : Prop where
  sound : Sound s
  lock : (s.pc t).inWakeup chan x ∨ s.pc t = .code x → s.lock (.cond lk) = some t
  ahead : (s.pc t).inWakeup chan x ∨ s.pc t = .code x → Dormant s p chan lk → (s.pc t).ahead chan p

theorem Waking.step {x : ℓ} (hw : Waking t p chan lk x s) (ht : t ≠ .proc p) (hsched : t ≠ .sched)
    (hin : (s.pc t).inWakeup chan x) (h : Sync.step code s a = some s') :
    Waking t p chan lk x s' := by
  have hl : s.lock (.cond lk) = some t := hw.lock (Or.inl hin)
  have hd₀ : Dormant s' p chan lk → Dormant s p chan lk := by
    intro hd
    rcases hw.sound.dormant_of_step h hd with hd₀ | ⟨i, y, -, -, hl'⟩
    · exact hd₀
    · exact absurd (Option.some.inj (hl.symm.trans hl')) ht
  by_cases ha : ∃ i, a = .run t i
  · obtain ⟨i, rfl⟩ := ha
    refine ⟨hw.sound.step h, fun _ => (cond_of_inWakeup h hin).trans hl, ?_⟩
    intro _ hd
    exact hw.sound.ahead_of_step h ht (hw.ahead (Or.inl hin) (hd₀ hd)) hd
  · have ha' : ∀ i, a ≠ .run t i := fun i hi => ha ⟨i, hi⟩
    refine ⟨hw.sound.step h, fun _ => lock_kept h hl hsched ha', ?_⟩
    intro hpc hd
    have hahead := hw.ahead (Or.inl hin) (hd₀ hd)
    rcases pc_of_step h ha' with hkept | ⟨q, -, hoff, -⟩ | ⟨q, -, hresume, -⟩
    · rw [hkept]
      exact hahead
    · rw [hoff] at hpc
      exact absurd hpc (by simp [Pc.inWakeup])
    · rcases Pc.resume_cases hresume with ⟨c, lk', y, hasleep, -⟩ | ⟨y, hoff, -⟩
      · exact absurd hin (by simp [hasleep, Pc.inWakeup])
      · exact absurd hin (by simp [hoff, Pc.inWakeup])

/-- **No wakeup is lost.**  A thread calls `wakeup(chan)` holding `lk`.  When the call returns, no
other process is `SLEEPING` in `sleep(chan, lk)`, or about to be: each call of `sleep(chan, lk)`
made before, with `lk` held, has been woken. -/
theorem no_lost_wakeup {s₀ s₁ s₂ s₃ : State K σ ℓ} {h₁ h₂ : List (Label ι)} {i : ι} {x y : ℓ}
    (hstart : Start s₀) (hreach : Run (Steps code) s₀ h₁ s₁)
    (hcall : s₁.pc t = .code x) (hwakeup : code.instr t x = .wakeup chan y)
    (hlock : s₁.lock (.cond lk) = some t) (hstep : Sync.step code s₁ (.run t i) = some s₂)
    (hrun : RunWith (Steps code) (fun s _ => (s.pc t).inWakeup chan y) s₂ h₂ s₃)
    (hreturn : s₃.pc t = .code y) (ht : t ≠ .proc p) : ¬ Dormant s₃ p chan lk := by
  have hsound := hstart.sound_of_run hreach
  obtain ⟨hsched, hwaking⟩ : t ≠ .sched ∧ Waking t p chan lk y s₂ := by
    have hsound' := hsound.step hstep
    obtain ⟨pc, act, pc', s', hsched, heq, hnext, hacted, rfl⟩ := step_run hstep
    rw [hcall] at heq
    subst heq
    obtain ⟨hact, hpc'⟩ : act = .skip ∧ pc' = .wakeup chan 0 y := by
      cases hnext with
      | wakeup x' chan' y' hinstr =>
        rw [hwakeup] at hinstr
        cases hinstr
        exact ⟨rfl, rfl⟩
      | _ => simp_all
    subst hact hpc'
    cases hacted
    refine ⟨hsched, hsound', fun _ => hlock, fun _ _ => ?_⟩
    rw [State.goto_pc_self]
    exact ⟨rfl, Nat.zero_le _⟩
  have hwaking' : Waking t p chan lk y s₃ :=
    hrun.invariant hwaking fun _ _ _ hw hin h => hw.step ht hsched hin h
  intro hd
  have hahead := hwaking'.ahead (Or.inr hreturn) hd
  rw [hreturn] at hahead
  exact hahead

/-- Process 0 acquires the lock and sleeps on channel 7; process 1 acquires it and wakes up the
channel. -/
def pairCode : Code Unit Unit Unit ℕ where
  instr
    | .proc p, 0 => if p.val ≤ 1 then .acquire (.cond ()) 1 else .panic
    | .proc p, 1 => if p = 0 then .sleep 7 () 2 else .wakeup 7 2
    | _, _ => .panic
  forkret := 0

/-- Two processes run the code. -/
def pairStart : State Unit Unit ℕ where
  proc _ := { Proc.init with state := .running }
  data := ()
  lock _ := none
  pc _ := .code 0
  nextpid := 1
  exits := []
  waits := []
  tag _ := 0

/-- Process 0 falls asleep, and process 1 acquires the lock. -/
def pairSleeps : List (Label Unit) :=
  List.replicate 4 (.run (.proc 0) ()) ++ [.settle 0, .run (.proc 1) ()]

theorem pairStart_start : Start pairStart where
  lock _ := rfl
  pc _ := Or.inl ⟨0, rfl⟩
  awake _ := by simp [pairStart]

theorem no_lost_wakeup_pair :
    ∃ h₁ s₁ s₂ h₂ s₃, Run (Steps pairCode) pairStart h₁ s₁ ∧ (s₁.proc 0).state = .sleeping ∧
      Sync.step pairCode s₁ (.run (.proc 1) ()) = some s₂ ∧
      RunWith (Steps pairCode) (fun s _ => (s.pc (.proc 1)).inWakeup 7 2) s₂ h₂ s₃ ∧
      ¬ Dormant s₃ 0 7 () := by
  have hexec : ((exec (Sync.step pairCode) pairStart pairSleeps).bind fun s₁ =>
      (Sync.step pairCode s₁ (.run (.proc 1) ())).bind fun s₂ =>
        (execWith (Sync.step pairCode) (fun s _ => (s.pc (.proc 1)).inWakeup 7 2) s₂
          (List.replicate 128 (.run (.proc 1) ()))).map fun s₃ =>
            ((s₁.proc 0).state, s₁.pc (.proc 1), s₁.lock (.cond ()), s₃.pc (.proc 1))) =
      some (.sleeping, .code 1, some (.proc 1), .code 2) := by
    decide +kernel
  obtain ⟨s₁, hreach, hexec⟩ := Option.bind_eq_some_iff.mp hexec
  obtain ⟨s₂, hstep, hexec⟩ := Option.bind_eq_some_iff.mp hexec
  obtain ⟨s₃, hrun, hfields⟩ := Option.map_eq_some_iff.mp hexec
  simp only [Prod.mk.injEq] at hfields
  obtain ⟨hstate, hcall, hlock, hreturn⟩ := hfields
  have hrun' := run_of_execWith hrun
  exact ⟨_, s₁, s₂, _, s₃, run_of_execWith hreach, hstate, hstep, hrun',
    no_lost_wakeup pairStart_start (run_of_execWith hreach) hcall rfl hlock hstep hrun' hreturn
      (by decide)⟩

end Sync
end Xv6
