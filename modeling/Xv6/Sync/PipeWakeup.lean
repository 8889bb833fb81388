import Xv6.Sync.Kill

/-!
# Waiting on a pipe
-/

namespace Xv6
namespace Sync

open Sched Transition

variable {k : ℕ} {q p : Slot} {i : Input} {x : Loc}

variable {s s' : KState} {a : KLabel}

/-! ## Writers that wait for space -/

/-- Places where a `wakeup(&pi->nwrite)` is still to come. -/
def Loc.owesSpace (k : ℕ) : Loc → Prop
  | .piperead k' _ (.copy _) | .piperead k' _ (.wake _) => k' = k
  | .pipeclose k' writable _ .wake => k' = k ∧ writable = false
  | _ => False

/-- Process `q` is at such a place. -/
def OwesSpace (s : KState) (k : ℕ) (q : Slot) : Prop :=
  ∃ x, s.pc (.proc q) = .code x ∧ x.owesSpace k

theorem OwesSpace.lock (hq : OwesSpace s k q) (hs : Base s) :
    s.lock (.cond (.pipe k)) = some (.proc q) := by
  obtain ⟨x, hpc, hx⟩ := hq
  refine hs.holds.lock (.proc q) _ (by simp) (hpc ▸ ?_)
  cases x with
  | piperead k' n x =>
    cases x with
    | copy | wake => cases hx; exact ⟨by simp, rfl⟩
    | _ => exact hx.elim
  | pipeclose k' w after x =>
    cases x with
    | wake => cases hx.1; exact ⟨by simp, rfl⟩
    | _ => exact hx.elim
  | _ => exact hx.elim

theorem OwesSpace.step (hs : Base s) (h : step kernel s a = some s') (hq : OwesSpace s k q)
    (p : Slot) : OwesSpace s' k q ∨ Scans s' (nwriteChan k) (.pipe k) p q := by
  obtain ⟨x, hpc, hx⟩ := hq
  by_cases ha : ∃ i, a = .run (.proc q) i
  · obtain ⟨i, rfl⟩ := ha
    cases x with
    | piperead k' n x =>
      cases x with
      | copy j =>
        cases hx
        rw [step_compute hpc rfl h]
        refine Or.inl ⟨_, State.goto_pc_self .., ?_⟩
        rw [pipereadBody]
        split_ifs <;> rfl
      | wake j =>
        cases hx
        rw [step_wakeup hpc rfl h]
        refine Or.inr ?_
        rw [Scans, State.goto_pc_self]
        exact ⟨⟨rfl, Nat.zero_le _⟩, _, rfl, by simp, rfl⟩
      | _ => exact hx.elim
    | pipeclose k' w after x =>
      cases x with
      | wake =>
        obtain ⟨rfl, rfl⟩ := hx
        rw [step_wakeup hpc rfl h]
        refine Or.inr ?_
        rw [Scans, State.goto_pc_self]
        exact ⟨⟨rfl, Nat.zero_le _⟩, _, rfl, by simp, rfl⟩
      | _ => exact hx.elim
    | _ => exact hx.elim
  · exact Or.inl ⟨x, hs.code_kept h (fun i hi => ha ⟨i, hi⟩) hpc, hx⟩

/-- Whoever makes space, or closes the read end, owes a `wakeup`. -/
theorem stuffed_step (h : step kernel s a = some s') (hd : Dormant s p (nwriteChan k) (.pipe k))
    (hok : (s.data.pipe k).Stuffed) : (s'.data.pipe k).Stuffed ∨ ∃ q, q ≠ p ∧ OwesSpace s' k q := by
  have hmove := pipe_move h k
  generalize s'.data.pipe k = pi' at hmove ⊢
  cases hmove with
  | same => exact Or.inl hok
  | put q i n j ha hpc hfull => exact absurd hok.1 hfull
  | get q i n j ha hpc hempty =>
    subst ha
    refine Or.inr ⟨q, hd.not_code hpc, ?_⟩
    rw [step_compute hpc rfl h]
    refine ⟨_, State.goto_pc_self .., ?_⟩
    rw [pipereadBody]
    split_ifs <;> rfl
  | close q i writable after ha hpc =>
    subst ha
    cases writable with
    | true => exact Or.inl hok
    | false =>
      refine Or.inr ⟨q, hd.not_code hpc, ?_⟩
      rw [step_compute hpc rfl h]
      exact ⟨_, State.goto_pc_self .., rfl, rfl⟩

theorem pipe_of_sleepLocked (h : step kernel s a = some s') {chan : ℕ} {lk : CondLock}
    (ha : a = .run (.proc p) i) (hpc : s.pc (.proc p) = .sleepLocked chan lk x) (k : ℕ) :
    s'.data.pipe k = s.data.pipe k := by
  have hmove := pipe_move h k
  generalize s'.data.pipe k = pi' at hmove ⊢
  cases hmove with
  | same => rfl
  | put q j n m ha' hpc' | get q j n m ha' hpc' | close q j w after ha' hpc' =>
    rw [ha] at ha'
    cases ha'
    exact nomatch hpc.symm.trans hpc'

/-- A writer is dormant only while the pipe is full and its read end open, or somebody is about to
wake it. -/
def WritersWait (s : KState) : Prop :=
  ∀ k p, Dormant s p (nwriteChan k) (.pipe k) →
    (s.data.pipe k).Stuffed ∨
      ∃ q, q ≠ p ∧ (OwesSpace s k q ∨ Scans s (nwriteChan k) (.pipe k) p q)

theorem WritersWait.step (hw : WritersWait s) (hs : Base s) (hn : Noted s)
    (h : Sync.step kernel s a = some s') : WritersWait s' := by
  intro k p
  refine signal_step hs h ?_ (stuffed_step h) ?_ (hw k p)
  · intro i x ha hpc
    have hnote := hn p
    have hplace : SleepPlace p (nwriteChan k) (.pipe k) x :=
      hs.sleeps p _ _ x (by rw [hpc]; exact ⟨rfl, rfl, rfl⟩)
    obtain ⟨-, n, j, rfl⟩ := hplace.of_nwrite
    rw [hpc] at hnote
    rw [pipe_of_sleepLocked h ha hpc k]
    exact hnote.1
  · intro q _ _ hq
    exact Or.inr (hq.step hs h p)

theorem boot_writersWait (data : ℕ → ℕ → UInt8) : WritersWait (boot data) := by
  rintro k p (⟨x, hx⟩ | ⟨⟨x, hx⟩, -⟩)
  · exact nomatch hx
  · exact nomatch hx

theorem Reachable.writersWait (hs : Reachable s) : WritersWait s := by
  obtain ⟨data, h, hrun⟩ := hs
  have hinv := hrun.invariant (I := fun s => Base s ∧ Noted s ∧ WritersWait s)
    ⟨boot_base data, boot_noted data, boot_writersWait data⟩
    fun _ _ _ ht _ hstep =>
      ⟨ht.1.step hstep, ht.2.1.step ht.1 hstep, ht.2.2.step ht.1 ht.2.1 hstep⟩
  exact hinv.2.2

/-- **No writer sleeps on available space.**  When the lock of a pipe is free, a process that is
`SLEEPING` on `&pi->nwrite` has a reason: the pipe is full and its read end is open. -/
theorem no_writer_sleeps_on_space (hs : Reachable s) {k : ℕ}
    (hlock : s.lock (.cond (.pipe k)) = none) {p : Slot} (hp : (s.proc p).state = .sleeping)
    (hchan : (s.proc p).chan = nwriteChan k) :
    (s.data.pipe k).nwrite = ((s.data.pipe k).nread + PIPESIZE) % UINT ∧
      (s.data.pipe k).readopen = true := by
  have hbase := hs.base
  obtain ⟨lk, x, hplace, hpc, hd⟩ := hbase.dormant_of_sleeping hp
  rw [hchan] at hplace hd
  obtain ⟨rfl, -⟩ := hplace.of_nwrite
  rcases hs.writersWait k p hd with hstuffed | ⟨q, -, hq | hq⟩
  · exact hstuffed
  · exact nomatch hlock.symm.trans (hq.lock hbase)
  · exact nomatch hlock.symm.trans (hq.lock hbase)

/-- The first process fills a pipe and goes to sleep. -/
def fillActs : List KLabel :=
  [.dispatch 0] ++ acts 0 (.pipewrite 0 600) (5 + 4 * 512 + 5 + 128 + 3) ++ [.settle 0]

theorem no_writer_sleeps_on_space_full :
    ∃ s, Reachable s ∧ (s.proc 0).state = .sleeping ∧ (s.data.pipe 0).nwrite = 512 ∧
      (s.data.pipe 0).readopen = true := by
  have hexec : ((exec (Sync.step kernel) boot₀ fillActs).map fun s =>
      (s.lock (.cond (.pipe 0)), (s.proc 0).state, (s.proc 0).chan, (s.data.pipe 0).nread)) =
      some (none, .sleeping, nwriteChan 0, 0) := by
    decide +kernel
  obtain ⟨s, hs, hfields⟩ := Option.map_eq_some_iff.mp hexec
  simp only [Prod.mk.injEq] at hfields
  obtain ⟨hlock, hstate, hchan, hnread⟩ := hfields
  have hreach := reachable_of_exec hs
  obtain ⟨hfull, hopen⟩ := no_writer_sleeps_on_space hreach hlock hstate hchan
  rw [hnread] at hfull
  exact ⟨s, hreach, hstate, hfull, hopen⟩

/-! ## Readers that wait for data -/

/-- In the loop of `pipewrite`, before the test of `killed`. -/
def Pc.untested (k : ℕ) : Pc CondLock Loc → Prop
  | .code (.pipewrite k' _ (.loop _)) | .code (.pipewrite k' _ (.killed _)) => k' = k
  | .killedLocked _ (.pipewrite k' _ (.full _)) => k' = k
  | _ => False

/-- A `kkill` would make process `q` leave `pipewrite` while a reader sleeps on data: the reader
sleeps, and there is data already, or `q` is past its test and will add some. -/
def Strands (s : KState) (q : Slot) : Prop :=
  ∃ k p, Dormant s p (nreadChan k) (.pipe k) ∧
    ((s.pc (.proc q)).untested k ∧ ¬ (s.data.pipe k).Starved ∨
      ∃ n j, s.pc (.proc q) = .code (.pipewrite k n (.full j)) ∧ ¬ (s.data.pipe k).Full)

/-- A `kkill` does not do that. -/
def Timely (s : KState) (a : KLabel) : Prop :=
  ∀ t i q x, a = .run t i → s.pc t = .kkillLocked (s.proc q).pid q x → ¬ Strands s q

/-- No reader that sleeps on this pipe would miss a byte. -/
def Unread (s : KState) (q : Slot) : Prop :=
  ∀ k n j, s.pc (.proc q) = .code (.pipewrite k n (.full j)) →
    (s.data.pipe k).Full ∨ ∀ p, ¬ Dormant s p (nreadChan k) (.pipe k)

/-- While a process holds the lock of a pipe, nobody goes to sleep on it. -/
theorem Base.dormant_kept (hs : Base s) (h : Sync.step kernel s a = some s') {chan : ℕ}
    (hpc : s.pc (.proc q) = .code x) (hx : procOwn q x (.cond (.pipe k)))
    (hd : Dormant s' p chan (.pipe k)) : Dormant s p chan (.pipe k) := by
  rcases hs.sound.dormant_of_step h hd with hd₀ | ⟨i, y, -, hpc', hlock⟩
  · exact hd₀
  · have hlock' : s.lock (.cond (.pipe k)) = some (.proc q) :=
      hs.holds.lock (.proc q) _ (by simp) (hpc ▸ hx)
    have hpq := Thread.proc.inj (Option.some.inj (hlock.symm.trans hlock'))
    subst hpq
    exact nomatch hpc.symm.trans hpc'

theorem Unread.other_step (hs : Base s) (h : step kernel s a = some s')
    (ha : ∀ i, a ≠ .run (.proc q) i) (hq : Unread s q) : Unread s' q := by
  intro k n j hpc'
  have hpc := hs.code_other h ha hpc'
  have hown : procOwn q (.pipewrite k n (.full j)) (.cond (.pipe k)) := ⟨by simp, rfl⟩
  have hlock : s.lock (.cond (.pipe k)) = some (.proc q) :=
    hs.holds.lock (.proc q) _ (by simp) (hpc ▸ hown)
  rw [hs.pipe_kept h hlock ha]
  rcases hq k n j hpc with hfull | hnone
  · exact Or.inl hfull
  · exact Or.inr fun p hd => hnone p (hs.dormant_kept h hpc hown hd)

theorem full_next {tb : Table} {d : Data} {pc : Pc CondLock Loc} {act : Act CondLock Data} {n j : ℤ}
    (h : Next kernel (.proc p) i tb d pc act (.code (.pipewrite k n (.full j))))
    (hscan : ∀ x, pc.scanning x → ∀ k n j, x ≠ .pipewrite k n (.full j)) (hx : pc.going x)
    (halive : x.alive) : False := by
  have hcode := procInstr_alive p x
  generalize hpc' : (Pc.code (.pipewrite k n (.full j)) : Pc CondLock Loc) = pc' at h
  cases h with
  | acquire z _ _ hz | release z _ _ hz | table z _ _ hz =>
    cases hx
    cases hpc'
    rw [show procInstr p x = _ from hz] at hcode
    exact hcode trivial
  | compute z f hz =>
    cases hx
    -- of these places only `full` itself computes, and leads elsewhere
    cases x with
    | pipewrite k' n' z =>
      cases z with
      | full j' =>
        cases hz
        dsimp only [pipewriteBody] at hpc'
        split_ifs at hpc' <;> exact nomatch hpc'
      | wakeFull | sleep => exact nomatch hz
      | _ => exact halive
    | piperead k' n' z =>
      cases z with
      | sleep => exact nomatch hz
      | _ => exact halive
    | consoleread target z =>
      cases z with
      | sleep => exact nomatch hz
      | _ => exact halive
    | pause n' z =>
      cases z with
      | sleep => exact nomatch hz
      | _ => exact halive
    | wait addr z =>
      cases z with
      | sleep => exact nomatch hz
      | _ => exact halive
    | _ => exact halive
  | wakeupDone _ _ z =>
    cases hpc'
    exact hscan _ rfl k n j rfl
  | relock | killedLocked | kkillNone | kkillHit | resumed => exact hx
  | _ => exact nomatch hpc'

/-- The flag of a writer past its test is clear, or it does not matter. -/
theorem alive_unread_step (hA : Alive Unread s) (hs : Base s) (ha : Timely s a)
    (h : step kernel s a = some s') : Alive Unread s' := by
  refine hA.step hs h ?_ ?_
  · intro p x y hx hxalive hy halive hp
    by_cases ha : ∃ i, a = .run (.proc p) i
    · obtain ⟨i, rfl⟩ := ha
      intro k n j hfull
      have hscan := hA.scanning p
      obtain ⟨pc, act, pc', s₁, -, hpc, hnext, -, rfl⟩ := step_run h
      rw [State.goto_pc_self] at hfull
      subst hfull
      exact (full_next hnext (hpc ▸ hscan) (hpc ▸ hx) hxalive).elim
    · exact hp.other_step hs h fun i hi => ha ⟨i, hi⟩
  · intro t i q x y heq htq hpc _ _
    have hq : Unread s q := by
      intro k n j hfull
      by_contra hno
      push Not at hno
      obtain ⟨hspace, p, hd⟩ := hno
      exact ha t i q x heq hpc ⟨k, p, hd, Or.inr ⟨n, j, hfull, hspace⟩⟩
    refine hq.other_step hs h ?_
    intro j hj
    rw [heq] at hj
    cases hj
    exact htq rfl

/-- Places where a `wakeup(&pi->nread)` is still to come. -/
def Loc.owesData (k : ℕ) : Loc → Prop
  | .pipewrite k' _ (.full _) | .pipewrite k' _ (.wakeFull _) | .pipewrite k' _ (.wake _) => k' = k
  | .pipeclose k' writable _ .wake => k' = k ∧ writable = true
  | _ => False

/-- Process `q` is at such a place, or before a test of `killed` that will find the flag clear. -/
def OwesData (s : KState) (k : ℕ) (q : Slot) : Prop :=
  (∃ x, s.pc (.proc q) = .code x ∧ x.owesData k) ∨
    ((s.pc (.proc q)).untested k ∧ (s.data.pipe k).readopen = true ∧ (s.proc q).killed = false)

theorem Pc.own_of_untested {pc : Pc CondLock Loc} (h : pc.untested k) :
    pc.own (procOwn q) (.proc q) (.cond (.pipe k)) := by
  cases pc with
  | code x =>
    cases x with
    | pipewrite k' n x =>
      cases x with
      | loop | killed => cases h; exact ⟨by simp, rfl⟩
      | _ => exact h.elim
    | _ => exact h.elim
  | killedLocked x y =>
    cases y with
    | pipewrite k' n y =>
      cases y with
      | full => cases h; exact Or.inl (Or.inr ⟨by simp, rfl⟩)
      | _ => exact h.elim
    | _ => exact h.elim
  | _ => exact h.elim

theorem OwesData.lock (hq : OwesData s k q) (hs : Base s) :
    s.lock (.cond (.pipe k)) = some (.proc q) := by
  rcases hq with ⟨x, hpc, hx⟩ | ⟨huntested, -⟩
  · refine hs.holds.lock (.proc q) _ (by simp) (hpc ▸ ?_)
    cases x with
    | pipewrite k' n x =>
      cases x with
      | full | wakeFull | wake => cases hx; exact ⟨by simp, rfl⟩
      | _ => exact hx.elim
    | pipeclose k' w after x =>
      cases x with
      | wake => cases hx.1; exact ⟨by simp, rfl⟩
      | _ => exact hx.elim
    | _ => exact hx.elim
  · exact hs.holds.lock (.proc q) _ (by simp) (Pc.own_of_untested huntested)

theorem OwesData.own_step (hn : Noted s) (hA : Alive Unread s)
    (h : step kernel s (.run (.proc q) i) = some s') (hd : Dormant s p (nreadChan k) (.pipe k))
    (hq : OwesData s k q) : OwesData s' k q ∨ Scans s' (nreadChan k) (.pipe k) p q := by
  rcases hq with ⟨x, hpc, hx⟩ | ⟨huntested, hopen, hclear⟩
  · cases x with
    | pipewrite k' n x =>
      cases x with
      | full j =>
        cases hx
        have hnote := hn q
        rw [hpc] at hnote
        rw [step_compute hpc rfl h, OwesData, State.goto_pc_self]
        refine Or.inl ?_
        rw [pipewriteBody]
        split_ifs with hfull hok
        · exact Or.inl ⟨_, rfl, rfl⟩
        · refine Or.inr ⟨rfl, ?_, ?_⟩
          · rw [State.goto_data]
            dsimp only
            rw [Data.setPipe_self]
            exact hnote
          · rcases hA.clear q (.pipewrite k n (.full j)) (hpc ▸ rfl) trivial with hclear | hunread
            · exact hclear
            · rcases hunread k n j hpc with hfull' | hnone
              · exact absurd hfull' hfull
              · exact absurd hd (hnone p)
        · exact Or.inl ⟨_, rfl, rfl⟩
      | wakeFull j | wake j =>
        cases hx
        rw [step_wakeup hpc rfl h]
        refine Or.inr ?_
        rw [Scans, State.goto_pc_self]
        exact ⟨⟨rfl, Nat.zero_le _⟩, _, rfl, by simp, rfl⟩
      | _ => exact hx.elim
    | pipeclose k' w after x =>
      cases x with
      | wake =>
        obtain ⟨rfl, rfl⟩ := hx
        rw [step_wakeup hpc rfl h]
        refine Or.inr ?_
        rw [Scans, State.goto_pc_self]
        exact ⟨⟨rfl, Nat.zero_le _⟩, _, rfl, by simp, rfl⟩
      | _ => exact hx.elim
    | _ => exact hx.elim
  · left
    cases hpc : s.pc (.proc q) with
    | code x =>
      rw [hpc] at huntested
      cases x with
      | pipewrite k' n x =>
        cases x with
        | loop j =>
          cases huntested
          rw [step_compute hpc rfl h, OwesData, State.goto_pc_self, if_pos hopen]
          split_ifs
          · exact Or.inr ⟨rfl, hopen, hclear⟩
          · exact Or.inl ⟨_, rfl, rfl⟩
        | killed j =>
          cases huntested
          obtain ⟨act, pc', s₁, hnext, happly, rfl⟩ := next_of_code hpc h
          obtain ⟨rfl, rfl⟩ := Prod.mk.inj (Option.some.inj hnext)
          cases acted_of_apply happly
          rw [OwesData, State.goto_pc_self]
          exact Or.inr ⟨rfl, hopen, hclear⟩
        | _ => exact huntested.elim
      | _ => exact huntested.elim
    | killedLocked x y =>
      rw [hpc] at huntested
      cases y with
      | pipewrite k' n y =>
        cases y with
        | full j =>
          cases huntested
          obtain ⟨pc, act, pc', s₁, -, hpc', hnext, -, rfl⟩ := step_run h
          rw [hpc] at hpc'
          subst hpc'
          cases hnext with
          | killedLocked r _ _ hr =>
            cases hr
            rw [OwesData, State.goto_pc_self, hclear]
            exact Or.inl ⟨_, rfl, rfl⟩
        | _ => exact huntested.elim
      | _ => exact huntested.elim
    | _ =>
      rw [hpc] at huntested
      exact huntested.elim

theorem OwesData.other_step (hs : Base s) (ha : Timely s a) (h : step kernel s a = some s')
    (hq' : ∀ i, a ≠ .run (.proc q) i) (hd : Dormant s p (nreadChan k) (.pipe k))
    (hq : OwesData s k q) : (s'.data.pipe k).Starved ∨ OwesData s' k q := by
  have hkept := hs.pipe_kept h (hq.lock hs) hq'
  rcases hq with ⟨x, hpc, hx⟩ | ⟨huntested, hopen, hclear⟩
  · exact Or.inr (Or.inl ⟨x, hs.code_kept h hq' hpc, hx⟩)
  · have hpc : s'.pc (.proc q) = s.pc (.proc q) := by
      rcases hs.pc_other h hq' with
        ⟨hpc, -⟩ | ⟨np, r, i, z, -, -, -, hold, -⟩ | ⟨r, -, -, hresume⟩
      · exact hpc
      · rw [hold] at huntested
        exact huntested.elim
      · rcases Pc.resume_cases hresume with ⟨c, l, z, hold, -⟩ | ⟨z, hold, -⟩
        · rw [hold] at huntested
          exact huntested.elim
        · rw [hold] at huntested
          exact huntested.elim
    by_cases hstarved : (s.data.pipe k).Starved
    · exact Or.inl (hkept ▸ hstarved)
    · refine Or.inr (Or.inr ⟨hpc ▸ huntested, hkept ▸ hopen, hs.killed_kept h hclear ?_ ?_⟩)
      · intro t i x heq hvictim
        exact ha t i q x heq hvictim ⟨k, p, hd, Or.inl ⟨huntested, hstarved⟩⟩
      · exact fun i hi => absurd hi (hq' i)

/-- Whoever stores a byte, or closes the write end, owes a `wakeup`. -/
theorem starved_step (hn : Noted s) (hA : Alive Unread s) (h : step kernel s a = some s')
    (hd : Dormant s p (nreadChan k) (.pipe k)) (hok : (s.data.pipe k).Starved) :
    (s'.data.pipe k).Starved ∨ ∃ q, q ≠ p ∧ OwesData s' k q := by
  have hmove := pipe_move h k
  generalize hpi : s'.data.pipe k = pi' at hmove
  cases hmove with
  | same => exact Or.inl hok
  | put q i n j ha hpc hfull =>
    subst ha
    have howes : OwesData s k q := Or.inl ⟨_, hpc, rfl⟩
    rcases howes.own_step hn hA h hd with howes' | hscans
    · exact Or.inr ⟨q, hd.not_code hpc, howes'⟩
    · -- it does not call `wakeup` at once
      rw [step_compute hpc rfl h, Scans, State.goto_pc_self] at hscans
      exact hscans.1.elim
  | get q i n j ha hpc hempty => exact absurd hok.1 hempty
  | close q i writable after ha hpc =>
    subst ha
    cases writable with
    | false => exact Or.inl hok
    | true =>
      refine Or.inr ⟨q, hd.not_code hpc, ?_⟩
      rw [step_compute hpc rfl h]
      exact Or.inl ⟨_, State.goto_pc_self .., rfl, rfl⟩

/-- A reader is dormant only while the pipe is empty and its write end open, or somebody is about to
wake it. -/
def ReadersWait (s : KState) : Prop :=
  ∀ k p, Dormant s p (nreadChan k) (.pipe k) →
    (s.data.pipe k).Starved ∨
      ∃ q, q ≠ p ∧ (OwesData s k q ∨ Scans s (nreadChan k) (.pipe k) p q)

theorem ReadersWait.step (hw : ReadersWait s) (hs : Base s) (hn : Noted s) (hA : Alive Unread s)
    (ha : Timely s a) (h : Sync.step kernel s a = some s') : ReadersWait s' := by
  intro k p
  refine signal_step hs h ?_ (starved_step hn hA h) ?_ (hw k p)
  · intro i x heq hpc
    have hnote := hn p
    have hplace : SleepPlace p (nreadChan k) (.pipe k) x :=
      hs.sleeps p _ _ x (by rw [hpc]; exact ⟨rfl, rfl, rfl⟩)
    obtain ⟨-, n, rfl⟩ := hplace.of_nread
    rw [hpc] at hnote
    rw [pipe_of_sleepLocked h heq hpc k]
    exact hnote.1
  · intro q hqp hd hq
    by_cases heq : ∃ i, a = .run (.proc q) i
    · obtain ⟨i, rfl⟩ := heq
      exact Or.inr (hq.own_step hn hA h hd)
    · rcases hq.other_step hs ha h (fun i hi => heq ⟨i, hi⟩) hd with hstarved | howes
      · exact Or.inl hstarved
      · exact Or.inr (Or.inl howes)

theorem boot_readersWait (data : ℕ → ℕ → UInt8) : ReadersWait (boot data) := by
  rintro k p (⟨x, hx⟩ | ⟨⟨x, hx⟩, -⟩)
  · exact nomatch hx
  · exact nomatch hx

/-- **No reader sleeps on available data, unless a writer is killed.**  In every run in which no
`kkill` hits a process in the loop of `pipewrite` while a reader sleeps on data that it has added or
will add, the following holds whenever the lock of a pipe is free: a process that is `SLEEPING` on
`&pi->nread` has a reason, the pipe is empty and its write end is open. -/
theorem no_reader_sleeps_on_data {data : ℕ → ℕ → UInt8} {h : List KLabel}
    (hrun : RunWith KSteps Timely (boot data) h s) {k : ℕ}
    (hlock : s.lock (.cond (.pipe k)) = none) {p : Slot} (hp : (s.proc p).state = .sleeping)
    (hchan : (s.proc p).chan = nreadChan k) :
    (s.data.pipe k).nread = (s.data.pipe k).nwrite ∧ (s.data.pipe k).writeopen = true := by
  obtain ⟨hbase, -, -, hwait⟩ :=
    hrun.invariant (I := fun s => Base s ∧ Noted s ∧ Alive Unread s ∧ ReadersWait s)
      ⟨boot_base data, boot_noted data, boot_alive _ data, boot_readersWait data⟩
      fun _ _ _ ht ha hstep =>
        ⟨ht.1.step hstep, ht.2.1.step ht.1 hstep, alive_unread_step ht.2.2.1 ht.1 ha hstep,
          ht.2.2.2.step ht.1 ht.2.1 ht.2.2.1 ha hstep⟩
  obtain ⟨lk, x, hplace, hpc, hd⟩ := hbase.dormant_of_sleeping hp
  rw [hchan] at hplace hd
  obtain ⟨rfl, -⟩ := hplace.of_nread
  rcases hwait k p hd with hstarved | ⟨q, -, hq | hq⟩
  · exact hstarved
  · exact nomatch hlock.symm.trans (hq.lock hbase)
  · exact nomatch hlock.symm.trans (hq.lock hbase)

/-- The first process forks twice; its first child reads from an empty pipe and goes to sleep. -/
def readActs : List KLabel :=
  [.dispatch 0] ++ acts 0 .fork 40 ++ [.dispatch 1] ++ acts 1 (.piperead 0 1) 11 ++ [.settle 1]

theorem NoKill.timely (h : NoKill s a) : Timely s a := by
  rintro t i q x rfl hpc
  simp only [NoKill, hpc] at h

theorem no_reader_sleeps_on_data_empty :
    ∃ h s, RunWith KSteps Timely boot₀ h s ∧ (s.proc 1).state = .sleeping ∧
      (s.data.pipe 0).nread = (s.data.pipe 0).nwrite ∧ (s.data.pipe 0).writeopen = true := by
  have hexec : ((execWith (Sync.step kernel) NoKill boot₀ readActs).map fun s =>
      (s.lock (.cond (.pipe 0)), (s.proc 1).state, (s.proc 1).chan)) =
      some (none, .sleeping, nreadChan 0) := by
    decide +kernel
  obtain ⟨s, hs, hfields⟩ := Option.map_eq_some_iff.mp hexec
  simp only [Prod.mk.injEq] at hfields
  obtain ⟨hlock, hstate, hchan⟩ := hfields
  have hrun := (run_of_execWith hs).mono fun _ _ => NoKill.timely
  exact ⟨_, s, hrun, hstate, no_reader_sleeps_on_data hrun hlock hstate hchan⟩

/-- **A reader that sleeps on data.**  The second child writes two bytes; the first process kills it
after the first byte, and it leaves `pipewrite` without a `wakeup`. -/
theorem not_no_reader_sleeps_on_data :
    ¬ ∀ s, Reachable s → s.lock (.cond (.pipe 0)) = none → (s.proc 1).state = .sleeping →
      (s.proc 1).chan = nreadChan 0 →
      (s.data.pipe 0).nread = (s.data.pipe 0).nwrite ∧ (s.data.pipe 0).writeopen = true := by
  intro hall
  have hexec : ((exec (Sync.step kernel) boot₀ (readActs ++ [.dispatch 2] ++
      acts 2 (.pipewrite 0 2) 10 ++ acts 0 (.kill 3) 10 ++ acts 2 (.pipewrite 0 2) 3)).map fun s =>
        (s.lock (.cond (.pipe 0)), (s.proc 1).state, (s.proc 1).chan, (s.data.pipe 0).nread,
          (s.data.pipe 0).nwrite)) = some (none, .sleeping, nreadChan 0, 0, 1) := by
    decide +kernel
  obtain ⟨s, hs, hfields⟩ := Option.map_eq_some_iff.mp hexec
  simp only [Prod.mk.injEq] at hfields
  obtain ⟨hlock, hstate, hchan, hnread, hnwrite⟩ := hfields
  have heq := (hall s (reachable_of_exec hs) hlock hstate hchan).1
  rw [hnread, hnwrite] at heq
  exact absurd heq (by decide)

end Sync
end Xv6
