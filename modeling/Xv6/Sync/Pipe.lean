import Xv6.Sync.Base

/-!
# Pipes

A pipe changes only under its lock (`PipeMove`, `Base.pipe_kept`), so what `piperead` and
`pipewrite` have tested stays true until they release the lock or sleep; `Loc.note` collects what
they know at each place.
-/

namespace Xv6
namespace Sync

open Sched Transition

variable {k : ℕ} {p : Slot} {i : Input} {x : Loc} {pi : Pipe} {pipe pipe' : ℕ → Pipe}

variable {s s' : KState} {a : KLabel}

/-! ## Changes of a pipe -/

/-- How a step changes pipe `k`. -/
inductive PipeMove (s : KState) (a : KLabel) (k : ℕ) (pi : Pipe) : Pipe → Prop
  | same : PipeMove s a k pi pi
  | put (p : Slot) (i : Input) (n j : ℤ) : a = .run (.proc p) i →
      s.pc (.proc p) = .code (.pipewrite k n (.full j)) → ¬ pi.Full →
      PipeMove s a k pi (pi.put i.byte)
  | get (p : Slot) (i : Input) (n j : ℤ) : a = .run (.proc p) i →
      s.pc (.proc p) = .code (.piperead k n (.copy j)) → ¬ pi.Empty → PipeMove s a k pi pi.get
  | close (p : Slot) (i : Input) (writable : Bool) (after : Option ℤ) : a = .run (.proc p) i →
      s.pc (.proc p) = .code (.pipeclose k writable after .close) →
      PipeMove s a k pi (pi.close writable)

theorem Data.setPipe_self (d : Data) (k : ℕ) (f : Pipe → Pipe) :
    (d.setPipe k f).pipe k = f (d.pipe k) := Function.update_self ..

theorem Data.setPipe_of_ne (d : Data) {k' : ℕ} (f : Pipe → Pipe) (h : k' ≠ k) :
    (d.setPipe k f).pipe k' = d.pipe k' := Function.update_of_ne h ..

theorem pipe_move_of_procInstr {f : Input → Table → Data → Data × Loc}
    (hpc : s.pc (.proc p) = .code x) (hx : procInstr p x = .compute f) (k : ℕ) :
    PipeMove s (.run (.proc p) i) k (s.data.pipe k) ((f i s.proc s.data).1.pipe k) := by
  cases x with
  | user => cases hx; exact .same
  | pipewrite k' n x =>
    cases x with
    | loop j => cases hx; dsimp only; split_ifs <;> exact .same
    | full j =>
      cases hx
      dsimp only [pipewriteBody]
      split_ifs with hfull hok
      · exact .same
      · by_cases hk : k = k'
        · subst hk
          rw [Data.setPipe_self]
          exact .put p i n j rfl hpc hfull
        · rw [Data.setPipe_of_ne _ _ hk]
          exact .same
      · exact .same
    | _ => cases hx
  | piperead k' n x =>
    cases x with
    | loop => cases hx; dsimp only; split_ifs <;> exact .same
    | copy j =>
      cases hx
      dsimp only [pipereadBody]
      split_ifs with hn hempty hok
      · exact .same
      · by_cases hk : k = k'
        · subst hk
          rw [Data.setPipe_self]
          exact .get p i n j rfl hpc hempty
        · rw [Data.setPipe_of_ne _ _ hk]
          exact .same
      all_goals exact .same
    | _ => cases hx
  | pipeclose k' writable after x =>
    cases x with
    | close =>
      cases hx
      dsimp only
      by_cases hk : k = k'
      · subst hk
        rw [Data.setPipe_self]
        exact .close p i writable after rfl hpc
      · rw [Data.setPipe_of_ne _ _ hk]
        exact .same
    | _ => cases hx
  | consoleread target x =>
    cases x with
    | loop n => cases hx; dsimp only [consolereadBody]; split_ifs <;> exact .same
    | _ => cases hx
  | pause n x =>
    cases x with
    | start => cases hx; exact .same
    | loop => cases hx; dsimp only; split_ifs <;> exact .same
    | _ => cases hx
  | fork x =>
    cases x with
    | scan j =>
      simp only [procInstr, kfork] at hx
      split at hx
      · cases hx
      · cases hx; exact .same
    | test np => cases hx; dsimp only; split_ifs <;> exact .same
    | _ => cases hx
  | exit status x =>
    cases x with
    | start =>
      simp only [procInstr, kexit] at hx
      split at hx
      · cases hx
      · cases hx; exact .same
    | close => cases hx; dsimp only; split <;> exact .same
    | reparent j => cases hx; dsimp only; split_ifs <;> exact .same
    | parent => cases hx; exact .same
    | _ => cases hx
  | wait addr x =>
    cases x with
    | scan j havekids => cases hx; dsimp only; split_ifs <;> exact .same
    | test pp => cases hx; dsimp only; split_ifs <;> exact .same
    | _ => cases hx
  | fault x => cases x <;> cases hx
  | _ => cases hx

theorem pipe_move (h : step kernel s a = some s') (k : ℕ) :
    PipeMove s a k (s.data.pipe k) (s'.data.pipe k) := by
  cases a with
  | run t i =>
    obtain ⟨pc, act, pc', s₁, -, hpc, hnext, hacted, rfl⟩ := step_run h
    rw [State.goto_data]
    cases hacted with
    | data d =>
      cases hnext with
      | compute x f hx =>
        cases t with
        | proc p => exact pipe_move_of_procInstr hpc hx k
        | intr n =>
          cases x with
          | irq => cases hx; exact .same
          | clockintr x =>
            cases x with
            | tick => cases hx; exact .same
            | _ => exact nomatch hx
          | consoleintr c x =>
            cases x with
            | body => cases hx; exact .same
            | _ => exact nomatch hx
          | _ => exact nomatch hx
        | sched => exact nomatch hx
    | table op => rw [State.table_data]; exact .same
    | _ => exact .same
  | dispatch p =>
    obtain ⟨pc, -, -, -, rfl⟩ := step_dispatch h
    exact .same
  | settle p =>
    obtain ⟨-, rfl⟩ := step_settle h
    exact .same

theorem Base.pipe_kept (hs : Base s) (h : Sync.step kernel s a = some s') {u : Thread}
    (hl : s.lock (.cond (.pipe k)) = some u) (ha : ∀ i, a ≠ .run u i) :
    s'.data.pipe k = s.data.pipe k := by
  have hmove := pipe_move h k
  have hholder : ∀ p i x, a = .run (.proc p) i → s.pc (.proc p) = .code x →
      procOwn p x (.cond (.pipe k)) → False := by
    intro p i x ha' hpc hx
    have hlock := hs.holds.lock (.proc p) (.cond (.pipe k)) (by simp) (hpc ▸ hx)
    have hu := Option.some.inj (hl.symm.trans hlock)
    exact ha i (hu ▸ ha')
  generalize s'.data.pipe k = pi' at hmove ⊢
  cases hmove with
  | same => rfl
  | put p i n j ha' hpc => exact (hholder p i _ ha' hpc ⟨by simp, rfl⟩).elim
  | get p i n j ha' hpc => exact (hholder p i _ ha' hpc ⟨by simp, rfl⟩).elim
  | close p i writable after ha' hpc => exact (hholder p i _ ha' hpc ⟨by simp, rfl⟩).elim

/-! ## The stream of bytes -/

/-- The ring buffer of a pipe. -/
def Pipe.ring (pi : Pipe) : RingBuffer UInt8 := ⟨pi.data, pi.nread, pi.nwrite⟩

/-- The bytes that were stored are those that were delivered, followed by those in the buffer. -/
def Pipe.Streams (pi : Pipe) : Prop :=
  ∃ pending, pi.ring.Contains PIPESIZE UINT pending ∧ pi.accepted = pi.delivered ++ pending

theorem Pipe.Streams.init (data : ℕ → UInt8) : (Pipe.init data).Streams := by
  refine ⟨[], ⟨by simp, Nat.two_pow_pos 32, rfl, ?_⟩, rfl⟩
  intro j hj
  exact absurd hj (Nat.not_lt_zero j)

theorem Pipe.Streams.put (h : pi.Streams) (hfull : ¬ pi.Full) (ch : UInt8) :
    (pi.put ch).Streams := by
  obtain ⟨pending, hring, haccepted⟩ := h
  refine ⟨pending ++ [ch], hring.push (by decide) (by decide) hfull ch, ?_⟩
  show pi.accepted ++ [ch] = pi.delivered ++ (pending ++ [ch])
  rw [haccepted, List.append_assoc]

theorem Pipe.Streams.get (h : pi.Streams) (hempty : ¬ pi.Empty) : pi.get.Streams := by
  obtain ⟨pending, hring, haccepted⟩ := h
  cases pending with
  | nil => exact absurd ((hring.empty_iff (by decide)).mpr rfl) hempty
  | cons ch pending =>
    refine ⟨pending, hring.pop (by decide) (by decide), ?_⟩
    show pi.accepted = pi.delivered ++ [pi.ring.front PIPESIZE] ++ pending
    rw [hring.front, haccepted, List.append_assoc]
    rfl

theorem Pipe.Streams.close (h : pi.Streams) (writable : Bool) : (pi.close writable).Streams := by
  cases writable <;> exact h

theorem streams_step (h : step kernel s a = some s') (hs : (s.data.pipe k).Streams) :
    (s'.data.pipe k).Streams := by
  have hmove := pipe_move h k
  generalize s'.data.pipe k = pi' at hmove ⊢
  cases hmove with
  | same => exact hs
  | put p i n j _ _ hfull => exact hs.put hfull i.byte
  | get p i n j _ _ hempty => exact hs.get hempty
  | close p i writable => exact hs.close writable

theorem Reachable.streams (hs : Reachable s) (k : ℕ) : (s.data.pipe k).Streams := by
  obtain ⟨data, h, hrun⟩ := hs
  exact hrun.invariant (I := fun s => (s.data.pipe k).Streams) (Pipe.Streams.init (data k))
    fun _ _ _ ht _ hstep => streams_step hstep ht

/-! ## What the calls know about the pipe -/

/-- A reason to sleep in `piperead`. -/
def Pipe.Starved (pi : Pipe) : Prop := pi.Empty ∧ pi.writeopen = true

/-- A reason to sleep in `pipewrite`. -/
def Pipe.Stuffed (pi : Pipe) : Prop := pi.Full ∧ pi.readopen = true

/-- What is known about the pipes at a place. -/
def Loc.note (pipe : ℕ → Pipe) : Loc → Prop
  | .piperead k _ .killed | .piperead k _ .sleep => (pipe k).Starved
  | .piperead k _ (.copy i) => 0 ≤ i ∧ (i = 0 → ¬ (pipe k).Starved)
  | .piperead k n (.wake i) | .piperead k n (.release i) =>
    i = 0 → 0 < n → (pipe k).Empty ∧ (pipe k).writeopen = false
  | .pipewrite k _ (.killed _) | .pipewrite k _ (.full _) => (pipe k).readopen = true
  | .pipewrite k _ (.wakeFull _) | .pipewrite k _ (.sleep _) => (pipe k).Stuffed
  | _ => True

/-- What is known in a call of `sleep` until the lock is released. -/
def Loc.sleepNote (pipe : ℕ → Pipe) : Loc → Prop
  | .piperead k _ .loop => (pipe k).Starved
  | .pipewrite k _ (.loop _) => (pipe k).Stuffed
  | _ => True

/-- What is known at a place in `kernel/proc.c` too.  When the pipe may have changed, nothing is
needed at the place to return to. -/
def Pc.note (pipe : ℕ → Pipe) : Pc CondLock Loc → Prop
  | .code x | .wakeup _ _ x | .wakeupLocked _ _ x => x.note pipe
  | .killedLocked x y => x.note pipe ∧ y.note pipe
  | .sleepLocked _ _ x => x.sleepNote pipe ∧ ∀ pipe', x.note pipe'
  | .sleepUnlocked _ _ x | .asleep _ _ x | .woken _ x | .relock _ x | .kkill _ _ x
  | .kkillLocked _ _ x | .yieldLocked x | .off x | .resumed x => ∀ pipe', x.note pipe'

/-- What an instruction has to establish. -/
def Instr.Noted (x : Loc) : KInstr → Prop
  | .acquire _ y | .release _ y | .table _ y | .kkill _ y | .yield y | .sched y =>
    ∀ pipe, y.note pipe
  | .compute f => ∀ i tb d, x.note d.pipe → (f i tb d).2.note (f i tb d).1.pipe
  | .sleep _ _ y => (∀ pipe, x.note pipe → y.sleepNote pipe) ∧ ∀ pipe, y.note pipe
  | .wakeup _ y => ∀ pipe, x.note pipe → y.note pipe
  | .killed y z => ∀ pipe, x.note pipe → y.note pipe ∧ z.note pipe
  | .panic => True

theorem pipewrite_noted (k : ℕ) (n : ℤ) (x : Write) :
    Instr.Noted (.pipewrite k n x) (pipewrite k n x) := by
  cases x with
  | loop i =>
    intro inp tb d _
    dsimp only
    split_ifs with hn hopen
    · exact hopen
    · trivial
    · trivial
  | full i =>
    intro inp tb d hopen
    dsimp only [pipewriteBody]
    split_ifs with hfull hok
    · exact ⟨hfull, hopen⟩
    · trivial
    · trivial
  | killed i => exact fun pipe hopen => ⟨trivial, hopen⟩
  | wakeFull i => exact fun pipe hstuffed => hstuffed
  | sleep i => exact ⟨fun pipe hstuffed => hstuffed, fun pipe => trivial⟩
  | _ => simp [pipewrite, Instr.Noted, Loc.note]

theorem piperead_noted (k : ℕ) (n : ℤ) (x : Read) :
    Instr.Noted (.piperead k n x) (piperead k n x) := by
  cases x with
  | loop =>
    intro inp tb d _
    dsimp only
    split_ifs with hstarved
    · exact hstarved
    · exact ⟨le_rfl, fun _ => hstarved⟩
  | copy i =>
    intro inp tb d hnote
    obtain ⟨hi, hstarved⟩ := hnote
    dsimp only [pipereadBody]
    split_ifs with hn hempty hok hzero
    · intro hi0 _
      exact ⟨hempty, Bool.eq_false_iff.mpr fun hopen => hstarved hi0 ⟨hempty, hopen⟩⟩
    · exact ⟨by omega, by omega⟩
    · intro h
      omega
    · intro h
      exact absurd h hzero
    · intro hi0 hpos
      omega
  | killed => exact fun pipe hstarved => ⟨by simp [Loc.note], hstarved⟩
  | sleep => exact ⟨fun pipe hstarved => hstarved, fun pipe => trivial⟩
  | wake i => exact fun pipe hnote => hnote
  | _ => simp [piperead, Instr.Noted, Loc.note]

theorem Call.first_note (c : Call) (pipe : ℕ → Pipe) : c.first.note pipe := by
  cases c <;> trivial

theorem Call.enter_note (c : Call) (pipe : ℕ → Pipe) : c.enter.note pipe := by
  cases c <;> trivial

theorem procInstr_noted (p : Slot) (x : Loc) : Instr.Noted x (procInstr p x) := by
  cases x with
  | user => exact fun inp _ d _ => inp.call.enter_note d.pipe
  | enter c => exact fun pipe _ => ⟨trivial, c.first_note pipe⟩
  | ret timer => cases timer <;> exact fun _ _ => ⟨trivial, trivial⟩
  | pipewrite k n x => exact pipewrite_noted k n x
  | piperead k n x => exact piperead_noted k n x
  | pipeclose k writable after x =>
    cases x with
    | release => cases after <;> exact fun _ => trivial
    | _ => simp [procInstr, pipeclose, Instr.Noted, Loc.note]
  | consoleread target x =>
    cases x with
    | loop n =>
      intro inp tb d _
      dsimp only [consolereadBody]
      split_ifs <;> trivial
    | killed n => exact fun _ _ => ⟨trivial, trivial⟩
    | sleep n => exact ⟨fun _ _ => trivial, fun _ => trivial⟩
    | _ => simp [procInstr, consoleread, Instr.Noted, Loc.note]
  | pause n x =>
    cases x with
    | loop ticks0 =>
      intro inp tb d _
      dsimp only
      split_ifs <;> trivial
    | killed n => exact fun _ _ => ⟨trivial, trivial⟩
    | sleep n => exact ⟨fun _ _ => trivial, fun _ => trivial⟩
    | _ => simp [procInstr, pause, Instr.Noted, Loc.note]
  | fork x =>
    cases x with
    | scan i =>
      simp only [procInstr, kfork]
      split
      · exact fun _ => trivial
      · exact fun _ _ _ _ => trivial
    | test np =>
      intro inp tb d _
      dsimp only
      split_ifs <;> trivial
    | _ => simp [procInstr, kfork, Instr.Noted, Loc.note]
  | exit status x =>
    cases x with
    | start =>
      simp only [procInstr, kexit]
      split
      · trivial
      · exact fun _ _ _ _ => trivial
    | close =>
      intro inp tb d _
      dsimp only
      split <;> trivial
    | reparent i =>
      intro inp tb d _
      dsimp only
      split_ifs <;> trivial
    | _ => simp [procInstr, kexit, Instr.Noted, Loc.note]
  | wait addr x =>
    cases x with
    | scan i havekids | test pp =>
      intro inp tb d _
      dsimp only
      split_ifs <;> trivial
    | killed => exact fun _ _ => ⟨trivial, trivial⟩
    | sleep => exact ⟨fun _ _ => trivial, fun _ => trivial⟩
    | _ => simp [procInstr, kwait, Instr.Noted, Loc.note]
  | fault x => cases x <;> simp [procInstr, setkilled, Instr.Noted, Loc.note]
  | _ => simp [procInstr, Instr.Noted, Loc.note]

/-- What is known at a place is about pipes whose lock is held there. -/
theorem Loc.note_congr (h : ∀ k, procOwn p x (.cond (.pipe k)) → pipe' k = pipe k)
    (hx : x.note pipe) : x.note pipe' := by
  cases x with
  | pipewrite k n x =>
    cases x with
    | killed | full | wakeFull | sleep =>
      simp only [Loc.note] at hx ⊢
      rwa [h k ⟨by simp, rfl⟩]
    | _ => trivial
  | piperead k n x =>
    cases x with
    | killed | sleep | copy | wake | release =>
      simp only [Loc.note] at hx ⊢
      rwa [h k ⟨by simp, rfl⟩]
    | _ => trivial
  | _ => trivial

theorem Loc.sleepNote_congr (h : ∀ k, procOwn p x (.cond (.pipe k)) → pipe' k = pipe k)
    (hx : x.sleepNote pipe) : x.sleepNote pipe' := by
  cases x with
  | pipewrite k n x =>
    cases x with
    | loop =>
      simp only [Loc.sleepNote] at hx ⊢
      rwa [h k ⟨by simp, rfl⟩]
    | _ => trivial
  | piperead k n x =>
    cases x with
    | loop =>
      simp only [Loc.sleepNote] at hx ⊢
      rwa [h k ⟨by simp, rfl⟩]
    | _ => trivial
  | _ => trivial

theorem Pc.note_congr {pc : Pc CondLock Loc}
    (h : ∀ k, pc.own (procOwn p) (.proc p) (.cond (.pipe k)) → pipe' k = pipe k)
    (hpc : pc.note pipe) : pc.note pipe' := by
  cases pc with
  | code x | wakeup _ _ x => exact Loc.note_congr h hpc
  | wakeupLocked _ _ x => exact Loc.note_congr (fun k hk => h k (Or.inl hk)) hpc
  | killedLocked x y =>
    exact ⟨Loc.note_congr (fun k hk => h k (Or.inl (Or.inl hk))) hpc.1,
      Loc.note_congr (fun k hk => h k (Or.inl (Or.inr hk))) hpc.2⟩
  | sleepLocked _ _ x => exact ⟨Loc.sleepNote_congr (fun k hk => h k (Or.inl hk)) hpc.1, hpc.2⟩
  | _ => exact hpc

theorem note_next {tb : Table} {d : Data} {pc pc' : Pc CondLock Loc} {act : Act CondLock Data}
    (h : Next kernel (.proc p) i tb d pc act pc') (hact : ∀ d', act ≠ .data d')
    (hpc : pc.note d.pipe) : pc'.note d.pipe := by
  have hnoted := procInstr_noted p
  cases h with
  | acquire x _ _ hx | release x _ _ hx | table x _ _ hx | kkill x _ _ hx | yield _ x _ _ hx
  | sched x _ hx =>
    have hx' := hnoted x
    rw [show procInstr p x = _ from hx] at hx'
    first
      | exact hx'
      | exact hx' d.pipe
  | compute => exact absurd rfl (hact _)
  | sleep _ x _ _ _ _ hx =>
    have hx' := hnoted x
    rw [show procInstr p x = _ from hx] at hx'
    exact ⟨hx'.1 d.pipe hpc, hx'.2⟩
  | wakeup x _ _ hx | killed _ x _ _ _ hx =>
    have hx' := hnoted x
    rw [show procInstr p x = _ from hx] at hx'
    exact hx' d.pipe hpc
  | sleepLocked => exact hpc.2
  | relock | kkillNone | kkillHit | resumed => exact hpc d.pipe
  | killedLocked _ x y =>
    split
    · exact hpc.1
    · exact hpc.2
  | _ => exact hpc

/-- Every process knows what its place says. -/
def Noted (s : KState) : Prop := ∀ p, (s.pc (.proc p)).note s.data.pipe

theorem Noted.own_step (hn : Noted s) (h : step kernel s (.run (.proc p) i) = some s') :
    (s'.pc (.proc p)).note s'.data.pipe := by
  obtain ⟨pc, act, pc', s₁, -, hpc, hnext, hacted, rfl⟩ := step_run h
  have hnote := hn p
  rw [hpc] at hnote
  rw [State.goto_pc_self, State.goto_data]
  cases hacted with
  | data d =>
    cases hnext with
    | compute x f hx =>
      have hx' := procInstr_noted p x
      rw [show procInstr p x = _ from hx] at hx'
      exact hx' i s.proc s.data hnote
  | table op =>
    rw [State.table_data]
    exact note_next hnext (by simp) hnote
  | _ => exact note_next hnext (by simp) hnote

theorem Noted.step (hn : Noted s) (hs : Base s) (h : step kernel s a = some s') : Noted s' := by
  intro p
  by_cases ha : ∃ i, a = .run (.proc p) i
  · obtain ⟨i, rfl⟩ := ha
    exact hn.own_step h
  · have ha' : ∀ i, a ≠ .run (.proc p) i := fun i hi => ha ⟨i, hi⟩
    rcases hs.pc_other h ha' with ⟨hkept, -⟩ | ⟨np, q, i, y, -, -, -, -, hnew⟩ | ⟨q, -, -, hresume⟩
    · rw [hkept]
      refine Pc.note_congr (p := p) (fun k hk => ?_) (hn p)
      exact hs.pipe_kept h (hs.holds.lock (.proc p) _ (by simp) hk) ha'
    · rw [hnew]
      exact fun _ => trivial
    · have hnote := hn p
      rcases Pc.resume_cases hresume with ⟨c, l, y, hold, hback⟩ | ⟨y, hold, hback⟩
      · rw [hold] at hnote
        rw [hback]
        exact hnote
      · rw [hold] at hnote
        rw [hback]
        exact hnote

theorem boot_noted (data : ℕ → ℕ → UInt8) : Noted (boot data) := fun _ _ => trivial

theorem Reachable.noted (hs : Reachable s) : Noted s := by
  obtain ⟨data, h, hrun⟩ := hs
  have hinv := hrun.invariant (I := fun s => Base s ∧ Noted s) ⟨boot_base data, boot_noted data⟩
    fun _ _ _ ht _ hstep => ⟨ht.1.step hstep, ht.2.step ht.1 hstep⟩
  exact hinv.2

/-- **Pipe stream integrity.**  The bytes stored by writers are those delivered to readers followed
by those in the buffer, in order; the counters are at most `PIPESIZE` apart, modulo 2^32; and a
`piperead` of at least one byte that returns 0 has found the pipe empty and its write end closed. -/
theorem pipe_stream_integrity (hs : Reachable s) (k : ℕ) :
    (∃ pending : List UInt8,
      (s.data.pipe k).accepted = (s.data.pipe k).delivered ++ pending ∧
      (∀ j (hj : j < pending.length),
        (s.data.pipe k).data (((s.data.pipe k).nread + j) % PIPESIZE) = pending[j]) ∧
      ((s.data.pipe k).nwrite + UINT - (s.data.pipe k).nread) % UINT = pending.length ∧
      pending.length ≤ PIPESIZE) ∧
    (s.data.pipe k).delivered <+: (s.data.pipe k).accepted ∧
    ∀ p n, s.pc (.proc p) = .code (.piperead k n (.release 0)) → 0 < n →
      (s.data.pipe k).Empty ∧ (s.data.pipe k).writeopen = false := by
  obtain ⟨pending, hring, haccepted⟩ := hs.streams k
  refine ⟨⟨pending, haccepted, hring.get, ?_, hring.length_le⟩, ⟨pending, haccepted.symm⟩, ?_⟩
  · exact hring.distance (by decide)
  · intro p n hpc hn
    have hnote := hs.noted p
    rw [hpc] at hnote
    exact hnote rfl hn

/-- The first process writes a byte and reads it, closes the write end and reads again. -/
def pipeActs : List KLabel :=
  [.dispatch 0] ++ acts 0 (.pipewrite 0 1) 142 ++ acts 0 (.piperead 0 1) 139 ++
    acts 0 (.pipeclose 0 true) 137 ++ acts 0 (.piperead 0 1) 135

theorem pipe_stream_integrity_of_one_byte :
    ∃ s, Reachable s ∧ (s.data.pipe 0).delivered = [7] ∧
      (s.data.pipe 0).delivered <+: (s.data.pipe 0).accepted ∧
      (s.data.pipe 0).Empty ∧ (s.data.pipe 0).writeopen = false := by
  have hexec : ((exec (Sync.step kernel) boot₀ pipeActs).map fun s =>
      ((s.data.pipe 0).delivered, s.pc (.proc 0))) =
      some ([7], .code (.piperead 0 1 (.release 0))) := by
    decide +kernel
  obtain ⟨s, hs, hfields⟩ := Option.map_eq_some_iff.mp hexec
  obtain ⟨hdelivered, hpc⟩ := Prod.mk.inj hfields
  have hreach := reachable_of_exec hs
  obtain ⟨-, hpre, hzero⟩ := pipe_stream_integrity hreach 0
  exact ⟨s, hreach, hdelivered, hpre, hzero 0 1 hpc (by decide)⟩

end Sync
end Xv6
