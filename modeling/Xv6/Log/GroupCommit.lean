import Xv6.Log.Protocol

/-!
# Group commit

A transaction is what has been logged between two commits, and `end_op` starts a commit only when
it has ended the last operation.  This file proves, for any number of processes and every
interleaving of their sections, that the writes of one operation are committed together
(`GroupCommit`), that `end_op` does not find a commit in progress, and that no process sleeps in
`begin_op` though it could be admitted.

The invariant comes in three parts: who is where (`Control`), who sleeps (`Sleepers`), and what
has been logged by whom (`Logged`).
-/

namespace Xv6
namespace Log

open Transition

variable {P : Type*} {p : P} {pc : CommitPc} {op : ℕ} {h : List (Act P)}

/-! ## Control -/

/-- `log.outstanding` counts the processes inside operations, `log.committing` says that one
process is in `commit`, and then there is no operation. -/
structure Control (s : State P) : Prop where
  outstanding : ∃ inside : Finset P, (∀ p, p ∈ inside ↔ ∃ op, s.phase p = .inOp op) ∧
    s.outstanding = inside.card
  committing : s.committing = true ↔ ∃ p pc, s.phase p = .commit pc
  unique : ∀ p q pc pc', s.phase p = .commit pc → s.phase q = .commit pc' → p = q
  quiet : s.committing = true → ∀ p op, s.phase p ≠ .inOp op
  op_lt : ∀ p op, s.phase p = .inOp op → op < s.nextOp
  op_unique : ∀ p q op, s.phase p = .inOp op → s.phase q = .inOp op → p = q

variable {s s' : State P} {a : Act P}

theorem Control.no_op (hs : Control s) (h : s.phase p = .commit pc) :
    ∀ q op, s.phase q ≠ .inOp op :=
  hs.quiet (hs.committing.mpr ⟨p, pc, h⟩)

theorem Control.outstanding_of_quiet (hs : Control s) (h : ∀ q op, s.phase q ≠ .inOp op) :
    s.outstanding = 0 := by
  obtain ⟨inside, hmem, hcard⟩ := hs.outstanding
  have hempty : inside = ∅ := by
    refine Finset.eq_empty_of_forall_notMem fun q hq => ?_
    obtain ⟨op, hop⟩ := (hmem q).mp hq
    exact h q op hop
  rw [hcard, hempty, Finset.card_empty]
  rfl

theorem Control.not_committing (hs : Control s) (h : s.phase p = .inOp op) :
    s.committing = false := by
  cases hc : s.committing with
  | false => rfl
  | true => exact absurd h (hs.quiet hc p op)

theorem Control.of_no_op (hop : ∀ q op, s.phase q ≠ .inOp op) (hout : s.outstanding = 0)
    (hcom : s.committing = true ↔ ∃ p pc, s.phase p = .commit pc)
    (huniq : ∀ p q pc pc', s.phase p = .commit pc → s.phase q = .commit pc' → p = q) :
    Control s where
  outstanding := by
    refine ⟨∅, fun q => ⟨fun hq => absurd hq (Finset.notMem_empty q), ?_⟩, hout⟩
    rintro ⟨op, hq⟩
    exact absurd hq (hop q op)
  committing := hcom
  unique := huniq
  quiet := fun _ => hop
  op_lt := fun q op hq => absurd hq (hop q op)
  op_unique := fun q _ op hq => absurd hq (hop q op)

/-- Moving a process that is neither inside an operation nor in `commit` between such phases. -/
theorem Control.of_idle (hs : Control s) (hout : s'.outstanding = s.outstanding)
    (hcom : s'.committing = s.committing) (hnext : s'.nextOp = s.nextOp)
    (hop : ∀ q op, s'.phase q = .inOp op ↔ s.phase q = .inOp op)
    (hpc : ∀ q pc, s'.phase q = .commit pc ↔ s.phase q = .commit pc) : Control s' where
  outstanding := by
    obtain ⟨inside, hmem, hcard⟩ := hs.outstanding
    exact ⟨inside, fun p => by simp only [hop]; exact hmem p, by rw [hout, hcard]⟩
  committing := by
    simp only [hcom, hpc]
    exact hs.committing
  unique := by
    simp only [hpc]
    exact hs.unique
  quiet := by
    simp only [hcom, ne_eq, hop]
    exact hs.quiet
  op_lt := by
    simp only [hop, hnext]
    exact hs.op_lt
  op_unique := by
    simp only [hop]
    exact hs.op_unique

variable [DecidableEq P]

theorem Control.enter (hs : Control s) (hp : s.phase p = .idle ∨ s.phase p = .retry)
    (hc : s.committing = false) : Control (s.enter p) := by
  have hnot : ∀ op, s.phase p ≠ .inOp op := by
    intro op hop
    rcases hp with hp | hp <;> exact absurd (hp.symm.trans hop) (by simp)
  refine ⟨?_, ?_, ?_, ?_, ?_, ?_⟩
  · obtain ⟨inside, hmem, hcard⟩ := hs.outstanding
    have hfresh : p ∉ inside := fun h => by
      obtain ⟨op, hop⟩ := (hmem p).mp h
      exact hnot op hop
    refine ⟨insert p inside, fun q => ?_, ?_⟩
    · rw [Finset.mem_insert, hmem q, State.enter_phase]
      by_cases hqp : q = p <;> simp [hqp]
    · rw [Finset.card_insert_of_notMem hfresh]
      show s.outstanding + 1 = _
      rw [hcard]
      push_cast
      rfl
  · show s.committing = true ↔ _
    rw [hs.committing]
    constructor
    · rintro ⟨q, pc, hq⟩
      refine ⟨q, pc, ?_⟩
      rw [State.enter_phase, if_neg]
      · exact hq
      · rintro rfl
        rcases hp with hp | hp <;> exact absurd (hp.symm.trans hq) (by simp)
    · rintro ⟨q, pc, hq⟩
      rw [State.enter_phase] at hq
      split at hq
      · exact absurd hq (by simp)
      · exact ⟨q, pc, hq⟩
  · intro q r pc pc' hq hr
    rw [State.enter_phase] at hq hr
    split at hq
    · exact absurd hq (by simp)
    · split at hr
      · exact absurd hr (by simp)
      · exact hs.unique q r pc pc' hq hr
  · intro h
    exact absurd (hc.symm.trans h) (by simp)
  · intro q op hq
    show op < s.nextOp + 1
    rw [State.enter_phase] at hq
    split at hq
    · rw [← Phase.inOp.inj hq]
      omega
    · have hlt := hs.op_lt q op hq
      omega
  · intro q r op hq hr
    rw [State.enter_phase] at hq hr
    split at hq
    · rename_i hqp
      split at hr
      · rename_i hrp
        rw [hqp, hrp]
      · have hlt := hs.op_lt r op hr
        rw [← Phase.inOp.inj hq] at hlt
        omega
    · split at hr
      · have hlt := hs.op_lt q op hq
        rw [← Phase.inOp.inj hr] at hlt
        omega
      · exact hs.op_unique q r op hq hr

theorem Control.endLast (hs : Control s) (hp : s.phase p = .inOp op) (hc : s.committing = false)
    (h1 : s.outstanding = 1) :
    Control ({ s with outstanding := 0, committing := true }.setPhase p (.commit .start)) := by
  -- `p` is the only process inside an operation, and nobody commits
  have hnone : ∀ q, q ≠ p → ∀ op', s.phase q ≠ .inOp op' := by
    intro q hqp op' hq
    obtain ⟨inside, hmem, hcard⟩ := hs.outstanding
    have hone : inside.card = 1 := by omega
    obtain ⟨r, hr⟩ := Finset.card_eq_one.mp hone
    have hpr := (hmem p).mpr ⟨op, hp⟩
    have hqr := (hmem q).mpr ⟨op', hq⟩
    rw [hr, Finset.mem_singleton] at hpr hqr
    exact hqp (hqr.trans hpr.symm)
  have hidle : ∀ q pc, s.phase q ≠ .commit pc := by
    intro q pc hq
    exact absurd (hc.symm.trans (hs.committing.mpr ⟨q, pc, hq⟩)) (by simp)
  have hphase : ∀ q op', (State.setPhase { s with outstanding := 0, committing := true } p
      (.commit .start)).phase q ≠ .inOp op' := by
    intro q op' hq
    rw [State.setPhase_phase] at hq
    split at hq
    · exact absurd hq (by simp)
    · rename_i hqp
      exact hnone q hqp op' hq
  refine Control.of_no_op hphase rfl ⟨fun _ => ⟨p, .start, by simp⟩, fun _ => rfl⟩ ?_
  intro q r pc pc' hq hr
  rw [State.setPhase_phase] at hq hr
  split at hq
  · rename_i hqp
    split at hr
    · rename_i hrp
      rw [hqp, hrp]
    · exact absurd hr (hidle r pc')
  · exact absurd hq (hidle q pc)

theorem Control.endOther (hs : Control s) (hp : s.phase p = .inOp op) (hc : s.committing = false) :
    Control ({ s with outstanding := s.outstanding - 1 }.wakeup.setPhase p .idle) := by
  have hidle : ∀ q pc, s.phase q ≠ .commit pc := by
    intro q pc hq
    exact absurd (hc.symm.trans (hs.committing.mpr ⟨q, pc, hq⟩)) (by simp)
  have hop : ∀ q op', (State.setPhase ({ s with outstanding := s.outstanding - 1 } : State P).wakeup
      p .idle).phase q = .inOp op' ↔ q ≠ p ∧ s.phase q = .inOp op' := by
    intro q op'
    rw [State.setPhase_phase, State.wakeup_phase]
    by_cases hqp : q = p
    · simp [hqp]
    · by_cases hq : s.phase q = .asleep <;> simp [hqp, hq]
  have hpc : ∀ q pc, (State.setPhase ({ s with outstanding := s.outstanding - 1 } : State P).wakeup
      p .idle).phase q ≠ .commit pc := by
    intro q pc
    rw [State.setPhase_phase, State.wakeup_phase]
    by_cases hqp : q = p
    · simp [hqp]
    · by_cases hq : s.phase q = .asleep
      · simp [hqp, hq]
      · simpa [hqp, hq] using hidle q pc
  refine ⟨?_, ⟨fun h => absurd (hc.symm.trans h) (by simp), ?_⟩, ?_, ?_, ?_, ?_⟩
  · obtain ⟨inside, hmem, hcard⟩ := hs.outstanding
    have hin : p ∈ inside := (hmem p).mpr ⟨op, hp⟩
    refine ⟨inside.erase p, fun q => ?_, ?_⟩
    · rw [Finset.mem_erase, hmem q]
      simp only [hop]
      exact exists_and_left.symm
    · show s.outstanding - 1 = _
      have hpos : 0 < inside.card := Finset.card_pos.mpr ⟨p, hin⟩
      rw [Finset.card_erase_of_mem hin, hcard]
      omega
  · rintro ⟨q, pc, hq⟩
    exact absurd hq (hpc q pc)
  · intro q r pc pc' hq
    exact absurd hq (hpc q pc)
  · intro h
    exact absurd (hc.symm.trans h) (by simp)
  · intro q op' hq
    exact hs.op_lt q op' ((hop q op').mp hq).2
  · intro q r op' hq hr
    exact hs.op_unique q r op' ((hop q op').mp hq).2 ((hop r op').mp hr).2

theorem Control.commit (hs : Control s) {pc' : CommitPc} (hp : s.phase p = .commit pc) {t : State P}
    (hphase : t.phase = s.phase) (hout : t.outstanding = s.outstanding)
    (hcom : t.committing = s.committing) : Control (t.setPhase p (.commit pc')) := by
  have hquiet := hs.no_op hp
  have hop : ∀ q op, (t.setPhase p (.commit pc')).phase q ≠ .inOp op := by
    intro q op hq
    rw [State.setPhase_phase, hphase] at hq
    split at hq
    · exact absurd hq (by simp)
    · exact hquiet q op hq
  have hself : ∀ q pc'', (t.setPhase p (.commit pc')).phase q = .commit pc'' → q = p := by
    intro q pc'' hq
    rw [State.setPhase_phase, hphase] at hq
    split at hq
    · assumption
    · exact hs.unique q p pc'' pc hq hp
  refine Control.of_no_op hop (hout.trans (hs.outstanding_of_quiet hquiet)) ?_ ?_
  · show t.committing = true ↔ _
    rw [hcom]
    exact ⟨fun _ => ⟨p, pc', by simp⟩, fun _ => hs.committing.mpr ⟨p, pc, hp⟩⟩
  · intro q r pc₁ pc₂ hq hr
    rw [hself q pc₁ hq, hself r pc₂ hr]

theorem Control.endCommit (hs : Control s) (hp : s.phase p = .commit pc) :
    Control ({ s with committing := false }.wakeup.setPhase p .idle) := by
  have hquiet := hs.no_op hp
  have hop : ∀ q op, (State.setPhase ({ s with committing := false } : State P).wakeup p
      .idle).phase q ≠ .inOp op := by
    intro q op
    rw [State.setPhase_phase, State.wakeup_phase]
    by_cases hqp : q = p
    · simp [hqp]
    · by_cases hq : s.phase q = .asleep
      · simp [hqp, hq]
      · simpa [hqp, hq] using hquiet q op
  have hpc : ∀ q pc', (State.setPhase ({ s with committing := false } : State P).wakeup p
      .idle).phase q ≠ .commit pc' := by
    intro q pc'
    rw [State.setPhase_phase, State.wakeup_phase]
    by_cases hqp : q = p
    · simp [hqp]
    · by_cases hq : s.phase q = .asleep
      · simp [hqp, hq]
      · simp only [hqp, if_false, hq]
        exact fun hq' => hqp (hs.unique q p pc' pc hq' hp)
  refine Control.of_no_op hop (hs.outstanding_of_quiet hquiet) ?_
    fun q _ pc₁ _ hq => absurd hq (hpc q pc₁)
  constructor
  · intro h
    exact absurd h (by simp [State.setPhase, State.wakeup])
  · rintro ⟨q, pc', hq⟩
    exact absurd hq (hpc q pc')

/-- **Control is kept by every move.** -/
theorem Control.of_move (hs : Control s) (h : Move s a s') : Control s' := by
  cases h with
  | sleep p hp =>
    refine hs.of_idle rfl rfl rfl (fun q op => ?_) (fun q pc => ?_) <;>
    · rw [State.setPhase_phase]
      by_cases hqp : q = p
      · subst hqp
        rcases hp with hp | hp <;> simp [hp]
      · simp [hqp]
  | enter p hp hc => exact hs.enter hp hc
  | kkill p hp =>
    refine hs.of_idle rfl rfl rfl (fun q op => ?_) (fun q pc => ?_) <;>
    · rw [State.setPhase_phase]
      by_cases hqp : q = p
      · subst hqp
        simp [hp]
      · simp [hqp]
  | logWrite p op b hp hlen => exact hs.of_idle rfl rfl rfl (fun _ _ => Iff.rfl) fun _ _ => Iff.rfl
  | endLast p op hp hc h1 => exact hs.endLast hp hc h1
  | endOther p op hp hc => exact hs.endOther hp hc
  | advance p pc pc' hp => exact hs.commit hp rfl rfl rfl
  | writeHead p hp => exact hs.commit hp rfl rfl rfl
  | clear p hp => exact hs.commit hp rfl rfl rfl
  | endCommit p hp => exact hs.endCommit hp

omit [DecidableEq P] in
theorem control_init : Control (init : State P) := by
  refine Control.of_no_op (fun q op => by simp [init]) rfl ?_ fun p q pc pc' h => ?_
  · constructor
    · intro h
      exact absurd h (by simp [init])
    · rintro ⟨p, pc, h⟩
      exact absurd h (by simp [init])
  · exact absurd h (by simp [init])

/-! ## Sleepers -/

/-- A process sleeps in `begin_op` only while it could not be admitted. -/
def Sleepers (s : State P) : Prop :=
  ∀ p, s.phase p = .asleep → s.committing = true ∨ ¬ s.admits

omit [DecidableEq P] in
theorem admits_of_length_le {t : State P} (hout : t.outstanding = s.outstanding)
    (hlen : s.lh.length ≤ t.lh.length) (h : t.admits) : s.admits := by
  simp only [State.admits, hout] at h ⊢
  omega

theorem Sleepers.of_move (hs : Sleepers s) (hc : Control s) (h : Move s a s') : Sleepers s' := by
  intro q hq
  cases h with
  | sleep p hp htest => exact htest
  | enter p hp hcom hadm =>
    rw [State.enter_phase] at hq
    split at hq
    · exact absurd hq (by simp)
    · rcases hs q hq with h | h
      · exact absurd (hcom.symm.trans h) (by simp)
      · exact absurd hadm h
  | kkill p hp =>
    rw [State.setPhase_phase] at hq
    split at hq
    · exact absurd hq (by simp)
    · exact hs q hq
  | logWrite p op b hp hlen =>
    refine (hs q hq).imp_right fun hfull hadm => hfull ?_
    refine admits_of_length_le (t := s.record op b) rfl ?_ hadm
    simp only [State.record]
    split
    · exact le_refl _
    · rw [List.length_append]
      omega
  | endLast p op hp hcom h1 => exact Or.inl rfl
  | endOther p op hp hcom h1 =>
    rw [State.setPhase_phase, State.wakeup_phase] at hq
    split at hq
    · exact absurd hq (by simp)
    · split at hq
      · exact absurd hq (by simp)
      · exact absurd hq ‹_›
  | advance p pc pc' hp hadv => exact Or.inl (hc.committing.mpr ⟨p, pc, hp⟩)
  | writeHead p hp => exact Or.inl (hc.committing.mpr ⟨p, _, hp⟩)
  | clear p hp => exact Or.inl (hc.committing.mpr ⟨p, _, hp⟩)
  | endCommit p hp =>
    rw [State.setPhase_phase, State.wakeup_phase] at hq
    split at hq
    · exact absurd hq (by simp)
    · split at hq
      · exact absurd hq (by simp)
      · exact absurd hq ‹_›

/-! ## What has been logged -/

/-- Between the header's write and `log.lh.n = 0`. -/
def CommitPc.Installing (pc : CommitPc) : Prop := (∃ tail, pc = .install tail) ∨ pc = .clear

/-- No process is between the header's write and `log.lh.n = 0`. -/
def NotInstalling (s : State P) : Prop := ∀ p pc, s.phase p = .commit pc → ¬ pc.Installing

/-- Two transactions share no operation. -/
def Txn.Apart (t t' : Txn) : Prop := ∀ w ∈ t.writes, ∀ w' ∈ t'.writes, w.op ≠ w'.op

/-- What has been logged, by whom, and in which transaction it went to disk. -/
structure Logged (s : State P) : Prop where
  nodup : s.lh.Nodup
  pending_lt : ∀ w ∈ s.pending, w.op < s.nextOp
  pending_mem : ∀ w ∈ s.pending, w.block ∈ s.lh
  header : NotInstalling s → ∀ b ∈ s.lh, ∃ w ∈ s.pending, w.block = b
  installing : ∀ p pc, s.phase p = .commit pc → pc.Installing → s.pending = []
  txn_nodup : ∀ t ∈ s.committed, t.blocks.Nodup
  txn_blocks : ∀ t ∈ s.committed, ∀ b, b ∈ t.blocks ↔ ∃ w ∈ t.writes, w.block = b
  txn_lt : ∀ t ∈ s.committed, ∀ w ∈ t.writes, w.op < s.nextOp
  txn_ended : ∀ t ∈ s.committed, ∀ w ∈ t.writes, ∀ p, s.phase p ≠ .inOp w.op
  txn_pending : ∀ t ∈ s.committed, ∀ w ∈ t.writes, ∀ w' ∈ s.pending, w.op ≠ w'.op
  apart : s.committed.Pairwise Txn.Apart

omit [DecidableEq P] in
theorem Logged.of_phase (hs : Logged s) (hlh : s'.lh = s.lh) (hpend : s'.pending = s.pending)
    (hcom : s'.committed = s.committed) (hnext : s.nextOp ≤ s'.nextOp)
    (hop : ∀ p op, s'.phase p = .inOp op → s.phase p = .inOp op ∨ s.nextOp ≤ op)
    (hnot : NotInstalling s' → NotInstalling s)
    (hinst : ∀ p pc, s'.phase p = .commit pc → pc.Installing → s.pending = []) : Logged s' where
  nodup := hlh ▸ hs.nodup
  pending_lt := fun w hw => lt_of_lt_of_le (hs.pending_lt w (hpend ▸ hw)) hnext
  pending_mem := fun w hw => hlh ▸ hs.pending_mem w (hpend ▸ hw)
  header := fun h b hb => by
    rw [hpend]
    exact hs.header (hnot h) b (hlh ▸ hb)
  installing := fun p pc hp hpc => by rw [hpend, hinst p pc hp hpc]
  txn_nodup := fun t ht => hs.txn_nodup t (hcom ▸ ht)
  txn_blocks := fun t ht => hs.txn_blocks t (hcom ▸ ht)
  txn_lt := fun t ht w hw => lt_of_lt_of_le (hs.txn_lt t (hcom ▸ ht) w hw) hnext
  txn_ended := fun t ht w hw p hp => by
    have hlt := hs.txn_lt t (hcom ▸ ht) w hw
    rcases hop p w.op hp with h | h
    · exact hs.txn_ended t (hcom ▸ ht) w hw p h
    · omega
  txn_pending := fun t ht w hw w' hw' => hs.txn_pending t (hcom ▸ ht) w hw w' (hpend ▸ hw')
  apart := hcom ▸ hs.apart

/-- Moving a process that has not written the header, to a phase in which it has not either. -/
theorem Logged.setPhase (hs : Logged s) {f : Phase}
    (hp : ∀ pc, s.phase p = .commit pc → ¬ pc.Installing) (hop : ∀ op, f = .inOp op → s.nextOp ≤ op)
    (hph : ∀ pc, f = .commit pc → ¬ pc.Installing) : Logged (s.setPhase p f) := by
  refine hs.of_phase rfl rfl rfl (le_refl _) (fun q op hq => ?_) (fun hnot q pc hq => ?_)
    (fun q pc hq hpc => ?_)
  · rw [State.setPhase_phase] at hq
    split at hq
    · exact Or.inr (hop op hq)
    · exact Or.inl hq
  · by_cases hqp : q = p
    · exact hp pc (hqp ▸ hq)
    · exact hnot q pc (by rw [State.setPhase_phase, if_neg hqp, hq])
  · rw [State.setPhase_phase] at hq
    split at hq
    · exact absurd hpc (hph pc hq)
    · exact hs.installing q pc hq hpc

omit [DecidableEq P] in
theorem Logged.wakeup (hs : Logged s) (out : ℤ) (com : Bool) :
    Logged ({ s with outstanding := out, committing := com } : State P).wakeup := by
  have hcommit : ∀ q pc, ({ s with outstanding := out, committing := com } : State P).wakeup.phase q
      = .commit pc → s.phase q = .commit pc := by
    intro q pc hq
    rw [State.wakeup_phase] at hq
    split at hq
    · exact absurd hq (by simp)
    · exact hq
  refine hs.of_phase rfl rfl rfl (le_refl _) (fun q op hq => Or.inl ?_) (fun hnot q pc hq => ?_)
    (fun q pc hq hpc => hs.installing q pc (hcommit q pc hq) hpc)
  · rw [State.wakeup_phase] at hq
    split at hq
    · exact absurd hq (by simp)
    · exact hq
  · refine hnot q pc ?_
    rw [State.wakeup_phase, if_neg]
    · exact hq
    · intro ha
      exact absurd (ha.symm.trans hq) (by simp)

omit [DecidableEq P] in
theorem Logged.record (hs : Logged s) (hc : Control s) (hp : s.phase p = .inOp op) (b : ℕ) :
    Logged (s.record op b) := by
  have hnone : ∀ q pc, s.phase q ≠ .commit pc :=
    fun q pc hq => hc.no_op hq p op hp
  have hmem : ∀ b', b' ∈ (s.record op b).lh ↔ b' ∈ s.lh ∨ b' = b := by
    intro b'
    simp only [State.record]
    split
    · rename_i hb
      constructor
      · exact Or.inl
      · rintro (h | rfl)
        · exact h
        · exact hb
    · simp
  refine ⟨?_, ?_, ?_, ?_, fun q pc hq => absurd hq (hnone q pc), hs.txn_nodup, hs.txn_blocks,
    hs.txn_lt, hs.txn_ended, ?_, hs.apart⟩
  · simp only [State.record]
    split
    · exact hs.nodup
    · rename_i hb
      exact List.nodup_append.mpr ⟨hs.nodup, List.nodup_singleton b, fun x hx y hy => by
        rw [List.mem_singleton] at hy
        rintro rfl
        exact hb (hy ▸ hx)⟩
  · intro w hw
    rcases List.mem_cons.mp hw with rfl | hw
    · exact hc.op_lt p op hp
    · exact hs.pending_lt w hw
  · intro w hw
    rw [hmem]
    rcases List.mem_cons.mp hw with rfl | hw
    · exact Or.inr rfl
    · exact Or.inl (hs.pending_mem w hw)
  · intro _ b' hb'
    rcases (hmem b').mp hb' with h | rfl
    · obtain ⟨w, hw, hwb⟩ := hs.header (fun q pc hq => absurd hq (hnone q pc)) b' h
      exact ⟨w, List.mem_cons_of_mem _ hw, hwb⟩
    · exact ⟨⟨op, b'⟩, List.mem_cons_self .., rfl⟩
  · intro t ht w hw w' hw'
    rcases List.mem_cons.mp hw' with rfl | hw'
    · intro heq
      exact hs.txn_ended t ht w hw p (heq ▸ hp)
    · exact hs.txn_pending t ht w hw w' hw'

theorem Logged.advance (hs : Logged s) {pc' : CommitPc} (hc : Control s)
    (hp : s.phase p = .commit pc) (hadv : Advance s pc pc') :
    Logged (s.setPhase p (.commit pc')) := by
  have hinst : pc'.Installing ↔ pc.Installing := by
    cases hadv <;> simp [CommitPc.Installing]
  refine hs.of_phase rfl rfl rfl (le_refl _) (fun q op hq => ?_) (fun hnot q pc₁ hq => ?_)
    (fun q pc₁ hq hpc => ?_)
  · rw [State.setPhase_phase] at hq
    split at hq
    · exact absurd hq (by simp)
    · exact Or.inl hq
  · have hqp : q = p := hc.unique q p pc₁ pc hq hp
    subst hqp
    have hpc : pc₁ = pc := Phase.commit.inj (hq.symm.trans hp)
    rw [hpc, ← hinst]
    exact hnot q pc' (by simp)
  · rw [State.setPhase_phase] at hq
    split at hq
    · rw [← Phase.commit.inj hq, hinst] at hpc
      exact hs.installing p pc hp hpc
    · exact hs.installing q pc₁ hq hpc

theorem Logged.writeHead (hs : Logged s) (hc : Control s) (hp : s.phase p = .commit .writeHead) :
    Logged (s.writeHead.setPhase p (.commit (.install 0))) := by
  have hquiet := hc.no_op hp
  have hnot : NotInstalling s := by
    intro q pc hq
    have hqp : q = p := hc.unique q p pc _ hq hp
    subst hqp
    rw [← Phase.commit.inj (hp.symm.trans hq)]
    simp [CommitPc.Installing]
  refine ⟨hs.nodup, fun w hw => absurd hw (List.not_mem_nil), fun w hw => absurd hw List.not_mem_nil,
    fun h => ?_, fun _ _ _ _ => rfl, ?_, ?_, ?_, ?_, fun _ _ _ _ w' hw' => absurd hw' List.not_mem_nil,
    ?_⟩
  · exact absurd (h p (.install 0) (by simp)) (by simp [CommitPc.Installing])
  · intro t ht
    rcases List.mem_cons.mp ht with rfl | ht
    · exact hs.nodup
    · exact hs.txn_nodup t ht
  · intro t ht b
    rcases List.mem_cons.mp ht with rfl | ht
    · constructor
      · exact hs.header hnot b
      · rintro ⟨w, hw, rfl⟩
        exact hs.pending_mem w hw
    · exact hs.txn_blocks t ht b
  · intro t ht w hw
    rcases List.mem_cons.mp ht with rfl | ht
    · exact hs.pending_lt w hw
    · exact hs.txn_lt t ht w hw
  · intro t _ w _ q hq
    rw [State.setPhase_phase] at hq
    split at hq
    · exact absurd hq (by simp)
    · exact hquiet q w.op hq
  · refine List.pairwise_cons.mpr ⟨fun t ht w hw w' hw' => ?_, hs.apart⟩
    exact (hs.txn_pending t ht w' hw' w hw).symm

theorem Logged.clear (hs : Logged s) (hp : s.phase p = .commit .clear) (hc : Control s) :
    Logged ({ s with lh := [] }.setPhase p (.commit .eraseHead)) := by
  have hpend : s.pending = [] := hs.installing p _ hp (Or.inr rfl)
  have hquiet := hc.no_op hp
  refine ⟨List.nodup_nil, hs.pending_lt, fun w hw => ?_, fun _ b hb => absurd hb List.not_mem_nil,
    fun _ _ _ _ => hpend, hs.txn_nodup, hs.txn_blocks, hs.txn_lt, fun t _ w _ q hq => ?_,
    hs.txn_pending, hs.apart⟩
  · have hw' : w ∈ s.pending := hw
    rw [hpend] at hw'
    exact absurd hw' List.not_mem_nil
  · rw [State.setPhase_phase] at hq
    split at hq
    · exact absurd hq (by simp)
    · exact hquiet q w.op hq

/-- **What has been logged stays accounted for.** -/
theorem Logged.of_move (hs : Logged s) (hc : Control s) (h : Move s a s') : Logged s' := by
  cases h with
  | sleep p hp htest =>
    refine hs.setPhase (fun pc hpc => ?_) (by simp) (by simp)
    rcases hp with hp | hp <;> exact absurd (hp.symm.trans hpc) (by simp)
  | enter p hp hcom hadm =>
    have hnone : ∀ pc, s.phase p = .commit pc → ¬ pc.Installing := by
      rintro pc hpc
      rcases hp with hp | hp <;> exact absurd (hp.symm.trans hpc) (by simp)
    refine (hs.setPhase (f := .inOp s.nextOp) hnone ?_ (by simp)).of_phase rfl rfl rfl
      (Nat.le_succ _) (fun q op hq => Or.inl hq) id fun q pc hq hpc => ?_
    · rintro op ⟨⟩
      exact le_refl _
    · rw [State.enter_phase] at hq
      split at hq
      · exact absurd hq (by simp)
      · exact hs.installing q pc hq hpc
  | kkill p hp =>
    exact hs.setPhase (fun pc hpc => absurd (hp.symm.trans hpc) (by simp)) (by simp) (by simp)
  | logWrite p op b hp hlen => exact hs.record hc hp b
  | endLast p op hp hcom h1 =>
    have hcommit := hs.setPhase (p := p) (f := .commit .start)
      (fun pc hpc => absurd (hp.symm.trans hpc) (by simp)) (by simp)
      (by rintro pc ⟨⟩; simp [CommitPc.Installing])
    exact hcommit.of_phase rfl rfl rfl (le_refl _) (fun _ _ hq => Or.inl hq) id
      hcommit.installing
  | endOther p op hp hcom h1 =>
    refine (hs.wakeup (s.outstanding - 1) s.committing).setPhase (fun pc hpc => ?_) (by simp)
      (by simp)
    rw [State.wakeup_phase, if_neg (by simp [hp])] at hpc
    exact absurd (hp.symm.trans hpc) (by simp)
  | advance p pc pc' hp hadv => exact hs.advance hc hp hadv
  | writeHead p hp => exact hs.writeHead hc hp
  | clear p hp => exact hs.clear hp hc
  | endCommit p hp =>
    refine (hs.wakeup s.outstanding false).setPhase (fun pc hpc => ?_) (by simp) (by simp)
    rw [State.wakeup_phase, if_neg (by simp [hp])] at hpc
    rw [← Phase.commit.inj (hp.symm.trans hpc)]
    simp [CommitPc.Installing]

omit [DecidableEq P] in
theorem logged_init : Logged (init : State P) := by
  refine ⟨List.nodup_nil, ?_, ?_, ?_, ?_, ?_, ?_, ?_, ?_, ?_, List.Pairwise.nil⟩ <;> simp [init]

/-! ## Every run -/

theorem reachable (hrun : Run Steps init h s) : Control s ∧ Sleepers s ∧ Logged s := by
  refine hrun.invariant (I := fun s => Control s ∧ Sleepers s ∧ Logged s)
    ⟨control_init, fun p hp => absurd hp (by simp [init]), logged_init⟩ ?_
  rintro s a s' ⟨hc, hsl, hl⟩ - hstep
  have hmove := move_of_step hstep
  exact ⟨hc.of_move hmove, hsl.of_move hc hmove, hl.of_move hc hmove⟩

/-- The writes that have been logged, committed or not. -/
def State.logged (s : State P) : List Write :=
  s.pending ++ s.committed.flatMap Txn.writes

theorem logged_of_move (h : Move s a s') {w : Write} (hw : w ∈ s.logged) : w ∈ s'.logged := by
  cases h with
  | logWrite p op b hp hlen => exact List.mem_cons_of_mem _ hw
  | writeHead p hp => exact hw
  | _ => exact hw

theorem logged_of_run (hrun : Run Steps s h s') {w : Write} (hw : w ∈ s.logged) : w ∈ s'.logged :=
  hrun.invariant (I := fun s => w ∈ s.logged) hw
    fun _ _ _ hw _ hstep => logged_of_move (move_of_step hstep) hw

omit [DecidableEq P] in
theorem logWrite_eq {b : ℕ} (hp : s.phase p = .inOp op) (h : stepLogWrite s p b = .next s') :
    s' = s.record op b := by
  rw [stepLogWrite, hp] at h
  dsimp only at h
  split at h
  · exact absurd h (by simp)
  · split at h
    · exact absurd h (by simp)
    · exact (Outcome.next.inj h).symm

/-- What the logging protocol guarantees of a state. -/
structure GroupCommit (s : State P) : Prop where
  /-- No operation has writes in two committed transactions, -/
  apart : s.committed.Pairwise Txn.Apart
  /-- or in a committed transaction and in the one that is being collected. -/
  whole : ∀ t ∈ s.committed, ∀ w ∈ t.writes, ∀ w' ∈ s.pending, w.op ≠ w'.op
  /-- A transaction's header lists the blocks its operations have written. -/
  blocks : ∀ t ∈ s.committed, ∀ b, b ∈ t.blocks ↔ ∃ w ∈ t.writes, w.block = b
  /-- The operations of a committed transaction have ended, -/
  ended : ∀ t ∈ s.committed, ∀ w ∈ t.writes, w.op < s.nextOp ∧ ∀ p, s.phase p ≠ .inOp w.op
  /-- as has every operation when a process is in `commit()`. -/
  alone : ∀ p pc, s.phase p = .commit pc →
    s.outstanding = 0 ∧ ∀ q op, s.phase q ≠ .inOp op
  /-- `lh.block[0..n)` has no block number twice. -/
  nodup : s.lh.Nodup
  /-- `end_op` does not panic. -/
  no_panic : ∀ p, step s (.endOp p) ≠ .panic .logCommitting
  /-- Who could be admitted does not sleep. -/
  awake : s.committing = false → s.admits → ∀ p, s.phase p ≠ .asleep

theorem Control.endOp_ne_panic (hs : Control s) (p : P) :
    step s (.endOp p) ≠ .panic .logCommitting := by
  intro h
  replace h : stepEndOp s p = .panic .logCommitting := h
  rw [stepEndOp] at h
  split at h
  · rename_i op hp
    dsimp only at h
    rw [hs.not_committing hp] at h
    split at h
    · exact absurd ‹false = true› (by simp)
    · split at h <;> exact absurd h (by simp)
  · exact absurd h (by simp)

/-- **Group commit**, for any set of processes and every interleaving: every state of every run is
as `GroupCommit` says, and a block logged inside an operation is from then on in the transaction
that is being collected or in a committed one. -/
theorem group_commit {h : List (Act P)} (hrun : Run Steps init h s) :
    GroupCommit s ∧
      ∀ p op b, s.phase p = .inOp op → ∀ s₁, Steps s (.logWrite p b) s₁ →
        ∀ h' u, Run Steps s₁ h' u →
          ⟨op, b⟩ ∈ u.pending ∨ ∃ t ∈ u.committed, ⟨op, b⟩ ∈ t.writes ∧ b ∈ t.blocks := by
  obtain ⟨hc, hsl, hl⟩ := reachable hrun
  refine ⟨⟨hl.apart, hl.txn_pending, hl.txn_blocks,
    fun t ht w hw => ⟨hl.txn_lt t ht w hw, hl.txn_ended t ht w hw⟩,
    fun p pc hp => ⟨hc.outstanding_of_quiet (hc.no_op hp), hc.no_op hp⟩, hl.nodup,
    hc.endOp_ne_panic, fun hcom hadm p hp => ?_⟩, ?_⟩
  · rcases hsl p hp with h | h
    · exact absurd (hcom.symm.trans h) (by simp)
    · exact h hadm
  · intro p op b hp s₁ hstep h' u hrun'
    have hs₁ : s₁ = s.record op b := logWrite_eq hp (Outcome.next?_eq_some hstep)
    have hmem : (⟨op, b⟩ : Write) ∈ u.logged := by
      refine logged_of_run hrun' ?_
      rw [hs₁]
      exact List.mem_append_left _ (List.mem_cons_self ..)
    rcases List.mem_append.mp hmem with hpend | hcom
    · exact Or.inl hpend
    · obtain ⟨t, ht, hw⟩ := List.mem_flatMap.mp hcom
      have hu := (reachable ((RunWith.step hrun trivial hstep).trans hrun')).2.2
      exact Or.inr ⟨t, ht, hw, (hu.txn_blocks t ht b).mpr ⟨_, hw, rfl⟩⟩

/-- Two processes log the same block in overlapping operations, and the second `end_op` commits
both. -/
theorem group_commit_overlapping :
    ∃ (s : State Bool) (h : List (Act Bool)), Run Steps init h s ∧
      s.committed = [⟨[45, 46], [⟨1, 46⟩, ⟨1, 45⟩, ⟨0, 45⟩]⟩] ∧ GroupCommit s := by
  let acts : List (Act Bool) := [.beginOp false, .beginOp true, .logWrite false 45,
    .logWrite true 45, .endOp false, .logWrite true 46, .endOp true, .commit true, .commit true,
    .commit true, .commit true, .commit true]
  have hacts : (exec (fun s a => (step s a).next?) (init : State Bool) acts).map State.committed =
      some [⟨[45, 46], [⟨1, 46⟩, ⟨1, 45⟩, ⟨0, 45⟩]⟩] := by decide +kernel
  obtain ⟨s, hexec, hcom⟩ := Option.map_eq_some_iff.mp hacts
  exact ⟨s, _, run_of_execWith hexec, hcom, (group_commit (run_of_execWith hexec)).1⟩

end Log
end Xv6
