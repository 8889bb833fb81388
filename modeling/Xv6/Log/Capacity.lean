import Xv6.Log.GroupCommit

/-!
# The capacity of the log

`begin_op` reserves `MAXOPBLOCKS` blocks of the log for every operation.  As long as no operation
logs more distinct blocks than that, the blocks in the header and what the running operations may
still add fit into `LOGBLOCKS` blocks (`Budget`): an operation pays for a new block of the header
from its own reservation.  So the header never overflows.

`log_write` however tests `log.lh.n >= LOGBLOCKS` before it looks whether the block is in the
header already.  An operation may have used up its reservation, and the log be full, and the
operation may then log one of its blocks again.  This needs no room, and panics
(`not_capacitySafe`).  It is the only way to the panic (`log_write_panic_iff`).
-/

namespace Xv6
namespace Log

open Transition

variable {P : Type*} {op b : ℕ} {p : P}

/-- The distinct blocks operation `op` has logged. -/
def State.opBlocks (s : State P) (op : ℕ) : Finset ℕ :=
  ((s.pending.filter fun w => w.op = op).map Write.block).toFinset

theorem State.mem_opBlocks {s : State P} : b ∈ s.opBlocks op ↔ ⟨op, b⟩ ∈ s.pending := by
  simp only [State.opBlocks, List.mem_toFinset, List.mem_map, List.mem_filter,
    decide_eq_true_eq]
  constructor
  · rintro ⟨w, ⟨hw, rfl⟩, rfl⟩
    exact hw
  · intro h
    exact ⟨_, ⟨h, rfl⟩, rfl⟩

theorem State.record_opBlocks (s : State P) (op b : ℕ) :
    (s.record op b).opBlocks op = insert b (s.opBlocks op) := by
  ext b'
  rw [mem_opBlocks, Finset.mem_insert, mem_opBlocks, State.record, List.mem_cons, Write.mk.injEq]
  simp

theorem State.record_opBlocks_of_ne (s : State P) {op' : ℕ} (b : ℕ) (h : op' ≠ op) :
    (s.record op b).opBlocks op' = s.opBlocks op' := by
  ext b'
  rw [mem_opBlocks, mem_opBlocks, State.record, List.mem_cons, Write.mk.injEq]
  simp [h]

/-- An operation logs at most `MAXOPBLOCKS` distinct blocks; it may log each of them many times. -/
def WithinBudget (s : State P) : Act P → Prop
  | .logWrite p blockno =>
    match s.phase p with
    | .inOp op => (insert blockno (s.opBlocks op)).card ≤ MAXOPBLOCKS
    | _ => True
  | _ => True

theorem withinBudget_logWrite {s : State P} (hp : s.phase p = .inOp op) :
    WithinBudget s (.logWrite p b) ↔ (insert b (s.opBlocks op)).card ≤ MAXOPBLOCKS := by
  simp only [WithinBudget, hp]

instance (s : State P) : DecidablePred (WithinBudget s)
  | .logWrite p blockno =>
    match h : s.phase p with
    | .inOp _ => decidable_of_iff _ (withinBudget_logWrite h).symm
    | .idle | .asleep | .retry | .commit _ => isTrue (by simp [WithinBudget, h])
  | .beginOp _ => isTrue trivial
  | .kkill _ => isTrue trivial
  | .endOp _ => isTrue trivial
  | .commit _ => isTrue trivial
  | .endCommit _ => isTrue trivial

/-! ## The budget -/

/-- What operation `op` may still add to the header. -/
def State.left (s : State P) (op : ℕ) : ℕ := MAXOPBLOCKS - (s.opBlocks op).card

/-- The header and what the running operations may still add to it fit into the log. -/
def Budget (s : State P) : Prop :=
  ∃ ops : Finset ℕ, (∀ op, op ∈ ops ↔ ∃ p, s.phase p = .inOp op) ∧
    s.outstanding = ops.card ∧ s.lh.length + ∑ op ∈ ops, s.left op ≤ LOGBLOCKS

variable {s s' : State P} {a : Act P}

theorem Budget.of_quiet (hquiet : ∀ p op, s.phase p ≠ .inOp op) (hout : s.outstanding = 0)
    (hlen : s.lh.length ≤ LOGBLOCKS) : Budget s :=
  ⟨∅, fun op => ⟨fun h => absurd h (Finset.notMem_empty op),
    fun ⟨p, hp⟩ => absurd hp (hquiet p op)⟩, by simpa using hout, by simpa using hlen⟩

theorem Budget.length_le (hs : Budget s) : s.lh.length ≤ LOGBLOCKS := by
  obtain ⟨ops, -, -, hle⟩ := hs
  omega

theorem Budget.of_inOp (hs : Budget s) (hop : ∀ op, (∃ p, s'.phase p = .inOp op) ↔
    ∃ p, s.phase p = .inOp op) (hout : s'.outstanding = s.outstanding) (hlh : s'.lh = s.lh)
    (hpend : s'.pending = s.pending) : Budget s' := by
  obtain ⟨ops, hmem, hcard, hle⟩ := hs
  refine ⟨ops, fun op => (hmem op).trans (hop op).symm, hout.trans hcard, ?_⟩
  have hleft : ∀ op, s'.left op = s.left op := fun op => by
    rw [State.left, State.left, State.opBlocks, State.opBlocks, hpend]
  simp only [hlh, hleft]
  exact hle

variable [DecidableEq P]

theorem inOp_setPhase {ph : Phase} (hp : ∀ op, s.phase p ≠ .inOp op) (hph : ∀ op, ph ≠ .inOp op)
    (op : ℕ) : (∃ q, (s.setPhase p ph).phase q = .inOp op) ↔ ∃ q, s.phase q = .inOp op := by
  refine exists_congr fun q => ?_
  rw [State.setPhase_phase]
  split
  · rename_i h
    exact ⟨fun h' => absurd h' (hph op), fun h' => absurd (h ▸ h') (hp op)⟩
  · exact Iff.rfl

theorem Budget.enter (hs : Budget s) (hc : Control s) (hp : s.phase p = .idle ∨ s.phase p = .retry)
    (hadm : s.admits) : Budget (s.enter p) := by
  obtain ⟨ops, hmem, hcard, hle⟩ := hs
  have hnew : s.nextOp ∉ ops := fun h => by
    obtain ⟨q, hq⟩ := (hmem _).mp h
    exact absurd (hc.op_lt q _ hq) (lt_irrefl _)
  have hcard' : (insert s.nextOp ops).card = ops.card + 1 := Finset.card_insert_of_notMem hnew
  refine ⟨insert s.nextOp ops, fun op => ?_, ?_, ?_⟩
  · rw [Finset.mem_insert, hmem]
    constructor
    · rintro (rfl | ⟨q, hq⟩)
      · exact ⟨p, by simp⟩
      · refine ⟨q, ?_⟩
        rw [State.enter_phase, if_neg, hq]
        rintro rfl
        rcases hp with hp | hp <;> exact absurd (hp.symm.trans hq) (by simp)
    · rintro ⟨q, hq⟩
      rw [State.enter_phase] at hq
      split at hq
      · exact Or.inl (Phase.inOp.inj hq).symm
      · exact Or.inr ⟨q, hq⟩
  · rw [hcard']
    simp only [State.enter, hcard]
    push_cast
    rfl
  · have hsum : ∑ op ∈ insert s.nextOp ops, (s.enter p).left op
        ≤ (insert s.nextOp ops).card • MAXOPBLOCKS :=
      Finset.sum_le_card_nsmul _ _ _ fun op _ => Nat.sub_le _ _
    rw [hcard', Nat.nsmul_eq_mul] at hsum
    simp only [State.admits, hcard, MAXOPBLOCKS, LOGBLOCKS] at hadm hsum ⊢
    simp only [State.enter] at hsum ⊢
    omega

omit [DecidableEq P] in
/-- `log_write` pays for a new block of the header from the operation's own reservation. -/
theorem Budget.record (hs : Budget s) (hl : Logged s) (hp : s.phase p = .inOp op)
    (hwithin : (insert b (s.opBlocks op)).card ≤ MAXOPBLOCKS) : Budget (s.record op b) := by
  obtain ⟨ops, hmem, hcard, hle⟩ := hs
  refine ⟨ops, hmem, hcard, ?_⟩
  have hop : op ∈ ops := (hmem op).mpr ⟨p, hp⟩
  have hothers : ∑ x ∈ ops.erase op, (s.record op b).left x = ∑ x ∈ ops.erase op, s.left x :=
    Finset.sum_congr rfl fun x hx => by
      rw [State.left, State.record_opBlocks_of_ne _ _ (Finset.ne_of_mem_erase hx), State.left]
  rw [← Finset.add_sum_erase _ _ hop] at hle ⊢
  rw [hothers, State.left, State.record_opBlocks]
  rw [State.left] at hle
  by_cases hb : b ∈ s.opBlocks op
  · -- a block of this operation is in the header already
    have hlh : b ∈ s.lh := hl.pending_mem _ (State.mem_opBlocks.mp hb)
    rw [Finset.insert_eq_of_mem hb]
    simp only [State.record, if_pos hlh]
    exact hle
  · rw [Finset.card_insert_of_notMem hb] at hwithin ⊢
    have hlen : (s.record op b).lh.length ≤ s.lh.length + 1 := by
      simp only [State.record]
      split
      · exact Nat.le_succ _
      · rw [List.length_append, List.length_singleton]
    omega

theorem Budget.endOther (hs : Budget s) (hc : Control s) (hp : s.phase p = .inOp op) :
    Budget ({ s with outstanding := s.outstanding - 1 }.wakeup.setPhase p .idle) := by
  obtain ⟨ops, hmem, hcard, hle⟩ := hs
  have hop : op ∈ ops := (hmem op).mpr ⟨p, hp⟩
  refine ⟨ops.erase op, fun x => ?_, ?_, ?_⟩
  · rw [Finset.mem_erase, hmem]
    constructor
    · rintro ⟨hne, q, hq⟩
      refine ⟨q, ?_⟩
      rw [State.setPhase_phase, if_neg, State.wakeup_phase, if_neg (by simp [hq])]
      · exact hq
      · rintro rfl
        exact hne (Phase.inOp.inj (hq.symm.trans hp))
    · rintro ⟨q, hq⟩
      rw [State.setPhase_phase] at hq
      split at hq
      · exact absurd hq (by simp)
      · rename_i hqp
        rw [State.wakeup_phase] at hq
        split at hq
        · exact absurd hq (by simp)
        · refine ⟨?_, q, hq⟩
          rintro rfl
          exact hqp (hc.op_unique q p _ hq hp)
  · have hpos : 0 < ops.card := Finset.card_pos.mpr ⟨op, hop⟩
    have hcard' := Finset.card_erase_of_mem hop
    simp only [State.wakeup, State.setPhase, hcard]
    omega
  · rw [← Finset.add_sum_erase _ _ hop] at hle
    exact le_trans (Nat.add_le_add_left (Nat.le_add_left _ _) _) hle

/-- **The reservations cover what the operations log.** -/
theorem Budget.of_move (hs : Budget s) (hc : Control s) (hl : Logged s) (hwithin : WithinBudget s a)
    (h : Move s a s') : Budget s' := by
  have hlen := hs.length_le
  have hc' := hc.of_move h
  -- while a process commits, the header only gets shorter and there is no operation
  have hcommit : ∀ p pc, s'.phase p = .commit pc → s'.lh.length ≤ s.lh.length → Budget s' :=
    fun p pc hp hle => .of_quiet (hc'.no_op hp) (hc'.outstanding_of_quiet (hc'.no_op hp))
      (hle.trans hlen)
  cases h with
  | sleep p hp htest =>
    refine hs.of_inOp (inOp_setPhase (fun op hop => ?_) (by simp)) rfl rfl rfl
    rcases hp with hp | hp <;> exact absurd (hp.symm.trans hop) (by simp)
  | enter p hp hcom hadm => exact hs.enter hc hp hadm
  | kkill p hp =>
    exact hs.of_inOp (inOp_setPhase (fun op hop => absurd (hp.symm.trans hop) (by simp)) (by simp))
      rfl rfl rfl
  | logWrite p op b hp hlt => exact hs.record hl hp ((withinBudget_logWrite hp).mp hwithin)
  | endLast p op hp hcom h1 => exact hcommit p .start (by simp) (le_refl _)
  | endOther p op hp hcom h1 => exact hs.endOther hc hp
  | advance p pc pc' hp hadv => exact hcommit p pc' (by simp) (le_refl _)
  | writeHead p hp => exact hcommit p (.install 0) (by simp) (le_refl _)
  | clear p hp => exact hcommit p .eraseHead (by simp) (Nat.zero_le _)
  | endCommit p hp =>
    refine .of_quiet (fun q op hq => ?_) (hc.outstanding_of_quiet (hc.no_op hp)) hlen
    rw [State.setPhase_phase] at hq
    split at hq
    · exact absurd hq (by simp)
    · rw [State.wakeup_phase] at hq
      split at hq
      · exact absurd hq (by simp)
      · exact hc.no_op hp q op hq

omit [DecidableEq P] in
/-- In a full log an operation within its budget has nothing new to log. -/
theorem Budget.mem_of_full (hs : Budget s) (hp : s.phase p = .inOp op)
    (hwithin : (insert b (s.opBlocks op)).card ≤ MAXOPBLOCKS) (hfull : s.lh.length = LOGBLOCKS) :
    b ∈ s.opBlocks op := by
  obtain ⟨ops, hmem, -, hle⟩ := hs
  have hleft : s.left op ≤ ∑ x ∈ ops, s.left x :=
    Finset.single_le_sum (fun _ _ => Nat.zero_le _) ((hmem op).mpr ⟨p, hp⟩)
  by_contra hb
  rw [Finset.card_insert_of_notMem hb] at hwithin
  rw [State.left] at hleft
  omega

/-! ## Every run -/

theorem budget_of_run {h : List (Act P)} (hrun : RunWith Steps WithinBudget init h s) :
    Budget s ∧ Control s ∧ Logged s := by
  refine hrun.invariant (I := fun s => Budget s ∧ Control s ∧ Logged s)
    ⟨.of_quiet (by simp [init]) rfl (Nat.zero_le _), control_init, logged_init⟩ ?_
  rintro s a s' ⟨hb, hc, hl⟩ hwithin hstep
  have hmove := move_of_step hstep
  exact ⟨hb.of_move hc hl hwithin hmove, hc.of_move hmove, hl.of_move hc hmove⟩

/-- What the log should guarantee to operations within their budget. -/
def CapacitySafe (s : State P) : Prop :=
  s.lh.length ≤ LOGBLOCKS ∧ ∀ p b, WithinBudget s (.logWrite p b) →
    step s (.logWrite p b) ≠ .panic .tooBigATransaction

/-- The panic, read off the code. -/
theorem logWrite_panic (hp : s.phase p = .inOp op) :
    step s (.logWrite p b) = .panic .tooBigATransaction ↔ LOGBLOCKS ≤ s.lh.length := by
  rw [step, stepLogWrite, hp]
  dsimp only
  constructor
  · intro h
    by_contra hlt
    rw [if_neg hlt] at h
    split at h <;> exact absurd h (by simp)
  · intro h
    rw [if_pos h]

/-- **The log holds what the operations log**, and `log_write` panics exactly when the log is full
and the block is in the header already. -/
theorem log_write_panic_iff {h : List (Act P)} (hrun : RunWith Steps WithinBudget init h s) :
    s.lh.length ≤ LOGBLOCKS ∧ ∀ p op b, s.phase p = .inOp op → WithinBudget s (.logWrite p b) →
      (step s (.logWrite p b) = .panic .tooBigATransaction ↔
        s.lh.length = LOGBLOCKS ∧ b ∈ s.lh) := by
  obtain ⟨hb, hc, hl⟩ := budget_of_run hrun
  refine ⟨hb.length_le, fun p op b hp hwithin => ?_⟩
  rw [logWrite_panic hp]
  constructor
  · intro hfull
    have heq : s.lh.length = LOGBLOCKS := le_antisymm hb.length_le hfull
    have hmem := hb.mem_of_full hp ((withinBudget_logWrite hp).mp hwithin) heq
    exact ⟨heq, hl.pending_mem _ (State.mem_opBlocks.mp hmem)⟩
  · rintro ⟨heq, -⟩
    exact heq.ge

/-- Three operations fill the log with ten blocks each. -/
def fillActs : List (Act (Fin 3)) :=
  (List.finRange 3).map .beginOp ++
    (List.finRange 3).flatMap fun p => (List.range 10).map fun i => .logWrite p (46 + 10 * p + i)

theorem fillActs_spec : ∃ s : State (Fin 3), RunWith Steps WithinBudget init fillActs.reverse s ∧
    s.lh.length = LOGBLOCKS ∧ 46 ∈ s.lh ∧ s.phase 0 = .inOp 0 ∧
      WithinBudget s (.logWrite 0 46) := by
  have hacts : ((execWith (fun s a => (step s a).next?) WithinBudget (init : State (Fin 3))
      fillActs).map fun s => (s.lh.length, decide (46 ∈ s.lh), s.phase 0,
        decide (WithinBudget s (.logWrite 0 46)))) = some (30, true, .inOp 0, true) := by
    decide +kernel
  obtain ⟨s, hexec, hfields⟩ := Option.map_eq_some_iff.mp hacts
  simp only [Prod.mk.injEq, decide_eq_true_eq] at hfields
  exact ⟨s, run_of_execWith hexec, hfields⟩

/-- The full log, and a block that is in it. -/
theorem log_write_panic_iff_full : ∃ (h : List (Act (Fin 3))) (s : State (Fin 3)),
    RunWith Steps WithinBudget init h s ∧ s.phase 0 = .inOp 0 ∧
      WithinBudget s (.logWrite 0 46) ∧
        step s (.logWrite 0 46) = .panic .tooBigATransaction := by
  obtain ⟨s, hrun, hfull, hmem, hp, hwithin⟩ := fillActs_spec
  exact ⟨_, s, hrun, hp, hwithin,
    ((log_write_panic_iff hrun).2 0 0 46 hp hwithin).mpr ⟨hfull, hmem⟩⟩

/-- **`log_write` panics within the budget**: three operations fill the log, and one of them logs
one of its blocks again. -/
theorem not_capacitySafe : ¬ ∀ (h : List (Act (Fin 3))) (s : State (Fin 3)),
    RunWith Steps WithinBudget init h s → CapacitySafe s := by
  intro hall
  obtain ⟨s, hrun, hfull, hmem, hp, hwithin⟩ := fillActs_spec
  exact (hall _ s hrun).2 0 46 hwithin ((logWrite_panic hp).mpr hfull.ge)

end Log
end Xv6
