import Xv6.Sched.Exclusion
import Xv6.Sched.Pass

/-!
# No starvation on one CPU

A process that stays `RUNNABLE` is dispatched within 624 passes of the scheduler loop, whatever
the other processes do between the passes: at most `10 * (32 + 16 + 8) = 560` passes until it is
promoted to level 0, and then at most `NPROC` passes until the round-robin cursor of level 0
comes to it.

The proof is a measure, `waitMeasure`.  Above level 0 it is the number of passes until level 0 is
reached, plus `NPROC - 1`; at level 0 it is the number of slots between the cursor and the
process.  Every pass that dispatches another process makes it smaller: above level 0 because the
promotion scan counts the wait, at level 0 because the process dispatched lies between the cursor
and the waiting one, and the cursor moves past it.
-/

namespace Xv6
namespace Sched

/-! ## The setting -/

/-- The levels of a process are consistent, and its waiting counter can still count. -/
structure Proc.Consistent (x : Proc) : Prop where
  level_nonneg : 0 ≤ x.queueLevel
  level_lt : x.queueLevel < NQUEUES
  priority : x.priority = x.queueLevel
  slice : x.maxTimeSlice = getTimeSlice x.queueLevel
  wait_nonneg : 0 ≤ x.waitTimerTicks
  wait_lt : x.waitTimerTicks < 2147483647

/-- `y` is `x` but for the two fields that other processes may write while `x` waits: it may
have been killed, and its parent may have exited. -/
def Proc.WaitsAs (x y : Proc) : Prop := y = { x with killed := y.killed, parent := y.parent }

/-- The passes of the loop on one CPU, with arbitrary changes between them to every slot but
`p`: `t n` and `cur n` are the table and the cursors when pass `n` starts, and as long as `p`
is not dispatched, it waits. -/
structure Waiting (p : Slot) (t : ℕ → Table) (cur : ℕ → Cursors) : Prop where
  cursors : ∀ n, cur (n + 1) = (pass (t n) (cur n)).cursors
  waits : ∀ n, (pass (t n) (cur n)).chosen ≠ some p →
    ((pass (t n) (cur n)).table p).WaitsAs (t (n + 1) p)

/-! ## The way up -/

/-- The number of passes until a waiting process is at level 0. -/
def Proc.passesToTop (x : Proc) : ℕ :=
  if x.queueLevel = 0 then 0
  else if x.queueLevel = 1 then max 1 (80 - x.waitTimerTicks.toNat)
  else if x.queueLevel = 2 then max 1 (160 - x.waitTimerTicks.toNat) + 80
  else max 1 (320 - x.waitTimerTicks.toNat) + 240

/-- What is needed of a waiting process along the passes: below level 0 its counter is in
range.  At level 0 the counter does not matter, and may wrap. -/
def Proc.Counting (x : Proc) : Prop :=
  x.queueLevel = 0 ∨
    1 ≤ x.queueLevel ∧ x.queueLevel ≤ 3 ∧ 0 ≤ x.waitTimerTicks ∧ x.waitTimerTicks < 2147483647

theorem Proc.Consistent.counting {x : Proc} (h : x.Consistent) : x.Counting := by
  have h4 : x.queueLevel < 4 := h.level_lt
  have h0 := h.level_nonneg
  rcases (show x.queueLevel = 0 ∨ 1 ≤ x.queueLevel by omega) with hq | hq
  · exact Or.inl hq
  · exact Or.inr ⟨hq, by omega, h.wait_nonneg, h.wait_lt⟩

theorem Proc.passesToTop_le (x : Proc) : x.passesToTop ≤ 560 := by
  unfold Proc.passesToTop
  split
  · omega
  · split
    · omega
    · split <;> omega

/-- **The promotion scan brings a waiting process one pass closer to level 0.** -/
theorem Proc.promote_passesToTop {x : Proc} (hrunnable : x.state = .runnable) (hx : x.Counting) :
    x.promote.Counting ∧ x.promote.passesToTop = x.passesToTop - 1 := by
  rcases hx with h0 | ⟨h1, h3, hlo, hhi⟩
  · have h0' := Proc.promote_queueLevel_zero h0
    refine ⟨Or.inl h0', ?_⟩
    rw [Proc.passesToTop, Proc.passesToTop, if_pos h0', if_pos h0]
  · have hcount : cInt (x.waitTimerTicks + 1) = x.waitTimerTicks + 1 :=
      cInt_of_range (by omega) (by omega)
    by_cases hlong : getTimeSlice x.queueLevel * PROMO_THRESHOLD ≤ cInt (x.waitTimerTicks + 1)
    · rw [Proc.promote_of_le hrunnable (by omega) hlong]
      rw [hcount] at hlong
      -- one case for each of the levels 1, 2 and 3
      rcases (show x.queueLevel = 1 ∨ x.queueLevel = 2 ∨ x.queueLevel = 3 by omega) with
        hq | hq | hq <;>
      · simp only [hq, getTimeSlice_one, getTimeSlice_two, getTimeSlice_three,
          PROMO_THRESHOLD] at hlong
        simp [Proc.enterLevel, Proc.Counting, Proc.passesToTop, hq]
        omega
    · rw [Proc.promote_of_lt hrunnable (by omega)]
      rw [hcount] at hlong ⊢
      rcases (show x.queueLevel = 1 ∨ x.queueLevel = 2 ∨ x.queueLevel = 3 by omega) with
        hq | hq | hq <;>
      · simp only [hq, getTimeSlice_one, getTimeSlice_two, getTimeSlice_three,
          PROMO_THRESHOLD] at hlong
        simp [Proc.Counting, Proc.passesToTop, hq]
        omega

/-! ## The way round -/

theorem selectionScan_of_eligible {t : Table} (cursors : Cursors) {p : Slot}
    (h : (t p).eligible 0) :
    ∃ p', scanLevel t (cursors 0) 0 = some p' ∧ selectionScan t cursors = some (0, p') := by
  obtain ⟨p', hp'⟩ := exists_scanLevel (cursors 0) h
  refine ⟨p', hp', ?_⟩
  rw [selectionScan, show List.range NQUEUES = 0 :: [1, 2, 3] from rfl, List.findSome?_cons, hp']
  rfl

/-- **At level 0, a pass that dispatches another process brings the cursor closer.** -/
theorem cyclicDistance_pass_lt {t : Table} {cursors : Cursors} {p : Slot}
    (hrunnable : (t p).state = .runnable) (hlevel : (t p).promote.queueLevel = 0)
    (hother : (pass t cursors).chosen ≠ some p) :
    cyclicDistance ((pass t cursors).cursors 0) p < cyclicDistance (cursors 0) p := by
  have helig : (promotionScan t p).eligible 0 := by
    rw [promotionScan_apply, Proc.eligible, decide_eq_true_eq]
    exact ⟨by rw [Proc.promote_state, hrunnable], hlevel⟩
  obtain ⟨p', hscan, hsel⟩ := selectionScan_of_eligible cursors helig
  obtain ⟨hcursors, hchosen⟩ := pass_eq t cursors
  rw [hsel] at hcursors hchosen
  rw [hcursors]
  have hne : p' ≠ p := by
    rintro rfl
    exact hother hchosen
  obtain ⟨e, -, rfl, -, hfirst⟩ := scanLevel_eq_some hscan
  -- the process found does not lie behind `p`, which is eligible
  have hle : e ≤ cyclicDistance (cursors 0) p := by
    by_contra hlt
    refine hfirst _ (not_le.mp hlt) ?_
    rw [slotAt_cyclicDistance]
    exact helig
  have hlt : e < cyclicDistance (cursors 0) p := by
    refine lt_of_le_of_ne hle fun heq => hne ?_
    rw [heq, slotAt_cyclicDistance]
  simp only [Option.elim_some, Function.update_self]
  exact cyclicDistance_succ_lt hlt

/-! ## The measure -/

/-- How long a waiting process can still wait. -/
def waitMeasure (t : Table) (cursors : Cursors) (p : Slot) : ℕ :=
  if (t p).queueLevel = 0 then cyclicDistance (cursors 0) p
  else (t p).passesToTop + (NPROC - 1)

theorem waitMeasure_lt (t : Table) (cursors : Cursors) (p : Slot) :
    waitMeasure t cursors p < 624 := by
  have hdist : cyclicDistance (cursors 0) p < 64 := cyclicDistance_lt _ _
  have htop := (t p).passesToTop_le
  unfold waitMeasure
  split
  · omega
  · simp only [NPROC]
    omega

/-- What is kept from pass to pass of the waiting process. -/
structure Proc.Waits (x : Proc) : Prop where
  runnable : x.state = .runnable
  counting : x.Counting

theorem Proc.Waits.waitsAs {x y : Proc} (hx : x.Waits) (h : x.WaitsAs y) : y.Waits := by
  rw [h]
  exact ⟨hx.runnable, hx.counting⟩

theorem Proc.Waits.promote {x : Proc} (hx : x.Waits) : x.promote.Waits :=
  ⟨by rw [Proc.promote_state, hx.runnable], (Proc.promote_passesToTop hx.runnable hx.counting).1⟩

theorem Proc.passesToTop_pos {x : Proc} (h : x.queueLevel ≠ 0) : 0 < x.passesToTop := by
  unfold Proc.passesToTop
  rw [if_neg h]
  split
  · omega
  · split <;> omega

variable {p : Slot} {t : ℕ → Table} {cur : ℕ → Cursors}

/-- **A pass that dispatches another process makes the measure smaller.** -/
theorem Waiting.measure_lt (hw : Waiting p t cur) {n : ℕ} (hx : (t n p).Waits)
    (hother : (pass (t n) (cur n)).chosen ≠ some p) :
    waitMeasure (t (n + 1)) (cur (n + 1)) p < waitMeasure (t n) (cur n) p := by
  have hnext := hw.waits n hother
  rw [pass_table] at hnext
  have hlevel : (t (n + 1) p).queueLevel = (t n p).promote.queueLevel := by rw [hnext]
  have htop : (t (n + 1) p).passesToTop = (t n p).promote.passesToTop := by
    rw [hnext]
    rfl
  have hstep := (Proc.promote_passesToTop hx.runnable hx.counting).2
  have hdist : cyclicDistance (cur (n + 1) 0) p < 64 := cyclicDistance_lt _ _
  unfold waitMeasure
  rw [hlevel, htop, hstep]
  by_cases h0 : (t n p).queueLevel = 0
  · have h0' := Proc.promote_queueLevel_zero h0
    rw [if_pos h0', if_pos h0, hw.cursors n]
    exact cyclicDistance_pass_lt hx.runnable h0' hother
  · have hpos := Proc.passesToTop_pos h0
    rw [if_neg h0]
    simp only [NPROC]
    split <;> omega

theorem Waiting.exists_dispatch (hw : Waiting p t cur) :
    ∀ (m n : ℕ), (t n p).Waits → waitMeasure (t n) (cur n) p ≤ m →
      ∃ k, k ≤ m ∧ (pass (t (n + k)) (cur (n + k))).chosen = some p := by
  intro m
  induction m with
  | zero =>
    intro n hx hm
    refine ⟨0, le_refl 0, ?_⟩
    by_contra hother
    have hlt := hw.measure_lt hx hother
    omega
  | succ m ih =>
    intro n hx hm
    by_cases hother : (pass (t n) (cur n)).chosen = some p
    · exact ⟨0, Nat.zero_le _, hother⟩
    · have hlt := hw.measure_lt hx hother
      have hx' : (t (n + 1) p).Waits := by
        have hnext := hw.waits n hother
        rw [pass_table] at hnext
        exact hx.promote.waitsAs hnext
      obtain ⟨k, hk, hchosen⟩ := ih (n + 1) hx' (by omega)
      refine ⟨k + 1, by omega, ?_⟩
      rwa [show n + (k + 1) = n + 1 + k by omega]

/-- Until `p` is dispatched it waits, and each pass brings it one closer to level 0. -/
theorem Waiting.waits_until (hw : Waiting p t cur) (h0 : (t 0 p).Waits) :
    ∀ (n : ℕ), (∀ m, m < n → (pass (t m) (cur m)).chosen ≠ some p) →
      (t n p).Waits ∧ (t n p).passesToTop = (t 0 p).passesToTop - n
  | 0, _ => ⟨h0, rfl⟩
  | n + 1, hbefore => by
    obtain ⟨hx, htop⟩ := hw.waits_until h0 n fun m hm => hbefore m (by omega)
    have hnext := hw.waits n (hbefore n (by omega))
    rw [pass_table] at hnext
    have hstep := (Proc.promote_passesToTop hx.runnable hx.counting).2
    have hsame : (t (n + 1) p).passesToTop = (t n p).promote.passesToTop := by
      rw [hnext]
      rfl
    exact ⟨hx.promote.waitsAs hnext, by omega⟩

/-- **No starvation.**  From a table in which the process `p` is `RUNNABLE` and its level is
consistent, for any cursors and any behaviour of the other processes between the passes, a process
that stays `RUNNABLE` is dispatched no later than the 624th pass.  When it is first dispatched, it
has been at level 0 from the 560th pass on, and at level 0 for at most `NPROC` passes. -/
theorem dispatched_within_624_passes (hw : Waiting p t cur) (hrunnable : (t 0 p).state = .runnable)
    (hlevel : (t 0 p).Consistent) :
    ∃ k, k < 624 ∧ (pass (t k) (cur k)).chosen = some p ∧
      (∀ n, n ≤ k → 560 ≤ n → (t n p).queueLevel = 0) ∧
      ∀ n, n ≤ k → (t n p).queueLevel = 0 → k < n + NPROC := by
  have h0 : (t 0 p).Waits := ⟨hrunnable, hlevel.counting⟩
  have hex : ∃ k, k ≤ waitMeasure (t 0) (cur 0) p ∧ (pass (t k) (cur k)).chosen = some p := by
    obtain ⟨k, hk, hchosen⟩ := hw.exists_dispatch _ 0 h0 (le_refl _)
    exact ⟨k, hk, by rwa [Nat.zero_add] at hchosen⟩
  obtain ⟨hle, hchosen⟩ := Nat.find_spec hex
  have hlt := waitMeasure_lt (t 0) (cur 0) p
  -- the first pass that dispatches `p`
  have hfirst : ∀ m, m < Nat.find hex → (pass (t m) (cur m)).chosen ≠ some p :=
    fun m hm hm' => Nat.find_min hex hm ⟨by omega, hm'⟩
  refine ⟨Nat.find hex, by omega, hchosen, fun n hn h560 => ?_, fun n hn hzero => ?_⟩
  · obtain ⟨-, htop⟩ := hw.waits_until h0 n fun m hm => hfirst m (by omega)
    by_contra hne
    have hpos := Proc.passesToTop_pos hne
    have hle560 := (t 0 p).passesToTop_le
    omega
  · obtain ⟨hx, -⟩ := hw.waits_until h0 n fun m hm => hfirst m (by omega)
    have hmeasure : waitMeasure (t n) (cur n) p = cyclicDistance (cur n 0) p := if_pos hzero
    have hdist : cyclicDistance (cur n 0) p < 64 := cyclicDistance_lt _ _
    obtain ⟨k, hk, hk'⟩ := hw.exists_dispatch _ n hx (le_refl _)
    have hmin : Nat.find hex ≤ n + k := by
      by_contra hgt
      exact hfirst (n + k) (by omega) hk'
    rw [hmeasure] at hk
    simp only [NPROC]
    omega

/-- A table with one process at the lowest level and one that stays `RUNNABLE` at level 0. -/
def hogTable : Table :=
  Function.update
    (Function.update (fun _ => Proc.init) 2 { Proc.userinit with pid := 2 })
    5 { Proc.userinit.enterLevel 3 with pid := 3 }

/-- The passes from `hogTable` on, with no change between them. -/
def hogPasses : ℕ → Table × Cursors
  | 0 => (hogTable, fun _ => 0)
  | n + 1 => ((pass (hogPasses n).1 (hogPasses n).2).table,
      (pass (hogPasses n).1 (hogPasses n).2).cursors)

theorem dispatched_within_624_passes_hog :
    (hogTable 5).queueLevel = 3 ∧ (hogTable 2).queueLevel = 0 ∧
      ∃ k, k < 624 ∧ (pass (hogPasses k).1 (hogPasses k).2).chosen = some 5 := by
  have hw : Waiting 5 (fun n => (hogPasses n).1) fun n => (hogPasses n).2 :=
    ⟨fun _ => rfl, fun _ _ => rfl⟩
  obtain ⟨k, hk, hchosen, -⟩ := dispatched_within_624_passes hw (by decide)
    ⟨by decide, by decide, by decide, by decide, by decide, by decide⟩
  exact ⟨by decide, by decide, k, hk, hchosen⟩

end Sched
end Xv6
