import Xv6.Sched.Smp

/-!
# One pass of the scheduler loop

A pass of `scheduler()` on a CPU that is not disturbed: the promotion scan over all slots, then
the selection scan over the levels and, in each level, over the slots from the round-robin cursor
on.  `pass` computes it in one go; `exec_pass` says that it is what the sections of
`Xv6.Sched.Smp` do when CPU `j` takes them one after the other.
-/

namespace Xv6
namespace Sched

open Transition

variable {start q : ℕ} {p : Slot} {t : Table} {cursors : Cursors}

/-! ## The scans -/

/-- The promotion scan: every slot in turn. -/
def promotionScan (t : Table) : Table :=
  (List.finRange NPROC).foldl (fun t p => Function.update t p (t p).promote) t

/-- The `while` loop of level `q`: the first eligible process from the cursor `start` on. -/
def scanLevel (t : Table) (start q : ℕ) : Option Slot :=
  ((List.range NPROC).map fun checked => slotAt (start + checked)).find? fun p => (t p).eligible q

/-- The round-robin cursors of a CPU, one for each level. -/
abbrev Cursors : Type := ℕ → ℕ

/-- The `for` loop over the levels: the first level with an eligible process, and the process. -/
def selectionScan (t : Table) (cursors : Cursors) : Option (ℕ × Slot) :=
  (List.range NQUEUES).findSome? fun q => (scanLevel t (cursors q) q).map fun p => (q, p)

/-- The result of a pass up to the dispatch. -/
structure PassResult where
  table : Table
  cursors : Cursors
  chosen : Option Slot

/-- A pass: promotions, then the selection, which moves the cursor of the level it found. -/
def pass (t : Table) (cursors : Cursors) : PassResult :=
  let t' := promotionScan t
  match selectionScan t' cursors with
  | some (q, p) =>
    { table := t'
      cursors := Function.update cursors q ((p.val + 1) % NPROC)
      chosen := some p }
  | none => { table := t', cursors := cursors, chosen := none }

/-! ## The promotion scan, slot by slot -/

theorem foldl_update_apply (f : Proc → Proc) :
    ∀ (l : List Slot), l.Nodup → ∀ (t : Table) (p : Slot),
      l.foldl (fun t p => Function.update t p (f (t p))) t p = if p ∈ l then f (t p) else t p
  | [], _, t, p => by simp
  | q :: l, hnodup, t, p => by
    obtain ⟨hq, hl⟩ := List.nodup_cons.mp hnodup
    rw [List.foldl_cons, foldl_update_apply f l hl]
    by_cases hpq : p = q
    · subst hpq
      rw [if_neg hq, Function.update_self, if_pos (List.mem_cons_self ..)]
    · rw [Function.update_of_ne hpq]
      simp only [List.mem_cons, hpq, false_or]

@[simp] theorem promotionScan_apply (t : Table) (p : Slot) :
    promotionScan t p = (t p).promote := by
  unfold promotionScan
  rw [foldl_update_apply Proc.promote _ (List.nodup_finRange NPROC), if_pos (List.mem_finRange p)]

@[simp] theorem pass_table (t : Table) (cursors : Cursors) (p : Slot) :
    (pass t cursors).table p = (t p).promote := by
  unfold pass
  dsimp only
  split <;> exact promotionScan_apply t p

/-! ## Cyclic order -/

/-- How many slots a scan from `start` checks before it comes to `p`. -/
def cyclicDistance (start : ℕ) (p : Slot) : ℕ := (p.val + (NPROC - start % NPROC)) % NPROC

theorem cyclicDistance_lt (start : ℕ) (p : Slot) : cyclicDistance start p < NPROC :=
  Nat.mod_lt _ (by decide)

theorem slotAt_cyclicDistance (start : ℕ) (p : Slot) :
    slotAt (start + cyclicDistance start p) = p := by
  have hp : p.val < 64 := p.isLt
  apply Fin.ext
  simp only [slotAt, cyclicDistance, NPROC]
  omega

/-- A slot the scan comes to before `p` is not `p`, and from the slot after it the way to `p` is
shorter. -/
theorem cyclicDistance_succ_lt {e : ℕ} (he : e < cyclicDistance start p) :
    cyclicDistance (((slotAt (start + e)).val + 1) % NPROC) p < cyclicDistance start p := by
  have hp : p.val < 64 := p.isLt
  simp only [slotAt, cyclicDistance, NPROC] at he ⊢
  omega

/-- What the scan of a level finds: the eligible slot at the smallest distance. -/
theorem scanLevel_eq_some (h : scanLevel t start q = some p) :
    ∃ e, e < NPROC ∧ p = slotAt (start + e) ∧ (t p).eligible q ∧
      ∀ e', e' < e → ¬ (t (slotAt (start + e'))).eligible q := by
  unfold scanLevel at h
  rw [List.find?_map, Option.map_eq_some_iff] at h
  obtain ⟨e, he, rfl⟩ := h
  rw [List.find?_range_eq_some] at he
  obtain ⟨helig, hmem, hfirst⟩ := he
  refine ⟨e, by simpa using hmem, rfl, helig, fun e' he' => ?_⟩
  simpa using hfirst e' he'

theorem exists_scanLevel (start : ℕ) (h : (t p).eligible q) :
    ∃ p', scanLevel t start q = some p' := by
  rw [← Option.isSome_iff_exists, scanLevel, List.find?_isSome]
  refine ⟨p, List.mem_map.mpr ⟨cyclicDistance start p, ?_, slotAt_cyclicDistance start p⟩, h⟩
  exact List.mem_range.mpr (cyclicDistance_lt start p)

theorem selectionScan_isSome (cursors : Cursors) (hq : q < NQUEUES) (h : (t p).eligible q) :
    (selectionScan t cursors).isSome := by
  rw [selectionScan, List.isSome_findSome?, List.any_eq_true]
  obtain ⟨p', hp'⟩ := exists_scanLevel (cursors q) h
  exact ⟨q, List.mem_range.mpr hq, by rw [hp']; rfl⟩

/-- What the scan of all levels finds is found in the first level that has something. -/
theorem selectionScan_eq_some (h : selectionScan t cursors = some (q, p)) :
    q < NQUEUES ∧ scanLevel t (cursors q) q = some p ∧
      ∀ q', q' < q → scanLevel t (cursors q') q' = none := by
  rw [selectionScan, List.findSome?_eq_some_iff] at h
  obtain ⟨before, q₀, after, hrange, hfound, hnone⟩ := h
  obtain ⟨p₀, hscan, heq⟩ := Option.map_eq_some_iff.mp hfound
  obtain ⟨rfl, rfl⟩ := Prod.mk.inj heq
  have hmem : q₀ ∈ List.range NQUEUES := by
    rw [hrange]
    simp
  refine ⟨List.mem_range.mp hmem, hscan, fun q' hq' => ?_⟩
  have hmem' : q' ∈ before ++ q₀ :: after := by
    rw [← hrange]
    exact List.mem_range.mpr (hq'.trans (List.mem_range.mp hmem))
  have hsorted : (before ++ q₀ :: after).Pairwise (· < ·) := hrange ▸ List.pairwise_lt_range
  rcases List.mem_append.mp hmem' with hbefore | hafter
  · simpa using hnone q' hbefore
  · rcases List.mem_cons.mp hafter with rfl | hafter
    · omega
    · have hlt := List.rel_of_pairwise_cons (List.pairwise_append.mp hsorted).2.1 hafter
      omega

/-! ## The pass and its sections -/

variable {s : State} {j : CpuId}

/-- The state when CPU `j` has finished its promotion scan. -/
def State.promoted (s : State) (j : CpuId) : State :=
  { s with
    proc := promotionScan s.proc
    cpu := Function.update s.cpu j { s.cpu j with pc := .select 0 0 } }

theorem exec_promote (s : State) (i : Slot) (h : (s.cpu j).pc = .promote i) :
    exec step s (List.replicate (NPROC - i.val) ⟨j, .promote⟩) =
      some { s with
        proc := fun p => if i ≤ p then (s.proc p).promote else s.proc p
        cpu := Function.update s.cpu j { s.cpu j with pc := .select 0 0 } } := by
  have hi := i.isLt
  obtain ⟨n, hn⟩ : ∃ n, NPROC - i.val = n + 1 := ⟨NPROC - i.val - 1, by omega⟩
  have hstep : step s ⟨j, .promote⟩ =
      some ((s.updProc i Proc.promote).updCpu j fun c => { c with pc := nextPromote i }) := by
    show stepPromote s j = _
    rw [stepPromote, h]
  rw [hn, List.replicate_succ, exec_cons _ hstep]
  by_cases hlast : i.val + 1 < NPROC
  · -- the rest of the scan, from slot `i + 1` on
    have hpc : (((s.updProc i Proc.promote).updCpu j
        fun c => { c with pc := nextPromote i }).cpu j).pc = .promote ⟨i.val + 1, hlast⟩ := by
      rw [State.updCpu_cpu_self, nextPromote, dif_pos hlast]
    have ih := exec_promote _ ⟨i.val + 1, hlast⟩ hpc
    rw [show NPROC - (i.val + 1) = n by omega] at ih
    rw [ih]
    congr 1
    simp only [State.updCpu, State.updProc, State.mk.injEq, Function.update_idem,
      Function.update_self, and_true]
    funext p
    by_cases hpi : p = i
    · subst hpi
      simp [Fin.le_def]
    · have hne : p.val ≠ i.val := fun hv => hpi (Fin.ext hv)
      rw [Function.update_of_ne hpi]
      simp only [Fin.le_def]
      by_cases hle : i.val ≤ p.val
      · rw [if_pos hle, if_pos (by omega)]
      · rw [if_neg hle, if_neg (by omega)]
  · have hn0 : n = 0 := by omega
    subst hn0
    rw [List.replicate_zero, exec_nil]
    congr 1
    simp only [State.updCpu, State.updProc, nextPromote, dif_neg hlast, State.mk.injEq, and_true]
    funext p
    have hp := p.isLt
    by_cases hpi : p = i
    · subst hpi
      simp
    · have hne : p.val ≠ i.val := fun hv => hpi (Fin.ext hv)
      rw [Function.update_of_ne hpi, if_neg (by rw [Fin.le_def]; omega)]
termination_by NPROC - i.val

/-- What is left of the selection scan when level `q` has been checked at `checked` slots. -/
def restScan (t : Table) (cursors : Cursors) (q checked : ℕ) : Option (ℕ × Slot) :=
  match (((List.range NPROC).drop checked).map fun c => slotAt (cursors q + c)).find?
      fun p => (t p).eligible q with
  | some p => some (q, p)
  | none =>
    ((List.range NQUEUES).drop (q + 1)).findSome? fun q =>
      (scanLevel t (cursors q) q).map fun p => (q, p)

theorem drop_range_cons {n m : ℕ} (h : m < n) :
    (List.range n).drop m = m :: (List.range n).drop (m + 1) := by
  rw [List.drop_eq_getElem_cons (by simpa using h), List.getElem_range]

theorem restScan_of_eligible {checked : ℕ} (hc : checked < NPROC)
    (h : (t (slotAt (cursors q + checked))).eligible q) :
    restScan t cursors q checked = some (q, slotAt (cursors q + checked)) := by
  have hfind := List.find?_cons_of_pos (p := fun p => (t p).eligible q)
    (l := ((List.range NPROC).drop (checked + 1)).map fun c => slotAt (cursors q + c)) h
  rw [restScan, drop_range_cons hc, List.map_cons, hfind]

theorem restScan_succ {checked : ℕ} (hc : checked < NPROC)
    (h : ¬ (t (slotAt (cursors q + checked))).eligible q) :
    restScan t cursors q checked = restScan t cursors q (checked + 1) := by
  have hfind := List.find?_cons_of_neg (p := fun p => (t p).eligible q)
    (l := ((List.range NPROC).drop (checked + 1)).map fun c => slotAt (cursors q + c)) h
  rw [restScan, drop_range_cons hc, List.map_cons, hfind]
  rfl

theorem restScan_zero (hq : q < NQUEUES) :
    restScan t cursors q 0 = ((List.range NQUEUES).drop q).findSome? fun q =>
      (scanLevel t (cursors q) q).map fun p => (q, p) := by
  rw [drop_range_cons hq, List.findSome?_cons]
  unfold restScan scanLevel
  rw [List.drop_zero]
  split
  · rename_i p hp
    rw [hp]
    rfl
  · rename_i hp
    rw [hp]
    rfl

theorem restScan_length :
    restScan t cursors q NPROC = ((List.range NQUEUES).drop (q + 1)).findSome? fun q =>
      (scanLevel t (cursors q) q).map fun p => (q, p) := by
  unfold restScan
  rw [List.drop_of_length_le (by simp)]
  rfl

/-- Where the CPU is, and its cursors, after a selection scan with the given result. -/
def Cpu.selected (c : Cpu) : Option (ℕ × Slot) → Cpu
  | some (q, p) =>
    { c with
      pc := .dispatch p
      lastQueuedProc := Function.update c.lastQueuedProc q ((p.val + 1) % NPROC) }
  | none => { c with pc := .promote 0 }

theorem exec_select (s : State) (q checked : ℕ) (hq : q < NQUEUES) (hc : checked < NPROC)
    (h : (s.cpu j).pc = .select q checked) :
    ∃ n, exec step s (List.replicate n ⟨j, .select⟩) = some (s.updCpu j fun c =>
      c.selected (restScan s.proc c.lastQueuedProc q checked)) := by
  by_cases helig : (s.proc (slotAt ((s.cpu j).lastQueuedProc q + checked))).eligible q
  · refine ⟨1, ?_⟩
    have hstep : step s ⟨j, .select⟩ = some (s.updCpu j fun c =>
        c.selected (restScan s.proc c.lastQueuedProc q checked)) := by
      show stepSelect s j = _
      rw [stepSelect, h]
      simp only [State.updCpu, restScan_of_eligible hc helig, Cpu.selected, if_pos helig]
    rw [List.replicate_one, exec_cons _ hstep, exec_nil]
  · have hstep : step s ⟨j, .select⟩ =
        some (s.updCpu j fun c => { c with pc := nextSelect q checked }) := by
      show stepSelect s j = _
      rw [stepSelect, h]
      exact if_neg helig
    have hpc : ((s.updCpu j fun c => { c with pc := nextSelect q checked }).cpu j).pc =
        nextSelect q checked := by
      rw [State.updCpu_cpu_self]
    -- where the scan goes on, with the same result
    have hrest : ∀ q' checked', q' < NQUEUES → checked' < NPROC →
        nextSelect q checked = .select q' checked' →
        64 * (4 - q') - checked' < 64 * (4 - q) - checked →
        restScan s.proc (s.cpu j).lastQueuedProc q checked =
          restScan s.proc (s.cpu j).lastQueuedProc q' checked' →
        ∃ n, exec step s (List.replicate n ⟨j, .select⟩) = some (s.updCpu j fun c =>
          c.selected (restScan s.proc c.lastQueuedProc q checked)) := by
      intro q' checked' hq' hc' hnext hdec hsame
      obtain ⟨n, hn⟩ := exec_select _ q' checked' hq' hc' (hpc.trans hnext)
      refine ⟨n + 1, ?_⟩
      rw [List.replicate_succ, exec_cons _ hstep, hn]
      congr 1
      simp only [State.updCpu, State.mk.injEq, Function.update_idem, Function.update_self, hsame,
        and_true, true_and]
      congr 1
    have hsucc := restScan_succ hc helig
    have hq4 : q < 4 := hq
    have hc64 : checked < 64 := hc
    by_cases hc1 : checked + 1 < NPROC
    · exact hrest q (checked + 1) hq hc1 (if_pos hc1) (by omega) hsucc
    · have hlast : checked + 1 = NPROC := by omega
      rw [hlast, restScan_length] at hsucc
      by_cases hq1 : q + 1 < NQUEUES
      · refine hrest (q + 1) 0 hq1 (by decide) ?_ (by omega)
          (hsucc.trans (restScan_zero hq1).symm)
        rw [nextSelect, if_neg hc1, if_pos hq1]
      · rw [List.drop_of_length_le (by simp; omega), List.findSome?_nil] at hsucc
        refine ⟨1, ?_⟩
        rw [List.replicate_one, exec_cons _ hstep, exec_nil]
        simp only [State.updCpu, nextSelect, if_neg hc1, if_neg hq1, hsucc, Cpu.selected]
termination_by 64 * (4 - q) - checked

theorem pass_eq (t : Table) (cursors : Cursors) :
    (pass t cursors).cursors = (selectionScan (promotionScan t) cursors).elim cursors
        (fun r => Function.update cursors r.1 ((r.2.val + 1) % NPROC)) ∧
      (pass t cursors).chosen = (selectionScan (promotionScan t) cursors).map Prod.snd := by
  unfold pass
  dsimp only
  split
  · rename_i q p hr
    rw [hr]
    exact ⟨rfl, rfl⟩
  · rename_i hr
    rw [hr]
    exact ⟨rfl, rfl⟩

/-- **A pass is what its sections do** when one CPU takes them undisturbed. -/
theorem exec_pass (h : (s.cpu j).pc = .promote 0) :
    ∃ n s', exec step s (List.replicate NPROC ⟨j, .promote⟩ ++ List.replicate n ⟨j, .select⟩) =
        some s' ∧
      s'.proc = (pass s.proc (s.cpu j).lastQueuedProc).table ∧
      (s'.cpu j).lastQueuedProc = (pass s.proc (s.cpu j).lastQueuedProc).cursors ∧
      (s'.cpu j).pc = (pass s.proc (s.cpu j).lastQueuedProc).chosen.elim (.promote 0) .dispatch ∧
      (s'.cpu j).proc = (s.cpu j).proc ∧
      ∀ k, k ≠ j → s'.cpu k = s.cpu k := by
  have hpromote : exec step s (List.replicate NPROC ⟨j, .promote⟩) = some (s.promoted j) := by
    have hexec := exec_promote s 0 h
    have hproc : (fun p => if (0 : Slot) ≤ p then (s.proc p).promote else s.proc p) =
        promotionScan s.proc := by
      funext p
      rw [if_pos (Fin.zero_le p), promotionScan_apply]
    rw [hproc] at hexec
    exact hexec
  have hcpu : (s.promoted j).cpu j = { s.cpu j with pc := .select 0 0 } := by
    simp [State.promoted]
  obtain ⟨n, hn⟩ := exec_select (s.promoted j) 0 0 (by decide) (by decide)
    (show ((s.promoted j).cpu j).pc = .select 0 0 by rw [hcpu])
  refine ⟨n, _, by rw [exec_append, hpromote]; exact hn, ?_⟩
  have hscan : restScan (s.promoted j).proc (s.cpu j).lastQueuedProc 0 0 =
      selectionScan (promotionScan s.proc) (s.cpu j).lastQueuedProc :=
    restScan_zero (by decide)
  obtain ⟨hcursors, hchosen⟩ := pass_eq s.proc (s.cpu j).lastQueuedProc
  rw [State.updCpu_proc, State.updCpu_cpu_self, hcpu, hcursors, hchosen, hscan]
  refine ⟨?_, ?_, ?_, ?_, fun k hk => ?_⟩
  · funext p
    rw [pass_table]
    exact promotionScan_apply s.proc p
  · cases selectionScan (promotionScan s.proc) (s.cpu j).lastQueuedProc <;> rfl
  · cases selectionScan (promotionScan s.proc) (s.cpu j).lastQueuedProc <;> rfl
  · cases selectionScan (promotionScan s.proc) (s.cpu j).lastQueuedProc <;> rfl
  · rw [State.updCpu_cpu_of_ne _ _ hk]
    simp [State.promoted, hk]

/-! ## What the selection chooses -/

/-- The process that is to be chosen: `RUNNABLE`, at the smallest level `q` of all `RUNNABLE`
processes, and the first of that level from the cursor on. -/
structure IsNext (t : Table) (cursors : Cursors) (q : ℕ) (p : Slot) : Prop where
  runnable : (t p).state = .runnable
  level : (t p).queueLevel = q
  least : ∀ p', (t p').state = .runnable → q ≤ (t p').queueLevel
  first : ∀ p', p' ≠ p → (t p').state = .runnable → (t p').queueLevel = q →
    cyclicDistance (cursors q) p < cyclicDistance (cursors q) p'

theorem cyclicDistance_slotAt {e : ℕ} (he : e < NPROC) :
    cyclicDistance start (slotAt (start + e)) = e := by
  have he' : e < 64 := he
  simp only [slotAt, cyclicDistance, NPROC]
  omega

theorem isNext_of_selectionScan (hlevels : ∀ p, 0 ≤ (t p).queueLevel)
    (h : selectionScan t cursors = some (q, p)) : IsNext t cursors q p := by
  obtain ⟨hq, hscan, hnone⟩ := selectionScan_eq_some h
  obtain ⟨e, he, rfl, helig, hfirst⟩ := scanLevel_eq_some hscan
  rw [Proc.eligible, decide_eq_true_eq] at helig
  refine ⟨helig.1, helig.2, fun p' hp' => ?_, fun p' hne hp' hlevel => ?_⟩
  · -- a process at a smaller level would have been found there
    by_contra hlt
    have hnonneg := hlevels p'
    have hp'elig : (t p').eligible (t p').queueLevel.toNat := by
      rw [Proc.eligible, decide_eq_true_eq]
      exact ⟨hp', by omega⟩
    obtain ⟨p'', hp''⟩ := exists_scanLevel (cursors (t p').queueLevel.toNat) hp'elig
    exact nomatch (hnone _ (by omega)).symm.trans hp''
  · rw [cyclicDistance_slotAt he]
    by_contra hge
    have hne' : cyclicDistance (cursors q) p' ≠ e := by
      rintro rfl
      exact hne (slotAt_cyclicDistance (cursors q) p').symm
    have hnot := hfirst (cyclicDistance (cursors q) p') (by omega)
    rw [slotAt_cyclicDistance, Proc.eligible, decide_eq_true_eq] at hnot
    exact hnot ⟨hp', hlevel⟩

/-- The selection loop of CPU `j` has ended, from `s` in `s'`: with the next process and its cursor
moved behind it, or, if no process is `RUNNABLE`, with nothing. -/
structure Selected (s s' : State) (j : CpuId) : Prop where
  table : s'.proc = s.proc
  others : ∀ k, k ≠ j → s'.cpu k = s.cpu k
  chooses : (∃ p, (s'.cpu j).pc = .dispatch p) ↔ ∃ p, (s.proc p).state = .runnable
  chosen : ∀ p, (s'.cpu j).pc = .dispatch p → ∃ q,
    IsNext s.proc (s.cpu j).lastQueuedProc q p ∧
      (s'.cpu j).lastQueuedProc q = (p.val + 1) % NPROC ∧
      ∀ q', q' ≠ q → (s'.cpu j).lastQueuedProc q' = (s.cpu j).lastQueuedProc q'
  none : (¬ ∃ p, (s.proc p).state = .runnable) →
    (s'.cpu j).pc = .promote 0 ∧ (s'.cpu j).lastQueuedProc = (s.cpu j).lastQueuedProc

/-- **The selection loop chooses the next process.** -/
theorem selection_chooses_next
    (hlevels : ∀ p, 0 ≤ (s.proc p).queueLevel ∧ (s.proc p).queueLevel < NQUEUES)
    (hcursors : ∀ q, q < NQUEUES → (s.cpu j).lastQueuedProc q < NPROC)
    (h : (s.cpu j).pc = .select 0 0) :
    ∃ n s', exec step s (List.replicate n ⟨j, .select⟩) = some s' ∧ Selected s s' j ∧
      ∀ q, q < NQUEUES → (s'.cpu j).lastQueuedProc q < NPROC := by
  obtain ⟨n, hn⟩ := exec_select s 0 0 (by decide) (by decide) h
  have hrest : restScan s.proc (s.cpu j).lastQueuedProc 0 0 =
      selectionScan s.proc (s.cpu j).lastQueuedProc := restScan_zero (by decide)
  refine ⟨n, _, hn, ?_⟩
  have hcpu : ((s.updCpu j fun c => c.selected (restScan s.proc c.lastQueuedProc 0 0)).cpu j) =
      (s.cpu j).selected (selectionScan s.proc (s.cpu j).lastQueuedProc) := by
    rw [State.updCpu_cpu_self, hrest]
  have hothers : ∀ k, k ≠ j →
      (s.updCpu j fun c => c.selected (restScan s.proc c.lastQueuedProc 0 0)).cpu k = s.cpu k :=
    fun k hk => State.updCpu_cpu_of_ne s _ hk
  cases hscan : selectionScan s.proc (s.cpu j).lastQueuedProc with
  | none =>
    rw [hscan] at hcpu
    have hidle : ¬ ∃ p, (s.proc p).state = .runnable := by
      rintro ⟨p, hp⟩
      obtain ⟨hlo, hhi⟩ := hlevels p
      have helig : (s.proc p).eligible (s.proc p).queueLevel.toNat := by
        rw [Proc.eligible, decide_eq_true_eq]
        exact ⟨hp, by omega⟩
      have hsome := selectionScan_isSome (s.cpu j).lastQueuedProc (by omega) helig
      rw [hscan] at hsome
      exact nomatch hsome
    refine ⟨⟨rfl, hothers, ?_, ?_, fun _ => ?_⟩, ?_⟩
    · rw [hcpu]
      exact ⟨fun ⟨p, hp⟩ => (nomatch hp), fun hex => absurd hex hidle⟩
    · rw [hcpu]
      exact fun p hp => nomatch hp
    · rw [hcpu]
      exact ⟨rfl, rfl⟩
    · rw [hcpu]
      exact hcursors
  | some r =>
    obtain ⟨q, p⟩ := r
    rw [hscan] at hcpu
    have hnext := isNext_of_selectionScan (fun p => (hlevels p).1) hscan
    refine ⟨⟨rfl, hothers, ?_, ?_, fun hnone => absurd ⟨p, hnext.runnable⟩ hnone⟩, ?_⟩
    · rw [hcpu]
      exact ⟨fun _ => ⟨p, hnext.runnable⟩, fun _ => ⟨p, rfl⟩⟩
    · rw [hcpu]
      intro p' hp'
      cases hp'
      exact ⟨q, hnext, Function.update_self .., fun q' hq' => Function.update_of_ne hq' ..⟩
    · rw [hcpu]
      intro q' hq'
      show Function.update (s.cpu j).lastQueuedProc q ((p.val + 1) % NPROC) q' < NPROC
      rw [Function.update_apply]
      split
      · exact Nat.mod_lt _ (by decide)
      · exact hcursors q' hq'

/-- After the boot, CPU 0 has promoted, and selects `init`. -/
theorem selection_chooses_next_init : ∃ s s' : State, (s.cpu 0).pc = .select 0 0 ∧
    Selected s s' 0 ∧ (s.proc 0).state = .runnable := by
  have hpc : ((boot.promoted 0).cpu 0).pc = .select 0 0 := by decide +kernel
  have hlevels : ∀ p, 0 ≤ ((boot.promoted 0).proc p).queueLevel ∧
      ((boot.promoted 0).proc p).queueLevel < NQUEUES := by decide +kernel
  obtain ⟨n, s', -, hsel, -⟩ := selection_chooses_next hlevels (j := 0) (fun q _ => by
    show INIT_RR_INDEX < NPROC
    decide) hpc
  exact ⟨_, s', hpc, hsel, by decide +kernel⟩

end Sched
end Xv6
