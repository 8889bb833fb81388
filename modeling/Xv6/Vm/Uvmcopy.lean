import Xv6.Vm.Fill
import Xv6.Vm.Processes
import Xv6.Vm.UserMemory

/-!
# `uvmcopy` duplicates memory

`uvmcopy` fills the child's page table from the parent's: the target of page `j` is a page with the
flags and the bytes that the parent has there, or none (`copyTarget`).  The parent's tables and pages
are neither free nor tables of the child, so no step touches them (`Parent`, `Unchanged`).  When
memory runs out, for a page or for a table, `uvmunmap` takes back what has been mapped.
-/

namespace Xv6
namespace Vm

open Bytes Program Slots

variable {L : Layout} {m m₀ m' : Phys} {free free₀ free' : List ℕ} {H : Set ℕ} {M : PageMap}
  {T : Target} {old new a k n q e sz : ℕ}

/-! ## The parent -/

/-- What the parent has: none of its pages is free, or a table of the child. -/
structure Parent (old new : ℕ) (free : List ℕ) (m : Phys) : Prop where
  table : ∀ π t, IsTable m.mem old π t → t ∉ free ∧ ∀ π', ¬ IsTable m.mem new π' t
  leaf : ∀ j e, pageMap m.mem old j = some e →
    pte2pa e ∉ free ∧ ∀ π, ¬ IsTable m.mem new π (pte2pa e)

/-- The parent keeps its tables and its pages. -/
structure Unchanged (old : ℕ) (m m' : Phys) : Prop where
  table : ∀ π t, IsTable m.mem old π t → m'.mem t = m.mem t
  map : pageMap m'.mem old = pageMap m.mem old
  leaf : ∀ j e, pageMap m.mem old j = some e → m'.mem (pte2pa e) = m.mem (pte2pa e)

theorem Holds.lookup_parent (h : Holds L new a k M m₀ free₀ H free m)
    (hparent : Parent old new free₀ m₀) (va : ℕ) : lookup m.mem old va = lookup m₀.mem old va := by
  refine lookup_of_tables (fun π t hlen hπ hn => ?_) va
  obtain ⟨hfree, hnot⟩ := hparent.table π t ⟨hlen, hπ, hn⟩
  exact h.kept t hfree hnot

theorem Holds.unchanged (h : Holds L new a k M m₀ free₀ H free m)
    (hparent : Parent old new free₀ m₀) : Unchanged old m₀ m where
  table π t ht := h.kept t (hparent.table π t ht).1 (hparent.table π t ht).2
  map := pageMap_congr (h.lookup_parent hparent)
  leaf j e he := h.kept _ (hparent.leaf j e he).1 (hparent.leaf j e he).2

/-! ## The turns -/

/-- What the child is to have at page `j`. -/
def copyTarget (old : ℕ) (m : Phys) : Target := fun j =>
  (pageMap m.mem old j).map fun e => (pteFlags e, m.mem (pte2pa e))

theorem pteFlags_lt (e : ℕ) : pteFlags e < 1024 := Nat.mod_lt _ (by decide)

theorem copyTarget_perm {j perm : ℕ} {w : Mem} (h : copyTarget old m j = some (perm, w)) :
    perm < 1024 := by
  obtain ⟨e, -, heq⟩ := Option.map_eq_some_iff.mp h
  rw [← (Prod.mk.inj heq).1]
  exact pteFlags_lt e

theorem uvmcopyFrom_fills {N : ℕ} (hN : 4096 * N ≤ MAXVA) (hfree₀ : ∀ p ∈ free₀, L.Page p)
    (hparent : Parent old new free₀ m₀) (hM : ∀ j < N, M j = none) (hn : k + n = N)
    (h : Fills L new 0 k (copyTarget old m₀) M m₀ free₀ free m) :
    Ensures (uvmcopyFrom L old new n (4096 * k)) m fun res m' => ∃ free',
      (res = 0 ∧ Fills L new 0 N (copyTarget old m₀) M m₀ free₀ free' m') ∨
        (res = -1 ∧ ∃ k ≤ N, Holds L new k k M m₀ free₀ ∅ free' m') := by
  induction n generalizing k m free with
  | zero =>
    obtain rfl : k = N := hn
    exact .pure ⟨free, Or.inl ⟨rfl, h⟩⟩
  | succ n ih =>
    have hk : 4096 * k < MAXVA := by omega
    have hpages : 4096 * k / 4096 = k := by omega
    have hnext : 4096 * k + 4096 = 4096 * (k + 1) := by omega
    have hMk := hM k (by omega)
    have hentry : pageMap m₀.mem old k = _ := hpages ▸ pageMap_of_lookup (m := m₀) (r := old) hk
    rw [← h.lookup_parent hparent] at hentry
    rw [uvmcopyFrom, hnext]
    have hskip : isV (lookup m.mem old (4096 * k)) = false →
        Ensures (uvmcopyFrom L old new n (4096 * (k + 1))) m fun res m' => ∃ free',
          (res = 0 ∧ Fills L new 0 N (copyTarget old m₀) M m₀ free₀ free' m') ∨
            (res = -1 ∧ ∃ k ≤ N, Holds L new k k M m₀ free₀ ∅ free' m') := by
      intro hV
      refine ih (by omega) (h.skip ?_ hMk)
      rw [copyTarget, hentry, hV]
      rfl
    -- out of memory
    have hfail : ∀ m₁ free₁, Holds L new 0 k M m₀ free₀ ∅ free₁ m₁ →
        Ensures (do uvmunmap L new 0 (4096 * k / 4096) true; return (-1 : ℤ)) m₁ fun res m' =>
          ∃ free', (res = 0 ∧ Fills L new 0 N (copyTarget old m₀) M m₀ free₀ free' m') ∨
            (res = -1 ∧ ∃ k ≤ N, Holds L new k k M m₀ free₀ ∅ free' m') := by
      intro m₁ free₁ h₁
      rw [hpages]
      refine .bind (h₁.uvmunmap hk.le hfree₀ (fun j _ hj => hM j (by omega)) (Nat.zero_add k)) ?_
      rintro - m' ⟨free', hheld, -⟩
      exact .pure ⟨free', Or.inr ⟨rfl, k, by omega, hheld⟩⟩
    refine ensures_walk_false_bind hk (fun hn => hskip ?_) fun t ht => ensures_readPte_bind ?_
    · rw [lookup_of_node_none hn, isV_zero]
    rw [← lookup_of_node ht]
    refine .ite (fun hV => hskip (by simpa using hV)) fun hV => ?_
    rw [if_pos (by simpa using hV)] at hentry
    generalize lookup m.mem old (4096 * k) = e at hentry
    obtain ⟨hsrc, hsrc'⟩ := hparent.leaf k e hentry
    have htarget : copyTarget old m₀ k = some (pteFlags e, m₀.mem (pte2pa e)) := by
      rw [copyTarget, hentry]
      rfl
    refine h.ensures_mapPage (Nat.zero_le k) hk hfree₀ (fun _ _ _ => copyTarget_perm) hMk htarget
      (F := fun q => memmovePage q (pte2pa e)) (Z := fun _ => uvmcopyFrom L old new n _)
      (fun q m₁ hq hm => ?_) (fun _ => hfail _ _ h.toHolds) (fun q m₁ hpage hheld => ?_)
      fun q m₁ _ _ hfills => ?_
    · have hne : pte2pa e ≠ q := fun heq => hsrc (heq ▸ hq)
      have hbytes : m₁.mem (pte2pa e) = m₀.mem (pte2pa e) := by
        rw [hm _ hne, h.kept _ hsrc hsrc']
      rw [← hbytes]
      rfl
    · refine .bind (.of_eq (kfree_run hpage m₁) (Q := fun _ m' => m' = m₁.push q) rfl) ?_
      rintro - m₂ rfl
      obtain ⟨free', -, hheld⟩ := hheld
      exact hfail _ _ hheld
    · obtain ⟨free', hfills⟩ := hfills
      exact ih (by omega) hfills

/-! ## `uvmcopy` -/

/-- The child `new` has in `m'` what the parent `old` had in `m`, below page `N`: at the same
addresses, with the same flags and the same bytes, and in pages of its own. -/
structure Duplicate (old new N : ℕ) (m m' : Phys) : Prop where
  leaf_iff : ∀ j < N, (pageMap m'.mem new j).isSome = (pageMap m.mem old j).isSome
  flags : ∀ j < N, ∀ e e', pageMap m.mem old j = some e → pageMap m'.mem new j = some e' →
    pteFlags e' = pteFlags e
  bytes : ∀ j < N, ∀ e e', pageMap m.mem old j = some e → pageMap m'.mem new j = some e' →
    m'.mem (pte2pa e') = m.mem (pte2pa e)
  fresh : ∀ j < N, ∀ j' e e', pageMap m'.mem new j = some e → pageMap m.mem old j' = some e' →
    pte2pa e ≠ pte2pa e'
  distinct : ∀ j < N, ∀ j' < N, ∀ e e', pageMap m'.mem new j = some e →
    pageMap m'.mem new j' = some e' → pte2pa e = pte2pa e' → j = j'

theorem isV_of_pageMap {mem : ℕ → Mem} {r j : ℕ} (h : pageMap mem r j = some e) : isV e = true := by
  rw [pageMap] at h
  split at h
  · rename_i hV
    cases h
    exact hV.2
  · cases h

theorem pteFlags_mkPte (hV : isV e = true) : pteFlags (mkPte q (pteFlags e)) = pteFlags e := by
  have hbit : (pteFlags e).testBit 0 = true := by
    rw [pteFlags, show (1024 : ℕ) = 2 ^ 10 from rfl, Nat.testBit_mod_two_pow]
    simpa [isV] using hV
  have hor : pteFlags e ||| PTE_V = pteFlags e := by
    refine Nat.eq_of_testBit_eq fun i => ?_
    rw [Nat.testBit_or]
    cases i with
    | zero => rw [hbit, Bool.true_or]
    | succ i => simp [PTE_V, Nat.testBit_succ]
  have hlt := pteFlags_lt e
  rw [mkPte_eq hlt, hor, pteFlags, pteFlags]
  rw [pteFlags] at hlt
  omega

theorem Fills.duplicate (h : Fills L new 0 k (copyTarget old m) M m free free' m')
    (hparent : Parent old new free m) : Duplicate old new k m m' := by
  have hcopy : ∀ j < k, ∀ e, pageMap m.mem old j = some e →
      ∃ q, L.Page q ∧ pageMap m'.mem new j = some (mkPte q (pteFlags e)) ∧
        m'.mem q = m.mem (pte2pa e) := by
    intro j hj e he
    refine h.page j _ _ (Nat.zero_le j) hj ?_
    rw [copyTarget, he]
    rfl
  have hentry : ∀ j < k, ∀ e e', pageMap m.mem old j = some e → pageMap m'.mem new j = some e' →
      ∃ q, L.Page q ∧ e' = mkPte q (pteFlags e) ∧ m'.mem q = m.mem (pte2pa e) := by
    intro j hj e e' he he'
    obtain ⟨q, hpage, hq, hmem⟩ := hcopy j hj e he
    exact ⟨q, hpage, Option.some.inj (he'.symm.trans hq), hmem⟩
  constructor
  · intro j hj
    cases hold : pageMap m.mem old j with
    | none =>
      rw [h.hole j (Nat.zero_le j) hj]
      rw [copyTarget, hold]
      rfl
    | some e =>
      obtain ⟨q, -, hq, -⟩ := hcopy j hj e hold
      rw [hq]
      rfl
  · intro j hj e e' he he'
    obtain ⟨q, -, rfl, -⟩ := hentry j hj e e' he he'
    exact pteFlags_mkPte (isV_of_pageMap he)
  · intro j hj e e' he he'
    obtain ⟨q, hpage, rfl, hmem⟩ := hentry j hj e e' he he'
    rw [pte2pa_mkPte hpage.lt hpage.1 (pteFlags_lt e), hmem]
  · intro j hj j' e e' he he' heq
    exact (hparent.leaf j' e' he').1 (heq ▸ (h.leaf j e (Nat.zero_le j) hj he).1)
  · intro j hj j' hj' e e'
    exact h.once j j' e e' (Nat.zero_le j) hj (Nat.zero_le j') hj'

theorem Tables.mono {R R' : Set ℕ} (h : Tables L m free R) (hR : R' ⊆ R) : Tables L m free R' where
  freeList := h.freeList
  page r hr := h.page r (hR hr)
  unique r hr r' hr' := h.unique r (hR hr) r' (hR hr')

/-- **`uvmcopy` duplicates memory**, whatever pages the parent has, with whatever permissions, and
whenever memory runs out.  If it returns 0, the child has what the parent has.  If it returns -1, the
child maps nothing new, and of the pages that were free all are free again but for those that are
tables of the child.  The parent is unchanged in both cases. -/
theorem uvmcopy_duplicates (htables : Tables L m free {old, new}) (hne : old ≠ new)
    (hsz : sz ≤ MAXVA)
    (hleaf : ∀ j e, pageMap m.mem old j = some e →
      pte2pa e ∉ free ∧ ∀ π, ¬ IsTable m.mem new π (pte2pa e))
    (hchild : ∀ j < pgRoundUp sz / 4096, pageMap m.mem new j = none) :
    Ensures (uvmcopy L old new sz) m fun res m' =>
      Unchanged old m m' ∧
      (∀ j, pgRoundUp sz / 4096 ≤ j → pageMap m'.mem new j = pageMap m.mem new j) ∧
      ((res = 0 ∧ Duplicate old new (pgRoundUp sz / 4096) m m') ∨
        (res = -1 ∧ (∀ j < pgRoundUp sz / 4096, pageMap m'.mem new j = none) ∧
          ∃ free', FreeList L m' free' ∧
            ∀ p ∈ free, p ∈ free' ∨ ∃ π, IsTable m'.mem new π p)) := by
  have hmax := MAXVA_eq
  have hround : pgRoundUp sz / 4096 = (sz + 4095) / 4096 := by
    rw [pgRoundUp_eq hsz]
    omega
  rw [hround] at hchild ⊢
  have hparent : Parent old new free m := by
    refine ⟨fun π t ht => ⟨(htables.page old (Or.inl rfl) π t ht).2, fun π' ht' => ?_⟩, hleaf⟩
    exact hne (htables.unique old (Or.inl rfl) new (Or.inr rfl) π π' t ht ht').1
  have htables' : Tables L m free {new} := htables.mono (Set.subset_insert old {new})
  rw [uvmcopy]
  refine (uvmcopyFrom_fills (by omega) htables.freeList.page hparent hchild (Nat.zero_add _)
    (.refl htables')).mono ?_
  rintro res m' ⟨free', ⟨rfl, hfills⟩ | ⟨rfl, k, hk, hholds⟩⟩
  · exact ⟨hfills.unchanged hparent, fun j hj => hfills.outside j (by omega),
      Or.inl ⟨rfl, hfills.duplicate hparent⟩⟩
  · refine ⟨hholds.unchanged hparent, fun j _ => hholds.outside j (by omega),
      Or.inr ⟨rfl, fun j hj => ?_, free', hholds.tables.freeList, fun p hp => ?_⟩⟩
    · rw [hholds.outside j (by omega), hchild j hj]
    · rcases hholds.total p hp with hfree | hH | ht | ⟨j, e, hj, hjk, -⟩
      · exact Or.inl hfree
      · exact absurd hH (Set.notMem_empty p)
      · exact Or.inr ht
      · omega

section Processes

variable {A : Set ℕ} {proc : Fin NPROC → Proc} {i j : Fin NPROC}

theorem Inv.mem_roots (h : Inv L m proc A) (hi : (proc i).used) : (proc i).pagetable ∈ roots proc :=
  mem_values (f := fun i => (proc i).pagetable) (h.live i hi).2.1

/-- From `TRAPFRAME` on a process maps its trapframe and the trampoline. -/
theorem Inv.special_page (h : Inv L m proc A) (hi : (proc i).used) (hk : TRAPFRAME ≤ 4096 * k)
    (he : pageMap m.mem (proc i).pagetable k = some e) :
    pte2pa e ∈ A ∪ trapframes proc ∨ ¬ L.Page (pte2pa e) := by
  obtain ⟨free, howned⟩ := h.space
  obtain ⟨htf, -, hmapped⟩ := h.live i hi
  have hmax := MAXVA_eq
  have hframe := TRAPFRAME_eq
  have htramp := TRAMPOLINE_eq
  have hheld : (proc i).trapframe ∈ A ∪ trapframes proc :=
    Or.inr (mem_values (f := fun i => (proc i).trapframe) htf)
  have hpage := (howned.held _ hheld).1
  rw [pageMap] at he
  split at he
  · rename_i hlt
    cases he
    by_cases hva : 4096 * k / 4096 = TRAPFRAME / 4096
    · rw [lookup_congr hva, hmapped.trapframe, pte2pa_mkPte hpage.lt hpage.1 (by decide)]
      exact Or.inl hheld
    · have hlow := L.trampoline_lt
      have hle := L.kend_le
      have hstop := PHYSTOP_eq
      rw [lookup_congr (show 4096 * k / 4096 = TRAMPOLINE / 4096 by omega), hmapped.trampoline,
        pte2pa_mkPte (by omega) L.trampoline_mod (by decide)]
      refine Or.inr fun hpage => ?_
      have := hpage.2.1
      omega
  · cases he

/-- The pages that a process maps, its trapframe and the trampoline included, are neither free nor
tables. -/
theorem Inv.leaf_page (h : Inv L m proc A)
    (howned : Owned L m free (A ∪ trapframes proc) (roots proc)) (hi : (proc i).used)
    (he : pageMap m.mem (proc i).pagetable k = some e) :
    pte2pa e ∉ free ∧ ∀ r ∈ roots proc, ∀ π, ¬ IsTable m.mem r π (pte2pa e) := by
  by_cases hk : 4096 * k < TRAPFRAME
  · rw [pageMap] at he
    split at he
    · rename_i hlt
      cases he
      exact howned.user_page (h.mem_roots hi) (owns_of_lt hk) hlt.2
    · cases he
  · rcases h.special_page hi (by omega) he with hheld | hnot
    · refine ⟨(howned.held _ hheld).2, fun r hr π ht => ?_⟩
      exact (howned.uses r hr π _ (.of_table ht.length_le ht.inTable ht.node_eq)).2.2 hheld
    · exact ⟨fun hfree => hnot (howned.freeList.page _ hfree),
        fun r hr π ht => hnot (howned.tables.page r hr π _ ht).1⟩

theorem Inv.parent (h : Inv L m proc A) (hi : (proc i).used) (hj : (proc j).used) (hij : i ≠ j) :
    ∃ free, Tables L m free {(proc i).pagetable, (proc j).pagetable} ∧
      (proc i).pagetable ≠ (proc j).pagetable ∧
      ∀ k e, pageMap m.mem (proc i).pagetable k = some e →
        pte2pa e ∉ free ∧ ∀ π, ¬ IsTable m.mem (proc j).pagetable π (pte2pa e) := by
  obtain ⟨free, howned⟩ := h.space
  refine ⟨free, howned.tables.mono ?_, fun heq => hij (h.pagetable_distinct i j heq
    (h.live i hi).2.1), fun k e he => ?_⟩
  · rintro r (rfl | rfl)
    · exact h.mem_roots hi
    · exact h.mem_roots hj
  · obtain ⟨hfree, htable⟩ := h.leaf_page howned hi he
    exact ⟨hfree, htable _ (h.mem_roots hj)⟩

/-- Sixteen pages. -/
def forkLayout : Layout where
  kend := PHYSTOP - 16 * 4096
  trampoline := KERNBASE
  trampoline_mod := smallLayout.trampoline_mod
  trampoline_lt := by decide
  kernbase_le := le_refl _
  kend_le := by decide

/-- A process that has grown by a page, and another one that has just been made. -/
def twoProcesses : KernM (Option (Fin NPROC × Fin NPROC)) := do
  boot forkLayout
  match ← allocproc forkLayout with
  | none => return none
  | some i =>
    let _ ← growproc forkLayout i 4096
    match ← allocproc forkLayout with
    | none => return none
    | some j => return some (i, j)

theorem twoProcesses_spec : Ensures twoProcesses (Kern.cold fun _ _ => 0) fun res k =>
    ∀ i j, res = some (i, j) → Inv forkLayout k.phys k.proc ∅ ∧ (k.proc i).used ∧
      (k.proc j).used ∧ i ≠ j ∧ Below k.phys (k.proc j).pagetable 0 := by
  refine .bind (boot_spec forkLayout _) ?_
  rintro - k ⟨-, hinv⟩
  refine .bind (allocproc_spec hinv) ?_
  rintro (_ | i) _ ⟨m₁, proc₁, rfl, hinv₁, -, -, hnew⟩
  · exact .pure nofun
  refine .bind (growproc_spec hinv₁ (hnew i rfl).2.1 4096) ?_
  rintro _ _ ⟨m₂, p, rfl, hused, -, -, hinv₂, -⟩
  refine .bind (allocproc_spec hinv₂) ?_
  rintro (_ | j) _ ⟨m₃, proc₃, rfl, hinv₃, -, hsame, hnew₃⟩
  · exact .pure nofun
  have hi : ((Function.update proc₁ i p) i).used := by
    rw [Function.update_self]
    exact hused
  obtain ⟨hfree, hj, hbelow⟩ := hnew₃ j rfl
  refine .pure ?_
  rintro i' j' heq
  obtain ⟨rfl, rfl⟩ := Prod.mk.inj (Option.some.inj heq)
  refine ⟨hinv₃, ?_, hj, ?_, hbelow⟩
  · change (proc₃ i).used
    rw [hsame i hi]
    exact hi
  · rintro rfl
    exact nomatch hi.symm.trans hfree

/-- Process `i` has a page, and there is memory to copy it. -/
def copiesPage (i j : Fin NPROC) (k : Kern) : Bool :=
  (pageMap k.phys.mem (k.proc i).pagetable 0).isSome &&
    returns (fun r => decide (r = 0))
      (uvmcopy forkLayout (k.proc i).pagetable (k.proc j).pagetable 4096) k.phys

theorem uvmcopy_duplicates_first : ∃ m free old new m', Tables forkLayout m free {old, new} ∧
    old ≠ new ∧ (pageMap m.mem old 0).isSome ∧
    uvmcopy forkLayout old new 4096 m = .ok (0, m') ∧ Duplicate old new 1 m m' := by
  obtain ⟨res, k, hrun, hcheck⟩ := exists_of_endsIn (x := twoProcesses) (s := Kern.cold fun _ _ => 0)
    (p := fun res k => res.any fun r => copiesPage r.1 r.2 k) (by decide +kernel)
  obtain ⟨⟨i, j⟩, rfl, hcheck⟩ := (Option.any_eq_true ..).mp hcheck
  obtain ⟨hinv, hi, hj, hij, hbelow⟩ := twoProcesses_spec.of_run hrun i j rfl
  obtain ⟨hpage, hreturns⟩ := Bool.and_eq_true_iff.mp hcheck
  obtain ⟨r, m', hcopy, hr⟩ := exists_of_returns hreturns
  obtain rfl : r = 0 := of_decide_eq_true hr
  obtain ⟨free, htables, hne, hleaf⟩ := hinv.parent hi hj hij
  have hsz : 4096 ≤ MAXVA := by decide
  have hspec := uvmcopy_duplicates htables hne hsz hleaf fun n hn => ?_
  · obtain ⟨-, -, ⟨-, hdup⟩ | ⟨hfail, -⟩⟩ := hspec.of_run hcopy
    · exact ⟨_, free, _, _, m', htables, hne, hpage, hcopy, hdup⟩
    · exact absurd hfail (by decide)
  · obtain rfl : n = 0 := Nat.lt_one_iff.mp hn
    rw [pageMap, hbelow.not_isV (Nat.zero_le _) (by decide)]
    rfl

end Processes

end Vm
end Xv6
