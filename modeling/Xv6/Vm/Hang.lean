import Xv6.Vm.Walk

/-!
# The tables that `walk` hangs into a tree

`walk` with `alloc` takes a page from the free list for each table that is missing, two at most, and
`mappages` takes pages only through it.  `Hung L R k free m free' m'` says how memory changes by
that: the free list loses at most `k` pages from its front, the pages that were neither free nor
tables keep their contents, and no mapping changes.  `Hangs` says where the pages have gone: they are
tables now.

Nothing is said about the pages that addresses are mapped to, so this holds for any mapping, not
only for those of processes.
-/

namespace Xv6
namespace Vm

open Bytes Program

variable {L : Layout} {m m' m'' : Phys} {free free' free'' : List ℕ} {R : Set ℕ}
  {r t i v va pa perm k l : ℕ} {π : Path}

/-- At most `k` pages have gone from the free list into tables of the trees `R`. -/
structure Hung (L : Layout) (R : Set ℕ) (k : ℕ) (free : List ℕ) (m : Phys) (free' : List ℕ)
    (m' : Phys) : Prop where
  tables : Tables L m' free' R
  taken : ∃ used, free = used ++ free' ∧ used.length ≤ k
  kept : ∀ p, p ∉ free → (∀ r ∈ R, ∀ π, ¬ IsTable m.mem r π p) → m'.mem p = m.mem p
  new : ∀ r ∈ R, ∀ π t, IsTable m'.mem r π t → IsTable m.mem r π t ∨ t ∈ free
  lookup_eq : ∀ r ∈ R, ∀ va, lookup m'.mem r va = lookup m.mem r va

theorem Hung.refl (h : Tables L m free R) : Hung L R k free m free m where
  tables := h
  taken := ⟨[], rfl, Nat.zero_le k⟩
  kept _ _ _ := rfl
  new _ _ _ _ ht := Or.inl ht
  lookup_eq _ _ _ := rfl

theorem Hung.subset (h : Hung L R k free m free' m') {p : ℕ} (hp : p ∈ free') : p ∈ free := by
  obtain ⟨used, rfl, -⟩ := h.taken
  exact List.mem_append_right used hp

theorem Hung.trans (h : Hung L R k free m free' m') (h' : Hung L R l free' m' free'' m'') :
    Hung L R (k + l) free m free'' m'' where
  tables := h'.tables
  taken := by
    obtain ⟨used, rfl, hk⟩ := h.taken
    obtain ⟨used', rfl, hl⟩ := h'.taken
    refine ⟨used ++ used', (List.append_assoc ..).symm, ?_⟩
    rw [List.length_append]
    omega
  kept p hp hnot := by
    rw [h'.kept p (fun hp' => hp (h.subset hp')) fun r hr π ht => ?_, h.kept p hp hnot]
    exact (h.new r hr π p ht).elim (hnot r hr π) hp
  new r hr π t ht := by
    rcases h'.new r hr π t ht with ht' | hfree
    · exact h.new r hr π t ht'
    · exact Or.inr (h.subset hfree)
  lookup_eq r hr va := (h'.lookup_eq r hr va).trans (h.lookup_eq r hr va)

/-- The pages that have left the free list are tables of the tree `r`. -/
structure Hangs (L : Layout) (R : Set ℕ) (k r : ℕ) (free : List ℕ) (m : Phys) (free' : List ℕ)
    (m' : Phys) : Prop extends Hung L R k free m free' m' where
  table : ∀ π t, IsTable m.mem r π t → IsTable m'.mem r π t
  used : ∀ p ∈ free, p ∈ free' ∨ ∃ π, IsTable m'.mem r π p

theorem Hangs.refl (h : Tables L m free R) : Hangs L R k r free m free m where
  toHung := .refl h
  table _ _ ht := ht
  used _ hp := Or.inl hp

theorem Hangs.trans (h : Hangs L R k r free m free' m') (h' : Hangs L R l r free' m' free'' m'') :
    Hangs L R (k + l) r free m free'' m'' where
  toHung := h.toHung.trans h'.toHung
  table π t ht := h'.table π t (h.table π t ht)
  used p hp := by
    rcases h.used p hp with hp' | ⟨π, ht⟩
    · exact h'.used p hp'
    · exact Or.inr ⟨π, h'.table π p ht⟩

section Kalloc

/-! `kalloc` has taken the page `q`, and it has been filled with `w`. -/

variable {q : ℕ} {w : Mem} (h : Tables L m (q :: free') R) (hfree : FreeList L m' free')
  (hm : ∀ p, p ≠ q → m'.mem p = m.mem p)

include h in
theorem Tables.not_isTable : ∀ r ∈ R, ∀ π, ¬ IsTable m.mem r π q := fun r hr π hq =>
  (h.page r hr π q hq).2 (List.mem_cons_self ..)

include hm in
theorem setPage_kalloc_of_ne {p : ℕ} (hp : p ≠ q) : (m'.setPage q w).mem p = m.mem p := by
  rw [Phys.setPage_mem_of_ne hp, hm p hp]

include h hm in
theorem Tables.kalloc_kept : ∀ r ∈ R, ∀ π t, IsTable m.mem r π t →
    (m'.setPage q w).mem t = m.mem t := fun r hr π _ ht =>
  setPage_kalloc_of_ne hm fun heq => h.not_isTable r hr π (heq ▸ ht)

include h hfree hm in
theorem Tables.kalloc : Tables L (m'.setPage q w) free' R := by
  have hqfree : q ∉ free' := (List.nodup_cons.mp h.freeList.nodup).1
  refine h.keep (hfree.setPage hqfree w) fun r hr π t ht => ⟨h.kalloc_kept hm r hr π t ht, ?_⟩
  exact fun hmem => (h.page r hr π t ht).2 (List.mem_cons_of_mem q hmem)

include h hm in
theorem Tables.isTable_kalloc (hr : r ∈ R) :
    IsTable (m'.setPage q w).mem r π t ↔ IsTable m.mem r π t :=
  isTable_of_tables (h.kalloc_kept hm r hr)

include h hm in
theorem Tables.lookup_kalloc (hr : r ∈ R) (va : ℕ) :
    lookup (m'.setPage q w).mem r va = lookup m.mem r va :=
  lookup_of_tables (fun ρ u hρ hin hn => h.kalloc_kept hm r hr ρ u ⟨hρ, hin, hn⟩) va

end Kalloc

theorem Tables.hangs_install {q : ℕ} (h : Tables L m (q :: free') R) (hr : r ∈ R)
    (ht : IsTable m.mem r π t) (hlen : π.length ≤ 1) (hi : i < 512)
    (hinv : isV (pte m.mem t i) = false) (hfree : FreeList L m' free')
    (hm : ∀ p, p ≠ q → m'.mem p = m.mem p) :
    Hangs L R 1 r (q :: free') m free' ((m'.setPage q fun _ => 0).setPte t i (mkPte q 0)) ∧
      IsTable ((m'.setPage q fun _ => 0).setPte t i (mkPte q 0)).mem r (π ++ [i]) q := by
  have hpage := h.freeList.page q (List.mem_cons_self ..)
  have hqfree : q ∉ free' := (List.nodup_cons.mp h.freeList.nodup).1
  have hzero : (m'.setPage q fun _ => 0).mem q = fun _ => 0 := Phys.setPage_mem_self ..
  have h₂ := h.kalloc hfree hm (w := fun _ => 0)
  have ht₂ := (h.isTable_kalloc hm (w := fun _ => 0) hr).mpr ht
  have hinv₂ : isV (pte (m'.setPage q fun _ => 0).mem t i) = false := by
    rw [pte, h.kalloc_kept hm r hr π t ht]
    exact hinv
  have hfresh : ∀ r' ∈ R, ∀ ρ, ¬ IsTable (m'.setPage q fun _ => 0).mem r' ρ q :=
    fun r' hr' ρ hq => h.not_isTable r' hr' ρ ((h.isTable_kalloc hm hr').mp hq)
  have hiff : ∀ {r'}, r' ∈ R → ∀ ρ u, _ := fun {r'} hr' =>
    h₂.isTable_install hr ht₂ hlen hinv₂ hpage hfresh hzero hr' hi
  have hself : IsTable ((m'.setPage q fun _ => 0).setPte t i (mkPte q 0)).mem r (π ++ [i]) q :=
    (hiff hr _ q).mpr (Or.inr ⟨rfl, rfl, rfl⟩)
  refine ⟨⟨⟨h₂.install hr ht₂ hlen hinv₂ hpage hfresh hzero hi hqfree, ⟨[q], rfl, le_refl 1⟩,
    fun p hp hnot => ?_, fun r' hr' ρ u hu => ?_, fun r' hr' va => ?_⟩, fun ρ u hu => ?_,
    fun p hp => ?_⟩, hself⟩
  · have hpt : p ≠ t := fun heq => hnot r hr π (heq ▸ ht)
    rw [Phys.setPte, Phys.setPage_mem_of_ne hpt]
    exact setPage_kalloc_of_ne hm fun heq => hp (heq ▸ List.mem_cons_self ..)
  · rcases (hiff hr' ρ u).mp hu with hold | ⟨-, -, rfl⟩
    · exact Or.inl ((h.isTable_kalloc hm hr').mp hold)
    · exact Or.inr (List.mem_cons_self ..)
  · rw [h₂.lookup_install hr ht₂ hlen hinv₂ hpage hfresh hzero hr' hi va, h.lookup_kalloc hm hr' va]
  · exact (hiff hr ρ u).mpr (Or.inl ((h.isTable_kalloc hm hr).mpr hu))
  · rcases List.mem_cons.mp hp with rfl | hp
    · exact Or.inr ⟨_, hself⟩
    · exact Or.inl hp

/-- One level of `walk` takes a page at most, and fails only if there is none. -/
theorem walkLevel_hangs (h : Tables L m free R) (hr : r ∈ R) (ht : IsTable m.mem r π t)
    (hlen : π.length ≤ 1) (hi : i < 512) :
    Ensures (walkLevel t i true) m fun a m' => ∃ free', Hangs L R 1 r free m free' m' ∧
      (∀ u, a = some u → IsTable m'.mem r (π ++ [i]) u) ∧ (a = none → free = []) := by
  have hpath : (π ++ [i]).length ≤ 2 ∧ InTable (π ++ [i]) := by
    refine ⟨?_, ht.inTable.append fun j hj => ?_⟩
    · rw [List.length_append, List.length_singleton]
      omega
    · rw [List.mem_singleton.mp hj]
      exact hi
  rw [walkLevel]
  refine ensures_readPte_bind (.ite (fun hV => ?_) fun hV => ?_)
  · refine .pure ⟨free, .refl h, fun u hu => ⟨hpath.1, hpath.2, ?_⟩, by simp⟩
    cases hu
    rw [node_snoc ht.node_eq, next, if_pos hV]
  · refine .ite (fun hf => absurd hf (by simp)) fun _ => .bind (kalloc_spec h.freeList) ?_
    rintro q m₁ (⟨rfl, hfree, rfl⟩ | ⟨free', rfl, hfree', hm⟩)
    · exact .ite (fun _ => .pure ⟨free, .refl h, by simp, fun _ => hfree⟩) fun h0 => absurd rfl h0
    · have hpage := h.freeList.page q (List.mem_cons_self ..)
      have hinv : isV (pte m.mem t i) = false := Bool.eq_false_iff.mpr hV
      obtain ⟨hhangs, htable⟩ := h.hangs_install hr ht hlen hi hinv hfree' hm
      refine .ite (fun h0 => absurd h0 hpage.ne_zero) fun _ => ensures_memset_bind ?_
      rw [pa2pte_or]
      refine ensures_writePte_bind (.pure ⟨free', hhangs, fun u hu => ?_, by simp⟩)
      cases hu
      exact htable

/-- **`walk` takes two pages at most**, and fails only if there are not two. -/
theorem walk_hangs (h : Tables L m free R) (hr : r ∈ R) (hva : va < MAXVA) :
    Ensures (walk r va true) m fun a m' => ∃ free', Hangs L R 2 r free m free' m' ∧
      (∀ t i, a = some (t, i) → i = px 0 va ∧ node m'.mem r (dir va) = some t) ∧
      (a = none → free.length ≤ 1) := by
  rw [walk, if_neg (by omega)]
  refine .bind (walkLevel_hangs h hr (isTable_root m.mem r) (by simp) (px_lt 2 va)) ?_
  rintro a m₁ ⟨free₁, hhangs, htable, hnone⟩
  cases a with
  | none =>
    refine .pure ⟨free₁, hhangs.trans (.refl (k := 1) hhangs.tables), by simp, fun _ => ?_⟩
    rw [hnone rfl]
    exact Nat.zero_le 1
  | some t₁ =>
    refine .bind (walkLevel_hangs hhangs.tables hr (htable t₁ rfl) (le_refl 1) (px_lt 1 va)) ?_
    rintro a m₂ ⟨free₂, hhangs₂, htable₂, hnone₂⟩
    cases a with
    | none =>
      refine .pure ⟨free₂, hhangs.trans hhangs₂, by simp, fun _ => ?_⟩
      obtain ⟨used, rfl, hused⟩ := hhangs.taken
      rw [hnone₂ rfl, List.append_nil]
      exact hused
    | some t₀ =>
      refine .pure ⟨free₂, hhangs.trans hhangs₂, ?_, by simp⟩
      rintro t i ⟨⟩
      exact ⟨rfl, (htable₂ t₀ rfl).node_eq⟩

theorem walk_hung (h : Tables L m free R) (hr : r ∈ R) (hva : va < MAXVA) :
    Ensures (walk r va true) m fun a m' => ∃ free', Hung L R 2 free m free' m' ∧
      (∀ t i, a = some (t, i) → i = px 0 va ∧ node m'.mem r (dir va) = some t) ∧
      (a = none → free.length ≤ 1) :=
  (walk_hangs h hr hva).mono fun _ _ ⟨free', hhangs, hrest⟩ => ⟨free', hhangs.toHung, hrest⟩

/-- **`mappages` of one page** hangs the tables that are missing and writes one entry, or fails for
want of a table. -/
theorem mappages_hangs (h : Tables L m free R) (hr : r ∈ R) (hva : va < MAXVA)
    (hmod : va % 4096 = 0) (hinv : isV (lookup m.mem r va) = false) :
    Ensures (mappages r va 4096 pa perm) m fun res m' =>
      ∃ free' m₁, Hangs L R 2 r free m free' m₁ ∧
        ((res = -1 ∧ m' = m₁ ∧ free.length ≤ 1) ∨ (res = 0 ∧ ∃ t, node m₁.mem r (dir va) = some t ∧
          m' = m₁.setPte t (px 0 va) (mkPte pa perm))) := by
  rw [mappages, if_neg (not_not.mpr hmod), if_neg (by decide), if_neg (by decide),
    show 4096 / 4096 = 0 + 1 from rfl, mappagesFrom]
  refine .bind (walk_hangs h hr hva) ?_
  rintro res m₁ ⟨free₁, hhangs, hsome, hnone⟩
  cases res with
  | none => exact .pure ⟨free₁, m₁, hhangs, Or.inl ⟨rfl, rfl, hnone rfl⟩⟩
  | some slot =>
    obtain ⟨t, i⟩ := slot
    obtain ⟨rfl, ht⟩ := hsome t i rfl
    have hV : isV (pte m₁.mem t (px 0 va)) = false := by
      rw [← lookup_of_node ht, hhangs.lookup_eq r hr va, hinv]
    refine ensures_readPte_bind (.ite (fun hV' => absurd (hV.symm.trans hV') (by simp)) fun _ => ?_)
    exact ensures_writePte_bind (.pure ⟨free₁, m₁, hhangs, Or.inr ⟨rfl, t, ht, rfl⟩⟩)

end Vm
end Xv6
