import Xv6.Vm.Grow

/-!
# Freeing page tables

`freewalk` goes through a page table whose leaves have been removed, and frees its tables: the
tables below first, then the table itself.  While it runs the tree is neither whole nor gone, so
the invariant of the loops speaks of lists of pages: `tables` lists the tables of a tree in the
order in which they are freed, and every turn moves the tables behind one entry to the free list.

At the end the root has left the set of roots, and its pages are free (`Space.ensures_freewalk`).
-/

namespace Xv6
namespace Vm

open Bytes Program

variable {mem mem' : ℕ → Mem}

variable {L : Layout} {m m' : Phys} {free : List ℕ} {H R : Set ℕ} {r t u p i d : ℕ}

/-! ## The tables of a tree -/

/-- The tables of a tree with `d` levels of tables, in the order in which `freewalk` frees them. -/
def tables (mem : ℕ → Mem) : ℕ → ℕ → List ℕ
  | 0, _ => []
  | d + 1, t =>
    ((List.range 512).flatMap fun i => (next mem t i).elim [] (tables mem d)) ++ [t]

/-- The tables behind entry `i`. -/
def tablesAt (mem : ℕ → Mem) (d t i : ℕ) : List ℕ := (next mem t i).elim [] (tables mem d)

/-- The tables behind the first `k` entries. -/
def tablesUpto (mem : ℕ → Mem) (d t k : ℕ) : List ℕ := (List.range k).flatMap (tablesAt mem d t)

theorem tables_succ (mem : ℕ → Mem) (d t : ℕ) :
    tables mem (d + 1) t = tablesUpto mem d t 512 ++ [t] := rfl

theorem tablesAt_of_none (h : next mem t i = none) : tablesAt mem d t i = [] := by
  rw [tablesAt, h]
  rfl

theorem tablesAt_of_some (h : next mem t i = some u) : tablesAt mem d t i = tables mem d u := by
  rw [tablesAt, h]
  rfl

theorem tablesUpto_succ (mem : ℕ → Mem) (d t k : ℕ) :
    tablesUpto mem d t (k + 1) = tablesUpto mem d t k ++ tablesAt mem d t k := by
  rw [tablesUpto, List.range_succ, List.flatMap_append, tablesUpto, List.flatMap_singleton]

theorem mem_tablesUpto {k : ℕ} : p ∈ tablesUpto mem d t k ↔ ∃ i < k, p ∈ tablesAt mem d t i := by
  simp [tablesUpto]

theorem mem_tablesAt :
    p ∈ tablesAt mem d t i ↔ ∃ u, next mem t i = some u ∧ p ∈ tables mem d u := by
  cases h : next mem t i with
  | none => simp [tablesAt_of_none h]
  | some u => simp [tablesAt_of_some h]

theorem mem_tables_iff :
    p ∈ tables mem d t ↔ ∃ π, π.length < d ∧ InTable π ∧ node mem t π = some p := by
  induction d generalizing t with
  | zero => simp [tables]
  | succ d ih =>
    rw [tables_succ, List.mem_append, List.mem_singleton, mem_tablesUpto]
    constructor
    · rintro (⟨i, hi, hp⟩ | rfl)
      · obtain ⟨u, hu, hp⟩ := mem_tablesAt.mp hp
        obtain ⟨π, hlen, hπ, hn⟩ := ih.mp hp
        refine ⟨i :: π, by rw [List.length_cons]; omega, ?_, by rw [node_cons, hu]; exact hn⟩
        intro j hj
        rcases List.mem_cons.mp hj with rfl | hj
        · exact hi
        · exact hπ j hj
      · exact ⟨[], by simp, by simp [InTable], rfl⟩
    · rintro ⟨π, hlen, hπ, hn⟩
      cases π with
      | nil => exact Or.inr (Option.some.inj hn).symm
      | cons i π =>
        rw [node_cons] at hn
        obtain ⟨u, hu, hn⟩ := Option.bind_eq_some_iff.mp hn
        refine Or.inl ⟨i, hπ i (List.mem_cons_self ..), mem_tablesAt.mpr ⟨u, hu, ih.mpr ⟨π, ?_, ?_,
          hn⟩⟩⟩
        · rw [List.length_cons] at hlen
          omega
        · exact fun j hj => hπ j (List.mem_cons_of_mem _ hj)

/-- If no page occurs twice in the tree, the list has no duplicates. -/
theorem nodup_tables (h : ∀ π π' p, π.length < d → π'.length < d → InTable π → InTable π' →
      node mem t π = some p → node mem t π' = some p → π = π') : (tables mem d t).Nodup := by
  induction d generalizing t with
  | zero => exact List.nodup_nil
  | succ d ih =>
    have hcons : ∀ {i π u}, i < 512 → InTable π → next mem t i = some u →
        InTable (i :: π) ∧ node mem t (i :: π) = node mem u π := by
      intro i π u hi hπ hu
      refine ⟨fun j hj => ?_, by rw [node_cons, hu]; rfl⟩
      rcases List.mem_cons.mp hj with rfl | hj
      · exact hi
      · exact hπ j hj
    rw [tables_succ, List.nodup_append]
    refine ⟨List.nodup_flatMap.mpr ⟨fun i hi => ?_, ?_⟩, List.nodup_singleton t, ?_⟩
    · have hi := List.mem_range.mp hi
      cases hu : next mem t i with
      | none =>
        rw [tablesAt_of_none hu]
        exact List.nodup_nil
      | some u =>
        rw [tablesAt_of_some hu]
        refine ih fun π π' p hlen hlen' hπ hπ' hn hn' => ?_
        obtain ⟨hin, hnode⟩ := hcons hi hπ hu
        obtain ⟨hin', hnode'⟩ := hcons hi hπ' hu
        exact (List.cons.inj (h (i :: π) (i :: π') p (by simpa using hlen) (by simpa using hlen')
          hin hin' (hnode.trans hn) (hnode'.trans hn'))).2
    · refine List.Pairwise.imp_of_mem ?_ (List.nodup_range (n := 512))
      intro i j hi hj hne p hp hp'
      obtain ⟨u, hu, hp⟩ := mem_tablesAt.mp hp
      obtain ⟨u', hu', hp'⟩ := mem_tablesAt.mp hp'
      obtain ⟨π, hlen, hπ, hn⟩ := mem_tables_iff.mp hp
      obtain ⟨π', hlen', hπ', hn'⟩ := mem_tables_iff.mp hp'
      obtain ⟨hin, hnode⟩ := hcons (List.mem_range.mp hi) hπ hu
      obtain ⟨hin', hnode'⟩ := hcons (List.mem_range.mp hj) hπ' hu'
      exact hne (List.cons.inj (h (i :: π) (j :: π') p (by simpa using hlen)
        (by simpa using hlen') hin hin' (hnode.trans hn) (hnode'.trans hn'))).1
    · rintro p hp _ ht rfl
      rw [List.mem_singleton] at ht
      subst ht
      obtain ⟨i, hi, hp⟩ := mem_tablesUpto.mp hp
      obtain ⟨u, hu, hp⟩ := mem_tablesAt.mp hp
      obtain ⟨π, hlen, hπ, hn⟩ := mem_tables_iff.mp hp
      obtain ⟨hin, hnode⟩ := hcons hi hπ hu
      exact absurd (h (i :: π) [] p (by simpa using hlen) (by simp) hin (by simp [InTable])
        (hnode.trans hn) rfl) (by simp)

/-- The tree has `d` levels of tables and no leaves. -/
def Clear (mem : ℕ → Mem) : ℕ → ℕ → Prop
  | 0, _ => False
  | d + 1, t => ∀ i < 512, ∀ u, next mem t i = some u →
    isR (pte mem t i) = false ∧ isW (pte mem t i) = false ∧ isX (pte mem t i) = false ∧
      Clear mem d u

theorem mem_tables_self : t ∈ tables mem (d + 1) t := by
  rw [tables_succ]
  exact List.mem_append_right _ (List.mem_singleton_self t)

theorem mem_tables_of_next (hi : i < 512) (hu : next mem t i = some u) (hp : p ∈ tables mem d u) :
    p ∈ tables mem (d + 1) t := by
  rw [tables_succ]
  exact List.mem_append_left _ (mem_tablesUpto.mpr ⟨i, hi, mem_tablesAt.mpr ⟨u, hu, hp⟩⟩)

theorem next_congr (h : pte mem' t i = pte mem t i) : next mem' t i = next mem t i := by
  rw [next, next, h]

theorem tables_congr (h : ∀ p ∈ tables mem d t, mem' p = mem p) :
    tables mem' d t = tables mem d t := by
  induction d generalizing t with
  | zero => rfl
  | succ d ih =>
    have hat : ∀ i ∈ List.range 512, tablesAt mem' d t i = tablesAt mem d t i := by
      intro i hi
      have hnext : next mem' t i = next mem t i :=
        next_congr (by rw [pte, h t mem_tables_self, pte])
      cases hu : next mem t i with
      | none => rw [tablesAt_of_none hu, tablesAt_of_none (hnext.trans hu)]
      | some u =>
        rw [tablesAt_of_some hu, tablesAt_of_some (hnext.trans hu)]
        exact ih fun p hp => h p (mem_tables_of_next (List.mem_range.mp hi) hu hp)
    have hupto : tablesUpto mem' d t 512 = tablesUpto mem d t 512 := List.flatMap_congr hat
    rw [tables_succ, tables_succ, hupto]

theorem Clear.congr (hc : Clear mem d t) (h : ∀ p ∈ tables mem d t, mem' p = mem p) :
    Clear mem' d t := by
  induction d generalizing t with
  | zero => exact hc
  | succ d ih =>
    intro i hi u hu
    have hpte : pte mem' t i = pte mem t i := by rw [pte, h t mem_tables_self, pte]
    rw [next_congr hpte] at hu
    obtain ⟨hR, hW, hX, hclear⟩ := hc i hi u hu
    rw [hpte]
    exact ⟨hR, hW, hX, ih hclear fun p hp => h p (mem_tables_of_next hi hu hp)⟩

/-! ## `freewalk` -/

/-- **`freewalk`** moves the tables of a tree without leaves to the free list. -/
theorem freewalk_spec (hfree : FreeList L m free) (hclear : Clear m.mem d t)
    (hnodup : (tables m.mem d t).Nodup) (hpages : ∀ p ∈ tables m.mem d t, L.Page p ∧ p ∉ free) :
    Ensures (freewalk L d t) m fun _ m' =>
      FreeList L m' ((tables m.mem d t).reverse ++ free) ∧
        ∀ p, p ∉ tables m.mem d t → m'.mem p = m.mem p := by
  induction d generalizing t m free with
  | zero => exact absurd hclear id
  | succ d ih =>
    obtain ⟨hnd, -, htnot⟩ := List.nodup_append.mp hnodup
    obtain ⟨hndAt, hpair⟩ := List.nodup_flatMap.mp hnd
    have hdisj : ∀ i < 512, ∀ j < 512, i ≠ j → List.Disjoint (tablesAt m.mem d t i)
        (tablesAt m.mem d t j) := fun i hi j hj hne => by
      have hsymm : Std.Symm (Function.onFun List.Disjoint (tablesAt m.mem d t)) :=
        ⟨fun _ _ h => h.symm⟩
      exact List.Pairwise.forall (R := Function.onFun List.Disjoint (tablesAt m.mem d t)) hpair
        (List.mem_range.mpr hi) (List.mem_range.mpr hj) hne
    have htAt : ∀ i < 512, t ∉ tablesAt m.mem d t i := fun i hi ht =>
      htnot t (mem_tablesUpto.mpr ⟨i, hi, ht⟩) t (List.mem_singleton_self t) rfl
    have hpageAt : ∀ i < 512, ∀ p ∈ tablesAt m.mem d t i, L.Page p ∧ p ∉ free := fun i hi p hp => by
      obtain ⟨u, hu, hp⟩ := mem_tablesAt.mp hp
      exact hpages p (mem_tables_of_next hi hu hp)
    obtain ⟨htpage, htfree⟩ := hpages t mem_tables_self
    rw [freewalk]
    -- before turn `i` the tables behind the first `i` entries are free
    refine Ensures.bind (Ensures.countUp (R := fun _ _ => False) (I := fun i m' =>
      FreeList L m' ((tablesUpto m.mem d t i).reverse ++ free) ∧
        (∀ p, p ∉ tablesUpto m.mem d t i → p ≠ t → m'.mem p = m.mem p) ∧
        ∀ j, i ≤ j → pte m'.mem t j = pte m.mem t j) ⟨hfree, fun _ _ _ => rfl, fun _ _ => rfl⟩ ?_) ?_
    · rintro i m₁ - hi ⟨hfree₁, hkeep, hpte⟩
      have hi : i < 512 := by omega
      refine ensures_readPte_bind ?_
      rw [hpte i (le_refl i)]
      have hdone : tablesUpto m.mem d t (i + 1) = tablesUpto m.mem d t i ++ tablesAt m.mem d t i :=
        tablesUpto_succ ..
      cases hu : next m.mem t i with
      | none =>
        rw [next_eq_none.mp hu]
        rw [tablesAt_of_none hu, List.append_nil] at hdone
        refine .pure ?_
        rw [hdone]
        exact ⟨hfree₁, hkeep, fun j hj => hpte j (by omega)⟩
      | some u =>
        obtain ⟨hR, hW, hX, hclear'⟩ := hclear i hi u hu
        obtain ⟨hV, hpa⟩ := next_eq_some.mp hu
        rw [hV, hpa, hR, hW, hX]
        have hat : tablesAt m.mem d t i = tables m.mem d u := tablesAt_of_some hu
        -- the tables behind this entry have not been touched
        have hsame : ∀ p ∈ tables m.mem d u, m₁.mem p = m.mem p := by
          rw [← hat]
          intro p hp
          refine hkeep p (fun hdone => ?_) fun heq => htAt i hi (heq ▸ hp)
          obtain ⟨j, hj, hp'⟩ := mem_tablesUpto.mp hdone
          exact hdisj j (by omega) i hi (by omega) hp' hp
        have hlist := tables_congr hsame
        refine .bind (ih hfree₁ (hclear'.congr hsame) ?_ ?_) ?_
        · rw [hlist, ← hat]
          exact hndAt i (List.mem_range.mpr hi)
        · rw [hlist, ← hat]
          intro p hp
          refine ⟨(hpageAt i hi p hp).1, fun hmem => ?_⟩
          rcases List.mem_append.mp hmem with hmem | hmem
          · obtain ⟨j, hj, hp'⟩ := mem_tablesUpto.mp (List.mem_reverse.mp hmem)
            exact hdisj j (by omega) i hi (by omega) hp' hp
          · exact (hpageAt i hi p hp).2 hmem
        · rw [hlist, ← hat, ← List.append_assoc, ← List.reverse_append, ← hdone]
          rintro - m₂ ⟨hfree₂, hkeep₂⟩
          have htdone : t ∉ (tablesUpto m.mem d t (i + 1)).reverse ++ free := by
            intro hmem
            rcases List.mem_append.mp hmem with hmem | hmem
            · obtain ⟨j, hj, hp⟩ := mem_tablesUpto.mp (List.mem_reverse.mp hmem)
              exact htAt j (by omega) hp
            · exact htfree hmem
          refine ensures_writePte_bind (.pure ⟨hfree₂.setPage htdone _, fun p hp hne => ?_,
            fun j hj => ?_⟩)
          · rw [hdone, List.mem_append, not_or] at hp
            rw [Phys.setPte, Phys.setPage_mem_of_ne hne, hkeep₂ p hp.2, hkeep p hp.1 hne]
          · rw [pte_setPte_of_ne (by rintro ⟨-, rfl⟩; omega), pte, hkeep₂ t (htAt i hi)]
            exact hpte j (by omega)
    · rintro (_ | b) m₁ h
      · obtain ⟨hfree₁, hkeep, -⟩ := h
        rw [Nat.zero_add] at hfree₁ hkeep
        refine (kfree_spec hfree₁ htpage ?_).mono ?_
        · intro hmem
          rcases List.mem_append.mp hmem with hmem | hmem
          · obtain ⟨j, hj, hp⟩ := mem_tablesUpto.mp (List.mem_reverse.mp hmem)
            exact htAt j hj hp
          · exact htfree hmem
        · rintro - m₂ ⟨hfree₂, hkeep₂⟩
          rw [tables_succ, List.reverse_append, List.reverse_singleton,
            List.singleton_append, List.cons_append]
          refine ⟨hfree₂, fun p hp => ?_⟩
          rw [List.mem_append, List.mem_singleton, not_or] at hp
          rw [hkeep₂ p hp.2, hkeep p hp.1 hp.2]
      · exact absurd h id

/-! ## Giving up a tree -/

section Leafless

variable (h : Owned L m free H R) (hr : r ∈ R)
  (hempty : ∀ va < 2 ^ 39, isV (lookup m.mem r va) = false)

include hempty in
theorem node_of_leafless {π : Path} (hlen : π.length = 3) (hπ : InTable π) :
    node m.mem r π = none := by
  obtain ⟨i₂, i₁, i₀, rfl⟩ := List.length_eq_three.mp hlen
  obtain ⟨va, hva, -, hpath⟩ := exists_path (hπ i₂ (by simp)) (hπ i₁ (by simp)) (hπ i₀ (by simp))
  rw [← hpath, node_path, hempty va hva]
  rfl

include h hr hempty in
theorem Owned.clear {π : Path} (hlen : π.length + d = 3) (hπ : InTable π)
    (hn : node m.mem r π = some t) : Clear m.mem d t := by
  induction d generalizing π t with
  | zero =>
    rw [node_of_leafless hempty hlen hπ] at hn
    exact absurd hn (by simp)
  | succ d ih =>
    intro i hi u hu
    have hin : InTable (π ++ [i]) := hπ.append fun j hj => by
      rw [List.mem_singleton.mp hj]
      exact hi
    have hclear := ih (by rw [List.length_append, List.length_singleton]; omega) hin
      ((node_snoc hn i).trans hu)
    -- an entry of the last level would be a leaf
    have hle : π.length ≤ 1 := by
      rcases Nat.eq_zero_or_pos d with rfl | hd
      · exact absurd hclear id
      · omega
    obtain ⟨hR, hW, hX⟩ := h.inner r hr π t i hle hπ hn hi (next_eq_some.mp hu).1
    exact ⟨hR, hW, hX, hclear⟩

include hempty in
theorem uses_iff_mem_tables : (∃ π, Uses m.mem r π p) ↔ p ∈ tables m.mem 3 r := by
  rw [mem_tables_iff]
  constructor
  · rintro ⟨π, hu⟩
    refine ⟨π, ?_, hu.inTable, hu.node_eq⟩
    rcases Nat.lt_or_eq_of_le hu.length_le with hlt | heq
    · exact hlt
    · have hn := hu.node_eq
      rw [node_of_leafless hempty heq hu.inTable] at hn
      exact absurd hn (by simp)
  · rintro ⟨π, hlen, hπ, hn⟩
    exact ⟨π, .of_table (by omega) hπ hn⟩

end Leafless

/-- **`freewalk` gives up a tree without leaves.** -/
theorem Space.ensures_freewalk (h : Space L m H R) (hr : r ∈ R)
    (hempty : ∀ va < 2 ^ 39, isV (lookup m.mem r va) = false) :
    Ensures (freewalk L 3 r) m fun _ m' => Space L m' H (R \ {r}) ∧ Frame H (R \ {r}) m m' := by
  obtain ⟨free, h⟩ := h
  have hnodup : (tables m.mem 3 r).Nodup :=
    nodup_tables fun π π' p hlen hlen' hπ hπ' hn hn' =>
      (h.unique r hr r hr π π' p (.of_table (by omega) hπ hn) (.of_table (by omega) hπ' hn')).2
  have hpages : ∀ p ∈ tables m.mem 3 r, L.Page p ∧ p ∉ free ∧ p ∉ H := fun p hp => by
    obtain ⟨π, hu⟩ := (uses_iff_mem_tables hempty).mpr hp
    exact h.uses r hr π p hu
  refine (freewalk_spec h.freeList (h.clear hr hempty rfl inTable_nil (node_nil m.mem r)) hnodup
    fun p hp => ⟨(hpages p hp).1, (hpages p hp).2.1⟩).mono ?_
  rintro - m' ⟨hfree', hkeep⟩
  have hframe : Frame H (R \ {r}) m m' := by
    rintro p (hp | ⟨r', ⟨hr', hne⟩, π, hu⟩)
    · exact hkeep p fun hmem => (hpages p hmem).2.2 hp
    · refine hkeep p fun hmem => ?_
      obtain ⟨π', hu'⟩ := (uses_iff_mem_tables hempty).mpr hmem
      exact hne (h.unique r' hr' r hr π π' p hu hu').1
  refine ⟨⟨_, h.release Set.sdiff_subset hfree' (fun p hp => ⟨(h.held p hp).1, ?_⟩) (fun p => ?_) ?_⟩,
    hframe⟩
  · rw [List.mem_append, List.mem_reverse]
    rintro (hmem | hmem)
    · exact (hpages p hmem).2.2 hp
    · exact (h.held p hp).2 hmem
  · rw [List.mem_append, List.mem_reverse, ← uses_iff_mem_tables hempty]
    constructor
    · rintro ((hu | hf) | hH)
      · exact Or.inr (Or.inr ⟨r, hr, by simp, hu⟩)
      · exact Or.inl hf
      · exact Or.inr (Or.inl hH)
    · rintro (hf | hH | ⟨r', hr', hne, hu⟩)
      · exact Or.inl (Or.inr hf)
      · exact Or.inr hH
      · have heq : r' = r := by
          by_contra h'
          exact hne ⟨hr', h'⟩
        exact Or.inl (Or.inl (heq ▸ hu))
  · intro r' hr' π t hlen hπ hn
    exact hframe t (Or.inr ⟨r', hr', π, .of_table hlen hπ hn⟩)

end Vm
end Xv6
