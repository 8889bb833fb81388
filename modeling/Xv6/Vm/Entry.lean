import Xv6.Vm.Space

/-!
# Moving pages into and out of trees

A valid entry in a table makes the page it points to a part of the tree.  There are two kinds of
writes.  `walk` hangs an empty page into an inner table (`Space.installTable`); this changes no
mapping.  A write to the entry of an address changes the mapping of that address and no other
(`Tables.lookup_setPte`), and moves a page from the kernel into the tree (`Space.mapLeaf`), from the
tree to the kernel (`Space.unmapLeaf`), or no page at all (`Space.setSpecial` for the trampoline
and the trapframe, `Space.setFlags`).
-/

namespace Xv6
namespace Vm

open Bytes Program

variable {L : Layout} {m m' : Phys} {free : List ℕ} {H R : Set ℕ} {r t p q i v va : ℕ} {π : Path}

/-! ## Inner tables -/

section InstallTable

variable (h : Owned L m free (insert q H) R) (hr : r ∈ R) (hlen : π.length ≤ 1) (hπ : InTable π)
  (ht : node m.mem r π = some t) (hi : i < 512) (hinv : isV (pte m.mem t i) = false)
  (hzero : m.mem q = fun _ => 0)

include h in
theorem installTable_fresh : ∀ r' ∈ R, ∀ ρ, ¬ IsTable m.mem r' ρ q := fun r' hr' ρ hq =>
  (h.uses r' hr' ρ q (.of_table hq.length_le hq.inTable hq.node_eq)).2.2 (Set.mem_insert q H)

include h hr hlen hπ ht in
theorem installTable_zero (hzero : m.mem q = fun _ => 0) :
    (m.setPte t i (mkPte q 0)).mem q = fun _ => 0 :=
  install_zero hr ⟨by omega, hπ, ht⟩ (installTable_fresh h) hzero

include h hr hlen hπ ht in
theorem installTable_node :
    node (m.setPte t i (mkPte q 0)).mem r (π ++ [i]) = some q :=
  h.tables.node_install hr ⟨by omega, hπ, ht⟩ (h.held q (Set.mem_insert q H)).1

include h hr hlen hπ ht hinv hzero in
theorem installTable_uses {r' : ℕ} (hr' : r' ∈ R) (hi : i < 512) (ρ : Path) (p : ℕ) :
    Uses (m.setPte t i (mkPte q 0)).mem r' ρ p ↔
      Uses m.mem r' ρ p ∨ (r' = r ∧ ρ = π ++ [i] ∧ p = q) := by
  have hself := installTable_node h hr hlen hπ ht (i := i)
  have hbefore : node m.mem r (π ++ [i]) = none := by rw [node_snoc ht, next, hinv]; rfl
  constructor
  · rintro ⟨h3, hin, h1, h2, hn⟩
    by_cases hext : r' = r ∧ π ++ [i] <+: ρ
    · obtain ⟨rfl, σ, rfl⟩ := hext
      rw [node_append, hself, Option.bind_some] at hn
      cases σ with
      | nil => exact Or.inr ⟨rfl, List.append_nil _, (Option.some.inj hn).symm⟩
      | cons j σ =>
        rw [node_of_zero (installTable_zero h hr hlen hπ ht hzero)] at hn
        exact absurd hn (by simp)
    · rw [h.tables.node_setPte hr ⟨by omega, hπ, ht⟩ hr' h3 hin hext] at hn
      exact Or.inl ⟨h3, hin, h1, h2, hn⟩
  · rintro (⟨h3, hin, h1, h2, hn⟩ | ⟨rfl, rfl, rfl⟩)
    · have hext : ¬ (r' = r ∧ π ++ [i] <+: ρ) := by
        rintro ⟨rfl, σ, rfl⟩
        rw [node_append, hbefore] at hn
        exact absurd hn (by simp)
      exact ⟨h3, hin, h1, h2,
        (h.tables.node_setPte hr ⟨by omega, hπ, ht⟩ hr' h3 hin hext).trans hn⟩
    · refine .of_table ?_ (hπ.append fun j hj => ?_) hself
      · rw [List.length_append, List.length_singleton]
        omega
      · rw [List.mem_singleton.mp hj]
        exact hi

include h hr hlen hπ ht hi hinv hzero in
theorem installTable_owned (hq : q ∉ H) : Owned L (m.setPte t i (mkPte q 0)) free H R := by
  obtain ⟨hpage, hqfree⟩ := h.held q (Set.mem_insert q H)
  have huses := fun {r' : ℕ} (hr' : r' ∈ R) => installTable_uses h hr hlen hπ ht hinv hzero hr' hi
  have hzero' := installTable_zero h hr hlen hπ ht (i := i) hzero
  have hfresh : ∀ r' ∈ R, ∀ ρ, ¬ Uses m.mem r' ρ q := fun r' hr' ρ hu =>
    (h.uses r' hr' ρ q hu).2.2 (Set.mem_insert q H)
  refine ⟨h.tables.freeList_setPte hr ⟨by omega, hπ, ht⟩, fun p hp => h.held p (Or.inr hp),
    ?_, ?_, ?_, ?_, ?_⟩
  · intro r' hr' ρ p hu
    rcases (huses hr' ρ p).mp hu with hu | ⟨-, -, rfl⟩
    · obtain ⟨hp, hnf, hnH⟩ := h.uses r' hr' ρ p hu
      exact ⟨hp, hnf, fun hpH => hnH (Or.inr hpH)⟩
    · exact ⟨hpage, hqfree, hq⟩
  · intro r₁ hr₁ r₂ hr₂ ρ₁ ρ₂ p hu₁ hu₂
    rcases (huses hr₁ ρ₁ p).mp hu₁ with hu₁ | ⟨rfl, rfl, rfl⟩ <;>
      rcases (huses hr₂ ρ₂ p).mp hu₂ with hu₂ | ⟨rfl, rfl, heq⟩
    · exact h.unique r₁ hr₁ r₂ hr₂ ρ₁ ρ₂ p hu₁ hu₂
    · exact absurd (heq ▸ hu₁) (hfresh r₁ hr₁ ρ₁)
    · exact absurd hu₂ (hfresh r₂ hr₂ ρ₂)
    · exact ⟨rfl, rfl⟩
  · intro p hp
    rcases h.total p hp with hf | hH | ⟨r', hr', ρ, hu⟩
    · exact Or.inl hf
    · rcases hH with rfl | hH
      · exact Or.inr (Or.inr ⟨r, hr, π ++ [i], (huses hr _ _).mpr (Or.inr ⟨rfl, rfl, rfl⟩)⟩)
      · exact Or.inr (Or.inl hH)
    · exact Or.inr (Or.inr ⟨r', hr', ρ, (huses hr' ρ p).mpr (Or.inl hu)⟩)
  · intro r' hr' ρ u j hρ hin hn hj hV
    rcases (huses hr' ρ u).mp (.of_table (by omega) hin hn) with hu | ⟨-, -, rfl⟩
    · by_cases hentry : u = t ∧ j = i
      · obtain ⟨rfl, rfl⟩ := hentry
        rw [pte_setPte_self (mkPte_lt (lt_trans hpage.lt (by decide)) (by decide))]
        simp
      · rw [pte_setPte_of_ne hentry] at hV ⊢
        exact h.inner r' hr' ρ u j hρ hin hu.node_eq hj hV
    · rw [isV_pte_zero hzero'] at hV
      exact absurd hV (by simp)
  · intro r' hr' ρ u j hρ hin hn hj hV
    rcases (huses hr' ρ u).mp (.of_table (by omega) hin hn) with hu | ⟨-, -, rfl⟩
    · have hentry : ¬ (u = t ∧ j = i) := by
        rintro ⟨rfl, -⟩
        have := (h.unique r' hr' r hr ρ π u hu (.of_table (by omega) hπ ht)).2
        rw [this] at hρ
        omega
      rw [pte_setPte_of_ne hentry] at hV ⊢
      exact h.leaf r' hr' ρ u j hρ hin hu.node_eq hj hV
    · rw [isV_pte_zero hzero'] at hV
      exact absurd hV (by simp)

include h hr hlen hπ ht hi hinv hzero in
theorem installTable_lookup {r' : ℕ} (hr' : r' ∈ R) (va : ℕ) :
    lookup (m.setPte t i (mkPte q 0)).mem r' va = lookup m.mem r' va :=
  h.tables.lookup_install hr ⟨by omega, hπ, ht⟩ hlen hinv (h.held q (Set.mem_insert q H)).1
    (installTable_fresh h) hzero hr' hi va

end InstallTable

/-- **`walk` hangs an empty table into an inner one.** -/
theorem Space.installTable (h : Space L m (insert q H) R) (hq : q ∉ H) (hr : r ∈ R)
    (hlen : π.length ≤ 1) (hπ : InTable π) (ht : node m.mem r π = some t) (hi : i < 512)
    (hinv : isV (pte m.mem t i) = false) (hzero : m.mem q = fun _ => 0) :
    Space L (m.setPte t i (mkPte q 0)) H R ∧
      Frame H (R \ {r}) m (m.setPte t i (mkPte q 0)) ∧
      node (m.setPte t i (mkPte q 0)).mem r (π ++ [i]) = some q ∧
      ∀ r' ∈ R, ∀ va, lookup (m.setPte t i (mkPte q 0)).mem r' va = lookup m.mem r' va := by
  obtain ⟨free, h⟩ := h
  refine ⟨⟨free, installTable_owned h hr hlen hπ ht hi hinv hzero hq⟩, ?_,
    installTable_node h hr hlen hπ ht, fun r' hr' va =>
      installTable_lookup h hr hlen hπ ht hi hinv hzero hr' va⟩
  exact (h.frame_setPte hr (by omega) hπ ht).mono (Set.subset_insert q H) (le_refl _)

/-! ## Leaves -/

/-- The page that `va` is mapped to belongs to the tree: `va` is not in the trampoline page or the
trapframe page. -/
def Owns (va : ℕ) : Prop := path va ≠ path TRAMPOLINE ∧ path va ≠ path TRAPFRAME

theorem owns_of_lt (h : va < TRAPFRAME) : Owns va := by
  rw [TRAPFRAME_eq] at h
  constructor <;> intro heq
  · rw [path_inj (by omega) (by rw [TRAMPOLINE_eq]; decide), TRAMPOLINE_eq] at heq
    omega
  · rw [path_inj (by omega) (by rw [TRAPFRAME_eq]; decide), TRAPFRAME_eq] at heq
    omega

theorem not_owns_trampoline : ¬ Owns TRAMPOLINE := fun h => h.1 rfl

theorem not_owns_trapframe : ¬ Owns TRAPFRAME := fun h => h.2 rfl

theorem uses_path_iff {mem : ℕ → Mem} :
    Uses mem r (path va) p ↔
      Owns va ∧ isV (lookup mem r va) ∧ p = pte2pa (lookup mem r va) := by
  constructor
  · rintro ⟨-, -, h1, h2, hn⟩
    rw [node_path] at hn
    split at hn
    · exact ⟨⟨h1, h2⟩, ‹_›, (Option.some.inj hn).symm⟩
    · exact absurd hn (by simp)
  · rintro ⟨⟨h1, h2⟩, hV, rfl⟩
    refine ⟨le_refl 3, inTable_path va, h1, h2, ?_⟩
    rw [node_path, if_pos hV]

section Leaf

variable (h : Owned L m free H R) (hr : r ∈ R) (ht : node m.mem r (dir va) = some t)
  (hv : v < 2 ^ 64)

include h hr ht hv in
theorem setLeaf_uses {r' : ℕ} (hr' : r' ∈ R) (ρ : Path) (p : ℕ) :
    Uses (m.setPte t (px 0 va) v).mem r' ρ p ↔
      (Uses m.mem r' ρ p ∧ ¬ (r' = r ∧ ρ = path va)) ∨
        (r' = r ∧ ρ = path va ∧ Owns va ∧ isV v ∧ p = pte2pa v) := by
  by_cases hself : r' = r ∧ ρ = path va
  · obtain ⟨rfl, rfl⟩ := hself
    rw [uses_path_iff, h.tables.lookup_setPte hr ht hv hr' va, if_pos ⟨rfl, rfl⟩]
    simp
  · have hiff : Uses (m.setPte t (px 0 va) v).mem r' ρ p ↔ Uses m.mem r' ρ p := by
      constructor
      · rintro ⟨h3, hin, h1, h2, hn⟩
        exact ⟨h3, hin, h1, h2, (h.tables.node_setLeaf hr ht hr' h3 hin hself).symm.trans hn⟩
      · rintro ⟨h3, hin, h1, h2, hn⟩
        exact ⟨h3, hin, h1, h2, (h.tables.node_setLeaf hr ht hr' h3 hin hself).trans hn⟩
    rw [hiff]
    constructor
    · exact fun hu => Or.inl ⟨hu, hself⟩
    · rintro (⟨hu, -⟩ | ⟨hr, hρ, -⟩)
      · exact hu
      · exact absurd ⟨hr, hρ⟩ hself

include h hr ht hv in
/-- The owners after a write to the entry of an address: the page that the entry points to then
comes from the kernel or was there before, and the kernel gets the page that the entry does not
point to any more. -/
theorem Owned.setLeaf {H' : Set ℕ} (hR : isV v → isR v)
    (hheld : ∀ p ∈ H', L.Page p ∧ p ∉ free)
    (hold : ∀ r' ∈ R, ∀ ρ p, Uses m.mem r' ρ p → ¬ (r' = r ∧ ρ = path va) → p ∉ H')
    (hnew : Owns va → isV v → L.Page (pte2pa v) ∧ pte2pa v ∉ free ∧ pte2pa v ∉ H' ∧
      ∀ r' ∈ R, ∀ ρ, Uses m.mem r' ρ (pte2pa v) → r' = r ∧ ρ = path va)
    (htotal : ∀ p, p ∈ H ∨ Uses m.mem r (path va) p →
      p ∈ H' ∨ (Owns va ∧ isV v ∧ p = pte2pa v)) :
    Owned L (m.setPte t (px 0 va) v) free H' R := by
  have huses := fun {r' : ℕ} (hr' : r' ∈ R) => setLeaf_uses h hr ht hv hr'
  have hnode : ∀ r' ∈ R, ∀ ρ : Path, ρ.length ≤ 2 → InTable ρ →
      node (m.setPte t (px 0 va) v).mem r' ρ = node m.mem r' ρ := by
    intro r' hr' ρ hlen hρ
    refine h.tables.node_setLeaf hr ht hr' (by omega) hρ ?_
    rintro ⟨-, rfl⟩
    exact absurd hlen (by simp [path])
  have hunique : ∀ r' ∈ R, ∀ ρ u, ρ.length ≤ 2 → InTable ρ → node m.mem r' ρ = some u →
      u = t → ρ = dir va := by
    rintro r' hr' ρ u hlen hρ hn rfl
    exact (h.unique r' hr' r hr ρ (dir va) u (.of_table hlen hρ hn)
      (.of_table (le_refl 2) (inTable_dir va) ht)).2
  refine ⟨h.tables.freeList_setPte hr (isTable_dir ht), hheld, ?_, ?_, ?_, ?_, ?_⟩
  · intro r' hr' ρ p hu
    rcases (huses hr' ρ p).mp hu with ⟨hu, hne⟩ | ⟨-, -, hown, hV, rfl⟩
    · obtain ⟨hp, hnf, -⟩ := h.uses r' hr' ρ p hu
      exact ⟨hp, hnf, hold r' hr' ρ p hu hne⟩
    · obtain ⟨hp, hnf, hnH, -⟩ := hnew hown hV
      exact ⟨hp, hnf, hnH⟩
  · intro r₁ hr₁ r₂ hr₂ ρ₁ ρ₂ p hu₁ hu₂
    rcases (huses hr₁ ρ₁ p).mp hu₁ with ⟨hu₁, hne₁⟩ | ⟨rfl, rfl, hown, hV, rfl⟩ <;>
      rcases (huses hr₂ ρ₂ _).mp hu₂ with ⟨hu₂, hne₂⟩ | ⟨rfl, rfl, hown', hV', heq⟩
    · exact h.unique r₁ hr₁ r₂ hr₂ ρ₁ ρ₂ p hu₁ hu₂
    · exact absurd ((hnew hown' hV').2.2.2 r₁ hr₁ ρ₁ (heq ▸ hu₁)) hne₁
    · exact absurd ((hnew hown hV).2.2.2 r₂ hr₂ ρ₂ hu₂) hne₂
    · exact ⟨rfl, rfl⟩
  · intro p hp
    rcases h.total p hp with hf | hH | ⟨r', hr', ρ, hu⟩
    · exact Or.inl hf
    · rcases htotal p (Or.inl hH) with hH' | hself
      · exact Or.inr (Or.inl hH')
      · exact Or.inr (Or.inr ⟨r, hr, path va, (huses hr _ _).mpr (Or.inr ⟨rfl, rfl, hself⟩)⟩)
    · by_cases hself : r' = r ∧ ρ = path va
      · obtain ⟨rfl, rfl⟩ := hself
        rcases htotal p (Or.inr hu) with hH' | hself
        · exact Or.inr (Or.inl hH')
        · exact Or.inr (Or.inr ⟨r', hr, path va, (huses hr _ _).mpr (Or.inr ⟨rfl, rfl, hself⟩)⟩)
      · exact Or.inr (Or.inr ⟨r', hr', ρ, (huses hr' ρ p).mpr (Or.inl ⟨hu, hself⟩)⟩)
  · intro r' hr' ρ u j hlen hρ hn hj hV
    rw [hnode r' hr' ρ (by omega) hρ] at hn
    have hentry : ¬ (u = t ∧ j = px 0 va) := by
      rintro ⟨hu, -⟩
      rw [hunique r' hr' ρ u (by omega) hρ hn hu] at hlen
      exact absurd hlen (by simp [dir])
    rw [pte_setPte_of_ne hentry] at hV ⊢
    exact h.inner r' hr' ρ u j hlen hρ hn hj hV
  · intro r' hr' ρ u j hlen hρ hn hj hV
    rw [hnode r' hr' ρ (by omega) hρ] at hn
    by_cases hentry : u = t ∧ j = px 0 va
    · obtain ⟨rfl, rfl⟩ := hentry
      rw [pte_setPte_self hv] at hV ⊢
      exact hR hV
    · rw [pte_setPte_of_ne hentry] at hV ⊢
      exact h.leaf r' hr' ρ u j hlen hρ hn hj hV

end Leaf

/-- From `m` to `m'` the entry of `va` in tree `r` has become `v`, and nothing else has changed. -/
structure SetEntry (H R : Set ℕ) (r va v : ℕ) (m m' : Phys) : Prop where
  frame : Frame H (R \ {r}) m m'
  lookup_eq : ∀ r' ∈ R, ∀ va', lookup m'.mem r' va' =
    if r' = r ∧ path va' = path va then v else lookup m.mem r' va'

theorem Owned.setEntry (h : Owned L m free H R) (hr : r ∈ R)
    (ht : node m.mem r (dir va) = some t) (hv : v < 2 ^ 64) :
    SetEntry H R r va v m (m.setPte t (px 0 va) v) :=
  ⟨h.frame_setPte hr (le_refl 2) (inTable_dir va) ht, fun _ hr' va' =>
    h.tables.lookup_setPte hr ht hv hr' va'⟩

/-- **Mapping**: a page goes from the kernel into the tree. -/
theorem Space.mapLeaf {perm : ℕ} (h : Space L m (insert q H) R) (hq : q ∉ H) (hr : r ∈ R)
    (ht : node m.mem r (dir va) = some t) (hinv : isV (lookup m.mem r va) = false)
    (hown : Owns va) (hperm : perm < 1024) (hR : perm.testBit 1) :
    Space L (m.setPte t (px 0 va) (mkPte q perm)) H R ∧
      SetEntry H R r va (mkPte q perm) m (m.setPte t (px 0 va) (mkPte q perm)) := by
  obtain ⟨free, h⟩ := h
  obtain ⟨hpage, hqfree⟩ := h.held q (Set.mem_insert q H)
  have hv : mkPte q perm < 2 ^ 64 := mkPte_lt (lt_trans hpage.lt (by decide)) hperm
  have hpa : pte2pa (mkPte q perm) = q := pte2pa_mkPte hpage.lt hpage.1 hperm
  refine ⟨⟨free, h.setLeaf hr ht hv (fun _ => by rw [isR_mkPte]; exact hR)
    (fun p hp => h.held p (Or.inr hp)) (fun r' hr' ρ p hu _ hp => ?_) (fun _ _ => ?_)
    (fun p hp => ?_)⟩, ?_⟩
  · exact (h.uses r' hr' ρ p hu).2.2 (Or.inr hp)
  · rw [hpa]
    exact ⟨hpage, hqfree, hq, fun r' hr' ρ hu =>
      absurd (Set.mem_insert q H) (h.uses r' hr' ρ q hu).2.2⟩
  · rw [isV_mkPte, hpa]
    rcases hp with (rfl | hp) | hu
    · exact Or.inr ⟨hown, rfl, rfl⟩
    · exact Or.inl hp
    · rw [uses_path_iff, hinv] at hu
      exact absurd hu.2.1 (by simp)
  · obtain ⟨hframe, hlookup⟩ := h.setEntry hr ht hv
    exact ⟨hframe.mono (Set.subset_insert q H) (le_refl _), hlookup⟩

/-- **Unmapping**: a page goes from the tree to the kernel. -/
theorem Space.unmapLeaf (h : Space L m H R) (hr : r ∈ R) (ht : node m.mem r (dir va) = some t)
    (hV : isV (lookup m.mem r va)) (hown : Owns va) :
    pte2pa (lookup m.mem r va) ∉ H ∧
      Space L (m.setPte t (px 0 va) 0) (insert (pte2pa (lookup m.mem r va)) H) R ∧
      SetEntry H R r va 0 m (m.setPte t (px 0 va) 0) := by
  obtain ⟨free, h⟩ := h
  have hu : Uses m.mem r (path va) (pte2pa (lookup m.mem r va)) :=
    uses_path_iff.mpr ⟨hown, hV, rfl⟩
  obtain ⟨hpage, hnf, hnH⟩ := h.uses r hr _ _ hu
  refine ⟨hnH, ⟨free, h.setLeaf hr ht (by decide) (fun h0 => absurd h0 (by simp [isV_zero]))
    (fun p hp => ?_) (fun r' hr' ρ p hu' hne hp => ?_)
    (fun _ h0 => absurd h0 (by simp [isV_zero])) (fun p hp => Or.inl ?_)⟩,
    h.setEntry hr ht (by decide)⟩
  · rcases hp with rfl | hp
    · exact ⟨hpage, hnf⟩
    · exact h.held p hp
  · rcases hp with rfl | hp
    · exact hne (h.unique r' hr' r hr ρ (path va) _ hu' hu)
    · exact (h.uses r' hr' ρ p hu').2.2 hp
  · rcases hp with hp | hp
    · exact Or.inr hp
    · exact Or.inl (uses_path_iff.mp hp).2.2

/-- Mapping or unmapping the trampoline or the trapframe moves no page. -/
theorem Space.setSpecial (h : Space L m H R) (hr : r ∈ R) (ht : node m.mem r (dir va) = some t)
    (hown : ¬ Owns va) (hv : v < 2 ^ 64) (hR : isV v → isR v) :
    Space L (m.setPte t (px 0 va) v) H R ∧
      SetEntry H R r va v m (m.setPte t (px 0 va) v) := by
  obtain ⟨free, h⟩ := h
  refine ⟨⟨free, h.setLeaf hr ht hv hR h.held (fun r' hr' ρ p hu _ => (h.uses r' hr' ρ p hu).2.2)
    (fun h' => absurd h' hown) fun p hp => Or.inl ?_⟩, h.setEntry hr ht hv⟩
  rcases hp with hp | hp
  · exact hp
  · exact absurd (uses_path_iff.mp hp).1 hown

theorem Space.setFlags (h : Space L m H R) (hr : r ∈ R) (ht : node m.mem r (dir va) = some t)
    (hV : isV (lookup m.mem r va)) (hv : v < 2 ^ 64) (hR : isR v)
    (hpa : pte2pa v = pte2pa (lookup m.mem r va)) (hV' : isV v) :
    Space L (m.setPte t (px 0 va) v) H R ∧
      SetEntry H R r va v m (m.setPte t (px 0 va) v) := by
  obtain ⟨free, h⟩ := h
  refine ⟨⟨free, h.setLeaf hr ht hv (fun _ => hR) h.held
    (fun r' hr' ρ p hu _ => (h.uses r' hr' ρ p hu).2.2) (fun hown _ => ?_) fun p hp => ?_⟩,
    h.setEntry hr ht hv⟩
  · have hu : Uses m.mem r (path va) (pte2pa v) := uses_path_iff.mpr ⟨hown, hV, hpa⟩
    obtain ⟨hpage, hnf, hnH⟩ := h.uses r hr _ _ hu
    exact ⟨hpage, hnf, hnH, fun r' hr' ρ hu' => h.unique r' hr' r hr ρ _ _ hu' hu⟩
  · rcases hp with hp | hp
    · exact Or.inl hp
    · obtain ⟨hown, -, rfl⟩ := uses_path_iff.mp hp
      exact Or.inr ⟨hown, hV', hpa.symm⟩

theorem Space.storeLeaf (h : Space L m H R) (hr : r ∈ R) (hV : isV (lookup m.mem r va))
    (hown : Owns va) (w : Mem) :
    Space L (m.setPage (pte2pa (lookup m.mem r va)) w) H R ∧
      Frame H (R \ {r}) m (m.setPage (pte2pa (lookup m.mem r va)) w) ∧
      ∀ r' ∈ R, ∀ va', lookup (m.setPage (pte2pa (lookup m.mem r va)) w).mem r' va'
        = lookup m.mem r' va' := by
  obtain ⟨free, h⟩ := h
  have hu : Uses m.mem r (path va) (pte2pa (lookup m.mem r va)) :=
    uses_path_iff.mpr ⟨hown, hV, rfl⟩
  obtain ⟨-, hnf, hnH⟩ := h.uses r hr _ _ hu
  have htables : ∀ r' ∈ R, ∀ ρ u, ρ.length ≤ 2 → InTable ρ → node m.mem r' ρ = some u →
      (m.setPage (pte2pa (lookup m.mem r va)) w).mem u = m.mem u := by
    intro r' hr' ρ u hlen hρ hn
    refine Phys.setPage_mem_of_ne ?_
    rintro rfl
    rw [(h.unique r' hr' r hr ρ _ _ (.of_table hlen hρ hn) hu).2] at hlen
    exact absurd hlen (by simp [path])
  refine ⟨⟨free, h.reassign (h.freeList.setPage hnf w) h.held (fun _ => Iff.rfl) htables⟩,
    .of_forall_ne hnH ?_ fun q hq => Phys.setPage_mem_of_ne hq,
    fun r' hr' va' => lookup_of_tables (htables r' hr') va'⟩
  rintro r' ⟨hr', hne⟩ ρ hu'
  exact hne (h.unique r' hr' r hr ρ _ _ hu' hu).1

end Vm
end Xv6
