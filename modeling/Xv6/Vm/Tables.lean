import Xv6.Vm.Tree

/-!
# Tables without sharing

The tables of a page table are its nodes of the first three levels: the root, and what inner entries
point to.  `Tables L m free R` says of the trees with roots `R` that their tables are pages of the
allocator, none of them free, and that a page is a table at one place of one tree only.  Nothing is
said about the pages that addresses are mapped to.

That is enough for a page table to be a map: a write to an entry changes the nodes behind it and no
other (`Tables.node_setPte`), so a write to the entry of an address changes the mapping of that
address and no other (`Tables.lookup_setPte`), and a new table changes no mapping
(`Tables.lookup_install`).
-/

namespace Xv6
namespace Vm

open Bytes

variable {mem : ℕ → Mem} {r' : ℕ} {ρ : Path}

variable {L : Layout} {m m' : Phys} {free : List ℕ} {R : Set ℕ} {r t q i v va : ℕ} {π : Path}

/-- The tree at `r` has the table `t` at path `π`. -/
structure IsTable (mem : ℕ → Mem) (r : ℕ) (π : Path) (t : ℕ) : Prop where
  length_le : π.length ≤ 2
  inTable : InTable π
  node_eq : node mem r π = some t

theorem isTable_root (mem : ℕ → Mem) (r : ℕ) : IsTable mem r [] r :=
  ⟨by simp, inTable_nil, rfl⟩

theorem isTable_dir (h : node mem r (dir va) = some t) : IsTable mem r (dir va) t :=
  ⟨le_refl 2, inTable_dir va, h⟩

/-- Every table is a page of the allocator that is not free, at one place of one tree. -/
structure Tables (L : Layout) (m : Phys) (free : List ℕ) (R : Set ℕ) : Prop where
  freeList : FreeList L m free
  page : ∀ r ∈ R, ∀ π t, IsTable m.mem r π t → L.Page t ∧ t ∉ free
  unique : ∀ r ∈ R, ∀ r' ∈ R, ∀ π π' t, IsTable m.mem r π t → IsTable m.mem r' π' t →
    r = r' ∧ π = π'

/-! ## Memory that keeps the tables -/

theorem node_of_tables (h : ∀ π t, π.length ≤ 2 → InTable π → node m.mem r π = some t →
    m'.mem t = m.mem t) (hlen : π.length ≤ 3) (hπ : InTable π) :
    node m'.mem r π = node m.mem r π := by
  refine node_congr fun ρ t i hpre hρ => ?_
  have hle := hpre.length_le
  rw [List.length_append, List.length_singleton] at hle
  rw [pte, pte, h ρ t (by omega) (hπ.of_prefix ((List.prefix_append ρ [i]).trans hpre)) hρ]

theorem lookup_of_tables (h : ∀ π t, π.length ≤ 2 → InTable π → node m.mem r π = some t →
    m'.mem t = m.mem t) (va : ℕ) : lookup m'.mem r va = lookup m.mem r va := by
  have hnode : node m'.mem r (dir va) = node m.mem r (dir va) :=
    node_of_tables h (Nat.le_succ 2) (inTable_dir va)
  cases hdir : node m.mem r (dir va) with
  | none => rw [lookup_of_node_none hdir, lookup_of_node_none (hnode.trans hdir)]
  | some t =>
    rw [lookup_of_node hdir, lookup_of_node (hnode.trans hdir), pte,
      h (dir va) t (le_refl 2) (inTable_dir va) hdir, pte]

theorem isTable_of_tables (h : ∀ π t, IsTable m.mem r π t → m'.mem t = m.mem t) :
    IsTable m'.mem r π t ↔ IsTable m.mem r π t := by
  have hnode : π.length ≤ 2 → InTable π → node m'.mem r π = node m.mem r π := fun hlen hπ =>
    node_of_tables (fun ρ u hρ hin hn => h ρ u ⟨hρ, hin, hn⟩) (by omega) hπ
  constructor
  · intro ht
    exact ⟨ht.length_le, ht.inTable, (hnode ht.length_le ht.inTable).symm.trans ht.node_eq⟩
  · intro ht
    exact ⟨ht.length_le, ht.inTable, (hnode ht.length_le ht.inTable).trans ht.node_eq⟩

theorem Tables.keep {free' : List ℕ} (h : Tables L m free R) (hfree : FreeList L m' free')
    (hmem : ∀ r ∈ R, ∀ π t, IsTable m.mem r π t → m'.mem t = m.mem t ∧ t ∉ free') :
    Tables L m' free' R := by
  have hiff : ∀ r ∈ R, ∀ π t, IsTable m'.mem r π t ↔ IsTable m.mem r π t := fun r hr π t =>
    isTable_of_tables fun ρ u hu => (hmem r hr ρ u hu).1
  refine ⟨hfree, fun r hr π t ht => ?_, fun r hr r' hr' π π' t ht ht' => ?_⟩
  · rw [hiff r hr] at ht
    exact ⟨(h.page r hr π t ht).1, (hmem r hr π t ht).2⟩
  · rw [hiff r hr] at ht
    rw [hiff r' hr'] at ht'
    exact h.unique r hr r' hr' π π' t ht ht'

/-! ## Writing an entry -/

theorem pte_lt (mem : ℕ → Mem) (t i : ℕ) : pte mem t i < 2 ^ 64 := load_lt 8 (mem t) (8 * i)

theorem lookup_lt (mem : ℕ → Mem) (r va : ℕ) : lookup mem r va < 2 ^ 64 := by
  cases hn : node mem r (dir va) with
  | none =>
    rw [lookup_of_node_none hn]
    decide
  | some t =>
    rw [lookup_of_node hn]
    exact pte_lt mem t (px 0 va)

theorem pte_setPte_self (hv : v < 2 ^ 64) : pte (m.setPte t i v).mem t i = v := by
  rw [pte, Phys.setPte, Phys.setPage_mem_self]
  exact load_store_of_lt hv

theorem pte_setPte_of_ne {u j : ℕ} (h : ¬ (u = t ∧ j = i)) :
    pte (m.setPte t i v).mem u j = pte m.mem u j := by
  rw [pte, pte, Phys.setPte]
  by_cases hu : u = t
  · have hj : j ≠ i := fun hj => h ⟨hu, hj⟩
    rw [hu, Phys.setPage_mem_self]
    exact load_store_of_disjoint (by omega)
  · rw [Phys.setPage_mem_of_ne hu]

section Write

variable (h : Tables L m free R) (hr : r ∈ R) (ht : IsTable m.mem r π t)

include h hr ht

/-- **A write to an entry changes only the nodes behind it.** -/
theorem Tables.node_setPte (hr' : r' ∈ R) (hlen : ρ.length ≤ 3) (hρ : InTable ρ)
    (hnot : ¬ (r' = r ∧ π ++ [i] <+: ρ)) : node (m.setPte t i v).mem r' ρ = node m.mem r' ρ := by
  refine node_congr fun σ u j hpre hσ => pte_setPte_of_ne ?_
  rintro ⟨rfl, rfl⟩
  have hle := hpre.length_le
  rw [List.length_append, List.length_singleton] at hle
  have hin : InTable σ := hρ.of_prefix ((List.prefix_append σ [j]).trans hpre)
  obtain ⟨rfl, rfl⟩ := h.unique r' hr' r hr σ π u ⟨by omega, hin, hσ⟩ ht
  exact hnot ⟨rfl, hpre⟩

theorem Tables.node_setPte_self (hv : v < 2 ^ 64) :
    node (m.setPte t i v).mem r (π ++ [i]) = if isV v then some (pte2pa v) else none := by
  have ht' : node (m.setPte t i v).mem r π = some t := by
    rw [h.node_setPte hr ht hr (by have := ht.length_le; omega) ht.inTable]
    · exact ht.node_eq
    · rintro ⟨-, hpre⟩
      have := hpre.length_le
      rw [List.length_append, List.length_singleton] at this
      omega
  rw [node_snoc ht', next, pte_setPte_self hv]

theorem Tables.freeList_setPte : FreeList L (m.setPte t i v) free :=
  h.freeList.setPage (h.page r hr π t ht).2 _

end Write

/-! ## The entry of an address -/

theorem path_eq_path_iff {va' : ℕ} :
    path va' = path va ↔ dir va' = dir va ∧ px 0 va' = px 0 va := by
  simp [path, dir, and_assoc]

section Leaf

variable (h : Tables L m free R) (hr : r ∈ R) (ht : node m.mem r (dir va) = some t)

include h hr ht

theorem Tables.node_setLeaf (hr' : r' ∈ R) (hlen : ρ.length ≤ 3) (hρ : InTable ρ)
    (hne : ¬ (r' = r ∧ ρ = path va)) :
    node (m.setPte t (px 0 va) v).mem r' ρ = node m.mem r' ρ := by
  refine h.node_setPte hr (isTable_dir ht) hr' hlen hρ ?_
  rintro ⟨rfl, hpre⟩
  exact hne ⟨rfl, (hpre.eq_of_length_le hlen).symm⟩

theorem Tables.isTable_setLeaf {u : ℕ} (hr' : r' ∈ R) :
    IsTable (m.setPte t (px 0 va) v).mem r' ρ u ↔ IsTable m.mem r' ρ u := by
  have hnode : ρ.length ≤ 2 → InTable ρ →
      node (m.setPte t (px 0 va) v).mem r' ρ = node m.mem r' ρ := fun hlen hρ =>
    h.node_setLeaf hr ht hr' (by omega) hρ fun heq => absurd hlen (by simp [heq.2, path])
  constructor
  · intro hu
    exact ⟨hu.length_le, hu.inTable, (hnode hu.length_le hu.inTable).symm.trans hu.node_eq⟩
  · intro hu
    exact ⟨hu.length_le, hu.inTable, (hnode hu.length_le hu.inTable).trans hu.node_eq⟩

/-- **A write to the entry of an address changes its mapping and no other.** -/
theorem Tables.lookup_setPte (hv : v < 2 ^ 64) (hr' : r' ∈ R) (va' : ℕ) :
    lookup (m.setPte t (px 0 va) v).mem r' va' =
      if r' = r ∧ path va' = path va then v else lookup m.mem r' va' := by
  have hnode : node (m.setPte t (px 0 va) v).mem r' (dir va') = node m.mem r' (dir va') := by
    refine h.node_setLeaf hr ht hr' (Nat.le_succ 2) (inTable_dir va') ?_
    rintro ⟨-, heq⟩
    exact absurd (congrArg List.length heq) (by simp [dir, path])
  cases hn : node m.mem r' (dir va') with
  | none =>
    rw [lookup_of_node_none (hnode.trans hn), lookup_of_node_none hn, if_neg]
    rintro ⟨rfl, heq⟩
    rw [(path_eq_path_iff.mp heq).1, ht] at hn
    exact absurd hn (by simp)
  | some u =>
    rw [lookup_of_node (hnode.trans hn), lookup_of_node hn]
    split
    · rename_i heq
      obtain ⟨rfl, heq⟩ := heq
      obtain ⟨hdir, hpx⟩ := path_eq_path_iff.mp heq
      rw [hdir, ht] at hn
      rw [hpx, ← Option.some.inj hn, pte_setPte_self hv]
    · rename_i hne
      refine pte_setPte_of_ne ?_
      rintro ⟨rfl, hpx⟩
      obtain ⟨rfl, hdir⟩ := h.unique r' hr' r hr (dir va') (dir va) u (isTable_dir hn)
        (isTable_dir ht)
      exact hne ⟨rfl, path_eq_path_iff.mpr ⟨hdir, hpx⟩⟩

theorem Tables.setLeaf : Tables L (m.setPte t (px 0 va) v) free R := by
  refine ⟨h.freeList_setPte hr (isTable_dir ht), fun r' hr' ρ u hu => ?_,
    fun r₁ hr₁ r₂ hr₂ ρ₁ ρ₂ u hu₁ hu₂ => ?_⟩
  · exact h.page r' hr' ρ u ((h.isTable_setLeaf hr ht hr').mp hu)
  · exact h.unique r₁ hr₁ r₂ hr₂ ρ₁ ρ₂ u ((h.isTable_setLeaf hr ht hr₁).mp hu₁)
      ((h.isTable_setLeaf hr ht hr₂).mp hu₂)

end Leaf

/-- **No two pages share an entry.** -/
theorem Tables.eq_of_slot {va' : ℕ} (h : Tables L m free R) (hr : r ∈ R) (hva : va < MAXVA)
    (hva' : va' < MAXVA) (ht : node m.mem r (dir va) = some t)
    (ht' : node m.mem r (dir va') = some t) (hpx : px 0 va = px 0 va') :
    va / 4096 = va' / 4096 := by
  obtain ⟨-, hdir⟩ := h.unique r hr r hr _ _ t (isTable_dir ht) (isTable_dir ht')
  simp only [dir, List.cons.injEq, and_true] at hdir
  exact px_inj hva hva' hdir.1 hdir.2 hpx

/-! ## A new table -/

theorem pa2pte_or (q : ℕ) : pa2pte q ||| PTE_V = mkPte q 0 := by rw [mkPte, Nat.or_zero]

theorem pte_zero (h : mem q = fun _ => 0) (i : ℕ) : pte mem q i = 0 := by
  rw [pte, h, load_zero]

theorem isV_pte_zero (h : mem q = fun _ => 0) (i : ℕ) : isV (pte mem q i) = false := by
  rw [pte_zero h, isV_zero]

theorem node_of_zero (h : mem q = fun _ => 0) (i : ℕ) (π : Path) : node mem q (i :: π) = none := by
  rw [node_cons, next, isV_pte_zero h]
  rfl

section Install

variable (h : Tables L m free R) (hr : r ∈ R) (ht : IsTable m.mem r π t) (hlen : π.length ≤ 1)
  (hinv : isV (pte m.mem t i) = false) (hq : L.Page q)
  (hfresh : ∀ r ∈ R, ∀ ρ, ¬ IsTable m.mem r ρ q) (hzero : m.mem q = fun _ => 0)

include hr ht hfresh hzero in
theorem install_zero : (m.setPte t i (mkPte q 0)).mem q = fun _ => 0 := by
  have hne : q ≠ t := fun heq => hfresh r hr π (heq ▸ ht)
  rw [Phys.setPte, Phys.setPage_mem_of_ne hne, hzero]

include h hr ht hq in
theorem Tables.node_install :
    node (m.setPte t i (mkPte q 0)).mem r (π ++ [i]) = some q := by
  rw [h.node_setPte_self hr ht (mkPte_lt (lt_trans hq.lt (by decide)) (by decide)), isV_mkPte,
    pte2pa_mkPte hq.lt hq.1 (by decide)]
  rfl

include ht hinv in
theorem node_before_install (σ : Path) : node m.mem r (π ++ [i] ++ σ) = none := by
  rw [node_append, node_snoc ht.node_eq, next, hinv]
  rfl

include h hr ht hlen hinv hq hfresh hzero in
theorem Tables.isTable_install (hr' : r' ∈ R) (hi : i < 512) (ρ : Path) (u : ℕ) :
    IsTable (m.setPte t i (mkPte q 0)).mem r' ρ u ↔
      IsTable m.mem r' ρ u ∨ (r' = r ∧ ρ = π ++ [i] ∧ u = q) := by
  have hself := h.node_install hr ht hq (i := i)
  constructor
  · intro hu
    by_cases hext : r' = r ∧ π ++ [i] <+: ρ
    · obtain ⟨rfl, σ, rfl⟩ := hext
      have hn := hu.node_eq
      rw [node_append, hself, Option.bind_some] at hn
      cases σ with
      | nil => exact Or.inr ⟨rfl, List.append_nil _, (Option.some.inj hn).symm⟩
      | cons j σ =>
        rw [node_of_zero (install_zero hr ht hfresh hzero)] at hn
        exact nomatch hn
    · have hn := h.node_setPte (v := mkPte q 0) hr ht hr' (by have := hu.length_le; omega)
        hu.inTable hext
      exact Or.inl ⟨hu.length_le, hu.inTable, hn.symm.trans hu.node_eq⟩
  · rintro (hu | ⟨rfl, rfl, rfl⟩)
    · have hext : ¬ (r' = r ∧ π ++ [i] <+: ρ) := by
        rintro ⟨rfl, σ, rfl⟩
        exact nomatch (node_before_install ht hinv σ).symm.trans hu.node_eq
      have hn := h.node_setPte (v := mkPte q 0) hr ht hr' (by have := hu.length_le; omega)
        hu.inTable hext
      exact ⟨hu.length_le, hu.inTable, hn.trans hu.node_eq⟩
    · refine ⟨?_, ht.inTable.append fun j hj => ?_, hself⟩
      · rw [List.length_append, List.length_singleton]
        omega
      · rw [List.mem_singleton.mp hj]
        exact hi

include h hr ht hlen hinv hq hfresh hzero in
theorem Tables.install (hi : i < 512) (hqfree : q ∉ free) :
    Tables L (m.setPte t i (mkPte q 0)) free R := by
  have hiff := fun {r' : ℕ} (hr' : r' ∈ R) =>
    h.isTable_install hr ht hlen hinv hq hfresh hzero hr' hi
  refine ⟨h.freeList_setPte hr ht, fun r' hr' ρ u hu => ?_, fun r₁ hr₁ r₂ hr₂ ρ₁ ρ₂ u hu₁ hu₂ => ?_⟩
  · rcases (hiff hr' ρ u).mp hu with hu | ⟨-, -, rfl⟩
    · exact h.page r' hr' ρ u hu
    · exact ⟨hq, hqfree⟩
  · rcases (hiff hr₁ ρ₁ u).mp hu₁ with hold₁ | ⟨rfl, rfl, rfl⟩
    · rcases (hiff hr₂ ρ₂ u).mp hu₂ with hold₂ | ⟨-, -, rfl⟩
      · exact h.unique r₁ hr₁ r₂ hr₂ ρ₁ ρ₂ u hold₁ hold₂
      · exact absurd hold₁ (hfresh r₁ hr₁ ρ₁)
    · rcases (hiff hr₂ ρ₂ u).mp hu₂ with hold₂ | ⟨rfl, rfl, -⟩
      · exact absurd hold₂ (hfresh r₂ hr₂ ρ₂)
      · exact ⟨rfl, rfl⟩

include h hr ht hlen hinv hq hfresh hzero in
theorem Tables.lookup_install (hr' : r' ∈ R) (hi : i < 512) (va : ℕ) :
    lookup (m.setPte t i (mkPte q 0)).mem r' va = lookup m.mem r' va := by
  have hiff := h.isTable_install hr ht hlen hinv hq hfresh hzero hr' hi (dir va)
  cases hn : node (m.setPte t i (mkPte q 0)).mem r' (dir va) with
  | none =>
    have hold : node m.mem r' (dir va) = none := by
      cases hold : node m.mem r' (dir va) with
      | none => rfl
      | some u => exact nomatch hn.symm.trans ((hiff u).mpr (Or.inl (isTable_dir hold))).node_eq
    rw [lookup_of_node_none hn, lookup_of_node_none hold]
  | some u =>
    rw [lookup_of_node hn]
    rcases (hiff u).mp (isTable_dir hn) with hu | ⟨rfl, hdir, rfl⟩
    · have hentry : ¬ (u = t ∧ px 0 va = i) := by
        rintro ⟨rfl, -⟩
        have heq := (h.unique r' hr' r hr (dir va) π u hu ht).2
        rw [← heq] at hlen
        exact absurd hlen (by simp [dir])
      rw [lookup_of_node hu.node_eq, pte_setPte_of_ne hentry]
    · have hbefore : node m.mem r' (dir va) = none := by
        rw [hdir, ← List.append_nil (π ++ [i])]
        exact node_before_install ht hinv []
      rw [lookup_of_node_none hbefore, pte_zero (install_zero hr ht hfresh hzero)]

end Install

end Vm
end Xv6
