import Xv6.Vm.Tables

/-!
# Who owns a physical page

`Owned L m free H R` is the invariant of physical memory: every page of `[end, PHYSTOP)` is on the
free list `free`, or held by the kernel (a page of `H`), or used at one place of one of the page
tables with roots `R`; and it is only one of these.

The steps that functions of `kernel/vm.c` are made of move a page from one owner to another, and
each of them is a lemma here: `kalloc` from the free list to the kernel, `kfree` back, a write of
an entry from the kernel into a tree or out of it.  What a step leaves alone is said by `Frame`:
the contents of the pages held by the kernel and of the pages of other trees.
-/

namespace Xv6
namespace Vm

open Bytes Program

/-- Every page has one owner: the free list, the kernel, or one place in one of the trees. -/
structure Owned (L : Layout) (m : Phys) (free : List ℕ) (H R : Set ℕ) : Prop where
  freeList : FreeList L m free
  held : ∀ p ∈ H, L.Page p ∧ p ∉ free
  uses : ∀ r ∈ R, ∀ π p, Uses m.mem r π p → L.Page p ∧ p ∉ free ∧ p ∉ H
  unique : ∀ r ∈ R, ∀ r' ∈ R, ∀ π π' p, Uses m.mem r π p → Uses m.mem r' π' p → r = r' ∧ π = π'
  total : ∀ p, L.Page p → p ∈ free ∨ p ∈ H ∨ ∃ r ∈ R, ∃ π, Uses m.mem r π p
  /-- An entry of an inner table points to a table, -/
  inner : ∀ r ∈ R, ∀ π t i, π.length ≤ 1 → InTable π → node m.mem r π = some t → i < 512 →
    isV (pte m.mem t i) → isR (pte m.mem t i) = false ∧ isW (pte m.mem t i) = false ∧
      isX (pte m.mem t i) = false
  /-- and an entry of a table of the last level to a page. -/
  leaf : ∀ r ∈ R, ∀ π t i, π.length = 2 → InTable π → node m.mem r π = some t → i < 512 →
    isV (pte m.mem t i) → isR (pte m.mem t i)

/-- `Owned`, for the free list there is. -/
def Space (L : Layout) (m : Phys) (H R : Set ℕ) : Prop := ∃ free, Owned L m free H R

/-- The pages of `H` and those of the trees `R` keep their contents. -/
def Frame (H R : Set ℕ) (m m' : Phys) : Prop :=
  ∀ p, (p ∈ H ∨ ∃ r ∈ R, ∃ π, Uses m.mem r π p) → m'.mem p = m.mem p

variable {L : Layout} {m m' m'' : Phys} {free : List ℕ} {H R : Set ℕ} {r t p q i : ℕ} {π : Path}

/-! ## Frames -/

theorem Frame.refl (H R : Set ℕ) (m : Phys) : Frame H R m m := fun _ _ => rfl

theorem Frame.mono {H' R' : Set ℕ} (h : Frame H R m m') (hH : H' ⊆ H) (hR : R' ⊆ R) :
    Frame H' R' m m' := by
  rintro p (hp | ⟨r, hr, hp⟩)
  · exact h p (Or.inl (hH hp))
  · exact h p (Or.inr ⟨r, hR hr, hp⟩)

theorem Frame.node_eq (h : Frame H R m m') (hr : r ∈ R) (hlen : π.length ≤ 3) (hπ : InTable π) :
    node m'.mem r π = node m.mem r π :=
  node_of_tables (fun ρ _ hρ hin hnode => h _ (Or.inr ⟨r, hr, ρ, .of_table hρ hin hnode⟩)) hlen hπ

theorem Frame.uses_iff (h : Frame H R m m') (hr : r ∈ R) (π : Path) (p : ℕ) :
    Uses m'.mem r π p ↔ Uses m.mem r π p := by
  constructor
  · rintro ⟨hlen, hin, h1, h2, hnode⟩
    exact ⟨hlen, hin, h1, h2, (h.node_eq hr hlen hin).symm.trans hnode⟩
  · rintro ⟨hlen, hin, h1, h2, hnode⟩
    exact ⟨hlen, hin, h1, h2, (h.node_eq hr hlen hin).trans hnode⟩

theorem Frame.lookup_eq (h : Frame H R m m') (hr : r ∈ R) (va : ℕ) :
    lookup m'.mem r va = lookup m.mem r va :=
  lookup_of_tables (fun ρ _ hρ hin hnode => h _ (Or.inr ⟨r, hr, ρ, .of_table hρ hin hnode⟩)) va

theorem Frame.trans (h : Frame H R m m') (h' : Frame H R m' m'') : Frame H R m m'' := by
  rintro p hp
  rw [h' p ?_, h p hp]
  rcases hp with hp | ⟨r, hr, π, hp⟩
  · exact Or.inl hp
  · exact Or.inr ⟨r, hr, π, (h.uses_iff hr π p).mpr hp⟩

theorem Frame.of_forall_ne (hH : p ∉ H) (hR : ∀ r ∈ R, ∀ π, ¬ Uses m.mem r π p)
    (h : ∀ q, q ≠ p → m'.mem q = m.mem q) : Frame H R m m' := by
  rintro q (hq | ⟨r, hr, π, hq⟩)
  · exact h q fun heq => hH (heq ▸ hq)
  · exact h q fun heq => hR r hr π (heq ▸ hq)

/-! ## The free list and the kernel -/

theorem Owned.mem_free_iff (h : Owned L m free H R) :
    p ∈ free ↔ L.Page p ∧ p ∉ H ∧ ∀ r ∈ R, ∀ π, ¬ Uses m.mem r π p := by
  constructor
  · exact fun hp => ⟨h.freeList.page p hp, fun hH => (h.held p hH).2 hp,
      fun r hr π hu => (h.uses r hr π p hu).2.1 hp⟩
  · rintro ⟨hpage, hH, huses⟩
    rcases h.total p hpage with hp | hp | ⟨r, hr, π, hu⟩
    · exact hp
    · exact absurd hp hH
    · exact absurd hu (huses r hr π)

theorem Owned.mem_free_congr {free' : List ℕ} (h : Owned L m free H R)
    (h' : Owned L m' free' H R) (hframe : Frame H R m m') : p ∈ free' ↔ p ∈ free := by
  rw [h.mem_free_iff, h'.mem_free_iff]
  refine and_congr_right fun _ => and_congr_right fun _ => ?_
  exact forall_congr' fun r => forall_congr' fun hr => forall_congr' fun π =>
    not_congr (hframe.uses_iff hr π p)

/-- Pages go between the free list and the kernel, and trees are given up; the tables of the trees
that stay keep their contents. -/
theorem Owned.release {free' : List ℕ} {H' R' : Set ℕ} (h : Owned L m free H R) (hR : R' ⊆ R)
    (hfree : FreeList L m' free') (hheld : ∀ p ∈ H', L.Page p ∧ p ∉ free')
    (hsame : ∀ p, (p ∈ free' ∨ p ∈ H') ↔
      (p ∈ free ∨ p ∈ H ∨ ∃ r ∈ R, r ∉ R' ∧ ∃ π, Uses m.mem r π p))
    (htables : ∀ r ∈ R', ∀ π t, π.length ≤ 2 → InTable π → node m.mem r π = some t →
      m'.mem t = m.mem t) : Owned L m' free' H' R' := by
  have hnode : ∀ r ∈ R', ∀ π, π.length ≤ 3 → InTable π → node m'.mem r π = node m.mem r π :=
    fun r hr π hlen hπ => node_of_tables (htables r hr) hlen hπ
  have huses : ∀ r ∈ R', ∀ π p, Uses m'.mem r π p ↔ Uses m.mem r π p := by
    intro r hr π p
    constructor
    · rintro ⟨hlen, hin, h1, h2, hn⟩
      exact ⟨hlen, hin, h1, h2, (hnode r hr π hlen hin).symm.trans hn⟩
    · rintro ⟨hlen, hin, h1, h2, hn⟩
      exact ⟨hlen, hin, h1, h2, (hnode r hr π hlen hin).trans hn⟩
  refine ⟨hfree, hheld, fun r hr π p hp => ?_, fun r hr r' hr' π π' p hp hp' => ?_,
    fun p hp => ?_, fun r hr π t i hlen hπ hn => ?_, fun r hr π t i hlen hπ hn => ?_⟩
  · have hold := (huses r hr π p).mp hp
    obtain ⟨hpage, hnf, hnH⟩ := h.uses r (hR hr) π p hold
    have hnot : ¬ (p ∈ free' ∨ p ∈ H') := by
      rw [hsame p]
      rintro (hf | hH | ⟨r', hr', hne, π', hu⟩)
      · exact hnf hf
      · exact hnH hH
      · exact hne ((h.unique r (hR hr) r' hr' π π' p hold hu).1 ▸ hr)
    exact ⟨hpage, fun hf => hnot (Or.inl hf), fun hH => hnot (Or.inr hH)⟩
  · exact h.unique r (hR hr) r' (hR hr') π π' p ((huses r hr π p).mp hp) ((huses r' hr' π' p).mp hp')
  · by_cases hin : p ∈ free' ∨ p ∈ H'
    · exact hin.imp_right Or.inl
    · rw [hsame p] at hin
      rcases h.total p hp with hf | hH | ⟨r, hr, π, hu⟩
      · exact absurd (Or.inl hf) hin
      · exact absurd (Or.inr (Or.inl hH)) hin
      · have hr' : r ∈ R' := by
          by_contra hne
          exact hin (Or.inr (Or.inr ⟨r, hr, hne, π, hu⟩))
        exact Or.inr (Or.inr ⟨r, hr', π, (huses r hr' π p).mpr hu⟩)
  · rw [hnode r hr π (by omega) hπ] at hn
    rw [pte, htables r hr π t (by omega) hπ hn]
    exact h.inner r (hR hr) π t i hlen hπ hn
  · rw [hnode r hr π (by omega) hπ] at hn
    rw [pte, htables r hr π t (by omega) hπ hn]
    exact h.leaf r (hR hr) π t i hlen hπ hn

/-- Pages go between the free list and the kernel; the tables keep their contents. -/
theorem Owned.reassign {free' : List ℕ} {H' : Set ℕ} (h : Owned L m free H R)
    (hfree : FreeList L m' free') (hheld : ∀ p ∈ H', L.Page p ∧ p ∉ free')
    (hsame : ∀ p, (p ∈ free' ∨ p ∈ H') ↔ (p ∈ free ∨ p ∈ H))
    (htables : ∀ r ∈ R, ∀ π t, π.length ≤ 2 → InTable π → node m.mem r π = some t →
      m'.mem t = m.mem t) : Owned L m' free' H' R := by
  refine h.release (le_refl R) hfree hheld (fun p => ?_) htables
  have hnone : ¬ ∃ r ∈ R, r ∉ R ∧ ∃ π, Uses m.mem r π p := fun ⟨r, hr, hne, _⟩ => hne hr
  rw [hsame p]
  simp only [hnone, or_false]

/-- A page that is not held or free is not touched by writes to pages that are. -/
theorem Owned.tables_ne (h : Owned L m free H R) (hp : p ∈ free ∨ p ∈ H)
    (hm : ∀ q, q ≠ p → m'.mem q = m.mem q) :
    ∀ r ∈ R, ∀ π t, π.length ≤ 2 → InTable π → node m.mem r π = some t → m'.mem t = m.mem t := by
  intro r hr π t hlen hπ hn
  obtain ⟨-, hnf, hnH⟩ := h.uses r hr π t (.of_table hlen hπ hn)
  refine hm t ?_
  rintro rfl
  exact hp.elim hnf hnH

/-- `kalloc`: a page goes from the free list to the kernel. -/
theorem Space.ensures_kalloc (h : Space L m H R) :
    Ensures kalloc m fun p m' =>
      (p = 0 ∧ m' = m) ∨
        (L.Page p ∧ p ∉ H ∧ Space L m' (insert p H) R ∧ Frame H R m m') := by
  obtain ⟨free, h⟩ := h
  refine (kalloc_spec h.freeList).mono ?_
  rintro p m' (⟨hp, -, hm⟩ | ⟨free', rfl, hfree', hm⟩)
  · exact Or.inl ⟨hp, hm⟩
  · have hp : p ∈ p :: free' := List.mem_cons_self ..
    have hpage := h.freeList.page p hp
    have hnH : p ∉ H := fun hH => (h.held p hH).2 hp
    have hnot : p ∉ free' := (List.nodup_cons.mp h.freeList.nodup).1
    refine Or.inr ⟨hpage, hnH, ⟨free', h.reassign hfree' ?_ ?_ (h.tables_ne (Or.inl hp) hm)⟩,
      .of_forall_ne hnH (fun r hr π hu => (h.uses r hr π p hu).2.1 hp) hm⟩
    · rintro q (rfl | hq)
      · exact ⟨hpage, hnot⟩
      · exact ⟨(h.held q hq).1, fun hf => (h.held q hq).2 (List.mem_cons_of_mem _ hf)⟩
    · intro q
      rw [Set.mem_insert_iff, List.mem_cons]
      tauto

/-- `kfree`: a page goes from the kernel to the free list. -/
theorem Space.ensures_kfree (h : Space L m (insert p H) R) (hp : p ∉ H) :
    Ensures (kfree L p) m fun _ m' => Space L m' H R ∧ Frame H R m m' := by
  obtain ⟨free, h⟩ := h
  obtain ⟨hpage, hnot⟩ := h.held p (Set.mem_insert p H)
  refine (kfree_spec h.freeList hpage hnot).mono ?_
  rintro - m' ⟨hfree', hm⟩
  have hmem : p ∈ insert p H := Set.mem_insert p H
  refine ⟨⟨p :: free, h.reassign hfree' (fun q hq => ⟨(h.held q (Or.inr hq)).1, ?_⟩) ?_
    (h.tables_ne (Or.inr hmem) hm)⟩,
    .of_forall_ne hp (fun r hr π hu => (h.uses r hr π p hu).2.2 hmem) hm⟩
  · rw [List.mem_cons]
    rintro (rfl | hf)
    · exact hp hq
    · exact (h.held q (Or.inr hq)).2 hf
  · intro q
    rw [Set.mem_insert_iff, List.mem_cons]
    tauto

theorem Space.setPage (h : Space L m (insert p H) R) (hp : p ∉ H) (v : Mem) :
    Space L (m.setPage p v) (insert p H) R ∧ Frame H R m (m.setPage p v) := by
  obtain ⟨free, h⟩ := h
  have hmem : p ∈ insert p H := Set.mem_insert p H
  have hm : ∀ q, q ≠ p → (m.setPage p v).mem q = m.mem q := fun q hq => Phys.setPage_mem_of_ne hq
  exact ⟨⟨free, h.reassign (h.freeList.setPage (h.held p hmem).2 v) h.held (fun _ => Iff.rfl)
    (h.tables_ne (Or.inr hmem) hm)⟩,
    .of_forall_ne hp (fun r hr π hu => (h.uses r hr π p hu).2.2 hmem) hm⟩

/-! ## Writing an entry -/

section Entry

variable {v : ℕ}

theorem Owned.tables (h : Owned L m free H R) : Tables L m free R where
  freeList := h.freeList
  page r hr π t ht := by
    have hu := h.uses r hr π t (.of_table ht.length_le ht.inTable ht.node_eq)
    exact ⟨hu.1, hu.2.1⟩
  unique r hr r' hr' π π' t ht ht' :=
    h.unique r hr r' hr' π π' t (.of_table ht.length_le ht.inTable ht.node_eq)
      (.of_table ht'.length_le ht'.inTable ht'.node_eq)

/-- A write to an entry of tree `r` leaves the kernel's pages and the other trees alone. -/
theorem Owned.frame_setPte (h : Owned L m free H R) (hr : r ∈ R) (hlen : π.length ≤ 2)
    (hπ : InTable π) (ht : node m.mem r π = some t) : Frame H (R \ {r}) m (m.setPte t i v) := by
  have hu : Uses m.mem r π t := .of_table hlen hπ ht
  refine .of_forall_ne (h.uses r hr π t hu).2.2 ?_ fun q hq => Phys.setPage_mem_of_ne hq
  rintro r' ⟨hr', hne⟩ π' hu'
  exact hne (h.unique r' hr' r hr π' π t hu' hu).1

end Entry

end Vm
end Xv6
