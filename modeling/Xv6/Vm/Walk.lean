import Xv6.Vm.Entry

/-!
# `walk` and `mappages`

What `walk` and `mappages` do to the owners of pages.  `walk` only reads, or hangs tables into the
tree and changes no mapping (`Quiet`).  `mappages` for one page either fails and leaves the
mappings as they are, or changes the mapping of one address.

Both fail only when they are out of memory; the tables that `walk` has allocated by then stay in
the tree, where `freewalk` finds them.
-/

namespace Xv6
namespace Vm

open Bytes Program

variable {L : Layout} {m m' m'' : Phys} {H R : Set ℕ} {r t q i v va pa perm : ℕ} {π : Path}

/-! ## Reads and writes of entries -/

section Access

variable {β : Type} {Q : β → Phys → Prop}

theorem ensures_readPte_bind {f : ℕ → VmM β} (h : Ensures (f (pte m.mem t i)) m Q) :
    Ensures (readPte t i >>= f) m Q := by
  obtain ⟨b, m', hrun, hQ⟩ := h
  exact ⟨b, m', hrun, hQ⟩

theorem ensures_writePte_bind {f : Unit → VmM β} (h : Ensures (f ()) (m.setPte t i v) Q) :
    Ensures (writePte t i v >>= f) m Q := by
  obtain ⟨b, m', hrun, hQ⟩ := h
  exact ⟨b, m', hrun, hQ⟩

theorem ensures_memset_bind {c : UInt8} {f : Unit → VmM β}
    (h : Ensures (f ()) (m.setPage pa fun _ => c) Q) : Ensures (memset pa c >>= f) m Q := by
  obtain ⟨b, m', hrun, hQ⟩ := h
  exact ⟨b, m', hrun, hQ⟩

end Access

/-! ## `walk` that only reads -/

theorem walkLevel_false (m : Phys) (t i : ℕ) :
    Ensures (walkLevel t i false) m fun a m' => m' = m ∧ a = next m.mem t i := by
  rw [walkLevel, next]
  refine ensures_readPte_bind (.ite (fun hV => .pure ⟨rfl, (if_pos hV).symm⟩) fun hV => ?_)
  exact .ite (fun _ => .pure ⟨rfl, (if_neg hV).symm⟩) fun h => absurd rfl h

/-- Without `alloc`, `walk` finds the entry if its table exists. -/
theorem walk_false (hva : va < MAXVA) :
    Ensures (walk r va false) m fun a m' =>
      m' = m ∧ a = (node m.mem r (dir va)).map fun t => (t, px 0 va) := by
  rw [walk, if_neg (by omega)]
  refine .bind (walkLevel_false m r (px 2 va)) ?_
  rintro a m' ⟨rfl, ha⟩
  rw [dir, node_cons, ← ha]
  cases a with
  | none => exact .pure ⟨rfl, rfl⟩
  | some t₁ =>
    refine .bind (walkLevel_false m' t₁ (px 1 va)) ?_
    rintro a m'' ⟨rfl, ha'⟩
    rw [Option.bind_some, node_cons, ← ha']
    cases a with
    | none => exact .pure ⟨rfl, rfl⟩
    | some t₀ => exact .pure ⟨rfl, rfl⟩

theorem ensures_walk_false_bind {β : Type} {Q : β → Phys → Prop}
    {f : Option (ℕ × ℕ) → VmM β} (hva : va < MAXVA)
    (hnone : node m.mem r (dir va) = none → Ensures (f none) m Q)
    (hsome : ∀ t, node m.mem r (dir va) = some t → Ensures (f (some (t, px 0 va))) m Q) :
    Ensures (walk r va false >>= f) m Q := by
  refine .bind (walk_false hva) ?_
  rintro a m' ⟨rfl, rfl⟩
  cases h : node m'.mem r (dir va) with
  | none => exact hnone h
  | some t => exact hsome t h

/-! ## `walk` that allocates -/

/-- Pages have gone from the free list into tables of tree `r`, or its pages have been written, and
no mapping has changed. -/
structure Quiet (L : Layout) (H R : Set ℕ) (r : ℕ) (m m' : Phys) : Prop where
  space : Space L m' H R
  frame : Frame H (R \ {r}) m m'
  lookup_eq : ∀ r' ∈ R, ∀ va, lookup m'.mem r' va = lookup m.mem r' va

theorem Quiet.refl (h : Space L m H R) : Quiet L H R r m m :=
  ⟨h, Frame.refl H (R \ {r}) m, fun _ _ _ => rfl⟩

theorem Quiet.trans (h : Quiet L H R r m m') (h' : Quiet L H R r m' m'') :
    Quiet L H R r m m'' :=
  ⟨h'.space, h.frame.trans h'.frame, fun r' hr' va =>
    (h'.lookup_eq r' hr' va).trans (h.lookup_eq r' hr' va)⟩

theorem walkLevel_true (h : Space L m H R) (hr : r ∈ R) (hlen : π.length ≤ 1) (hπ : InTable π)
    (ht : node m.mem r π = some t) (hi : i < 512) :
    Ensures (walkLevel t i true) m fun a m' =>
      Quiet L H R r m m' ∧ ∀ u, a = some u → node m'.mem r (π ++ [i]) = some u := by
  rw [walkLevel]
  refine ensures_readPte_bind (.ite (fun hV => ?_) fun hV => ?_)
  · refine .pure ⟨.refl h, ?_⟩
    rintro u ⟨⟩
    rw [node_snoc ht, next, if_pos hV]
  · refine .ite (fun hf => absurd hf (by simp)) fun _ => .bind h.ensures_kalloc ?_
    rintro q m₁ (⟨rfl, rfl⟩ | ⟨hpage, hqH, hspace, hframe⟩)
    · exact .ite (fun _ => .pure ⟨.refl h, by simp⟩) fun h0 => absurd rfl h0
    · refine .ite (fun h0 => absurd h0 hpage.ne_zero) fun _ => ensures_memset_bind ?_
      obtain ⟨hspace₂, hframe₂⟩ := hspace.setPage hqH fun _ => 0
      have hall := hframe.trans hframe₂
      -- the table is where it was, and its entry is still invalid
      have ht₂ : node (m₁.setPage q fun _ => 0).mem r π = some t := by
        rw [hall.node_eq hr (by omega) hπ, ht]
      have htable : (m₁.setPage q fun _ => 0).mem t = m.mem t :=
        hall t (Or.inr ⟨r, hr, π, .of_table (by omega) hπ ht⟩)
      have hinv : isV (pte (m₁.setPage q fun _ => 0).mem t i) = false := by
        rw [pte, htable]
        exact Bool.eq_false_iff.mpr hV
      obtain ⟨hspace₃, hframe₃, hnode, hlookup⟩ := hspace₂.installTable hqH hr hlen hπ ht₂ hi hinv
        (Phys.setPage_mem_self ..)
      rw [pa2pte_or]
      refine ensures_writePte_bind (.pure ⟨⟨hspace₃,
        (hall.mono (le_refl _) Set.sdiff_subset).trans hframe₃, fun r' hr' va => ?_⟩, ?_⟩)
      · rw [hlookup r' hr' va, hall.lookup_eq hr' va]
      · rintro u ⟨⟩
        exact hnode

/-- **With `alloc`, `walk` makes the tables it needs**, or fails; no mapping changes. -/
theorem walk_true (h : Space L m H R) (hr : r ∈ R) (hva : va < MAXVA) :
    Ensures (walk r va true) m fun a m' =>
      Quiet L H R r m m' ∧
        ∀ t i, a = some (t, i) → i = px 0 va ∧ node m'.mem r (dir va) = some t := by
  rw [walk, if_neg (by omega)]
  refine .bind (walkLevel_true h hr (by simp) inTable_nil (node_nil m.mem r) (px_lt 2 va)) ?_
  rintro a m₁ ⟨hquiet, hnode⟩
  cases a with
  | none => exact .pure ⟨hquiet, by simp⟩
  | some t₁ =>
    have ht₁ : node m₁.mem r [px 2 va] = some t₁ := hnode t₁ rfl
    refine .bind (walkLevel_true hquiet.space hr (le_refl 1) ?_ ht₁ (px_lt 1 va)) ?_
    · intro j hj
      rw [List.mem_singleton.mp hj]
      exact px_lt 2 va
    · rintro a m₂ ⟨hquiet₂, hnode₂⟩
      cases a with
      | none => exact .pure ⟨hquiet.trans hquiet₂, by simp⟩
      | some t₀ =>
        refine .pure ⟨hquiet.trans hquiet₂, ?_⟩
        rintro t i ⟨⟩
        exact ⟨rfl, hnode₂ t₀ rfl⟩

/-! ## `mappages` -/

/-- `mappages` of one page fails without changing a mapping, or writes one entry. -/
theorem mappages_page (h : Space L m H R) (hr : r ∈ R) (hva : va < MAXVA) (hmod : va % 4096 = 0)
    (hinv : isV (lookup m.mem r va) = false) :
    Ensures (mappages r va 4096 pa perm) m fun a m' =>
      (a = -1 ∧ Quiet L H R r m m') ∨
        (a = 0 ∧ ∃ m₁ t, Quiet L H R r m m₁ ∧ node m₁.mem r (dir va) = some t ∧
          m' = m₁.setPte t (px 0 va) (mkPte pa perm)) := by
  rw [mappages, if_neg (not_not.mpr hmod), if_neg (by decide), if_neg (by decide),
    show 4096 / 4096 = 0 + 1 from rfl, mappagesFrom]
  refine .bind (walk_true h hr hva) ?_
  rintro (_ | ⟨t, i⟩) m₁ ⟨hquiet, hnode⟩
  · exact .pure (Or.inl ⟨rfl, hquiet⟩)
  · obtain ⟨rfl, ht⟩ := hnode t i rfl
    have hV : isV (pte m₁.mem t (px 0 va)) = false := by
      rw [← lookup_of_node ht, hquiet.lookup_eq r hr va, hinv]
    refine ensures_readPte_bind (.ite (fun hV' => absurd (hV.symm.trans hV') (by simp)) fun _ => ?_)
    exact ensures_writePte_bind (.pure (Or.inr ⟨rfl, m₁, t, hquiet, ht, rfl⟩))

theorem Quiet.setEntry (h : Quiet L H R r m m') (h' : SetEntry H R r va v m' m'') :
    SetEntry H R r va v m m'' :=
  ⟨h.frame.trans h'.frame, fun r' hr' va' => by rw [h'.lookup_eq r' hr' va', h.lookup_eq r' hr' va']⟩

theorem mappages_held (h : Space L m (insert q H) R) (hq : q ∉ H) (hr : r ∈ R)
    (hva : va < TRAPFRAME) (hmod : va % 4096 = 0) (hinv : isV (lookup m.mem r va) = false)
    (hperm : perm < 1024) (hR : perm.testBit 1) :
    Ensures (mappages r va 4096 q perm) m fun a m' =>
      (a = -1 ∧ Quiet L (insert q H) R r m m') ∨
        (a = 0 ∧ Space L m' H R ∧ SetEntry H R r va (mkPte q perm) m m') := by
  have hlt : va < MAXVA := by
    rw [TRAPFRAME_eq] at hva
    rw [MAXVA_eq]
    omega
  refine (mappages_page h hr hlt hmod hinv).mono ?_
  rintro a m' (h | ⟨ha, m₁, t, hquiet, ht, rfl⟩)
  · exact Or.inl h
  · have hinv₁ : isV (lookup m₁.mem r va) = false := by rw [hquiet.lookup_eq r hr va, hinv]
    obtain ⟨hspace, hset⟩ := hquiet.space.mapLeaf hq hr ht hinv₁ (owns_of_lt hva) hperm hR
    refine Or.inr ⟨ha, hspace, ⟨?_, fun r' hr' va' => ?_⟩⟩
    · exact (hquiet.frame.mono (Set.subset_insert q H) (le_refl _)).trans hset.frame
    · rw [hset.lookup_eq r' hr' va', hquiet.lookup_eq r' hr' va']

/-- **Mapping the trampoline or the trapframe.** -/
theorem mappages_special (h : Space L m H R) (hr : r ∈ R) (hva : va < MAXVA)
    (hmod : va % 4096 = 0) (hinv : isV (lookup m.mem r va) = false) (hown : ¬ Owns va)
    (hpa : pa < 2 ^ 64) (hperm : perm < 1024) (hR : perm.testBit 1) :
    Ensures (mappages r va 4096 pa perm) m fun a m' =>
      (a = -1 ∧ Quiet L H R r m m') ∨
        (a = 0 ∧ Space L m' H R ∧ SetEntry H R r va (mkPte pa perm) m m') := by
  refine (mappages_page h hr hva hmod hinv).mono ?_
  rintro a m' (h | ⟨ha, m₁, t, hquiet, ht, rfl⟩)
  · exact Or.inl h
  · obtain ⟨hspace, hset⟩ := hquiet.space.setSpecial hr ht hown (mkPte_lt hpa hperm)
      fun _ => by rw [isR_mkPte]; exact hR
    exact Or.inr ⟨ha, hspace, hquiet.setEntry hset⟩

/-! ## Unmapping one page -/

theorem push_setPte_comm {p : ℕ} (h : t ≠ p) :
    (m.push p).setPte t i v = (m.setPte t i v).push p := by
  have hmem : Function.update (Function.update m.mem p (store 8 (fun _ => 1) 0 m.freelist)) t
      (store 8 (m.mem t) (8 * i) v) =
      Function.update (Function.update m.mem t (store 8 (m.mem t) (8 * i) v)) p
        (store 8 (fun _ => 1) 0 m.freelist) := Function.update_comm h.symm ..
  simp only [Phys.setPte, Phys.push, Phys.setPage, Function.update_of_ne h, hmem]

/-- `kfree(pa); *pte = 0;`: the page is freed while its entry still points to it, and the entry
is erased next. -/
theorem unmap_page (h : Space L m H R) (hr : r ∈ R) (ht : node m.mem r (dir va) = some t)
    (hV : isV (lookup m.mem r va)) (hown : Owns va) :
    Ensures (do kfree L (pte2pa (lookup m.mem r va)); writePte t (px 0 va) 0) m fun _ m' =>
      Space L m' H R ∧ SetEntry H R r va 0 m m' := by
  obtain ⟨free, ho⟩ := id h
  have hu : Uses m.mem r (path va) (pte2pa (lookup m.mem r va)) :=
    uses_path_iff.mpr ⟨hown, hV, rfl⟩
  have hpage := (ho.uses r hr _ _ hu).1
  have hne : t ≠ pte2pa (lookup m.mem r va) := by
    rintro heq
    have := (ho.unique r hr r hr _ _ t (.of_table (le_refl 2) (inTable_dir va) ht) (heq ▸ hu)).2
    exact absurd (congrArg List.length this) (by simp [dir, path])
  -- in the other order the page belongs to the kernel in between
  obtain ⟨hnH, hspace, hset⟩ := h.unmapLeaf hr ht hV hown
  obtain ⟨hspace', hframe'⟩ := (hspace.ensures_kfree hnH).of_run (kfree_run hpage _)
  refine .bind (.of_eq (kfree_run hpage m) (Q := fun _ m' => m' = m.push _) rfl) ?_
  rintro - m' rfl
  refine .modify ?_
  rw [push_setPte_comm hne]
  refine ⟨hspace', ?_⟩
  refine ⟨hset.frame.trans (hframe'.mono (le_refl _) Set.sdiff_subset), fun r' hr' va' => ?_⟩
  rw [hframe'.lookup_eq hr' va', hset.lookup_eq r' hr' va']

end Vm
end Xv6
