import Xv6.Vm.PageMap
import Xv6.Vm.Uvm

/-!
# Pages on their way into a page table and out of it

`Uvm` and `Grow` say what the functions of `kernel/vm.c` do to the owners of pages, for page tables
whose pages are all readable.  This module follows the pages themselves, and what is in them, for any
permissions.

A list of pages is followed through a call (`free₀`): `Holds` says that each of them is free, or in
the hands of the kernel, or a table of the tree, or mapped at one of the pages `a, …, k - 1`, and
only one of these.  Every step of the code moves one page: `kalloc`, `walk`, `mappages` and `kfree`
on the way up, `uvmunmap` on the way down.  `Fills` adds what the mapped pages hold.
-/

namespace Xv6
namespace Vm

open Bytes Program

variable {L : Layout} {m m₀ m₁ m' : Phys} {free free₀ free' : List ℕ} {H : Set ℕ} {M : PageMap}
  {r a k n t q e perm : ℕ}

/-! ## Where the pages are -/

/-- The places of the pages `free₀`: on the free list, in `H`, in the tables of `r`, or mapped at the
pages from `a` to `k`.  Outside of these the page table is `M`, and other pages are as in `m₀`. -/
structure Holds (L : Layout) (r a k : ℕ) (M : PageMap) (m₀ : Phys) (free₀ : List ℕ) (H : Set ℕ)
    (free : List ℕ) (m : Phys) : Prop where
  tables : Tables L m free {r}
  subset : ∀ p ∈ free, p ∈ free₀
  held : ∀ p ∈ H, p ∈ free₀ ∧ p ∉ free ∧ ∀ π, ¬ IsTable m.mem r π p
  leaf : ∀ j e, a ≤ j → j < k → pageMap m.mem r j = some e →
    pte2pa e ∈ free₀ ∧ pte2pa e ∉ free ∧ pte2pa e ∉ H ∧ ∀ π, ¬ IsTable m.mem r π (pte2pa e)
  once : ∀ j j' e e', a ≤ j → j < k → a ≤ j' → j' < k → pageMap m.mem r j = some e →
    pageMap m.mem r j' = some e' → pte2pa e = pte2pa e' → j = j'
  total : ∀ p ∈ free₀, p ∈ free ∨ p ∈ H ∨ (∃ π, IsTable m.mem r π p) ∨
    ∃ j e, a ≤ j ∧ j < k ∧ pageMap m.mem r j = some e ∧ pte2pa e = p
  table : ∀ π t, IsTable m.mem r π t → IsTable m₀.mem r π t ∨ t ∈ free₀
  outside : ∀ j, ¬ (a ≤ j ∧ j < k) → pageMap m.mem r j = M j
  kept : ∀ p ∉ free₀, (∀ π, ¬ IsTable m₀.mem r π p) → m.mem p = m₀.mem p

theorem Holds.refl (h : Tables L m free {r}) : Holds L r a a (pageMap m.mem r) m free ∅ free m where
  tables := h
  subset _ hp := hp
  held _ hp := absurd hp (Set.notMem_empty _)
  leaf _ _ h1 h2 := absurd h1 (by omega)
  once _ _ _ _ h1 h2 := absurd h1 (by omega)
  total _ hp := Or.inl hp
  table _ _ ht := Or.inl ht
  outside _ _ := rfl
  kept _ _ _ := rfl

/-- A page that was free is not written to by the code that runs on the tables of `m₀`. -/
theorem Holds.ne_of_kept (h : Holds L r a k M m₀ free₀ H free m) {p : ℕ} (hp : p ∉ free₀)
    (hnot : ∀ π, ¬ IsTable m₀.mem r π p) {π : Path} (ht : IsTable m.mem r π t) : p ≠ t := by
  rintro rfl
  exact (h.table π p ht).elim (hnot π) hp

theorem Holds.kalloc (h : Holds L r a k M m₀ free₀ H (q :: free') m) (hfree : FreeList L m₁ free')
    (hm : ∀ p, p ≠ q → m₁.mem p = m.mem p) (w : Mem) :
    Holds L r a k M m₀ free₀ (insert q H) free' (m₁.setPage q w) := by
  have hq : q ∈ q :: free' := List.mem_cons_self ..
  have hiff : ∀ π t, IsTable (m₁.setPage q w).mem r π t ↔ IsTable m.mem r π t := fun _ _ =>
    h.tables.isTable_kalloc hm rfl
  have hmap : pageMap (m₁.setPage q w).mem r = pageMap m.mem r :=
    pageMap_congr (h.tables.lookup_kalloc hm rfl)
  have hnot : ∀ p, p ∉ q :: free' → p ∉ free' := fun p hp hp' => hp (List.mem_cons_of_mem q hp')
  constructor
  · exact h.tables.kalloc hfree hm
  · exact fun p hp => h.subset p (List.mem_cons_of_mem q hp)
  · intro p hp
    simp only [hiff]
    rcases Set.mem_insert_iff.mp hp with rfl | hp
    · exact ⟨h.subset p hq, (List.nodup_cons.mp h.tables.freeList.nodup).1,
        h.tables.not_isTable r rfl⟩
    · obtain ⟨h0, hfree, htable⟩ := h.held p hp
      exact ⟨h0, hnot p hfree, htable⟩
  · intro j e ha hk he
    simp only [hiff]
    rw [hmap] at he
    obtain ⟨h0, hfree, hH, htable⟩ := h.leaf j e ha hk he
    refine ⟨h0, hnot _ hfree, fun hin => ?_, htable⟩
    rcases Set.mem_insert_iff.mp hin with heq | hin
    · exact hfree (heq ▸ hq)
    · exact hH hin
  · rw [hmap]
    exact h.once
  · intro p hp
    simp only [hiff, hmap]
    rcases h.total p hp with hfree | hH | hrest
    · rcases List.mem_cons.mp hfree with rfl | hfree
      · exact Or.inr (Or.inl (Set.mem_insert p H))
      · exact Or.inl hfree
    · exact Or.inr (Or.inl (Set.mem_insert_of_mem q hH))
    · exact Or.inr (Or.inr hrest)
  · simp only [hiff]
    exact h.table
  · rw [hmap]
    exact h.outside
  · intro p hp htable
    have hne : p ≠ q := fun heq => hp (heq ▸ h.subset q hq)
    rw [setPage_kalloc_of_ne hm hne, h.kept p hp htable]

theorem Holds.hang (h : Holds L r a k M m₀ free₀ H free m)
    (hh : Hangs L {r} n r free m free' m') : Holds L r a k M m₀ free₀ H free' m' := by
  have hmap : pageMap m'.mem r = pageMap m.mem r := pageMap_congr (hh.lookup_eq r rfl)
  have hnot : ∀ p, p ∉ free → (∀ π, ¬ IsTable m.mem r π p) → ∀ π, ¬ IsTable m'.mem r π p :=
    fun p hp htable π ht => (hh.new r rfl π p ht).elim (htable π) hp
  constructor
  · exact hh.tables
  · exact fun p hp => h.subset p (hh.subset hp)
  · intro p hp
    obtain ⟨h0, hfree, htable⟩ := h.held p hp
    exact ⟨h0, fun hp' => hfree (hh.subset hp'), hnot p hfree htable⟩
  · intro j e ha hk he
    rw [hmap] at he
    obtain ⟨h0, hfree, hH, htable⟩ := h.leaf j e ha hk he
    exact ⟨h0, fun hp' => hfree (hh.subset hp'), hH, hnot _ hfree htable⟩
  · rw [hmap]
    exact h.once
  · intro p hp
    rw [hmap]
    rcases h.total p hp with hfree | hH | ⟨π, ht⟩ | hleaf
    · rcases hh.used p hfree with hfree | ht
      · exact Or.inl hfree
      · exact Or.inr (Or.inr (Or.inl ht))
    · exact Or.inr (Or.inl hH)
    · exact Or.inr (Or.inr (Or.inl ⟨π, hh.table π p ht⟩))
    · exact Or.inr (Or.inr (Or.inr hleaf))
  · intro π t ht
    rcases hh.new r rfl π t ht with ht | hfree
    · exact h.table π t ht
    · exact Or.inr (h.subset t hfree)
  · rw [hmap]
    exact h.outside
  · intro p hp htable
    rw [hh.kept p (fun hp' => hp (h.subset p hp')) fun r hr π ht => ?_, h.kept p hp htable]
    rw [Set.mem_singleton_iff.mp hr] at ht
    exact h.ne_of_kept hp htable ht rfl

theorem Holds.kfree (h : Holds L r a k M m₀ free₀ (insert q H) free m) (hq : q ∉ H)
    (hfree₀ : ∀ p ∈ free₀, L.Page p) : Holds L r a k M m₀ free₀ H (q :: free) (m.push q) := by
  obtain ⟨hq0, hqfree, hqtable⟩ := h.held q (Set.mem_insert q H)
  have hkept : ∀ π t, IsTable m.mem r π t → (m.push q).mem t = m.mem t := fun π t ht =>
    Phys.push_mem_of_ne fun heq => hqtable π (heq ▸ ht)
  have hiff : ∀ π t, IsTable (m.push q).mem r π t ↔ IsTable m.mem r π t := fun _ _ =>
    isTable_of_tables hkept
  have hmap : pageMap (m.push q).mem r = pageMap m.mem r :=
    pageMap_congr (lookup_of_tables fun π t hlen hπ hn => hkept π t ⟨hlen, hπ, hn⟩)
  constructor
  · refine h.tables.push (hfree₀ q hq0) hqfree fun r hr π => ?_
    rw [Set.mem_singleton_iff.mp hr]
    exact hqtable π
  · intro p hp
    rcases List.mem_cons.mp hp with rfl | hp
    · exact hq0
    · exact h.subset p hp
  · intro p hp
    simp only [hiff]
    obtain ⟨h0, hfree, htable⟩ := h.held p (Set.mem_insert_of_mem q hp)
    refine ⟨h0, fun hmem => ?_, htable⟩
    rcases List.mem_cons.mp hmem with rfl | hmem
    · exact hq hp
    · exact hfree hmem
  · intro j e ha hk he
    simp only [hiff]
    rw [hmap] at he
    obtain ⟨h0, hfree, hH, htable⟩ := h.leaf j e ha hk he
    refine ⟨h0, fun hmem => ?_, fun hin => hH (Set.mem_insert_of_mem q hin), htable⟩
    rcases List.mem_cons.mp hmem with heq | hmem
    · exact hH (heq ▸ Set.mem_insert q H)
    · exact hfree hmem
  · rw [hmap]
    exact h.once
  · intro p hp
    simp only [hiff, hmap]
    rcases h.total p hp with hfree | hH | hrest
    · exact Or.inl (List.mem_cons_of_mem q hfree)
    · rcases Set.mem_insert_iff.mp hH with rfl | hH
      · exact Or.inl (List.mem_cons_self ..)
      · exact Or.inr (Or.inl hH)
    · exact Or.inr (Or.inr hrest)
  · simp only [hiff]
    exact h.table
  · rw [hmap]
    exact h.outside
  · intro p hp htable
    have hne : p ≠ q := fun heq => hp (heq ▸ hq0)
    rw [Phys.push_mem_of_ne hne, h.kept p hp htable]

theorem Holds.mapLeaf (h : Holds L r a k M m₀ free₀ (insert q H) free m) (hq : q ∉ H)
    (hpage : L.Page q) (hperm : perm < 1024) (ha : a ≤ k) (hk : 4096 * k < MAXVA)
    (ht : node m.mem r (dir (4096 * k)) = some t) :
    Holds L r a (k + 1) M m₀ free₀ H free (m.setPte t (px 0 (4096 * k)) (mkPte q perm)) := by
  obtain ⟨hq0, hqfree, hqtable⟩ := h.held q (Set.mem_insert q H)
  have hiff : ∀ π u, IsTable (m.setPte t (px 0 (4096 * k)) (mkPte q perm)).mem r π u ↔
      IsTable m.mem r π u := fun _ _ => h.tables.isTable_setLeaf rfl ht rfl
  have hpa : pte2pa (mkPte q perm) = q := pte2pa_mkPte hpage.lt hpage.1 hperm
  have hmap : ∀ j, pageMap (m.setPte t (px 0 (4096 * k)) (mkPte q perm)).mem r j =
      if j = k then some (mkPte q perm) else pageMap m.mem r j := by
    intro j
    rw [h.tables.pageMap_setPte rfl hk ht (mkPte_lt (lt_trans hpage.lt (by decide)) hperm),
      if_pos isV_mkPte, PageMap.set, show 4096 * k / 4096 = k by omega]
    exact if_congr (by omega) rfl rfl
  constructor
  · exact h.tables.setLeaf rfl ht
  · exact h.subset
  · intro p hp
    simp only [hiff]
    exact h.held p (Set.mem_insert_of_mem q hp)
  · intro j e hj hjk he
    simp only [hiff]
    rw [hmap j] at he
    split at he
    · cases he
      rw [hpa]
      exact ⟨hq0, hqfree, hq, hqtable⟩
    · obtain ⟨h0, hfree, hH, htable⟩ := h.leaf j e hj (by omega) he
      exact ⟨h0, hfree, fun hin => hH (Set.mem_insert_of_mem q hin), htable⟩
  · -- the new page is not mapped yet
    have hfresh : ∀ j e, a ≤ j → j < k → pageMap m.mem r j = some e → pte2pa e ≠ q :=
      fun j e hj hjk he heq => (h.leaf j e hj hjk he).2.2.1 (heq ▸ Set.mem_insert q H)
    intro j j' e e' hj hjk hj' hjk' he he' heq
    rw [hmap j] at he
    rw [hmap j'] at he'
    split at he <;> split at he'
    · omega
    · cases he
      rw [hpa] at heq
      exact absurd heq.symm (hfresh j' e' hj' (by omega) he')
    · cases he'
      rw [hpa] at heq
      exact absurd heq (hfresh j e hj (by omega) he)
    · exact h.once j j' e e' hj (by omega) hj' (by omega) he he' heq
  · intro p hp
    simp only [hiff, hmap]
    rcases h.total p hp with hfree | hH | htable | ⟨j, e, hj, hjk, he, hpe⟩
    · exact Or.inl hfree
    · rcases Set.mem_insert_iff.mp hH with rfl | hH
      · exact Or.inr (Or.inr (Or.inr ⟨k, _, ha, by omega, if_pos rfl, hpa⟩))
      · exact Or.inr (Or.inl hH)
    · exact Or.inr (Or.inr (Or.inl htable))
    · refine Or.inr (Or.inr (Or.inr ⟨j, e, hj, by omega, ?_, hpe⟩))
      rw [if_neg (by omega), he]
  · simp only [hiff]
    exact h.table
  · intro j hj
    rw [hmap j, if_neg (by omega)]
    exact h.outside j (by omega)
  · intro p hp htable
    rw [Phys.setPte, Phys.setPage_mem_of_ne (h.ne_of_kept hp htable (isTable_dir ht)),
      h.kept p hp htable]

theorem Holds.unmapLeaf (h : Holds L r a k M m₀ free₀ H free m) (hak : a < k)
    (ha : 4096 * a < MAXVA) (hzero : M a = none)
    (he : pageMap m.mem r a = some e) (ht : node m.mem r (dir (4096 * a)) = some t) :
    Holds L r (a + 1) k M m₀ free₀ (insert (pte2pa e) H) free
      (m.setPte t (px 0 (4096 * a)) 0) := by
  obtain ⟨hq0, hqfree, hqH, hqtable⟩ := h.leaf a e (le_refl a) hak he
  have hiff : ∀ π u, IsTable (m.setPte t (px 0 (4096 * a)) 0).mem r π u ↔
      IsTable m.mem r π u := fun _ _ => h.tables.isTable_setLeaf rfl ht rfl
  have hmap : ∀ j, pageMap (m.setPte t (px 0 (4096 * a)) 0).mem r j =
      if j = a then none else pageMap m.mem r j := by
    intro j
    rw [h.tables.pageMap_setPte rfl ha ht (by decide), if_neg (by simp [isV_zero]), PageMap.remove,
      show 4096 * a / 4096 = a by omega]
    exact if_congr (by omega) rfl rfl
  constructor
  · exact h.tables.setLeaf rfl ht
  · exact h.subset
  · intro p hp
    simp only [hiff]
    rcases Set.mem_insert_iff.mp hp with rfl | hp
    · exact ⟨hq0, hqfree, hqtable⟩
    · exact h.held p hp
  · intro j e' hj hjk he'
    simp only [hiff]
    rw [hmap j, if_neg (by omega)] at he'
    obtain ⟨h0, hfree, hH, htable⟩ := h.leaf j e' (by omega) hjk he'
    refine ⟨h0, hfree, fun hin => ?_, htable⟩
    rcases Set.mem_insert_iff.mp hin with heq | hin
    · have := h.once j a e' e (by omega) hjk (le_refl a) hak he' he heq
      omega
    · exact hH hin
  · intro j j' e₁ e₂ hj hjk hj' hjk' he₁ he₂ heq
    rw [hmap j, if_neg (by omega)] at he₁
    rw [hmap j', if_neg (by omega)] at he₂
    exact h.once j j' e₁ e₂ (by omega) hjk (by omega) hjk' he₁ he₂ heq
  · intro p hp
    simp only [hiff, hmap]
    rcases h.total p hp with hfree | hH | htable | ⟨j, e', hj, hjk, he', hpe⟩
    · exact Or.inl hfree
    · exact Or.inr (Or.inl (Set.mem_insert_of_mem _ hH))
    · exact Or.inr (Or.inr (Or.inl htable))
    · by_cases hja : j = a
      · rw [hja, he, Option.some.injEq] at he'
        rw [← hpe, ← he']
        exact Or.inr (Or.inl (Set.mem_insert ..))
      · refine Or.inr (Or.inr (Or.inr ⟨j, e', by omega, hjk, ?_, hpe⟩))
        rw [if_neg hja, he']
  · simp only [hiff]
    exact h.table
  · intro j hj
    rw [hmap j]
    split
    · rename_i hja
      rw [hja, hzero]
    · exact h.outside j (by omega)
  · intro p hp htable
    rw [Phys.setPte, Phys.setPage_mem_of_ne (h.ne_of_kept hp htable (isTable_dir ht)),
      h.kept p hp htable]

theorem Holds.skip (h : Holds L r a k M m₀ free₀ H free m) (hzero : M a = none)
    (he : pageMap m.mem r a = none) : Holds L r (a + 1) k M m₀ free₀ H free m where
  tables := h.tables
  subset := h.subset
  held := h.held
  leaf j e hj hjk := h.leaf j e (by omega) hjk
  once j j' e e' hj hjk hj' hjk' := h.once j j' e e' (by omega) hjk (by omega) hjk'
  total p hp := by
    refine (h.total p hp).imp_right (Or.imp_right (Or.imp_right ?_))
    rintro ⟨j, e, hj, hjk, hje, hpe⟩
    have hja : j ≠ a := by
      rintro rfl
      exact nomatch he.symm.trans hje
    exact ⟨j, e, by omega, hjk, hje, hpe⟩
  table := h.table
  outside j hj := by
    by_cases hja : j = a
    · rw [hja, he, hzero]
    · exact h.outside j (by omega)
  kept := h.kept

/-! ## The way down -/

theorem Holds.free_leaf (h : Holds L r a k M m₀ free₀ ∅ free m) (hak : a < k)
    (ha : 4096 * a < MAXVA) (hfree₀ : ∀ p ∈ free₀, L.Page p) (hzero : M a = none)
    (he : pageMap m.mem r a = some e) (ht : node m.mem r (dir (4096 * a)) = some t) :
    Ensures (do Vm.kfree L (pte2pa e); writePte t (px 0 (4096 * a)) 0) m fun _ m' =>
      Holds L r (a + 1) k M m₀ free₀ ∅ (pte2pa e :: free) m' ∧
        ∀ π u, IsTable m'.mem r π u ↔ IsTable m.mem r π u := by
  obtain ⟨hq0, -, -, hqtable⟩ := h.leaf a e (le_refl a) hak he
  have hne : t ≠ pte2pa e := fun heq => hqtable _ (heq ▸ isTable_dir ht)
  refine .bind (.of_eq (kfree_run (hfree₀ _ hq0) m) (Q := fun _ m' => m' = m.push _) rfl) ?_
  rintro - m₁ rfl
  refine .modify ?_
  -- in the other order the page belongs to the kernel in between
  rw [push_setPte_comm hne]
  have hunmap := h.unmapLeaf hak ha hzero he ht
  refine ⟨hunmap.kfree (Set.notMem_empty _) hfree₀, fun π u => ?_⟩
  rw [isTable_of_tables fun π u hu => Phys.push_mem_of_ne fun heq => ?_]
  · exact h.tables.isTable_setLeaf rfl ht rfl
  · exact (hunmap.held _ (Set.mem_insert ..)).2.2 π (heq ▸ hu)

theorem Holds.uvmunmapFrom (hk : 4096 * k ≤ MAXVA) (hfree₀ : ∀ p ∈ free₀, L.Page p)
    (hzero : ∀ j, a ≤ j → j < k → M j = none) (hn : a + n = k)
    (h : Holds L r a k M m₀ free₀ ∅ free m) :
    Ensures (uvmunmapFrom L r true n (4096 * a)) m fun _ m' =>
      ∃ free', Holds L r k k M m₀ free₀ ∅ free' m' ∧
        ∀ π t, IsTable m'.mem r π t ↔ IsTable m.mem r π t := by
  induction n generalizing a m free with
  | zero =>
    obtain rfl : a = k := hn
    exact .pure ⟨free, h, fun _ _ => Iff.rfl⟩
  | succ n ih =>
    have ha : 4096 * a < MAXVA := by omega
    have hentry : pageMap m.mem r a = _ :=
      (congrArg _ (show a = 4096 * a / 4096 by omega)).trans (pageMap_of_lookup ha)
    have hzero' : ∀ j, a + 1 ≤ j → j < k → M j = none := fun j hj => hzero j (by omega)
    have hnext : 4096 * a + 4096 = 4096 * (a + 1) := by omega
    rw [Vm.uvmunmapFrom, hnext]
    have hskip : isV (lookup m.mem r (4096 * a)) = false →
        Ensures (Vm.uvmunmapFrom L r true n (4096 * (a + 1))) m fun _ m' =>
          ∃ free', Holds L r k k M m₀ free₀ ∅ free' m' ∧
            ∀ π t, IsTable m'.mem r π t ↔ IsTable m.mem r π t := by
      intro hV
      refine ih hzero' (by omega) (h.skip (hzero a (le_refl a) (by omega)) ?_)
      rw [hentry, hV]
      rfl
    refine ensures_walk_false_bind ha (fun hn => hskip ?_) fun t ht => ensures_readPte_bind ?_
    · rw [lookup_of_node_none hn, isV_zero]
    rw [← lookup_of_node ht]
    refine .ite (fun hV => hskip (by simpa using hV)) fun hV => ?_
    rw [if_pos (by simpa using hV)] at hentry
    rw [freeIf, if_pos rfl, ← bind_assoc]
    refine .bind (h.free_leaf (by omega) ha hfree₀ (hzero a (le_refl a) (by omega)) hentry ht) ?_
    rintro - m₁ ⟨h₁, hiff⟩
    refine (ih hzero' (by omega) h₁).mono ?_
    rintro - m' ⟨free', h', hiff'⟩
    exact ⟨free', h', fun π t => (hiff' π t).trans (hiff π t)⟩

/-- **`uvmunmap` gives every page of the range back**, and takes no table. -/
theorem Holds.uvmunmap (hk : 4096 * k ≤ MAXVA) (hfree₀ : ∀ p ∈ free₀, L.Page p)
    (hzero : ∀ j, a ≤ j → j < k → M j = none) (hn : a + n = k)
    (h : Holds L r a k M m₀ free₀ ∅ free m) :
    Ensures (uvmunmap L r (4096 * a) n true) m fun _ m' =>
      ∃ free', Holds L r k k M m₀ free₀ ∅ free' m' ∧
        ∀ π t, IsTable m'.mem r π t ↔ IsTable m.mem r π t := by
  rw [Vm.uvmunmap, if_neg (by omega), u64_turns (by omega)]
  exact h.uvmunmapFrom hk hfree₀ hzero hn

/-! ## The way up -/

/-- The pages that are to be mapped: their permissions and contents. -/
abbrev Target := ℕ → Option (ℕ × Mem)

/-- The pages from `a` to `k` of the target have been mapped. -/
structure Fills (L : Layout) (r a k : ℕ) (T : Target) (M : PageMap) (m₀ : Phys)
    (free₀ free : List ℕ) (m : Phys) : Prop extends Holds L r a k M m₀ free₀ ∅ free m where
  hole : ∀ j, a ≤ j → j < k → T j = none → pageMap m.mem r j = none
  page : ∀ j perm w, a ≤ j → j < k → T j = some (perm, w) → ∃ q, L.Page q ∧
    pageMap m.mem r j = some (mkPte q perm) ∧ m.mem q = w

variable {T : Target} {w : Mem}

theorem Fills.refl (h : Tables L m free {r}) :
    Fills L r a a T (pageMap m.mem r) m free free m where
  toHolds := .refl h
  hole _ h1 h2 := absurd h1 (by omega)
  page _ _ _ h1 h2 := absurd h1 (by omega)

theorem Fills.skip (h : Fills L r a k T M m₀ free₀ free m) (hT : T k = none) (hM : M k = none) :
    Fills L r a (k + 1) T M m₀ free₀ free m := by
  have hnone : pageMap m.mem r k = none := (h.outside k (by omega)).trans hM
  have hlt : ∀ j e, j < k + 1 → pageMap m.mem r j = some e → j < k := by
    intro j e hj he
    have hjk : j ≠ k := by
      rintro rfl
      exact nomatch hnone.symm.trans he
    omega
  refine ⟨⟨h.tables, h.subset, h.held, fun j e hj hjk he => h.leaf j e hj (hlt j e hjk he) he,
    fun j j' e e' hj hjk hj' hjk' he he' =>
      h.once j j' e e' hj (hlt j e hjk he) hj' (hlt j' e' hjk' he') he he', fun p hp => ?_, h.table,
    fun j hj => h.outside j (by omega), h.kept⟩, fun j hj hjk hTj => ?_,
    fun j perm w hj hjk hTj => ?_⟩
  · refine (h.total p hp).imp_right (Or.imp_right (Or.imp_right ?_))
    rintro ⟨j, e, hj, hjk, hrest⟩
    exact ⟨j, e, hj, by omega, hrest⟩
  · by_cases heq : j = k
    · rw [heq, hnone]
    · exact h.hole j hj (by omega) hTj
  · have hne : j ≠ k := by
      rintro rfl
      exact nomatch hT.symm.trans hTj
    exact h.page j perm w hj (by omega) hTj

theorem Fills.snoc (h : Fills L r a k T M m₀ free₀ free m)
    (h' : Holds L r a (k + 1) M m₀ free₀ ∅ free' m') (hpage : L.Page q) (hperm : ∀ j perm w,
      T j = some (perm, w) → perm < 1024) (hT : T k = some (perm, w))
    (hmap : ∀ j, pageMap m'.mem r j = if j = k then some (mkPte q perm) else pageMap m.mem r j)
    (hw : m'.mem q = w)
    (hkept : ∀ j e, a ≤ j → j < k → pageMap m.mem r j = some e →
      m'.mem (pte2pa e) = m.mem (pte2pa e)) : Fills L r a (k + 1) T M m₀ free₀ free' m' := by
  refine ⟨h', fun j hj hjk hTj => ?_, fun j perm' w' hj hjk hTj => ?_⟩
  · have hne : j ≠ k := by
      rintro rfl
      exact nomatch hTj.symm.trans hT
    rw [hmap j, if_neg hne]
    exact h.hole j hj (by omega) hTj
  · rw [hmap j]
    split
    · rename_i heq
      rw [heq, hT, Option.some.injEq, Prod.mk.injEq] at hTj
      obtain ⟨rfl, rfl⟩ := hTj
      exact ⟨q, hpage, rfl, hw⟩
    · obtain ⟨q', hpage', hq', hw'⟩ := h.page j perm' w' hj (by omega) hTj
      have hsame := hkept j _ hj (by omega) hq'
      rw [pte2pa_mkPte hpage'.lt hpage'.1 (hperm j perm' w' hTj)] at hsame
      exact ⟨q', hpage', hq', hsame.trans hw'⟩

/-- **One page more.**  The program is what the turns of `uvmcopy` and `uvmalloc` have in common: a
page is allocated, filled by `F` and mapped.  If there is no page for the data or for a table,
nothing has changed once the page is given back, and there are two free pages at most. -/
theorem Fills.ensures_mapPage {β : Type} {Q : β → Phys → Prop} {F : ℕ → VmM Unit} {X : VmM β}
    {Y Z : ℕ → VmM β} (h : Fills L r a k T M m₀ free₀ free m) (ha : a ≤ k)
    (hk : 4096 * k < MAXVA) (hfree₀ : ∀ p ∈ free₀, L.Page p)
    (hperm : ∀ j perm w, T j = some (perm, w) → perm < 1024) (hM : M k = none)
    (hT : T k = some (perm, w))
    (hF : ∀ q m₁, q ∈ free₀ → (∀ p, p ≠ q → m₁.mem p = m.mem p) →
      F q m₁ = .ok ((), m₁.setPage q w))
    (hX : free = [] → Ensures X m Q)
    (hY : ∀ q m', L.Page q → (∃ free', free'.length ≤ 2 ∧
      Holds L r a k M m₀ free₀ ∅ free' (m'.push q)) → Ensures (Y q) m' Q)
    (hZ : ∀ q m', L.Page q → pageMap m'.mem r k = some (mkPte q perm) →
      (∃ free', Fills L r a (k + 1) T M m₀ free₀ free' m') → Ensures (Z q) m' Q) :
    Ensures (do
      let q ← kalloc
      if q = 0 then X
      else
        F q
        let res ← mappages r (4096 * k) 4096 q perm
        if res ≠ 0 then Y q else Z q) m Q := by
  refine .bind (kalloc_spec h.tables.freeList) ?_
  rintro q m₁ (⟨rfl, rfl, rfl⟩ | ⟨free₁, rfl, hfree₁, hm⟩)
  · exact .ite (fun _ => hX rfl) fun h0 => absurd rfl h0
  have hq : q ∈ q :: free₁ := List.mem_cons_self ..
  have hpage := h.tables.freeList.page q hq
  refine .ite (fun h0 => absurd h0 hpage.ne_zero) fun _ =>
    .bind (.of_eq (hF q m₁ (h.subset q hq) hm) (Q := fun _ m' => m' = m₁.setPage q w) rfl) ?_
  rintro - m₂ rfl
  have hempty : q ∉ (∅ : Set ℕ) := Set.notMem_empty q
  have hlt := hperm k perm w hT
  have h₂ := h.toHolds.kalloc hfree₁ hm w
  have hinv : isV (lookup (m₁.setPage q w).mem r (4096 * k)) = false := by
    have hnone := (h₂.outside k (by omega)).trans hM
    rw [show k = 4096 * k / 4096 by omega, pageMap_of_lookup hk] at hnone
    exact Bool.eq_false_iff.mpr fun hV => nomatch (if_pos hV).symm.trans hnone
  refine .bind (mappages_hangs h₂.tables rfl hk (by omega) hinv) ?_
  rintro res m₄ ⟨free₃, m₃, hhangs, ⟨rfl, rfl, hshort⟩ | ⟨rfl, t, ht, rfl⟩⟩
  · have hlen : (q :: free₃).length ≤ 2 := by
      obtain ⟨used, rfl, -⟩ := hhangs.taken
      rw [List.length_append] at hshort
      rw [List.length_cons]
      omega
    exact .ite (fun _ => hY q m₄ hpage ⟨_, hlen, (h₂.hang hhangs).kfree hempty hfree₀⟩)
      fun h0 => absurd h0 (by decide)
  have hself : pageMap (m₃.setPte t (px 0 (4096 * k)) (mkPte q perm)).mem r k =
      some (mkPte q perm) := by
    rw [hhangs.tables.pageMap_setPte rfl hk ht (mkPte_lt (lt_trans hpage.lt (by decide)) hlt),
      if_pos isV_mkPte, PageMap.set, if_pos (by omega)]
  refine .ite (fun h0 => absurd rfl h0) fun _ => hZ q _ hpage hself ⟨free₃, ?_⟩
  have h₃ := (h₂.hang hhangs).mapLeaf hempty hpage hlt ha hk ht
  -- the same turn, seen from its own start
  have hturn := (((Holds.refl (a := k) h.tables).kalloc hfree₁ hm w).hang hhangs).mapLeaf hempty
    hpage hlt (le_refl k) hk ht
  refine h.snoc h₃ hpage hperm hT (fun j => ?_) ?_ fun j e hj hjk he => ?_
  · split
    · rename_i hjk
      rw [hjk, hself]
    · exact hturn.outside j (by omega)
  · obtain ⟨-, -, hqtable⟩ := (h₂.hang hhangs).held q (Set.mem_insert q ∅)
    obtain ⟨-, hqfree, hqtable₂⟩ := h₂.held q (Set.mem_insert q ∅)
    have hne : q ≠ t := fun heq => hqtable _ (heq ▸ isTable_dir ht)
    rw [Phys.setPte, Phys.setPage_mem_of_ne hne, hhangs.kept q hqfree fun r' hr' π => ?_]
    · exact Phys.setPage_mem_self ..
    · rw [Set.mem_singleton_iff.mp hr']
      exact hqtable₂ π
  · obtain ⟨-, hfree, -, htable⟩ := h.leaf j e hj hjk he
    exact hturn.kept _ hfree htable

end Vm
end Xv6
