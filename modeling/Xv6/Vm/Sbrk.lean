import Xv6.Vm.Uvmcopy

/-!
# `sbrk`

`sys_sbrk` changes the size of a process by a signed 32-bit number, eagerly or lazily.  Growing fills
the pages between the two sizes with zeroes (`uvmalloc`), or only raises the size; shrinking unmaps
the pages above the new size and frees them (`uvmdealloc`).  When memory runs out half-way, `uvmalloc`
takes back what it has mapped.

`growproc` and `sys_sbrk` compute the new size with 64 bits.  A size never exceeds `TRAPFRAME`, so a
sum with a positive number does not wrap around; a sum that would be negative does, to a number that
is larger than the old size, and `uvmdealloc` then leaves the process as it is.
-/

namespace Xv6
namespace Vm

open Bytes Program Slots

variable {L : Layout} {m m₀ m' : Phys} {free free₀ free' : List ℕ} {M : PageMap}
  {r a k n e xperm oldsz newsz : ℕ}

/-! ## Shrinking -/

/-- **`uvmdealloc`** gives the pages from `a` to `k` back. -/
theorem Holds.uvmdealloc (hk : 4096 * k ≤ MAXVA) (hfree₀ : ∀ p ∈ free₀, L.Page p)
    (hzero : ∀ j, a ≤ j → j < k → M j = none) (ha : a ≤ k) (hle : newsz ≤ oldsz)
    (hold : pgRoundUp oldsz = 4096 * k) (hnew : pgRoundUp newsz = 4096 * a)
    (h : Holds L r a k M m₀ free₀ ∅ free m) :
    Ensures (uvmdealloc L r oldsz newsz) m fun res m' => res = newsz ∧
      ∃ free', Holds L r k k M m₀ free₀ ∅ free' m' ∧
        ∀ π t, IsTable m'.mem r π t ↔ IsTable m.mem r π t := by
  have hmax := MAXVA_eq
  -- no page lies between the two sizes
  have hsame : a = k → ∃ free', Holds L r k k M m₀ free₀ ∅ free' m ∧
      ∀ π t, IsTable m.mem r π t ↔ IsTable m.mem r π t := by
    rintro rfl
    exact ⟨free, h, fun _ _ => Iff.rfl⟩
  rw [Vm.uvmdealloc]
  refine .ite (fun hge => ?_) fun hlt => .ite (fun hround => ?_) fun hround => ?_
  · obtain rfl : oldsz = newsz := by omega
    exact .pure ⟨rfl, hsame (by omega)⟩
  · rw [hold, hnew, show (4096 * k - 4096 * a) / 4096 = k - a by omega, intToU64_of_lt (by omega)]
    refine .bind (h.uvmunmap hk hfree₀ hzero (by omega)) fun _ m' hm' => ?_
    exact .pure ⟨rfl, hm'⟩
  · exact .pure ⟨rfl, hsame (by omega)⟩

/-- The pages that are mapped from `a` to `k`. -/
def mappedPages (m : Phys) (r a k : ℕ) : List ℕ :=
  (List.range k).filterMap fun j => if a ≤ j then (pageMap m.mem r j).map pte2pa else none

theorem mem_mappedPages {p : ℕ} : p ∈ mappedPages m r a k ↔
    ∃ j e, a ≤ j ∧ j < k ∧ pageMap m.mem r j = some e ∧ pte2pa e = p := by
  rw [mappedPages, List.mem_filterMap]
  constructor
  · rintro ⟨j, hj, hp⟩
    split at hp
    · rename_i haj
      obtain ⟨e, he, heq⟩ := Option.map_eq_some_iff.mp hp
      exact ⟨j, e, haj, List.mem_range.mp hj, he, heq⟩
    · exact nomatch hp
  · rintro ⟨j, e, haj, hj, he, heq⟩
    refine ⟨j, List.mem_range.mpr hj, ?_⟩
    rw [if_pos haj, he, Option.map_some, heq]

theorem Tables.holds (h : Tables L m free {r})
    (hleaf : ∀ j e, a ≤ j → j < k → pageMap m.mem r j = some e →
      pte2pa e ∉ free ∧ ∀ π, ¬ IsTable m.mem r π (pte2pa e))
    (honce : ∀ j j' e e', a ≤ j → j < k → a ≤ j' → j' < k → pageMap m.mem r j = some e →
      pageMap m.mem r j' = some e' → pte2pa e = pte2pa e' → j = j') :
    Holds L r a k ((pageMap m.mem r).remove a (k - a)) m (free ++ mappedPages m r a k) ∅ free m where
  tables := h
  subset p hp := List.mem_append_left _ hp
  held p hp := absurd hp (Set.notMem_empty p)
  leaf j e hj hjk he := by
    obtain ⟨hfree, htable⟩ := hleaf j e hj hjk he
    exact ⟨List.mem_append_right _ (mem_mappedPages.mpr ⟨j, e, hj, hjk, he, rfl⟩), hfree,
      Set.notMem_empty _, htable⟩
  once := honce
  total p hp := by
    rcases List.mem_append.mp hp with hp | hp
    · exact Or.inl hp
    · exact Or.inr (Or.inr (Or.inr (mem_mappedPages.mp hp)))
  table π t ht := Or.inl ht
  outside j hj := by rw [PageMap.remove, if_neg (by omega)]
  kept _ _ _ := rfl

/-! ## Growing -/

/-- Pages of zeroes. -/
def zeroTarget (xperm : ℕ) : Target := fun _ => some (PTE_R ||| PTE_U ||| xperm, fun _ => 0)

theorem pgRoundUp_mul (h : 4096 * k ≤ MAXVA) : pgRoundUp (4096 * k) = 4096 * k := by
  rw [pgRoundUp_eq h]
  omega

theorem uvmallocFrom_fills {N : ℕ} (newsz : ℕ) (hN : 4096 * N ≤ MAXVA)
    (hfree₀ : ∀ p ∈ free₀, L.Page p) (hM : ∀ j, a ≤ j → j < N → M j = none) (hx : xperm < 1024)
    (ha : a ≤ k) (hn : k + n = N) (h : Fills L r a k (zeroTarget xperm) M m₀ free₀ free m) :
    Ensures (uvmallocFrom L r (4096 * a) newsz xperm n (4096 * k)) m fun res m' => ∃ free',
      (res = newsz ∧ Fills L r a N (zeroTarget xperm) M m₀ free₀ free' m') ∨
        (res = 0 ∧ ∃ k, Holds L r k k M m₀ free₀ ∅ free' m') := by
  induction n generalizing k m free with
  | zero =>
    obtain rfl : k = N := hn
    exact .pure ⟨free, Or.inl ⟨rfl, h⟩⟩
  | succ n ih =>
    have hk : 4096 * k < MAXVA := by omega
    have hnext : 4096 * k + 4096 = 4096 * (k + 1) := by omega
    have hperm : PTE_R ||| PTE_U ||| xperm < 1024 :=
      Nat.or_lt_two_pow (n := 10) (by decide) hx
    -- every failure ends like this
    have hfail : ∀ m₁ free₁, Holds L r a k M m₀ free₀ ∅ free₁ m₁ →
        Ensures (do let _ ← uvmdealloc L r (4096 * k) (4096 * a); return 0) m₁ fun res m' =>
          ∃ free', (res = newsz ∧ Fills L r a N (zeroTarget xperm) M m₀ free₀ free' m') ∨
            (res = 0 ∧ ∃ k, Holds L r k k M m₀ free₀ ∅ free' m') := by
      intro m₁ free₁ h₁
      refine .bind (h₁.uvmdealloc hk.le hfree₀ (fun j hj hjk => hM j hj (by omega)) ha (by omega)
        (pgRoundUp_mul hk.le) (pgRoundUp_mul (by omega))) ?_
      rintro - m' ⟨-, free', hheld, -⟩
      exact .pure ⟨free', Or.inr ⟨rfl, k, hheld⟩⟩
    rw [uvmallocFrom, hnext]
    refine h.ensures_mapPage ha hk hfree₀ (fun _ _ _ hT => ?_) (hM k ha (by omega)) rfl
      (F := fun q => memset q 0) (Z := fun _ => uvmallocFrom L r (4096 * a) newsz xperm n _)
      (fun _ _ _ _ => rfl) (fun _ => hfail _ _ h.toHolds) (fun q m₁ hpage hheld => ?_) fun q m₁ _ _ hfills => ?_
    · obtain ⟨rfl, -⟩ := Prod.mk.inj (Option.some.inj hT)
      exact hperm
    · refine .bind (.of_eq (kfree_run hpage m₁) (Q := fun _ m' => m' = m₁.push q) rfl) ?_
      rintro - m₂ rfl
      obtain ⟨free', -, hheld⟩ := hheld
      exact hfail _ _ hheld
    · obtain ⟨free', hfills⟩ := hfills
      exact ih (by omega) (by omega) hfills

/-- **`uvmalloc`** fills the pages between the two sizes with zeroes, or maps nothing. -/
theorem uvmalloc_fills (htables : Tables L m free {r}) (hx : xperm < 1024) (hle : oldsz ≤ newsz)
    (hnew : newsz ≤ TRAPFRAME)
    (hM : ∀ j, pgRoundUp oldsz ≤ 4096 * j → 4096 * j < TRAPFRAME → pageMap m.mem r j = none) :
    Ensures (uvmalloc L r oldsz newsz xperm) m fun res m' => ∃ free',
      (res = newsz ∧ Fills L r (pgRoundUp oldsz / 4096) (pgRoundUp newsz / 4096) (zeroTarget xperm)
        (pageMap m.mem r) m free free' m') ∨
        (res = 0 ∧ ∃ k, Holds L r k k (pageMap m.mem r) m free ∅ free' m') := by
  have hframe := TRAPFRAME_eq
  have hmax := MAXVA_eq
  have hold : pgRoundUp oldsz = (oldsz + 4095) / 4096 * 4096 := pgRoundUp_eq (by omega)
  have hround : pgRoundUp newsz = (newsz + 4095) / 4096 * 4096 := pgRoundUp_eq (by omega)
  have hpages : pgRoundUp oldsz = 4096 * (pgRoundUp oldsz / 4096) := by omega
  rw [uvmalloc, if_neg (by omega)]
  have hrun := uvmallocFrom_fills (a := pgRoundUp oldsz / 4096) (N := pgRoundUp newsz / 4096)
    (n := (newsz - pgRoundUp oldsz + 4095) / 4096) newsz (by omega) htables.freeList.page
    (fun j hj hjk => hM j (by omega) (by omega)) hx (le_refl _) (by omega)
    (.refl (T := zeroTarget xperm) htables)
  rw [← hpages] at hrun
  exact hrun

/-! ## The process -/

/-- The pages below `b` are mapped as they were, and hold what they held. -/
def SamePages (r b : ℕ) (m m' : Phys) : Prop :=
  ∀ j, 4096 * j < b → pageMap m'.mem r j = pageMap m.mem r j ∧
    ∀ e, pageMap m.mem r j = some e → m'.mem (pte2pa e) = m.mem (pte2pa e)

/-- After a shrink to `newsz`: no page of the user is mapped from `PGROUNDUP(newsz)` on, and what was
there is what has been freed. -/
structure Shrunk (L : Layout) (r newsz : ℕ) (m m' : Phys) : Prop where
  empty : ∀ j, pgRoundUp newsz ≤ 4096 * j → 4096 * j < TRAPFRAME → pageMap m'.mem r j = none
  freed : ∃ free free', FreeList L m free ∧ FreeList L m' free' ∧ ∀ p, p ∈ free' ↔
    p ∈ free ∨ ∃ j e, pgRoundUp newsz ≤ 4096 * j ∧ 4096 * j < TRAPFRAME ∧
      pageMap m.mem r j = some e ∧ pte2pa e = p

/-- The size of process `i` has changed by `n` to `newsz`. -/
structure Resized (L : Layout) (i : Fin NPROC) (n t : ℤ) (newsz : ℕ) (s s' : Kern) : Prop where
  size : (newsz : ℤ) = if 0 ≤ (s.proc i).sz + n then (s.proc i).sz + n else (s.proc i).sz
  size_le : newsz ≤ TRAPFRAME
  kern : s' = (s.setPhys s'.phys).setProc i { s.proc i with sz := newsz }
  bytes : SamePages (s.proc i).pagetable (min (s.proc i).sz newsz) s.phys s'.phys
  eager : t = SBRK_EAGER → 0 < n → ∀ j, pgRoundUp (s.proc i).sz ≤ 4096 * j →
    4096 * j < pgRoundUp newsz → ∃ q, L.Page q ∧
      pageMap s'.phys.mem (s.proc i).pagetable j = some (mkPte q (PTE_R ||| PTE_U ||| PTE_W)) ∧
      s'.phys.mem q = fun _ => 0
  lazy : t ≠ SBRK_EAGER → 0 ≤ n → s'.phys = s.phys
  shrink : n < 0 → 0 ≤ (s.proc i).sz + n →
    Shrunk L (s.proc i).pagetable newsz s.phys s'.phys
  negative : (s.proc i).sz + n < 0 → s' = s

section Process

variable {A : Set ℕ} {i : Fin NPROC} {s : Kern} {proc : Fin NPROC → Proc}

theorem SamePages.refl {b : ℕ} : SamePages r b m m := fun _ _ => ⟨rfl, fun _ _ => rfl⟩

theorem uses_of_pageMap {j : ℕ} (hj : 4096 * j < TRAPFRAME) (he : pageMap m.mem r j = some e) :
    Uses m.mem r (path (4096 * j)) (pte2pa e) := by
  have hV := isV_of_pageMap he
  rw [pageMap] at he
  split at he
  · cases he
    exact uses_path_iff.mpr ⟨owns_of_lt hj, hV, rfl⟩
  · cases he

theorem Inv.leaf_inj (h : Inv L m proc A) (hi : (proc i).used) {j j' e' : ℕ}
    (hj : 4096 * j < TRAPFRAME) (hj' : 4096 * j' < TRAPFRAME)
    (he : pageMap m.mem (proc i).pagetable j = some e)
    (he' : pageMap m.mem (proc i).pagetable j' = some e') (heq : pte2pa e = pte2pa e') : j = j' := by
  obtain ⟨free, howned⟩ := h.space
  have hroot := h.mem_roots hi
  have hpath := (howned.unique _ hroot _ hroot _ _ _ (uses_of_pageMap hj he)
    (heq ▸ uses_of_pageMap hj' he')).2
  have hframe := TRAPFRAME_eq
  rw [path_inj (by omega) (by omega)] at hpath
  omega

theorem Inv.pageMap_eq_none (h : Inv L m proc A) (hi : (proc i).used) {j : ℕ}
    (hlo : pgRoundUp (proc i).sz ≤ 4096 * j) (hj : 4096 * j < TRAPFRAME) :
    pageMap m.mem (proc i).pagetable j = none := by
  rw [pageMap, (h.below i (h.live i hi).2.1).not_isV hlo hj]
  simp

variable (h : Inv L s.phys s.proc A) (hi : (s.proc i).used)

include h hi

theorem Inv.samePages {b : ℕ} {M : PageMap}
    (howned : Owned L s.phys free (A ∪ trapframes s.proc) (roots s.proc))
    (hholds : Holds L (s.proc i).pagetable a k M s.phys free ∅ free' m')
    (hmap : ∀ j, 4096 * j < b → pageMap m'.mem (s.proc i).pagetable j =
      pageMap s.phys.mem (s.proc i).pagetable j) :
    SamePages (s.proc i).pagetable b s.phys m' := by
  refine fun j hj => ⟨hmap j hj, fun e he => ?_⟩
  obtain ⟨hfree, htable⟩ := h.leaf_page howned hi he
  exact hholds.kept _ hfree (htable _ (h.mem_roots hi))

theorem Inv.uvmalloc (hnew : newsz ≤ TRAPFRAME) (hle : (s.proc i).sz ≤ newsz) :
    Ensures (uvmalloc L (s.proc i).pagetable (s.proc i).sz newsz PTE_W) s.phys fun res m' =>
      (res = 0 ∧ SamePages (s.proc i).pagetable MAXVA s.phys m') ∨
        (res = newsz ∧ SamePages (s.proc i).pagetable (s.proc i).sz s.phys m' ∧
          ∀ j, pgRoundUp (s.proc i).sz ≤ 4096 * j → 4096 * j < pgRoundUp newsz →
            ∃ q, L.Page q ∧ pageMap m'.mem (s.proc i).pagetable j =
              some (mkPte q (PTE_R ||| PTE_U ||| PTE_W)) ∧ m'.mem q = fun _ => 0) := by
  obtain ⟨free, howned⟩ := h.space
  have hsz := le_pgRoundUp (h.sz_le i)
  have hmod := pgRoundUp_mod (s.proc i).sz
  have hmod' := pgRoundUp_mod newsz
  have htables : Tables L s.phys free {(s.proc i).pagetable} :=
    howned.tables.mono (Set.singleton_subset_iff.mpr (h.mem_roots hi))
  refine (uvmalloc_fills htables (by decide) hle hnew fun j => h.pageMap_eq_none hi).mono ?_
  rintro res m' ⟨free', ⟨rfl, hfills⟩ | ⟨rfl, k, hholds⟩⟩
  · refine Or.inr ⟨rfl, h.samePages hi howned hfills.toHolds fun j hj => ?_, fun j hj hj' => ?_⟩
    · exact hfills.outside j (by omega)
    · exact hfills.page j _ _ (by omega) (by omega) rfl
  · exact Or.inl ⟨rfl, h.samePages hi howned hholds fun j _ => hholds.outside j (by omega)⟩

theorem Inv.uvmdealloc (hlt : newsz < (s.proc i).sz) :
    Ensures (uvmdealloc L (s.proc i).pagetable (s.proc i).sz newsz) s.phys fun res m' =>
      res = newsz ∧ SamePages (s.proc i).pagetable newsz s.phys m' ∧
        Shrunk L (s.proc i).pagetable newsz s.phys m' := by
  obtain ⟨free, howned⟩ := h.space
  have hframe := TRAPFRAME_eq
  have hmax := MAXVA_eq
  have hsz := h.sz_le i
  have hround := pgRoundUp_le hsz
  have hmono := pgRoundUp_mono hlt.le hsz
  have hnew := le_pgRoundUp (hlt.le.trans hsz)
  have hmod := pgRoundUp_mod (s.proc i).sz
  have hmod' := pgRoundUp_mod newsz
  have hroot := h.mem_roots hi
  have htables : Tables L s.phys free {(s.proc i).pagetable} :=
    howned.tables.mono (Set.singleton_subset_iff.mpr hroot)
  have hleaf : ∀ j e, pageMap s.phys.mem (s.proc i).pagetable j = some e →
      pte2pa e ∉ free ∧ ∀ π, ¬ IsTable s.phys.mem (s.proc i).pagetable π (pte2pa e) :=
    fun j e he => ⟨(h.leaf_page howned hi he).1, (h.leaf_page howned hi he).2 _ hroot⟩
  have hholds := htables.holds (a := pgRoundUp newsz / 4096) (k := pgRoundUp (s.proc i).sz / 4096)
    (fun j e _ _ => hleaf j e) fun j j' e e' _ hj _ hj' he he' heq =>
      h.leaf_inj hi (by omega) (by omega) he he' heq
  have hpages : ∀ p ∈ free ++ mappedPages s.phys (s.proc i).pagetable (pgRoundUp newsz / 4096)
      (pgRoundUp (s.proc i).sz / 4096), L.Page p := by
    intro p hp
    rcases List.mem_append.mp hp with hp | hp
    · exact howned.freeList.page p hp
    · obtain ⟨j, e, -, hj, he, rfl⟩ := mem_mappedPages.mp hp
      exact (howned.uses _ hroot _ _ (uses_of_pageMap (by omega) he)).1
  refine (hholds.uvmdealloc (by omega) hpages (fun j hj hjk => ?_) (by omega) hlt.le (by omega)
    (by omega)).mono ?_
  · rw [PageMap.remove, if_pos (by omega)]
  rintro res m' ⟨rfl, free', hholds', hiff⟩
  have hmap : ∀ j, pageMap m'.mem (s.proc i).pagetable j = (pageMap s.phys.mem
      (s.proc i).pagetable).remove (pgRoundUp res / 4096)
        (pgRoundUp (s.proc i).sz / 4096 - pgRoundUp res / 4096) j :=
    fun j => hholds'.outside j (by omega)
  refine ⟨rfl, fun j hj => ⟨?_, fun e he => ?_⟩, fun j hj hj' => ?_, free, free', howned.freeList,
    hholds'.tables.freeList, fun p => ⟨fun hp => ?_, fun hp => ?_⟩⟩
  · rw [hmap, PageMap.remove, if_neg (by omega)]
  · obtain ⟨hfree, htable⟩ := hleaf j e he
    refine hholds'.kept _ (fun hmem => ?_) htable
    rcases List.mem_append.mp hmem with hmem | hmem
    · exact hfree hmem
    · obtain ⟨j', e', hj', hk', he', heq⟩ := mem_mappedPages.mp hmem
      have := h.leaf_inj hi (by omega) (by omega) he' he heq
      omega
  · rw [hmap, PageMap.remove]
    split
    · rfl
    · exact h.pageMap_eq_none hi (by omega) hj'
  · rcases List.mem_append.mp (hholds'.subset p hp) with hp | hp
    · exact Or.inl hp
    · obtain ⟨j, e, hj, hk, hrest⟩ := mem_mappedPages.mp hp
      exact Or.inr ⟨j, e, by omega, by omega, hrest⟩
  · have hmem : p ∈ free ++ mappedPages s.phys (s.proc i).pagetable (pgRoundUp res / 4096)
        (pgRoundUp (s.proc i).sz / 4096) := by
      rcases hp with hp | ⟨j, e, hj, hj', he, heq⟩
      · exact List.mem_append_left _ hp
      · have hlt : 4096 * j < pgRoundUp (s.proc i).sz := by
          by_contra hge
          cases (h.pageMap_eq_none hi (by omega) hj').symm.trans he
        exact List.mem_append_right _ (mem_mappedPages.mpr ⟨j, e, by omega, by omega, he, heq⟩)
    rcases hholds'.total p hmem with hfree' | hH | ⟨π, ht⟩ | ⟨j, e, hj, hk, -⟩
    · exact hfree'
    · exact absurd hH (Set.notMem_empty p)
    · -- it was no table, and `uvmunmap` makes none
      rw [hiff π p] at ht
      rcases hp with hp | ⟨j, e, -, -, he, rfl⟩
      · exact absurd hp (htables.page _ rfl π p ht).2
      · exact absurd ht ((hleaf j e he).2 π)
    · omega

omit hi in
theorem Resized.refl (n t : ℤ) (hn : n = 0 ∨ (s.proc i).sz + n < 0) :
    Resized L i n t (s.proc i).sz s s where
  size := by
    split
    · omega
    · rfl
  size_le := h.sz_le i
  kern := (Kern.setProc_self s i).symm
  bytes := .refl
  eager _ hpos := by omega
  lazy _ _ := rfl
  shrink hneg hle := by omega
  negative _ := rfl

theorem growproc_resizes (n t : ℤ) (hlo : -2 ^ 31 ≤ n) (hhi : n < 2 ^ 31)
    (ht : t = SBRK_EAGER ∨ n < 0) :
    Ensures (growproc L i n) s fun res s' =>
      ((s.proc i).sz + n > TRAPFRAME → res = -1) ∧
        ((res = -1 ∧ s' = s.setPhys s'.phys ∧
            SamePages (s.proc i).pagetable MAXVA s.phys s'.phys) ∨
          (res = 0 ∧ ∃ newsz, Resized L i n t newsz s s')) := by
  have hframe := TRAPFRAME_eq
  have hsz := h.sz_le i
  rw [growproc]
  refine ensures_getProc_bind (.ite (fun hpos => ?_) fun hnpos => .ite (fun hneg => ?_) fun hzero => ?_)
  · rw [u64_of_lt (by omega)]
    refine .ite (fun _ => .pure ⟨fun _ => rfl, Or.inl ⟨rfl, rfl, .refl⟩⟩) fun hle => ?_
    refine ensures_onPhys_bind (h.uvmalloc hi (by omega) (by omega)) ?_
    rintro sz m' (⟨rfl, hsame⟩ | ⟨rfl, hbytes, hzeroes⟩)
    · exact .ite (fun _ => .pure ⟨fun _ => rfl, Or.inl ⟨rfl, rfl, hsame⟩⟩) fun h0 => absurd rfl h0
    · refine .ite (fun h0 => absurd h0 (by omega)) fun _ => ensures_modifyProc_bind ?_
      refine .pure ⟨fun hgt => absurd hgt (by omega),
        Or.inr ⟨rfl, (s.proc i).sz + n.toNat, ?_⟩⟩
      exact
        { size := by rw [if_pos (by omega)]; omega
          size_le := by omega
          kern := rfl
          bytes := by
            rw [min_eq_left (by omega)]
            exact hbytes
          eager := fun _ _ => hzeroes
          lazy := fun hne _ => absurd ht (by simp [hne]; omega)
          shrink := fun hneg => absurd hneg (by omega)
          negative := fun hneg => absurd hneg (by omega) }
  · by_cases hge : 0 ≤ (s.proc i).sz + n
    · have hnew : (((s.proc i).sz + n) % 2 ^ 64).toNat = ((s.proc i).sz + n).toNat := by
        rw [Int.emod_eq_of_lt hge (by omega)]
      rw [hnew]
      have hless : ((s.proc i).sz + n).toNat < (s.proc i).sz := by omega
      refine ensures_onPhys_bind (h.uvmdealloc hi hless) ?_
      rintro sz m' ⟨rfl, hbytes, hshrunk⟩
      refine ensures_modifyProc_bind (.pure ⟨fun hgt => absurd hgt (by omega),
        Or.inr ⟨rfl, ((s.proc i).sz + n).toNat, ?_⟩⟩)
      exact
        { size := by rw [if_pos hge]; omega
          size_le := by omega
          kern := rfl
          bytes := by
            rw [min_eq_right (by omega)]
            exact hbytes
          eager := fun _ hpos => absurd hpos (by omega)
          lazy := fun _ hpos => absurd hneg (by omega)
          shrink := fun _ _ => hshrunk
          negative := fun hlt => absurd hge (by omega) }
    · -- the sum wraps around
      have hwrap : (s.proc i).sz ≤ (((s.proc i).sz + n) % 2 ^ 64).toNat := by omega
      refine ensures_onPhys_bind (uvmdealloc_of_le hwrap) ?_
      rintro sz m' ⟨rfl, rfl⟩
      refine ensures_modifyProc_bind (.pure ⟨fun hgt => absurd hgt (by omega),
        Or.inr ⟨rfl, (s.proc i).sz, ?_⟩⟩)
      have hself : (s.setPhys s.phys).setProc i { s.proc i with sz := (s.proc i).sz } = s :=
        Kern.setProc_self s i
      rw [Kern.setPhys_proc, hself]
      exact .refl h n t (Or.inr (by omega))
  · exact .pure ⟨fun hgt => absurd hgt (by omega), Or.inr ⟨rfl, _, .refl h n t (Or.inl (by omega))⟩⟩

/-- **`sbrk`.**  Either -1, and the process is as it was; or the old size, and the new one is `sz + n`
unless that is negative.  Growing past `TRAPFRAME` fails. -/
theorem sbrk_resizes (n t : ℤ) (hlo : -2 ^ 31 ≤ n) (hhi : n < 2 ^ 31) :
    Ensures (sysSbrk L i n t) s fun res s' =>
      ((s.proc i).sz + n > TRAPFRAME → res = -1) ∧
        ((res = -1 ∧ s' = s.setPhys s'.phys ∧
            SamePages (s.proc i).pagetable MAXVA s.phys s'.phys) ∨
          (res = (s.proc i).sz ∧ ∃ newsz, Resized L i n t newsz s s')) := by
  have hframe := TRAPFRAME_eq
  have hsz := h.sz_le i
  rw [sysSbrk]
  refine ensures_getProc_bind (.ite (fun hcase => ?_) fun hcase => ?_)
  · refine .bind (growproc_resizes h hi n t hlo hhi hcase) ?_
    rintro res s' ⟨hpast, ⟨rfl, hsame⟩ | ⟨rfl, hresized⟩⟩
    · exact .ite (fun _ => .pure ⟨fun _ => rfl, Or.inl ⟨rfl, hsame⟩⟩)
        fun h0 => absurd h0 (by decide)
    · refine .ite (fun h0 => absurd h0 (by decide)) fun _ => .pure ⟨fun hgt => ?_,
        Or.inr ⟨rfl, hresized⟩⟩
      exact absurd (hpast hgt) (by decide)
  · obtain ⟨hlazy, hpos⟩ := not_or.mp hcase
    have hu : u64 ((s.proc i).sz + n.toNat) = (s.proc i).sz + n.toNat := u64_of_lt (by omega)
    rw [hu]
    refine .ite (fun hwrap => absurd hwrap (by omega)) fun _ => .ite (fun _ => ?_) fun hle => ?_
    · exact .pure ⟨fun _ => rfl, Or.inl ⟨rfl, rfl, .refl⟩⟩
    · refine ensures_modifyProc_bind (.pure ⟨fun hgt => absurd hgt (by omega),
        Or.inr ⟨rfl, (s.proc i).sz + n.toNat, ?_⟩⟩)
      exact
        { size := by rw [if_pos (by omega)]; omega
          size_le := by omega
          kern := by
            change s.setProc i { s.proc i with sz := u64 ((s.proc i).sz + n.toNat) } = _
            rw [hu]
            rfl
          bytes := .refl
          eager := fun ht => absurd ht hlazy
          lazy := fun _ _ => rfl
          shrink := fun hneg => absurd hneg (by omega)
          negative := fun hneg => absurd hneg (by omega) }

end Process

/-- A process grows by two pages and gives one of them back. -/
theorem sbrk_resizes_shrink : ∃ (s s' : Kern) (i : Fin NPROC), Inv smallLayout s.phys s.proc ∅ ∧
    (s.proc i).used ∧ (s.proc i).sz = 8192 ∧
    sysSbrk smallLayout i (-4096) SBRK_EAGER s = .ok (8192, s') ∧
    ∃ newsz, Resized smallLayout i (-4096) SBRK_EAGER newsz s s' := by
  have hcheck : firstProcessIs fun i k => returns (fun x : ℤ × ℕ × ℤ => decide (x.2 = (8192, 8192)))
      (do
        let a ← sysSbrk smallLayout i 8192 SBRK_EAGER
        let p ← getProc i
        let b ← sysSbrk smallLayout i (-4096) SBRK_EAGER
        return (a, p.sz, b)) k := by decide +kernel
  obtain ⟨k, i, hinv, hi, -, hcheck⟩ := exists_process_of hcheck
  obtain ⟨⟨a, sz, b⟩, k', hrun, hres⟩ := exists_of_returns hcheck
  obtain ⟨rfl, rfl⟩ : sz = 8192 ∧ b = (8192 : ℤ) := Prod.mk.inj (of_decide_eq_true hres)
  obtain ⟨a', s, hgrow, hrun⟩ := exists_of_bind hrun
  obtain ⟨p, s₁, hget, hrun⟩ := exists_of_bind hrun
  obtain ⟨rfl, rfl⟩ := Prod.mk.inj (Except.ok.inj hget)
  obtain ⟨b', s', hshrink, hrun⟩ := exists_of_bind hrun
  obtain ⟨hres, rfl⟩ := Prod.mk.inj (Except.ok.inj hrun)
  obtain ⟨-, hsz, rfl⟩ : a' = a ∧ (s.proc i).sz = 8192 ∧ b' = 8192 := by simpa using hres
  obtain ⟨hinv', hi'⟩ : Inv smallLayout s.phys s.proc ∅ ∧ (s.proc i).used := by
    obtain ⟨m', p, rfl, hused, -, -, hinv', -⟩ := (sysSbrk_spec hinv hi 8192 SBRK_EAGER).of_run hgrow
    refine ⟨hinv', ?_⟩
    rw [Kern.setProc_proc, Function.update_self]
    exact hused
  refine ⟨s, s', i, hinv', hi', hsz, hshrink, ?_⟩
  obtain ⟨-, ⟨hfail, -⟩ | ⟨-, hresized⟩⟩ :=
    (sbrk_resizes hinv' hi' (-4096) SBRK_EAGER (by decide) (by decide)).of_run hshrink
  · exact absurd hfail (by decide)
  · exact hresized

end Vm
end Xv6
