import Xv6.Lib.Transition
import Xv6.Vm.Hang

/-!
# A page table is a map

The abstract view of a page table is a map from virtual page numbers to page-table entries
(`PageMap`): `mappages` sets a range of page numbers, `uvmunmap` removes one.  `pageMap mem r` is
the map that the three levels at `r` stand for, read off by `walk`.

The theorem is a refinement: from the empty table of `uvmcreate` on, every sequence of calls does to
`pageMap` what it does to an abstract map.  What the calls have to respect, beyond their panics, is
`Proper`.  Pages are mapped at page-aligned physical addresses, with flags that fit into the ten low
bits.  The end of the range that is unmapped does not wrap around.  And a page that is freed is one
that the caller may free: not free already, not mapped twice in the range, not a table.
-/

namespace Xv6
namespace Vm

open Bytes Program Transition

/-! ## Maps from page numbers to entries -/

/-- A map from virtual page numbers to page-table entries. -/
abbrev PageMap := ℕ → Option ℕ

namespace PageMap

def empty : PageMap := fun _ => none

/-- Set the `n` pages from `v` on. -/
def set (M : PageMap) (v n : ℕ) (e : ℕ → ℕ) : PageMap := fun k =>
  if v ≤ k ∧ k < v + n then some (e (k - v)) else M k

/-- Remove the `n` pages from `v` on. -/
def remove (M : PageMap) (v n : ℕ) : PageMap := fun k =>
  if v ≤ k ∧ k < v + n then none else M k

variable (M : PageMap) {v n : ℕ} {e e' : ℕ → ℕ}

@[simp] theorem set_zero : M.set v 0 e = M := by
  funext k
  rw [set, if_neg (by omega)]

@[simp] theorem remove_zero : M.remove v 0 = M := by
  funext k
  rw [remove, if_neg (by omega)]

theorem set_succ {x : ℕ} (hx : x = e 0) (h : ∀ k, e' k = e (k + 1)) :
    (M.set v 1 fun _ => x).set (v + 1) n e' = M.set v (n + 1) e := by
  funext k
  simp only [set, h, hx]
  by_cases hk : v + 1 ≤ k ∧ k < v + 1 + n
  · rw [if_pos hk, if_pos (by omega), show k - (v + 1) + 1 = k - v by omega]
  · rw [if_neg hk]
    by_cases hv : v ≤ k ∧ k < v + 1
    · rw [if_pos hv, if_pos (by omega), show k - v = 0 by omega]
    · rw [if_neg hv, if_neg (by omega)]

theorem remove_succ : (M.remove v 1).remove (v + 1) n = M.remove v (n + 1) := by
  funext k
  simp only [remove]
  by_cases hk : v + 1 ≤ k ∧ k < v + 1 + n
  · rw [if_pos hk, if_pos (by omega)]
  · rw [if_neg hk]
    by_cases hv : v ≤ k ∧ k < v + 1
    · rw [if_pos hv, if_pos (by omega)]
    · rw [if_neg hv, if_neg (by omega)]

theorem remove_one_of_none (h : M v = none) : M.remove v 1 = M := by
  funext k
  rw [remove]
  split
  · rw [show k = v by omega, h]
  · rfl

end PageMap

/-! ## The map of a page table -/

/-- The entries that are valid, by page number. -/
def pageMap (mem : ℕ → Mem) (r : ℕ) : PageMap := fun k =>
  if k < MAXVA / 4096 ∧ isV (lookup mem r (4096 * k)) then some (lookup mem r (4096 * k)) else none

variable {L : Layout} {m m' : Phys} {free : List ℕ} {r t i v va a n pa perm : ℕ} {π : Path}

theorem page_lt (hva : va < MAXVA) : va / 4096 < MAXVA / 4096 := by
  rw [MAXVA_eq] at hva ⊢
  omega

theorem lookup_page (mem : ℕ → Mem) (r va : ℕ) :
    lookup mem r (4096 * (va / 4096)) = lookup mem r va :=
  lookup_congr (by omega)

theorem pageMap_of_lookup (hva : va < MAXVA) :
    pageMap m.mem r (va / 4096) =
      if isV (lookup m.mem r va) then some (lookup m.mem r va) else none := by
  rw [pageMap, lookup_page]
  simp only [page_lt hva, true_and]

theorem pageMap_congr (h : ∀ va, lookup m'.mem r va = lookup m.mem r va) :
    pageMap m'.mem r = pageMap m.mem r := by
  funext k
  rw [pageMap, pageMap, h]

theorem Tables.pageMap_setPte {R : Set ℕ} (h : Tables L m free R) (hr : r ∈ R) (hva : va < MAXVA)
    (ht : node m.mem r (dir va) = some t) (hv : v < 2 ^ 64) :
    pageMap (m.setPte t (px 0 va) v).mem r =
      if isV v then (pageMap m.mem r).set (va / 4096) 1 fun _ => v
      else (pageMap m.mem r).remove (va / 4096) 1 := by
  funext k
  by_cases hk : k = va / 4096
  · subst hk
    have hself : lookup (m.setPte t (px 0 va) v).mem r va = v := by
      rw [h.lookup_setPte hr ht hv hr va, if_pos ⟨rfl, rfl⟩]
    rw [pageMap_of_lookup hva, hself]
    split
    · rw [PageMap.set, if_pos (by omega)]
    · rw [PageMap.remove, if_pos (by omega)]
  · have hother : k < MAXVA / 4096 →
        lookup (m.setPte t (px 0 va) v).mem r (4096 * k) = lookup m.mem r (4096 * k) := by
      intro hlt
      rw [MAXVA_eq] at hlt hva
      rw [h.lookup_setPte hr ht hv hr (4096 * k), if_neg]
      rintro ⟨-, hpath⟩
      rw [path_inj (by omega) (by omega)] at hpath
      omega
    have hsame : pageMap (m.setPte t (px 0 va) v).mem r k = pageMap m.mem r k := by
      rw [pageMap, pageMap]
      by_cases hlt : k < MAXVA / 4096
      · rw [hother hlt]
      · rw [if_neg fun h' => hlt h'.1, if_neg fun h' => hlt h'.1]
    rw [hsame]
    split
    · rw [PageMap.set, if_neg (by omega)]
    · rw [PageMap.remove, if_neg (by omega)]

/-! ## Calls -/

/-- A call on the page table. -/
inductive Call where
  | mappages (va size pa perm : ℕ)
  | uvmunmap (va npages : ℕ) (doFree : Bool)
  /-- The caller allocates a page. -/
  | kalloc

/-- What a call does and returns; `uvmunmap` returns nothing. -/
def Call.run (L : Layout) (r : ℕ) : Call → VmM ℤ
  | .mappages va size pa perm => Vm.mappages r va size pa perm
  | .uvmunmap va npages doFree => do
    Vm.uvmunmap L r va npages doFree
    return 0
  | .kalloc => do
    let p ← Vm.kalloc
    return p

/-- The call returns, without a panic. -/
def CallSteps (L : Layout) (r : ℕ) (m : Phys) (l : Call × ℤ) (m' : Phys) : Prop :=
  l.1.run L r m = .ok (l.2, m')

/-- What a call does to the map. -/
inductive MapStep : PageMap → Call × ℤ → PageMap → Prop
  | mappages (M : PageMap) (va size pa perm : ℕ) :
      MapStep M (.mappages va size pa perm, 0)
        (M.set (va / 4096) (size / 4096) fun k => mkPte (pa + 4096 * k) perm)
  /-- Out of memory after `n` pages. -/
  | full (M : PageMap) (va size pa perm n : ℕ) : n < size / 4096 →
      MapStep M (.mappages va size pa perm, -1)
        (M.set (va / 4096) n fun k => mkPte (pa + 4096 * k) perm)
  | uvmunmap (M : PageMap) (va npages : ℕ) (doFree : Bool) :
      MapStep M (.uvmunmap va npages doFree, 0) (M.remove (va / 4096) npages)
  | kalloc (M : PageMap) (p : ℤ) : MapStep M (.kalloc, p) M

/-- A page that may be freed: it is not free already, and not a table. -/
structure Held (L : Layout) (m : Phys) (r p : ℕ) : Prop where
  page : L.Page p
  notMem : ∀ free, FreeList L m free → p ∉ free
  not_table : ∀ π, ¬ IsTable m.mem r π p

/-- The pages mapped in the range may be freed, each once. -/
structure Releases (L : Layout) (m : Phys) (r va npages : ℕ) : Prop where
  held : ∀ k e, va / 4096 ≤ k → k < va / 4096 + npages → pageMap m.mem r k = some e →
    Held L m r (pte2pa e)
  once : ∀ k k' e e', va / 4096 ≤ k → k < va / 4096 + npages → va / 4096 ≤ k' →
    k' < va / 4096 + npages → pageMap m.mem r k = some e → pageMap m.mem r k' = some e' →
    pte2pa e = pte2pa e' → k = k'

/-- What a call has to respect, beyond its panics. -/
def Proper (L : Layout) (r : ℕ) (m : Phys) : Call × ℤ → Prop
  | (.mappages _ size pa perm, _) => pa % 4096 = 0 ∧ pa + size ≤ 2 ^ 56 ∧ perm < 1024
  | (.uvmunmap va npages doFree, _) =>
    va + npages * 4096 < 2 ^ 64 ∧ (doFree = true → Releases L m r va npages)
  | (.kalloc, _) => True

/-! ## `mappages` -/

theorem ends_readPte_bind {β : Type} {f : ℕ → VmM β} {Q : β → Phys → Prop}
    (h : Ends (f (pte m.mem t i)) m Q) : Ends (readPte t i >>= f) m Q :=
  fun b m' hrun => h b m' hrun

theorem ends_writePte_bind {β : Type} {f : Unit → VmM β} {Q : β → Phys → Prop}
    (h : Ends (f ()) (m.setPte t i v) Q) : Ends (writePte t i v >>= f) m Q :=
  fun b m' hrun => h b m' hrun

theorem walk_ends (h : Tables L m free {r}) :
    Ends (walk r va true) m fun res m' => va < MAXVA ∧ ∃ free', Hung L {r} 2 free m free' m' ∧
      (∀ t i, res = some (t, i) → i = px 0 va ∧ node m'.mem r (dir va) = some t) := by
  by_cases hva : va < MAXVA
  · refine ((walk_hung h rfl hva).mono ?_).ends
    rintro res m' ⟨free', hhung, hsome, -⟩
    exact ⟨hva, free', hhung, hsome⟩
  · rw [walk, if_pos (by omega)]
    exact .panic _

theorem mappagesFrom_ends (h : Tables L m free {r}) (hmod : a % 4096 = 0)
    (hpa : pa + 4096 * n ≤ 2 ^ 56) (hperm : perm < 1024) :
    Ends (mappagesFrom r perm n a pa) m fun res m' => ∃ free', Tables L m' free' {r} ∧
      ∃ k, (res = 0 ∧ k = n ∨ res = -1 ∧ k < n) ∧ pageMap m'.mem r =
        (pageMap m.mem r).set (a / 4096) k fun j => mkPte (pa + 4096 * j) perm := by
  induction n generalizing m free a pa with
  | zero =>
    refine (Ensures.pure ⟨free, h, 0, Or.inl ⟨rfl, rfl⟩, ?_⟩).ends
    rw [PageMap.set_zero]
  | succ n ih =>
    rw [mappagesFrom]
    refine .bind (walk_ends h) ?_
    rintro res m₁ ⟨ha, free₁, hhung, hsome⟩
    have hmap₁ : pageMap m₁.mem r = pageMap m.mem r :=
      pageMap_congr fun va => hhung.lookup_eq r rfl va
    cases res with
    | none =>
      refine (Ensures.pure ⟨free₁, hhung.tables, 0, Or.inr ⟨rfl, by omega⟩, ?_⟩).ends
      rw [hmap₁, PageMap.set_zero]
    | some slot =>
      obtain ⟨t, i⟩ := slot
      obtain ⟨rfl, ht⟩ := hsome t i rfl
      have hlt : mkPte pa perm < 2 ^ 64 := mkPte_lt (by omega) hperm
      refine ends_readPte_bind (.ite (fun _ => .panic _) fun _ => ends_writePte_bind ?_)
      rw [MAXVA_eq] at ha
      rw [u64_of_lt (show a + 4096 < 2 ^ 64 by omega),
        u64_of_lt (show pa + 4096 < 2 ^ 64 by omega)]
      refine (ih (hhung.tables.setLeaf rfl ht) (by omega) (by omega)).mono ?_
      rintro res m' ⟨free', htables', k, hk, hmap⟩
      refine ⟨free', htables', k + 1, by omega, ?_⟩
      rw [hmap, hhung.tables.pageMap_setPte rfl (by rw [MAXVA_eq]; omega) ht hlt, if_pos isV_mkPte,
        hmap₁, show (a + 4096) / 4096 = a / 4096 + 1 by omega]
      refine PageMap.set_succ _ rfl fun j => ?_
      rw [show pa + 4096 + 4096 * j = pa + 4096 * (j + 1) by omega]

theorem mappages_ends {size : ℕ} (h : Tables L m free {r}) (hpa : pa + size ≤ 2 ^ 56)
    (hperm : perm < 1024) :
    Ends (mappages r va size pa perm) m fun res m' => (∃ free', Tables L m' free' {r}) ∧
      MapStep (pageMap m.mem r) (.mappages va size pa perm, res) (pageMap m'.mem r) := by
  rw [mappages]
  refine .ite (fun _ => .panic _) fun hmod => .ite (fun _ => .panic _) fun hsize =>
    .ite (fun _ => .panic _) fun _ => ?_
  refine (mappagesFrom_ends h (by omega) (by omega) hperm).mono ?_
  rintro res m' ⟨free', htables, k, ⟨rfl, rfl⟩ | ⟨rfl, hk⟩, hmap⟩
  · rw [hmap]
    exact ⟨⟨free', htables⟩, .mappages ..⟩
  · rw [hmap]
    exact ⟨⟨free', htables⟩, .full _ _ _ _ _ k hk⟩

/-! ## `uvmunmap` -/

/-- The pages mapped in the range may be freed, for the free list `free`. -/
structure Releasable (L : Layout) (m : Phys) (free : List ℕ) (r a n : ℕ) : Prop where
  page : ∀ k e, a ≤ k → k < a + n → pageMap m.mem r k = some e → L.Page (pte2pa e)
  notMem : ∀ k e, a ≤ k → k < a + n → pageMap m.mem r k = some e → pte2pa e ∉ free
  not_table : ∀ k e π, a ≤ k → k < a + n → pageMap m.mem r k = some e →
    ¬ IsTable m.mem r π (pte2pa e)
  once : ∀ k k' e e', a ≤ k → k < a + n → a ≤ k' → k' < a + n → pageMap m.mem r k = some e →
    pageMap m.mem r k' = some e' → pte2pa e = pte2pa e' → k = k'

theorem Releases.releasable (h : Releases L m r va n) (hfree : FreeList L m free) :
    Releasable L m free r (va / 4096) n where
  page k e hk hk' he := (h.held k e hk hk' he).page
  notMem k e hk hk' he := (h.held k e hk hk' he).notMem free hfree
  not_table k e π hk hk' he := (h.held k e hk hk' he).not_table π
  once := h.once

theorem Tables.push {R : Set ℕ} {p : ℕ} (h : Tables L m free R) (hp : L.Page p) (hnot : p ∉ free)
    (htable : ∀ r ∈ R, ∀ π, ¬ IsTable m.mem r π p) : Tables L (m.push p) (p :: free) R := by
  refine h.keep (h.freeList.push hp hnot) fun r hr π t ht => ?_
  have hne : t ≠ p := fun heq => htable r hr π (heq ▸ ht)
  refine ⟨Phys.push_mem_of_ne hne, fun hmem => ?_⟩
  rcases List.mem_cons.mp hmem with heq | hmem
  · exact hne heq
  · exact (h.page r hr π t ht).2 hmem

theorem uvmunmap_one {doFree : Bool} (h : Tables L m free {r}) (ha : a < MAXVA)
    (ht : node m.mem r (dir a) = some t) (hV : isV (lookup m.mem r a) = true)
    (hrel : doFree = true → Releasable L m free r (a / 4096) (n + 1)) :
    Ensures (do freeIf L doFree (pte2pa (lookup m.mem r a)); writePte t (px 0 a) 0) m fun _ m' =>
      ∃ free', Tables L m' free' {r} ∧ pageMap m'.mem r = (pageMap m.mem r).remove (a / 4096) 1 ∧
        (doFree = true → Releasable L m' free' r (a / 4096 + 1) n) := by
  have hentry : pageMap m.mem r (a / 4096) = some (lookup m.mem r a) := by
    rw [pageMap_of_lookup ha, if_pos hV]
  have hmap : ∀ m₁ free₁, Tables L m₁ free₁ {r} → node m₁.mem r (dir a) = some t →
      pageMap (m₁.setPte t (px 0 a) 0).mem r = (pageMap m₁.mem r).remove (a / 4096) 1 := by
    intro m₁ free₁ h₁ ht₁
    rw [h₁.pageMap_setPte rfl ha ht₁ (by decide), isV_zero]
    rfl
  cases doFree with
  | false =>
    refine .bind (P := fun _ m' => m' = m) (.pure rfl) ?_
    rintro - m₁ rfl
    exact .modify ⟨free, h.setLeaf rfl ht, hmap m₁ free h ht, nofun⟩
  | true =>
    have hrel := hrel rfl
    have hpage := hrel.page _ _ (le_refl _) (by omega) hentry
    have hnot := hrel.notMem _ _ (le_refl _) (by omega) hentry
    have htable : ∀ r' ∈ ({r} : Set ℕ), ∀ π, ¬ IsTable m.mem r' π (pte2pa (lookup m.mem r a)) := by
      rintro r' rfl π
      exact hrel.not_table _ _ π (le_refl _) (by omega) hentry
    have hpush := h.push hpage hnot htable
    have hkept : ∀ π u, IsTable m.mem r π u →
        (m.push (pte2pa (lookup m.mem r a))).mem u = m.mem u := fun π u hu =>
      Phys.push_mem_of_ne fun heq => htable r rfl π (heq ▸ hu)
    have ht₁ := ((isTable_of_tables hkept).mpr (isTable_dir ht)).node_eq
    have hsame : pageMap (m.push (pte2pa (lookup m.mem r a))).mem r = pageMap m.mem r :=
      pageMap_congr (lookup_of_tables fun π u hlen hπ hn => hkept π u ⟨hlen, hπ, hn⟩)
    rw [freeIf, if_pos rfl]
    refine .bind (.of_eq (kfree_run hpage m) (Q := fun _ m' => m' = m.push _) rfl) ?_
    rintro - m₁ rfl
    have hmap₁ := hmap _ _ hpush ht₁
    rw [hsame] at hmap₁
    -- an entry of the rest of the range is as it was
    have hrest : ∀ k e, a / 4096 + 1 ≤ k →
        pageMap ((m.push (pte2pa (lookup m.mem r a))).setPte t (px 0 a) 0).mem r k = some e →
        pageMap m.mem r k = some e := by
      intro k e hk he
      rw [hmap₁, PageMap.remove, if_neg (by omega)] at he
      exact he
    refine .modify ⟨_, hpush.setLeaf rfl ht₁, hmap₁, fun _ => ⟨?_, ?_, ?_, ?_⟩⟩
    · intro k e hk hk' he
      exact hrel.page k e (by omega) (by omega) (hrest k e hk he)
    · intro k e hk hk' he hmem
      have hold := hrest k e hk he
      rcases List.mem_cons.mp hmem with heq | hmem
      · have := hrel.once k _ e _ (by omega) (by omega) (le_refl _) (by omega) hold hentry heq
        omega
      · exact hrel.notMem k e (by omega) (by omega) hold hmem
    · intro k e π hk hk' he htab
      refine hrel.not_table k e π (by omega) (by omega) (hrest k e hk he) ?_
      exact (isTable_of_tables hkept).mp ((hpush.isTable_setLeaf rfl ht₁ rfl).mp htab)
    · intro k k' e e' hk hk₁ hk' hk₁' he he' heq
      exact hrel.once k k' e e' (by omega) (by omega) (by omega) (by omega) (hrest k e hk he)
        (hrest k' e' hk' he') heq

theorem uvmunmapFrom_ends {doFree : Bool} (h : Tables L m free {r}) (hmod : a % 4096 = 0)
    (hrel : doFree = true → Releasable L m free r (a / 4096) n) :
    Ends (uvmunmapFrom L r doFree n a) m fun _ m' => (∃ free', Tables L m' free' {r}) ∧
      pageMap m'.mem r = (pageMap m.mem r).remove (a / 4096) n := by
  induction n generalizing m free a with
  | zero =>
    refine (Ensures.pure ⟨⟨free, h⟩, ?_⟩).ends
    rw [PageMap.remove_zero]
  | succ n ih =>
    have hnext : (a + 4096) / 4096 = a / 4096 + 1 := by omega
    -- what is left to do when the first page is not mapped any more
    have hrest : ∀ m₁ free₁, Tables L m₁ free₁ {r} →
        pageMap m₁.mem r = (pageMap m.mem r).remove (a / 4096) 1 →
        (doFree = true → Releasable L m₁ free₁ r (a / 4096 + 1) n) →
        Ends (uvmunmapFrom L r doFree n (a + 4096)) m₁ fun _ m' =>
          (∃ free', Tables L m' free' {r}) ∧
            pageMap m'.mem r = (pageMap m.mem r).remove (a / 4096) (n + 1) := by
      intro m₁ free₁ h₁ hmap₁ hrel₁
      rw [← hnext] at hrel₁
      refine (ih h₁ (by omega) hrel₁).mono ?_
      rintro - m' ⟨htables, hmap⟩
      refine ⟨htables, ?_⟩
      rw [hmap, hmap₁, hnext, PageMap.remove_succ]
    have hskip : a < MAXVA → isV (lookup m.mem r a) = false →
        Ends (uvmunmapFrom L r doFree n (a + 4096)) m fun _ m' =>
          (∃ free', Tables L m' free' {r}) ∧
            pageMap m'.mem r = (pageMap m.mem r).remove (a / 4096) (n + 1) := by
      intro ha hV
      refine hrest m free h ?_ fun hfree => ?_
      · rw [PageMap.remove_one_of_none]
        rw [pageMap_of_lookup ha, hV]
        rfl
      · have hrel := hrel hfree
        exact ⟨fun k e hk hk' => hrel.page k e (by omega) (by omega),
          fun k e hk hk' => hrel.notMem k e (by omega) (by omega),
          fun k e π hk hk' => hrel.not_table k e π (by omega) (by omega),
          fun k k' e e' hk hk₁ hk' hk₁' =>
            hrel.once k k' e e' (by omega) (by omega) (by omega) (by omega)⟩
    rw [uvmunmapFrom]
    by_cases ha : a < MAXVA
    · refine .bind (walk_false ha).ends ?_
      rintro slot _ ⟨rfl, rfl⟩
      cases ht : node _ r (dir a) with
      | none => exact hskip ha (by rw [lookup_of_node_none ht, isV_zero])
      | some t =>
        refine ends_readPte_bind ?_
        rw [← lookup_of_node ht]
        refine .ite (fun hV => hskip ha (by simpa using hV)) fun hV => ?_
        rw [← bind_assoc]
        refine .bind (uvmunmap_one h ha ht (by simpa using hV) hrel).ends ?_
        rintro - m₁ ⟨free₁, h₁, hmap₁, hrel₁⟩
        exact hrest m₁ free₁ h₁ hmap₁ hrel₁
    · rw [walk, if_pos (by omega)]
      exact .bind (.panic _) fun _ _ h => h

theorem uvmunmap_ends {doFree : Bool} (h : Tables L m free {r}) (hwrap : va + n * 4096 < 2 ^ 64)
    (hrel : doFree = true → Releases L m r va n) :
    Ends (uvmunmap L r va n doFree) m fun _ m' => (∃ free', Tables L m' free' {r}) ∧
      pageMap m'.mem r = (pageMap m.mem r).remove (va / 4096) n := by
  rw [uvmunmap]
  refine .ite (fun _ => .panic _) fun hmod => ?_
  rw [u64_of_lt (x := n * 4096) (by omega), u64_of_lt hwrap,
    show (va + n * 4096 - va) / 4096 = n by omega]
  exact uvmunmapFrom_ends h (by omega) fun hfree => (hrel hfree).releasable h.freeList

/-! ## Runs -/

/-- **Every call does to the page table what it does to the map**, and keeps the tables apart. -/
theorem call_refines {l : Call × ℤ} (h : Tables L m free {r}) (hproper : Proper L r m l)
    (hstep : CallSteps L r m l m') :
    (∃ free', Tables L m' free' {r}) ∧ MapStep (pageMap m.mem r) l (pageMap m'.mem r) := by
  obtain ⟨call, res⟩ := l
  cases call with
  | mappages va size pa perm => exact mappages_ends h hproper.2.1 hproper.2.2 res m' hstep
  | uvmunmap va npages doFree =>
    have hends : Ends (Call.run L r (.uvmunmap va npages doFree)) m fun res m' =>
        (∃ free', Tables L m' free' {r}) ∧
          MapStep (pageMap m.mem r) (.uvmunmap va npages doFree, res) (pageMap m'.mem r) := by
      refine .bind (uvmunmap_ends h hproper.1 hproper.2) fun _ m₁ hm₁ => ?_
      refine (Ensures.pure ⟨hm₁.1, ?_⟩).ends
      rw [hm₁.2]
      exact .uvmunmap ..
    exact hends res m' hstep
  | kalloc =>
    have hends : Ends (Call.run L r .kalloc) m fun res m' =>
        (∃ free', Tables L m' free' {r}) ∧
          MapStep (pageMap m.mem r) (.kalloc, res) (pageMap m'.mem r) := by
      refine .bind (kalloc_spec h.freeList).ends ?_
      rintro p m₁ (⟨-, -, rfl⟩ | ⟨free', rfl, hfree', hm⟩)
      · exact (Ensures.pure ⟨⟨free, h⟩, .kalloc ..⟩).ends
      · have hself : m₁.setPage p (m₁.mem p) = m₁ := by
          rw [Phys.setPage, Function.update_eq_self]
        have htables := h.kalloc hfree' hm (w := m₁.mem p)
        have hmap := pageMap_congr (h.lookup_kalloc hm (w := m₁.mem p) (r := r) rfl)
        rw [hself] at htables hmap
        rw [← hmap]
        exact (Ensures.pure ⟨⟨free', htables⟩, .kalloc ..⟩).ends
    exact hends res m' hstep

theorem uvmcreate_tables (h : FreeList L m free) :
    Ensures uvmcreate m fun r m' => r ≠ 0 → (∃ free', Tables L m' free' {r}) ∧
      pageMap m'.mem r = .empty := by
  rw [uvmcreate]
  refine .bind (kalloc_spec h) ?_
  rintro r m₁ (⟨rfl, -, rfl⟩ | ⟨free', rfl, hfree', hm⟩)
  · exact .ite (fun _ => .pure fun h0 => absurd rfl h0) fun h0 => absurd rfl h0
  · have hpage := h.page r (List.mem_cons_self ..)
    have hnot : r ∉ free' := (List.nodup_cons.mp h.nodup).1
    refine .ite (fun h0 => absurd h0 hpage.ne_zero) fun _ => ensures_memset_bind (.pure fun _ => ?_)
    have hzero : (m₁.setPage r fun _ => 0).mem r = fun _ => 0 := Phys.setPage_mem_self ..
    -- the root is the only table
    have htable : ∀ π t, IsTable (m₁.setPage r fun _ => 0).mem r π t → π = [] ∧ t = r := by
      intro π t ht
      have hn := ht.node_eq
      cases π with
      | nil => exact ⟨rfl, (Option.some.inj hn).symm⟩
      | cons i π =>
        rw [node_of_zero hzero] at hn
        exact nomatch hn
    refine ⟨⟨free', hfree'.setPage hnot _, ?_, ?_⟩, ?_⟩
    · rintro r' rfl π t ht
      rw [(htable π t ht).2]
      exact ⟨hpage, hnot⟩
    · rintro r' rfl r'' rfl π π' t ht ht'
      exact ⟨rfl, (htable π t ht).1.trans (htable π' t ht').1.symm⟩
    · funext k
      have hlookup : lookup (m₁.setPage r fun _ => 0).mem r (4096 * k) = 0 :=
        lookup_of_node_none (node_of_zero hzero _ _)
      rw [pageMap, hlookup, isV_zero, if_neg (by simp)]
      rfl

/-- **The page table is a map.**  After any sequence of proper calls on a table made by `uvmcreate`,
the map read off by `walk` is the one that the same calls make of the empty map; no two pages share
an entry; and `PTE2PA` and `PTE_FLAGS` give back the address and the flags of an entry. -/
theorem pagetable_is_map {m₀ m₁ : Phys} {h : List (Call × ℤ)} (hfree : FreeList L m₀ free)
    (hcreate : uvmcreate m₀ = .ok (r, m₁)) (hr : r ≠ 0)
    (hrun : RunWith (CallSteps L r) (Proper L r) m₁ h m) :
    Run MapStep PageMap.empty h (pageMap m.mem r) ∧
      (∀ va < MAXVA, ∃ slot, walk r va false m = .ok (slot, m) ∧
        pageMap m.mem r (va / 4096) = slot.bind fun s =>
          if isV (pte m.mem s.1 s.2) then some (pte m.mem s.1 s.2) else none) ∧
      (∀ va va' slot, va < MAXVA → va' < MAXVA → walk r va false m = .ok (some slot, m) →
        walk r va' false m = .ok (some slot, m) → va / 4096 = va' / 4096) ∧
      ∀ pa perm, pa % 4096 = 0 → pa < 2 ^ 56 → perm < 1024 →
        pte2pa (mkPte pa perm) = pa ∧ pteFlags (mkPte pa perm) = perm ||| PTE_V := by
  obtain ⟨htables₁, hempty⟩ := (uvmcreate_tables hfree).of_run hcreate hr
  have hinv : (∃ free', Tables L m free' {r}) ∧ Run MapStep PageMap.empty h (pageMap m.mem r) := by
    refine hrun.invariant_history (I := fun h m => (∃ free', Tables L m free' {r}) ∧
      Run MapStep PageMap.empty h (pageMap m.mem r)) ⟨htables₁, hempty ▸ .nil⟩ ?_
    rintro h m l m' ⟨⟨free', htables⟩, hrun⟩ hproper hstep
    obtain ⟨htables', hmap⟩ := call_refines htables hproper hstep
    exact ⟨htables', hrun.step trivial hmap⟩
  obtain ⟨⟨free', htables⟩, hmaps⟩ := hinv
  have hwalk : ∀ va < MAXVA, walk r va false m =
      .ok ((node m.mem r (dir va)).map fun t => (t, px 0 va), m) := by
    intro va hva
    obtain ⟨a, m', hw, rfl, rfl⟩ := walk_false (r := r) (m := m) hva
    exact hw
  refine ⟨hmaps, fun va hva => ⟨_, hwalk va hva, ?_⟩, fun va va' slot hva hva' hslot hslot' => ?_,
    fun pa perm hmod hlt hperm => ⟨pte2pa_mkPte hlt hmod hperm, ?_⟩⟩
  · rw [pageMap_of_lookup hva]
    cases hn : node m.mem r (dir va) with
    | none =>
      rw [lookup_of_node_none hn, isV_zero]
      rfl
    | some t =>
      rw [lookup_of_node hn]
      rfl
  · rw [hwalk va hva] at hslot
    rw [hwalk va' hva'] at hslot'
    obtain ⟨t, ht, rfl⟩ := Option.map_eq_some_iff.mp (Prod.mk.inj (Except.ok.inj hslot)).1
    obtain ⟨t', ht', heq⟩ := Option.map_eq_some_iff.mp (Prod.mk.inj (Except.ok.inj hslot')).1
    obtain ⟨rfl, hpx⟩ := Prod.mk.inj heq
    exact htables.eq_of_slot rfl hva hva' ht ht' hpx.symm
  · have hor : perm ||| PTE_V < 2 ^ 10 := Nat.or_lt_two_pow hperm (by decide)
    rw [mkPte_eq hperm, pteFlags]
    omega

/-- A fresh page table, two pages mapped, and the first one unmapped. -/
def twoPages : VmM (ℕ × ℤ × ℤ) := do
  let r ← uvmcreate
  let a ← (Call.mappages 0 8192 KERNBASE 6).run smallLayout r
  let b ← (Call.uvmunmap 0 1 false).run smallLayout r
  return (r, a, b)

theorem pagetable_is_map_two_pages : ∃ m₀ free r m₁ m, FreeList smallLayout m₀ free ∧
    uvmcreate m₀ = .ok (r, m₁) ∧ r ≠ 0 ∧
    RunWith (CallSteps smallLayout r) (Proper smallLayout r) m₁
      [(.uvmunmap 0 1 false, 0), (.mappages 0 8192 KERNBASE 6, 0)] m ∧
    Run MapStep PageMap.empty [(.uvmunmap 0 1 false, 0), (.mappages 0 8192 KERNBASE 6, 0)]
      (pageMap m.mem r) := by
  have hreturns : returns (fun x => decide (x.1 ≠ 0) && decide (x.2 = (0, 0)))
      (do kinit smallLayout; twoPages) ⟨fun _ _ => 0, 0⟩ := by decide +kernel
  obtain ⟨⟨r, a, b⟩, m, hrun, hres⟩ := exists_of_returns hreturns
  obtain ⟨hr, hab⟩ : r ≠ 0 ∧ (a, b) = ((0, 0) : ℤ × ℤ) := by simpa using hres
  obtain ⟨rfl, rfl⟩ := Prod.mk.inj hab
  obtain ⟨_, m₀, hkinit, hrun⟩ := exists_of_bind hrun
  obtain ⟨free, hfree, -⟩ := (kinit_spec smallLayout _).of_run hkinit
  obtain ⟨r', m₁, hcreate, hrun⟩ := exists_of_bind hrun
  obtain ⟨a, m₂, hmap, hrun⟩ := exists_of_bind hrun
  obtain ⟨b, m₃, hunmap, hrun⟩ := exists_of_bind hrun
  cases hrun
  have hcalls : RunWith (CallSteps smallLayout r) (Proper smallLayout r) m₁
      [(.uvmunmap 0 1 false, 0), (.mappages 0 8192 KERNBASE 6, 0)] m :=
    .step (.step .nil ⟨by decide, by decide, by decide⟩ hmap) ⟨by decide, nofun⟩ hunmap
  exact ⟨m₀, free, r, m₁, m, hfree, hcreate, hr, hcalls,
    (pagetable_is_map hfree hcreate hr hcalls).1⟩

/-- A fresh page table, a page mapped, and a call that is to unmap `2 ^ 52` pages. -/
def wrapAround : VmM (ℕ × ℤ × ℤ × Bool) := do
  let r ← uvmcreate
  let a ← (Call.mappages 0 4096 KERNBASE 6).run smallLayout r
  let b ← (Call.uvmunmap 0 (2 ^ 52) false).run smallLayout r
  let m ← get
  return (r, a, b, isV (lookup m.mem r 0))

/-- **Two calls that do not panic.**  `npages*PGSIZE` wraps around, and `uvmunmap` of `2 ^ 52` pages
removes none; and `mappages` takes any physical address, but `PTE2PA` gives back its page. -/
theorem not_pagetable_is_map :
    (¬ ∀ m₀ free r m₁ h m l m', FreeList smallLayout m₀ free → uvmcreate m₀ = .ok (r, m₁) → r ≠ 0 →
      Run (CallSteps smallLayout r) m₁ h m → CallSteps smallLayout r m l m' →
      MapStep (pageMap m.mem r) l (pageMap m'.mem r)) ∧
    ¬ ∀ pa perm, pa < 2 ^ 56 → perm < 1024 → pte2pa (mkPte pa perm) = pa := by
  refine ⟨fun hall => ?_, fun hall => ?_⟩
  rotate_left
  · have hpage : pte2pa (mkPte 1 6) = 0 := by decide +kernel
    exact nomatch hpage.symm.trans (hall 1 6 (by omega) (by omega))
  have hreturns : returns (fun x => decide (x.1 ≠ 0) && decide (x.2 = (0, 0, true)))
      (do kinit smallLayout; wrapAround) ⟨fun _ _ => 0, 0⟩ := by decide +kernel
  obtain ⟨⟨r, a, b, v⟩, m, hrun, hres⟩ := exists_of_returns hreturns
  obtain ⟨hr, hab⟩ : r ≠ 0 ∧ (a, b, v) = ((0, 0, true) : ℤ × ℤ × Bool) := by simpa using hres
  simp only [Prod.mk.injEq] at hab
  obtain ⟨rfl, rfl, rfl⟩ := hab
  obtain ⟨_, m₀, hkinit, hrun⟩ := exists_of_bind hrun
  obtain ⟨free, hfree, -⟩ := (kinit_spec smallLayout _).of_run hkinit
  obtain ⟨r', m₁, hcreate, hrun⟩ := exists_of_bind hrun
  obtain ⟨a, m₂, hmap, hrun⟩ := exists_of_bind hrun
  obtain ⟨b, m₃, hunmap, hrun⟩ := exists_of_bind hrun
  obtain ⟨m₄, m₅, hget, hrun⟩ := exists_of_bind hrun
  obtain ⟨hfields, rfl⟩ := Prod.mk.inj (Except.ok.inj hrun)
  obtain ⟨rfl, rfl⟩ := Prod.mk.inj (Except.ok.inj hget)
  simp only [Prod.mk.injEq] at hfields
  obtain ⟨rfl, rfl, rfl, hV⟩ := hfields
  have hstep := hall m₀ free r' m₁ [(.mappages 0 4096 KERNBASE 6, 0)] m₂
    (.uvmunmap 0 (2 ^ 52) false, 0) m₃ hfree hcreate hr (.step .nil trivial hmap) hunmap
  have hmapped : pageMap m₃.mem r' (0 / 4096) = _ := pageMap_of_lookup (by decide)
  rw [hV, if_pos rfl] at hmapped
  -- the abstract map has lost page 0
  generalize pageMap m₃.mem r' = M at hstep hmapped
  cases hstep with
  | uvmunmap => exact nomatch hmapped

end Vm
end Xv6
