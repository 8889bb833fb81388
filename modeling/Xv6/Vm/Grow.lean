import Xv6.Vm.Uvm

/-!
# Growing and copying user memory

What `uvmalloc`, `uvmcopy`, `uvmclear` and `vmfault` do to the owners of pages and to the mappings
of the page table they work on.  `uvmalloc` and `uvmcopy` run out of memory at any turn, and then
unmap what the earlier turns have mapped.

`uvmalloc` does not look at the address it has reached.  That it never comes to the trapframe is an
assumption here (`hbound`).  There are two reasons for it: the caller has compared the new size
with `TRAPFRAME`, or all pages below are mapped, and physical memory has fewer pages than there are
below the trapframe (`Space.full_le`).
-/

namespace Xv6
namespace Vm

open Bytes Program

variable {L : Layout} {m m' m'' : Phys} {H R : Set ℕ} {r t i va pa a n : ℕ}

/-! ## Growing -/

theorem Space.alloc_page {p : ℕ} (h : Space L m' (insert p H) R) (hframe : Frame H R m m')
    (hp : p ∉ H) (v : Mem) :
    Space L (m'.setPage p v) (insert p H) R ∧ Frame H R m (m'.setPage p v) :=
  ⟨(h.setPage hp v).1, hframe.trans (h.setPage hp v).2⟩

theorem Quiet.ensures_kfree {p : ℕ} (h : Quiet L (insert p H) R r m' m'') (hframe : Frame H R m m')
    (hp : p ∉ H) : Ensures (kfree L p) m'' fun _ m₃ => Quiet L H R r m m₃ := by
  refine (h.space.ensures_kfree hp).mono ?_
  rintro - m₃ ⟨hspace, hframe'⟩
  refine ⟨hspace, ((hframe.mono (le_refl _) Set.sdiff_subset).trans
    (h.frame.mono (Set.subset_insert p H) (le_refl _))).trans
    (hframe'.mono (le_refl _) Set.sdiff_subset), fun r' hr' va => ?_⟩
  rw [hframe'.lookup_eq hr' va, h.lookup_eq r' hr' va, hframe.lookup_eq hr' va]

theorem SetEntry.of_frame {v : ℕ} (h : SetEntry H R r a v m' m'') (hframe : Frame H R m m') :
    SetEntry H R r a v m m'' :=
  ⟨(hframe.mono (le_refl _) Set.sdiff_subset).trans h.frame, fun r' hr' va => by
    rw [h.lookup_eq r' hr' va, hframe.lookup_eq hr' va]⟩

section Grow

variable {o N newsz xperm : ℕ} {m₀ : Phys}

theorem Remap.snoc {k v : ℕ} (h : Remap L H R r o k m₀ m) (hspace : Space L m' H R)
    (h' : SetEntry H R r (o + 4096 * k) v m m') (hr : r ∈ R) (hlt : o + 4096 * k < 2 ^ 39) :
    Remap L H R r o (k + 1) m₀ m' := by
  refine (h.mono fun va hva => ?_).trans ((h'.remap hspace hr hlt).mono fun va hva => ?_)
  · obtain ⟨h1, h2⟩ := hva
    exact ⟨h1, by omega⟩
  · obtain ⟨h1, h2⟩ := hva
    exact ⟨by omega, by omega⟩

theorem Filled.snoc {k q perm : ℕ} (h : Filled L m r o k perm) (hq : L.Page q)
    (h' : SetEntry H R r (o + 4096 * k) (mkPte q perm) m m') (hr : r ∈ R)
    (hlt : o + 4096 * k < 2 ^ 39) : Filled L m' r o (k + 1) perm := by
  intro va hva hin
  by_cases hself : va / 4096 = (o + 4096 * k) / 4096
  · exact ⟨q, hq, h'.lookup_self hr hlt hva hself⟩
  · obtain ⟨q', hq', hlookup⟩ := h va hva (by obtain ⟨h1, h2⟩ := hin; exact ⟨h1, by omega⟩)
    refine ⟨q', hq', ?_⟩
    rw [h'.lookup_eq r hr va, if_neg, hlookup]
    rintro ⟨-, heq⟩
    exact hself ((path_inj hva hlt).mp heq)

theorem uvmalloc_undo {k : ℕ} (h : Remap L H R r o k m₀ m) (hr : r ∈ R) (hmod : o % 4096 = 0)
    (hle : o + 4096 * k ≤ TRAPFRAME) :
    Ensures (uvmdealloc L r (o + 4096 * k) o) m fun _ m' =>
      Remap L H R r o k m₀ m' ∧ Empty m' r o k := by
  have hframe := TRAPFRAME_eq
  have hmax := MAXVA_eq
  by_cases hk : k = 0
  · subst hk
    refine (uvmdealloc_of_le (le_refl o)).mono ?_
    rintro - m' ⟨-, rfl⟩
    exact ⟨h, fun va _ hin => absurd hin not_inPages_zero⟩
  · have hroundo : pgRoundUp o = o := by
      rw [pgRoundUp_eq (by omega)]
      omega
    have hround : pgRoundUp (o + 4096 * k) = o + 4096 * k := by
      rw [pgRoundUp_eq (by omega)]
      omega
    have hpages : (o + 4096 * k - o) / 4096 = k := by omega
    refine (uvmdealloc_spec h.space hr hle (by omega)).mono ?_
    rw [hroundo, hround, hpages]
    rintro - m' ⟨-, hremap, hempty⟩
    exact ⟨h.trans hremap, hempty⟩

theorem uvmallocFrom_spec (newsz : ℕ) (hr : r ∈ R) (hmod : o % 4096 = 0) (hx : xperm < 1024)
    (hempty : ∀ va, o ≤ va → va < TRAPFRAME → isV (lookup m₀.mem r va) = false)
    (hbound : ∀ k < N, o + 4096 * k ≤ TRAPFRAME → ∀ m, Remap L H R r o k m₀ m →
      Filled L m r o k (PTE_R ||| PTE_U ||| xperm) → o + 4096 * k < TRAPFRAME)
    (n k : ℕ) (hk : k + n = N) (hle : o + 4096 * k ≤ TRAPFRAME) (h : Remap L H R r o k m₀ m)
    (hfilled : Filled L m r o k (PTE_R ||| PTE_U ||| xperm)) :
    Ensures (uvmallocFrom L r o newsz xperm n (o + 4096 * k)) m fun sz m' =>
      ∃ k', o + 4096 * k' ≤ TRAPFRAME ∧ Remap L H R r o k' m₀ m' ∧
        ((sz = 0 ∧ Empty m' r o k') ∨
          (sz = newsz ∧ k' = N ∧ Filled L m' r o N (PTE_R ||| PTE_U ||| xperm))) := by
  have hframe := TRAPFRAME_eq
  induction n generalizing k m with
  | zero =>
    rw [Nat.add_zero] at hk
    subst hk
    exact .pure ⟨k, hle, h, Or.inr ⟨rfl, rfl, hfilled⟩⟩
  | succ n ih =>
    have hlt := hbound k (by omega) hle m h hfilled
    have hlt' : o + 4096 * k < 2 ^ 39 := by omega
    have hperm : PTE_R ||| PTE_U ||| xperm < 1024 :=
      Nat.or_lt_two_pow (n := 10) (by decide) hx
    have hR : (PTE_R ||| PTE_U ||| xperm).testBit 1 := by
      rw [Nat.testBit_or]
      rfl
    have hinv : isV (lookup m.mem r (o + 4096 * k)) = false := by
      rw [h.outside _ hlt' fun hin => ?_]
      · exact hempty _ (by omega) hlt
      · obtain ⟨h1, h2⟩ := hin
        omega
    -- every failure ends like this
    have hundo : ∀ m₁, Remap L H R r o k m₀ m₁ →
        Ensures (do let _ ← uvmdealloc L r (o + 4096 * k) o; return 0) m₁ fun sz m' =>
          ∃ k', o + 4096 * k' ≤ TRAPFRAME ∧ Remap L H R r o k' m₀ m' ∧
            ((sz = 0 ∧ Empty m' r o k') ∨
              (sz = newsz ∧ k' = N ∧ Filled L m' r o N (PTE_R ||| PTE_U ||| xperm))) := by
      intro m₁ h₁
      refine .bind (uvmalloc_undo h₁ hr hmod hle) ?_
      rintro - m' ⟨hremap, hemp⟩
      exact .pure ⟨k, hle, hremap, Or.inl ⟨rfl, hemp⟩⟩
    rw [uvmallocFrom]
    refine .bind h.space.ensures_kalloc ?_
    rintro p m₁ (⟨rfl, rfl⟩ | ⟨hpage, hpH, hspace, hframe₁⟩)
    · exact .ite (fun _ => hundo _ h) fun h0 => absurd rfl h0
    · refine .ite (fun h0 => absurd h0 hpage.ne_zero) fun _ => ensures_memset_bind ?_
      obtain ⟨hspace₂, hframe₂⟩ := hspace.alloc_page hframe₁ hpH fun _ => 0
      have hinv₂ : isV (lookup (m₁.setPage p fun _ => 0).mem r (o + 4096 * k)) = false := by
        rw [hframe₂.lookup_eq hr, hinv]
      refine .bind (mappages_held hspace₂ hpH hr hlt (by omega) hinv₂ hperm hR) ?_
      rintro res m₃ (⟨rfl, hquiet⟩ | ⟨rfl, hspace₃, hset⟩)
      · refine .ite (fun _ => ?_) fun h0 => absurd h0 (by decide)
        refine .bind (hquiet.ensures_kfree hframe₂ hpH) ?_
        rintro - m₄ hquiet₄
        exact hundo _ (h.trans (hquiet₄.remap hr))
      · refine .ite (fun h0 => absurd rfl h0) fun _ => ?_
        have hset' := hset.of_frame hframe₂
        have hnext : o + 4096 * k + 4096 = o + 4096 * (k + 1) := by omega
        rw [hnext]
        exact ih (k + 1) (by omega) (by omega) (h.snoc hspace₃ hset' hr hlt')
          (hfilled.snoc hpage hset' hr hlt')

end Grow

/-! ## The user part of an address space -/

/-- Every page of the tree that is mapped lies below `a`. -/
def Below (m : Phys) (r a : ℕ) : Prop :=
  ∀ va < 2 ^ 39, Owns va → isV (lookup m.mem r va) → va < a

/-- Every user page below `a` is mapped, for the user. -/
def Full (m : Phys) (r a : ℕ) : Prop :=
  ∀ va < a, isV (lookup m.mem r va) ∧ isU (lookup m.mem r va)

theorem Below.mono {a' : ℕ} (h : Below m r a) (hle : a ≤ a') : Below m r a' :=
  fun va hva hown hV => lt_of_lt_of_le (h va hva hown hV) hle

theorem Below.not_isV (h : Below m r a) (hle : a ≤ va) (hva : va < TRAPFRAME) :
    isV (lookup m.mem r va) = false := by
  have hframe := TRAPFRAME_eq
  refine Bool.eq_false_iff.mpr fun hV => ?_
  exact absurd (h va (by omega) (owns_of_lt hva) hV) (by omega)

theorem Below.congr (h : Below m r a) (hlookup : ∀ va, lookup m'.mem r va = lookup m.mem r va) :
    Below m' r a := fun va hva hown hV => h va hva hown (hlookup va ▸ hV)

theorem Full.congr (h : Full m r a) (hlookup : ∀ va, lookup m'.mem r va = lookup m.mem r va) :
    Full m' r a := fun va hva => by
  rw [hlookup va]
  exact h va hva

theorem Remap.below (h : Remap L H R r a n m m') (hmod : a % 4096 = 0) (hbelow : Below m r a) :
    Below m' r (a + 4096 * n) := by
  intro va hva hown hV
  by_cases hin : InPages a n va
  · have := hin.2
    omega
  · rw [h.outside va hva hin] at hV
    have := hbelow va hva hown hV
    omega

theorem Remap.below_of_empty (h : Remap L H R r a n m m') (hmod : a % 4096 = 0)
    (hbelow : Below m r (a + 4096 * n)) (hempty : Empty m' r a n) : Below m' r a := by
  intro va hva hown hV
  by_cases hin : InPages a n va
  · rw [hempty va hva hin] at hV
    exact absurd hV (by simp)
  · rw [h.outside va hva hin] at hV
    have hlt := hbelow va hva hown hV
    by_contra hge
    exact hin ⟨by omega, by omega⟩

/-- **Physical memory bounds what can be mapped**: pages that are mapped are distinct. -/
theorem Space.full_le (h : Space L m H R) (hr : r ∈ R) (ha : a ≤ TRAPFRAME) (hmod : a % 4096 = 0)
    (hfull : ∀ va < a, isV (lookup m.mem r va)) : a ≤ PHYSTOP := by
  obtain ⟨free, h⟩ := h
  have hframe := TRAPFRAME_eq
  have hstop := PHYSTOP_eq
  have huses : ∀ k < a / 4096,
      Uses m.mem r (path (4096 * k)) (pte2pa (lookup m.mem r (4096 * k))) := fun k hk =>
    uses_path_iff.mpr ⟨owns_of_lt (by omega), hfull _ (by omega), rfl⟩
  have hcard : (Finset.range (a / 4096)).card ≤ (Finset.range (PHYSTOP / 4096)).card := by
    refine Finset.card_le_card_of_injOn (fun k => pte2pa (lookup m.mem r (4096 * k)) / 4096)
      (fun k hk => ?_) fun k hk k' hk' heq => ?_
    · have hpage := (h.uses r hr _ _ (huses k (Finset.mem_range.mp hk))).1
      obtain ⟨h1, -, h3⟩ := hpage
      refine Finset.mem_coe.mpr (Finset.mem_range.mpr ?_)
      change pte2pa (lookup m.mem r (4096 * k)) / 4096 < _
      omega
    · have hk := Finset.mem_range.mp (Finset.mem_coe.mp hk)
      have hk' := Finset.mem_range.mp (Finset.mem_coe.mp hk')
      have hpage := (h.uses r hr _ _ (huses k hk)).1.1
      have hpage' := (h.uses r hr _ _ (huses k' hk')).1.1
      have hsame : pte2pa (lookup m.mem r (4096 * k)) = pte2pa (lookup m.mem r (4096 * k')) := by
        simp only at heq
        omega
      have hpath := (h.unique r hr r hr _ _ _ (huses k hk) (hsame ▸ huses k' hk')).2
      rw [path_inj (by omega) (by omega)] at hpath
      omega
  rw [Finset.card_range, Finset.card_range] at hcard
  omega

/-! ## `uvmalloc` -/

section Uvmalloc

variable {oldsz newsz xperm : ℕ}

/-- **`uvmalloc`** maps the pages between the two sizes, or fails and leaves none of them mapped. -/
theorem uvmalloc_spec (h : Space L m H R) (hr : r ∈ R) (hx : xperm < 1024)
    (hold : oldsz ≤ TRAPFRAME) (hle : oldsz ≤ newsz) (hbelow : Below m r (pgRoundUp oldsz))
    (hbound : ∀ k m', pgRoundUp oldsz + 4096 * k < newsz →
      pgRoundUp oldsz + 4096 * k ≤ TRAPFRAME →
      Remap L H R r (pgRoundUp oldsz) k m m' →
      Filled L m' r (pgRoundUp oldsz) k (PTE_R ||| PTE_U ||| xperm) →
      pgRoundUp oldsz + 4096 * k < TRAPFRAME) :
    Ensures (uvmalloc L r oldsz newsz xperm) m fun sz m' =>
      ∃ k, pgRoundUp oldsz + 4096 * k ≤ TRAPFRAME ∧
        Remap L H R r (pgRoundUp oldsz) k m m' ∧
        ((sz = 0 ∧ Empty m' r (pgRoundUp oldsz) k) ∨
          (sz = newsz ∧ newsz ≤ TRAPFRAME ∧ pgRoundUp newsz = pgRoundUp oldsz + 4096 * k ∧
            Filled L m' r (pgRoundUp oldsz) k (PTE_R ||| PTE_U ||| xperm))) := by
  have hframe := TRAPFRAME_eq
  have hmax := MAXVA_eq
  have hround : pgRoundUp oldsz = (oldsz + 4095) / 4096 * 4096 := pgRoundUp_eq (by omega)
  have hround_le := pgRoundUp_le hold
  rw [uvmalloc, if_neg (by omega)]
  have hrun := uvmallocFrom_spec (N := (newsz - pgRoundUp oldsz + 4095) / 4096) newsz hr
    (pgRoundUp_mod oldsz) hx (fun va hlo hva => hbelow.not_isV hlo hva)
    (fun k hk hle m' => hbound k m' (by omega) hle) _ 0 (Nat.zero_add _) (by omega) (.refl h)
    fun va _ hin => absurd hin not_inPages_zero
  simp only [Nat.mul_zero, Nat.add_zero] at hrun
  refine hrun.mono ?_
  rintro sz m' ⟨k, hk, hremap, ⟨hsz, hempty⟩ | ⟨hsz, rfl, hfilled⟩⟩
  · exact ⟨k, hk, hremap, Or.inl ⟨hsz, hempty⟩⟩
  · have hnew : newsz ≤ TRAPFRAME := by omega
    have hround' : pgRoundUp newsz = (newsz + 4095) / 4096 * 4096 := pgRoundUp_eq (by omega)
    exact ⟨_, hk, hremap, Or.inr ⟨hsz, hnew, by omega, hfilled⟩⟩

theorem uvmalloc_of_le (h : Space L m H R) (hr : r ∈ R) (hx : xperm < 1024)
    (hold : oldsz ≤ TRAPFRAME) (hnew : newsz ≤ TRAPFRAME) (hbelow : Below m r (pgRoundUp oldsz)) :
    Ensures (uvmalloc L r oldsz newsz xperm) m fun sz m' =>
      ∃ k, pgRoundUp oldsz + 4096 * k ≤ TRAPFRAME ∧
        Remap L H R r (pgRoundUp oldsz) k m m' ∧
        ((sz = 0 ∧ Below m' r (pgRoundUp oldsz)) ∨
          (sz = max oldsz newsz ∧ Below m' r (pgRoundUp sz))) := by
  have hround := pgRoundUp_le hold
  by_cases hlt : newsz < oldsz
  · rw [uvmalloc, if_pos hlt]
    exact .pure ⟨0, by omega, .refl h, Or.inr ⟨by omega, hbelow⟩⟩
  · refine (uvmalloc_spec h hr hx hold (by omega) hbelow fun k m' hk _ _ _ => by omega).mono ?_
    rintro sz m' ⟨k, hk, hremap, ⟨hsz, hempty⟩ | ⟨hsz, -, hpages, -⟩⟩
    · exact ⟨k, hk, hremap, Or.inl ⟨hsz, hremap.below_of_empty (pgRoundUp_mod _)
        (hbelow.mono (by omega)) hempty⟩⟩
    · refine ⟨k, hk, hremap, Or.inr ⟨by omega, ?_⟩⟩
      rw [hsz, hpages]
      exact hremap.below (pgRoundUp_mod _) hbelow

end Uvmalloc

/-- `uvmdealloc` leaves no page mapped above the size it returns. -/
theorem uvmdealloc_below {oldsz newsz : ℕ} (h : Space L m H R) (hr : r ∈ R)
    (hold : oldsz ≤ TRAPFRAME) (hbelow : Below m r (pgRoundUp oldsz)) :
    Ensures (uvmdealloc L r oldsz newsz) m fun sz m' =>
      ∃ a k, a % 4096 = 0 ∧ a + 4096 * k ≤ TRAPFRAME ∧ Remap L H R r a k m m' ∧ sz ≤ oldsz ∧
        Below m' r (pgRoundUp sz) := by
  have hround := pgRoundUp_le hold
  have hmod := pgRoundUp_mod oldsz
  have hmod' := pgRoundUp_mod newsz
  by_cases hlt : newsz < oldsz
  · refine (uvmdealloc_spec h hr hold hlt).mono ?_
    rintro sz m' ⟨rfl, hremap, hempty⟩
    have hle : pgRoundUp sz ≤ pgRoundUp oldsz := pgRoundUp_mono hlt.le hold
    exact ⟨_, _, hmod', by omega, hremap, hlt.le,
      hremap.below_of_empty hmod' (hbelow.mono (by omega)) hempty⟩
  · refine (uvmdealloc_of_le (by omega)).mono ?_
    rintro sz m' ⟨rfl, rfl⟩
    exact ⟨_, 0, hmod, by omega, .refl h, le_refl _, hbelow⟩

/-! ## `uvmcopy` -/

theorem ensures_memmovePage_bind {β : Type} {Q : β → Phys → Prop} {dst src : ℕ} {f : Unit → VmM β}
    (h : Ensures (f ()) (m.setPage dst (m.mem src)) Q) :
    Ensures (memmovePage dst src >>= f) m Q := by
  obtain ⟨b, m', hrun, hQ⟩ := h
  exact ⟨b, m', hrun, hQ⟩

theorem isR_of_isV (h : Space L m H R) (hr : r ∈ R) (hV : isV (lookup m.mem r va)) :
    isR (lookup m.mem r va) := by
  obtain ⟨free, h⟩ := h
  cases hn : node m.mem r (dir va) with
  | none =>
    rw [lookup_of_node_none hn, isV_zero] at hV
    exact absurd hV (by simp)
  | some t =>
    rw [lookup_of_node hn] at hV ⊢
    exact h.leaf r hr (dir va) t _ rfl (inTable_dir va) hn (px_lt 0 va) hV

section Uvmcopy

variable {old new sz : ℕ} {m₀ : Phys}

theorem uvmcopyFrom_spec (hold : old ∈ R) (hnew : new ∈ R)
    (hbelow : Below m₀ new 0) (n k : ℕ) (hle : 4096 * (k + n) ≤ TRAPFRAME)
    (h : Remap L H R new 0 k m₀ m) :
    Ensures (uvmcopyFrom L old new n (4096 * k)) m fun res m' =>
      ∃ k' ≤ k + n, Remap L H R new 0 k' m₀ m' ∧ ((res = -1 ∧ Empty m' new 0 k') ∨ res = 0) := by
  have hframe := TRAPFRAME_eq
  have hmax := MAXVA_eq
  induction n generalizing k m with
  | zero => exact .pure ⟨k, by omega, h, Or.inr rfl⟩
  | succ n ih =>
    have hlt : 4096 * k < 2 ^ 39 := by omega
    have hnext : 4096 * k + 4096 = 4096 * (k + 1) := by omega
    have hpages : 4096 * k / 4096 = k := by omega
    -- a page that the parent does not have
    have hskip : Ensures (uvmcopyFrom L old new n (4096 * k + 4096)) m fun res m' =>
        ∃ k' ≤ k + (n + 1), Remap L H R new 0 k' m₀ m' ∧
          ((res = -1 ∧ Empty m' new 0 k') ∨ res = 0) := by
      rw [hnext]
      refine (ih (k + 1) (by omega) (h.mono fun va hva => ?_)).mono ?_
      · obtain ⟨h1, h2⟩ := hva
        exact ⟨h1, by omega⟩
      · rintro res m' ⟨k', hk', hrest⟩
        exact ⟨k', by omega, hrest⟩
    -- out of memory
    have hfail : ∀ m₁, Remap L H R new 0 k m₀ m₁ →
        Ensures (do uvmunmap L new 0 (4096 * k / 4096) true; return -1) m₁ fun res m' =>
          ∃ k' ≤ k + (n + 1), Remap L H R new 0 k' m₀ m' ∧
            ((res = -1 ∧ Empty m' new 0 k') ∨ res = 0) := by
      intro m₁ h₁
      rw [hpages]
      refine .bind (uvmunmap_spec h₁.space hnew rfl (by omega)) ?_
      rintro - m' ⟨hremap, hempty⟩
      exact .pure ⟨k, by omega, h₁.trans hremap, Or.inl ⟨rfl, hempty⟩⟩
    rw [uvmcopyFrom]
    refine ensures_walk_false_bind (by omega) (fun _ => hskip) fun t ht => ?_
    refine ensures_readPte_bind ?_
    rw [← lookup_of_node ht]
    refine .ite (fun _ => hskip) fun hV => .bind h.space.ensures_kalloc ?_
    have hV' : isV (lookup m.mem old (4096 * k)) = true := by simpa using hV
    have hperm : pteFlags (lookup m.mem old (4096 * k)) < 1024 := Nat.mod_lt _ (by decide)
    have hR : (pteFlags (lookup m.mem old (4096 * k))).testBit 1 := by
      have := isR_of_isV h.space hold hV'
      rw [pteFlags, show (1024 : ℕ) = 2 ^ 10 from rfl, Nat.testBit_mod_two_pow]
      simpa [isR] using this
    have hinv : isV (lookup m.mem new (4096 * k)) = false := by
      rw [h.outside _ hlt fun hin => ?_]
      · exact hbelow.not_isV (Nat.zero_le _) (by omega)
      · have := hin.2
        omega
    rintro p m₁ (⟨rfl, rfl⟩ | ⟨hpage, hpH, hspace, hframe₁⟩)
    · exact .ite (fun _ => hfail _ h) fun h0 => absurd rfl h0
    · refine .ite (fun h0 => absurd h0 hpage.ne_zero) fun _ => ensures_memmovePage_bind ?_
      obtain ⟨hspace₂, hframe₂⟩ := hspace.alloc_page hframe₁ hpH
        (m₁.mem (pte2pa (lookup m.mem old (4096 * k))))
      have hinv₂ := hframe₂.lookup_eq hnew (4096 * k) ▸ hinv
      refine .bind (mappages_held hspace₂ hpH hnew (by omega) (by omega) hinv₂ hperm hR) ?_
      rintro res m₃ (⟨rfl, hquiet⟩ | ⟨rfl, hspace₃, hset⟩)
      · refine .ite (fun _ => ?_) fun h0 => absurd h0 (by decide)
        refine .bind (hquiet.ensures_kfree hframe₂ hpH) ?_
        rintro - m₄ hquiet₄
        exact hfail _ (h.trans (hquiet₄.remap hnew))
      · refine .ite (fun h0 => absurd rfl h0) fun _ => ?_
        have hset' := hset.of_frame hframe₂
        have hsnoc := h.snoc hspace₃ (by rwa [Nat.zero_add]) hnew (by omega)
        rw [hnext]
        refine (ih (k + 1) (by omega) hsnoc).mono ?_
        rintro res m' ⟨k', hk', hrest⟩
        exact ⟨k', by omega, hrest⟩

/-- **`uvmcopy`** maps copies of the parent's pages in the child's table, or fails and leaves no
page mapped there.  The parent's table and pages stay as they are. -/
theorem uvmcopy_spec (h : Space L m H R) (hold : old ∈ R) (hnew : new ∈ R)
    (hbelow : Below m new 0) (hsz : sz ≤ TRAPFRAME) :
    Ensures (uvmcopy L old new sz) m fun res m' =>
      ∃ k, 4096 * k ≤ pgRoundUp sz ∧ Remap L H R new 0 k m m' ∧
        ((res = -1 ∧ Empty m' new 0 k) ∨ res = 0) := by
  have hframe := TRAPFRAME_eq
  have hmax := MAXVA_eq
  have hround : pgRoundUp sz = (sz + 4095) / 4096 * 4096 := pgRoundUp_eq (by omega)
  have hround_le := pgRoundUp_le hsz
  have hrun := uvmcopyFrom_spec hold hnew hbelow ((sz + 4095) / 4096) 0 (by omega) (.refl h)
  rw [Nat.mul_zero] at hrun
  refine hrun.mono ?_
  rintro res m' ⟨k, hk, hrest⟩
  exact ⟨k, by omega, hrest⟩

end Uvmcopy

/-! ## `uvmclear` and `vmfault` -/

/-- **`uvmclear`** takes the user bit from the entry of a page that is mapped. -/
theorem uvmclear_spec (h : Space L m H R) (hr : r ∈ R) (hva : va < MAXVA)
    (hV : isV (lookup m.mem r va)) :
    Ensures (uvmclear r va) m fun _ m' =>
      Space L m' H R ∧ SetEntry H R r va (clearU (lookup m.mem r va)) m m' := by
  rw [uvmclear]
  refine ensures_walk_false_bind hva (fun hn => ?_) fun t ht => ?_
  · rw [lookup_of_node_none hn, isV_zero] at hV
    exact absurd hV (by simp)
  · have hlookup := lookup_of_node ht
    have hlt : lookup m.mem r va < 2 ^ 64 := hlookup ▸ pte_lt m.mem t (px 0 va)
    refine ensures_readPte_bind (.modify ?_)
    rw [← hlookup]
    refine h.setFlags hr ht hV (clearU_lt hlt) ?_ (pte2pa_clearU hlt) ?_
    · rw [isR, testBit_clearU_of_ne hlt (by decide)]
      exact isR_of_isV h hr hV
    · rw [isV, testBit_clearU_of_ne hlt (by decide)]
      exact hV

theorem ismapped_spec (hva : va < MAXVA) :
    Ensures (ismapped r va) m fun b m' => m' = m ∧ b = isV (lookup m.mem r va) := by
  rw [ismapped]
  refine ensures_walk_false_bind hva (fun hn => ?_) fun t ht => ?_
  · exact .pure ⟨rfl, by rw [lookup_of_node_none hn, isV_zero]⟩
  · exact ensures_readPte_bind (.pure ⟨rfl, by rw [lookup_of_node ht]⟩)

/-- **`vmfault`** maps a page for an address below the size of the process that has none, or
changes no mapping. -/
theorem vmfault_spec {psz : ℕ} (h : Space L m H R) (hr : r ∈ R) (hsz : psz ≤ TRAPFRAME) :
    Ensures (vmfault L r psz r va) m fun res m' =>
      (res = 0 ∧ Quiet L H R r m m') ∨
        (L.Page res ∧ va < psz ∧ isV (lookup m.mem r va) = false ∧ Space L m' H R ∧
          SetEntry H R r (pgRoundDown va) (mkPte res (PTE_W ||| PTE_U ||| PTE_R)) m m') := by
  have hframe := TRAPFRAME_eq
  have hmax := MAXVA_eq
  rw [vmfault]
  refine .ite (fun _ => .pure (Or.inl ⟨rfl, .refl h⟩)) fun hva => ?_
  have hdown : pgRoundDown va = va / 4096 * 4096 := rfl
  have hsame : lookup m.mem r (pgRoundDown va) = lookup m.mem r va :=
    lookup_congr (by rw [hdown]; omega)
  refine .bind (ismapped_spec (by omega)) ?_
  rintro b m₁ ⟨rfl, rfl⟩
  refine .ite (fun _ => .pure (Or.inl ⟨rfl, .refl h⟩)) fun hinv => .bind h.ensures_kalloc ?_
  have hinv' : isV (lookup m₁.mem r (pgRoundDown va)) = false := Bool.eq_false_iff.mpr hinv
  rintro p m₂ (⟨rfl, rfl⟩ | ⟨hpage, hpH, hspace, hframe₁⟩)
  · exact .ite (fun _ => .pure (Or.inl ⟨rfl, .refl h⟩)) fun h0 => absurd rfl h0
  · refine .ite (fun h0 => absurd h0 hpage.ne_zero) fun _ => ensures_memset_bind ?_
    obtain ⟨hspace₂, hframe₂⟩ := hspace.alloc_page hframe₁ hpH fun _ => 0
    have hinv₂ := hframe₂.lookup_eq hr (pgRoundDown va) ▸ hinv'
    refine .bind (mappages_held hspace₂ hpH hr (by omega) (by omega) hinv₂ (by decide)
      (by decide)) ?_
    rintro res m₃ (⟨rfl, hquiet⟩ | ⟨rfl, hspace₃, hset⟩)
    · refine .ite (fun _ => ?_) fun h0 => absurd h0 (by decide)
      refine .bind (hquiet.ensures_kfree hframe₂ hpH) ?_
      rintro - m₄ hquiet₄
      exact .pure (Or.inl ⟨rfl, hquiet₄⟩)
    · refine .ite (fun h0 => absurd rfl h0) fun _ => .pure (Or.inr ⟨hpage, by omega, ?_, hspace₃,
        hset.of_frame hframe₂⟩)
      rw [← hsame]
      exact hinv'

end Vm
end Xv6
