import Xv6.Vm.Freewalk

/-!
# Page tables of processes

The life of a page table: `uvmcreate` makes a root, `proc_pagetable` maps the trampoline and the
trapframe in it, `proc_freepagetable` unmaps everything and gives the tables back.  In between, the
functions of the modules before this one map and unmap user memory.

The size given to `proc_freepagetable` must be that of the memory that is mapped (`Below`), or
`freewalk` would meet a leaf.
-/

namespace Xv6
namespace Vm

open Bytes Program

variable {L : Layout} {m m' : Phys} {free : List ℕ} {H R : Set ℕ} {r q va sz : ℕ}

/-! ## A new root -/

theorem lookup_of_zero {mem : ℕ → Mem} (h : mem q = fun _ => 0) (va : ℕ) :
    lookup mem q va = 0 :=
  lookup_of_node_none (node_of_zero h _ _)

theorem uses_of_zero {mem : ℕ → Mem} {π : Path} {p : ℕ} (h : mem q = fun _ => 0)
    (hu : Uses mem q π p) : π = [] ∧ p = q := by
  have hn := hu.node_eq
  cases π with
  | nil => exact ⟨rfl, (Option.some.inj hn).symm⟩
  | cons i π =>
    rw [node_of_zero h] at hn
    exact absurd hn (by simp)

theorem Owned.newRoot (h : Owned L m free (insert q H) R) (hq : q ∉ H)
    (hzero : m.mem q = fun _ => 0) : Owned L m free H (insert q R) := by
  obtain ⟨hpage, hnf⟩ := h.held q (Set.mem_insert q H)
  have hfresh : ∀ r ∈ R, ∀ π, ¬ Uses m.mem r π q := fun r hr π hu =>
    (h.uses r hr π q hu).2.2 (Set.mem_insert q H)
  refine ⟨h.freeList, fun p hp => h.held p (Or.inr hp), ?_, ?_, ?_, ?_, ?_⟩
  · rintro r (rfl | hr) π p hu
    · obtain ⟨-, rfl⟩ := uses_of_zero hzero hu
      exact ⟨hpage, hnf, hq⟩
    · obtain ⟨hp, hf, hH⟩ := h.uses r hr π p hu
      exact ⟨hp, hf, fun hpH => hH (Or.inr hpH)⟩
  · rintro r (rfl | hr) r' (rfl | hr') π π' p hu hu'
    · exact ⟨rfl, (uses_of_zero hzero hu).1.trans (uses_of_zero hzero hu').1.symm⟩
    · exact absurd ((uses_of_zero hzero hu).2 ▸ hu') (hfresh r' hr' π')
    · exact absurd ((uses_of_zero hzero hu').2 ▸ hu) (hfresh r hr π)
    · exact h.unique r hr r' hr' π π' p hu hu'
  · intro p hp
    rcases h.total p hp with hf | (rfl | hH) | ⟨r, hr, π, hu⟩
    · exact Or.inl hf
    · exact Or.inr (Or.inr ⟨p, Set.mem_insert p R, [], .of_table (by simp) (by simp [InTable]) rfl⟩)
    · exact Or.inr (Or.inl hH)
    · exact Or.inr (Or.inr ⟨r, Or.inr hr, π, hu⟩)
  · rintro r (rfl | hr) π t i hlen hπ hn hi hV
    · obtain ⟨-, rfl⟩ := uses_of_zero hzero (.of_table (by omega) hπ hn)
      rw [isV_pte_zero hzero] at hV
      exact absurd hV (by simp)
    · exact h.inner r hr π t i hlen hπ hn hi hV
  · rintro r (rfl | hr) π t i hlen hπ hn hi hV
    · obtain ⟨-, rfl⟩ := uses_of_zero hzero (.of_table (by omega) hπ hn)
      rw [isV_pte_zero hzero] at hV
      exact absurd hV (by simp)
    · exact h.leaf r hr π t i hlen hπ hn hi hV

theorem Space.root_notMem (h : Space L m H R) (hr : r ∈ R) : r ∉ H := by
  obtain ⟨free, h⟩ := h
  exact (h.uses r hr [] r (.of_table (by simp) (by simp [InTable]) rfl)).2.2

/-- **`uvmcreate`** makes a page table that maps nothing. -/
theorem uvmcreate_spec (h : Space L m H R) :
    Ensures uvmcreate m fun pt m' =>
      (pt = 0 ∧ m' = m) ∨
        (L.Page pt ∧ pt ∉ R ∧ Space L m' H (insert pt R) ∧ Frame H R m m' ∧
          ∀ va, lookup m'.mem pt va = 0) := by
  rw [uvmcreate]
  refine .bind h.ensures_kalloc ?_
  rintro q m₁ (⟨rfl, rfl⟩ | ⟨hpage, hqH, hspace, hframe⟩)
  · exact .ite (fun _ => .pure (Or.inl ⟨rfl, rfl⟩)) fun h0 => absurd rfl h0
  · refine .ite (fun h0 => absurd h0 hpage.ne_zero) fun _ => ensures_memset_bind ?_
    obtain ⟨hspace₂, hframe₂⟩ := hspace.alloc_page hframe hqH fun _ => 0
    have hnot : q ∉ R := fun hqR => hspace₂.root_notMem hqR (Set.mem_insert q H)
    obtain ⟨free, howned⟩ := hspace₂
    exact .pure (Or.inr ⟨hpage, hnot, ⟨free, howned.newRoot hqH (Phys.setPage_mem_self ..)⟩, hframe₂,
      lookup_of_zero (Phys.setPage_mem_self ..)⟩)

/-! ## Giving a page table back -/

/-- The two pages that are mapped but do not belong to the tree. -/
theorem not_owns_iff (hva : va < 2 ^ 39) :
    ¬ Owns va ↔ InPages TRAMPOLINE 1 va ∨ InPages TRAPFRAME 1 va := by
  have htramp : path va = path TRAMPOLINE ↔ _ := path_inj hva (by rw [TRAMPOLINE_eq]; decide)
  have hframe : path va = path TRAPFRAME ↔ _ := path_inj hva (by rw [TRAPFRAME_eq]; decide)
  rw [Owns, inPages_one, inPages_one, ← htramp, ← hframe]
  tauto

/-- **`uvmfree`** frees user memory and tables, if nothing else is mapped. -/
theorem uvmfree_spec (h : Space L m H R) (hr : r ∈ R) (hsz : sz ≤ TRAPFRAME)
    (hlow : ∀ va < 2 ^ 39, isV (lookup m.mem r va) → va < pgRoundUp sz) :
    Ensures (uvmfree L r sz) m fun _ m' => Space L m' H (R \ {r}) ∧ Frame H (R \ {r}) m m' := by
  have hframe := TRAPFRAME_eq
  have hmax := MAXVA_eq
  have hround : pgRoundUp sz = (sz + 4095) / 4096 * 4096 := pgRoundUp_eq (by omega)
  have hround_le := pgRoundUp_le hsz
  rw [uvmfree]
  refine .ite (fun _ => ?_) fun hz => ?_
  · refine .bind (uvmunmap_spec h hr rfl (by omega)) ?_
    rintro - m₁ ⟨hremap, hempty⟩
    refine (hremap.space.ensures_freewalk hr fun va hva => ?_).mono ?_
    · by_cases hin : InPages 0 (pgRoundUp sz / 4096) va
      · exact hempty va hva hin
      · rw [hremap.outside va hva hin]
        refine Bool.eq_false_iff.mpr fun hV => hin ⟨by omega, ?_⟩
        have := hlow va hva hV
        omega
    · rintro - m' ⟨hspace, hframe'⟩
      exact ⟨hspace, hremap.frame.trans hframe'⟩
  · refine h.ensures_freewalk hr fun va hva => Bool.eq_false_iff.mpr fun hV => ?_
    have := hlow va hva hV
    omega

theorem special_bounds : TRAMPOLINE % 4096 = 0 ∧ TRAMPOLINE + 4096 ≤ MAXVA ∧
    TRAPFRAME % 4096 = 0 ∧ TRAPFRAME + 4096 ≤ MAXVA ∧ TRAPFRAME / 4096 ≠ TRAMPOLINE / 4096 := by
  rw [TRAMPOLINE_eq, TRAPFRAME_eq, MAXVA_eq]
  decide

/-- **`proc_freepagetable` does not panic**, and gives every page of the process's page table back,
if all user memory lies below the size. -/
theorem procFreepagetable_spec (h : Space L m H R) (hr : r ∈ R) (hsz : sz ≤ TRAPFRAME)
    (hbelow : Below m r (pgRoundUp sz)) :
    Ensures (procFreepagetable L r sz) m fun _ m' =>
      Space L m' H (R \ {r}) ∧ Frame H (R \ {r}) m m' := by
  obtain ⟨h1, h2, h3, h4, -⟩ := special_bounds
  rw [procFreepagetable]
  refine .bind (uvmunmap_special h hr h1 h2 not_owns_trampoline) ?_
  rintro - m₁ ⟨hremap₁, hempty₁⟩
  refine .bind (uvmunmap_special hremap₁.space hr h3 h4 not_owns_trapframe) ?_
  rintro - m₂ ⟨hremap₂, hempty₂⟩
  refine (uvmfree_spec hremap₂.space hr hsz fun va hva hV => ?_).mono ?_
  · by_cases hframe : InPages TRAPFRAME 1 va
    · rw [hempty₂ va hva hframe] at hV
      exact absurd hV (by simp)
    rw [hremap₂.outside va hva hframe] at hV
    by_cases htramp : InPages TRAMPOLINE 1 va
    · rw [hempty₁ va hva htramp] at hV
      exact absurd hV (by simp)
    rw [hremap₁.outside va hva htramp] at hV
    refine hbelow va hva (not_not.mp fun hown => ?_) hV
    exact ((not_owns_iff hva).mp hown).elim htramp hframe
  · rintro - m' ⟨hspace, hframe⟩
    exact ⟨hspace, (hremap₁.frame.trans hremap₂.frame).trans hframe⟩

/-! ## `proc_pagetable` -/

/-- The trampoline and the trapframe are mapped, without the user bit. -/
structure Mapped (L : Layout) (m : Phys) (r trapframe : ℕ) : Prop where
  trampoline : lookup m.mem r TRAMPOLINE = mkPte L.trampoline (PTE_R ||| PTE_X)
  trapframe : lookup m.mem r TRAPFRAME = mkPte trapframe (PTE_R ||| PTE_W)

theorem Mapped.owns_of_isU {tf : ℕ} (h : Mapped L m r tf)
    (hU : isU (lookup m.mem r va)) : Owns va := by
  constructor <;> intro heq
  · rw [lookup_of_path heq, h.trampoline, isU_mkPte] at hU
    exact absurd hU (by decide)
  · rw [lookup_of_path heq, h.trapframe, isU_mkPte] at hU
    exact absurd hU (by decide)

/-- The mappings from `TRAPFRAME` on have not changed. -/
def SameHigh (r : ℕ) (m m' : Phys) : Prop :=
  ∀ va, TRAPFRAME ≤ va → va < MAXVA → lookup m'.mem r va = lookup m.mem r va

theorem Mapped.congr {tf : ℕ} (h : Mapped L m r tf) (hsame : SameHigh r m m') :
    Mapped L m' r tf := by
  have hlow : TRAPFRAME ≤ TRAMPOLINE ∧ TRAMPOLINE < MAXVA ∧ TRAPFRAME < MAXVA := by
    rw [TRAMPOLINE_eq, TRAPFRAME_eq, MAXVA_eq]
    decide
  exact ⟨(hsame _ hlow.1 hlow.2.1).trans h.trampoline,
    (hsame _ (le_refl _) hlow.2.2).trans h.trapframe⟩

theorem Remap.sameHigh {a n : ℕ} (h : Remap L H R r a n m m') (hmod : a % 4096 = 0)
    (hle : a + 4096 * n ≤ TRAPFRAME) : SameHigh r m m' := by
  have hmax := MAXVA_eq
  intro va hlo hhi
  refine h.outside va (by omega) fun hin => ?_
  have := hin.2
  omega

theorem Quiet.sameHigh (h : Quiet L H R r m m') (hr : r ∈ R) : SameHigh r m m' :=
  fun va _ _ => h.lookup_eq r hr va

theorem Frame.sameHigh (h : Frame H R m m') (hr : r ∈ R) : SameHigh r m m' :=
  fun va _ _ => h.lookup_eq hr va

theorem Layout.trampoline_lt_pow (L : Layout) : L.trampoline < 2 ^ 64 := by
  have h1 := L.trampoline_lt
  have h2 := L.kend_le
  rw [PHYSTOP_eq] at h2
  omega

/-- **`proc_pagetable`** makes a page table with trampoline and trapframe and no user memory, or
fails and has given everything back. -/
theorem procPagetable_spec {tf : ℕ} (h : Space L m H R) (htf : tf < 2 ^ 64) :
    Ensures (procPagetable L tf) m fun pt m' =>
      (pt = 0 ∧ Space L m' H R ∧ Frame H R m m') ∨
        (L.Page pt ∧ pt ∉ R ∧ Space L m' H (insert pt R) ∧ Frame H R m m' ∧ Mapped L m' pt tf ∧
          Below m' pt 0) := by
  obtain ⟨h1, h2, h3, h4, h5⟩ := special_bounds
  have hmax := MAXVA_eq
  rw [procPagetable]
  refine .bind (uvmcreate_spec h) ?_
  rintro pt m₁ (⟨rfl, rfl⟩ | ⟨hpage, hnot, hspace₁, hframe₁, hzero⟩)
  · exact .ite (fun _ => .pure (Or.inl ⟨rfl, h, Frame.refl H R _⟩)) fun h0 => absurd rfl h0
  have hr : pt ∈ insert pt R := Set.mem_insert pt R
  have hsub : insert pt R \ {pt} = R := Set.insert_sdiff_self_of_notMem hnot
  -- giving up
  have hundo : ∀ m', Space L m' H (insert pt R) → Frame H R m m' →
      (∀ va < 2 ^ 39, isV (lookup m'.mem pt va) = false) →
      Ensures (do uvmfree L pt 0; return 0) m' fun res m'' =>
        (res = 0 ∧ Space L m'' H R ∧ Frame H R m m'') ∨
          (L.Page res ∧ res ∉ R ∧ Space L m'' H (insert res R) ∧ Frame H R m m'' ∧
            Mapped L m'' res tf ∧ Below m'' res 0) := by
    intro m' hspace hframe hempty
    refine .bind (uvmfree_spec hspace hr (Nat.zero_le _) fun va hva hV => ?_) ?_
    · rw [hempty va hva] at hV
      exact absurd hV (by simp)
    · rw [hsub]
      rintro - m'' ⟨hspace', hframe'⟩
      exact .pure (Or.inl ⟨rfl, hspace', hframe.trans hframe'⟩)
  refine .ite (fun h0 => absurd h0 hpage.ne_zero) fun _ => ?_
  have hinv₁ : ∀ va, isV (lookup m₁.mem pt va) = false := fun va => by rw [hzero va, isV_zero]
  refine .bind (mappages_special hspace₁ hr (by omega) h1 (hinv₁ _) not_owns_trampoline
    L.trampoline_lt_pow (by decide) (by decide)) ?_
  rintro res m₂ (⟨rfl, hquiet⟩ | ⟨rfl, hspace₂, hset₂⟩)
  · refine .ite (fun _ => ?_) fun h0 => absurd h0 (by decide)
    refine hundo m₂ hquiet.space (hframe₁.trans (hsub ▸ hquiet.frame)) fun va _ => ?_
    rw [hquiet.lookup_eq pt hr va]
    exact hinv₁ va
  refine .ite (fun h0 => absurd h0 (by decide)) fun _ => ?_
  have hframe₂ : Frame H R m m₂ := hframe₁.trans (hsub ▸ hset₂.frame)
  have hlookup₂ : ∀ va, path va ≠ path TRAMPOLINE → lookup m₂.mem pt va = 0 := fun va hne => by
    rw [hset₂.lookup_eq pt hr va, if_neg fun h => hne h.2, hzero va]
  have hne : path TRAPFRAME ≠ path TRAMPOLINE := fun heq =>
    h5 ((path_inj (by omega) (by omega)).mp heq)
  have hinv₂ : isV (lookup m₂.mem pt TRAPFRAME) = false := by rw [hlookup₂ _ hne, isV_zero]
  refine .bind (mappages_special hspace₂ hr (by omega) h3 hinv₂ not_owns_trapframe htf (by decide)
    (by decide)) ?_
  rintro res m₃ (⟨rfl, hquiet⟩ | ⟨rfl, hspace₃, hset₃⟩)
  · refine .ite (fun _ => ?_) fun h0 => absurd h0 (by decide)
    refine .bind (uvmunmap_special hquiet.space hr h1 h2 not_owns_trampoline) ?_
    rintro - m₄ ⟨hremap, hempty⟩
    refine hundo m₄ hremap.space ((hframe₂.trans (hsub ▸ hquiet.frame)).trans
      (hsub ▸ hremap.frame)) fun va hva => ?_
    by_cases hin : InPages TRAMPOLINE 1 va
    · exact hempty va hva hin
    · rw [hremap.outside va hva hin, hquiet.lookup_eq pt hr va, hlookup₂ va, isV_zero]
      exact fun heq => hin (inPages_one.mpr ((path_inj hva (by omega)).mp heq))
  · refine .ite (fun h0 => absurd h0 (by decide)) fun _ => .pure (Or.inr ⟨hpage, hnot, hspace₃,
      hframe₂.trans (hsub ▸ hset₃.frame), ⟨?_, ?_⟩, fun va hva hown hV => ?_⟩)
    · rw [hset₃.lookup_eq pt hr, if_neg fun h => hne h.2.symm, hset₂.lookup_eq pt hr,
        if_pos ⟨rfl, rfl⟩]
    · rw [hset₃.lookup_eq pt hr, if_pos ⟨rfl, rfl⟩]
    · rw [hset₃.lookup_eq pt hr, if_neg fun h => hown.2 h.2, hlookup₂ va hown.1, isV_zero] at hV
      exact absurd hV (by simp)

/-! ## User memory below a size -/

/-- From `m` to `m'` the mappings of tree `r` have changed below `TRAPFRAME` only, its user memory
lies below `sz`, and no page of the kernel or of another tree has changed. -/
structure Within (L : Layout) (H R : Set ℕ) (r sz : ℕ) (m m' : Phys) : Prop where
  space : Space L m' H R
  frame : Frame H (R \ {r}) m m'
  high : SameHigh r m m'
  below : Below m' r (pgRoundUp sz)

theorem Within.refl (h : Space L m H R) (hbelow : Below m r (pgRoundUp sz)) :
    Within L H R r sz m m :=
  ⟨h, Frame.refl H (R \ {r}) m, fun _ _ _ => rfl, hbelow⟩

theorem Within.trans {m'' : Phys} {sz' : ℕ} (h : Within L H R r sz m m')
    (h' : Within L H R r sz' m' m'') : Within L H R r sz' m m'' :=
  ⟨h'.space, h.frame.trans h'.frame, fun va hlo hhi =>
    (h'.high va hlo hhi).trans (h.high va hlo hhi), h'.below⟩

theorem Remap.within {a n : ℕ} (h : Remap L H R r a n m m') (hmod : a % 4096 = 0)
    (hle : a + 4096 * n ≤ TRAPFRAME) (hbelow : Below m' r (pgRoundUp sz)) :
    Within L H R r sz m m' :=
  ⟨h.space, h.frame, h.sameHigh hmod hle, hbelow⟩

theorem Quiet.within (h : Quiet L H R r m m') (hr : r ∈ R) (hbelow : Below m r (pgRoundUp sz)) :
    Within L H R r sz m m' :=
  ⟨h.space, h.frame, h.sameHigh hr, hbelow.congr fun va => h.lookup_eq r hr va⟩

theorem vmfault_within (h : Space L m H R) (hr : r ∈ R) (hsz : sz ≤ TRAPFRAME)
    (hbelow : Below m r (pgRoundUp sz)) (va : ℕ) :
    Ensures (vmfault L r sz r va) m fun res m' =>
      Within L H R r sz m m' ∧ (res ≠ 0 → va < sz ∧ ∀ va', va' / 4096 = va / 4096 →
        lookup m'.mem r va' = mkPte res (PTE_W ||| PTE_U ||| PTE_R)) := by
  have hframe := TRAPFRAME_eq
  have hround := pgRoundUp_le hsz
  have hle := le_pgRoundUp hsz
  have hmod := pgRoundUp_mod sz
  refine (vmfault_spec h hr hsz).mono ?_
  rintro res m' (⟨rfl, hquiet⟩ | ⟨hpage, hva, hinv, hspace, hset⟩)
  · exact ⟨hquiet.within hr hbelow, fun hne => absurd rfl hne⟩
  · have hdown : pgRoundDown va = va / 4096 * 4096 := rfl
    have hremap := hset.remap hspace hr (by omega)
    refine ⟨hremap.within (by omega) (by omega) fun va' hva' hown hV => ?_, fun _ =>
      ⟨hva, fun va' heq => hset.lookup_self hr (by omega) (by omega) (by omega)⟩⟩
    by_cases hin : InPages (pgRoundDown va) 1 va'
    · have := inPages_one.mp hin
      omega
    · rw [hremap.outside va' hva' hin] at hV
      exact hbelow va' hva' hown hV

end Vm
end Xv6
