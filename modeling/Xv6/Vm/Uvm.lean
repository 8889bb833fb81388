import Xv6.Vm.Walk

/-!
# Unmapping user memory

What `uvmunmap` and `uvmdealloc` do to the owners of pages and to the mappings of the page table
they work on.  They change the mappings of a range of pages (`InPages`) and no other (`Remap`).
-/

namespace Xv6
namespace Vm

open Bytes Program

variable {L : Layout} {m m' m'' : Phys} {H R : Set ℕ} {r t i va pa a n : ℕ}

/-- `va` lies in one of the `n` pages from `a` on. -/
def InPages (a n va : ℕ) : Prop := a / 4096 ≤ va / 4096 ∧ va / 4096 < a / 4096 + n

theorem inPages_one : InPages a 1 va ↔ va / 4096 = a / 4096 := by
  rw [InPages]
  omega

theorem not_inPages_zero : ¬ InPages a 0 va := by
  rintro ⟨h1, h2⟩
  omega

/-- From `m` to `m'` the mappings of tree `r` have changed only in the `n` pages from `a` on, and
no page of the kernel or of another tree has changed. -/
structure Remap (L : Layout) (H R : Set ℕ) (r a n : ℕ) (m m' : Phys) : Prop where
  space : Space L m' H R
  frame : Frame H (R \ {r}) m m'
  outside : ∀ va < 2 ^ 39, ¬ InPages a n va → lookup m'.mem r va = lookup m.mem r va

theorem Remap.refl (h : Space L m H R) : Remap L H R r a n m m :=
  ⟨h, Frame.refl H (R \ {r}) m, fun _ _ _ => rfl⟩

theorem Remap.trans (h : Remap L H R r a n m m') (h' : Remap L H R r a n m' m'') :
    Remap L H R r a n m m'' :=
  ⟨h'.space, h.frame.trans h'.frame, fun va hva hout =>
    (h'.outside va hva hout).trans (h.outside va hva hout)⟩

theorem Remap.mono {a' n' : ℕ} (h : Remap L H R r a n m m')
    (hle : ∀ va, InPages a n va → InPages a' n' va) : Remap L H R r a' n' m m' :=
  ⟨h.space, h.frame, fun va hva hout => h.outside va hva fun hin => hout (hle va hin)⟩

theorem Quiet.remap (h : Quiet L H R r m m') (hr : r ∈ R) : Remap L H R r a n m m' :=
  ⟨h.space, h.frame, fun va _ _ => h.lookup_eq r hr va⟩

theorem SetEntry.remap {v : ℕ} (h : SetEntry H R r a v m m') (hspace : Space L m' H R)
    (hr : r ∈ R) (ha : a < 2 ^ 39) : Remap L H R r a 1 m m' := by
  refine ⟨hspace, h.frame, fun va hva hout => ?_⟩
  rw [h.lookup_eq r hr va, if_neg]
  rintro ⟨-, heq⟩
  rw [path_inj hva ha] at heq
  refine hout ⟨?_, ?_⟩ <;> omega

theorem SetEntry.lookup_self {v : ℕ} (h : SetEntry H R r a v m m') (hr : r ∈ R) (ha : a < 2 ^ 39)
    (hva : va < 2 ^ 39) (heq : va / 4096 = a / 4096) : lookup m'.mem r va = v := by
  rw [h.lookup_eq r hr va, if_pos ⟨rfl, (path_inj hva ha).mpr heq⟩]

/-- The pages of the range are mapped, with the flags `perm`. -/
def Filled (L : Layout) (m : Phys) (r a n perm : ℕ) : Prop :=
  ∀ va < 2 ^ 39, InPages a n va → ∃ q, L.Page q ∧ lookup m.mem r va = mkPte q perm

/-- The pages of the range are not mapped. -/
def Empty (m : Phys) (r a n : ℕ) : Prop :=
  ∀ va < 2 ^ 39, InPages a n va → isV (lookup m.mem r va) = false

/-! ## Unmapping -/

theorem uvmunmapFrom_spec (h : Space L m H R) (hr : r ∈ R) (hmod : a % 4096 = 0)
    (hle : a + 4096 * n ≤ TRAPFRAME) :
    Ensures (uvmunmapFrom L r true n a) m fun _ m' =>
      Remap L H R r a n m m' ∧ Empty m' r a n := by
  induction n generalizing a m with
  | zero =>
    exact .pure ⟨.refl h, fun va _ hin => absurd hin not_inPages_zero⟩
  | succ n ih =>
    have hframe := TRAPFRAME_eq
    have hlt : a < 2 ^ 39 := by omega
    -- what the first turn leaves: the first page is not mapped
    have hrest : ∀ m₁, Remap L H R r a 1 m m₁ → isV (lookup m₁.mem r a) = false →
        Ensures (uvmunmapFrom L r true n (a + 4096)) m₁ fun _ m' =>
          Remap L H R r a (n + 1) m m' ∧ Empty m' r a (n + 1) := by
      intro m₁ h₁ hV₁
      refine (ih h₁.space (by omega) (by omega)).mono ?_
      rintro - m' ⟨h₂, hin₂⟩
      refine ⟨(h₁.mono fun va hva => ?_).trans (h₂.mono fun va hva => ?_), fun va hva hin => ?_⟩
      · obtain ⟨h1, h2⟩ := hva
        exact ⟨h1, by omega⟩
      · obtain ⟨h1, h2⟩ := hva
        exact ⟨by omega, by omega⟩
      · by_cases hfirst : va / 4096 = a / 4096
        · have hout : ¬ InPages (a + 4096) n va := fun hin => by
            have := hin.1
            omega
          rw [h₂.outside va hva hout, lookup_congr hfirst, hV₁]
        · obtain ⟨h1, h2⟩ := hin
          exact hin₂ va hva ⟨by omega, by omega⟩
    rw [uvmunmapFrom]
    refine ensures_walk_false_bind (by rw [MAXVA_eq]; omega) (fun hn => ?_) fun t ht => ?_
    · exact hrest m (.refl h) (by rw [lookup_of_node_none hn, isV_zero])
    · refine ensures_readPte_bind ?_
      rw [← lookup_of_node ht]
      refine .ite (fun hV => hrest m (.refl h) (by simpa using hV)) fun hV => ?_
      have hV' : isV (lookup m.mem r a) = true := by simpa using hV
      rw [freeIf, if_pos rfl, ← bind_assoc]
      refine .bind (unmap_page h hr ht hV' (owns_of_lt (by omega))) ?_
      rintro - m₁ ⟨hspace, hset⟩
      exact hrest m₁ (hset.remap hspace hr hlt) (by rw [hset.lookup_self hr hlt hlt rfl, isV_zero])

theorem u64_turns (hle : a + 4096 * n ≤ MAXVA) :
    (u64 (a + u64 (n * 4096)) - a) / 4096 = n := by
  rw [MAXVA_eq] at hle
  rw [u64_of_lt (x := n * 4096) (by omega), u64_of_lt (by omega)]
  omega

/-- **`uvmunmap` with `do_free`** unmaps the pages of the range and frees them. -/
theorem uvmunmap_spec (h : Space L m H R) (hr : r ∈ R) (hmod : a % 4096 = 0)
    (hle : a + 4096 * n ≤ TRAPFRAME) :
    Ensures (uvmunmap L r a n true) m fun _ m' =>
      Remap L H R r a n m m' ∧ Empty m' r a n := by
  rw [uvmunmap, if_neg (not_not.mpr hmod), u64_turns]
  · exact uvmunmapFrom_spec h hr hmod hle
  · rw [TRAPFRAME_eq] at hle
    rw [MAXVA_eq]
    omega

/-- `uvmunmap` of the trampoline or the trapframe, which are not freed. -/
theorem uvmunmap_special (h : Space L m H R) (hr : r ∈ R) (hmod : a % 4096 = 0)
    (hle : a + 4096 ≤ MAXVA) (hown : ¬ Owns a) :
    Ensures (uvmunmap L r a 1 false) m fun _ m' =>
      Remap L H R r a 1 m m' ∧ Empty m' r a 1 := by
  have hmax := MAXVA_eq
  have hlt : a < 2 ^ 39 := by omega
  rw [uvmunmap, if_neg (not_not.mpr hmod), u64_turns (by omega),
    show (1 : ℕ) = 0 + 1 from rfl, uvmunmapFrom]
  refine ensures_walk_false_bind (by omega) (fun hn => ?_) fun t ht => ?_
  · refine .pure ⟨.refl h, fun va hva heq => ?_⟩
    rw [lookup_congr (inPages_one.mp heq), lookup_of_node_none hn, isV_zero]
  · refine ensures_readPte_bind ?_
    rw [← lookup_of_node ht]
    refine .ite (fun hV => .pure ⟨.refl h, fun va hva heq => ?_⟩) fun hV => ?_
    · rw [lookup_congr (inPages_one.mp heq)]
      simpa using hV
    · rw [freeIf, if_neg (by simp)]
      obtain ⟨hspace, hset⟩ := h.setSpecial (v := 0) hr ht hown (by decide) (by simp [isV_zero])
      refine .bind (.pure (Q := fun _ m' => m' = m) rfl) ?_
      rintro - m₁ rfl
      refine ensures_writePte_bind (.pure ⟨hset.remap hspace hr hlt, fun va hva heq => ?_⟩)
      rw [hset.lookup_self hr hlt hva (inPages_one.mp heq), isV_zero]

/-! ## Shrinking -/

theorem intToU64_of_lt {x : ℕ} (h : x < 2 ^ 31) : intToU64 x = x := by
  rw [intToU64, cInt_of_range (by omega) (by omega)]
  omega

/-- **`uvmdealloc`** unmaps and frees the pages between the two sizes. -/
theorem uvmdealloc_spec {oldsz newsz : ℕ} (h : Space L m H R) (hr : r ∈ R)
    (hold : oldsz ≤ TRAPFRAME) (hlt : newsz < oldsz) :
    Ensures (uvmdealloc L r oldsz newsz) m fun sz m' =>
      sz = newsz ∧
        Remap L H R r (pgRoundUp newsz) ((pgRoundUp oldsz - pgRoundUp newsz) / 4096) m m' ∧
        Empty m' r (pgRoundUp newsz) ((pgRoundUp oldsz - pgRoundUp newsz) / 4096) := by
  have hframe := TRAPFRAME_eq
  have hmod := pgRoundUp_mod newsz
  have hmod' := pgRoundUp_mod oldsz
  have hle := pgRoundUp_le hold
  rw [uvmdealloc, if_neg (by omega)]
  refine .ite (fun hpages => ?_) fun hpages => .pure ⟨rfl, .refl h, fun va _ hin => ?_⟩
  · rw [intToU64_of_lt (by omega)]
    refine .bind (uvmunmap_spec h hr hmod (by omega)) ?_
    rintro - m' ⟨hremap, hempty⟩
    exact .pure ⟨rfl, hremap, hempty⟩
  · obtain ⟨h1, h2⟩ := hin
    omega

theorem uvmdealloc_of_le {oldsz newsz : ℕ} (hle : oldsz ≤ newsz) :
    Ensures (uvmdealloc L r oldsz newsz) m fun sz m' => sz = oldsz ∧ m' = m := by
  rw [uvmdealloc, if_pos hle]
  exact .pure ⟨rfl, rfl⟩

end Vm
end Xv6
