import Xv6.Vm.Sbrk
import Xv6.Vm.UserMemory

/-!
# `copyin` and `copyout` on flat memory

`copyin` and `copyout` take any 64-bit address and any length.  What they reach of user memory is a
range of bytes; a page of that range is looked up, and brought by `vmfault` if it is promised.  The
theorem says what becomes of the range: all of it is copied if every page is there in the end, mapped
for the user (and writable, for `copyout`); otherwise the part in the pages before the first one that
is not.

`Leaves` is what is assumed of the page table.  Its tables are apart from each other and from the
pages that are mapped, and no page of the user is mapped twice; there is no condition on permissions.
Every process has such a page table (`Inv.leaves`).  `Touches` is what a call may do to the mappings
and to the pages: a promised page of the range may come, and the pages of the user in the range may be
written; all others, and in particular those that are not the user's, stay as they are.
-/

namespace Xv6
namespace Vm

open Bytes Program

variable {L : Layout} {m m' m'' : Phys} {free free' : List ℕ} {r sz va k a b e : ℕ}

/-! ## Page tables of processes -/

/-- The tables of `r` are apart from each other and from the pages that `r` maps, and no page of the
user is mapped twice. -/
structure Leaves (L : Layout) (r : ℕ) (m : Phys) : Prop where
  apart : ∃ free, Tables L m free {r} ∧ ∀ k e, pageMap m.mem r k = some e →
    pte2pa e ∉ free ∧ ∀ π, ¬ IsTable m.mem r π (pte2pa e)
  page : ∀ k e, pageMap m.mem r k = some e → isU e → L.Page (pte2pa e)
  inj : ∀ k e k' e', pageMap m.mem r k = some e → pageMap m.mem r k' = some e' → isU e' →
    pte2pa e = pte2pa e' → k = k'

/-- Page `k` is mapped for the user. -/
def UserLeaf (m : Phys) (r k : ℕ) : Prop := ∃ e, pageMap m.mem r k = some e ∧ isU e

/-- Page `k` is mapped for the user, to be written. -/
def WritableLeaf (m : Phys) (r k : ℕ) : Prop := ∃ e, pageMap m.mem r k = some e ∧ isU e ∧ isW e

/-- There are two free pages at most. -/
def Short (L : Layout) (m : Phys) : Prop := ∃ free, FreeList L m free ∧ free.length ≤ 2

theorem Holds.leaves (h : Leaves L r m) (htables : FreeList L m free)
    (hheld : Holds L r a b (pageMap m.mem r) m free ∅ free' m') : Leaves L r m' := by
  obtain ⟨free₀, htables₀, hapart⟩ := h.apart
  obtain rfl : free₀ = free := htables₀.freeList.unique htables
  -- a page that was mapped before
  have hold : ∀ k e, ¬ (a ≤ k ∧ k < b) → pageMap m'.mem r k = some e →
      pageMap m.mem r k = some e := fun k e hk he => (hheld.outside k hk) ▸ he
  refine ⟨⟨free', hheld.tables, fun k e he => ?_⟩, fun k e he hU => ?_,
    fun k e k' e' he he' hU heq => ?_⟩
  · by_cases hk : a ≤ k ∧ k < b
    · obtain ⟨-, hfree, -, htable⟩ := hheld.leaf k e hk.1 hk.2 he
      exact ⟨hfree, htable⟩
    · obtain ⟨hfree, htable⟩ := hapart k e (hold k e hk he)
      exact ⟨fun hmem => hfree (hheld.subset _ hmem), fun π ht =>
        (hheld.table π _ ht).elim (htable π) hfree⟩
  · by_cases hk : a ≤ k ∧ k < b
    · exact htables.page _ (hheld.leaf k e hk.1 hk.2 he).1
    · exact h.page k e (hold k e hk he) hU
  · by_cases hk : a ≤ k ∧ k < b <;> by_cases hk' : a ≤ k' ∧ k' < b
    · exact hheld.once k k' e e' hk.1 hk.2 hk'.1 hk'.2 he he' heq
    · exact absurd (heq ▸ (hheld.leaf k e hk.1 hk.2 he).1) (hapart k' e' (hold k' e' hk' he')).1
    · exact absurd (heq ▸ (hheld.leaf k' e' hk'.1 hk'.2 he').1) (hapart k e (hold k e hk he)).1
    · exact h.inj k e k' e' (hold k e hk he) (hold k' e' hk' he') hU heq

theorem Holds.leaf_kept (h : Leaves L r m) (htables : FreeList L m free)
    (hheld : Holds L r a b (pageMap m.mem r) m free ∅ free' m') (he : pageMap m.mem r k = some e) :
    m'.mem (pte2pa e) = m.mem (pte2pa e) := by
  obtain ⟨free₀, htables₀, hapart⟩ := h.apart
  obtain rfl : free₀ = free := htables₀.freeList.unique htables
  exact hheld.kept _ (hapart k e he).1 (hapart k e he).2

/-! ## What a call may touch -/

/-- From `m` to `m'` promised pages among `P` have come, and pages of the user among `P` have been
written. -/
structure Touches (L : Layout) (r sz : ℕ) (P : ℕ → Prop) (m m' : Phys) : Prop where
  entry : ∀ k, pageMap m'.mem r k = pageMap m.mem r k ∨
    (P k ∧ 4096 * k < sz ∧ pageMap m.mem r k = none ∧
      ∃ q, L.Page q ∧ pageMap m'.mem r k = some (mkPte q (PTE_W ||| PTE_U ||| PTE_R)))
  kept : ∀ k e, pageMap m.mem r k = some e → (P k → isU e = false) →
    m'.mem (pte2pa e) = m.mem (pte2pa e)

section Touches

variable {P Q : ℕ → Prop}

theorem Touches.refl : Touches L r sz P m m := ⟨fun _ => Or.inl rfl, fun _ _ _ _ => rfl⟩

theorem Touches.entry_of_some (h : Touches L r sz P m m') (he : pageMap m.mem r k = some e) :
    pageMap m'.mem r k = some e := by
  rcases h.entry k with heq | ⟨-, -, hnone, -⟩
  · rw [heq, he]
  · exact nomatch hnone.symm.trans he

theorem Touches.userLeaf (h : Touches L r sz P m m') (hk : UserLeaf m r k) : UserLeaf m' r k := by
  obtain ⟨e, he, hU⟩ := hk
  exact ⟨e, h.entry_of_some he, hU⟩

theorem Touches.writableLeaf (h : Touches L r sz P m m') (hk : WritableLeaf m r k) :
    WritableLeaf m' r k := by
  obtain ⟨e, he, hrest⟩ := hk
  exact ⟨e, h.entry_of_some he, hrest⟩

theorem Touches.mono (h : Touches L r sz P m m') (hPQ : ∀ k, P k → Q k) :
    Touches L r sz Q m m' :=
  ⟨fun k => (h.entry k).imp_right fun ⟨hP, hrest⟩ => ⟨hPQ k hP, hrest⟩,
    fun k e he hQ => h.kept k e he fun hP => hQ (hPQ k hP)⟩

theorem Touches.trans (h : Touches L r sz P m m') (h' : Touches L r sz P m' m'') :
    Touches L r sz P m m'' := by
  refine ⟨fun k => ?_, fun k e he hP => ?_⟩
  · rcases h.entry k with heq | ⟨hP, hsz, hnone, q, hq, hentry⟩
    · rw [← heq]
      exact h'.entry k
    · exact Or.inr ⟨hP, hsz, hnone, q, hq, h'.entry_of_some hentry⟩
  · rw [h'.kept k e (h.entry_of_some he) hP, h.kept k e he hP]

end Touches

/-! ## User memory -/

theorem userMem_eq (m : Phys) (r sz k : ℕ) : userMem m r sz k =
    match pageMap m.mem r k with
    | some e => userPage m.mem e
    | none => if k < MAXVA / 4096 ∧ 4096 * k < sz then some .zero else none := by
  rw [userMem, pageMap]
  by_cases hk : k < MAXVA / 4096
  · cases hV : isV (lookup m.mem r (4096 * k)) with
    | true => simp [hk]
    | false => simp [hk]
  · simp [hk]

/-- User memory with `bs` written at `dst`. -/
def UserMem.write (u : UserMem) (dst : ℕ) (bs : List UInt8) : UserMem := fun k =>
  (u k).map fun page => { page with
    bytes := fun o => if o < 4096 ∧ dst ≤ 4096 * k + o ∧ 4096 * k + o < dst + bs.length
      then bs.getD (4096 * k + o - dst) 0 else page.bytes o }

section Write

variable {u : UserMem} {dst dst' : ℕ} {bs bs' : List UInt8}

@[simp] theorem UserMem.write_nil : u.write dst [] = u := by
  funext k
  rw [UserMem.write]
  cases u k with
  | none => rfl
  | some page =>
    rw [Option.map_some]
    congr 2
    funext o
    rw [if_neg (by simp)]

theorem UserMem.write_append (h : bs' ≠ [] → dst' = dst + bs.length) :
    (u.write dst bs).write dst' bs' = u.write dst (bs ++ bs') := by
  by_cases hnil : bs' = []
  · rw [hnil, UserMem.write_nil, List.append_nil]
  · obtain rfl := h hnil
    funext k
    simp only [UserMem.write, Option.map_map, List.length_append]
    congr 1
    funext page
    simp only [Function.comp]
    congr 1
    funext o
    by_cases hin : o < 4096 ∧ dst + bs.length ≤ 4096 * k + o ∧
        4096 * k + o < dst + bs.length + bs'.length
    · rw [if_pos hin, if_pos (by omega), List.getD_append_right _ _ _ _ (by omega)]
      congr 1
      omega
    · rw [if_neg hin]
      by_cases hin' : o < 4096 ∧ dst ≤ 4096 * k + o ∧ 4096 * k + o < dst + bs.length
      · rw [if_pos hin', if_pos (by omega), List.getD_append _ _ _ _ (by omega)]
      · rw [if_neg hin', if_neg (by omega)]

theorem UserMem.byte_write {j : ℕ} (hj : j < bs.length)
    (hpage : u.write dst bs ((dst + j) / 4096) ≠ none) :
    (u.write dst bs).byte (dst + j) = bs[j]? := by
  rw [UserMem.byte]
  rw [UserMem.write] at hpage ⊢
  cases hu : u ((dst + j) / 4096) with
  | none =>
    rw [hu] at hpage
    exact absurd rfl hpage
  | some page =>
    rw [Option.map_some, Option.map_some]
    dsimp only
    rw [if_pos (by omega), List.getD_eq_getElem?_getD,
      show 4096 * ((dst + j) / 4096) + (dst + j) % 4096 - dst = j by omega,
      List.getElem?_eq_getElem hj, Option.getD_some]

end Write

/-! ## Bringing a page -/

/-- From `m` to `m'` page `k` may have come, if it was promised. -/
structure Brings (L : Layout) (r sz k : ℕ) (m m' : Phys) : Prop where
  entry : ∀ j, pageMap m'.mem r j = pageMap m.mem r j ∨
    (j = k ∧ 4096 * j < sz ∧ pageMap m.mem r j = none ∧ ∃ q, L.Page q ∧
      pageMap m'.mem r j = some (mkPte q (PTE_W ||| PTE_U ||| PTE_R)) ∧ m'.mem q = fun _ => 0)
  kept : ∀ j e, pageMap m.mem r j = some e → m'.mem (pte2pa e) = m.mem (pte2pa e)

theorem Brings.refl : Brings L r sz k m m := ⟨fun _ => Or.inl rfl, fun _ _ _ => rfl⟩

theorem Brings.touches (h : Brings L r sz k m m') : Touches L r sz (· = k) m m' where
  entry j := (h.entry j).imp_right fun ⟨hj, hsz, hnone, q, hq, hentry, _⟩ =>
    ⟨hj, hsz, hnone, q, hq, hentry⟩
  kept j e he _ := h.kept j e he

/-- **The user sees no difference.** -/
theorem Brings.userMem_eq (h : Brings L r sz k m m') (hsz : sz ≤ TRAPFRAME) :
    userMem m' r sz = userMem m r sz := by
  have hframe := TRAPFRAME_eq
  have hmax := MAXVA_eq
  funext j
  rw [Vm.userMem_eq, Vm.userMem_eq]
  rcases h.entry j with heq | ⟨-, hlt, hnone, q, hq, hentry, hzero⟩
  · rw [heq]
    cases he : pageMap m.mem r j with
    | none => rfl
    | some e =>
      dsimp only
      rw [userPage, userPage, h.kept j e he]
  · rw [hentry, hnone]
    dsimp only
    rw [if_pos ⟨by omega, hlt⟩, userPage, isU_mkPte, isR_mkPte, isW_mkPte,
      pte2pa_mkPte hq.lt hq.1 (by decide), hzero]
    rfl

/-- **`vmfault`** brings a page that is promised, unless memory is short. -/
theorem Leaves.vmfault (h : Leaves L r m) (hsz : sz ≤ TRAPFRAME) (k : ℕ) :
    Ensures (vmfault L r sz r (4096 * k)) m fun pa m' => Leaves L r m' ∧ Brings L r sz k m m' ∧
      ((pa = 0 ∧ pageMap m'.mem r k = pageMap m.mem r k ∧
          (4096 * k < sz → pageMap m.mem r k = none → Short L m')) ∨
        (L.Page pa ∧ pageMap m'.mem r k = some (mkPte pa (PTE_W ||| PTE_U ||| PTE_R)))) := by
  have hframe := TRAPFRAME_eq
  have hmax := MAXVA_eq
  obtain ⟨free, htables, -⟩ := h.apart
  have hround : pgRoundDown (4096 * k) = 4096 * k := by
    rw [pgRoundDown]
    omega
  rw [Vm.vmfault, hround]
  refine .ite (fun hge => .pure ⟨h, .refl, Or.inl ⟨rfl, rfl, fun hlt => ?_⟩⟩) fun hlt => ?_
  · omega
  have hentry : pageMap m.mem r k = _ :=
    (congrArg _ (show k = 4096 * k / 4096 by omega)).trans (pageMap_of_lookup (by omega))
  refine .bind (ismapped_spec (by omega)) ?_
  rintro b m₁ ⟨rfl, rfl⟩
  refine .ite (fun hV => .pure ⟨h, .refl, Or.inl ⟨rfl, rfl, fun _ hnone => ?_⟩⟩) fun hV => ?_
  · rw [hentry, if_pos hV] at hnone
    cases hnone
  have hnone : pageMap m₁.mem r k = none := by rw [hentry, if_neg hV]
  -- no mapping changes when memory is short
  have hfail : ∀ m' free', Holds L r k k (pageMap m₁.mem r) m₁ free ∅ free' m' →
      free'.length ≤ 2 → Leaves L r m' ∧ Brings L r sz k m₁ m' ∧
      (((0 : ℕ) = 0 ∧ pageMap m'.mem r k = pageMap m₁.mem r k ∧
          (4096 * k < sz → pageMap m₁.mem r k = none → Short L m')) ∨
        (L.Page 0 ∧ pageMap m'.mem r k = some (mkPte 0 (PTE_W ||| PTE_U ||| PTE_R)))) := by
    intro m' free' hheld hlen
    refine ⟨hheld.leaves h htables.freeList, ⟨fun j => Or.inl (hheld.outside j (by omega)),
      fun j e he => hheld.leaf_kept h htables.freeList he⟩, Or.inl ⟨rfl, ?_, fun _ _ => ?_⟩⟩
    · exact hheld.outside k (by omega)
    · exact ⟨free', hheld.tables.freeList, hlen⟩
  refine (Fills.refl (T := fun _ => some (PTE_W ||| PTE_U ||| PTE_R, fun _ => 0))
    htables).ensures_mapPage (le_refl k) (by omega) htables.freeList.page (fun _ _ _ hT => ?_)
    hnone rfl (F := fun q => memset q 0) (Z := fun q => pure q) (fun _ _ _ _ => rfl)
    (fun hempty => ?_) (fun q m' hpage hheld => ?_) fun q m' hpage hself hfills => ?_
  · obtain ⟨rfl, -⟩ := Prod.mk.inj (Option.some.inj hT)
    decide
  · exact .pure (hfail m₁ free (.refl htables) (by simp [hempty]))
  · refine .bind (.of_eq (kfree_run hpage m') (Q := fun _ m'' => m'' = m'.push q) rfl) ?_
    rintro - m₂ rfl
    obtain ⟨free', hlen, hheld⟩ := hheld
    exact .pure (hfail _ free' hheld hlen)
  · obtain ⟨free', hfills⟩ := hfills
    refine .pure ⟨hfills.leaves h htables.freeList, ⟨fun j => ?_, fun j e he =>
      hfills.leaf_kept h htables.freeList he⟩, Or.inr ⟨hpage, hself⟩⟩
    by_cases hj : j = k
    · subst hj
      obtain ⟨q', hpage', hq', hzero⟩ := hfills.page j _ _ (le_refl j) (by omega) rfl
      exact Or.inr ⟨rfl, by omega, hnone, q', hpage', hq', hzero⟩
    · exact Or.inl (hfills.outside j (by omega))

/-- **A page that the kernel looks for.** -/
theorem Leaves.faultIn (h : Leaves L r m) (hsz : sz ≤ TRAPFRAME) (k : ℕ) :
    Ensures (faultIn L r sz r (4096 * k)) m fun pa m' => Leaves L r m' ∧ Brings L r sz k m m' ∧
      ((pa = 0 ∧ ¬ UserLeaf m' r k ∧
          (4096 * k < sz → pageMap m'.mem r k = none → Short L m')) ∨
        (L.Page pa ∧ ∃ e, pageMap m'.mem r k = some e ∧ isU e ∧ pte2pa e = pa)) := by
  have hentry : 4096 * k < MAXVA → pageMap m.mem r k = _ := fun hk =>
    (congrArg _ (show k = 4096 * k / 4096 by omega)).trans (pageMap_of_lookup hk)
  rw [Vm.faultIn]
  refine .bind walkaddr_spec ?_
  rintro pa m₁ ⟨rfl, rfl⟩
  by_cases hthere : 4096 * k < MAXVA ∧ isV (lookup m₁.mem r (4096 * k)) ∧
      isU (lookup m₁.mem r (4096 * k))
  · rw [if_pos hthere]
    have hsome := hentry hthere.1
    rw [if_pos hthere.2.1] at hsome
    have hpage := h.page k _ hsome hthere.2.2
    exact .ite (fun h0 => absurd h0 hpage.ne_zero) fun _ =>
      .pure ⟨h, .refl, Or.inr ⟨hpage, _, hsome, hthere.2.2, rfl⟩⟩
  · have hnot : ¬ UserLeaf m₁ r k := by
      rintro ⟨e, he, hU⟩
      rw [pageMap] at he
      split at he
      · rename_i hk
        cases he
        have hmax := MAXVA_eq
        exact hthere ⟨by omega, hk.2, hU⟩
      · cases he
    rw [if_neg hthere, if_pos rfl]
    refine (h.vmfault hsz k).mono ?_
    rintro pa m' ⟨hleaves, hbrings, ⟨rfl, hsame, hshort⟩ | ⟨hpage, hself⟩⟩
    · refine ⟨hleaves, hbrings, Or.inl ⟨rfl, ?_, fun hlt hnone => hshort hlt (hsame ▸ hnone)⟩⟩
      rw [UserLeaf, hsame]
      exact hnot
    · refine ⟨hleaves, hbrings, Or.inr ⟨hpage, _, hself, ?_, ?_⟩⟩
      · rw [isU_mkPte]
        decide
      · exact pte2pa_mkPte hpage.lt hpage.1 (by decide)

/-! ## Writing to a page of the user -/

section Store

variable (h : Leaves L r m) (hk : pageMap m.mem r k = some e) (hU : isU e) (w : Mem)

include h hk

theorem Leaves.isTable_setPage {π : Path} {t : ℕ} :
    IsTable (m.setPage (pte2pa e) w).mem r π t ↔ IsTable m.mem r π t := by
  obtain ⟨free, -, hapart⟩ := h.apart
  refine isTable_of_tables fun ρ u hu => Phys.setPage_mem_of_ne ?_
  rintro rfl
  exact (hapart k e hk).2 ρ hu

theorem Leaves.pageMap_setPage : pageMap (m.setPage (pte2pa e) w).mem r = pageMap m.mem r := by
  obtain ⟨free, -, hapart⟩ := h.apart
  refine pageMap_congr (lookup_of_tables fun π t hlen hπ hn => Phys.setPage_mem_of_ne ?_)
  rintro rfl
  exact (hapart k e hk).2 π ⟨hlen, hπ, hn⟩

theorem Leaves.setPage : Leaves L r (m.setPage (pte2pa e) w) := by
  obtain ⟨free, htables, hapart⟩ := h.apart
  have hmap := h.pageMap_setPage hk w
  refine ⟨⟨free, ?_, ?_⟩, ?_, ?_⟩
  · refine htables.keep (htables.freeList.setPage (hapart k e hk).1 w) fun r' hr' π t ht => ?_
    obtain rfl := Set.mem_singleton_iff.mp hr'
    refine ⟨Phys.setPage_mem_of_ne ?_, (htables.page r' rfl π t ht).2⟩
    rintro rfl
    exact (hapart k e hk).2 π ht
  · intro j e' he'
    simp only [h.isTable_setPage hk w]
    exact hapart j e' (hmap ▸ he')
  · rw [hmap]
    exact h.page
  · rw [hmap]
    exact h.inj

include hU

theorem Leaves.touches_setPage (sz : ℕ) : Touches L r sz (· = k) m (m.setPage (pte2pa e) w) := by
  refine ⟨fun j => Or.inl (by rw [h.pageMap_setPage hk w]), fun j e' he' hnot => ?_⟩
  refine Phys.setPage_mem_of_ne fun heq => ?_
  obtain rfl := h.inj j e' k e he' hk hU heq
  rw [hk, Option.some.injEq] at he'
  rw [← he', hU] at hnot
  exact nomatch hnot rfl

theorem Leaves.userMem_setPage : userMem (m.setPage (pte2pa e) w) r sz =
    Function.update (userMem m r sz) k (some ⟨isR e, isW e, w⟩) := by
  funext j
  rw [Vm.userMem_eq, h.pageMap_setPage hk w]
  by_cases hj : j = k
  · subst hj
    rw [hk, Function.update_self]
    dsimp only
    rw [userPage, if_pos hU, Phys.setPage_mem_self]
  · rw [Function.update_of_ne hj, Vm.userMem_eq]
    cases he' : pageMap m.mem r j with
    | none => rfl
    | some e' =>
      have hne : pte2pa e' ≠ pte2pa e := fun heq => hj (h.inj j e' k e he' hk hU heq)
      dsimp only
      rw [userPage, userPage, Phys.setPage_mem_of_ne hne]

end Store

/-! ## Ranges -/

/-- Page `k` meets the range of `len` bytes from `va` on. -/
def Meets (va len k : ℕ) : Prop := len ≠ 0 ∧ va < 4096 * (k + 1) ∧ 4096 * k < va + len

/-- How far a call on the range of `len` bytes from `va` on has come: to the end, and it returns 0; or
to the first page that is not good, and it returns -1.  A promised page is missing only if memory is
short. -/
inductive Extent (L : Layout) (r sz : ℕ) (good : ℕ → Prop) (m : Phys) (va len : ℕ) : ℤ → ℕ → Prop
  | all : (∀ k, Meets va len k → good k) → Extent L r sz good m va len 0 len
  | upTo (k : ℕ) : Meets va len k → ¬ good k → (∀ k', Meets va len k' → k' < k → good k') →
      (4096 * k < sz → pageMap m.mem r k = none → Short L m) →
      Extent L r sz good m va len (-1) (4096 * k - va)

section Extent

variable {good : ℕ → Prop} {len n n₀ : ℕ} {res : ℤ}

theorem Extent.nil : Extent L r sz good m va 0 0 0 :=
  .all fun _ hk => absurd rfl hk.1

theorem meets_first (va : ℕ) (hlen : len ≠ 0) : Meets va len (va / 4096) := ⟨hlen, by omega, by omega⟩

theorem Extent.stop (hlen : len ≠ 0) (hgood : ¬ good (va / 4096))
    (hshort : 4096 * (va / 4096) < sz → pageMap m.mem r (va / 4096) = none → Short L m) :
    Extent L r sz good m va len (-1) 0 := by
  rw [show 0 = 4096 * (va / 4096) - va by omega]
  refine .upTo _ (meets_first _ hlen) hgood (fun k' hk' hlt => ?_) hshort
  have := hk'.2.1
  omega

theorem Extent.cons (hgood : good (va / 4096)) (hn : n₀ = min (4096 - va % 4096) len)
    (h : Extent L r sz good m (4096 * (va / 4096 + 1)) (len - n₀) res n) :
    Extent L r sz good m va len res (n₀ + n) := by
  have hrest : ∀ k, Meets va len k → k ≠ va / 4096 →
      Meets (4096 * (va / 4096 + 1)) (len - n₀) k := by
    rintro k ⟨h0, h1, h2⟩ hne
    exact ⟨by omega, by omega, by omega⟩
  cases h with
  | all hall =>
    rw [show n₀ + (len - n₀) = len by omega]
    refine .all fun k hk => ?_
    by_cases hfirst : k = va / 4096
    · rw [hfirst]
      exact hgood
    · exact hall k (hrest k hk hfirst)
  | upTo k hmeets hnot hbefore hshort =>
    obtain ⟨h0, h1, h2⟩ := hmeets
    rw [show n₀ + (4096 * k - 4096 * (va / 4096 + 1)) = 4096 * k - va by omega]
    refine .upTo k ⟨by omega, by omega, by omega⟩ hnot (fun k' hk' hlt => ?_) hshort
    by_cases hfirst : k' = va / 4096
    · rw [hfirst]
      exact hgood
    · exact hbefore k' (hrest k' hk' hfirst) hlt

theorem Meets.of_rest {k : ℕ} (h : Meets (4096 * (va / 4096 + 1)) (len - n₀) k)
    (hn : n₀ = min (4096 - va % 4096) len) : Meets va len k := by
  obtain ⟨h0, h1, h2⟩ := h
  exact ⟨by omega, by omega, by omega⟩

end Extent

theorem UserLeaf.lt (h : UserLeaf m r k) : k < MAXVA / 4096 := by
  obtain ⟨e, he, -⟩ := h
  rw [pageMap] at he
  split at he
  · rename_i hk
    exact hk.1
  · cases he

theorem WritableLeaf.userLeaf (h : WritableLeaf m r k) : UserLeaf m r k := by
  obtain ⟨e, he, hU, -⟩ := h
  exact ⟨e, he, hU⟩

theorem UserMem.update_overlay {u : UserMem} {page : UserPage} {dst off : ℕ} {bs : List UInt8}
    (hpage : u k = some page) (hdst : dst = 4096 * k + off) (hoff : off + bs.length ≤ 4096) :
    Function.update u k (some { page with bytes := overlay page.bytes off bs }) =
      u.write dst bs := by
  subst hdst
  funext j
  rw [UserMem.write]
  by_cases hj : j = k
  · subst hj
    rw [Function.update_self, hpage, Option.map_some]
    congr 2
    funext o
    rw [overlay]
    by_cases hin : off ≤ o ∧ o < off + bs.length
    · rw [if_pos hin, if_pos (by omega)]
      congr 1
      omega
    · rw [if_neg hin, if_neg (by omega)]
  · rw [Function.update_of_ne hj]
    cases u j with
    | none => rfl
    | some page' =>
      have hsame : page'.bytes = fun o => if o < 4096 ∧ 4096 * k + off ≤ 4096 * j + o ∧
          4096 * j + o < 4096 * k + off + bs.length then bs.getD (4096 * j + o - (4096 * k + off)) 0
          else page'.bytes o := by
        funext o
        rw [if_neg (by omega)]
      rw [Option.map_some, ← hsame]

/-! ## `copyout` -/

theorem copyoutFrom_flat (hsz : sz ≤ TRAPFRAME) {fuel dst : ℕ} {src : List UInt8}
    (hfuel : src.length ≤ fuel) (h : Leaves L r m) :
    Ensures (copyoutFrom L r sz r fuel dst src) m fun res m' => Leaves L r m' ∧
      Touches L r sz (Meets dst src.length) m m' ∧
      ∃ n, Extent L r sz (WritableLeaf m' r) m' dst src.length res n ∧
        userMem m' r sz = (userMem m r sz).write dst (src.take n) := by
  induction fuel generalizing dst src m with
  | zero =>
    obtain rfl := List.length_eq_zero_iff.mp (Nat.le_zero.mp hfuel)
    exact .pure ⟨h, .refl, 0, .nil, by simp⟩
  | succ fuel ih =>
    have hmax := MAXVA_eq
    have hframe := TRAPFRAME_eq
    rw [copyoutFrom]
    refine .ite (fun h0 => ?_) fun hlen => ?_
    · obtain rfl := List.length_eq_zero_iff.mp h0
      exact .pure ⟨h, .refl, 0, .nil, by simp⟩
    have hdown : pgRoundDown dst = 4096 * (dst / 4096) := Nat.mul_comm ..
    rw [hdown]
    refine .ite (fun hge => ?_) fun hlt => ?_
    · refine .pure ⟨h, .refl, 0, .stop hlen (fun hw => ?_) fun hlt => ?_, by simp⟩
      · have := hw.userLeaf.lt
        omega
      · omega
    refine .bind (h.faultIn hsz _) ?_
    rintro pa m₁ ⟨hleaves₁, hbrings, hpa⟩
    have htouch₁ := hbrings.touches.mono fun k hk => hk ▸ meets_first dst hlen
    have huser₁ := hbrings.userMem_eq hsz
    rcases hpa with ⟨rfl, hnot, hshort⟩ | ⟨hpage, e, he, hU, rfl⟩
    · refine .ite (fun _ => .pure ⟨hleaves₁, htouch₁, 0, .stop hlen ?_ hshort, ?_⟩)
        fun h0 => absurd rfl h0
      · exact fun hw => hnot hw.userLeaf
      · rw [huser₁]
        simp
    refine .ite (fun h0 => absurd h0 hpage.ne_zero) fun _ => ?_
    have hlookup : lookup m₁.mem r (4096 * (dst / 4096)) = e := by
      rw [pageMap] at he
      split at he
      · exact Option.some.inj he
      · cases he
    refine ensures_walk_false_bind (by omega) (fun hn => ?_) fun t ht => ensures_readPte_bind ?_
    · rw [lookup_of_node_none hn] at hlookup
      rw [← hlookup] at hU
      exact absurd hU (by decide)
    rw [← lookup_of_node ht, hlookup]
    refine .ite (fun hW => .pure ⟨hleaves₁, htouch₁, 0, .stop hlen ?_ fun _ hnone => ?_, ?_⟩)
      fun hW => .modify_bind ?_
    · rintro ⟨e', he', -, hW'⟩
      rw [he, Option.some.injEq] at he'
      rw [he', hW'] at hW
      cases hW
    · cases hnone.symm.trans he
    · rw [huser₁]
      simp
    -- the page is written, and the rest of the range is copied
    have hW : isW e = true := by simpa using hW
    generalize hn : min (4096 - (dst - 4096 * (dst / 4096))) src.length = n₀
    have hn' : n₀ = min (4096 - dst % 4096) src.length := by omega
    generalize hw : overlay (m₁.mem (pte2pa e)) (dst - 4096 * (dst / 4096)) (src.take n₀) = w
    have hleaves₂ := hleaves₁.setPage he w
    have htouch₂ := (hleaves₁.touches_setPage he hU w sz).mono
      fun k hk => hk ▸ meets_first dst hlen
    have huser₂ : userMem (m₁.setPage (pte2pa e) w) r sz =
        (userMem m r sz).write dst (src.take n₀) := by
      have hpage₁ : userMem m₁ r sz (dst / 4096) = some ⟨isR e, isW e, m₁.mem (pte2pa e)⟩ := by
        rw [Vm.userMem_eq, he]
        exact if_pos hU
      rw [hleaves₁.userMem_setPage he hU, ← hw, ← huser₁]
      refine UserMem.update_overlay hpage₁ (by omega) ?_
      rw [List.length_take]
      omega
    rw [u64_of_lt (by omega), show 4096 * (dst / 4096) + 4096 = 4096 * (dst / 4096 + 1) by omega]
    refine (ih (by rw [List.length_drop]; omega) hleaves₂).mono ?_
    rintro res m' ⟨hleaves', htouch', n, hextent, huser'⟩
    rw [List.length_drop] at hextent htouch'
    refine ⟨hleaves', (htouch₁.trans htouch₂).trans (htouch'.mono fun k hk => hk.of_rest hn'),
      n₀ + n, hextent.cons ?_ hn', ?_⟩
    · refine htouch'.writableLeaf ⟨e, ?_, hU, hW⟩
      rw [hleaves₁.pageMap_setPage he, he]
    · rw [huser', huser₂, List.take_add]
      refine UserMem.write_append fun hne => ?_
      have hdrop : src.drop n₀ ≠ [] := fun h0 => hne (by rw [h0, List.take_nil])
      rw [ne_eq, List.drop_eq_nil_iff] at hdrop
      rw [List.length_take]
      omega

/-! ## `copyin` -/

theorem getElem?_bytesAt {page : Mem} {off n j : ℕ} (hj : j < n) :
    (bytesAt page off n)[j]? = some (page (off + j)) := by
  rw [bytesAt, List.getElem?_map, List.getElem?_range hj, Option.map_some]

theorem copyinIntoFrom_flat (hsz : sz ≤ TRAPFRAME) {fuel srcva len : ℕ} (hfuel : len ≤ fuel)
    (h : Leaves L r m) :
    Ensures (copyinIntoFrom L r sz r fuel srcva len) m fun res m' => Leaves L r m' ∧
      Touches L r sz (Meets srcva len) m m' ∧ userMem m' r sz = userMem m r sz ∧
      ∃ n, Extent L r sz (UserLeaf m' r) m' srcva len res.1 n ∧ res.2.length = n ∧
        ∀ j < n, res.2[j]? = (userMem m r sz).byte (srcva + j) := by
  induction fuel generalizing srcva len m with
  | zero =>
    obtain rfl := Nat.le_zero.mp hfuel
    exact .pure ⟨h, .refl, rfl, 0, .nil, rfl, fun j hj => absurd hj (by omega)⟩
  | succ fuel ih =>
    have hmax := MAXVA_eq
    rw [copyinIntoFrom]
    refine .ite (fun h0 => ?_) fun hlen => ?_
    · subst h0
      exact .pure ⟨h, .refl, rfl, 0, .nil, rfl, fun j hj => absurd hj (by omega)⟩
    have hdown : pgRoundDown srcva = 4096 * (srcva / 4096) := Nat.mul_comm ..
    rw [hdown]
    refine .bind (h.faultIn hsz _) ?_
    rintro pa m₁ ⟨hleaves₁, hbrings, hpa⟩
    have htouch₁ := hbrings.touches.mono fun k hk => hk ▸ meets_first srcva hlen
    have huser₁ := hbrings.userMem_eq hsz
    rcases hpa with ⟨rfl, hnot, hshort⟩ | ⟨hpage, e, he, hU, rfl⟩
    · exact .ite (fun _ => .pure ⟨hleaves₁, htouch₁, huser₁, 0, .stop hlen hnot hshort, rfl,
        fun j hj => absurd hj (by omega)⟩) fun h0 => absurd rfl h0
    refine .ite (fun h0 => absurd h0 hpage.ne_zero) fun _ => .get_bind ?_
    generalize hn : min (4096 - (srcva - 4096 * (srcva / 4096))) len = n₀
    have hn' : n₀ = min (4096 - srcva % 4096) len := by omega
    have hlt : srcva / 4096 < MAXVA / 4096 := UserLeaf.lt ⟨e, he, hU⟩
    rw [u64_of_lt (by omega),
      show 4096 * (srcva / 4096) + 4096 = 4096 * (srcva / 4096 + 1) by omega]
    refine .bind (ih (by omega) hleaves₁) ?_
    rintro ⟨res, rest⟩ m' ⟨hleaves', htouch', huser', n, hextent, hlength, hbytes⟩
    refine .pure ⟨hleaves', htouch₁.trans (htouch'.mono fun k hk => hk.of_rest hn'),
      huser'.trans huser₁, n₀ + n, hextent.cons (htouch'.userLeaf ⟨e, he, hU⟩) hn', ?_,
      fun j hj => ?_⟩
    · rw [List.length_append, bytesAt, List.length_map, List.length_range, hlength]
    have hfirst : (bytesAt (m₁.mem (pte2pa e)) (srcva - 4096 * (srcva / 4096)) n₀).length = n₀ := by
      rw [bytesAt, List.length_map, List.length_range]
    by_cases hj' : j < n₀
    · -- a byte of the first page
      rw [List.getElem?_append_left (by omega), getElem?_bytesAt hj', UserMem.byte,
        show (srcva + j) / 4096 = srcva / 4096 by omega, ← huser₁, Vm.userMem_eq, he]
      dsimp only
      rw [userPage, if_pos hU, Option.map_some,
        show (srcva + j) % 4096 = srcva - 4096 * (srcva / 4096) + j by omega]
    · have hpos : 0 < n := by omega
      have hfull : n₀ = 4096 - srcva % 4096 := by
        have hle : n ≤ len - n₀ := by
          cases hextent with
          | all => exact le_refl _
          | upTo k hmeets =>
            have := hmeets.2.2
            omega
        omega
      rw [List.getElem?_append_right (by omega), hfirst, hbytes (j - n₀) (by omega), huser₁]
      congr 1
      omega

/-! ## Flat memory -/

/-- **`copyin` and `copyout` implement flat user memory.**  `copyout` writes the whole range if every
page of it is in the end a page that the user may write, and otherwise the part before the first page
that is not; `copyin` reads in the same way, and does not ask for `PTE_W`.  They touch no page but
those of the user in the range, and what `copyout` has written is what `copyin` reads. -/
theorem copy_flat (h : Leaves L r m) (hsz : sz ≤ TRAPFRAME) (va : ℕ) :
    (∀ src : List UInt8, Ensures (copyout L r sz r va src) m fun res m' => Leaves L r m' ∧
      Touches L r sz (Meets va src.length) m m' ∧
      ∃ n, Extent L r sz (WritableLeaf m' r) m' va src.length res n ∧
        userMem m' r sz = (userMem m r sz).write va (src.take n)) ∧
    (∀ len, Ensures (copyinInto L r sz r va len) m fun res m' => Leaves L r m' ∧
      Touches L r sz (Meets va len) m m' ∧ userMem m' r sz = userMem m r sz ∧
      ∃ n, Extent L r sz (UserLeaf m' r) m' va len res.1 n ∧ res.2.length = n ∧
        ∀ j < n, res.2[j]? = (userMem m r sz).byte (va + j)) ∧
    ∀ src : List UInt8, Ensures (do
      let res ← copyout L r sz r va src
      let bytes ← copyinInto L r sz r va src.length
      return (res, bytes)) m fun x _ => x.1 = 0 → x.2 = (0, src) := by
  have hout : ∀ src : List UInt8, Ensures (copyout L r sz r va src) m _ := fun src =>
    copyoutFrom_flat hsz (le_refl src.length) h
  refine ⟨hout, fun len => copyinIntoFrom_flat hsz (le_refl len) h, fun src => ?_⟩
  refine .bind (hout src) ?_
  rintro res m₁ ⟨hleaves, -, n, hextent, huser⟩
  refine .bind (copyinIntoFrom_flat hsz (le_refl src.length) hleaves) ?_
  rintro ⟨res', bytes⟩ m₂ ⟨-, htouch, -, n', hextent', hlength, hbytes⟩
  refine .pure ?_
  rintro rfl
  cases hextent with
  | all hall =>
    rw [List.take_length] at huser
    cases hextent' with
    | all =>
      have hlength : bytes.length = src.length := hlength
      refine Prod.ext rfl (List.ext_getElem? fun j => ?_)
      change bytes[j]? = src[j]?
      by_cases hj : j < src.length
      · obtain ⟨e, he, hU, -⟩ := hall ((va + j) / 4096) ⟨by omega, by omega, by omega⟩
        rw [show bytes[j]? = _ from hbytes j hj, huser]
        refine UserMem.byte_write hj ?_
        rw [← huser, Vm.userMem_eq, he]
        simp [userPage, hU]
      · rw [List.getElem?_eq_none (by omega), List.getElem?_eq_none (by omega)]
    | upTo k hmeets hnot => exact absurd (htouch.userLeaf (hall k hmeets).userLeaf) hnot

/-- **The page table of a process.** -/
theorem Inv.leaves {A : Set ℕ} {proc : Fin NPROC → Proc} {i : Fin NPROC} (h : Inv L m proc A)
    (hi : (proc i).used) : Leaves L (proc i).pagetable m := by
  obtain ⟨free, howned⟩ := id h.space
  have hroot := h.mem_roots hi
  have hmax := MAXVA_eq
  have hframe := TRAPFRAME_eq
  have htramp := TRAMPOLINE_eq
  -- the user's pages are below the trapframe
  have huser : ∀ k e, pageMap m.mem (proc i).pagetable k = some e → isU e →
      4096 * k < TRAPFRAME := by
    intro k e he hU
    have hlt := UserLeaf.lt ⟨e, he, hU⟩
    rw [pageMap] at he
    split at he
    · cases he
      obtain ⟨h1, h2⟩ := (h.live i hi).2.2.owns_of_isU hU
      rw [ne_eq, path_inj (by omega) (by omega)] at h1 h2
      omega
    · cases he
  refine ⟨⟨free, howned.tables.mono (Set.singleton_subset_iff.mpr hroot), fun k e he => ?_⟩,
    fun k e he hU => ?_, fun k e k' e' he he' hU heq => ?_⟩
  · exact ⟨(h.leaf_page howned hi he).1, (h.leaf_page howned hi he).2 _ hroot⟩
  · exact (howned.uses _ hroot _ _ (uses_of_pageMap (huser k e he hU) he)).1
  · have hk' := huser k' e' he' hU
    obtain ⟨hpage, -, hnot⟩ := howned.uses _ hroot _ _ (uses_of_pageMap hk' he')
    by_cases hk : 4096 * k < TRAPFRAME
    · exact h.leaf_inj hi hk hk' he he' heq
    · rcases h.special_page hi (by omega) he with hheld | hspecial
      · exact absurd (heq ▸ hheld) hnot
      · exact absurd (heq ▸ hpage) hspecial

/-- A byte is copied into a page that was only promised. -/
theorem copy_flat_promised : ∃ m r m', Leaves smallLayout r m ∧ ¬ UserLeaf m r 0 ∧
    copyout smallLayout r 4096 r 0 [104] m = .ok (0, m') ∧
    userMem m' r 4096 = (userMem m r 4096).write 0 [104] := by
  have hcheck : firstProcessIs fun i k => (pageMap k.phys.mem (k.proc i).pagetable 0).isNone &&
      returns (fun res => decide (res = 0))
        (copyout smallLayout (k.proc i).pagetable 4096 (k.proc i).pagetable 0 [104]) k.phys := by
    decide +kernel
  obtain ⟨k, i, hinv, hi, -, hcheck⟩ := exists_process_of hcheck
  obtain ⟨hnone, hreturns⟩ := Bool.and_eq_true_iff.mp hcheck
  obtain ⟨res, m', hrun, hres⟩ := exists_of_returns hreturns
  obtain rfl : res = 0 := of_decide_eq_true hres
  have hleaves := hinv.leaves hi
  have hsz : 4096 ≤ TRAPFRAME := by decide
  have hflat := (copy_flat hleaves hsz 0).1 [104]
  obtain ⟨-, -, n, hextent, huser⟩ := hflat.of_run hrun
  refine ⟨_, _, m', hleaves, ?_, hrun, ?_⟩
  · rintro ⟨e, he, -⟩
    rw [he] at hnone
    exact nomatch hnone
  · cases hextent with
    | all => exact huser

end Vm
end Xv6
