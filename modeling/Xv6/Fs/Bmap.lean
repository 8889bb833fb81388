import Xv6.Fs.Blocks

/-!
# Allocating and freeing blocks

`balloc` finds a free block, `bmap` puts it into a place of an inode, and `itrunc` empties all places.
`View.Grows` is what `bmap` may do: empty places of one inode are filled with blocks that were free, and
nothing else changes.
-/

namespace Xv6.Fs

open Bytes Program Slots

variable {sb : Superblock} {s : State} {i k b bn : ℕ}

/-! ## `balloc` and `bfree` -/

/-- What `testBit` finds in a block of the free map is what the map says. -/
theorem testBit_bblock {c : ℕ} (hb : b % 8192 = 0) (hc : c < 8192) (hlt : b + c < sb.size) :
    testBit (s.cached (sb.BBLOCK b)) c = (view sb s).used (b + c) := by
  have hblock : sb.BBLOCK (b + c) = sb.BBLOCK b := by
    rw [sb.BBLOCK_eq, sb.BBLOCK_eq]
    omega
  rw [used_eq hlt, getBit, hblock]
  congr 1
  omega

theorem ballocFrom_spec (hsb : sb.Ok) (turns : ℕ) (hb : b % 8192 = 0)
    (hturns : sb.size ≤ b + 8192 * turns) (hmeta : ∀ c < sb.datastart, (view sb s).used c = true)
    (hbefore : ∀ c < b, c < sb.size → (view sb s).used c = true) :
    Ensures (ballocFrom sb turns b) s fun a t => Steady sb ∅ s t ∧
      (a = 0 ∧ t = s ∧ (∀ c < sb.size, (view sb s).used c = true) ∨
        a < sb.size ∧ sb.datastart ≤ a ∧ (view sb s).used a = false ∧ ¬ Dirty t a ∧
          view sb t = (view sb s).alloc a) := by
  induction turns generalizing b with
  | zero => exact .pure ⟨.refl, Or.inl ⟨rfl, rfl, fun c hc => hbefore c (by omega) hc⟩⟩
  | succ turns ih =>
    rw [ballocFrom]
    refine ensures_bread_bind ?_
    cases hfind : (List.range (min 8192 (sb.size - b))).find?
        fun bi => !testBit (s.cached (sb.BBLOCK b)) bi with
    | none =>
      rw [List.find?_eq_none] at hfind
      refine ih (by omega) (by omega) fun c hc hlt => ?_
      by_cases hcb : c < b
      · exact hbefore c hcb hlt
      · have hbit := hfind (c - b) (List.mem_range.mpr (by omega))
        rw [testBit_bblock hb (by omega) (by omega), show b + (c - b) = c by omega] at hbit
        simpa using hbit
    | some bi =>
      have hmem := List.mem_range.mp (List.mem_of_find?_eq_some hfind)
      have hbit := List.find?_some hfind
      have hlt : b + bi < sb.size := by omega
      have hfree : (view sb s).used (b + bi) = false := by
        rw [← testBit_bblock hb (by omega) hlt]
        simpa using hbit
      have hle : sb.datastart ≤ b + bi := by
        by_contra hcon
        rw [hmeta _ (by omega)] at hfree
        exact nomatch hfree
      have hblock : sb.BBLOCK b = sb.BBLOCK (b + bi) := by
        rw [sb.BBLOCK_eq, sb.BBLOCK_eq]
        omega
      have hmod : bi = (b + bi) % 8192 := by omega
      have hset : (fun m => setBit m bi true) = fun m => setBit m ((b + bi) % 8192) true := by
        rw [← hmod]
      simp only
      rw [hblock, hset]
      refine .bind (logBit_spec hsb hlt true) ?_
      rintro - t ⟨hsteady, hview⟩
      refine .bind (logData_spec hsb hle _) ?_
      rintro - t' ⟨hsteady', hclean, hview'⟩
      refine .pure ⟨hsteady.trans hsteady', Or.inr ⟨hlt, hle, hfree, hclean, ?_⟩⟩
      rw [hview', hview]
      rfl

/-- **`balloc`** returns a block that was free, and 0 if there is none. -/
theorem balloc_spec (hsb : sb.Ok) (hok : (view sb s).Ok sb) :
    Ensures (balloc sb) s fun a t => Steady sb ∅ s t ∧
      (a = 0 ∧ t = s ∧ (∀ c < sb.size, (view sb s).used c = true) ∨
        a < sb.size ∧ sb.datastart ≤ a ∧ (view sb s).used a = false ∧ ¬ Dirty t a ∧
          view sb t = (view sb s).alloc a) :=
  ballocFrom_spec hsb _ (by omega) (by omega) hok.metadata (by omega)

/-- **`bfree`** of a block that is marked. -/
theorem bfree_spec (hsb : sb.Ok) (hb : b < sb.size) (hused : (view sb s).used b = true) :
    Ensures (bfree sb b) s fun _ t =>
      Steady sb ∅ s t ∧ view sb t = (view sb s).setUsed b false := by
  refine ensures_bread_bind ?_
  have hbit : testBit (s.cached (sb.BBLOCK b)) (b % 8192) = true := by
    rw [used_eq hb] at hused
    exact hused
  rw [hbit]
  exact logBit_spec hsb hb false

/-! ## Filling places -/

/-- The fields other than the addresses are the same. -/
structure SameFields (x y : Dinode) : Prop where
  type : y.type = x.type
  major : y.major = x.major
  minor : y.minor = x.minor
  nlink : y.nlink = x.nlink
  size : y.size = x.size

theorem SameFields.refl (x : Dinode) : SameFields x x := ⟨rfl, rfl, rfl, rfl, rfl⟩

theorem SameFields.trans {x y z : Dinode} (h : SameFields x y) (h' : SameFields y z) :
    SameFields x z :=
  ⟨h'.type.trans h.type, h'.major.trans h.major, h'.minor.trans h.minor, h'.nlink.trans h.nlink,
    h'.size.trans h.size⟩

theorem sameFields_setAddr (x : Dinode) (k b : ℕ) : SameFields x (x.setAddr k b) :=
  ⟨by simp, by simp, by simp, by simp, by simp⟩

/-- From `v` to `v'` empty places of inode `i` may have been filled with blocks that were free. -/
structure View.Fills (sb : Superblock) (i : ℕ) (v v' : View) : Prop where
  ok : v'.Ok sb
  exact_of : ∀ X, v.Exact sb X → v'.Exact sb X
  dinode_of_ne : ∀ j, j ≠ i → v'.dinode j = v.dinode j
  same : SameFields (v.dinode i) (v'.dinode i)
  kept : ∀ x, v.slot x ≠ 0 → v'.slot x = v.slot x
  others : ∀ j σ, j ≠ i → v'.slot (j, σ) = v.slot (j, σ)
  used : ∀ c, v.used c = true → v'.used c = true

/-- These places are `P`, and no content has changed. -/
structure View.Grows (sb : Superblock) (i : ℕ) (P : Slot → Prop) (v v' : View) : Prop extends
    View.Fills sb i v v' where
  own : ∀ σ, ¬ P σ → v'.slot (i, σ) = v.slot (i, σ)
  data : ∀ x, x.2 ≠ .indirect → v.slot x ≠ 0 → v'.data (v.slot x) = v.data (v.slot x)

namespace View

variable {v v' v'' : View} {P Q : Slot → Prop}

theorem Fills.refl (h : v.Ok sb) : Fills sb i v v :=
  ⟨h, fun _ h => h, fun _ _ => rfl, .refl _, fun _ _ => rfl, fun _ _ _ => rfl, fun _ h => h⟩

theorem Fills.trans (h : Fills sb i v v') (h' : Fills sb i v' v'') : Fills sb i v v'' where
  ok := h'.ok
  exact_of X hX := h'.exact_of X (h.exact_of X hX)
  dinode_of_ne j hj := (h'.dinode_of_ne j hj).trans (h.dinode_of_ne j hj)
  same := h.same.trans h'.same
  kept x hx := (h'.kept x (by rwa [h.kept x hx])).trans (h.kept x hx)
  others j σ hj := (h'.others j σ hj).trans (h.others j σ hj)
  used c hc := h'.used c (h.used c hc)

theorem Fills.type (h : Fills sb i v v') (j : ℕ) : (v'.dinode j).type = (v.dinode j).type := by
  by_cases hj : j = i
  · rw [hj, h.same.type]
  · rw [h.dinode_of_ne j hj]

theorem Grows.refl (h : v.Ok sb) : Grows sb i P v v := ⟨.refl h, fun _ _ => rfl, fun _ _ _ => rfl⟩

theorem Grows.trans (h : Grows sb i P v v') (h' : Grows sb i P v' v'') : Grows sb i P v v'' where
  toFills := h.toFills.trans h'.toFills
  own σ hσ := (h'.own σ hσ).trans (h.own σ hσ)
  data x hx hne := by
    have hkept := h.kept x hne
    have := h'.data x hx (by rwa [hkept])
    rw [hkept] at this
    exact this.trans (h.data x hx hne)

theorem Grows.mono (h : Grows sb i P v v') (hPQ : ∀ σ, P σ → Q σ) : Grows sb i Q v v' :=
  { h with own := fun σ hσ => h.own σ fun hP => hσ (hPQ σ hP) }

/-- **A free block goes into an empty place.** -/
theorem Ok.grows {σ : Slot} (h : v.Ok sb) (hsb : sb.Ok) (hlt : b < sb.size)
    (hfree : v.used b = false) (hempty : v.slot (i, σ) = 0)
    (hslot : v'.slot = Function.update v.slot (i, σ) b) (hused : v'.used = Function.update v.used b true)
    (hdinode : ∀ j, j ≠ i → v'.dinode j = v.dinode j) (hsame : SameFields (v.dinode i) (v'.dinode i))
    (hdata : ∀ x, x.2 ≠ .indirect → v.slot x ≠ 0 → v'.data (v.slot x) = v.data (v.slot x)) :
    Grows sb i (· = σ) v v' := by
  have hle := h.le_of_free hfree
  have hpos := hsb.datastart_pos
  have hok := h.alloc hsb hfree
  have hslot' : v'.slot = Function.update (v.alloc b).slot (i, σ) b := by
    rw [h.slot_alloc hsb hfree, hslot]
  have hself : (v.alloc b).used b = true := by
    rw [View.alloc, setData_used, setUsed_used, Function.update_self]
  refine ⟨⟨?_, fun X hX => ?_, hdinode, hsame, fun x hx => ?_, fun j σ' hj => ?_, fun c hc => ?_⟩,
    fun σ' hσ' => ?_, hdata⟩
  · refine hok.fill hslot' hused hself ?_ hle hlt
    rw [h.slot_alloc hsb hfree]
    exact h.notMem_values hfree
  · refine (hX.alloc h hsb hfree).fill hslot' hused ?_ (by omega)
    rw [h.slot_alloc hsb hfree]
    exact hempty
  · rw [hslot, Function.update_of_ne]
    rintro rfl
    exact hx hempty
  · rw [hslot, Function.update_of_ne (by simp [hj])]
  · rw [hused, Function.update_apply]
    split
    · rfl
    · exact hc
  · rw [hslot, Function.update_of_ne (by simpa using hσ')]

theorem Ok.slot_ne (h : v.Ok sb) (hfree : v.used b = false) {x : ℕ × Slot} (hx : v.slot x ≠ 0) :
    v.slot x ≠ b := by
  rintro rfl
  rw [h.used x hx] at hfree
  exact nomatch hfree

end View

/-- Only buffers of data blocks have been changed without `log_write`, and no indirect block and no block of
a directory is one of them. -/
def Logged (sb : Superblock) (s : State) : Prop :=
  ∀ b, Dirty s b → sb.datastart ≤ b ∧ ∀ j σ, (view sb s).slot (j, σ) = b →
    σ ≠ .indirect ∧ ((view sb s).dinode j).type ≠ .ofNat T_DIR

theorem Logged.fill {t : State} {x : ℕ × Slot} (hl : Logged sb s) (hclean : ∀ b, Dirty t b → Dirty s b)
    (hslot : (view sb t).slot = Function.update (view sb s).slot x b) (hb : ¬ Dirty t b)
    (htype : ∀ j, ((view sb t).dinode j).type = ((view sb s).dinode j).type) : Logged sb t := by
  refine fun c hc => ⟨(hl c (hclean c hc)).1, fun j σ hj => ?_⟩
  rw [hslot, Function.update_apply] at hj
  rw [htype]
  split at hj
  · exact absurd (hj ▸ hc) hb
  · exact (hl c (hclean c hc)).2 j σ hj

/-! ## `bmap` -/

/-- The place of `addrs[k]`. -/
def Slot.ofAddr (k : ℕ) : Slot := if k < 12 then .direct k else .indirect

theorem View.slot_ofAddr {v : View} (hi : (v.dinode i).type ≠ 0) (hk : k ≤ 12) :
    v.slot (i, .ofAddr k) = (v.dinode i).addr k := by
  rw [View.slot_of_allocated hi, Slot.ofAddr]
  split
  · rename_i hlt
    rw [Dinode.place, if_pos hlt]
  · rw [Dinode.place, show k = 12 by omega]

section Bmap

variable (hsb : sb.Ok) (hi : i < sb.ninodes)

include hsb hi

theorem addrOrAlloc_spec (hok : (view sb s).Ok sb) (hv : (s.inode i).valid)
    (ha : ((view sb s).dinode i).type ≠ 0) (hk : k ≤ 12) :
    Ensures (addrOrAlloc sb i k) s fun a t => Steady sb {i} s t ∧
      (view sb s).Grows sb i (· = .ofAddr k) (view sb t) ∧ a = (view sb t).slot (i, .ofAddr k) ∧
      (a = 0 → ∀ c < sb.size, (view sb t).used c = true) ∧
      ((view sb s).slot (i, .ofAddr k) ≠ 0 → t = s) ∧ (Logged sb s → Logged sb t) := by
  have hpos := hsb.datastart_pos
  have hslot := View.slot_ofAddr ha hk
  rw [addrOrAlloc]
  refine ensures_getInode_bind ?_
  rw [← dinode_of_valid hi hv, ← hslot]
  refine .ite (fun h0 => ?_) fun hne => .pure ⟨.refl, .refl hok, rfl, fun h0 => absurd h0 hne,
    fun _ => rfl, id⟩
  refine .bind (balloc_spec hsb hok) ?_
  rintro a t ⟨hsteady, ⟨rfl, rfl, hfull⟩ | ⟨hlt, hle, hfree, hclean, hview⟩⟩
  · exact .ite (fun _ => .pure ⟨.refl, .refl hok, h0.symm, fun _ => hfull, fun _ => rfl, id⟩)
      fun hcon => absurd rfl hcon
  · refine .ite (fun hcon => by omega) fun _ => ?_
    have hv' : (t.inode i).valid := by
      rw [hsteady.valid]
      exact hv
    refine .bind (modifyInode_spec hi hv' _) ?_
    rintro - u ⟨hsteady', hview'⟩
    have hdinode : (view sb t).dinode = (view sb s).dinode := by
      rw [hview]
      rfl
    have ha' : ((view sb t).dinode i).type ≠ 0 := hdinode ▸ ha
    have hok' : (view sb t).Ok sb := hview ▸ hok.alloc hsb hfree
    have hold : (view sb t).slot = (view sb s).slot := by
      rw [hview]
      exact hok.slot_alloc hsb hfree
    have hsize := hsb.size_lt
    -- the place is filled
    have hfill : (view sb u).slot = Function.update (view sb s).slot (i, .ofAddr k) a := by
      rw [hview', ← hold, Slot.ofAddr]
      split
      · rename_i hk'
        exact View.slot_setDirect ha' hk' (by omega)
      · obtain rfl : k = 12 := by omega
        refine View.slot_setIndirect ha' (by omega) ?_ ?_
        · rw [← View.slot_ofAddr ha' (le_refl 12), hold]
          exact h0
        · rw [hview, View.alloc, View.setData_data, Function.update_self]
    have hgrows : (view sb s).Grows sb i (· = .ofAddr k) (view sb u) := by
      refine hok.grows hsb hlt hfree h0 hfill ?_ (fun j hj => ?_) ?_ fun x hx hne => ?_
      · rw [hview', View.setDinode_used, hview]
        rfl
      · rw [hview', View.setDinode_dinode, Function.update_of_ne hj, hdinode]
      · rw [hview', View.setDinode_dinode, Function.update_self, hdinode]
        exact sameFields_setAddr _ _ _
      · rw [hview', View.setDinode_data, hview, View.alloc, View.setData_data,
          Function.update_of_ne (hok.slot_ne hfree hne)]
        rfl
    have hall : Steady sb {i} s u := (hsteady.mono (Set.empty_subset _)).trans hsteady'
    refine .pure ⟨hall, hgrows, ?_, fun hcon => by omega, fun hcon => absurd h0 hcon, fun hl => ?_⟩
    · rw [hfill, Function.update_self]
    · -- the new block has been logged
      exact hl.fill hall.clean hfill (fun hdirty => hclean (hsteady'.clean _ hdirty)) hgrows.type

/-- **`bmap`** returns the address of a block, and puts a free block where there is none, if it can. -/
theorem bmap_spec (hok : (view sb s).Ok sb) (hv : (s.inode i).valid)
    (ha : ((view sb s).dinode i).type ≠ 0) (hbn : bn < 268) :
    Ensures (bmap sb i bn) s fun a t => Steady sb {i} s t ∧
      (view sb s).Grows sb i (fun σ => σ = .indirect ∨ σ = .ofIndex bn) (view sb t) ∧
      a = (view sb t).block i bn ∧
      (a = 0 → ∀ c < sb.size, (view sb t).used c = true) ∧
      ((view sb s).block i bn ≠ 0 → t = s) ∧ (Logged sb s → Logged sb t) := by
  have hpos := hsb.datastart_pos
  have hsize := hsb.size_lt
  rw [bmap]
  refine .ite (fun hlt => ?_) fun hge => .ite (fun hlt => ?_) fun hge' => by omega
  · -- a direct block
    have hindex : Slot.ofIndex bn = .ofAddr bn := by
      rw [Slot.ofIndex, Slot.ofAddr, if_pos hlt, if_pos hlt]
    refine (addrOrAlloc_spec hsb hi hok hv ha (by omega)).mono ?_
    rintro a t ⟨hsteady, hgrows, hres, hfull, hsame, hlogged⟩
    rw [← hindex] at hres hsame
    exact ⟨hsteady, hgrows.mono fun σ hσ => Or.inr (hσ.trans hindex.symm), hres, hfull, hsame, hlogged⟩
  · have hindex : Slot.ofIndex bn = .entry (bn - 12) := by rw [Slot.ofIndex, if_neg hge]
    refine .bind (addrOrAlloc_spec hsb hi hok hv ha (le_refl 12)) ?_
    rintro ind t ⟨hsteady, hgrows, rfl, hfull, hsame, hlogged⟩
    have hgrows' : (view sb s).Grows sb i (fun σ => σ = .indirect ∨ σ = .ofIndex bn) (view sb t) :=
      hgrows.mono fun σ hσ => Or.inl hσ
    have ha' : ((view sb t).dinode i).type ≠ 0 := by
      rw [hgrows.same.type]
      exact ha
    have hv' : (t.inode i).valid := by
      rw [hsteady.valid]
      exact hv
    have hslot : (view sb t).slot (i, .ofAddr 12) = ((view sb t).dinode i).addr 12 :=
      View.slot_ofAddr ha' (le_refl 12)
    -- an entry is there only if the indirect block is
    have hentry : (view sb s).block i bn ≠ 0 → (view sb s).slot (i, .ofAddr 12) ≠ 0 := by
      intro hne h0
      rw [View.slot_ofAddr ha (le_refl 12)] at h0
      refine hne ?_
      rw [View.block, hindex, View.slot_of_allocated ha, Dinode.place, if_neg fun h => h.2 h0]
    refine .ite (fun h0 => ?_) fun hne => ?_
    · refine .pure ⟨hsteady, hgrows', ?_, fun _ => hfull h0, fun hcon => hsame (hentry hcon), hlogged⟩
      rw [hslot] at h0
      rw [View.block, hindex, View.slot_of_allocated ha', Dinode.place, if_neg fun h => h.2 h0]
    · have hrange := hgrows.ok.range _ hne
      rw [hslot] at hne hrange ⊢
      have hblock : (view sb t).block i bn =
          entryAt (t.cached (((view sb t).dinode i).addr 12)) (bn - 12) := by
        rw [View.block, hindex, View.slot_of_allocated ha', Dinode.place, if_pos ⟨hlt, hne⟩,
          data_eq hrange.1]
      refine ensures_bread_bind ?_
      rw [← hblock]
      refine .ite (fun h0 => ?_) fun hne' => .pure ⟨hsteady, hgrows', rfl, fun h0 => absurd h0 hne',
        fun hcon => hsame (hentry hcon), hlogged⟩
      have hcon : (view sb s).block i bn = 0 := by
        by_contra hne'
        have hkept : (view sb t).block i bn = (view sb s).block i bn := hgrows.kept _ hne'
        exact hne' (hkept.symm.trans h0)
      refine .bind (balloc_spec hsb hgrows.ok) ?_
      rintro a u ⟨hsteady₁, ⟨rfl, rfl, hfull₁⟩ | ⟨hlt₁, hle₁, hfree₁, hclean₁, hview₁⟩⟩
      · exact .ite (fun _ => .pure ⟨hsteady, hgrows', h0.symm, fun _ => hfull₁,
          fun hcon' => absurd hcon hcon', hlogged⟩) fun hcon' => absurd rfl hcon'
      · refine .ite (fun hcon' => by omega) fun _ => ?_
        refine .bind (logData_spec hsb hrange.1 _) ?_
        rintro - w ⟨hsteady₂, -, hview₂⟩
        have hdinode : (view sb u).dinode = (view sb t).dinode := by
          rw [hview₁]
          rfl
        have hold : (view sb u).slot = (view sb t).slot := by
          rw [hview₁]
          exact hgrows.ok.slot_alloc hsb hfree₁
        have hfill : (view sb w).slot = Function.update (view sb t).slot (i, .ofIndex bn) a := by
          rw [hview₂, hindex, ← hold, ← hdinode]
          refine View.slot_setEntry (hdinode ▸ ha') ?_ (hdinode ▸ hne) hlt (by omega)
          rw [hold]
          exact hgrows.ok.distinct
        have hgrows₂ : (view sb t).Grows sb i (· = .ofIndex bn) (view sb w) := by
          refine hgrows.ok.grows hsb hlt₁ hfree₁ h0 hfill ?_ (fun j hj => ?_) ?_ fun x hx hne' => ?_
          · rw [hview₂, View.setData_used, hview₁]
            rfl
          · rw [hview₂, View.setData_dinode, hdinode]
          · rw [hview₂, View.setData_dinode, hdinode]
            exact .refl _
          · -- a data block is not the indirect block
            have hind : (view sb t).slot x ≠ ((view sb t).dinode i).addr 12 := by
              intro heq
              have := hgrows.ok.distinct x (i, .ofAddr 12) (by rw [hslot, heq]) hne'
              exact hx (congrArg Prod.snd this)
            rw [hview₂, View.setData_data, Function.update_of_ne hind, hview₁, View.alloc,
              View.setData_data, Function.update_of_ne (hgrows.ok.slot_ne hfree₁ hne')]
            rfl
        have hsteady₃ : Steady sb ∅ t w := hsteady₁.trans hsteady₂
        refine .pure ⟨hsteady.trans (hsteady₃.mono (Set.empty_subset _)),
          hgrows'.trans (hgrows₂.mono fun σ => Or.inr), ?_, fun h0' => by omega,
          fun hcon' => absurd hcon hcon', fun hl => ?_⟩
        · rw [View.block, hfill, Function.update_self]
        · exact (hlogged hl).fill hsteady₃.clean hfill (fun hdirty => hclean₁ (hsteady₂.clean _ hdirty))
            hgrows₂.type

end Bmap

/-! ## `itrunc` -/

theorem Slot.ofAddr_inj {l : ℕ} (hl : l ≤ 12) (hk : k ≤ 12) (h : Slot.ofAddr l = .ofAddr k) :
    l = k := by
  rw [Slot.ofAddr, Slot.ofAddr] at h
  split at h <;> split at h
  · exact Slot.direct.inj h
  · exact nomatch h
  · exact nomatch h
  · omega

theorem Slot.entry_ne_ofAddr (k l : ℕ) : Slot.entry k ≠ .ofAddr l := by
  intro h
  rw [Slot.ofAddr] at h
  split at h <;> exact nomatch h

/-- From `v` to `w` the blocks in the places `S` of inode `i` have been freed, and the addresses among
them have been set to 0. -/
structure View.Frees (i : ℕ) (S : Slot → Prop) (v w : View) : Prop where
  dinode_of_ne : ∀ j, j ≠ i → w.dinode j = v.dinode j
  same : SameFields (v.dinode i) (w.dinode i)
  cleared : ∀ l ≤ 12, S (.ofAddr l) → (w.dinode i).addr l = 0
  addr : ∀ l ≤ 12, ¬ S (.ofAddr l) → (w.dinode i).addr l = (v.dinode i).addr l
  data : w.data = v.data
  used : ∀ c, w.used c = true ↔ v.used c = true ∧ ∀ σ, S σ → v.slot (i, σ) = c → c = 0

namespace View

variable {v w : View} {S T : Slot → Prop} {σ : Slot}

theorem Frees.none : Frees i (fun _ => False) v v :=
  ⟨fun _ _ => rfl, .refl _, fun _ _ h => h.elim, fun _ _ _ => rfl, rfl, fun _ =>
    ⟨fun h => ⟨h, fun _ h => h.elim⟩, fun h => h.1⟩⟩

theorem Frees.congr (h : Frees i S v w) (hST : ∀ σ, T σ ↔ S σ) : Frees i T v w := by
  obtain rfl : T = S := funext fun σ => propext (hST σ)
  exact h

theorem Frees.used_of_not (h : Frees i S v w) (hok : v.Ok sb) (hσ : ¬ S σ)
    (hne : v.slot (i, σ) ≠ 0) : w.used (v.slot (i, σ)) = true := by
  refine (h.used _).mpr ⟨hok.used _ hne, fun τ hτ heq => ?_⟩
  have := hok.distinct (i, τ) (i, σ) heq (heq ▸ hne)
  exact absurd ((Prod.mk.inj this).2 ▸ hτ) hσ

theorem Frees.used_setUsed (h : Frees i S v w) (hb : v.slot (i, σ) ≠ 0) (c : ℕ) :
    (w.setUsed (v.slot (i, σ)) false).used c = true ↔
      v.used c = true ∧ ∀ τ, S τ ∨ τ = σ → v.slot (i, τ) = c → c = 0 := by
  rw [setUsed_used, Function.update_apply]
  by_cases hc : c = v.slot (i, σ)
  · rw [if_pos hc]
    refine ⟨fun hcon => (nomatch hcon), fun hall => ?_⟩
    exact absurd (hc ▸ hall.2 σ (Or.inr rfl) hc.symm) hb
  · rw [if_neg hc]
    refine (h.used c).trans (and_congr_right fun _ => ⟨fun hall τ hτ heq => ?_, fun hall τ hτ => ?_⟩)
    · exact hall τ (hτ.resolve_right fun hτσ => hc (heq.symm.trans (hτσ ▸ rfl))) heq
    · exact hall τ (Or.inl hτ)

theorem Frees.extend (h : Frees i S v w) (ha : (v.dinode i).type ≠ 0) (hST : ∀ σ, S σ → T σ)
    (h0 : ∀ σ, T σ → S σ ∨ v.slot (i, σ) = 0) : Frees i T v w where
  dinode_of_ne := h.dinode_of_ne
  same := h.same
  cleared l hl hT := by
    by_cases hS : S (.ofAddr l)
    · exact h.cleared l hl hS
    · have hempty := (h0 _ hT).resolve_left hS
      rw [slot_ofAddr ha hl] at hempty
      rw [h.addr l hl hS, hempty]
  addr l hl hT := h.addr l hl fun hS => hT (hST _ hS)
  data := h.data
  used c := by
    refine (h.used c).trans (and_congr_right fun _ => ⟨fun hall τ hτ heq => ?_, fun hall τ hτ => ?_⟩)
    · rcases h0 τ hτ with hS | hempty
      · exact hall τ hS heq
      · exact heq.symm.trans hempty
    · exact hall τ (hST τ hτ)

theorem Frees.unmark (h : Frees i S v w) (hb : v.slot (i, σ) ≠ 0) (hw : ∀ l ≤ 12, σ ≠ .ofAddr l) :
    Frees i (fun τ => S τ ∨ τ = σ) v (w.setUsed (v.slot (i, σ)) false) where
  dinode_of_ne := h.dinode_of_ne
  same := h.same
  cleared := fun l hl hS => h.cleared l hl (hS.resolve_right fun heq => hw l hl heq.symm)
  addr := fun l hl hS => h.addr l hl fun hS' => hS (Or.inl hS')
  data := h.data
  used := h.used_setUsed hb

/-- The mark of the block at an address is cleared, and the address is set to 0. -/
theorem Frees.clear (h : Frees i S v w) (hk : k ≤ 12) (hb : v.slot (i, .ofAddr k) ≠ 0) :
    Frees i (fun τ => S τ ∨ τ = .ofAddr k) v ((w.setUsed (v.slot (i, .ofAddr k)) false).setDinode i
      ((w.dinode i).setAddr k 0)) := by
  refine ⟨fun j hj => ?_, ?_, fun l hl hS => ?_, fun l hl hS => ?_, h.data, h.used_setUsed hb⟩
  · rw [setDinode_dinode, Function.update_of_ne hj, setUsed_dinode]
    exact h.dinode_of_ne j hj
  · rw [setDinode_dinode, Function.update_self]
    exact h.same.trans (sameFields_setAddr _ _ _)
  · rw [setDinode_dinode, Function.update_self]
    by_cases hlk : l = k
    · rw [hlk, Dinode.addr_setAddr_self hk (by decide)]
    · rw [Dinode.addr_setAddr_of_ne hlk]
      exact h.cleared l hl (hS.resolve_right fun heq => hlk (Slot.ofAddr_inj hl hk heq))
  · rw [setDinode_dinode, Function.update_self,
      Dinode.addr_setAddr_of_ne fun hlk : l = k => hS (Or.inr (congrArg Slot.ofAddr hlk))]
    exact h.addr l hl fun hS' => hS (Or.inl hS')

end View

section Itrunc

variable (hsb : sb.Ok) (hi : i < sb.ninodes) {v : View} (hok : v.Ok sb) (ha : (v.dinode i).type ≠ 0)

include hsb hi hok ha

theorem freeAddr_spec {S : Slot → Prop} (hv : (s.inode i).valid) (hk : k ≤ 12)
    (hS : ¬ S (.ofAddr k)) (h : v.Frees i S (view sb s)) :
    Ensures (freeAddr sb i k) s fun _ t => Steady sb {i} s t ∧
      v.Frees i (fun τ => S τ ∨ τ = .ofAddr k) (view sb t) := by
  have hslot : v.slot (i, .ofAddr k) = ((view sb s).dinode i).addr k := by
    rw [View.slot_ofAddr ha hk, h.addr k hk hS]
  rw [freeAddr]
  refine ensures_getInode_bind ?_
  rw [← dinode_of_valid hi hv, ← hslot]
  refine .ite (fun h0 => .pure ⟨.refl, ?_⟩) fun hne => ?_
  · refine h.extend ha (fun _ => Or.inl) ?_
    rintro σ (hσ | rfl)
    · exact Or.inl hσ
    · exact Or.inr h0
  · refine .bind (bfree_spec hsb (hok.range _ hne).2 (h.used_of_not hok hS hne)) ?_
    rintro - t ⟨hsteady, hview⟩
    have hv' : (t.inode i).valid := by
      rw [hsteady.valid]
      exact hv
    refine (modifyInode_spec hi hv' _).mono ?_
    rintro - u ⟨hsteady', hview'⟩
    refine ⟨(hsteady.mono (Set.empty_subset _)).trans hsteady', ?_⟩
    rw [hview', hview]
    exact h.clear hk hne

omit hi in
theorem freeEntry_spec {S : Slot → Prop} {m : Mem} (hS : ¬ S (.entry k))
    (hm : entryAt m k = v.slot (i, .entry k)) (h : v.Frees i S (view sb s)) :
    Ensures (freeEntry sb m k) s fun _ t => Steady sb {i} s t ∧
      v.Frees i (fun τ => S τ ∨ τ = .entry k) (view sb t) := by
  rw [freeEntry, hm]
  refine .ite (fun h0 => .pure ⟨.refl, ?_⟩) fun hne => ?_
  · refine h.extend ha (fun _ => Or.inl) ?_
    rintro σ (hσ | rfl)
    · exact Or.inl hσ
    · exact Or.inr h0
  refine (bfree_spec hsb (hok.range _ hne).2 (h.used_of_not hok hS hne)).mono ?_
  rintro - t ⟨hsteady, hview⟩
  refine ⟨hsteady.mono (Set.empty_subset _), ?_⟩
  rw [hview]
  exact h.unmark hne fun l _ => Slot.entry_ne_ofAddr k l

theorem freeDirect_spec (hv : (s.inode i).valid) (h : v.Frees i (fun _ => False) (view sb s)) :
    Ensures (forUp (freeAddr sb i) 0 12) s fun _ t => Steady sb {i} s t ∧
      v.Frees i (fun σ => ∃ l < 12, σ = .direct l) (view sb t) := by
  have hofAddr : ∀ {l}, l < 12 → Slot.ofAddr l = .direct l := fun hl => if_pos hl
  refine Ensures.forUp (I := fun k t => Steady sb {i} s t ∧
    v.Frees i (fun σ => ∃ l < k, σ = .direct l) (view sb t)) ⟨.refl, ?_⟩ ?_
  · exact h.congr fun σ => ⟨fun ⟨l, hl, _⟩ => by omega, fun hcon => hcon.elim⟩
  rintro k t - hk ⟨hsteady, hfrees⟩
  have hv' : (t.inode i).valid := by
    rw [hsteady.valid]
    exact hv
  have hnot : ¬ ∃ l < k, Slot.ofAddr k = .direct l := by
    rintro ⟨l, hl, heq⟩
    rw [hofAddr (by omega)] at heq
    exact absurd (Slot.direct.inj heq) (by omega)
  refine (freeAddr_spec hsb hi hok ha hv' (by omega) hnot hfrees).mono ?_
  rintro - u ⟨hsteady', hfrees'⟩
  refine ⟨hsteady.trans hsteady', hfrees'.congr fun σ => ?_⟩
  rw [hofAddr (by omega)]
  constructor
  · rintro ⟨l, hl, rfl⟩
    by_cases hlk : l = k
    · exact Or.inr (hlk ▸ rfl)
    · exact Or.inl ⟨l, by omega, rfl⟩
  · rintro (⟨l, hl, rfl⟩ | rfl)
    · exact ⟨l, by omega, rfl⟩
    · exact ⟨k, by omega, rfl⟩

omit hi in
theorem freeEntries_spec {m : Mem} (hne : (v.dinode i).addr 12 ≠ 0)
    (hm : m = v.data ((v.dinode i).addr 12))
    (h : v.Frees i (fun σ => ∃ l < 12, σ = .direct l) (view sb s)) :
    Ensures (forUp (freeEntry sb m) 0 256) s fun _ t => Steady sb {i} s t ∧
      v.Frees i (fun σ => (∃ l < 12, σ = .direct l) ∨ ∃ l < 256, σ = .entry l) (view sb t) := by
  refine Ensures.forUp (I := fun k t => Steady sb {i} s t ∧
    v.Frees i (fun σ => (∃ l < 12, σ = .direct l) ∨ ∃ l < k, σ = .entry l) (view sb t)) ⟨.refl, ?_⟩ ?_
  · refine h.congr fun σ => ⟨fun hσ => hσ.resolve_right ?_, Or.inl⟩
    rintro ⟨l, hl, -⟩
    omega
  rintro k t - hk ⟨hsteady, hfrees⟩
  have hnot : ¬ ((∃ l < 12, Slot.entry k = .direct l) ∨ ∃ l < k, Slot.entry k = .entry l) := by
    rintro (⟨l, -, heq⟩ | ⟨l, hl, heq⟩)
    · exact nomatch heq
    · exact absurd (Slot.entry.inj heq) (by omega)
  have hentry : entryAt m k = v.slot (i, .entry k) := by
    rw [View.slot_of_allocated ha, Dinode.place, if_pos ⟨by omega, hne⟩, hm]
  refine (freeEntry_spec hsb hok ha hnot hentry hfrees).mono ?_
  rintro - u ⟨hsteady', hfrees'⟩
  refine ⟨hsteady.trans hsteady', hfrees'.congr fun σ => ?_⟩
  constructor
  · rintro (hσ | ⟨l, hl, rfl⟩)
    · exact Or.inl (Or.inl hσ)
    · by_cases hlk : l = k
      · exact Or.inr (hlk ▸ rfl)
      · exact Or.inl (Or.inr ⟨l, by omega, rfl⟩)
  · rintro ((hσ | ⟨l, hl, rfl⟩) | rfl)
    · exact Or.inl hσ
    · exact Or.inr ⟨l, by omega, rfl⟩
    · exact Or.inr ⟨k, by omega, rfl⟩

/-- The indirect block and its blocks are freed, and so all blocks are. -/
theorem freeIndirect_spec (hv : (s.inode i).valid)
    (h : v.Frees i (fun σ => ∃ l < 12, σ = .direct l) (view sb s)) :
    Ensures (freeIndirect sb i) s fun _ t => Steady sb {i} s t ∧
      v.Frees i (fun _ => True) (view sb t) := by
  have haddr : ((view sb s).dinode i).addr 12 = (v.dinode i).addr 12 :=
    h.addr 12 (le_refl 12) (by rintro ⟨l, -, heq⟩; cases heq)
  have hindirect := View.slot_ofAddr ha (le_refl 12)
  -- places outside of the tables are empty
  have hdirect : ∀ l, ¬ l < 12 → v.slot (i, .direct l) = 0 := fun l hl => by
    rw [View.slot_of_allocated ha, Dinode.place, if_neg hl]
  have hentry : ∀ l, ¬ (l < 256 ∧ (v.dinode i).addr 12 ≠ 0) → v.slot (i, .entry l) = 0 := fun l hl => by
    rw [View.slot_of_allocated ha, Dinode.place, if_neg hl]
  rw [freeIndirect]
  refine ensures_getInode_bind ?_
  rw [← dinode_of_valid hi hv, haddr]
  refine .ite (fun h0 => .pure ⟨.refl, h.extend ha (fun _ _ => trivial) fun σ _ => ?_⟩) fun hne => ?_
  · cases σ with
    | direct l => exact or_iff_not_imp_left.mpr fun hl => hdirect l fun hlt => hl ⟨l, hlt, rfl⟩
    | indirect => exact Or.inr (hindirect.trans h0)
    | entry l => exact Or.inr (hentry l fun hl => hl.2 h0)
  · have hrange := hok.range (i, .ofAddr 12) (hindirect ▸ hne)
    rw [hindirect] at hrange
    refine ensures_bread_bind (.bind (freeEntries_spec hsb hok ha hne ?_ h) ?_)
    · rw [← h.data, data_eq hrange.1]
    rintro - t ⟨hsteady, hfrees⟩
    have hv' : (t.inode i).valid := by
      rw [hsteady.valid]
      exact hv
    have hnot : ¬ ((∃ l < 12, Slot.ofAddr 12 = .direct l) ∨ ∃ l < 256, Slot.ofAddr 12 = .entry l) := by
      rintro (⟨l, -, heq⟩ | ⟨l, -, heq⟩) <;> cases heq
    refine (freeAddr_spec hsb hi hok ha hv' (le_refl 12) hnot hfrees).mono ?_
    rintro - u ⟨hsteady', hfrees'⟩
    refine ⟨hsteady.trans hsteady', hfrees'.extend ha (fun _ _ => trivial) fun σ _ => ?_⟩
    cases σ with
    | direct l =>
      by_cases hl : l < 12
      · exact Or.inl (Or.inl (Or.inl ⟨l, hl, rfl⟩))
      · exact Or.inr (hdirect l hl)
    | indirect => exact Or.inl (Or.inr rfl)
    | entry l =>
      by_cases hl : l < 256
      · exact Or.inl (Or.inl (Or.inr ⟨l, hl, rfl⟩))
      · exact Or.inr (hentry l fun hcon => hl hcon.1)

end Itrunc

/-- From `v` to `w` all blocks of inode `i` have been freed. -/
structure View.Truncates (sb : Superblock) (i : ℕ) (v w : View) : Prop where
  ok : w.Ok sb
  exact_of : ∀ X, v.Exact sb X → w.Exact sb X
  dinode_of_ne : ∀ j, j ≠ i → w.dinode j = v.dinode j
  type : (w.dinode i).type = (v.dinode i).type
  major : (w.dinode i).major = (v.dinode i).major
  minor : (w.dinode i).minor = (v.dinode i).minor
  nlink : (w.dinode i).nlink = (v.dinode i).nlink
  size : (w.dinode i).size = 0
  empty : ∀ σ, w.slot (i, σ) = 0
  others : ∀ j σ, j ≠ i → w.slot (j, σ) = v.slot (j, σ)
  data : w.data = v.data
  used : ∀ c, w.used c = true ↔ v.used c = true ∧ ∀ σ, v.slot (i, σ) = c → c = 0

theorem View.Frees.truncates {v w : View} (h : v.Frees i (fun _ => True) w) (hok : v.Ok sb)
    (hsb : sb.Ok) (ha : (v.dinode i).type ≠ 0) :
    v.Truncates sb i (w.setDinode i { w.dinode i with size := 0 }) := by
  have hpos := hsb.datastart_pos
  have haddr : ∀ k ≤ 12, Dinode.addr { w.dinode i with size := 0 } k = 0 := fun k hk =>
    h.cleared k hk trivial
  have hempty : ∀ σ, (w.setDinode i { w.dinode i with size := 0 }).slot (i, σ) = 0 := by
    intro σ
    rw [View.slot_of_allocated]
    · rw [View.setDinode_dinode, Function.update_self]
      cases σ with
      | direct k =>
        rw [Dinode.place]
        split
        · exact haddr k (by omega)
        · rfl
      | indirect => exact haddr 12 (le_refl 12)
      | entry k => rw [Dinode.place, if_neg fun hcon => hcon.2 (haddr 12 (le_refl 12))]
    · rw [View.setDinode_dinode, Function.update_self]
      exact h.same.type ▸ ha
  have hothers : ∀ j σ, j ≠ i →
      (w.setDinode i { w.dinode i with size := 0 }).slot (j, σ) = v.slot (j, σ) := by
    intro j σ hj
    rw [View.slot, View.slot, View.setDinode_dinode, Function.update_of_ne hj, h.dinode_of_ne j hj,
      View.setDinode_data, h.data]
  -- a place that is not empty is one of another inode, and keeps its block
  have hslot : ∀ x, (w.setDinode i { w.dinode i with size := 0 }).slot x ≠ 0 →
      (w.setDinode i { w.dinode i with size := 0 }).slot x = v.slot x ∧ x.1 ≠ i := by
    rintro ⟨j, σ⟩ hx
    by_cases hj : j = i
    · exact absurd (hj ▸ hempty σ) hx
    · exact ⟨hothers j σ hj, hj⟩
  refine ⟨⟨fun b hb => ?_, fun x hx => ?_, fun x hx => ?_, fun x y heq hx => ?_⟩, fun X hX b hb hu => ?_,
    fun j hj => ?_, ?_, ?_, ?_, ?_, ?_, hempty, hothers, h.data, fun c => ?_⟩
  · refine (h.used b).mpr ⟨hok.metadata b hb, fun σ _ heq => ?_⟩
    by_contra hne
    have := (hok.range (i, σ) (heq ▸ hne)).1
    omega
  · obtain ⟨heq, -⟩ := hslot x hx
    rw [heq] at hx ⊢
    exact hok.range x hx
  · obtain ⟨heq, hne⟩ := hslot x hx
    rw [heq] at hx ⊢
    refine (h.used _).mpr ⟨hok.used x hx, fun σ _ hσ => ?_⟩
    have := hok.distinct (i, σ) x hσ (hσ ▸ hx)
    exact absurd (congrArg Prod.fst this).symm hne
  · obtain ⟨hvx, -⟩ := hslot x hx
    obtain ⟨hvy, -⟩ := hslot y (heq ▸ hx)
    rw [hvx] at hx heq
    rw [hvy] at heq
    exact hok.distinct x y heq hx
  · obtain ⟨hu, hnot⟩ := (h.used b).mp hu
    rcases hX b hb hu with hlt | ⟨hne, ⟨j, σ⟩, rfl⟩ | hin
    · exact Or.inl hlt
    · refine Or.inr (Or.inl ⟨hne, (j, σ), hothers j σ ?_⟩)
      rintro rfl
      exact hne (hnot σ trivial rfl)
    · exact Or.inr (Or.inr hin)
  · rw [View.setDinode_dinode, Function.update_of_ne hj]
    exact h.dinode_of_ne j hj
  · rw [View.setDinode_dinode, Function.update_self]
    exact h.same.type
  · rw [View.setDinode_dinode, Function.update_self]
    exact h.same.major
  · rw [View.setDinode_dinode, Function.update_self]
    exact h.same.minor
  · rw [View.setDinode_dinode, Function.update_self]
    exact h.same.nlink
  · rw [View.setDinode_dinode, Function.update_self]
  · refine (h.used c).trans (and_congr_right fun _ => ⟨fun hall σ => hall σ trivial, fun hall σ _ => ?_⟩)
    exact hall σ

/-- **`itrunc`** frees all blocks of an inode. -/
theorem itrunc_spec (hsb : sb.Ok) (hi : i < sb.ninodes) (hok : (view sb s).Ok sb)
    (hv : (s.inode i).valid) (ha : ((view sb s).dinode i).type ≠ 0) :
    Ensures (itrunc sb i) s fun _ t => Steady sb ∅ s t ∧ Synced sb t i ∧
      (view sb s).Truncates sb i (view sb t) := by
  rw [itrunc]
  refine .bind (freeDirect_spec hsb hi hok ha hv .none) ?_
  rintro - t ⟨hsteady, hfrees⟩
  have hv₁ : (t.inode i).valid := by
    rw [hsteady.valid]
    exact hv
  refine .bind (freeIndirect_spec hsb hi hok ha hv₁ hfrees) ?_
  rintro - u ⟨hsteady', hfrees'⟩
  have hv₂ : (u.inode i).valid := by
    rw [hsteady'.valid]
    exact hv₁
  refine .bind (modifyInode_spec hi hv₂ _) ?_
  rintro - w ⟨hsteady₂, hview₂⟩
  have hv₃ : (w.inode i).valid := by
    rw [hsteady₂.valid]
    exact hv₂
  refine (iupdate_spec hsb hi hv₃).mono ?_
  rintro - r ⟨hsteady₃, hsynced, hview₃, -⟩
  refine ⟨?_, hsynced, ?_⟩
  · have hall : Steady sb {i} s r :=
      ((hsteady.trans hsteady').trans hsteady₂).trans (hsteady₃.mono (Set.empty_subset _))
    refine Steady.of_synced (i := i) (hall.mono ?_) hsynced
    rw [insert_empty_eq]
  · rw [hview₃, hview₂]
    exact hfrees'.truncates hok hsb ha

end Xv6.Fs
