import Xv6.Fs.View
import Xv6.Lib.Slots

/-!
# Who owns which block

An inode has places for block numbers: the direct addresses, the address of the indirect block, and the
entries of that block (`Slot`).  `View.slot` reads a place; 0 is an empty one, and an inode that is not
allocated has only empty places.

`View.Ok` is what the functions of `kernel/fs.c` rely on.  No block is in two places, and a block in a
place is a data block that is marked as used.  `View.Exact` says in addition that no other data block is
marked, except those in a given set, which are on their way to a place.
-/

namespace Xv6.Fs

open Bytes Program Slots

/-- A place for a block number. -/
inductive Slot where
  | direct (k : ℕ)
  | indirect
  | entry (k : ℕ)
  deriving DecidableEq

/-- The place for the `bn`-th block of the content. -/
def Slot.ofIndex (bn : ℕ) : Slot := if bn < 12 then .direct bn else .entry (bn - 12)

theorem Slot.ofIndex_inj {bn bn' : ℕ} (h : Slot.ofIndex bn = .ofIndex bn') : bn = bn' := by
  rw [ofIndex, ofIndex] at h
  split at h <;> split at h
  · exact Slot.direct.inj h
  · exact nomatch h
  · exact nomatch h
  · have := Slot.entry.inj h
    omega

theorem Slot.ofIndex_ne_indirect (bn : ℕ) : Slot.ofIndex bn ≠ .indirect := by
  rw [ofIndex]
  split <;> exact nofun

/-- What is in a place of an inode. -/
def Dinode.place (x : Dinode) (data : ℕ → Mem) : Slot → ℕ
  | .direct k => if k < 12 then x.addr k else 0
  | .indirect => x.addr 12
  | .entry k => if k < 256 ∧ x.addr 12 ≠ 0 then entryAt (data (x.addr 12)) k else 0

namespace View

/-- What is in a place. -/
def slot (v : View) (x : ℕ × Slot) : ℕ :=
  if (v.dinode x.1).type = 0 then 0 else (v.dinode x.1).place v.data x.2

/-- The address of the `bn`-th block of inode `i`. -/
def block (v : View) (i bn : ℕ) : ℕ := v.slot (i, .ofIndex bn)

structure Ok (sb : Superblock) (v : View) : Prop where
  metadata : ∀ b < sb.datastart, v.used b = true
  range : ∀ x, v.slot x ≠ 0 → sb.datastart ≤ v.slot x ∧ v.slot x < sb.size
  used : ∀ x, v.slot x ≠ 0 → v.used (v.slot x) = true
  distinct : Distinct v.slot

/-- The blocks that are marked are the metadata, those in a place, and `X`. -/
def Exact (sb : Superblock) (X : Set ℕ) (v : View) : Prop :=
  ∀ b < sb.size, v.used b = true → b < sb.datastart ∨ b ∈ values v.slot ∨ b ∈ X

end View

variable {sb : Superblock} {v v' : View} {i j k b bn : ℕ} {m : Mem}

/-! ## Changes to the places -/

theorem View.slot_congr_used (hd : v'.dinode = v.dinode) (hm : v'.data = v.data) :
    v'.slot = v.slot := by
  funext x
  rw [slot, slot, hd, hm]

@[simp] theorem View.slot_setUsed (x : Bool) : (v.setUsed b x).slot = v.slot :=
  slot_congr_used rfl rfl

theorem View.slot_setData (h : ∀ i, v.slot (i, .indirect) ≠ b) : (v.setData b m).slot = v.slot := by
  funext ⟨i, σ⟩
  have hi := h i
  rw [slot] at hi
  rw [slot, slot, setData_dinode, setData_data]
  split
  · rfl
  · rename_i htype
    rw [if_neg htype] at hi
    have hi : (v.dinode i).addr 12 ≠ b := hi
    cases σ with
    | direct k => rfl
    | indirect => rfl
    | entry k => rw [Dinode.place, Dinode.place, Function.update_of_ne hi]

theorem View.slot_setDinode {x : Dinode} (htype : x.type = 0 ↔ (v.dinode i).type = 0)
    (haddr : (v.dinode i).type ≠ 0 → ∀ k, x.addr k = (v.dinode i).addr k) :
    (v.setDinode i x).slot = v.slot := by
  funext ⟨j, σ⟩
  rw [slot, slot, setDinode_dinode, setDinode_data]
  dsimp only
  by_cases hj : j = i
  · subst hj
    rw [Function.update_self]
    by_cases h0 : (v.dinode j).type = 0
    · rw [if_pos h0, if_pos (htype.mpr h0)]
    · have ha := haddr h0
      rw [if_neg h0, if_neg fun hx => h0 (htype.mp hx)]
      cases σ with
      | direct k => rw [Dinode.place, Dinode.place, ha]
      | indirect => rw [Dinode.place, Dinode.place, ha]
      | entry k => rw [Dinode.place, Dinode.place, ha]
  · rw [Function.update_of_ne hj]

section Place

variable (hi : (v.dinode i).type ≠ 0)

include hi

theorem View.slot_of_allocated (σ : Slot) : v.slot (i, σ) = (v.dinode i).place v.data σ := by
  rw [slot, if_neg hi]

theorem View.slot_setDirect (hk : k < 12) (hb : b < 2 ^ 32) :
    (v.setDinode i ((v.dinode i).setAddr k b)).slot = Function.update v.slot (i, .direct k) b := by
  funext ⟨j, σ⟩
  rw [slot, setDinode_dinode, setDinode_data]
  dsimp only
  by_cases hj : j = i
  · subst hj
    rw [Function.update_self, Dinode.setAddr_type, if_neg hi]
    by_cases hσ : σ = .direct k
    · subst hσ
      rw [Function.update_self, Dinode.place, if_pos hk, Dinode.addr_setAddr_self (by omega) hb]
    · rw [Function.update_of_ne (by simpa using hσ), slot_of_allocated hi]
      cases σ with
      | direct l =>
        have hl : l ≠ k := fun h => hσ (h ▸ rfl)
        rw [Dinode.place, Dinode.place, Dinode.addr_setAddr_of_ne hl]
      | indirect => rw [Dinode.place, Dinode.place, Dinode.addr_setAddr_of_ne (by omega)]
      | entry l => rw [Dinode.place, Dinode.place, Dinode.addr_setAddr_of_ne (by omega)]
  · rw [Function.update_of_ne hj, Function.update_of_ne (by simp [hj]), slot]

theorem View.slot_setIndirect (hb : b < 2 ^ 32) (h0 : (v.dinode i).addr 12 = 0)
    (hzero : v.data b = fun _ => 0) :
    (v.setDinode i ((v.dinode i).setAddr 12 b)).slot = Function.update v.slot (i, .indirect) b := by
  funext ⟨j, σ⟩
  rw [slot, setDinode_dinode, setDinode_data]
  dsimp only
  by_cases hj : j = i
  · subst hj
    rw [Function.update_self, Dinode.setAddr_type, if_neg hi]
    cases σ with
    | direct l =>
      rw [Function.update_of_ne (by simp), slot_of_allocated hi, Dinode.place, Dinode.place]
      split
      · rw [Dinode.addr_setAddr_of_ne (by omega)]
      · rfl
    | indirect => rw [Function.update_self, Dinode.place, Dinode.addr_setAddr_self (by omega) hb]
    | entry l =>
      rw [Function.update_of_ne (by simp), slot_of_allocated hi, Dinode.place, Dinode.place,
        Dinode.addr_setAddr_self (by omega) hb, hzero, entryAt, load_zero, ite_self,
        if_neg fun hl => hl.2 h0]
  · rw [Function.update_of_ne hj, Function.update_of_ne (by simp [hj]), slot]

theorem View.slot_setEntry (hdist : Distinct v.slot) (h0 : (v.dinode i).addr 12 ≠ 0) (hk : k < 256)
    (hb : b < 2 ^ 32) :
    (v.setData ((v.dinode i).addr 12) (store 4 (v.data ((v.dinode i).addr 12)) (4 * k) b)).slot =
      Function.update v.slot (i, .entry k) b := by
  funext ⟨j, σ⟩
  rw [slot, setData_dinode, setData_data]
  dsimp only
  by_cases hj : j = i
  · subst hj
    rw [if_neg hi]
    cases σ with
    | direct l => rw [Function.update_of_ne (by simp), slot_of_allocated hi, Dinode.place, Dinode.place]
    | indirect => rw [Function.update_of_ne (by simp), slot_of_allocated hi, Dinode.place, Dinode.place]
    | entry l =>
      rw [Dinode.place, Function.update_self]
      by_cases hl : l = k
      · subst hl
        rw [Function.update_self, if_pos ⟨hk, h0⟩, entryAt, load_store_of_lt hb]
      · rw [Function.update_of_ne (by simpa using hl), slot_of_allocated hi, Dinode.place]
        simp only [entryAt]
        rw [load_store_of_disjoint (by omega)]
  · -- the indirect block of another inode is another block
    rw [Function.update_of_ne (by simp [hj]), slot]
    dsimp only
    split
    · rfl
    · rename_i hj0
      cases σ with
      | direct l => rfl
      | indirect => rfl
      | entry l =>
        have hne : (v.dinode j).addr 12 ≠ (v.dinode i).addr 12 := by
          intro heq
          have hsj : v.slot (j, .indirect) = (v.dinode j).addr 12 := slot_of_allocated hj0 _
          have hsi : v.slot (i, .indirect) = (v.dinode i).addr 12 := slot_of_allocated hi _
          have := hdist (j, .indirect) (i, .indirect) (by rw [hsj, hsi, heq]) (by rw [hsj, heq]; exact h0)
          exact hj (Prod.mk.inj this).1
        rw [Dinode.place, Dinode.place, Function.update_of_ne hne]

end Place

/-! ## Keeping order -/

namespace View

variable {X : Set ℕ}

theorem Ok.notMem_values (h : v.Ok sb) (hb : v.used b = false) : b ∉ values v.slot := by
  rintro ⟨hne, x, rfl⟩
  rw [h.used x hne] at hb
  exact nomatch hb

theorem Ok.le_of_free (h : v.Ok sb) (hb : v.used b = false) : sb.datastart ≤ b := by
  by_contra hlt
  rw [h.metadata b (by omega)] at hb
  exact nomatch hb

/-- A free block is marked and zeroed. -/
def alloc (v : View) (b : ℕ) : View := (v.setUsed b true).setData b fun _ => 0

theorem Ok.slot_alloc (h : v.Ok sb) (hsb : sb.Ok) (hb : v.used b = false) :
    (v.alloc b).slot = v.slot := by
  rw [alloc, slot_setData fun i heq => ?_, slot_setUsed]
  rw [slot_setUsed] at heq
  have hne : b ≠ 0 := by
    have := h.le_of_free hb
    have := hsb.datastart_pos
    omega
  exact h.notMem_values hb (heq ▸ mem_values (heq ▸ hne))

theorem Ok.alloc (h : v.Ok sb) (hsb : sb.Ok) (hb : v.used b = false) : (v.alloc b).Ok sb := by
  have hslot := h.slot_alloc hsb hb
  have hused : ∀ c, v.used c = true → (v.alloc b).used c = true := by
    intro c hc
    rw [View.alloc, setData_used, setUsed_used, Function.update_apply]
    split
    · rfl
    · exact hc
  refine ⟨fun c hc => hused c (h.metadata c hc), ?_, ?_, ?_⟩
  · rw [hslot]
    exact h.range
  · rw [hslot]
    exact fun x hx => hused _ (h.used x hx)
  · rw [hslot]
    exact h.distinct

theorem Exact.alloc (h : v.Exact sb X) (hok : v.Ok sb) (hsb : sb.Ok) (hb : v.used b = false) :
    (v.alloc b).Exact sb (insert b X) := by
  intro c hc hused
  rw [hok.slot_alloc hsb hb]
  by_cases hcb : c = b
  · exact Or.inr (Or.inr (Or.inl hcb))
  · rw [View.alloc, setData_used, setUsed_used, Function.update_of_ne hcb] at hused
    exact (h c hc hused).imp_right (Or.imp_right Or.inr)

theorem Ok.fill {x : ℕ × Slot} (h : v.Ok sb) (hslot : v'.slot = Function.update v.slot x b)
    (hused : v'.used = v.used) (hb : v.used b = true) (hnot : b ∉ values v.slot)
    (hlo : sb.datastart ≤ b) (hhi : b < sb.size) : v'.Ok sb := by
  refine ⟨fun c hc => hused ▸ h.metadata c hc, fun y hy => ?_, fun y hy => ?_, ?_⟩
  · rw [hslot] at hy ⊢
    by_cases hyx : y = x
    · rw [hyx, Function.update_self]
      exact ⟨hlo, hhi⟩
    · rw [Function.update_of_ne hyx] at hy ⊢
      exact h.range y hy
  · rw [hslot] at hy ⊢
    rw [hused]
    by_cases hyx : y = x
    · rw [hyx, Function.update_self]
      exact hb
    · rw [Function.update_of_ne hyx] at hy ⊢
      exact h.used y hy
  · rw [hslot]
    exact h.distinct.update hnot x

theorem Exact.fill {x : ℕ × Slot} (h : v.Exact sb (insert b X))
    (hslot : v'.slot = Function.update v.slot x b) (hused : v'.used = v.used)
    (hx : v.slot x = 0) (hb : b ≠ 0) : v'.Exact sb X := by
  intro c hc hu
  rw [hused] at hu
  rcases h c hc hu with hlt | hin | rfl | hX
  · exact Or.inl hlt
  · exact Or.inr (Or.inl (hslot ▸ values_subset_update hx hin))
  · exact Or.inr (Or.inl (hslot ▸ ⟨hb, x, Function.update_self ..⟩))
  · exact Or.inr (Or.inr hX)

theorem Ok.of_addr_eq_zero (hmeta : ∀ b < sb.datastart, v.used b = true)
    (h : ∀ i, (v.dinode i).type = 0 ∨ ∀ k, (v.dinode i).addr k = 0) : v.Ok sb := by
  have hslot : ∀ x, v.slot x = 0 := by
    rintro ⟨i, σ⟩
    rw [slot]
    split
    · rfl
    · rename_i hne
      have haddr := (h i).resolve_left hne
      cases σ with
      | direct k => rw [Dinode.place, haddr, ite_self]
      | indirect => rw [Dinode.place, haddr]
      | entry k => rw [Dinode.place, if_neg fun hcon => hcon.2 (haddr 12)]
  exact ⟨hmeta, fun x hx => absurd (hslot x) hx, fun x hx => absurd (hslot x) hx,
    fun x _ _ hx => absurd (hslot x) hx⟩

theorem Ok.congr (h : v.Ok sb) (hslot : v'.slot = v.slot) (hused : v'.used = v.used) : v'.Ok sb := by
  refine ⟨?_, ?_, ?_, ?_⟩
  · rw [hused]
    exact h.metadata
  · rw [hslot]
    exact h.range
  · rw [hslot, hused]
    exact h.used
  · rw [hslot]
    exact h.distinct

theorem Exact.congr (h : v.Exact sb X) (hslot : v'.slot = v.slot) (hused : v'.used = v.used) :
    v'.Exact sb X := by
  intro c hc hu
  rw [hslot]
  exact h c hc (hused ▸ hu)

end View

end Xv6.Fs
