import Xv6.Fs.Directory

/-!
# Files

What the calls of the file system work on is a partial map from inode numbers to files: a file has a type,
a device number, a link count and a content (`View.node`).  The operations on the disk are changes of this
map at one inode.

`View.Sound` is what holds of the disk between any two operations: blocks are owned as they are marked,
files have no holes, and directories are finite maps.
-/

namespace Xv6.Fs

open Bytes Program Slots

/-- What an inode is to those who use it. -/
@[ext] structure Node where
  type : UInt16
  major : UInt16
  minor : UInt16
  nlink : UInt16
  content : List UInt8

/-- The files by their inode numbers. -/
abbrev Files := ℕ → Option Node

namespace View

variable {sb : Superblock} {v w : View} {i j : ℕ} {x : Node} {c : List UInt8}

/-- The file that inode `i` is. -/
def node (v : View) (i : ℕ) : Option Node :=
  if (v.dinode i).type = 0 then none
  else some ⟨(v.dinode i).type, (v.dinode i).major, (v.dinode i).minor, (v.dinode i).nlink, v.content i⟩

theorem node_of_ne (h : (v.dinode i).type ≠ 0) :
    v.node i = some ⟨(v.dinode i).type, (v.dinode i).major, (v.dinode i).minor, (v.dinode i).nlink,
      v.content i⟩ :=
  if_neg h

theorem node_eq_none_iff : v.node i = none ↔ (v.dinode i).type = 0 := by
  rw [node]
  split
  · exact iff_of_true rfl ‹_›
  · exact iff_of_false nofun ‹_›

theorem type_ne_zero (h : v.node i = some x) : (v.dinode i).type ≠ 0 := by
  intro h0
  rw [node_eq_none_iff.mpr h0] at h
  exact nomatch h

theorem eq_of_node (h : v.node i = some x) :
    x = ⟨(v.dinode i).type, (v.dinode i).major, (v.dinode i).minor, (v.dinode i).nlink, v.content i⟩ := by
  rw [node_of_ne (type_ne_zero h)] at h
  exact (Option.some_inj.mp h).symm

theorem type_of_node (h : v.node i = some x) : (v.dinode i).type = x.type := by
  rw [eq_of_node h]

theorem nlink_of_node (h : v.node i = some x) : (v.dinode i).nlink = x.nlink := by
  rw [eq_of_node h]

theorem content_of_node (h : v.node i = some x) : v.content i = x.content := by
  rw [eq_of_node h]

theorem node_congr (hd : w.dinode j = v.dinode j) (hc : w.content j = v.content j) :
    w.node j = v.node j := by
  rw [node, node, hd, hc]

theorem Updates.node (h : Updates sb i c v w) (hx : v.node i = some x) :
    w.node = Function.update v.node i (some { x with content := c }) := by
  funext j
  rw [Function.update_apply]
  split
  · rename_i hj
    subst hj
    rw [node_of_ne (by rw [h.type]; exact type_ne_zero hx), h.type, h.major, h.minor, h.nlink, h.content,
      eq_of_node hx]
  · rename_i hj
    exact node_congr (h.dinode_of_ne j hj) (h.content_of_ne j hj)

/-! ## Sound disks -/

/-- Blocks have one owner, and those that are marked have one; files have no holes; directories are
directories; there is no inode 0. -/
structure Sound (sb : Superblock) (v : View) : Prop where
  ok : v.Ok sb
  exact : v.Exact sb ∅
  whole : ∀ i, (v.dinode i).type ≠ 0 → v.Whole i
  dir : ∀ i x, v.node i = some x → x.type = .ofNat T_DIR → DirOk sb.ninodes x.content
  zero : (v.dinode 0).type = 0

theorem Sound.pos (hs : v.Sound sb) (hx : v.node i = some x) : 0 < i := by
  refine Nat.pos_of_ne_zero ?_
  rintro rfl
  exact type_ne_zero hx hs.zero

theorem Sound.updates (hs : v.Sound sb) (h : Updates sb i c v w) (hx : v.node i = some x)
    (hdir : x.type = .ofNat T_DIR → DirOk sb.ninodes c) : w.Sound sb where
  ok := h.ok
  exact := h.exact_of ∅ hs.exact
  whole j hj := by
    by_cases hji : j = i
    · exact hji ▸ h.whole
    · rw [h.dinode_of_ne j hji] at hj
      exact h.whole_of_ne hji (hs.whole j hj)
  dir j y hy hytype := by
    rw [h.node hx, Function.update_apply] at hy
    split at hy
    · obtain rfl := Option.some_inj.mp hy
      exact hdir hytype
    · exact hs.dir j y hy hytype
  zero := by
    rw [h.dinode_of_ne 0 (hs.pos hx).ne]
    exact hs.zero

/-- Inodes that differ in the device number and the link count only. -/
structure SameShape (d d' : Dinode) : Prop where
  type : d'.type = d.type
  size : d'.size = d.size
  addr : ∀ k, d'.addr k = d.addr k

section Fields

variable {d : Dinode} (hd : SameShape (v.dinode i) d)

include hd

theorem slot_setFields : (v.setDinode i d).slot = v.slot :=
  slot_setDinode (by rw [hd.type]) fun _ => hd.addr

theorem content_setFields (j : ℕ) : (v.setDinode i d).content j = v.content j := by
  have hblock : ∀ bn, (v.setDinode i d).block j bn = v.block j bn := fun bn =>
    congrFun (slot_setFields hd) _
  have hsize : (v.setDinode i d).size j = v.size j := by
    rw [size, size, setDinode_dinode, Function.update_apply]
    split
    · rename_i hj
      rw [hd.size, hj]
    · rfl
  refine content_congr hsize fun p _ => ?_
  rw [byteAt, byteAt, hblock, setDinode_data]

theorem node_setFields (hx : v.node i = some x) :
    (v.setDinode i d).node =
      Function.update v.node i (some { x with major := d.major, minor := d.minor, nlink := d.nlink }) := by
  funext j
  rw [Function.update_apply]
  split
  · rename_i hj
    subst hj
    have hdinode : (v.setDinode j d).dinode j = d := Function.update_self ..
    rw [node_of_ne (by rw [hdinode, hd.type]; exact type_ne_zero hx), hdinode, content_setFields hd,
      hd.type, eq_of_node hx]
  · rename_i hj
    exact node_congr (Function.update_of_ne hj ..) (content_setFields hd j)

theorem Sound.setFields (hs : v.Sound sb) (hx : v.node i = some x) : (v.setDinode i d).Sound sb where
  ok := hs.ok.congr (slot_setFields hd) rfl
  exact := hs.exact.congr (slot_setFields hd) rfl
  whole j hj bn hbn := by
    have hj' : (v.dinode j).type ≠ 0 ∧ v.size j = (v.setDinode i d).size j := by
      rw [setDinode_dinode, Function.update_apply] at hj
      rw [size, size, setDinode_dinode, Function.update_apply]
      split
      · rename_i hji
        rw [if_pos hji, hd.type] at hj
        rw [hd.size, hji]
        exact ⟨hj, rfl⟩
      · rename_i hji
        rw [if_neg hji] at hj
        exact ⟨hj, rfl⟩
    rw [block, slot_setFields hd]
    exact hs.whole j hj'.1 bn (hj'.2 ▸ hbn)
  dir j y hy hytype := by
    rw [node_setFields hd hx, Function.update_apply] at hy
    split at hy
    · rename_i hj
      obtain rfl := Option.some_inj.mp hy
      exact hs.dir i x hx hytype
    · exact hs.dir j y hy hytype
  zero := by
    rw [setDinode_dinode, Function.update_of_ne (hs.pos hx).ne]
    exact hs.zero

end Fields

/-! ## Inodes come and go -/

theorem slot_allocInode (type : UInt16) (h0 : (v.dinode i).type = 0) :
    (v.setDinode i { Dinode.zero with type := type }).slot = v.slot := by
  funext ⟨j, σ⟩
  rw [slot, slot, setDinode_dinode, setDinode_data, Function.update_apply]
  by_cases hj : j = i
  · subst hj
    simp only [if_pos h0, if_pos]
    have haddr : ∀ k, Dinode.addr { Dinode.zero with type := type } k = 0 := by
      intro k
      rw [Dinode.addr]
      split <;> rfl
    split
    · rfl
    · cases σ with
      | direct k =>
        rw [Dinode.place, haddr]
        exact ite_self 0
      | indirect => exact haddr 12
      | entry k => rw [Dinode.place, if_neg fun hcon => hcon.2 (haddr 12)]
  · simp only [if_neg hj]

theorem node_allocInode {type : UInt16} (h0 : (v.dinode i).type = 0) (htype : type ≠ 0) :
    (v.setDinode i { Dinode.zero with type := type }).node =
      Function.update v.node i (some ⟨type, 0, 0, 0, []⟩) := by
  have hslot := slot_allocInode type h0
  funext j
  rw [Function.update_apply]
  split
  · rename_i hj
    subst hj
    have hdinode : (v.setDinode j { Dinode.zero with type := type }).dinode j =
      { Dinode.zero with type := type } := Function.update_self ..
    rw [node_of_ne (by rw [hdinode]; exact htype), content, size, hdinode]
    rfl
  · rename_i hj
    have hdinode : (v.setDinode i { Dinode.zero with type := type }).dinode j = v.dinode j :=
      Function.update_of_ne hj ..
    refine node_congr hdinode (content_congr (by rw [size, size, hdinode]) fun p _ => ?_)
    rw [byteAt, byteAt, block, hslot]
    rfl

theorem Sound.allocInode {type : UInt16} (hs : v.Sound sb) (h0 : (v.dinode i).type = 0)
    (htype : type ≠ 0) (hi : 0 < i) :
    (v.setDinode i { Dinode.zero with type := type }).Sound sb where
  ok := hs.ok.congr (slot_allocInode _ h0) rfl
  exact := hs.exact.congr (slot_allocInode _ h0) rfl
  whole j hj bn hbn := by
    rw [block, slot_allocInode _ h0]
    rw [setDinode_dinode, Function.update_apply] at hj
    rw [size, setDinode_dinode, Function.update_apply] at hbn
    split at hj
    · rename_i hji
      rw [if_pos hji] at hbn
      exact absurd hbn (Nat.not_lt_zero _)
    · rename_i hji
      rw [if_neg hji] at hbn
      exact hs.whole j hj bn hbn
  dir j y hy hytype := by
    rw [node_allocInode h0 htype, Function.update_apply] at hy
    split at hy
    · obtain rfl := Option.some_inj.mp hy
      exact dirOk_nil _
    · exact hs.dir j y hy hytype
  zero := by
    rw [setDinode_dinode, Function.update_of_ne hi.ne]
    exact hs.zero

/-- From `v` to `w` inode `i` and its blocks have been freed. -/
structure Removes (sb : Superblock) (i : ℕ) (v w : View) : Prop where
  ok : w.Ok sb
  exact_of : ∀ X, v.Exact sb X → w.Exact sb X
  dinode_of_ne : ∀ j, j ≠ i → w.dinode j = v.dinode j
  type : (w.dinode i).type = 0
  others : ∀ j σ, j ≠ i → w.slot (j, σ) = v.slot (j, σ)
  data : w.data = v.data
  used : ∀ c, w.used c = true ↔ v.used c = true ∧ ∀ σ, v.slot (i, σ) = c → c = 0

theorem Truncates.removes (h : Truncates sb i v w) :
    Removes sb i v (w.setDinode i { w.dinode i with type := 0 }) := by
  have hslot : (w.setDinode i { w.dinode i with type := 0 }).slot = w.slot := by
    funext ⟨j, σ⟩
    by_cases hj : j = i
    · subst hj
      rw [h.empty, slot, setDinode_dinode, Function.update_self]
      exact if_pos rfl
    · rw [slot, slot, setDinode_dinode, setDinode_data]
      simp only [Function.update_of_ne hj]
  have hdinode : ∀ j, j ≠ i → (w.setDinode i { w.dinode i with type := 0 }).dinode j = v.dinode j :=
    fun j hj => (Function.update_of_ne hj ..).trans (h.dinode_of_ne j hj)
  refine ⟨h.ok.congr hslot rfl, fun X hX => (h.exact_of X hX).congr hslot rfl, hdinode, ?_,
    fun j σ hj => ?_, h.data, h.used⟩
  · rw [setDinode_dinode, Function.update_self]
  · rw [hslot, h.others j σ hj]

theorem Removes.content_of_ne (h : Removes sb i v w) (hj : j ≠ i) : w.content j = v.content j := by
  refine content_congr (by rw [size, size, h.dinode_of_ne j hj]) fun p _ => ?_
  rw [byteAt, byteAt, h.data, block, h.others j _ hj, block]

theorem Removes.node (h : Removes sb i v w) : w.node = Function.update v.node i none := by
  funext j
  rw [Function.update_apply]
  split
  · rename_i hj
    exact node_eq_none_iff.mpr (hj ▸ h.type)
  · rename_i hj
    exact node_congr (h.dinode_of_ne j hj) (h.content_of_ne hj)

theorem Sound.removes (hs : v.Sound sb) (h : Removes sb i v w) : w.Sound sb where
  ok := h.ok
  exact := h.exact_of ∅ hs.exact
  whole j hj bn hbn := by
    have hji : j ≠ i := by
      rintro rfl
      exact hj h.type
    rw [h.dinode_of_ne j hji] at hj
    rw [size, h.dinode_of_ne j hji] at hbn
    rw [block, h.others j _ hji]
    exact hs.whole j hj bn hbn
  dir j y hy hytype := by
    rw [h.node, Function.update_apply] at hy
    split at hy
    · cases hy
    · exact hs.dir j y hy hytype
  zero := by
    by_cases hi : 0 = i
    · rw [hi, h.type]
    · rw [h.dinode_of_ne 0 hi]
      exact hs.zero

end View

end Xv6.Fs
