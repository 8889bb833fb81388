import Xv6.Fs.Bmap

/-!
# The content of an inode is an array of bytes

`View.byteAt` reads a byte of an inode through `bmap`'s table, and `View.content` are the bytes below its
size.  `View.Whole` says that an inode has no holes: every block below its size is there.

The loops of `readi` and `writei` work on one block at a time.  `View.Writes sb i off bs v w` is what some
turns of the second loop do: the bytes `bs` are now at `off`, and no other byte that was there has changed.
It is put together turn by turn (`Writes.trans`), whatever blocks the turns are in.  The bytes include
those of a turn that failed: they are in a buffer that has not been given to `log_write`.
-/

namespace Xv6.Fs

open Bytes Program Slots

/-! ## Arrays of bytes -/

/-- The array `c`, overwritten and perhaps extended at `off`. -/
def overwrite (c : List UInt8) (off : ℕ) (bs : List UInt8) : List UInt8 :=
  c.take off ++ bs ++ c.drop (off + bs.length)

theorem overwrite_nil (c : List UInt8) (off : ℕ) : overwrite c off [] = c := by
  rw [overwrite, List.append_nil, List.length_nil, Nat.add_zero, List.take_append_drop]

theorem overwrite_length (c bs : List UInt8) : overwrite c c.length bs = c ++ bs := by
  rw [overwrite, List.take_length, List.drop_of_length_le (by omega), List.append_nil]

theorem getElem?_overwrite {xs bs : List UInt8} {off : ℕ} (h : off ≤ xs.length) (p : ℕ) :
    (overwrite xs off bs)[p]? =
      if p < off then xs[p]? else if p < off + bs.length then bs[p - off]? else xs[p]? := by
  have htake : (xs.take off).length = off := List.length_take_of_le h
  rw [overwrite, List.append_assoc]
  by_cases hlt : p < off
  · rw [if_pos hlt, List.getElem?_append_left (by omega), List.getElem?_take_of_lt hlt]
  · rw [if_neg hlt, List.getElem?_append_right (by omega), htake]
    by_cases hmid : p < off + bs.length
    · rw [if_pos hmid, List.getElem?_append_left (by omega)]
    · rw [if_neg hmid, List.getElem?_append_right (by omega), List.getElem?_drop]
      congr 1
      omega

theorem length_overwrite {c bs : List UInt8} {off : ℕ} (h : off ≤ c.length) :
    (overwrite c off bs).length = max c.length (off + bs.length) := by
  rw [overwrite, List.length_append, List.length_append, List.length_take_of_le h, List.length_drop]
  omega

variable {sb : Superblock} {s t : State} {v w x : View} {i j off a n : ℕ} {bs bs' : List UInt8}

namespace View

/-! ## Bytes and holes -/

/-- The byte of inode `i` at `p`. -/
def byteAt (v : View) (i p : ℕ) : UInt8 := v.data (v.block i (p / 1024)) (p % 1024)

def size (v : View) (i : ℕ) : ℕ := (v.dinode i).size.toNat

/-- The bytes of inode `i`. -/
def content (v : View) (i : ℕ) : List UInt8 := (List.range (v.size i)).map (v.byteAt i)

/-- Inode `i` has no holes below its size. -/
def Whole (v : View) (i : ℕ) : Prop := ∀ bn, 1024 * bn < v.size i → v.block i bn ≠ 0

@[simp] theorem length_content : (v.content i).length = v.size i := by
  rw [content, List.length_map, List.length_range]

theorem getElem?_content (p : ℕ) :
    (v.content i)[p]? = if p < v.size i then some (v.byteAt i p) else none := by
  rw [content, List.getElem?_map]
  split
  · rename_i hlt
    rw [List.getElem?_range hlt, Option.map_some]
  · rename_i hge
    rw [List.getElem?_eq_none (by rw [List.length_range]; omega), Option.map_none]

theorem block_of_le {bn : ℕ} (h : 268 ≤ bn) : v.block i bn = 0 := by
  have hindex : Slot.ofIndex bn = .entry (bn - 12) := if_neg (by omega)
  rw [block, hindex, slot]
  split
  · rfl
  · exact if_neg fun hcon => absurd hcon.1 (by omega)

theorem Whole.size_le (h : v.Whole i) : v.size i ≤ 268 * 1024 := by
  by_contra hcon
  exact h 268 (by omega) (block_of_le (le_refl 268))

theorem Whole.block_ne (h : v.Whole i) {p : ℕ} (hp : p < v.size i) : v.block i (p / 1024) ≠ 0 :=
  h _ (by omega)

/-- Inodes whose sizes, blocks and bytes are the same have the same content. -/
theorem content_congr (hsize : w.size j = v.size j)
    (hbyte : ∀ p < v.size j, w.byteAt j p = v.byteAt j p) : w.content j = v.content j := by
  rw [content, content, hsize]
  exact List.map_congr_left fun p hp => hbyte p (List.mem_range.mp hp)

/-! ## Writing -/

/-- From `v` to `w` the bytes `bs` have been stored at `off` in inode `i`, where blocks may have been
allocated for them. -/
structure Writes (sb : Superblock) (i off : ℕ) (bs : List UInt8) (v w : View) : Prop extends
    View.Fills sb i v w where
  mapped : ∀ p < bs.length, w.block i ((off + p) / 1024) ≠ 0
  stored : ∀ p c, bs[p]? = some c → w.byteAt i (off + p) = c
  rest : ∀ p, ¬ (off ≤ p ∧ p < off + bs.length) → v.block i (p / 1024) ≠ 0 →
    w.byteAt i p = v.byteAt i p
  data : ∀ j bn, j ≠ i → v.block j bn ≠ 0 → w.data (v.block j bn) = v.data (v.block j bn)

theorem Grows.writes {P : Slot → Prop} (h : Grows sb i P v w) : Writes sb i off [] v w where
  toFills := h.toFills
  mapped _ hp := nomatch hp
  stored _ _ hp := nomatch hp
  rest p _ hne := by
    have hkept : w.block i (p / 1024) = v.block i (p / 1024) := h.kept _ hne
    rw [byteAt, byteAt, hkept]
    exact congrFun (h.data _ (Slot.ofIndex_ne_indirect _) hne) _
  data j bn _ hne := h.data _ (Slot.ofIndex_ne_indirect bn) hne

theorem Writes.trans (h : Writes sb i off bs v w) (h' : Writes sb i (off + bs.length) bs' w x) :
    Writes sb i off (bs ++ bs') v x where
  toFills := h.toFills.trans h'.toFills
  mapped p hp := by
    rw [List.length_append] at hp
    by_cases hlt : p < bs.length
    · have hne := h.mapped p hlt
      have hkept : x.block i ((off + p) / 1024) = w.block i ((off + p) / 1024) := h'.kept _ hne
      rw [hkept]
      exact hne
    · have hne := h'.mapped (p - bs.length) (by omega)
      rwa [show off + bs.length + (p - bs.length) = off + p by omega] at hne
  stored p c hp := by
    by_cases hlt : p < bs.length
    · rw [List.getElem?_append_left hlt] at hp
      rw [h'.rest _ (by omega) (h.mapped p hlt)]
      exact h.stored p c hp
    · rw [List.getElem?_append_right (by omega)] at hp
      have := h'.stored _ c hp
      rwa [show off + bs.length + (p - bs.length) = off + p by omega] at this
  rest p hp hne := by
    rw [List.length_append] at hp
    have hkept : w.block i (p / 1024) = v.block i (p / 1024) := h.kept _ hne
    rw [h'.rest p (by omega) (hkept ▸ hne), h.rest p (by omega) hne]
  data j bn hj hne := by
    have hkept : w.block j bn = v.block j bn := h.others j _ hj
    have := h'.data j bn hj (hkept ▸ hne)
    rw [hkept] at this
    exact this.trans (h.data j bn hj hne)

theorem Ok.block_inj (h : v.Ok sb) {bn bn' : ℕ} (hne : v.block i bn ≠ 0)
    (heq : v.block i bn = v.block j bn') : i = j ∧ bn = bn' := by
  have hx := h.distinct (i, .ofIndex bn) (j, .ofIndex bn') heq hne
  exact ⟨congrArg Prod.fst hx, Slot.ofIndex_inj (congrArg Prod.snd hx)⟩

theorem Ok.slot_setData_block (h : v.Ok sb) {bn : ℕ} (hne : v.block i bn ≠ 0) (m : Mem) :
    (v.setData (v.block i bn) m).slot = v.slot := by
  refine slot_setData fun j heq => ?_
  have hx := h.distinct (j, .indirect) (i, .ofIndex bn) heq (heq ▸ hne)
  exact Slot.ofIndex_ne_indirect _ (congrArg Prod.snd hx).symm

theorem Ok.writes_patch (h : v.Ok sb) (hne : v.block i (off / 1024) ≠ 0)
    (hlen : off % 1024 + bs.length ≤ 1024) :
    Writes sb i off bs v
      (v.setData (v.block i (off / 1024)) (patch (v.data (v.block i (off / 1024))) (off % 1024) bs)) := by
  have hslot := h.slot_setData_block hne (patch (v.data (v.block i (off / 1024))) (off % 1024) bs)
  have hblock : ∀ j bn, (v.setData (v.block i (off / 1024))
      (patch (v.data (v.block i (off / 1024))) (off % 1024) bs)).block j bn = v.block j bn := fun j bn =>
    congrFun hslot _
  have hdiv : ∀ p < bs.length, (off + p) / 1024 = off / 1024 := fun p hp => by omega
  refine ⟨⟨h.congr hslot rfl, fun X hX => hX.congr hslot rfl, fun _ _ => rfl, .refl _,
    fun x _ => congrFun hslot x, fun j σ _ => congrFun hslot _, fun _ hc => hc⟩, fun p hp => ?_,
    fun p c hp => ?_, fun p hp hne' => ?_, fun j bn hj hne' => ?_⟩
  · rw [hblock, hdiv p hp]
    exact hne
  · have hlt := (List.getElem?_eq_some_iff.mp hp).1
    rw [byteAt, hblock, hdiv p hlt, setData_data, Function.update_self, patch, if_pos (by omega),
      show (off + p) % 1024 - off % 1024 = p by omega, List.getD_eq_getElem?_getD, hp]
    rfl
  · rw [byteAt, hblock, setData_data, Function.update_apply]
    split
    · rename_i heq
      have hp' := (h.block_inj hne' heq).2
      rw [patch, if_neg (by omega), ← heq]
      rfl
    · rfl
  · rw [setData_data, Function.update_of_ne fun heq => hj (h.block_inj hne' heq).1]

/-! ## Another content -/

/-- From `v` to `w` the content of inode `i` has become `c`, and nothing else has changed. -/
structure Updates (sb : Superblock) (i : ℕ) (c : List UInt8) (v w : View) : Prop where
  ok : w.Ok sb
  exact_of : ∀ X, v.Exact sb X → w.Exact sb X
  dinode_of_ne : ∀ j, j ≠ i → w.dinode j = v.dinode j
  others : ∀ j σ, j ≠ i → w.slot (j, σ) = v.slot (j, σ)
  type : (w.dinode i).type = (v.dinode i).type
  major : (w.dinode i).major = (v.dinode i).major
  minor : (w.dinode i).minor = (v.dinode i).minor
  nlink : (w.dinode i).nlink = (v.dinode i).nlink
  content : w.content i = c
  whole : w.Whole i
  content_of_ne : ∀ j, j ≠ i → w.content j = v.content j

theorem Updates.size_of_ne (h : Updates sb i bs v w) (hj : j ≠ i) : w.size j = v.size j := by
  rw [size, size, h.dinode_of_ne j hj]

theorem Updates.whole_of_ne (h : Updates sb i bs v w) (hj : j ≠ i) (hw : v.Whole j) : w.Whole j := by
  intro bn hbn
  rw [h.size_of_ne hj] at hbn
  rw [block, h.others j _ hj]
  exact hw bn hbn

/-- Other inodes keep their bytes, also those in holes, which are those of a block that is never
written. -/
theorem byteAt_of_ne (hdata : ∀ bn, v.block j bn ≠ 0 → w.data (v.block j bn) = v.data (v.block j bn))
    (hslot : ∀ bn, w.block j bn = v.block j bn) (h0 : w.data 0 = v.data 0) (p : ℕ) :
    w.byteAt j p = v.byteAt j p := by
  rw [byteAt, byteAt, hslot]
  by_cases hne : v.block j (p / 1024) = 0
  · rw [hne, h0]
  · rw [hdata _ hne]

theorem Writes.updates (h : Writes sb i off bs v w) (hsize : off ≤ v.size i) (hwhole : v.Whole i)
    (h0 : w.data 0 = v.data 0)
    {d : Dinode} (hsame : SameFields { w.dinode i with size := d.size } d)
    (haddr : ∀ k, d.addr k = (w.dinode i).addr k)
    (hd : d.size.toNat = max (v.size i) (off + bs.length)) :
    Updates sb i (overwrite (v.content i) off bs) v (w.setDinode i d) := by
  have hslot : (w.setDinode i d).slot = w.slot :=
    slot_setDinode (by rw [hsame.type]) fun _ => haddr
  have hblock : ∀ j bn, (w.setDinode i d).block j bn = w.block j bn := fun j bn => congrFun hslot _
  have hsize' : (w.setDinode i d).size i = max (v.size i) (off + bs.length) := by
    rw [size, setDinode_dinode, Function.update_self, hd]
  have hbyte : ∀ j p, (w.setDinode i d).byteAt j p = w.byteAt j p := fun j p => by
    rw [byteAt, byteAt, hblock, setDinode_data]
  have hdinode : ∀ j, j ≠ i → (w.setDinode i d).dinode j = v.dinode j := fun j hj => by
    rw [setDinode_dinode, Function.update_of_ne hj, h.dinode_of_ne j hj]
  refine ⟨h.ok.congr hslot rfl, fun X hX => (h.exact_of X hX).congr hslot rfl, hdinode,
    fun j σ hj => ?_, ?_, ?_, ?_, ?_, ?_, fun bn hbn => ?_, fun j hj => ?_⟩
  · rw [hslot, h.others j σ hj]
  · rw [setDinode_dinode, Function.update_self, hsame.type, h.same.type]
  · rw [setDinode_dinode, Function.update_self, hsame.major, h.same.major]
  · rw [setDinode_dinode, Function.update_self, hsame.minor, h.same.minor]
  · rw [setDinode_dinode, Function.update_self, hsame.nlink, h.same.nlink]
  · refine List.ext_getElem? fun p => ?_
    rw [getElem?_overwrite (by rw [length_content]; exact hsize), getElem?_content, getElem?_content,
      hsize', hbyte]
    by_cases hlt : p < off
    · have hp : p < v.size i := by omega
      rw [if_pos hlt, if_pos (by omega), if_pos hp, h.rest p (by omega) (hwhole.block_ne hp)]
    · rw [if_neg hlt]
      by_cases hmid : p < off + bs.length
      · obtain ⟨c, hc⟩ : ∃ c, bs[p - off]? = some c :=
          ⟨_, List.getElem?_eq_getElem (by omega)⟩
        have := h.stored _ c hc
        rw [show off + (p - off) = p by omega] at this
        rw [if_pos (by omega), if_pos hmid, hc, this]
      · rw [if_neg hmid]
        by_cases hp : p < v.size i
        · rw [if_pos (by omega), if_pos hp, h.rest p (by omega) (hwhole.block_ne hp)]
        · rw [if_neg (by omega), if_neg hp]
  · rw [hsize'] at hbn
    rw [hblock]
    by_cases hold : 1024 * bn < v.size i
    · have hkept : w.block i bn = v.block i bn := h.kept _ (hwhole bn hold)
      rw [hkept]
      exact hwhole bn hold
    · have hne := h.mapped (1024 * bn - off) (by omega)
      rwa [show (off + (1024 * bn - off)) / 1024 = bn by omega] at hne
  · refine content_congr ?_ fun p _ => ?_
    · rw [size, size, hdinode j hj]
    · rw [hbyte]
      exact byteAt_of_ne (fun bn => h.data j bn hj) (fun bn => h.others j _ hj) h0 p

/-- **What `itrunc` does to contents.** -/
theorem Truncates.updates (h : Truncates sb i v w) : Updates sb i [] v w where
  ok := h.ok
  exact_of := h.exact_of
  dinode_of_ne := h.dinode_of_ne
  others := h.others
  type := h.type
  major := h.major
  minor := h.minor
  nlink := h.nlink
  content := by
    have hsize : w.size i = 0 := by
      rw [View.size, h.size]
      rfl
    rw [View.content, hsize]
    rfl
  whole bn hbn := by
    rw [View.size, h.size] at hbn
    exact absurd hbn (Nat.not_lt_zero _)
  content_of_ne j hj := by
    refine content_congr ?_ fun p _ => ?_
    · rw [View.size, View.size, h.dinode_of_ne j hj]
    · rw [byteAt, byteAt, h.data, block, h.others j _ hj, block]

end View

end Xv6.Fs
