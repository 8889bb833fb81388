import Xv6.Fs.Content

/-!
# Reading and writing inodes

`readi` returns a part of the content and changes nothing, if the inode has no holes; `writei` overwrites
the content with as many bytes as it returns; `itrunc` makes it empty.  This is what the loops over blocks
come to, whether they stay in one block, go from the direct blocks to those of the indirect block, or stop
early.

A copy from user memory can fail in the middle of a block.  Then `writei` has changed the buffer of that
block, but does not give it to `log_write` and does not count its bytes (`Spills`).
-/

namespace Xv6.Fs

open Bytes Program Slots

variable {sb : Superblock} {s t : State} {v w x : View} {i j off a n : ℕ} {bs bs' : List UInt8}

/-! ## `readi` -/

theorem eitherCopyout_eq {dst : ℕ → Bool} (bs : List UInt8) :
    ∀ a, (∀ p < bs.length, dst (a + p) = true) → eitherCopyout dst a bs = bs := by
  induction bs with
  | nil => exact fun a _ => rfl
  | cons c bs ih =>
    intro a h
    have hfirst : dst a = true := h 0 (Nat.succ_pos _)
    rw [eitherCopyout, if_pos hfirst, ih (a + 1) fun p hp => ?_]
    rw [show a + 1 + p = a + (p + 1) by omega]
    exact h (p + 1) (by simpa using hp)

theorem eitherCopyout_prefix (dst : ℕ → Bool) (bs : List UInt8) :
    ∀ a, eitherCopyout dst a bs <+: bs := by
  induction bs with
  | nil => exact fun a => List.nil_prefix
  | cons c bs ih =>
    intro a
    rw [eitherCopyout]
    split
    · exact (List.prefix_cons_inj c).mpr (ih (a + 1))
    · exact List.nil_prefix

/-- The bytes of inode `i` from `off` on. -/
def View.slice (v : View) (i off n : ℕ) : List UInt8 := (List.range n).map fun p => v.byteAt i (off + p)

@[simp] theorem View.length_slice : (v.slice i off n).length = n := by
  rw [slice, List.length_map, List.length_range]

theorem View.slice_add (m n : ℕ) :
    v.slice i off (m + n) = v.slice i off m ++ v.slice i (off + m) n := by
  rw [slice, slice, slice, List.range_add, List.map_append, List.map_map]
  congr 1
  refine List.map_congr_left fun p _ => ?_
  simp only [Function.comp_apply, Nat.add_assoc]

theorem View.slice_eq (h : off + n ≤ v.size i) :
    v.slice i off n = ((v.content i).drop off).take n := by
  refine List.ext_getElem? fun p => ?_
  rw [List.getElem?_take, List.getElem?_drop, View.getElem?_content, slice, List.getElem?_map]
  by_cases hp : p < n
  · rw [List.getElem?_range hp, if_pos hp, if_pos (by omega), Option.map_some]
  · rw [if_neg hp, List.getElem?_eq_none (by rw [List.length_range]; omega), Option.map_none]

/-- What a read of `n` bytes at `off` gives, when the content is `c`: the result and the bytes. -/
def readResult (c : List UInt8) (off n : ℕ) : ℤ × List UInt8 :=
  if off ≤ c.length ∧ off + n < UINT then ((min n (c.length - off) : ℕ), (c.drop off).take n)
  else (0, [])

section Read

variable (hsb : sb.Ok) (hi : i < sb.ninodes) (hok : (view sb s).Ok sb) (hv : (s.inode i).valid)
  (ha : ((view sb s).dinode i).type ≠ 0) (hwhole : (view sb s).Whole i)

include hsb hi hok hv ha hwhole

/-- The loop of `readi` changes nothing, and copies what is there. -/
theorem readiFrom_spec (dst : ℕ → Bool) (fuel : ℕ) (hfuel : n ≤ fuel)
    (hn : off + n ≤ (view sb s).size i) :
    Ensures (readiFrom sb i dst fuel a off n) s fun r t => t = s ∧
      r.2 <+: (view sb s).slice i off n ∧
      ((∀ p < n, dst (a + p) = true) → r = (true, (view sb s).slice i off n)) := by
  have hmax := hwhole.size_le
  induction fuel generalizing a off n with
  | zero =>
    obtain rfl : n = 0 := by omega
    exact .pure ⟨rfl, List.nil_prefix, fun _ => rfl⟩
  | succ fuel ih =>
    rw [readiFrom]
    refine .ite (fun h0 => ?_) fun hpos => ?_
    · subst h0
      exact .pure ⟨rfl, List.nil_prefix, fun _ => rfl⟩
    have hblock := hwhole.block_ne (p := off) (by omega)
    refine .bind (bmap_spec hsb hi hok hv ha (by omega)) ?_
    rintro addr t ⟨-, -, rfl, -, hsame, -⟩
    obtain rfl := hsame hblock
    refine .ite (fun hcon => absurd hcon hblock) fun _ => ensures_bread_bind ?_
    have hle : sb.datastart ≤ (view sb t).block i (off / 1024) := (hok.range _ hblock).1
    -- the part in this block
    have hpart : bytesAt (t.cached ((view sb t).block i (off / 1024))) (off % 1024)
        (min n (1024 - off % 1024)) = (view sb t).slice i off (min n (1024 - off % 1024)) := by
      refine List.map_congr_left fun p hp => ?_
      have hp := List.mem_range.mp hp
      rw [View.byteAt, show (off + p) / 1024 = off / 1024 by omega, data_eq hle,
        show (off + p) % 1024 = off % 1024 + p by omega]
    have hsplit : (view sb t).slice i off n = (view sb t).slice i off (min n (1024 - off % 1024)) ++
        (view sb t).slice i (off + min n (1024 - off % 1024)) (n - min n (1024 - off % 1024)) := by
      rw [← View.slice_add, show min n (1024 - off % 1024) + (n - min n (1024 - off % 1024)) = n by omega]
    dsimp only
    rw [hpart]
    have hprefix := eitherCopyout_prefix dst
      ((view sb t).slice i off (min n (1024 - off % 1024))) a
    refine .ite (fun hshort => .pure ⟨rfl, ?_, fun hall => absurd hshort ?_⟩) fun hlong => ?_
    · rw [hsplit]
      exact hprefix.trans (List.prefix_append _ _)
    · rw [eitherCopyout_eq _ _ fun p hp => hall p ?_, View.length_slice]
      · exact Nat.lt_irrefl _
      · rw [View.length_slice] at hp
        omega
    · have hfull := hprefix.eq_of_length_le (by rw [View.length_slice]; omega)
      rw [hfull]
      refine .bind (ih (by omega) (by omega)) ?_
      rintro ⟨ok, rest⟩ u ⟨rfl, hrest, hall⟩
      refine .pure ⟨rfl, ?_, fun hdst => ?_⟩
      · rw [hsplit]
        exact (List.prefix_append_right_inj _).mpr hrest
      · obtain ⟨rfl, rfl⟩ := Prod.mk.inj (hall fun p hp => by
          rw [Nat.add_assoc]
          exact hdst _ (by omega))
        rw [hsplit]

/-- **`readi`** changes nothing and copies what is there. -/
theorem readi_spec (dst : ℕ → Bool) (hoff : off < UINT) (hn : n < UINT) :
    Ensures (readi sb i dst a off n) s fun r t => t = s ∧
      r.2 <+: (readResult ((view sb s).content i) off n).2 ∧
      ((∀ p < n, dst (a + p) = true) → r = readResult ((view sb s).content i) off n) := by
  have hmax := hwhole.size_le
  have hsize : ((view sb s).dinode i).size.toNat = (view sb s).size i := rfl
  rw [readResult, View.length_content, readi]
  refine ensures_getInode_bind ?_
  rw [← dinode_of_valid hi hv, hsize]
  refine .ite (fun hout => .pure ?_) fun hin => ?_
  · rw [if_neg]
    · exact ⟨rfl, List.nil_prefix, fun _ => rfl⟩
    · rintro ⟨hle, hlt⟩
      rw [Nat.mod_eq_of_lt hlt] at hout
      omega
  · have hcond : off ≤ (view sb s).size i ∧ off + n < UINT := by
      refine ⟨by omega, ?_⟩
      by_contra hwrap
      rw [Nat.mod_eq_sub_mod (by omega), Nat.mod_eq_of_lt (by omega)] at hin
      omega
    have hlen : (if (off + n) % UINT > (view sb s).size i then (view sb s).size i - off else n) =
        min n ((view sb s).size i - off) := by
      rw [Nat.mod_eq_of_lt hcond.2]
      split <;> omega
    have hslice : (view sb s).slice i off (min n ((view sb s).size i - off)) =
        (((view sb s).content i).drop off).take n := by
      rw [View.slice_eq (by omega), List.take_eq_take_iff, List.length_drop, View.length_content]
      omega
    dsimp only
    rw [hlen, if_pos hcond]
    refine .bind (readiFrom_spec hsb hi hok hv ha hwhole dst _ (le_refl _) (by omega)) ?_
    rintro ⟨ok, bs⟩ t ⟨rfl, hprefix, hall⟩
    rw [hslice] at hprefix hall
    refine .pure ⟨rfl, hprefix, fun hdst => ?_⟩
    obtain ⟨rfl, rfl⟩ := Prod.mk.inj (hall fun p hp => hdst p (by omega))
    rw [if_pos rfl, List.length_take, List.length_drop, View.length_content]

end Read

/-! ## `writei` -/

theorem eitherCopyin_spec (src : Source) : ∀ (n a : ℕ),
    (eitherCopyin src a n).length ≤ n ∧
    (∀ p c, (eitherCopyin src a n)[p]? = some c → src (a + p) = some c) ∧
    ((eitherCopyin src a n).length < n → src (a + (eitherCopyin src a n).length) = none) := by
  intro n
  induction n with
  | zero => exact fun a => ⟨le_refl 0, fun p c hp => (nomatch hp), fun h => absurd h (Nat.lt_irrefl 0)⟩
  | succ n ih =>
    intro a
    rw [eitherCopyin]
    cases hfirst : src a with
    | none => exact ⟨Nat.zero_le _, fun p c hp => (nomatch hp), fun _ => hfirst⟩
    | some c =>
      obtain ⟨hlen, hbytes, hstop⟩ := ih (a + 1)
      refine ⟨Nat.succ_le_succ hlen, fun p d hp => ?_, fun hlt => ?_⟩
      · cases p with
        | zero => exact hfirst.trans hp
        | succ p =>
          rw [show a + (p + 1) = a + 1 + p by omega]
          exact hbytes p d hp
      · dsimp only at hlt ⊢
        rw [List.length_cons] at hlt ⊢
        rw [show a + ((eitherCopyin src (a + 1) n).length + 1) =
          a + 1 + (eitherCopyin src (a + 1) n).length by omega]
        exact hstop (by omega)

/-- Bytes are put into the buffer of block `b` without `log_write`. -/
def State.spill (s : State) (b o : ℕ) (bs : List UInt8) : State :=
  s.setCached (Function.update s.cached b (patch (s.cached b) o bs))

theorem patch_nil (m : Mem) (o : ℕ) : patch m o [] = m := by
  funext p
  exact if_neg fun h => absurd h.2 (by simpa using h.1)

@[simp] theorem State.spill_nil (b o : ℕ) : s.spill b o [] = s := by
  rw [spill, patch_nil, Function.update_eq_self, setCached]

/-- The bytes that a copy which failed has left in the block of inode `i` for the offset `off`. -/
structure Spills (sb : Superblock) (i off : ℕ) (bs : List UInt8) (r t : State) : Prop where
  eq : t = r.spill ((view sb r).block i (off / 1024)) (off % 1024) bs
  block_ne : bs ≠ [] → (view sb r).block i (off / 1024) ≠ 0
  fits : off % 1024 + bs.length ≤ 1024

theorem Spills.refl : Spills sb i off [] s s :=
  ⟨(State.spill_nil _ _).symm, fun h => absurd rfl h, by simp only [List.length_nil]; omega⟩

theorem Logged.congr (h : Logged sb s) (hslot : (view sb t).slot = (view sb s).slot)
    (htype : ∀ j, ((view sb t).dinode j).type = ((view sb s).dinode j).type)
    (hclean : ∀ b, Dirty t b → Dirty s b) : Logged sb t := by
  intro b hb
  simp only [hslot, htype]
  exact h b (hclean b hb)

/-- What the loop of `writei` has done from `s` to `t`, when it has written the bytes `bs` and has left
`sp` of a copy that failed.  The state `r` is the one before that copy. -/
structure Wrote (sb : Superblock) (i : ℕ) (src : Source) (a off n : ℕ) (s : State)
    (bs sp : List UInt8) (r t : State) : Prop where
  steady : Steady sb {i} s r
  writes : (view sb s).Writes sb i off bs (view sb r)
  logged : Logged sb s → Logged sb r
  length_le : bs.length ≤ n
  source : ∀ p c, bs[p]? = some c → src (a + p) = some c
  spills : Spills sb i (off + bs.length) sp r t
  spilled : sp ≠ [] → ∃ m ≤ n - bs.length, (off + bs.length) % 1024 + m ≤ 1024 ∧
    sp = eitherCopyin src (a + bs.length) m ∧ sp.length < m
  short : bs.length < n → (∀ c < sb.size, (view sb r).used c = true) ∨
    ∃ p, bs.length ≤ p ∧ p < n ∧ src (a + p) = none

theorem Wrote.nil {src : Source} {P : Slot → Prop} (hsteady : Steady sb {i} s t)
    (hgrows : (view sb s).Grows sb i P (view sb t)) (hlogged : Logged sb s → Logged sb t)
    (hshort : 0 < n → ∀ c < sb.size, (view sb t).used c = true) :
    Wrote sb i src a off n s [] [] t t where
  steady := hsteady
  writes := hgrows.writes
  logged := hlogged
  length_le := Nat.zero_le n
  source _ _ hp := nomatch hp
  spills := .refl
  spilled h := absurd rfl h
  short h := Or.inl (hshort h)

theorem Wrote.cons {src : Source} {sp : List UInt8} {m : ℕ} {u r : State} {P : Slot → Prop}
    (hm : bs.length = m) (hmn : m ≤ n) (hsteady : Steady sb {i} s t) 
    (hgrows : (view sb s).Grows sb i P (view sb t)) (hlogged : Logged sb s → Logged sb t)
    (hsteady' : Steady sb ∅ t u) (hwrites : (view sb t).Writes sb i off bs (view sb u))
    (hlogged' : Logged sb t → Logged sb u)
    (hsource : ∀ p c, bs[p]? = some c → src (a + p) = some c) {x : State}
    (h : Wrote sb i src (a + m) (off + m) (n - m) u bs' sp r x) :
    Wrote sb i src a off n s (bs ++ bs') sp r x := by
  have hlen : (bs ++ bs').length = m + bs'.length := by rw [List.length_append, hm]
  have hle := h.length_le
  refine ⟨(hsteady.trans (hsteady'.mono (Set.empty_subset _))).trans h.steady, ?_,
    fun hl => h.logged (hlogged' (hlogged hl)), by omega, fun p c hp => ?_, ?_, fun hsp => ?_,
    fun hlt => ?_⟩
  · have hrest := h.writes
    rw [← hm] at hrest
    exact (show View.Writes sb i off [] _ _ from hgrows.writes).trans (hwrites.trans hrest)
  · by_cases hlt : p < bs.length
    · rw [List.getElem?_append_left hlt] at hp
      exact hsource p c hp
    · rw [List.getElem?_append_right (by omega)] at hp
      have := h.source _ c hp
      rwa [show a + m + (p - bs.length) = a + p by omega] at this
  · have := h.spills
    rwa [Nat.add_assoc, ← hlen] at this
  · obtain ⟨m', hle', hfits, heq, hlt⟩ := h.spilled hsp
    rw [hlen, ← Nat.add_assoc, ← Nat.add_assoc, Nat.sub_add_eq]
    exact ⟨m', hle', hfits, heq, hlt⟩
  · refine (h.short (by omega)).imp_right ?_
    rintro ⟨p, hge, hlt', hnone⟩
    exact ⟨m + p, by omega, by omega, by rw [← Nat.add_assoc]; exact hnone⟩

section Write

variable (hsb : sb.Ok) (hi : i < sb.ninodes)

include hsb

theorem logPart_spec (off : ℕ) (hok : (view sb s).Ok sb) (hne : (view sb s).block i (off / 1024) ≠ 0)
    (hlen : off % 1024 + bs.length ≤ 1024) :
    Ensures (logBuf ((view sb s).block i (off / 1024)) fun bp => patch bp (off % 1024) bs) s fun _ t =>
      Steady sb ∅ s t ∧ (view sb s).Writes sb i off bs (view sb t) ∧ (Logged sb s → Logged sb t) := by
  have hle : sb.datastart ≤ (view sb s).block i (off / 1024) := (hok.range _ hne).1
  refine (logData_spec hsb hle _).mono ?_
  rintro - t ⟨hsteady, -, hview⟩
  refine ⟨hsteady, hview ▸ hok.writes_patch hne hlen, fun hl => hl.congr ?_ ?_ hsteady.clean⟩
  · rw [hview]
    exact hok.slot_setData_block hne _
  · simp only [hview, View.setData_dinode, implies_true]

include hi

theorem writeiFrom_spec (src : Source) (fuel : ℕ) (hfuel : n ≤ fuel) (hmax : off + n ≤ 268 * 1024)
    (hok : (view sb s).Ok sb) (hv : (s.inode i).valid) (ha : ((view sb s).dinode i).type ≠ 0) :
    Ensures (writeiFrom sb i src fuel a off n) s fun tot t =>
      ∃ bs sp r, tot = bs.length ∧ Wrote sb i src a off n s bs sp r t := by
  induction fuel generalizing a off n s with
  | zero => exact .pure ⟨[], [], s, rfl, .nil .refl (.refl (P := fun _ => True) hok) id (by omega)⟩
  | succ fuel ih =>
    rw [writeiFrom]
    refine .ite (fun h0 => ?_) fun hpos => ?_
    · exact .pure ⟨[], [], s, rfl, .nil .refl (.refl (P := fun _ => True) hok) id (by omega)⟩
    refine .bind (bmap_spec hsb hi hok hv ha (by omega)) ?_
    rintro addr t ⟨hsteady, hgrows, rfl, hfull, -, hlogged⟩
    refine .ite (fun h0 => ?_) fun hne => ?_
    · exact .pure ⟨[], [], t, rfl, .nil hsteady hgrows hlogged fun _ => hfull h0⟩
    obtain ⟨hlen, hsource, hstop⟩ :=
      eitherCopyin_spec src (min n (1024 - off % 1024)) a
    dsimp only
    by_cases hshort : (eitherCopyin src a (min n (1024 - off % 1024))).length <
        min n (1024 - off % 1024)
    · -- the copy fails
      refine .modify_bind ?_
      rw [if_pos hshort]
      refine .pure ⟨[], eitherCopyin src a (min n (1024 - off % 1024)), t, rfl, ⟨hsteady, hgrows.writes,
        hlogged, Nat.zero_le n, fun _ _ hp => (nomatch hp), ⟨rfl, fun _ => hne, ?_⟩,
        fun _ => ⟨_, Nat.min_le_left .., ?_, rfl, hshort⟩, fun _ => ?_⟩⟩
      · rw [List.length_nil, Nat.add_zero]
        omega
      · rw [List.length_nil, Nat.add_zero]
        omega
      · exact Or.inr ⟨_, Nat.zero_le _, by omega, hstop hshort⟩
    · simp only [if_neg hshort]
      rw [← bind_assoc]
      refine .bind (logPart_spec hsb off hgrows.ok hne (by omega)) ?_
      rintro - u ⟨hsteady', hwrites, hlogged'⟩
      have hv' : (u.inode i).valid := by
        rw [hsteady'.valid, hsteady.valid]
        exact hv
      have ha' : ((view sb u).dinode i).type ≠ 0 := by
        rw [hwrites.same.type, hgrows.same.type]
        exact ha
      refine .bind (ih (by omega) (by omega) hwrites.ok hv' ha') ?_
      rintro tot x ⟨bs, sp, r, rfl, hwrote⟩
      have hm : (eitherCopyin src a (min n (1024 - off % 1024))).length =
          min n (1024 - off % 1024) := by omega
      refine .pure ⟨_, sp, r, ?_, Wrote.cons hm (by omega) hsteady hgrows hlogged hsteady' hwrites hlogged'
        hsource hwrote⟩
      rw [List.length_append, hm]

theorem saveInode_spec (hv : (s.inode i).valid) (f : Dinode → Dinode) :
    Ensures (do modifyInode i f; iupdate sb i) s fun _ t => Steady sb ∅ s t ∧ Synced sb t i ∧
      view sb t = (view sb s).setDinode i (f ((view sb s).dinode i)) := by
  refine .bind (modifyInode_spec hi hv f) ?_
  rintro - t ⟨hsteady, hview⟩
  have hv' : (t.inode i).valid := by
    rw [hsteady.valid]
    exact hv
  refine (iupdate_spec hsb hi hv').mono ?_
  rintro - u ⟨hsteady', hsynced, hview', -⟩
  refine ⟨Steady.of_synced (i := i) ?_ hsynced, hsynced, hview'.trans hview⟩
  rw [insert_empty_eq]
  exact hsteady.trans (hsteady'.mono (Set.empty_subset _))

/-- What was left of a copy that failed does not matter to that. -/
theorem saveInode_spill {f : Dinode → Dinode} {b o : ℕ} {r : State} (hb : bs ≠ [] → sb.datastart ≤ b)
    (h : (do modifyInode i f; iupdate sb i : FsM Unit) s = .ok (⟨⟩, r)) :
    (do modifyInode i f; iupdate sb i : FsM Unit) (s.spill b o bs) = .ok (⟨⟩, r.spill b o bs) := by
  by_cases hbs : bs = []
  · rw [hbs, State.spill_nil, State.spill_nil]
    exact h
  · have hne : b ≠ sb.IBLOCK i := by
      have := hsb.iblock_lt_datastart hi
      have := hb hbs
      omega
    -- the block of the inode is the same, with or without what was left
    have hput : ∀ x, putDinode sb (Function.update s.cached b (patch (s.cached b) o bs)) i x =
        Function.update (putDinode sb s.cached i x) b (patch (putDinode sb s.cached i x b) o bs) := by
      intro x
      rw [putDinode, putDinode, Function.update_of_ne hne.symm, Function.update_of_ne hne,
        Function.update_comm hne]
    obtain rfl := (Prod.mk.inj (Except.ok.inj h)).2
    refine congrArg (fun t => Except.ok (PUnit.unit, t)) ?_
    simp only [State.spill, State.setCached, State.setInode, hput, Function.update_of_ne hne.symm]

end Write

/-- What `writei` has done from `s` to `t`, when it has written the bytes `bs` and has left `sp` of a copy
that failed.  The state `r` is the one without what was left. -/
structure Stored (sb : Superblock) (i : ℕ) (src : Source) (a off n : ℕ) (s : State)
    (bs sp : List UInt8) (r t : State) : Prop where
  steady : Steady sb ∅ s r
  synced : Synced sb r i
  updates : (view sb s).Updates sb i (overwrite ((view sb s).content i) off bs) (view sb r)
  logged : Logged sb s → Logged sb r
  length_le : bs.length ≤ n
  source : ∀ p c, bs[p]? = some c → src (a + p) = some c
  spills : Spills sb i (off + bs.length) sp r t
  spilled : sp ≠ [] → ∃ m ≤ n - bs.length, (off + bs.length) % 1024 + m ≤ 1024 ∧
    sp = eitherCopyin src (a + bs.length) m ∧ sp.length < m
  short : bs.length < n → (∀ c < sb.size, (view sb r).used c = true) ∨
    ∃ p, bs.length ≤ p ∧ p < n ∧ src (a + p) = none

theorem data_zero (hsb : sb.Ok) : (view sb s).data 0 = fun _ => 0 := by
  have := hsb.datastart_pos
  exact if_neg (by omega)

/-- **`writei`** overwrites the content with as many bytes as it returns. -/
theorem writei_spec (hsb : sb.Ok) (hi : i < sb.ninodes) (hok : (view sb s).Ok sb)
    (hv : (s.inode i).valid) (ha : ((view sb s).dinode i).type ≠ 0) (hwhole : (view sb s).Whole i)
    (src : Source) (hn : n < UINT) :
    Ensures (writei sb i src a off n) s fun res t =>
      if off ≤ (view sb s).size i ∧ off + n ≤ 268 * 1024 then
        ∃ bs sp r, res = bs.length ∧ Stored sb i src a off n s bs sp r t
      else res = -1 ∧ t = s := by
  have hsize : ((view sb s).dinode i).size.toNat = (view sb s).size i := rfl
  have hmax := hwhole.size_le
  have huint : UINT = 4294967296 := rfl
  have hmaxfile : MAXFILE * BSIZE = 268 * 1024 := rfl
  rw [writei]
  refine ensures_getInode_bind ?_
  rw [← dinode_of_valid hi hv, hsize]
  refine .ite (fun hout => .pure ?_) fun hin => .ite (fun hbig => .pure ?_) fun hfit => ?_
  · rw [if_neg]
    · exact ⟨rfl, rfl⟩
    · rintro ⟨hle, hlt⟩
      rw [Nat.mod_eq_of_lt (by omega)] at hout
      omega
  · rw [if_neg]
    · exact ⟨rfl, rfl⟩
    · rintro ⟨hle, hlt⟩
      rw [Nat.mod_eq_of_lt (by omega)] at hbig
      omega
  · have hcond : off ≤ (view sb s).size i ∧ off + n ≤ 268 * 1024 := by
      by_cases hwrap : off + n < UINT
      · rw [Nat.mod_eq_of_lt hwrap] at hfit
        omega
      · rw [Nat.mod_eq_sub_mod (by omega), Nat.mod_eq_of_lt (by omega)] at hin
        omega
    refine .bind (writeiFrom_spec hsb hi src n (le_refl n) hcond.2 hok hv ha) ?_
    rintro tot t ⟨bs, sp, r, rfl, hwrote⟩
    have hlen := hwrote.length_le
    have hv' : (r.inode i).valid := by
      rw [hwrote.steady.valid]
      exact hv
    obtain ⟨⟨⟩, r', hrun, hsteady, hsynced, hview⟩ := saveInode_spec hsb hi hv'
      fun ip => if off + bs.length > ip.size.toNat then { ip with size := UInt32.ofNat (off + bs.length) }
        else ip
    have hle : sp ≠ [] → sb.datastart ≤ (view sb r).block i ((off + bs.length) / 1024) := fun hsp =>
      (hwrote.writes.ok.range _ (hwrote.spills.block_ne hsp)).1
    have hrun' := saveInode_spill hsb hi (o := (off + bs.length) % 1024) hle hrun
    rw [← hwrote.spills.eq] at hrun'
    rw [← bind_assoc]
    refine .bind (.of_eq (Q := fun _ x => x = r'.spill _ _ sp) hrun' rfl) ?_
    rintro - x rfl
    simp only [if_pos hcond]
    -- the inode with its new size
    have hold : ((view sb r).dinode i).size.toNat = (view sb s).size i := by
      rw [hwrote.writes.same.size, hsize]
    have hupdates := hwrote.writes.updates (d := if off + bs.length > ((view sb r).dinode i).size.toNat then
        { (view sb r).dinode i with size := UInt32.ofNat (off + bs.length) } else (view sb r).dinode i)
      hcond.1 hwhole (by rw [data_zero hsb, data_zero hsb]) (by split <;> exact .refl _)
      (fun k => by split <;> rfl) ?_
    · rw [← hview] at hupdates
      have hslot : (view sb r').slot = (view sb r).slot := by
        rw [hview]
        refine View.slot_setDinode ?_ fun _ k => ?_
        · split <;> rfl
        · split <;> rfl
      have hblock : (view sb r').block i ((off + bs.length) / 1024) =
          (view sb r).block i ((off + bs.length) / 1024) := congrFun hslot _
      have hspills := hwrote.spills
      refine .pure ⟨bs, sp, r', rfl, ?_, hsynced, hupdates, fun hl => ?_, hlen, hwrote.source, ?_,
        hwrote.spilled, ?_⟩
      · refine Steady.of_synced (i := i) ?_ hsynced
        rw [insert_empty_eq]
        exact hwrote.steady.trans (hsteady.mono (Set.empty_subset _))
      · refine (hwrote.logged hl).congr hslot (fun j => ?_) hsteady.clean
        rw [hview, View.setDinode_dinode, Function.update_apply]
        split
        · rename_i hji
          rw [hji]
          split <;> rfl
        · rfl
      · refine ⟨?_, ?_, hspills.fits⟩
        · rw [hblock]
        · rw [hblock]
          exact hspills.block_ne
      · rw [hview]
        exact hwrote.short
    · split
      · change (UInt32.ofNat (off + bs.length)).toNat = _
        rw [UInt32.toNat_ofNat_of_lt' (show off + bs.length < 4294967296 by omega)]
        omega
      · rw [hold]
        omega

/-! ## The byte array -/

theorem Stored.of_readable {src : Source} {sp : List UInt8} {r : State}
    (h : Stored sb i src a off n s bs sp r t) (hsrc : ∀ p < n, (src (a + p)).isSome) :
    t = r ∧ ∀ p < bs.length, bs[p]? = src (a + p) := by
  have hsp : sp = [] := by
    by_contra hne
    obtain ⟨m, hm, -, heq, hlt⟩ := h.spilled hne
    have hle := h.length_le
    obtain ⟨-, -, hstop⟩ := eitherCopyin_spec src m (a + bs.length)
    rw [← heq, Nat.add_assoc] at hstop
    have := hsrc (bs.length + sp.length) (by omega)
    rw [hstop hlt] at this
    exact nomatch this
  subst hsp
  refine ⟨h.spills.eq.trans (State.spill_nil _ _), fun p hp => ?_⟩
  rw [List.getElem?_eq_getElem hp]
  exact (h.source p _ (List.getElem?_eq_getElem hp)).symm

theorem eq_of_kernelSource {c : List UInt8} (hlen : bs.length = c.length)
    (h : ∀ p < bs.length, bs[p]? = kernelSource c (0 + p)) : bs = c := by
  refine List.ext_getElem? fun p => ?_
  by_cases hp : p < bs.length
  · rw [h p hp, kernelSource, Nat.zero_add, List.getD_eq_getElem?_getD,
      List.getElem?_eq_getElem (hlen ▸ hp), Option.getD_some]
  · rw [List.getElem?_eq_none (by omega), List.getElem?_eq_none (by omega)]

/-- **The content of an inode is an array of bytes.**  In a state in which no block has two owners and the
blocks with an owner are marked, let inode `i` be locked and have no holes.

* `writei` at an offset up to the size overwrites the content with the bytes of the source, as many as it
  returns.
* `readi` returns the part of the content that it is asked for.
* `itrunc` makes the content empty.

No other inode changes. -/
theorem content_refines (hsb : sb.Ok) (hi : i < sb.ninodes) (hok : (view sb s).Ok sb)
    (hv : (s.inode i).valid) (ha : ((view sb s).dinode i).type ≠ 0) (hwhole : (view sb s).Whole i) :
    (∀ src a off n, off ≤ (view sb s).size i → off + n ≤ MAXFILE * BSIZE →
      (∀ p < n, (src (a + p)).isSome) →
      Ensures (writei sb i src a off n) s fun res t => ∃ bs : List UInt8, res = bs.length ∧
        bs.length ≤ n ∧ (∀ p < bs.length, bs[p]? = src (a + p)) ∧
        (view sb t).size i = max ((view sb s).size i) (off + bs.length) ∧
        (view sb s).Updates sb i (overwrite ((view sb s).content i) off bs) (view sb t)) ∧
    (∀ dst a off n, off < UINT → n < UINT → (∀ p < n, dst (a + p) = true) →
      Ensures (readi sb i dst a off n) s fun r t =>
        r = readResult ((view sb s).content i) off n ∧ t = s) ∧
    Ensures (itrunc sb i) s fun _ t => (view sb s).Updates sb i [] (view sb t) := by
  refine ⟨fun src a off n hoff hmax hsrc => ?_, fun dst a off n hoff hn hdst => ?_, ?_⟩
  · have hmaxfile : MAXFILE * BSIZE = 268 * 1024 := rfl
    have huint : UINT = 4294967296 := rfl
    refine (writei_spec hsb hi hok hv ha hwhole src (by omega)).mono fun res t h => ?_
    rw [if_pos ⟨hoff, by omega⟩] at h
    obtain ⟨bs, sp, r, rfl, hstored⟩ := h
    obtain ⟨rfl, hbytes⟩ := hstored.of_readable hsrc
    refine ⟨bs, rfl, hstored.length_le, hbytes, ?_, hstored.updates⟩
    rw [← View.length_content, hstored.updates.content,
      length_overwrite (by rw [View.length_content]; exact hoff), View.length_content]
  · refine (readi_spec hsb hi hok hv ha hwhole dst hoff hn).mono ?_
    rintro r t ⟨rfl, -, hall⟩
    exact ⟨hall hdst, rfl⟩
  · refine (itrunc_spec hsb hi hok hv ha).mono ?_
    rintro - t ⟨-, -, htrunc⟩
    exact htrunc.updates

/-- A disk of 16 blocks: boot block, super block, inodes, free map and 12 data blocks. -/
def tiny : Superblock := ⟨16, 12, 16, 0, 2, 2, 3⟩

/-- All data blocks are free, and inode 2 is an empty file. -/
def tinyDisk : Disk :=
  putDinode tiny (fun b o => if b = 3 ∧ o = 0 then 15 else 0) 2 ⟨2, 0, 0, 1, 0, fun _ => 0⟩

/-- The file is open. -/
def tinyState : State where
  cached := tinyDisk
  logged := tinyDisk
  written := []
  inode i := if i = 2 then ⟨1, true, true, ⟨2, 0, 0, 1, 0, fun _ => 0⟩⟩ else .free
  inUse := 1

theorem tiny_ok : tiny.Ok := ⟨by decide, by decide, by decide, by decide, by decide, by decide⟩

theorem tinyState_ok : (view tiny tinyState).Ok tiny := by
  have hall : ∀ i < 16, ((view tiny tinyState).dinode i).type = 0 ∨
      ∀ k < 13, ((view tiny tinyState).dinode i).addr k = 0 := by decide +kernel
  refine .of_addr_eq_zero (by decide +kernel) fun i => ?_
  by_cases hi : i < 16
  · refine (hall i hi).imp_right fun haddr k => ?_
    by_cases hk : k < 13
    · exact haddr k hk
    · exact Dinode.addr_of_le (by omega)
  · exact Or.inl (congrArg Dinode.type (if_neg hi))

/-- Three bytes are written to the empty file, and read. -/
theorem content_refines_tiny : ∃ t, writei tiny 2 (kernelSource [1, 2, 3]) 0 0 3 tinyState = .ok (3, t) ∧
    (view tiny t).content 2 = [1, 2, 3] := by
  have hwrite := (content_refines tiny_ok (i := 2) (by decide) tinyState_ok rfl (by decide +kernel)
    fun bn hbn => absurd hbn (by simp [View.size, view, tinyState, tiny])).1 (kernelSource [1, 2, 3]) 0 0 3
      (by decide) (by decide) fun p _ => rfl
  obtain ⟨res, t, hrun, bs, hlen, -, hbytes, -, hupdates⟩ := hwrite
  obtain ⟨res', t', hrun', hres⟩ := exists_of_returns
    (x := writei tiny 2 (kernelSource [1, 2, 3]) 0 0 3) (s := tinyState) (p := fun r => r == 3)
    (by decide +kernel)
  obtain ⟨rfl, rfl⟩ := Prod.mk.inj (Except.ok.inj (hrun.symm.trans hrun'))
  have hthree : res = 3 := by simpa using hres
  have hbs : bs.length = 3 := by omega
  refine ⟨t, hthree ▸ hrun, ?_⟩
  have hempty : (view tiny tinyState).content 2 = [] := by decide +kernel
  rw [hupdates.content, hempty, eq_of_kernelSource hbs hbytes]
  rfl

end Xv6.Fs
