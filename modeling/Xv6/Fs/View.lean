import Xv6.Fs.Inode

/-!
# The file system as three tables

What the code does to bytes is seen here as changes to three tables that are independent of each other:
which blocks are used, the inodes, and the contents of the data blocks (`View`).  The inode table in memory
comes before the disk: an inode that is valid there is as it is there.

For every function that touches the disk there is a lemma that says what it does to the view, and what it
leaves alone (`Steady`).  `Synced` says that the copy of an inode in memory is the one on the disk.
-/

namespace Xv6.Fs

open Bytes Program

/-- The tables. -/
@[ext] structure View where
  used : ℕ → Bool
  dinode : ℕ → Dinode
  data : ℕ → Mem

namespace View

def setUsed (v : View) (b : ℕ) (x : Bool) : View := { v with used := Function.update v.used b x }

def setDinode (v : View) (i : ℕ) (x : Dinode) : View :=
  { v with dinode := Function.update v.dinode i x }

def setData (v : View) (b : ℕ) (m : Mem) : View := { v with data := Function.update v.data b m }

section Set

variable {v : View} {b i : ℕ} {x : Bool} {d : Dinode} {m : Mem}

@[simp] theorem setUsed_dinode : (v.setUsed b x).dinode = v.dinode := rfl
@[simp] theorem setUsed_data : (v.setUsed b x).data = v.data := rfl
@[simp] theorem setUsed_used : (v.setUsed b x).used = Function.update v.used b x := rfl
@[simp] theorem setDinode_used : (v.setDinode i d).used = v.used := rfl
@[simp] theorem setDinode_data : (v.setDinode i d).data = v.data := rfl
@[simp] theorem setDinode_dinode : (v.setDinode i d).dinode = Function.update v.dinode i d := rfl
@[simp] theorem setData_used : (v.setData b m).used = v.used := rfl
@[simp] theorem setData_dinode : (v.setData b m).dinode = v.dinode := rfl
@[simp] theorem setData_data : (v.setData b m).data = Function.update v.data b m := rfl

end Set

end View

variable (sb : Superblock)

/-- What a state of the file system is. -/
def view (s : State) : View where
  used b := decide (b < sb.size) && getBit sb s.cached b
  dinode i :=
    if i < sb.ninodes then if (s.inode i).valid then (s.inode i).d else getDinode sb s.cached i
    else .zero
  data b := if sb.datastart ≤ b then s.cached b else fun _ => 0

/-- The copy of inode `i` in memory is the one on the disk. -/
def Synced (s : State) (i : ℕ) : Prop :=
  (s.inode i).valid → getDinode sb s.cached i = (s.inode i).d

/-- The buffer of block `b` has been changed without `log_write`. -/
def Dirty (s : State) (b : ℕ) : Prop := s.logged b ≠ s.cached b

/-- From `s` to `s'` no entry of the inode table has come or gone, and copies are in step with the disk,
except perhaps those of the inodes in `D`. -/
structure Steady (D : Set ℕ) (s s' : State) : Prop where
  ref : ∀ j, (s'.inode j).ref = (s.inode j).ref
  valid : ∀ j, (s'.inode j).valid = (s.inode j).valid
  locked : ∀ j, (s'.inode j).locked = (s.inode j).locked
  inUse : s'.inUse = s.inUse
  synced : ∀ j, j < sb.ninodes → j ∉ D → Synced sb s j → Synced sb s' j
  clean : ∀ b, Dirty s' b → Dirty s b

variable {sb} {D D' : Set ℕ} {s s' s'' : State} {i b : ℕ}

theorem Steady.refl : Steady sb D s s :=
  ⟨fun _ => rfl, fun _ => rfl, fun _ => rfl, rfl, fun _ _ _ h => h, fun _ h => h⟩

theorem Steady.trans (h : Steady sb D s s') (h' : Steady sb D s' s'') : Steady sb D s s'' where
  ref j := (h'.ref j).trans (h.ref j)
  valid j := (h'.valid j).trans (h.valid j)
  locked j := (h'.locked j).trans (h.locked j)
  inUse := h'.inUse.trans h.inUse
  synced j hj hD hs := h'.synced j hj hD (h.synced j hj hD hs)
  clean b hb := h.clean b (h'.clean b hb)

theorem Steady.mono (h : Steady sb D s s') (hD : D ⊆ D') : Steady sb D' s s' :=
  { h with synced := fun j hj hD' hs => h.synced j hj (fun hj' => hD' (hD hj')) hs }

theorem Steady.of_synced (h : Steady sb (insert i D) s s') (hi : Synced sb s' i) :
    Steady sb D s s' := by
  refine { h with synced := fun j hj hD hs => ?_ }
  by_cases hji : j = i
  · exact hji ▸ hi
  · exact h.synced j hj (fun hin => hin.elim hji hD) hs

/-! ## Reading -/

theorem dinode_of_valid (hi : i < sb.ninodes) (hv : (s.inode i).valid) :
    (view sb s).dinode i = (s.inode i).d := by
  simp only [view, if_pos hi, if_pos hv]

theorem dinode_of_not_valid (hi : i < sb.ninodes) (hv : (s.inode i).valid = false) :
    (view sb s).dinode i = getDinode sb s.cached i := by
  simp only [view, if_pos hi, hv]
  rfl

theorem data_eq (hb : sb.datastart ≤ b) : (view sb s).data b = s.cached b := by
  simp only [view, if_pos hb]

theorem used_eq (hb : b < sb.size) : (view sb s).used b = getBit sb s.cached b := by
  simp only [view, decide_eq_true hb, Bool.true_and]

theorem used_of_le (hb : sb.size ≤ b) : (view sb s).used b = false := by
  simp only [view, decide_eq_false (Nat.not_lt.mpr hb), Bool.false_and]

theorem Synced.getDinode_eq (h : Synced sb s i) (hi : i < sb.ninodes) :
    getDinode sb s.cached i = (view sb s).dinode i := by
  cases hv : (s.inode i).valid with
  | true => rw [dinode_of_valid hi hv, h hv]
  | false => rw [dinode_of_not_valid hi hv]

/-! ## What is done to the tables -/

/-- Another disk, with the same table in memory. -/
def State.setCached (s : State) (d : Disk) : State := { s with cached := d }

@[simp] theorem State.setCached_cached (d : Disk) : (s.setCached d).cached = d := rfl
@[simp] theorem State.setCached_inode (d : Disk) : (s.setCached d).inode = s.inode := rfl

section Effects

variable (hsb : sb.Ok)

include hsb

theorem view_putBit (hb : b < sb.size) (x : Bool) :
    view sb (s.setCached (putBit sb s.cached b x)) = (view sb s).setUsed b x := by
  refine View.ext ?_ ?_ ?_
  · funext c
    by_cases hc : c < sb.size
    · rw [used_eq hc, State.setCached_cached, getBit_putBit, View.setUsed_used, Function.update_apply,
        used_eq hc]
    · rw [used_of_le (Nat.le_of_not_lt hc), View.setUsed_used, Function.update_of_ne (by omega),
        used_of_le (Nat.le_of_not_lt hc)]
  · funext j
    simp only [view, State.setCached_cached, State.setCached_inode, View.setUsed_dinode]
    split
    · rename_i hj
      simp only [getDinode_putBit hsb hj]
    · rfl
  · funext c
    simp only [view, State.setCached_cached, State.setCached_inode, View.setUsed_data]
    split
    · rename_i hc
      rw [data_putBit hsb hb hc]
    · rfl

theorem view_setData (hb : sb.datastart ≤ b) (m : Mem) :
    view sb (s.setCached (Function.update s.cached b m)) = (view sb s).setData b m := by
  refine View.ext ?_ ?_ ?_
  · funext c
    rw [View.setData_used]
    by_cases hc : c < sb.size
    · rw [used_eq hc, used_eq hc, State.setCached_cached, getBit_update hsb hc hb]
    · rw [used_of_le (Nat.le_of_not_lt hc), used_of_le (Nat.le_of_not_lt hc)]
  · funext j
    simp only [view, State.setCached_cached, State.setCached_inode, View.setData_dinode]
    split
    · rename_i hj
      simp only [getDinode_update hsb hj hb]
    · rfl
  · funext c
    by_cases hc : sb.datastart ≤ c
    · rw [data_eq hc, View.setData_data, State.setCached_cached, Function.update_apply,
        Function.update_apply, data_eq hc]
    · simp only [view, if_neg hc, View.setData_data]
      rw [Function.update_of_ne (by omega), if_neg hc]

theorem view_putDinode (hi : i < sb.ninodes) (hv : (s.inode i).valid = false) (x : Dinode) :
    view sb (s.setCached (putDinode sb s.cached i x)) = (view sb s).setDinode i x := by
  refine View.ext ?_ ?_ ?_
  · funext c
    rw [View.setDinode_used]
    by_cases hc : c < sb.size
    · rw [used_eq hc, used_eq hc, State.setCached_cached, getBit_putDinode hsb hi]
    · rw [used_of_le (Nat.le_of_not_lt hc), used_of_le (Nat.le_of_not_lt hc)]
  · funext j
    rw [View.setDinode_dinode, Function.update_apply]
    by_cases hji : j = i
    · subst hji
      rw [dinode_of_not_valid (s := s.setCached (putDinode sb s.cached j x)) hi hv,
        State.setCached_cached, getDinode_putDinode, if_pos rfl, if_pos rfl]
    · simp only [view, State.setCached_cached, State.setCached_inode, getDinode_putDinode, if_neg hji]
  · funext c
    simp only [view, State.setCached_cached, State.setCached_inode, View.setDinode_data]
    split
    · rename_i hc
      rw [data_putDinode hsb hi hc]
    · rfl

/-- The disk copy of an inode that is valid in memory becomes the same. -/
theorem view_putDinode_of_valid (hi : i < sb.ninodes) (hv : (s.inode i).valid) (x : Dinode) :
    view sb (s.setCached (putDinode sb s.cached i x)) = view sb s := by
  refine View.ext ?_ ?_ ?_
  · funext c
    by_cases hc : c < sb.size
    · rw [used_eq hc, used_eq hc, State.setCached_cached, getBit_putDinode hsb hi]
    · rw [used_of_le (Nat.le_of_not_lt hc), used_of_le (Nat.le_of_not_lt hc)]
  · funext j
    by_cases hji : j = i
    · subst hji
      rw [dinode_of_valid hi hv, dinode_of_valid hi]
      · rfl
      · exact hv
    · simp only [view, State.setCached_cached, State.setCached_inode, getDinode_putDinode, if_neg hji]
  · funext c
    simp only [view, State.setCached_cached]
    split
    · rename_i hc
      rw [data_putDinode hsb hi hc]
    · rfl

end Effects

theorem view_setInode (hi : i < sb.ninodes) {x : Inode} (hx : x.valid) :
    view sb (s.setInode i x) = (view sb s).setDinode i x.d := by
  refine View.ext rfl ?_ rfl
  funext j
  rw [View.setDinode_dinode, Function.update_apply]
  by_cases hji : j = i
  · subst hji
    have hentry : ((s.setInode j x).inode j) = x := Function.update_self ..
    rw [dinode_of_valid hi (by rw [hentry]; exact hx), hentry, if_pos rfl]
  · have hentry : (s.setInode i x).inode j = s.inode j := Function.update_of_ne hji ..
    simp only [view, hentry, if_neg hji]
    rfl

theorem view_congr (hc : s'.cached = s.cached) (hi : s'.inode = s.inode) :
    view sb s' = view sb s := by
  simp only [view, hc, hi]

/-! ## The functions that touch the disk -/

section Get

variable {α : Type} {Q : α → State → Prop}

theorem ensures_bread_bind {f : Mem → FsM α} (h : Ensures (f (s.cached b)) s Q) :
    Ensures (bread b >>= f) s Q := by
  obtain ⟨a, t, hrun, hQ⟩ := h
  exact ⟨a, t, hrun, hQ⟩

theorem ensures_getInode_bind {f : Dinode → FsM α} (h : Ensures (f (s.inode i).d) s Q) :
    Ensures (getInode i >>= f) s Q := by
  obtain ⟨a, t, hrun, hQ⟩ := h
  exact ⟨a, t, hrun, hQ⟩

end Get

theorem ensures_logBuf {f : Mem → Mem} {Q : PUnit → State → Prop}
    (h : ∀ t : State, t.cached = Function.update s.cached b (f (s.cached b)) →
      t.inode = s.inode → t.inUse = s.inUse →
      t.logged = Function.update s.logged b (f (s.cached b)) → Q ⟨⟩ t) :
    Ensures (logBuf b f) s Q := by
  refine .modify_bind (.modify (h _ rfl rfl rfl ?_))
  simp only [Function.update_self]

theorem steady_of_update (hc : ∀ j < sb.ninodes, j ∉ D →
      getDinode sb s'.cached j = getDinode sb s.cached j)
    (hi : s'.inode = s.inode) (hu : s'.inUse = s.inUse)
    (hclean : ∀ b, Dirty s' b → Dirty s b) : Steady sb D s s' where
  ref j := by rw [hi]
  valid j := by rw [hi]
  locked j := by rw [hi]
  inUse := hu
  synced j hj hD hs := by
    intro hv
    rw [hc j hj hD, hi]
    exact hs (by rwa [hi] at hv)
  clean := hclean

theorem not_dirty_of_update {m : Mem} (hc : s'.cached = Function.update s.cached b m)
    (hl : s'.logged = Function.update s.logged b m) : ¬ Dirty s' b := by
  rw [Dirty, hc, hl, Function.update_self, Function.update_self]
  exact fun h => h rfl

theorem dirty_of_update {m : Mem} (hc : s'.cached = Function.update s.cached b m)
    (hl : s'.logged = Function.update s.logged b m) (c : ℕ) (h : Dirty s' c) : Dirty s c := by
  have hne : c ≠ b := fun hcb => not_dirty_of_update hc hl (hcb ▸ h)
  rw [Dirty, hc, hl, Function.update_of_ne hne, Function.update_of_ne hne] at h
  exact h

section Functions

variable (hsb : sb.Ok)

include hsb

theorem logData_spec (hb : sb.datastart ≤ b) (f : Mem → Mem) :
    Ensures (logBuf b f) s fun _ t => Steady sb ∅ s t ∧ ¬ Dirty t b ∧
      view sb t = (view sb s).setData b (f ((view sb s).data b)) := by
  refine ensures_logBuf fun t hc hi hu hl => ⟨?_, not_dirty_of_update hc hl, ?_⟩
  · exact steady_of_update (fun j hj _ => by rw [hc, getDinode_update hsb hj hb]) hi hu
      (dirty_of_update hc hl)
  · rw [data_eq hb, ← view_setData hsb hb]
    exact view_congr hc hi

theorem logBit_spec (hb : b < sb.size) (x : Bool) :
    Ensures (logBuf (sb.BBLOCK b) fun m => setBit m (b % 8192) x) s fun _ t =>
      Steady sb ∅ s t ∧ view sb t = (view sb s).setUsed b x := by
  refine ensures_logBuf fun t hc hi hu hl => ⟨?_, ?_⟩
  · have hc' : t.cached = putBit sb s.cached b x := hc
    exact steady_of_update (fun j hj _ => by rw [hc', getDinode_putBit hsb hj]) hi hu
      (dirty_of_update hc hl)
  · rw [← view_putBit hsb hb]
    exact view_congr hc hi

/-- **`iupdate`** changes only the disk. -/
theorem iupdate_spec (hi : i < sb.ninodes) (hv : (s.inode i).valid) :
    Ensures (iupdate sb i) s fun _ t =>
      Steady sb ∅ s t ∧ Synced sb t i ∧ view sb t = view sb s ∧ t.inode = s.inode := by
  refine .modify_bind (.modify ⟨?_, ?_, ?_, rfl⟩)
  · refine Steady.of_synced (i := i) (steady_of_update (fun j hj hD => ?_) rfl rfl fun c hc => ?_) ?_
    · change getDinode sb (putDinode sb s.cached i (s.inode i).d) j = _
      rw [getDinode_putDinode, if_neg fun hji => hD (Or.inl hji)]
    · refine dirty_of_update (s := s) (b := sb.IBLOCK i)
        (m := (s.inode i).d.encode (s.cached (sb.IBLOCK i)) (64 * (i % 16))) rfl ?_ c hc
      change Function.update s.logged _ (putDinode sb s.cached i (s.inode i).d _) = _
      rw [putDinode, Function.update_self]
    · intro _
      change getDinode sb (putDinode sb s.cached i (s.inode i).d) i = _
      rw [getDinode_putDinode, if_pos rfl]
  · intro _
    change getDinode sb (putDinode sb s.cached i (s.inode i).d) i = _
    rw [getDinode_putDinode, if_pos rfl]
  · exact (view_congr rfl rfl).trans (view_putDinode_of_valid hsb hi hv _)

end Functions

theorem modifyInode_spec (hi : i < sb.ninodes) (hv : (s.inode i).valid) (f : Dinode → Dinode) :
    Ensures (modifyInode i f) s fun _ t => Steady sb {i} s t ∧
      view sb t = (view sb s).setDinode i (f ((view sb s).dinode i)) := by
  have hne : ∀ {j}, j ≠ i →
      (s.setInode i { s.inode i with d := f (s.inode i).d }).inode j = s.inode j := fun hj =>
    Function.update_of_ne hj ..
  have hself : (s.setInode i { s.inode i with d := f (s.inode i).d }).inode i =
      { s.inode i with d := f (s.inode i).d } := Function.update_self ..
  refine .modify ⟨⟨fun j => ?_, fun j => ?_, fun j => ?_, rfl, fun j _ hj hs => ?_, fun _ h => h⟩, ?_⟩
  · by_cases hj : j = i
    · rw [hj, hself]
    · rw [hne hj]
  · by_cases hj : j = i
    · rw [hj, hself]
    · rw [hne hj]
  · by_cases hj : j = i
    · rw [hj, hself]
    · rw [hne hj]
  · rw [Synced, hne hj]
    exact hs
  · have hview := view_setInode (s := s) (x := { s.inode i with d := f (s.inode i).d }) hi hv
    rw [dinode_of_valid hi hv]
    exact hview

end Xv6.Fs
