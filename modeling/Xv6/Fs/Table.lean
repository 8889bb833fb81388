import Xv6.Fs.ReadWrite
import Xv6.Fs.Node

/-!
# The table of inodes in memory

`Table D sb R L s` is what holds between any two operations of a call.  The disk is as `D` says; copies in
memory are in step with it; `R` are the references to inodes that are held, by processes, open files and
the call itself, and `L` are the inodes that are locked.  Every operation on the table has one lemma here
that says how `R` and `L` change, and what it does to the files.  Most do nothing to them (`Quiet`).

For the calls the disk is sound (`Inv`).  Inodes can be freed on any disk whose blocks have one owner each
(`Robust`).
-/

namespace Xv6.Fs

open Bytes Program Slots

/-- The files of a state. -/
def files (sb : Superblock) (s : State) : Files := (view sb s).node

/-- The disk is as `D` says, and the table in memory is in step with it, where `R` are the references that
are held and `L` the locks. -/
structure Table (D : View → Prop) (sb : Superblock) (R : Multiset ℕ) (L : Set ℕ) (s : State) : Prop where
  sound : D (view sb s)
  logged : Logged sb s
  synced : ∀ i < sb.ninodes, Synced sb s i
  ref : ∀ i, (s.inode i).ref = R.count i
  inUse : s.inUse = R.toFinset.card
  range : ∀ i ∈ R, i < sb.ninodes
  mem_of_valid : ∀ i, (s.inode i).valid → i ∈ R
  locked : ∀ i, (s.inode i).locked = true ↔ i ∈ L
  valid : ∀ i ∈ L, (s.inode i).valid
  allocated : ∀ i, (s.inode i).valid → ((view sb s).dinode i).type ≠ 0

/-- The disk is sound, and the table in memory is in step with it. -/
abbrev Inv (sb : Superblock) : Multiset ℕ → Set ℕ → State → Prop := Table (View.Sound sb) sb

/-- On disks like `D` inodes can be freed. -/
structure Robust (sb : Superblock) (D : View → Prop) : Prop where
  ok : ∀ v, D v → v.Ok sb
  removes : ∀ i v w, D v → v.Removes sb i w → D w

theorem robust_sound (sb : Superblock) : Robust sb (View.Sound sb) :=
  ⟨fun _ h => h.ok, fun _ _ _ h h' => h.removes h'⟩

/-- From `s` to `t` no file has changed, and what was valid of `R` is so still. -/
structure Quiet (sb : Superblock) (R : Multiset ℕ) (s t : State) : Prop where
  view : view sb t = view sb s
  valid : ∀ i ∈ R, (s.inode i).valid → (t.inode i).valid

variable {D : View → Prop} {sb : Superblock} {R R' : Multiset ℕ} {L L' : Set ℕ} {s t u : State} {i j : ℕ} {x : Node}

theorem Quiet.refl : Quiet sb R s s := ⟨rfl, fun _ _ h => h⟩

theorem Quiet.trans (h : Quiet sb R s t) (h' : Quiet sb R t u) : Quiet sb R s u :=
  ⟨h'.view.trans h.view, fun i hi hv => h'.valid i hi (h.valid i hi hv)⟩

theorem Quiet.mono (h : Quiet sb R' s t) (hR : R ⊆ R') : Quiet sb R s t :=
  ⟨h.view, fun i hi => h.valid i (hR hi)⟩

theorem Quiet.of_cons (h : Quiet sb (i ::ₘ R) s t) : Quiet sb R s t :=
  h.mono fun _ => Multiset.mem_cons_of_mem

theorem Quiet.files (h : Quiet sb R s t) : files sb t = files sb s := by
  rw [Fs.files, Fs.files, h.view]

/-- States with the same disk, and copies in step with it, show the same. -/
theorem view_eq_of_synced (hc : t.cached = s.cached) (hs : ∀ i < sb.ninodes, Synced sb s i)
    (ht : ∀ i < sb.ninodes, Synced sb t i) : view sb t = view sb s := by
  refine View.ext ?_ (funext fun i => ?_) ?_
  · simp only [view, hc]
  · by_cases hi : i < sb.ninodes
    · rw [← (ht i hi).getDinode_eq hi, ← (hs i hi).getDinode_eq hi, hc]
    · simp only [view, if_neg hi]
  · simp only [view, hc]

/-- Another entry for inode `i`, when `n` entries are then in use. -/
def State.setEntry (s : State) (i : ℕ) (e : Inode) (n : ℕ) : State := { s.setInode i e with inUse := n }

@[simp] theorem State.setEntry_self (e : Inode) (n : ℕ) : (s.setEntry i e n).inode i = e :=
  Function.update_self ..

theorem State.setEntry_of_ne {e : Inode} {n : ℕ} (hj : j ≠ i) :
    (s.setEntry i e n).inode j = s.inode j :=
  Function.update_of_ne hj ..

theorem Logged.of_eq (h : Logged sb s) (hc : t.cached = s.cached) (hl : t.logged = s.logged)
    (hview : view sb t = view sb s) : Logged sb t := by
  refine h.congr (by rw [hview]) (fun j => by rw [hview]) fun b hb => ?_
  rw [Dirty, hc, hl] at hb
  exact hb

theorem Logged.of_empty (h : Logged sb s) (hsb : sb.Ok) (hclean : ∀ b, Dirty t b → Dirty s b)
    (hempty : ∀ σ, (view sb t).slot (i, σ) = 0)
    (hothers : ∀ j σ, j ≠ i → (view sb t).slot (j, σ) = (view sb s).slot (j, σ))
    (hdinode : ∀ j, j ≠ i → (view sb t).dinode j = (view sb s).dinode j) : Logged sb t := by
  intro b hb
  obtain ⟨hle, hold⟩ := h b (hclean b hb)
  refine ⟨hle, fun j σ hj => ?_⟩
  by_cases hji : j = i
  · rw [hji, hempty] at hj
    have := hsb.datastart_pos
    omega
  · rw [hdinode j hji]
    exact hold j σ ((hothers j σ hji).symm.trans hj)

namespace Table

theorem mem_of_locked (h : Table D sb R L s) (hi : i ∈ L) : i ∈ R := h.mem_of_valid i (h.valid i hi)

theorem lt_of_locked (h : Table D sb R L s) (hi : i ∈ L) : i < sb.ninodes := h.range i (h.mem_of_locked hi)

theorem exists_of_locked (h : Table D sb R L s) (hi : i ∈ L) : ∃ x, files sb s i = some x :=
  ⟨_, View.node_of_ne (h.allocated i (h.valid i hi))⟩

theorem dinode_of_locked (h : Table D sb R L s) (hi : i ∈ L) : (view sb s).dinode i = (s.inode i).d :=
  dinode_of_valid (h.lt_of_locked hi) (h.valid i hi)

theorem ref_pos (h : Table D sb R L s) (hi : i ∈ R) : 1 ≤ (s.inode i).ref := by
  rw [h.ref]
  exact Multiset.one_le_count_iff_mem.mpr hi

/-- **Changes to the disk** that leave the table alone. -/
theorem of_steady (h : Table D sb R L s) (hst : Steady sb ∅ s t) (hsound : D (Fs.view sb t))
    (hlogged : Logged sb t)
    (halloc : ∀ i, ((Fs.view sb s).dinode i).type ≠ 0 → ((Fs.view sb t).dinode i).type ≠ 0) :
    Table D sb R L t where
  sound := hsound
  logged := hlogged
  synced i hi := hst.synced i hi (Set.notMem_empty i) (h.synced i hi)
  ref i := (hst.ref i).trans (h.ref i)
  inUse := hst.inUse.trans h.inUse
  range := h.range
  mem_of_valid i hi := h.mem_of_valid i (hst.valid i ▸ hi)
  locked i := by rw [hst.locked i, h.locked i]
  valid i hi := by
    rw [hst.valid i]
    exact h.valid i hi
  allocated i hi := halloc i (h.allocated i (hst.valid i ▸ hi))

/-- **Changes to one entry of the table**, when its copy is in step. -/
theorem setEntry (h : Table D sb R L s) (R' : Multiset ℕ) (L' : Set ℕ) (hi : i < sb.ninodes) {e : Inode} {n : ℕ}
    (hR : ∀ j, j ≠ i → R'.count j = R.count j) (hL : ∀ j, j ≠ i → (j ∈ L' ↔ j ∈ L))
    (href : e.ref = R'.count i) (hn : n = R'.toFinset.card)
    (hd : e.valid → getDinode sb s.cached i = e.d) (hmem : e.valid → i ∈ R')
    (hlocked : e.locked = true ↔ i ∈ L') (hvalid : e.locked → e.valid)
    (halloc : e.valid → ((Fs.view sb s).dinode i).type ≠ 0) :
    Table D sb R' L' (s.setEntry i e n) ∧ Fs.view sb (s.setEntry i e n) = Fs.view sb s := by
  have hself := State.setEntry_self (s := s) (i := i) e n
  have hne := fun {j} => State.setEntry_of_ne (s := s) (i := i) (j := j) (e := e) (n := n)
  have hmemR : ∀ j, j ≠ i → (j ∈ R' ↔ j ∈ R) := by
    intro j hj
    rw [← Multiset.count_pos, ← Multiset.count_pos, hR j hj]
  have hsynced : ∀ j < sb.ninodes, Synced sb (s.setEntry i e n) j := by
    intro j hj
    by_cases hji : j = i
    · subst hji
      rw [Synced, hself]
      exact hd
    · rw [Synced, hne hji]
      exact h.synced j hj
  have hview : Fs.view sb (s.setEntry i e n) = Fs.view sb s :=
    view_eq_of_synced (by rfl) h.synced hsynced
  refine ⟨⟨hview ▸ h.sound, h.logged.of_eq rfl rfl hview, hsynced, fun j => ?_, hn, fun j hj => ?_,
    fun j hj => ?_, fun j => ?_, fun j hj => ?_, fun j hj => ?_⟩, hview⟩
  · by_cases hji : j = i
    · rw [hji, hself, href]
    · rw [hne hji, hR j hji, h.ref]
  · by_cases hji : j = i
    · exact hji ▸ hi
    · exact h.range j ((hmemR j hji).mp hj)
  · by_cases hji : j = i
    · subst hji
      rw [hself] at hj
      exact hmem hj
    · rw [hne hji] at hj
      exact (hmemR j hji).mpr (h.mem_of_valid j hj)
  · by_cases hji : j = i
    · rw [hji, hself, hlocked]
    · rw [hne hji, h.locked, hL j hji]
  · by_cases hji : j = i
    · subst hji
      rw [hself]
      exact hvalid (hlocked.mpr hj)
    · rw [hne hji]
      exact h.valid j ((hL j hji).mp hj)
  · rw [hview]
    by_cases hji : j = i
    · subst hji
      rw [hself] at hj
      exact halloc hj
    · rw [hne hji] at hj
      exact h.allocated j hj

end Table

theorem Inv.updates (h : Inv sb R L s) (hst : Steady sb ∅ s t) (hlogged : Logged sb t) {c : List UInt8}
    (hup : (view sb s).Updates sb i c (view sb t)) (hx : files sb s i = some x)
    (hdir : x.type = .ofNat T_DIR → DirOk sb.ninodes c) :
    Inv sb R L t ∧ files sb t = Function.update (files sb s) i (some { x with content := c }) := by
  refine ⟨h.of_steady hst (h.sound.updates hup hx hdir) hlogged fun j hj => ?_, hup.node hx⟩
  by_cases hji : j = i
  · subst hji
    rw [hup.type]
    exact hj
  · rw [hup.dinode_of_ne j hji]
    exact hj

theorem quiet_of_setEntry {e : Inode} {n : ℕ}
    (hview : view sb (s.setEntry i e n) = view sb s) (hvalid : i ∈ R → (s.inode i).valid → e.valid) :
    Quiet sb R s (s.setEntry i e n) := by
  refine ⟨hview, fun j hj hv => ?_⟩
  by_cases hji : j = i
  · subst hji
    rw [State.setEntry_self]
    exact hvalid hj hv
  · rw [State.setEntry_of_ne hji]
    exact hv

/-! ## References -/

theorem card_toFinset_cons (hi : i ∈ R) : (i ::ₘ R).toFinset.card = R.toFinset.card := by
  rw [Multiset.toFinset_cons, Finset.insert_eq_of_mem (Multiset.mem_toFinset.mpr hi)]

theorem card_toFinset_cons_of_notMem (hi : i ∉ R) :
    (i ::ₘ R).toFinset.card = R.toFinset.card + 1 := by
  rw [Multiset.toFinset_cons, Finset.card_insert_of_notMem fun h => hi (Multiset.mem_toFinset.mp h)]

theorem Table.addRef (h : Table D sb R L s) (hi : i ∈ R) :
    Table D sb (i ::ₘ R) L (s.setInode i { s.inode i with ref := (s.inode i).ref + 1 }) ∧
      Quiet sb R s (s.setInode i { s.inode i with ref := (s.inode i).ref + 1 }) := by
  obtain ⟨hinv, hview⟩ := h.setEntry (i ::ₘ R) L (i := i) (n := s.inUse)
    (e := { s.inode i with ref := (s.inode i).ref + 1 })
    (h.range i hi) (fun j hj => Multiset.count_cons_of_ne hj R) (fun j _ => Iff.rfl)
    (by rw [Multiset.count_cons_self]; exact congrArg (· + 1) (h.ref i))
    (by rw [card_toFinset_cons hi, h.inUse]) (h.synced i (h.range i hi))
    (fun _ => Multiset.mem_cons_self i R) (h.locked i) (fun hl => h.valid i ((h.locked i).mp hl))
    (h.allocated i)
  exact ⟨hinv, quiet_of_setEntry hview fun _ hv => hv⟩

variable {E : Panic → Prop}

/-- **`iget`**, which panics when the table is full. -/
theorem iget_yields (h : Table D sb R L s) (hi : i < sb.ninodes)
    (hE : NINODE ≤ R.toFinset.card → E .igetNoInodes) :
    Yields E (iget i) s fun r t => r = i ∧ Table D sb (i ::ₘ R) L t ∧ Quiet sb R s t ∧
      (i ∉ R → (t.inode i).valid = false) := by
  refine .get_bind (.ite (fun hpos => ?_) fun hzero => .ite
    (fun hfull => .panic (hE (h.inUse ▸ hfull))) fun _ => ?_)
  · have hmem : i ∈ R := by
      rw [h.ref] at hpos
      exact Multiset.count_pos.mp hpos
    obtain ⟨hinv, hquiet⟩ := h.addRef hmem
    exact Or.inl ⟨i, _, rfl, rfl, hinv, hquiet, fun hnot => absurd hmem hnot⟩
  · have hnot : i ∉ R := by
      rw [h.ref] at hzero
      exact fun hmem => hzero (Multiset.count_pos.mpr hmem)
    obtain ⟨hinv, hview⟩ := h.setEntry (i ::ₘ R) L (i := i) (n := s.inUse + 1)
      (e := { Inode.free with ref := 1 }) hi (fun j hj => Multiset.count_cons_of_ne hj R)
      (fun j _ => Iff.rfl) (by rw [Multiset.count_cons_self, Multiset.count_eq_zero_of_notMem hnot])
      (by rw [card_toFinset_cons_of_notMem hnot, h.inUse]) nofun nofun
      (iff_of_false nofun fun hl => hnot (h.mem_of_locked hl)) nofun nofun
    refine Or.inl ⟨i, _, rfl, rfl, hinv, quiet_of_setEntry hview fun hmem => absurd hmem hnot, fun _ => ?_⟩
    exact congrArg Inode.valid (State.setEntry_self (s := s) _ (s.inUse + 1))

theorem iget_spec (h : Table D sb R L s) (hi : i < sb.ninodes) (hE : E .igetNoInodes) :
    Yields E (iget i) s fun r t => r = i ∧ Table D sb (i ::ₘ R) L t ∧ Quiet sb R s t ∧
      (i ∉ R → (t.inode i).valid = false) :=
  iget_yields h hi fun _ => hE

theorem idup_spec (h : Table D sb R L s) (hi : i ∈ R) :
    Ensures (idup i) s fun r t => r = i ∧ Table D sb (i ::ₘ R) L t ∧ Quiet sb R s t :=
  .modify_bind (.pure ⟨rfl, h.addRef hi⟩)

/-- A reference less, when others are left or the file is not to be freed. -/
theorem dropRef_spec (h : Table D sb (i ::ₘ R) L s) (hL : i ∈ L → i ∈ R) :
    Ensures (dropRef i) s fun _ t => Table D sb R L t ∧ Quiet sb R s t := by
  have hi : i < sb.ninodes := h.range i (Multiset.mem_cons_self i R)
  have href := h.ref i
  rw [Multiset.count_cons_self] at href
  have hcount : ∀ j, j ≠ i → R.count j = (i ::ₘ R).count j := fun j hj =>
    (Multiset.count_cons_of_ne hj R).symm
  refine .modify ?_
  split
  · rename_i hlast
    have hnot : i ∉ R := Multiset.count_eq_zero.mp (by omega)
    obtain ⟨hinv, hview⟩ := h.setEntry R L (i := i) (n := s.inUse - 1) (e := .free) hi
      hcount (fun j _ => Iff.rfl) (Multiset.count_eq_zero_of_notMem hnot).symm
      (by rw [h.inUse, card_toFinset_cons_of_notMem hnot]; rfl) nofun nofun
      (iff_of_false nofun fun hl => hnot (hL hl)) nofun nofun
    exact ⟨hinv, quiet_of_setEntry hview fun hmem => absurd hmem hnot⟩
  · rename_i hmore
    have hmem : i ∈ R := Multiset.count_pos.mp (by omega)
    obtain ⟨hinv, hview⟩ := h.setEntry R L (i := i) (n := s.inUse)
      (e := { s.inode i with ref := (s.inode i).ref - 1 }) hi hcount (fun j _ => Iff.rfl)
      (by change (s.inode i).ref - 1 = _; omega) (by rw [h.inUse, card_toFinset_cons hmem])
      (h.synced i hi) (fun _ => hmem) (h.locked i) (fun hl => h.valid i ((h.locked i).mp hl))
      (h.allocated i)
    exact ⟨hinv, quiet_of_setEntry hview fun _ hv => hv⟩

/-! ## Locks -/

/-- **`ilock`** of an inode that is held. -/
theorem ilock_spec (h : Table D sb R L s) (hi : i ∈ R) (hlock : i ∈ L → E .deadlock)
    (htype : files sb s i = none → E .ilockNoType) :
    Yields E (ilock sb i) s fun _ t => i ∉ L ∧ (∃ x, files sb s i = some x) ∧
      Table D sb R (insert i L) t ∧ Quiet sb R s t := by
  have hlt := h.range i hi
  have hpos := h.ref_pos hi
  have hLne : ∀ j, j ≠ i → (j ∈ insert i L ↔ j ∈ L) := fun j hj =>
    ⟨fun hin => hin.resolve_left hj, Or.inr⟩
  refine .get_bind (.ite (fun hzero => absurd hpos (by omega)) fun _ => .ite (fun hl => ?_) fun hl => ?_)
  · exact .panic (hlock ((h.locked i).mp hl))
  have hnot : i ∉ L := fun hin => hl ((h.locked i).mpr hin)
  refine .ite (fun hv => ?_) fun hv => ?_
  · obtain ⟨hinv, hview⟩ := h.setEntry R (insert i L) (i := i) (n := s.inUse)
      (e := { s.inode i with locked := true }) hlt (fun _ _ => rfl) hLne (h.ref i) h.inUse
      (h.synced i hlt) (fun _ => hi) (iff_of_true rfl (Or.inl rfl)) (fun _ => hv) (h.allocated i)
    exact Or.inl ⟨⟨⟩, _, rfl, hnot, ⟨_, View.node_of_ne (h.allocated i hv)⟩, hinv,
      quiet_of_setEntry hview fun _ hv => hv⟩
  · have hdip : getDinode sb s.cached i = (view sb s).dinode i := (h.synced i hlt).getDinode_eq hlt
    by_cases h0 : ((view sb s).dinode i).type = 0
    · refine Or.inr ⟨.ilockNoType, ?_, htype (View.node_eq_none_iff.mpr h0)⟩
      change (if (getDinode sb s.cached i).type = 0 then panic Panic.ilockNoType else pure ⟨⟩ : FsM Unit) _ = _
      rw [hdip, if_pos h0]
      rfl
    · obtain ⟨hinv, hview⟩ := h.setEntry R (insert i L) (i := i) (n := s.inUse)
        (e := { s.inode i with locked := true, valid := true, d := getDinode sb s.cached i }) hlt
        (fun _ _ => rfl) hLne (h.ref i) h.inUse (fun _ => rfl) (fun _ => hi)
        (iff_of_true rfl (Or.inl rfl)) (fun _ => rfl) (fun _ => h0)
      refine Or.inl ⟨⟨⟩, _, ?_, hnot, ⟨_, View.node_of_ne h0⟩, hinv, quiet_of_setEntry hview fun _ _ => rfl⟩
      change (if (getDinode sb s.cached i).type = 0 then panic Panic.ilockNoType else pure ⟨⟩ : FsM Unit) _ = _
      rw [hdip, if_neg h0]
      rfl

theorem iunlock_spec (h : Table D sb R (insert i L) s) (hi : i ∉ L) :
    Ensures (iunlock i) s fun _ t => Table D sb R L t ∧ Quiet sb R s t := by
  have hin : i ∈ insert i L := Or.inl rfl
  have hmem := h.mem_of_locked hin
  have hpos := h.ref_pos hmem
  have hl := (h.locked i).mpr hin
  refine .get_bind (.ite (fun hcon => ?_) fun _ => ?_)
  · rw [hl] at hcon
    exact absurd (hcon.resolve_left nofun) (by omega)
  · obtain ⟨hinv, hview⟩ := h.setEntry R L (i := i) (n := s.inUse)
      (e := { s.inode i with locked := false }) (h.range i hmem) (fun _ _ => rfl)
      (fun j hj => ⟨Or.inr, fun hj' => hj'.resolve_left hj⟩) (h.ref i) h.inUse
      (h.synced i (h.range i hmem)) (fun _ => hmem) (iff_of_false nofun hi) nofun (h.allocated i)
    exact .set ⟨hinv, quiet_of_setEntry hview fun _ hv => hv⟩

/-! ## The last reference -/

/-- **`iput`** of an inode that is not to be freed. -/
theorem iput_spec (h : Table D sb (i ::ₘ R) L s) (hL : i ∈ L → i ∈ R)
    (hkeep : i ∉ R → (s.inode i).valid → ∀ x, files sb s i = some x → x.nlink ≠ 0) :
    Ensures (iput sb i) s fun _ t => Table D sb R L t ∧ Quiet sb R s t := by
  refine .get_bind (.ite (fun hlast => ?_) fun _ => dropRef_spec h hL)
  obtain ⟨href, hv, h0⟩ := hlast
  rw [h.ref, Multiset.count_cons_self] at href
  have hx := View.node_of_ne (h.allocated i hv)
  rw [← dinode_of_valid (h.range i (Multiset.mem_cons_self i R)) hv] at h0
  exact absurd h0 (hkeep (Multiset.count_eq_zero.mp (by omega)) hv _ hx)

/-- Inodes without links are among those that are held. -/
def Held (R : Multiset ℕ) (F : Files) : Prop := ∀ i x, F i = some x → x.nlink = 0 → i ∈ R

/-- **`iunlockput`** of an inode that is not to be freed. -/
theorem iunlockput_spec (h : Table D sb (i ::ₘ R) (insert i L) s) (hL : i ∉ L) (hheld : Held R (files sb s)) :
    Ensures (iunlockput sb i) s fun _ t => Table D sb R L t ∧ Quiet sb R s t := by
  refine .bind (iunlock_spec h hL) ?_
  rintro - t ⟨hinv, hquiet⟩
  refine (iput_spec hinv (fun hcon => absurd hcon hL) fun hnot _ x hx h0 => ?_).mono ?_
  · rw [hquiet.files] at hx
    exact hnot (hheld i x hx h0)
  · rintro - u ⟨hinv', hquiet'⟩
    exact ⟨hinv', hquiet.of_cons.trans hquiet'⟩

theorem Table.giveUp (hsb : sb.Ok) (hD : Robust sb D) (h : Table D sb (i ::ₘ R) (insert i L) s) (hL : i ∉ L) (hR : i ∉ R)
    (hst : Steady sb ∅ s t) (hremoves : (view sb s).Removes sb i (view sb t)) :
    Table D sb R L (t.setEntry i .free (t.inUse - 1)) ∧
      view sb (t.setEntry i .free (t.inUse - 1)) = view sb t := by
  have hne := fun {j} => State.setEntry_of_ne (s := t) (i := i) (j := j) (e := .free) (n := t.inUse - 1)
  have hsynced : ∀ j < sb.ninodes, Synced sb t j := fun j hj =>
    hst.synced j hj (Set.notMem_empty j) (h.synced j hj)
  have hsynced' : ∀ j < sb.ninodes, Synced sb (t.setEntry i .free (t.inUse - 1)) j := by
    intro j hj
    by_cases hji : j = i
    · rw [Synced, hji, State.setEntry_self]
      exact fun hcon => absurd hcon Bool.false_ne_true
    · rw [Synced, hne hji]
      exact hsynced j hj
  have hview : view sb (t.setEntry i .free (t.inUse - 1)) = view sb t :=
    view_eq_of_synced (by rfl) hsynced hsynced'
  have hlogged : Logged sb t := h.logged.of_empty hsb hst.clean (fun σ => if_pos hremoves.type)
    hremoves.others hremoves.dinode_of_ne
  refine ⟨⟨?_, hlogged.of_eq rfl rfl hview, hsynced', fun j => ?_, ?_, fun j hj => ?_, fun j hj => ?_,
    fun j => ?_, fun j hj => ?_, fun j hj => ?_⟩, hview⟩
  · rw [hview]
    exact hD.removes i _ _ h.sound hremoves
  · by_cases hji : j = i
    · rw [hji, State.setEntry_self, Multiset.count_eq_zero_of_notMem hR]
      rfl
    · rw [hne hji, hst.ref, h.ref, Multiset.count_cons_of_ne hji]
  · change t.inUse - 1 = _
    rw [hst.inUse, h.inUse, card_toFinset_cons_of_notMem hR]
    rfl
  · exact h.range j (Multiset.mem_cons_of_mem hj)
  · by_cases hji : j = i
    · rw [hji, State.setEntry_self] at hj
      cases hj
    · rw [hne hji, hst.valid] at hj
      exact (Multiset.mem_cons.mp (h.mem_of_valid j hj)).resolve_left hji
  · by_cases hji : j = i
    · rw [hji, State.setEntry_self]
      exact iff_of_false Bool.false_ne_true hL
    · rw [hne hji, hst.locked, h.locked]
      exact ⟨fun hin => hin.resolve_left hji, Or.inr⟩
  · have hji : j ≠ i := by
      rintro rfl
      exact hL hj
    rw [hne hji, hst.valid]
    exact h.valid j (Or.inr hj)
  · have hji : j ≠ i := by
      rintro rfl
      rw [State.setEntry_self] at hj
      cases hj
    rw [hne hji, hst.valid] at hj
    rw [hview, hremoves.dinode_of_ne j hji]
    exact h.allocated j hj

theorem acquiresleep_spec (h : Table D sb R L s) (hi : i < sb.ninodes) (hL : i ∉ L)
    (hv : (s.inode i).valid) :
    Ensures (acquiresleep i) s fun _ t => Table D sb R (insert i L) t ∧ Quiet sb R s t := by
  refine .get_bind (.ite (fun hl => absurd ((h.locked i).mp hl) hL) fun _ => ?_)
  obtain ⟨hinv, hview⟩ := h.setEntry R (insert i L) (i := i) (n := s.inUse)
    (e := { s.inode i with locked := true }) hi (fun _ _ => rfl)
    (fun j hj => ⟨fun hin => hin.resolve_left hj, Or.inr⟩) (h.ref i) h.inUse (h.synced i hi)
    (fun _ => h.mem_of_valid i hv) (iff_of_true rfl (Or.inl rfl)) (fun _ => hv) (h.allocated i)
  exact .set ⟨hinv, quiet_of_setEntry hview fun _ hv => hv⟩

/-- **`iput`** of the last reference to an inode without links. -/
theorem iput_free_spec (hsb : sb.Ok) (hD : Robust sb D) (h : Table D sb (i ::ₘ R) L s) (hL : i ∉ L) (hR : i ∉ R)
    (hv : (s.inode i).valid) (hx : files sb s i = some x) (h0 : x.nlink = 0) :
    Ensures (iput sb i) s fun _ t => Table D sb R L t ∧ (view sb s).Removes sb i (view sb t) ∧
      ∀ j ∈ R, (s.inode j).valid → (t.inode j).valid := by
  have hi : i < sb.ninodes := h.range i (Multiset.mem_cons_self i R)
  refine .get_bind (.ite (fun _ => ?_) fun hcon => absurd ⟨?_, hv, ?_⟩ hcon)
  swap
  · rw [h.ref, Multiset.count_cons_self, Multiset.count_eq_zero_of_notMem hR]
  swap
  · rw [← dinode_of_valid hi hv, View.nlink_of_node hx, h0]
  rw [ifree, bind_assoc]
  refine .bind (acquiresleep_spec h hi hL hv) ?_
  rintro - s₁ ⟨hinv, hquiet⟩
  have hin : i ∈ insert i L := Or.inl rfl
  have hv₁ := hinv.valid i hin
  rw [bind_assoc]
  refine .bind (itrunc_spec hsb hi (hD.ok _ hinv.sound) hv₁ (hinv.allocated i hv₁)) ?_
  rintro - t ⟨hst, -, htrunc⟩
  have hvt : (t.inode i).valid := by
    rw [hst.valid]
    exact hv₁
  rw [bind_assoc, bind_assoc, ← bind_assoc]
  refine .bind (saveInode_spec hsb hi hvt fun ip => { ip with type := 0 }) ?_
  rintro - u ⟨hst', -, hview'⟩
  have hremoves : (view sb s₁).Removes sb i (view sb u) := by
    rw [hview']
    exact htrunc.removes
  have hsteady := hst.trans hst'
  obtain ⟨hinvu, hviewu⟩ := hinv.giveUp hsb hD hL hR hsteady hremoves
  -- the entry is given up in two steps
  refine .modify_bind (.modify ?_)
  have hlast : ((u.setInode i { u.inode i with valid := false, locked := false }).inode i).ref ≤ 1 := by
    have hself : (u.setInode i { u.inode i with valid := false, locked := false }).inode i =
      { u.inode i with valid := false, locked := false } := Function.update_self ..
    rw [hself]
    change (u.inode i).ref ≤ 1
    rw [hsteady.ref, hinv.ref, Multiset.count_cons_self, Multiset.count_eq_zero_of_notMem hR]
  have hset : ({ (u.setInode i { u.inode i with valid := false, locked := false }).setInode i .free with
      inUse := u.inUse - 1 } : State) = u.setEntry i .free (u.inUse - 1) := by
    simp only [State.setEntry, State.setInode, Function.update_idem]
  rw [if_pos hlast]
  have hend : Table D sb R L (u.setEntry i .free (u.inUse - 1)) ∧
      (view sb s).Removes sb i (view sb (u.setEntry i .free (u.inUse - 1))) ∧
      ∀ j ∈ R, (s.inode j).valid → ((u.setEntry i .free (u.inUse - 1)).inode j).valid := by
    refine ⟨hinvu, ?_, fun j hj hvj => ?_⟩
    · rw [hviewu, ← hquiet.view]
      exact hremoves
    · have hji : j ≠ i := by
        rintro rfl
        exact hR hj
      rw [State.setEntry_of_ne hji, hsteady.valid]
      exact hquiet.valid j (Multiset.mem_cons_of_mem hj) hvj
  rw [← hset] at hend
  exact hend

/-- The files after a reference to file `i` has been given up and `R` are left. -/
def Files.drop (F : Files) (R : Multiset ℕ) (i : ℕ) : Files :=
  match F i with
  | none => F
  | some x => if x.nlink = 0 ∧ i ∉ R then Function.update F i none else F

section Drop

variable {F : Files}

theorem Files.drop_of_last (hx : F i = some x) (h0 : x.nlink = 0) (hi : i ∉ R) :
    F.drop R i = Function.update F i none := by
  simp only [drop, hx]
  exact if_pos ⟨h0, hi⟩

theorem Files.drop_cases (F : Files) (R : Multiset ℕ) (i : ℕ) :
    F.drop R i = F ∨ i ∉ R ∧ F.drop R i = Function.update F i none := by
  cases hx : F i with
  | none =>
    left
    simp only [drop, hx]
  | some x =>
    by_cases hlast : x.nlink = 0 ∧ i ∉ R
    · exact Or.inr ⟨hlast.2, drop_of_last hx hlast.1 hlast.2⟩
    · left
      simp only [drop, hx]
      exact if_neg hlast

theorem Files.drop_ne_none (hj : j ∈ R) (h : F j ≠ none) : F.drop R i j ≠ none := by
  rcases F.drop_cases R i with hsame | ⟨hnot, hdrop⟩
  · rw [hsame]
    exact h
  · have hji : j ≠ i := by
      rintro rfl
      exact hnot hj
    rw [hdrop, Function.update_of_ne hji]
    exact h

theorem Files.of_drop (h : F.drop R i j = some x) : F j = some x := by
  rcases F.drop_cases R i with hsame | ⟨-, hdrop⟩
  · rwa [hsame] at h
  · rw [hdrop, Function.update_apply] at h
    split at h
    · exact nomatch h
    · exact h

theorem Held.drop (h : Held (i ::ₘ R) F) : Held R (F.drop R i) := by
  intro j y hy h0
  have hy' := Files.of_drop hy
  rcases Multiset.mem_cons.mp (h j y hy' h0) with rfl | hj
  · by_contra hnot
    rw [Files.drop_of_last hy' h0 hnot, Function.update_self] at hy
    exact nomatch hy
  · exact hj

end Drop

/-- What was valid of `R` in `s` is so still. -/
def Kept (R : Multiset ℕ) (s t : State) : Prop := ∀ i ∈ R, (s.inode i).valid → (t.inode i).valid

theorem Kept.trans (h : Kept R s t) (h' : Kept R t u) : Kept R s u := fun i hi hv =>
  h' i hi (h i hi hv)

theorem Kept.of_eq (h : ∀ i, (t.inode i).valid = (s.inode i).valid) : Kept R s t := fun i _ hv => by
  rw [h]
  exact hv

theorem Kept.of_cons (h : Kept (i ::ₘ R) s t) : Kept R s t := fun j hj =>
  h j (Multiset.mem_cons_of_mem hj)

/-- **`iput`** of an inode that has been locked before. -/
theorem put_spec (hsb : sb.Ok) (h : Inv sb (i ::ₘ R) L s) (hL : i ∉ L) (hv : (s.inode i).valid) :
    Ensures (iput sb i) s fun _ t => Inv sb R L t ∧ files sb t = (files sb s).drop R i ∧ Kept R s t := by
  obtain ⟨x, hx⟩ : ∃ x, files sb s i = some x := ⟨_, View.node_of_ne (h.allocated i hv)⟩
  by_cases hlast : x.nlink = 0 ∧ i ∉ R
  · refine (iput_free_spec hsb (robust_sound sb) h hL hlast.2 hv hx hlast.1).mono ?_
    rintro - t ⟨hinv, hremoves, hkept⟩
    refine ⟨hinv, ?_, hkept⟩
    rw [Files.drop_of_last hx hlast.1 hlast.2]
    exact hremoves.node
  · refine (iput_spec h (fun hcon => absurd hcon hL) fun hnot _ y hy h0 => ?_).mono ?_
    · obtain rfl := Option.some_inj.mp (hx.symm.trans hy)
      exact hlast ⟨h0, hnot⟩
    · rintro - t ⟨hinv, hquiet⟩
      refine ⟨hinv, ?_, hquiet.valid⟩
      have hdrop : (files sb s).drop R i = files sb s := by
        simp only [Files.drop, hx]
        exact if_neg hlast
      rw [hquiet.files, hdrop]

theorem unlockPut_spec (hsb : sb.Ok) (h : Inv sb (i ::ₘ R) (insert i L) s) (hL : i ∉ L) :
    Ensures (iunlockput sb i) s fun _ t =>
      Inv sb R L t ∧ files sb t = (files sb s).drop R i ∧ Kept R s t := by
  refine .bind (iunlock_spec h hL) ?_
  rintro - t ⟨hinv, hquiet⟩
  have hv : (t.inode i).valid := hquiet.valid i (Multiset.mem_cons_self i R) (h.valid i (Or.inl rfl))
  refine (put_spec hsb hinv hL hv).mono ?_
  rintro - u ⟨hinv', hfiles, hkept⟩
  exact ⟨hinv', by rw [hfiles, hquiet.files], Kept.trans hquiet.of_cons.valid hkept⟩

/-! ## New inodes -/

theorem giveType_spec (hsb : sb.Ok) (h : Inv sb R L s) (hpos : 0 < i) (hi : i < sb.ninodes)
    (h0 : ((view sb s).dinode i).type = 0) {type : UInt16} (htype : type ≠ 0) :
    Ensures (do
      modify fun s => { s with cached := putDinode sb s.cached i { Dinode.zero with type := type } }
      logWrite (sb.IBLOCK i)) s fun _ t => Inv sb R L t ∧ t.inode = s.inode ∧
        view sb t = (view sb s).setDinode i { Dinode.zero with type := type } := by
  have hv : (s.inode i).valid = false := by
    cases hv : (s.inode i).valid with
    | false => rfl
    | true => exact absurd h0 (h.allocated i hv)
  have hview := view_putDinode hsb hi hv { Dinode.zero with type := type }
  refine .modify_bind (.modify ?_)
  have hst : Steady sb {i} s { s with
      cached := putDinode sb s.cached i { Dinode.zero with type := type }
      logged := Function.update s.logged (sb.IBLOCK i)
        (putDinode sb s.cached i { Dinode.zero with type := type } (sb.IBLOCK i))
      written := s.written ++ [sb.IBLOCK i] } := by
    refine steady_of_update (fun j _ hj => ?_) rfl rfl fun c hc => ?_
    · change getDinode sb (putDinode sb s.cached i _) j = _
      rw [getDinode_putDinode, if_neg (by exact hj)]
    · refine dirty_of_update (s := s) (b := sb.IBLOCK i)
        (m := Dinode.encode { Dinode.zero with type := type } (s.cached (sb.IBLOCK i)) (64 * (i % 16)))
        rfl ?_ c hc
      change Function.update s.logged _ (putDinode sb s.cached i _ _) = _
      rw [putDinode, Function.update_self]
  refine ⟨h.of_steady (Steady.of_synced (i := i) (by rwa [insert_empty_eq]) ?_) ?_ ?_ ?_, rfl, hview⟩
  · intro hcon
    change (s.inode i).valid = true at hcon
    rw [hv] at hcon
    cases hcon
  · exact hview ▸ h.sound.allocInode h0 htype hpos
  · have hslot := (congrArg View.slot hview).trans (View.slot_allocInode _ h0)
    exact h.logged.of_empty (i := i) hsb hst.clean (fun σ => (congrFun hslot (i, σ)).trans (if_pos h0))
      (fun j σ _ => congrFun hslot (j, σ))
      fun j hj => (congrFun (congrArg View.dinode hview) j).trans (Function.update_of_ne hj ..)
  · intro j hj
    have hdinode := congrFun (congrArg View.dinode hview) j
    rw [View.setDinode_dinode, Function.update_apply] at hdinode
    refine ne_of_eq_of_ne (congrArg Dinode.type hdinode) ?_
    split
    · exact htype
    · exact hj

/-- From inode `inum` on, **`ialloc`** takes the first that is free. -/
theorem iallocFrom_spec (hsb : sb.Ok) (h : Inv sb R L s) (hE : E .igetNoInodes) {type : UInt16}
    (htype : type ≠ 0) (turns inum : ℕ) (hpos : 0 < inum) (hle : inum + turns ≤ sb.ninodes) :
    Yields E (iallocFrom sb type turns inum) s fun r t =>
      match r with
      | none => t = s ∧ ∀ j, inum ≤ j → j < inum + turns → files sb s j ≠ none
      | some i => 0 < i ∧ files sb s i = none ∧
        files sb t = Function.update (files sb s) i (some ⟨type, 0, 0, 0, []⟩) ∧
        Inv sb (i ::ₘ R) L t ∧ ∀ j ∈ R, (s.inode j).valid → (t.inode j).valid := by
  induction turns generalizing inum with
  | zero => exact .pure ⟨rfl, fun j hle hlt => absurd hlt (by omega)⟩
  | succ turns ih =>
    have hi : inum < sb.ninodes := by omega
    have hdip : getDinode sb s.cached inum = (view sb s).dinode inum := (h.synced inum hi).getDinode_eq hi
    refine .get_bind (.ite (fun h0 => ?_) fun h0 => ?_)
    · rw [hdip] at h0
      rw [← bind_assoc]
      refine .bind (giveType_spec hsb h hpos hi h0 htype).yields ?_
      rintro - t ⟨hinv, hinode, hview⟩
      refine .bind (iget_spec hinv hi hE) ?_
      rintro r u ⟨rfl, hinv', hquiet, -⟩
      refine .pure ⟨hpos, View.node_eq_none_iff.mpr h0, ?_, hinv', fun j hj hv => ?_⟩
      · rw [hquiet.files, files, hview]
        exact View.node_allocInode h0 htype
      · exact hquiet.valid j hj (by rwa [hinode])
    · refine (ih (inum + 1) (by omega) (by omega)).mono fun r t hr => ?_
      cases r with
      | none =>
        refine ⟨hr.1, fun j hj hlt => ?_⟩
        by_cases hji : j = inum
        · rw [hji]
          intro hcon
          rw [hdip] at h0
          exact h0 (View.node_eq_none_iff.mp hcon)
        · exact hr.2 j (by omega) (by omega)
      | some i => exact hr

theorem ialloc_spec (hsb : sb.Ok) (h : Inv sb R L s) (hE : E .igetNoInodes) {type : UInt16}
    (htype : type ≠ 0) :
    Yields E (ialloc sb type) s fun r t =>
      match r with
      | none => t = s
      | some i => 0 < i ∧ files sb s i = none ∧
        files sb t = Function.update (files sb s) i (some ⟨type, 0, 0, 0, []⟩) ∧
        Inv sb (i ::ₘ R) L t ∧ ∀ j ∈ R, (s.inode j).valid → (t.inode j).valid := by
  have hroot := hsb.root
  refine (iallocFrom_spec hsb h hE htype (sb.ninodes - 1) 1 Nat.one_pos (by omega)).mono fun r t hr => ?_
  cases r with
  | none => exact hr.1
  | some i => exact hr

/-! ## Changes to a locked inode -/

section Locked

variable (hsb : sb.Ok) (h : Inv sb R L s) (hi : i ∈ L) (hx : files sb s i = some x)

include hsb h hi hx

theorem save_spec {f : Dinode → Dinode} (hf : ∀ d, View.SameShape d (f d)) :
    Ensures (do modifyInode i f; iupdate sb i) s fun _ t => Inv sb R L t ∧
      files sb t = Function.update (files sb s) i (some { x with
        major := (f ((view sb s).dinode i)).major, minor := (f ((view sb s).dinode i)).minor
        nlink := (f ((view sb s).dinode i)).nlink }) ∧
      ∀ j, (t.inode j).valid = (s.inode j).valid := by
  refine (saveInode_spec hsb (h.lt_of_locked hi) (h.valid i hi) f).mono ?_
  rintro - t ⟨hst, -, hview⟩
  have hshape := hf ((view sb s).dinode i)
  refine ⟨h.of_steady hst ?_ ?_ fun j hj => ?_, ?_, hst.valid⟩
  · rw [hview]
    exact h.sound.setFields hshape hx
  · refine h.logged.congr ?_ (fun j => ?_) hst.clean
    · rw [hview, View.slot_setFields hshape]
    · rw [hview, View.setDinode_dinode, Function.update_apply]
      split
      · rename_i hji
        rw [hshape.type, hji]
      · rfl
  · rw [hview, View.setDinode_dinode, Function.update_apply]
    split
    · rename_i hji
      rw [hshape.type]
      exact hji ▸ hj
    · exact hj
  · rw [files, hview, View.node_setFields hshape hx]
    rfl

theorem truncate_spec (hfile : x.type ≠ .ofNat T_DIR) :
    Ensures (itrunc sb i) s fun _ t => Inv sb R L t ∧
      files sb t = Function.update (files sb s) i (some { x with content := [] }) ∧
      ∀ j, (t.inode j).valid = (s.inode j).valid := by
  have hv := h.valid i hi
  refine (itrunc_spec hsb (h.lt_of_locked hi) h.sound.ok hv (h.allocated i hv)).mono ?_
  rintro - t ⟨hst, -, htrunc⟩
  have hlogged : Logged sb t :=
    h.logged.of_empty hsb hst.clean htrunc.empty htrunc.others htrunc.dinode_of_ne
  obtain ⟨hinv, hfiles⟩ := h.updates hst hlogged htrunc.updates hx fun hdir => absurd hdir hfile
  exact ⟨hinv, hfiles, hst.valid⟩

end Locked

end Xv6.Fs
