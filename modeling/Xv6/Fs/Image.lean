import Xv6.Fs.NameCalls

/-!
# A small disk

A disk with a root directory that holds `"."`, `".."` and an empty file `"f"`, for the concrete runs of the
calls.  When it has been started no inode is in memory, so the invariant is what holds of the disk.
-/

namespace Xv6.Fs

open Bytes Program Slots

variable {sb : Superblock}

/-- The state when nothing is in memory. -/
def booted (d : Disk) : State := ⟨d, d, [], fun _ => .free, 0⟩

theorem table_booted {D : View → Prop} {d : Disk} (h : D (view sb (booted d))) :
    Table D sb 0 ∅ (booted d) where
  sound := h
  logged _ hb := absurd rfl hb
  synced _ _ := nofun
  ref i := (Multiset.count_zero i).symm
  inUse := rfl
  range i hi := absurd hi (Multiset.notMem_zero i)
  mem_of_valid _ := nofun
  locked i := iff_of_false nofun (Set.notMem_empty i)
  valid i hi := absurd hi (Set.notMem_empty i)
  allocated _ := nofun

/-- The root directory: its block is the first data block. -/
def rootInode : Dinode := ⟨1, 0, 0, 1, 48, fun k => if k = 0 then 4 else 0⟩

/-- An empty file with one link. -/
def emptyFile : Dinode := ⟨2, 0, 0, 1, 0, fun _ => 0⟩

/-- The name `"f"`. -/
def nameF : Mem := constName [102]

/-- The entries of the root directory. -/
def rootContent : List UInt8 :=
  direntBytes dot 1 ++ direntBytes dotdot 1 ++ direntBytes nameF 2

/-- The disk: five blocks are marked in the free map, inodes 1 and 2 are in use. -/
def smallDisk : Disk :=
  putDinode tiny (putDinode tiny
    (fun b o => if b = 3 ∧ o = 0 then 31 else if b = 4 then rootContent.getD o 0 else 0) 1 rootInode) 2 emptyFile

section Small

theorem small_dinode_root : (view tiny (booted smallDisk)).dinode 1 = rootInode := by
  change getDinode tiny smallDisk 1 = _
  rw [smallDisk, getDinode_putDinode, if_neg (by decide), getDinode_putDinode, if_pos rfl]

theorem small_dinode_file : (view tiny (booted smallDisk)).dinode 2 = emptyFile := by
  change getDinode tiny smallDisk 2 = _
  rw [smallDisk, getDinode_putDinode, if_pos rfl]

theorem small_type {i : ℕ} (h1 : i ≠ 1) (h2 : i ≠ 2) :
    ((view tiny (booted smallDisk)).dinode i).type = 0 := by
  have hall : ∀ i < 16, i ≠ 1 → i ≠ 2 → ((view tiny (booted smallDisk)).dinode i).type = 0 := by
    decide +kernel
  by_cases hi : i < 16
  · exact hall i hi h1 h2
  · exact congrArg Dinode.type (if_neg hi)

theorem small_slot (x : ℕ × Slot) :
    (view tiny (booted smallDisk)).slot x = if x = (1, .direct 0) then 4 else 0 := by
  obtain ⟨i, σ⟩ := x
  have hroot : ∀ k, 0 < k → rootInode.addr k = 0 := by
    intro k hk
    by_cases hlt : k < 13
    · have hall : ∀ k < 13, 0 < k → rootInode.addr k = 0 := by decide
      exact hall k hlt hk
    · exact Dinode.addr_of_le (by omega)
  have hfile : ∀ k, emptyFile.addr k = 0 := by
    intro k
    by_cases hlt : k < 13
    · have hall : ∀ k < 13, emptyFile.addr k = 0 := by decide
      exact hall k hlt
    · exact Dinode.addr_of_le (by omega)
  by_cases h1 : i = 1
  · subst h1
    rw [View.slot_of_allocated (by rw [small_dinode_root]; decide), small_dinode_root]
    cases σ with
    | direct k =>
      rw [Dinode.place]
      by_cases hk : k = 0
      · subst hk
        rfl
      · rw [hroot k (by omega), ite_self, if_neg (by simpa using hk)]
    | indirect => exact hroot 12 (by omega)
    | entry k => rw [Dinode.place, if_neg fun hcon => hcon.2 (hroot 12 (by omega))]; rfl
  · rw [if_neg (by simp [h1])]
    by_cases h2 : i = 2
    · subst h2
      rw [View.slot_of_allocated (by rw [small_dinode_file]; decide), small_dinode_file]
      cases σ with
      | direct k =>
        rw [Dinode.place, hfile]
        exact ite_self 0
      | indirect => exact hfile 12
      | entry k => rw [Dinode.place, if_neg fun hcon => hcon.2 (hfile 12)]
    · exact if_pos (small_type h1 h2)

theorem small_dir : DirOk 16 rootContent := by
  refine ⟨by decide +kernel, by decide +kernel, fun k hk l hl _ _ => ?_⟩
  have hunique : ∀ k < 3, ∀ l < 3,
      nameOf (entry rootContent k).name = nameOf (entry rootContent l).name → k = l := by
    decide +kernel
  exact hunique k hk l hl

/-- The root directory. -/
def rootNode : Node := ⟨1, 0, 0, 1, rootContent⟩

theorem small_root : files tiny (booted smallDisk) 1 = some rootNode := by
  have hcontent : (view tiny (booted smallDisk)).content 1 = rootContent := by decide +kernel
  have htype : ((view tiny (booted smallDisk)).dinode 1).type ≠ 0 := by
    rw [small_dinode_root]
    decide
  rw [files, View.node_of_ne htype, small_dinode_root, hcontent]
  rfl

theorem small_file : files tiny (booted smallDisk) 2 = some ⟨2, 0, 0, 1, []⟩ := by
  have hcontent : (view tiny (booted smallDisk)).content 2 = [] := by decide +kernel
  have htype : ((view tiny (booted smallDisk)).dinode 2).type ≠ 0 := by
    rw [small_dinode_file]
    decide
  rw [files, View.node_of_ne htype, small_dinode_file, hcontent]
  rfl

theorem small_none {i : ℕ} (h1 : i ≠ 1) (h2 : i ≠ 2) : files tiny (booted smallDisk) i = none :=
  View.node_eq_none_iff.mpr (small_type h1 h2)

theorem small_sound : (view tiny (booted smallDisk)).Sound tiny := by
  have hused : ∀ b < 16, ((view tiny (booted smallDisk)).used b = true ↔ b < 5) := by decide +kernel
  have hdata : tiny.datastart = 4 := rfl
  refine ⟨⟨fun b hb => (hused b (by omega)).mpr (by omega), fun x hx => ?_, fun x hx => ?_,
    fun x y heq hx => ?_⟩, fun b hb hb' => ?_, fun i hi bn hbn => ?_, fun i x hx hdir => ?_,
    small_type (by decide) (by decide)⟩
  · rw [small_slot] at hx ⊢
    split at hx
    · rw [if_pos ‹_›]
      decide
    · exact absurd rfl hx
  · rw [small_slot] at hx ⊢
    split at hx
    · rw [if_pos ‹_›]
      exact (hused 4 (by decide)).mpr (by decide)
    · exact absurd rfl hx
  · rw [small_slot] at hx heq
    rw [small_slot] at heq
    split at hx
    · rename_i hx'
      rw [if_pos hx'] at heq
      split at heq
      · rename_i hy
        rw [hx', hy]
      · cases heq
    · exact absurd rfl hx
  · have hlt := (hused b hb).mp hb'
    by_cases h4 : b = 4
    · refine Or.inr (Or.inl ⟨by omega, (1, .direct 0), ?_⟩)
      rw [small_slot, if_pos rfl, h4]
    · exact Or.inl (by omega)
  · by_cases h1 : i = 1
    · subst h1
      rw [View.size, small_dinode_root] at hbn
      have hsize : rootInode.size.toNat = 48 := rfl
      obtain rfl : bn = 0 := by omega
      rw [View.block, small_slot]
      decide
    · by_cases h2 : i = 2
      · subst h2
        rw [View.size, small_dinode_file] at hbn
        exact absurd hbn (Nat.not_lt_zero _)
      · exact absurd (small_type h1 h2) hi
  · by_cases h1 : i = 1
    · subst h1
      obtain rfl := Option.some_inj.mp (small_root.symm.trans hx)
      exact small_dir
    · by_cases h2 : i = 2
      · subst h2
        obtain rfl := Option.some_inj.mp (small_file.symm.trans hx)
        exact absurd hdir (by decide)
      · cases (small_none h1 h2).symm.trans hx

end Small

/-- The first process is in the root directory. -/
def small : State := (booted smallDisk).setEntry 1 { Inode.free with ref := 1 } 1

theorem small_inv : Inv tiny {1} ∅ small := by
  have hget := iget_spec (E := fun _ => True) (table_booted small_sound) (i := 1) (by decide) trivial
  exact (hget.of_run (show iget 1 (booted smallDisk) = .ok (1, small) from rfl)).2.1

theorem small_files : files tiny small = files tiny (booted smallDisk) := by
  have hget := iget_spec (E := fun _ => True) (table_booted small_sound) (i := 1) (by decide) trivial
  exact (hget.of_run (show iget 1 (booted smallDisk) = .ok (1, small) from rfl)).2.2.1.files

theorem small_nlink {i : ℕ} {x : Node} (hx : files tiny small i = some x) : x.nlink ≠ 0 := by
  rw [small_files] at hx
  by_cases h1 : i = 1
  · subst h1
    obtain rfl := Option.some_inj.mp (small_root.symm.trans hx)
    decide
  · by_cases h2 : i = 2
    · subst h2
      obtain rfl := Option.some_inj.mp (small_file.symm.trans hx)
      decide
    · exact nomatch (small_none h1 h2).symm.trans hx

theorem small_rest : Rest tiny {1} small where
  inv := small_inv
  settled _ _ hx h0 := absurd h0 (small_nlink hx)
  live i hi := by
    obtain rfl := Multiset.mem_singleton.mp hi
    rw [small_files, small_root]
    exact nofun

theorem small_held : Held {1} (files tiny small) := fun _ _ hx h0 => absurd h0 (small_nlink hx)

end Xv6.Fs
