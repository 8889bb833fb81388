import Xv6.Fs.Image

/-!
# Orphans

After a crash there can be inodes without links that are still allocated.  When the file system has been
recovered, `ireclaim` looks for them and frees them, through the last-reference test of `iput`.

The scan reads inode blocks that the freeing changes.  But it changes them only at the inode that the scan
has just come to, so what is freed are the inodes that were orphans at the start
(`View.RemovesAll`).
-/

namespace Xv6.Fs

open Bytes Program

section Model

variable (sb : Superblock)

/-- A turn of `ireclaim`. -/
def ireclaimAt (inum : ℕ) : FsM Unit := do
  let s ← get
  let dip := getDinode sb s.cached inum
  if dip.type ≠ 0 ∧ dip.nlink = 0 then
    -- is an orphaned inode
    let ip ← iget inum
    ilock sb ip
    iunlock ip
    iput sb ip

def ireclaim : FsM Unit := forUp (ireclaimAt sb) 1 (sb.ninodes - 1)

end Model

variable {sb : Superblock} {v w x : View} {s : State} {i : ℕ} {S T : ℕ → Prop}

namespace View

/-- An allocated inode without links. -/
def Orphan (v : View) (i : ℕ) : Prop := (v.dinode i).type ≠ 0 ∧ (v.dinode i).nlink = 0

/-- Blocks have one owner, and those that are marked have one. -/
def Owned (sb : Superblock) (v : View) : Prop := v.Ok sb ∧ v.Exact sb ∅

/-- From `v` to `w` the inodes in `S` and their blocks have been freed. -/
structure RemovesAll (S : ℕ → Prop) (v w : View) : Prop where
  type : ∀ j, S j → (w.dinode j).type = 0
  dinode_of_not : ∀ j, ¬ S j → w.dinode j = v.dinode j
  slot_of_not : ∀ j σ, ¬ S j → w.slot (j, σ) = v.slot (j, σ)
  data : w.data = v.data
  used : ∀ c, w.used c = true ↔ v.used c = true ∧ ∀ j σ, S j → v.slot (j, σ) = c → c = 0

theorem RemovesAll.none (h : ∀ j, ¬ S j) : RemovesAll S v v :=
  ⟨fun j hj => absurd hj (h j), fun _ _ => rfl, fun _ _ _ => rfl, rfl,
    fun _ => ⟨fun hc => ⟨hc, fun j _ hj => absurd hj (h j)⟩, And.left⟩⟩

theorem RemovesAll.congr (h : RemovesAll S v w) (hST : ∀ j, T j ↔ S j) : RemovesAll T v w := by
  obtain rfl : T = S := funext fun j => propext (hST j)
  exact h

theorem RemovesAll.insert (h : RemovesAll S v w) (h' : Removes sb i w x) (hi : ¬ S i)
    (hT : ∀ j, T j ↔ S j ∨ j = i) : RemovesAll T v x where
  type j hj := by
    by_cases hji : j = i
    · exact hji ▸ h'.type
    · rw [h'.dinode_of_ne j hji]
      exact h.type j (((hT j).mp hj).resolve_right hji)
  dinode_of_not j hj := by
    rw [hT, not_or] at hj
    rw [h'.dinode_of_ne j hj.2, h.dinode_of_not j hj.1]
  slot_of_not j σ hj := by
    rw [hT, not_or] at hj
    rw [h'.others j σ hj.2, h.slot_of_not j σ hj.1]
  data := h'.data.trans h.data
  used c := by
    rw [h'.used, h.used]
    constructor
    · rintro ⟨⟨hc, hall⟩, hi'⟩
      refine ⟨hc, fun j σ hj hσ => ?_⟩
      rcases (hT j).mp hj with hj | rfl
      · exact hall j σ hj hσ
      · exact hi' σ ((h.slot_of_not j σ hi).trans hσ)
    · rintro ⟨hc, hall⟩
      refine ⟨⟨hc, fun j σ hj => hall j σ ((hT j).mpr (Or.inl hj))⟩, fun σ hσ => ?_⟩
      exact hall i σ ((hT i).mpr (Or.inr rfl)) ((h.slot_of_not i σ hi).symm.trans hσ)

end View

theorem robust_owned (sb : Superblock) : Robust sb (View.Owned sb) :=
  ⟨fun _ h => h.1, fun _ _ _ h h' => ⟨h'.ok, h'.exact_of ∅ h.2⟩⟩

theorem ireclaimAt_orphan (hsb : sb.Ok) (h : Table (View.Owned sb) sb 0 ∅ s) (hi : i < sb.ninodes)
    (horphan : (view sb s).Orphan i) :
    Ensures (ireclaimAt sb i) s fun _ t => Table (View.Owned sb) sb 0 ∅ t ∧
      (view sb s).Removes sb i (view sb t) := by
  have hdip : getDinode sb s.cached i = (view sb s).dinode i := (h.synced i hi).getDinode_eq hi
  have hx : files sb s i = some _ := View.node_of_ne horphan.1
  refine .get_bind ?_
  dsimp only
  rw [hdip]
  refine .ite (fun _ => ?_) fun hcon => absurd horphan hcon
  refine Yields.ensures ?_
  refine .bind (iget_yields h hi fun hfull => absurd hfull (by decide)) ?_
  rintro r t ⟨rfl, hinv, hquiet, -⟩
  have hempty : r ∉ (∅ : Set ℕ) := Set.notMem_empty r
  refine .bind (ilock_spec hinv (Multiset.mem_cons_self r 0) (fun hcon => absurd hcon hempty) fun h0 => ?_) ?_
  · rw [hquiet.files, hx] at h0
    exact nomatch h0
  rintro - u ⟨-, -, hinv_u, hquiet_u⟩
  refine .bind (iunlock_spec hinv_u hempty).yields ?_
  rintro - q ⟨hinv_q, hquiet_q⟩
  have hview : view sb q = view sb s := hquiet_q.view.trans (hquiet_u.view.trans hquiet.view)
  have hv : (q.inode r).valid :=
    hquiet_q.valid r (Multiset.mem_cons_self r 0) (hinv_u.valid r (Or.inl rfl))
  have hx_q : files sb q r = some _ := (congrFun (congrArg View.node hview) r).trans hx
  refine ((iput_free_spec hsb (robust_owned sb) hinv_q hempty (Multiset.notMem_zero r) hv hx_q
    horphan.2).mono ?_).yields
  rintro - p ⟨hinv_p, hremoves, -⟩
  exact ⟨hinv_p, hview ▸ hremoves⟩

/-- **A turn of `ireclaim`.**  Before it the orphans below `i` have been freed. -/
theorem ireclaimAt_spec (hsb : sb.Ok) (h : Table (View.Owned sb) sb 0 ∅ s) (hi : i < sb.ninodes)
    (hpos : 0 < i) (hremoved : v.RemovesAll (fun j => 0 < j ∧ j < i ∧ v.Orphan j) (view sb s)) :
    Ensures (ireclaimAt sb i) s fun _ t => Table (View.Owned sb) sb 0 ∅ t ∧
      v.RemovesAll (fun j => 0 < j ∧ j < i + 1 ∧ v.Orphan j) (view sb t) := by
  have hsame : (view sb s).dinode i = v.dinode i :=
    hremoved.dinode_of_not i fun hcon => absurd hcon.2.1 (lt_irrefl i)
  by_cases horphan : v.Orphan i
  · refine (ireclaimAt_orphan hsb h hi (by rwa [View.Orphan, hsame])).mono ?_
    rintro - t ⟨hinv, hremoves⟩
    refine ⟨hinv, hremoved.insert hremoves (fun hcon => absurd hcon.2.1 (lt_irrefl i)) fun j => ?_⟩
    constructor
    · rintro ⟨hj, hlt, ho⟩
      by_cases hji : j = i
      · exact Or.inr hji
      · exact Or.inl ⟨hj, by omega, ho⟩
    · rintro (⟨hj, hlt, ho⟩ | rfl)
      · exact ⟨hj, by omega, ho⟩
      · exact ⟨hpos, by omega, horphan⟩
  · have hdip : getDinode sb s.cached i = v.dinode i := ((h.synced i hi).getDinode_eq hi).trans hsame
    refine .get_bind ?_
    dsimp only
    rw [hdip]
    refine .ite (fun hcon => absurd hcon horphan) fun _ => .pure ⟨h, hremoved.congr fun j => ?_⟩
    refine and_congr_right fun _ => ⟨fun ⟨hlt, ho⟩ => ⟨?_, ho⟩, fun ⟨hlt, ho⟩ => ⟨by omega, ho⟩⟩
    have hji : j ≠ i := by
      rintro rfl
      exact horphan ho
    omega

/-- **The recovery of orphans is exact.**  On a disk whose blocks have one owner each, and on which nothing
else is marked, `ireclaim` does not panic.  Afterwards there is no orphan; every inode that was one is free,
and so are its blocks, its indirect block and the blocks in that; no other inode has changed, no block has
another content, and no other bit of the free map has changed.  There is no inode in memory. -/
theorem ireclaim_exact (hsb : sb.Ok) {d : Disk} (h : (view sb (booted d)).Owned sb) :
    Ensures (ireclaim sb) (booted d) fun _ t =>
      (∀ i, 0 < i → ¬ (view sb t).Orphan i) ∧
      (∀ i, 0 < i → (view sb (booted d)).Orphan i → ((view sb t).dinode i).type = 0 ∧
        ∀ σ, (view sb (booted d)).slot (i, σ) ≠ 0 →
          (view sb t).used ((view sb (booted d)).slot (i, σ)) = false) ∧
      (∀ i, ¬ (0 < i ∧ (view sb (booted d)).Orphan i) →
        (view sb t).dinode i = (view sb (booted d)).dinode i) ∧
      (view sb t).data = (view sb (booted d)).data ∧
      (∀ b, (∀ i σ, 0 < i → (view sb (booted d)).Orphan i → (view sb (booted d)).slot (i, σ) ≠ b) →
        (view sb t).used b = (view sb (booted d)).used b) ∧
      (view sb t).Owned sb ∧ (∀ i, (t.inode i).ref = 0) ∧ t.inUse = 0 := by
  have hroot : 1 < sb.ninodes := hsb.root
  refine (Ensures.forUp (I := fun i t => Table (View.Owned sb) sb 0 ∅ t ∧
    (view sb (booted d)).RemovesAll (fun j => 0 < j ∧ j < i ∧ (view sb (booted d)).Orphan j) (view sb t))
    ⟨table_booted h, .none fun j hj => by omega⟩ ?_).mono ?_
  · rintro i t hle hlt ⟨hinv, hremoved⟩
    exact ireclaimAt_spec hsb hinv (by omega) (by omega) hremoved
  rintro - t ⟨hinv, hremoved⟩
  -- there are no orphans behind the last inode
  have hall : ∀ j, (0 < j ∧ j < 1 + (sb.ninodes - 1) ∧ (view sb (booted d)).Orphan j) ↔
      0 < j ∧ (view sb (booted d)).Orphan j := by
    refine fun j => and_congr_right fun _ => ⟨And.right, fun ho => ⟨?_, ho⟩⟩
    by_contra hcon
    have hdinode : (view sb (booted d)).dinode j = .zero := if_neg (by omega)
    exact ho.1 (congrArg Dinode.type hdinode)
  have hremoved := hremoved.congr fun j => (hall j).symm
  refine ⟨fun i hi ho => ?_, fun i hi ho => ⟨hremoved.type i ⟨hi, ho⟩, fun σ hσ => ?_⟩,
    hremoved.dinode_of_not, hremoved.data, fun b hb => ?_, hinv.sound, hinv.ref, hinv.inUse⟩
  · by_cases hold : (view sb (booted d)).Orphan i
    · exact ho.1 (hremoved.type i ⟨hi, hold⟩)
    · rw [View.Orphan, hremoved.dinode_of_not i fun hcon => hold hcon.2] at ho
      exact hold ho
  · cases hu : (view sb t).used ((view sb (booted d)).slot (i, σ)) with
    | false => rfl
    | true => exact absurd (((hremoved.used _).mp hu).2 i σ ⟨hi, ho⟩ rfl) hσ
  · refine Bool.eq_iff_iff.mpr ((hremoved.used b).trans ⟨And.left, fun hu => ⟨hu, ?_⟩⟩)
    exact fun i σ ho hσ => absurd hσ (hb i σ ho.1 ho.2)

/-- A disk on which inode 2 is an orphan. -/
def orphanDisk : Disk :=
  putDinode tiny (fun b o => if b = 3 ∧ o = 0 then 15 else 0) 2 ⟨2, 0, 0, 0, 0, fun _ => 0⟩

theorem orphan_owned : (view tiny (booted orphanDisk)).Owned tiny := by
  have hall : ∀ i < 16, ((view tiny (booted orphanDisk)).dinode i).type = 0 ∨
      ∀ k < 13, ((view tiny (booted orphanDisk)).dinode i).addr k = 0 := by decide +kernel
  have hused : ∀ b < 16, (view tiny (booted orphanDisk)).used b = true → b < 4 := by decide +kernel
  refine ⟨.of_addr_eq_zero (by decide +kernel) fun i => ?_, fun b hb hu => Or.inl (hused b hb hu)⟩
  by_cases hi : i < 16
  · refine (hall i hi).imp_right fun haddr k => ?_
    by_cases hk : k < 13
    · exact haddr k hk
    · exact Dinode.addr_of_le (by omega)
  · exact Or.inl (congrArg Dinode.type (if_neg hi))

/-- The orphan is freed. -/
theorem ireclaim_exact_orphan : ∃ t, ireclaim tiny (booted orphanDisk) = .ok (⟨⟩, t) ∧
    ((view tiny (booted orphanDisk)).dinode 2).type = 2 ∧ ((view tiny t).dinode 2).type = 0 := by
  obtain ⟨⟨⟩, t, hrun, -, hfreed, -⟩ := ireclaim_exact tiny_ok orphan_owned
  have horphan : (view tiny (booted orphanDisk)).Orphan 2 := ⟨by decide +kernel, by decide +kernel⟩
  exact ⟨t, hrun, by decide +kernel, (hfreed 2 (by decide) horphan).1⟩

end Xv6.Fs
