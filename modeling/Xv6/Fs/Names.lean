import Xv6.Fs.Effects
import Xv6.Fs.FailedCalls
import Xv6.Fs.Resolution

/-!
# Names come and go

A call of `link` that succeeds binds one name in one directory and leaves every other name alone, so
`namei` finds the file by its new path, and every path that led to a file still leads there.  `unlink`
takes the name away, and together the two calls leave all names as they were.

On the files this is about `Files.step`, the names of a directory; what a path leads to depends on
nothing else (`Files.walk_mono`).
-/

namespace Xv6.Fs

open Bytes Program

variable {sb : Superblock} {R : Multiset ℕ} {s t u : State} {F F' : Files} {cwd ip dp i j k : ℕ}
  {x y : Node} {n : List UInt8} {name : Mem}

/-! ## Walks -/

/-- More names lead to more files. -/
theorem Files.walk_mono (h : ∀ i n j, F.step i n = some j → F'.step i n = some j)
    (ns : List (List UInt8)) : ∀ i, F.walk i ns = some j → F'.walk i ns = some j := by
  induction ns with
  | nil => exact fun i hi => hi
  | cons n ns ih =>
    intro i hi
    rw [Files.walk_cons] at hi ⊢
    obtain ⟨l, hl, hrest⟩ := Option.bind_eq_some_iff.mp hi
    rw [h i n l hl]
    exact ih l hrest

theorem Files.walkParent_mono (h : ∀ i n j, F.step i n = some j → F'.step i n = some j)
    (hdir : F'.IsDir dp) (ns : List (List UInt8)) (hp : F.walkParent i ns = some (dp, n)) :
    F'.walkParent i ns = some (dp, n) := by
  rw [Files.walkParent_eq] at hp ⊢
  obtain ⟨m, hm, hp⟩ := Option.bind_eq_some_iff.mp hp
  obtain ⟨l, hl, heq⟩ := Option.map_eq_some_iff.mp hp
  obtain ⟨rfl, rfl⟩ := Prod.mk.inj heq
  rw [hm, Option.bind_some, Files.walk_mono h _ _ (Option.filter_eq_some_iff.mp hl).1]
  obtain ⟨x, hx, htype⟩ := hdir
  simp [Option.filter, Files.isDir, hx, htype]

/-! ## The names of a directory -/

theorem Files.drop_of_ne (h : j ≠ i) : F.drop R i j = F j := by
  rcases F.drop_cases R i with hsame | ⟨-, hdrop⟩
  · rw [hsame]
  · rw [hdrop, Function.update_of_ne h]

theorem Files.not_isDir_drop (h : ∀ x, F i = some x → x.type ≠ .ofNat T_DIR) :
    ¬ (F.drop R j).IsDir i := by
  rintro ⟨x, hx, htype⟩
  exact h x (Files.of_drop hx) htype

/-- One directory changes, and files that are no directories. -/
theorem Files.step_eq_update (hx : F' dp = some x) (hdir : x.type = .ofNat T_DIR)
    (h : ∀ i, i ≠ dp → F' i = F i ∨ ¬ F'.IsDir i ∧ ¬ F.IsDir i) :
    F'.step = Function.update F.step dp (dirMap x.content) := by
  funext i n
  by_cases hi : i = dp
  · subst hi
    rw [Function.update_self, Files.step_of_dir hx hdir]
  · rw [Function.update_of_ne hi]
    rcases h i hi with heq | ⟨hnot', hnot⟩
    · rw [Files.step, Files.step, heq]
    · rw [Files.step_of_not_dir hnot', Files.step_of_not_dir hnot]

theorem lt_of_files (hx : files sb s i = some x) : i < sb.ninodes := by
  by_contra hle
  simp [files, View.node, view, hle, Dinode.zero] at hx

theorem Linked.absent (h : Linked R F ip dp name F') : F.step dp (nameOf name) = none := by
  obtain ⟨-, -, hy, hdir, hroom⟩ := h
  rw [Files.step_of_dir hy hdir, hroom.absent]

theorem Linked.not_isDir (h : Linked R F ip dp name F') : ¬ F'.IsDir ip ∧ ¬ F.IsDir ip ∧ ip ≠ dp := by
  obtain @⟨x, y, k, hx, hfile, hy, hdir, -⟩ := h
  have hnot : ¬ F.IsDir ip := by
    rintro ⟨z, hz, htype⟩
    exact hfile ((Option.some_inj.mp (hx.symm.trans hz)) ▸ htype)
  have hne : ip ≠ dp := fun heq => hnot (heq ▸ ⟨y, hy, hdir⟩)
  refine ⟨Files.not_isDir_drop fun z hz => ?_, hnot, hne⟩
  rw [Function.update_of_ne hne, Function.update_self] at hz
  obtain rfl := Option.some_inj.mp hz
  exact hfile

/-- `link` binds one name. -/
theorem Linked.step_eq (hsb : sb.Ok) (hs : (view sb s).Sound sb)
    (h : Linked R (files sb s) ip dp name F') : F'.step = Function.update (files sb s).step dp
      (Function.update ((files sb s).step dp) (nameOf name) (some ip)) := by
  obtain ⟨hnot', hnot, hne⟩ := h.not_isDir
  obtain @⟨x, y, k, hx, -, hy, hdir, hroom⟩ := h
  have hlt := lt_of_files hx
  have hle := hsb.ninodes_le
  have hinum : (UInt16.ofNat ip).toNat = ip := UInt16.toNat_ofNat_of_lt' (show ip < 65536 by omega)
  have h0 : UInt16.ofNat ip ≠ 0 := fun hcon => (hs.pos hx).ne' (by rw [← hinum, hcon]; rfl)
  have hmap := ((hs.dir dp y hy hdir).dirMap_insert hroom.le hroom.empty hroom.absent h0
    (hinum.symm ▸ hlt)).2
  rw [show (files sb s).step dp = dirMap y.content from funext fun _ => Files.step_of_dir hy hdir,
    ← hinum, ← hmap, hinum]
  refine Files.step_eq_update (x := y.enter k name ip) ?_ hdir fun i hi => ?_
  · rw [Files.drop_of_ne hne.symm, Function.update_self]
  · by_cases hip : i = ip
    · subst hip
      exact Or.inr ⟨hnot', hnot⟩
    · left
      rw [Files.drop_of_ne hip, Function.update_of_ne hi, Function.update_of_ne hip]

theorem Linked.bound (hsb : sb.Ok) (hs : (view sb s).Sound sb)
    (h : Linked R (files sb s) ip dp name F') : F'.step dp (nameOf name) = some ip := by
  rw [h.step_eq hsb hs, Function.update_self, Function.update_self]

theorem Linked.step_mono (hsb : sb.Ok) (hs : (view sb s).Sound sb)
    (h : Linked R (files sb s) ip dp name F') (i : ℕ) (n : List UInt8) (j : ℕ)
    (hj : (files sb s).step i n = some j) : F'.step i n = some j := by
  rw [h.step_eq hsb hs]
  by_cases hi : i = dp
  · subst hi
    have hn : n ≠ nameOf name := fun heq => absurd (heq ▸ hj) (by simp [h.absent])
    rw [Function.update_self, Function.update_of_ne hn, hj]
  · rw [Function.update_of_ne hi, hj]

theorem Unlinked.bound (hs : (view sb s).Sound sb) (h : Unlinked R (files sb s) ip dp n F') :
    (files sb s).step dp n = some ip := by
  obtain ⟨-, hy, hdir, hnames, -, -, -, -, -⟩ := h
  rw [Files.step_of_dir hy hdir]
  exact (hs.dir dp _ hy hdir).dirMap_eq_some_iff.mpr ⟨_, hnames⟩

/-- `unlink` of a file that is no directory takes one name away. -/
theorem Unlinked.step_eq (hsb : sb.Ok) (hs : (view sb s).Sound sb) (hheld : Held R (files sb s))
    (h : Unlinked R (files sb s) ip dp n F') (hfile : ¬ (files sb s).IsDir ip) :
    F'.step = Function.update (files sb s).step dp
      (Function.update ((files sb s).step dp) n none) := by
  obtain @⟨x, y, k, hx, hy, hdir, hnames, hne, -, -, -, -⟩ := h
  have hroot := hsb.root
  have hx' : x.type ≠ .ofNat T_DIR := fun htype => hfile ⟨x, hx, htype⟩
  have hnlink : (y.erase k x.type).nlink = y.nlink := if_neg hx'
  rw [show (files sb s).step dp = dirMap y.content from funext fun _ => Files.step_of_dir hy hdir,
    ← ((hs.dir dp y hy hdir).dirMap_erase (by omega) hnames).2]
  refine Files.step_eq_update (x := y.erase k x.type) ?_ hdir fun i hi => ?_
  · -- the directory stays, since it has links or is referred to
    rw [Files.drop_of_ne hne.symm, Function.update_of_ne hne.symm]
    by_cases h0 : y.nlink = 0
    · rw [Files.drop_of_ref (Multiset.mem_cons_of_mem (hheld dp y hy h0)), Function.update_self]
    · simp [Files.drop, hnlink, h0]
  · by_cases hip : i = ip
    · subst hip
      refine Or.inr ⟨Files.not_isDir_drop fun z hz => ?_, hfile⟩
      rw [Function.update_self] at hz
      obtain rfl := Option.some_inj.mp hz
      exact hx'
    · left
      rw [Files.drop_of_ne hip, Function.update_of_ne hip, Files.drop_of_ne hi,
        Function.update_of_ne hi]

/-! ## The calls -/

/-- The file that a path leads to. -/
def leads (sb : Superblock) (cwd : ℕ) (s : State) (path : List UInt8) : Option ℕ :=
  (files sb s).walk (startOf cwd path) (components path)

/-- `namei` returns `r`, unless the inode table is full or the path comes to a free inode. -/
def Finds (sb : Superblock) (cwd : ℕ) (s : State) (path : List UInt8) (r : Option ℕ) : Prop :=
  Yields (WalkPanic (files sb s) (startOf cwd path)) (namei sb cwd path) s fun r' _ => r' = r

/-- **`link` and `unlink`.**  When `link(old, new)` has returned 0, `namei` finds by `new`, which led
nowhere before, the file that `old` leads to, and by every path that led to a file it finds this file.
If then `unlink(new)` returns 0 too, every path leads where it led before the two calls. -/
theorem link_then_unlink (hsb : sb.Ok) (h : Rest sb R s) (hcwd : cwd ∈ R) {old new : List UInt8}
    (hold : ∀ c ∈ old, c ≠ 0) (hnew : ∀ c ∈ new, c ≠ 0)
    (hlink : sysLink sb cwd (some old) (some new) s = .ok (0, t)) :
    (∃ ip, leads sb cwd s old = some ip ∧ leads sb cwd s new = none ∧
      Finds sb cwd t new (some ip)) ∧
    (∀ path j, (∀ c ∈ path, c ≠ 0) → leads sb cwd s path = some j →
      Finds sb cwd t path (some j)) ∧
    ∀ u, sysUnlink sb cwd (some new) t = .ok (0, u) → ∀ path,
      leads sb cwd u path = leads sb cwd s path := by
  obtain ⟨ht, hr⟩ := (sysLink_spec hsb h (allowsUnlink_true _).toAllows hcwd
    (by rintro p ⟨⟩; exact hold) (by rintro p ⟨⟩; exact hnew)).of_run hlink
  obtain ⟨-, p, q, ip, dp, name, ⟨⟩, ⟨⟩, hip, hparent, hlinked⟩ := hr.resolve_left fun hcon => by
    simp at hcon
  have hmono := hlinked.step_mono hsb h.inv.sound
  have hbound := hlinked.bound hsb h.inv.sound
  have hfinds : ∀ path j, (∀ c ∈ path, c ≠ 0) → leads sb cwd t path = some j →
      Finds sb cwd t path (some j) := fun path j hpath hj =>
    (namei_walk hsb ht.inv ht.held hcwd hpath).mono fun r _ hr => hr.1.trans hj
  have hdir : (files sb t).IsDir dp := by
    by_contra hnot
    exact absurd (hbound.symm.trans (Files.step_of_not_dir hnot)) (by simp)
  have hparent' := Files.walkParent_mono hmono hdir _ hparent
  refine ⟨⟨ip, hip, ?_, hfinds new ip hnew ?_⟩, fun path j hpath hj =>
    hfinds path j hpath (Files.walk_mono hmono _ _ hj), fun u hunlink path => ?_⟩
  · exact (Files.walk_of_walkParent _ _ hparent).2.trans hlinked.absent
  · exact (Files.walk_of_walkParent _ _ hparent').2.trans hbound
  · obtain ⟨-, hr⟩ := (sysUnlink_spec hsb ht (allowsUnlink_true _) hcwd
      (by rintro p ⟨⟩; exact hnew)).of_run hunlink
    obtain ⟨-, q, ip', dp', n, ⟨⟩, hq, hunlinked⟩ := hr.resolve_left fun hcon => by simp at hcon
    obtain ⟨rfl, rfl⟩ := Prod.mk.inj (Option.some_inj.mp (hq.symm.trans hparent'))
    obtain rfl : ip' = ip := Option.some_inj.mp ((hunlinked.bound ht.inv.sound).symm.trans hbound)
    have hback := hunlinked.step_eq hsb ht.inv.sound ht.held hlinked.not_isDir.1
    have hnone : Function.update ((files sb s).step dp') (nameOf name) none = (files sb s).step dp' :=
      Function.update_eq_self_iff.mpr hlinked.absent.symm
    rw [hlinked.step_eq hsb h.inv.sound, Function.update_self, Function.update_idem,
      Function.update_idem, hnone, Function.update_eq_self] at hback
    rw [leads, leads, Files.walk, Files.walk, hback]

/-- `"g"` becomes another name of `"f"`, and is taken away again. -/
theorem link_then_unlink_small : ∃ t u, sysLink tiny 1 (some [102]) (some [103]) small = .ok (0, t) ∧
    sysUnlink tiny 1 (some [103]) t = .ok (0, u) ∧
    Finds tiny 1 t [103] (some 2) ∧ leads tiny 1 u [102] = some 2 := by
  obtain ⟨r, t, hlink, hr⟩ := exists_of_endsIn (x := sysLink tiny 1 (some [102]) (some [103]))
    (s := small) (p := fun r t => r == 0 && returns (fun r => r == 0) (sysUnlink tiny 1 (some [103])) t)
    (by decide +kernel)
  rw [Bool.and_eq_true] at hr
  obtain rfl : r = 0 := by simpa using hr.1
  obtain ⟨r, u, hunlink, hr⟩ := exists_of_returns hr.2
  obtain rfl : r = 0 := by simpa using hr
  have hf : leads tiny 1 small [102] = some 2 := by
    rw [leads, show components [102] = [[102]] by decide +kernel]
    exact small_walk
  obtain ⟨⟨ip, hip, -, hfinds⟩, -, hback⟩ := link_then_unlink tiny_ok small_rest
    (Multiset.mem_singleton_self 1) (by decide +kernel) (by decide +kernel) hlink
  obtain rfl : 2 = ip := Option.some_inj.mp (hf.symm.trans hip)
  exact ⟨t, u, hlink, hunlink, hfinds, (hback u hunlink [102]).trans hf⟩

end Xv6.Fs
