import Xv6.Fs.Image

/-!
# What a path stands for

`namei` and `nameiparent` against one simple specification: split the path at slashes, drop what is empty,
cut the rest down to `DIRSIZ` bytes, and look the elements up one after the other.  The look-ahead that
decides where `nameiparent` stops agrees with it, whatever slashes there are.
-/

namespace Xv6.Fs

open Program

variable {sb : Superblock} {R : Multiset ℕ} {s : State} {cwd : ℕ} {path : List UInt8}

/-- A name is bound to an inode that is free. -/
def Files.Dangling (F : Files) : Prop :=
  ∃ i x n j, F i = some x ∧ x.type = .ofNat T_DIR ∧ dirMap x.content n = some j ∧ F j = none

/-- What a walk from `i` can panic with: the inode table is full, or the walk comes to a free inode. -/
def WalkPanic (F : Files) (i : ℕ) (e : Panic) : Prop :=
  e = .igetNoInodes ∨ e = .ilockNoType ∧ (F i = none ∨ F.Dangling)

theorem closed_walkPanic (F : Files) (i : ℕ) : Closed (WalkPanic F i) F := fun k x hx hdir n j hj h0 =>
  Or.inr ⟨rfl, Or.inr ⟨k, x, n, j, hx, hdir, hj, h0⟩⟩

section Spec

variable (hsb : sb.Ok) (h : Inv sb R ∅ s) (hheld : Held R (files sb s)) (hcwd : cwd ∈ R)
  (hpath : ∀ c ∈ path, c ≠ 0)

include hsb h hheld hcwd hpath

theorem namei_walk :
    Yields (WalkPanic (files sb s) (startOf cwd path)) (namei sb cwd path) s fun r t =>
      r = (files sb s).walk (startOf cwd path) (components path) ∧ Quiet sb R s t := by
  refine .bind (namex_spec hsb (Or.inl rfl) noName hpath h hcwd hheld (closed_walkPanic _ _)
    fun h0 => Or.inr ⟨rfl, Or.inl h0⟩) ?_
  rintro r t ⟨hquiet, -, hres⟩
  rw [Resolves, if_neg Bool.false_ne_true] at hres
  cases r with
  | none => exact .pure ⟨hres, hquiet⟩
  | some y => exact .pure ⟨hres, hquiet⟩

theorem nameiparent_walk (name : Bytes.Mem) :
    Yields (WalkPanic (files sb s) (startOf cwd path)) (nameiparent sb cwd path name) s fun r t =>
      r.map (fun y => (y.1, nameOf y.2)) =
        (files sb s).walkParent (startOf cwd path) (components path) ∧
      Quiet sb R s t ∧ Inv sb (withResult r R) ∅ t := by
  refine (namex_spec hsb (Or.inl rfl) name hpath h hcwd hheld (closed_walkPanic _ _)
    fun h0 => Or.inr ⟨rfl, Or.inl h0⟩).mono ?_
  rintro r t ⟨hquiet, hinv, hres⟩
  rw [Resolves, if_pos rfl] at hres
  exact ⟨hres, hquiet, hinv⟩

end Spec

/-- **Paths.**  Repeated calls of `skipelem` take the elements off a path, and stop.  `namei` is the fold of
the look-up over them.  `nameiparent` is the fold over all of them but the last, which it returns as the
name; it fails if there is none, and also if the fold ends at a file that is not a directory.  If
`nameiparent` gives a directory, `namei` is the look-up of the name in it.

The calls do not change the files.  They can panic only when the inode table is full, or when they come to
an inode that is free. -/
theorem path_resolution (hsb : sb.Ok) (h : Inv sb R ∅ s) (hheld : Held R (files sb s)) (hcwd : cwd ∈ R)
    (hpath : ∀ c ∈ path, c ≠ 0) :
    (∀ name, elements (path.length + 1) path name = components path) ∧
    Yields (WalkPanic (files sb s) (startOf cwd path)) (namei sb cwd path) s (fun r t =>
      r = (components path).foldlM (files sb s).step (startOf cwd path) ∧ files sb t = files sb s) ∧
    (∀ name, Yields (WalkPanic (files sb s) (startOf cwd path)) (nameiparent sb cwd path name) s fun r t =>
      r.map (fun y => (y.1, nameOf y.2)) = ((components path).getLast?.bind fun n =>
        (((components path).dropLast.foldlM (files sb s).step (startOf cwd path)).filter
          (files sb s).isDir).map fun dp => (dp, n)) ∧ files sb t = files sb s) ∧
    ∀ name dp m t, nameiparent sb cwd path name s = .ok (some (dp, m), t) →
      Yields (WalkPanic (files sb s) (startOf cwd path)) (do ilock sb dp; dirlookup sb dp m) t fun r _ =>
        r.map Prod.fst = (components path).foldlM (files sb s).step (startOf cwd path) := by
  refine ⟨fun name => elements_eq _ path name hpath (Nat.lt_succ_self _), ?_, fun name => ?_, ?_⟩
  · refine (namei_walk hsb h hheld hcwd hpath).mono ?_
    rintro r t ⟨hr, hquiet⟩
    exact ⟨hr, hquiet.files⟩
  · refine (nameiparent_walk hsb h hheld hcwd hpath name).mono ?_
    rintro r t ⟨hr, hquiet, -⟩
    exact ⟨hr.trans (Files.walkParent_eq _ _), hquiet.files⟩
  · intro name dp m t hrun
    obtain ⟨hr, hquiet, hinv⟩ := (nameiparent_walk hsb h hheld hcwd hpath name).of_run hrun
    obtain ⟨⟨x, hx, hdir⟩, hwalk⟩ := Files.walk_of_walkParent _ _ hr.symm
    have hmem : dp ∈ dp ::ₘ R := Multiset.mem_cons_self dp R
    have hx' : files sb t dp = some x := by rw [hquiet.files, hx]
    refine .bind (ilock_spec hinv hmem (fun hcon => absurd hcon (Set.notMem_empty dp)) fun hcon =>
      nomatch hcon.symm.trans hx') ?_
    rintro - u ⟨-, -, hinv', hquiet'⟩
    have hopen : OpenDir sb (dp ::ₘ R) (insert dp ∅) u dp x :=
      ⟨hinv', Or.inl rfl, by rw [hquiet'.files, hx'], hdir⟩
    refine (hopen.dirlookup_spec hsb m (Or.inl rfl)).mono ?_
    rintro r v ⟨hfind, -⟩
    change _ = (files sb s).walk _ _
    rw [hwalk, Files.step_of_dir hx hdir, dirMap, hfind]

/-- The path `"f/x"`, where `"f"` is a file. -/
def pathFX : List UInt8 := [102, 47, 120]

theorem components_pathFX : components pathFX = [[102], [120]] := by decide +kernel

theorem small_walk : (files tiny small).walk 1 [[102]] = some 2 := by
  have hstep : (files tiny small).step 1 [102] = some 2 := by
    rw [small_files, Files.step_of_dir small_root rfl]
    decide +kernel
  rw [Files.walk_cons, hstep]
  rfl

/-- The fold over all elements but the last ends at a file, and `nameiparent` fails. -/
theorem nameiparent_fails_at_file :
    (components pathFX).dropLast.foldlM (files tiny small).step (startOf 1 pathFX) = some 2 ∧
    ∃ t, nameiparent tiny 1 pathFX noName small = .ok (none, t) := by
  refine ⟨?_, ?_⟩
  · rw [components_pathFX]
    exact small_walk
  · obtain ⟨r, t, hrun, hr⟩ := exists_of_returns (x := nameiparent tiny 1 pathFX noName) (s := small)
      (p := Option.isNone) (by decide +kernel)
    exact ⟨t, Option.isNone_iff_eq_none.mp hr ▸ hrun⟩

/-- The path `"//f"` in the small file system. -/
theorem path_resolution_small : ∃ t, namei tiny 1 [47, 47, 102] small = .ok (some 2, t) := by
  have hspec := (path_resolution tiny_ok small_inv small_held (Multiset.mem_singleton_self 1)
    (show ∀ c ∈ [47, 47, 102], c ≠ (0 : UInt8) by decide +kernel)).2.1
  obtain ⟨r, t, hrun, -⟩ := exists_of_returns (x := namei tiny 1 [47, 47, 102]) (s := small)
    (p := fun _ => true) (by decide +kernel)
  refine ⟨t, ?_⟩
  rw [hrun, (hspec.of_run hrun).1]
  have hcomp : components [47, 47, 102] = [[102]] := by decide +kernel
  rw [hcomp]
  exact congrArg (fun r => Except.ok (r, t)) small_walk

end Xv6.Fs
