import Xv6.Fs.Image

/-!
# Failed calls change nothing

`sys_link` raises a count and `sys_mkdir` builds a directory before they know whether they can succeed.
When they cannot, because a path leads nowhere, because the disk or the table of inodes on it is full or
because a directory cannot grow, they take back what they have done.
-/

namespace Xv6.Fs

open Program

variable {sb : Superblock} {R : Multiset ℕ} {s : State} {cwd : ℕ}

theorem allowsUnlink_true (F : Files) : AllowsUnlink (fun _ => True) F :=
  ⟨⟨trivial, fun _ _ _ _ _ _ _ _ => trivial, fun _ => trivial⟩, fun _ _ _ _ _ _ _ _ => trivial,
    fun _ _ _ _ _ _ _ _ _ _ _ _ => trivial⟩

theorem of_failed {r : ℤ} {P Q : Prop} (h : r = -1 ∧ P ∨ r = 0 ∧ Q) (hr : r = -1) : P := by
  rcases h with ⟨-, hP⟩ | ⟨h0, -⟩
  · exact hP
  · exact absurd (hr.symm.trans h0) (by decide)

/-- **A call that fails changes no file.**  Between calls, whatever the disk holds, `sys_link`, `sys_unlink`,
`sys_mkdir` and `sys_mknod` that return -1 leave every inode as it was, free or with the same type, device
number, link count and content.  In any case the calls leave a state like the one they started in, so this
holds after any sequence of calls. -/
theorem failed_calls_change_nothing (hsb : sb.Ok) (h : Rest sb R s) (hcwd : cwd ∈ R) {r : ℤ} {t : State} :
    (∀ old new, (∀ p ∈ old, ∀ c ∈ p, c ≠ 0) → (∀ p ∈ new, ∀ c ∈ p, c ≠ 0) →
      sysLink sb cwd old new s = .ok (r, t) → Rest sb R t ∧ (r = -1 → files sb t = files sb s)) ∧
    (∀ path, (∀ p ∈ path, ∀ c ∈ p, c ≠ 0) →
      sysUnlink sb cwd path s = .ok (r, t) → Rest sb R t ∧ (r = -1 → files sb t = files sb s)) ∧
    (∀ path, (∀ p ∈ path, ∀ c ∈ p, c ≠ 0) →
      sysMkdir sb cwd path s = .ok (r, t) → Rest sb R t ∧ (r = -1 → files sb t = files sb s)) ∧
    ∀ path major minor, (∀ p ∈ path, ∀ c ∈ p, c ≠ 0) →
      sysMknod sb cwd path major minor s = .ok (r, t) →
        Rest sb R t ∧ (r = -1 → files sb t = files sb s) := by
  have hE := allowsUnlink_true (files sb s)
  refine ⟨fun old new hold hnew hrun => ?_, fun path hpath hrun => ?_, fun path hpath hrun => ?_,
    fun path major minor hpath hrun => ?_⟩
  · obtain ⟨hrest, hr⟩ := (sysLink_spec hsb h hE.toAllows hcwd hold hnew).of_run hrun
    exact ⟨hrest, of_failed hr⟩
  · obtain ⟨hrest, hr⟩ := (sysUnlink_spec hsb h hE hcwd hpath).of_run hrun
    exact ⟨hrest, of_failed hr⟩
  · obtain ⟨hrest, hr⟩ := (sysMake_spec hsb h hE.toAllows hcwd hpath
      (show UInt16.ofNat T_DIR ≠ 0 by decide) (by decide) 0 0).of_run hrun
    exact ⟨hrest, of_failed hr⟩
  · obtain ⟨hrest, hr⟩ := (sysMake_spec hsb h hE.toAllows hcwd hpath
      (show UInt16.ofNat T_DEVICE ≠ 0 by decide) (by decide) major minor).of_run hrun
    exact ⟨hrest, of_failed hr⟩

/-- `link("f", "f/x")` fails after the count of `"f"` has been raised. -/
theorem failed_calls_change_nothing_small : ∃ t,
    sysLink tiny 1 (some [102]) (some [102, 47, 120]) small = .ok (-1, t) ∧
      files tiny t = files tiny small := by
  obtain ⟨r, t, hrun, hr⟩ := exists_of_returns (x := sysLink tiny 1 (some [102]) (some [102, 47, 120]))
    (s := small) (p := fun r => r == -1) (by decide +kernel)
  obtain rfl : r = -1 := by simpa using hr
  refine ⟨t, hrun, ?_⟩
  exact ((failed_calls_change_nothing tiny_ok small_rest (Multiset.mem_singleton_self 1)).1 _ _
    (by decide +kernel) (by decide +kernel) hrun).2 rfl

end Xv6.Fs
