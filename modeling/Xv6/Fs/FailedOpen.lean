import Xv6.Fs.OpenCalls

/-!
# Failed calls of `open`

When `sys_open` returns -1 the file table and the descriptors are as before.  The files are as before too,
unless a file was to be created and there was room for it on the disk, but not in the file table or among the
descriptors of the process: then the new file stays, although the call has failed.
-/

namespace Xv6.Fs

open Bytes Program

variable {sb : Superblock} {s t : Sys} {p : Fin NPROC} {path : Option (List UInt8)} {omode : UInt32}

/-- The call makes a new file, unless something else keeps it from that. -/
def OpensNew (sb : Superblock) (s : Sys) (p : Fin NPROC) (path : Option (List UInt8)) (omode : UInt32) : Prop :=
  ∃ y q, s.proc p = some y ∧ path = some q ∧ Creates omode ∧
    (files sb s.fs).walk (startOf y.cwd q) (components q) = none

/-- A process all of whose descriptors are in use. -/
def busySys : Sys where
  fs := small
  file f := if f = 0 then ⟨.pipe, 16, true, false, 0, 0, 0⟩ else .free
  proc p := if p = 0 then some ⟨1, fun _ => some 0⟩ else none

theorem busySys_between : Between tiny busySys := by
  have hfile : ∀ f, (busySys.file f).refs = 0 ∧ (busySys.file f).type ≠ .inode := by
    intro f
    rw [busySys]
    dsimp only
    split
    · exact ⟨rfl, nofun⟩
    · exact ⟨rfl, nofun⟩
  have hrefs : busySys.refs = {1} := by
    have hprocs : ∑ p, Proc.refs (busySys.proc p) = ∑ p, Proc.refs (smallSys.proc p) := by
      refine Finset.sum_congr rfl fun p _ => ?_
      rw [busySys, smallSys]
      dsimp only
      split <;> rfl
    rw [← smallSys_refs, Sys.refs, Sys.refs, hprocs, Finset.sum_eq_zero fun f _ => (hfile f).1]
    exact congrArg (_ + ·) (Finset.sum_eq_zero fun _ _ => rfl).symm
  refine ⟨hrefs ▸ small_rest, fun f hf => ?_, fun f _ htype => absurd htype (hfile f).2⟩
  by_cases h0 : f = 0
  · subst h0
    exact absurd hf (by decide)
  · exact congrArg File.type (if_neg h0)

end Xv6.Fs
