import Xv6.Fs.Effects
import Xv6.Fs.FileIO
import Xv6.Fs.Image

/-!
# Who refers to inodes between calls

Between calls the references to inodes are the current directories of the processes and the open files
(`Sys.refs`).  `Between` says that the file system is at rest with these references, and that entries of the
file table that are not in use are closed.

What a process gets or gives up is one summand of `Sys.refs` (`exists_refs_file`, `exists_refs_proc`).
-/

namespace Xv6.Fs

open Program

/-- The inode that an open file refers to. -/
def File.refs (x : File) : Multiset ℕ := if x.type = .inode ∨ x.type = .device then {x.ip} else 0

/-- The current directory of a process that is there. -/
def Proc.refs : Option Proc → Multiset ℕ
  | none => 0
  | some x => {x.cwd}

/-- The references to inodes between calls. -/
def Sys.refs (s : Sys) : Multiset ℕ := ∑ p, Proc.refs (s.proc p) + ∑ f, (s.file f).refs

/-! ## Summands -/

section Sums

variable {ι α : Type} [Fintype ι] [DecidableEq ι]

theorem exists_sum_update (g : α → Multiset ℕ) (h : ι → α) (i : ι) :
    ∃ R, ∑ j, g (h j) = g (h i) + R ∧ ∀ a, ∑ j, g (Function.update h i a j) = g a + R := by
  have hsum : ∀ a, ∑ j, g (Function.update h i a j) = g a + ∑ j ∈ Finset.univ \ {i}, g (h j) := by
    intro a
    rw [← Finset.sum_update_of_mem (Finset.mem_univ i) (fun j => g (h j)) (g a)]
    exact Finset.sum_congr rfl fun j _ => Function.apply_update (fun _ => g) h i a j
  refine ⟨_, ?_, hsum⟩
  rw [← hsum (h i), Function.update_eq_self]

end Sums

variable {sb : Superblock} {s t : Sys} {p : Fin NPROC} {f : Fin NFILE} {fd : Fin NOFILE} {x y : File}
  {R : Multiset ℕ} {u v : State} {i ip : ℕ}

@[simp] theorem Sys.setFile_self : (s.setFile f x).file f = x := Function.update_self ..

theorem Sys.setFile_of_ne {g : Fin NFILE} (h : g ≠ f) : (s.setFile f x).file g = s.file g :=
  Function.update_of_ne h ..

theorem Sys.exists_refs_file (s : Sys) (f : Fin NFILE) :
    ∃ R, s.refs = (s.file f).refs + R ∧ ∀ x, (s.setFile f x).refs = x.refs + R := by
  obtain ⟨R, hold, hnew⟩ := exists_sum_update File.refs s.file f
  refine ⟨∑ p, Proc.refs (s.proc p) + R, ?_, fun x => ?_⟩
  · rw [refs, hold, add_left_comm]
  · rw [refs, setFile, hnew, add_left_comm]

theorem Sys.exists_refs_proc (s : Sys) (p : Fin NPROC) :
    ∃ R, s.refs = Proc.refs (s.proc p) + R ∧ ∀ x, (s.setProc p x).refs = Proc.refs x + R := by
  obtain ⟨R, hold, hnew⟩ := exists_sum_update Proc.refs s.proc p
  refine ⟨R + ∑ f, (s.file f).refs, ?_, fun x => ?_⟩
  · rw [refs, hold, add_assoc]
  · rw [refs, setProc, hnew, add_assoc]

theorem Sys.refs_setFile (h : x.refs = (s.file f).refs) : (s.setFile f x).refs = s.refs := by
  obtain ⟨R, hold, hnew⟩ := s.exists_refs_file f
  rw [hnew, hold, h]

@[simp] theorem Sys.refs_setFd (f : Option (Fin NFILE)) : (s.setFd p fd f).refs = s.refs := by
  obtain ⟨R, hold, hnew⟩ := s.exists_refs_proc p
  rw [setFd, hnew, hold]
  cases s.proc p <;> rfl

theorem Sys.cwd_mem_refs {y : Proc} (h : s.proc p = some y) : y.cwd ∈ s.refs := by
  obtain ⟨R, hold, -⟩ := s.exists_refs_proc p
  rw [hold, h]
  exact Multiset.mem_add.mpr (Or.inl (Multiset.mem_singleton_self _))

theorem Sys.ip_mem_refs (h : (s.file f).type = .inode) : (s.file f).ip ∈ s.refs := by
  obtain ⟨R, hold, -⟩ := s.exists_refs_file f
  rw [hold, File.refs, if_pos (Or.inl h)]
  exact Multiset.mem_add.mpr (Or.inl (Multiset.mem_singleton_self _))

/-- Entries that are not in use are closed. -/
def Sys.Closed (s : Sys) : Prop := ∀ f, (s.file f).ref = 0 → (s.file f).type = .none

/-- No call is being made. -/
structure Between (sb : Superblock) (s : Sys) : Prop where
  rest : Rest sb s.refs s.fs
  closed : s.Closed
  /-- Directories are not open for writing. -/
  noDir : ∀ f x, (s.file f).type = .inode → (s.file f).writable → files sb s.fs (s.file f).ip = some x →
    x.type ≠ .ofNat T_DIR

/-- What is seen from outside. -/
def Sys.now (sb : Superblock) (s : Sys) : Multiset ℕ × Files := (s.refs, files sb s.fs)

theorem Sys.now_congr (hrefs : t.refs = s.refs) (hfiles : files sb t.fs = files sb s.fs) :
    t.now sb = s.now sb := by
  rw [now, now, hrefs, hfiles]

theorem Between.of_stays (h : Between sb s) (hrest : Rest sb t.refs t.fs) (hclosed : t.Closed)
    (hfile : ∀ f, (t.file f).type = .inode → (t.file f).writable →
      ((s.file f).type = .inode ∧ (s.file f).writable ∧ (s.file f).ip = (t.file f).ip) ∨
        ∀ x, files sb t.fs (t.file f).ip = some x → x.type ≠ .ofNat T_DIR)
    (hstays : ∀ i ∈ s.refs, i ∈ t.refs → (files sb s.fs).Stays (files sb t.fs) i) : Between sb t := by
  refine ⟨hrest, hclosed, fun f x htype hw hx => ?_⟩
  rcases hfile f htype hw with ⟨htype', hw', hip⟩ | hnew
  · have hs : (t.file f).ip ∈ s.refs := hip ▸ Sys.ip_mem_refs htype'
    obtain ⟨z, hz⟩ := Option.ne_none_iff_exists'.mp (h.rest.live _ hs)
    obtain ⟨y, hy, hyz⟩ := hstays _ hs (Sys.ip_mem_refs htype) z hz
    obtain rfl := Option.some_inj.mp (hy.symm.trans hx)
    rw [hyz]
    exact h.noDir f z htype' hw' (by rw [hip, hz])
  · exact hnew x hx

theorem Between.setFs (h : Between sb s) (hrest : Rest sb s.refs u)
    (hstays : ∀ i ∈ s.refs, (files sb s.fs).Stays (files sb u) i) : Between sb { s with fs := u } :=
  h.of_stays hrest h.closed (fun _ htype hw => Or.inl ⟨htype, hw, rfl⟩) fun i hi _ => hstays i hi

/-! ## The file system inside of the system -/

section OnFs

variable {α : Type} {E : Panic → Prop} {c : FsM α} {Q : α → State → Prop}

theorem onFs_yields (h : Yields E c s.fs Q) :
    Yields E (onFs c) s fun a t => ∃ v, t = { s with fs := v } ∧ Q a v := h.zoom

theorem onFs_ensures (h : Ensures c s.fs Q) :
    Ensures (onFs c) s fun a t => ∃ v, t = { s with fs := v } ∧ Q a v := h.zoom

end OnFs

/-! ## References that are given up -/

/-- The entry of a file is closed. -/
def Sys.closeFile (s : Sys) (f : Fin NFILE) : Sys := s.setFile f { s.file f with ref := 0, type := .none }

/-! ## A small system -/

/-- The first process in the root directory of a small disk, and no open files. -/
def smallSys : Sys where
  fs := small
  file _ := .free
  proc p := if p = 0 then some ⟨1, fun _ => none⟩ else none

theorem smallSys_refs : smallSys.refs = {1} := by
  have hprocs : ∑ p, Proc.refs (smallSys.proc p) = {1} := by
    rw [Finset.sum_eq_single 0 (fun p _ hp => ?_) fun hcon => absurd (Finset.mem_univ 0) hcon]
    · rfl
    · rw [smallSys]
      dsimp only
      rw [if_neg hp]
      rfl
  have hfiles : ∑ f, (smallSys.file f).refs = 0 := Finset.sum_eq_zero fun _ _ => rfl
  rw [Sys.refs, hprocs, hfiles, add_zero]

theorem smallSys_between : Between tiny smallSys where
  rest := by
    rw [smallSys_refs]
    exact small_rest
  closed _ _ := rfl
  noDir _ _ htype := nomatch htype

end Xv6.Fs
