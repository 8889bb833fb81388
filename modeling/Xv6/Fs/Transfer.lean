import Xv6.Fs.Eviction
import Xv6.Fs.OpenCalls

/-!
# Reading between calls

`fileread` locks the inode of an open file, reads, and advances the offset of the file.  All files and the
references to them are the same after the call.
-/

namespace Xv6.Fs

open Bytes Program Slots Relation

variable {sb : Superblock} {s t : Sys} {p : Fin NPROC} {f : Fin NFILE} {R : Multiset ℕ} {L : Set ℕ}
  {u v : State} {i ip b a n : ℕ} {x : Node} {m : Mem} {w : View} {D : View → Prop}

/-! ## A file that is locked -/

/-- An inode that is referred to is locked; the rest is as between calls. -/
structure Busy (sb : Superblock) (R : Multiset ℕ) (ip : ℕ) (u : State) : Prop where
  inv : Inv sb R (insert ip ∅) u
  settled : ∀ i x, files sb u i = some x → x.nlink = 0 → (u.inode i).valid
  live : ∀ i ∈ R, files sb u i ≠ none

theorem Rest.lock (h : Rest sb R u) (hip : ip ∈ R) :
    Ensures (ilock sb ip) u fun _ v => Busy sb R ip v ∧ view sb v = view sb u := by
  refine (Yields.ensures (ilock_spec h.inv hip (fun hcon => absurd hcon (Set.notMem_empty _)) fun hcon =>
    h.live _ hip hcon)).mono ?_
  rintro - v ⟨-, -, hinv, hquiet⟩
  refine ⟨⟨hinv, fun i x hx h0 => ?_, fun i hi => ?_⟩, hquiet.view⟩
  · rw [hquiet.files] at hx
    exact hquiet.valid i (h.held i x hx h0) (h.settled i x hx h0)
  · rw [hquiet.files]
    exact h.live i hi

theorem Busy.unlock (h : Busy sb R ip u) :
    Ensures (iunlock ip) u fun _ v => Rest sb R v ∧ view sb v = view sb u := by
  refine (iunlock_spec h.inv (Set.notMem_empty ip)).mono ?_
  rintro - v ⟨hinv, hquiet⟩
  refine ⟨⟨hinv, fun i x hx h0 => ?_, fun i hi => ?_⟩, hquiet.view⟩
  · rw [hquiet.files] at hx
    have hv := h.settled i x hx h0
    exact hquiet.valid i (h.inv.mem_of_valid i hv) hv
  · rw [hquiet.files]
    exact h.live i hi

/-! ## Offsets -/

/-- At most offsets of files have changed. -/
structure Moved (s t : Sys) : Prop where
  fs : t.fs = s.fs
  proc : t.proc = s.proc
  file : ∀ g, ∃ off, t.file g = { s.file g with off := off }

theorem Moved.refs (h : Moved s t) : t.refs = s.refs := by
  have hfile : ∀ g, (t.file g).refs = (s.file g).refs := by
    intro g
    obtain ⟨off, hg⟩ := h.file g
    rw [hg]
    rfl
  rw [Sys.refs, Sys.refs, h.proc]
  simp only [hfile]

theorem advance_spec (r : ℤ) : Ensures (advance f r) s fun _ t => Moved s t ∧
    (t.file f).off = if r > 0 then ((s.file f).off + r.toNat) % UINT else (s.file f).off := by
  refine .ite (fun hr => .modify ⟨⟨rfl, rfl, fun g => ?_⟩, ?_⟩) fun hr => .pure ⟨⟨rfl, rfl, fun g => ⟨_, rfl⟩⟩, ?_⟩
  · by_cases hg : g = f
    · subst hg
      exact ⟨_, Sys.setFile_self⟩
    · exact ⟨_, Sys.setFile_of_ne hg⟩
  · rw [if_pos hr, Sys.setFile_self]
  · rw [if_neg hr]

theorem Between.transferred (h : Between sb s) (hmoved : Moved { s with fs := u } t) (hbusy : Busy sb s.refs ip u)
    (htree : SameTree (files sb s.fs) (files sb u)) :
    Ensures (onFs (iunlock ip)) t fun _ w => Between sb w ∧ Moved { s with fs := w.fs } w ∧
      w.file = t.file ∧ w.refs = s.refs ∧ view sb w.fs = view sb u := by
  have hfs : t.fs = u := hmoved.fs
  have hrefs : t.refs = s.refs := hmoved.refs
  refine (onFs_ensures (s := t) (hfs.symm ▸ hbusy.unlock)).mono ?_
  rintro - - ⟨v, rfl, hrest, hview⟩
  rw [hfs] at hview
  have hfiles : files sb v = files sb u := by rw [files, files, hview]
  refine ⟨h.of_stays (hrefs.symm ▸ hrest) (fun g hg => ?_) (fun g htype hw => Or.inl ?_) fun i _ _ => ?_,
    ⟨rfl, hmoved.proc, hmoved.file⟩, rfl, hrefs, hview⟩
  · obtain ⟨off, hfile⟩ := hmoved.file g
    dsimp only at hg ⊢
    rw [hfile] at hg ⊢
    exact h.closed g hg
  · obtain ⟨off, hfile⟩ := hmoved.file g
    dsimp only at htype hw ⊢
    rw [hfile] at htype hw ⊢
    exact ⟨htype, hw, rfl⟩
  · exact hfiles ▸ htree.stays

/-! ## Reading -/

theorem readi_le_length (dst : ℕ → Bool) (a off n : ℕ) :
    Ends (readi sb i dst a off n) u fun r _ => r.1 ≤ r.2.length := by
  refine Ends.bind (P := fun _ _ => True) (fun _ _ _ => trivial) fun ip v _ => .ite (fun _ => ?_) fun _ => ?_
  · exact (Ensures.pure (by simp)).ends
  · refine Ends.bind (P := fun _ _ => True) (fun _ _ _ => trivial) fun r w _ => ?_
    refine (Ensures.pure ?_).ends
    dsimp only
    split
    · exact le_refl _
    · omega

section Transfer

variable (hsb : sb.Ok) (h : Between sb s)

include hsb h

/-- **Reading a file of an inode** changes nothing but the offset. -/
theorem readInode_spec (htype : (s.file f).type = .inode) (hoff : (s.file f).off < UINT)
    (dst : ℕ → Bool) (a : ℕ) (n : ℤ) :
    Ensures (readInode sb f dst a n) s fun r t => Between sb t ∧ Moved { s with fs := t.fs } t ∧
      t.refs = s.refs ∧ view sb t.fs = view sb s.fs ∧ r.1 ≤ r.2.length ∧
      r.2 <+: (readResult ((view sb s.fs).content (s.file f).ip) (s.file f).off (toUint n)).2 := by
  have hmem := Sys.ip_mem_refs htype
  refine .get_bind (.bind (onFs_ensures (s := s) (h.rest.lock hmem)) ?_)
  rintro - - ⟨u, rfl, hbusy, hview⟩
  have hv := hbusy.inv.valid _ (Or.inl rfl)
  have ha := hbusy.inv.allocated _ hv
  have hn : toUint n < UINT := by
    rw [toUint]
    have huint : UINT = 4294967296 := rfl
    omega
  refine .bind (onFs_ensures (s := { s with fs := u }) ((readi_spec hsb (hbusy.inv.range _ hmem)
    hbusy.inv.sound.ok hv ha (hbusy.inv.sound.whole _ ha) dst hoff hn).and_ends
    (readi_le_length dst a _ _))) ?_
  rintro ⟨r, bs⟩ - ⟨u', rfl, ⟨rfl, hprefix, -⟩, hle⟩
  refine .bind (advance_spec r) ?_
  rintro - t ⟨hmoved, -⟩
  have htree : SameTree (files sb s.fs) (files sb u') := by
    rw [files, files, hview]
    exact .refl _
  refine .bind (h.transferred hmoved hbusy htree) ?_
  rintro - w ⟨hbetween, hmoved', -, hrefs, hview'⟩
  refine .pure ⟨hbetween, hmoved', hrefs, hview'.trans hview, hle, ?_⟩
  rw [← hview]
  exact hprefix

end Transfer

end Xv6.Fs
