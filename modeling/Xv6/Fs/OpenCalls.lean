import Xv6.Fs.References

/-!
# What the calls with descriptors do

For `open`, `close`, `dup`, `chdir`, `fork` and `exit` there is a lemma that says how the references and the
files change, as there is for the calls that change names.  All of them leave the kernel between calls
again.

`sys_open` finds or makes a file before it looks for an entry of the file table and for a descriptor.  When
it cannot get both, it gives up the file, but does not take back what `create` has done.
-/

namespace Xv6.Fs

open Bytes Program Relation

variable {sb : Superblock} {s t : Sys} {p np : Fin NPROC} {f : Fin NFILE} {fd : Fin NOFILE}
  {R : Multiset ℕ} {u v : State} {i ip cwd : ℕ} {x : Node} {y : Proc} {E : Panic → Prop} {omode : UInt32}

/-! ## Entries of the tables -/

/-- **`filealloc`** takes an entry that is not in use. -/
theorem filealloc_spec : Ensures filealloc s fun r t =>
    match r with
    | none => t = s ∧ ∀ f, (s.file f).ref ≠ 0
    | some f => (s.file f).ref = 0 ∧ t = s.setFile f { s.file f with ref := 1 } := by
  refine .get_bind ?_
  split
  · rename_i hnone
    refine .pure ⟨rfl, fun f => ?_⟩
    simpa using List.find?_eq_none.mp hnone f (List.mem_finRange f)
  · rename_i f hf
    refine .bind (Ensures.set (Q := fun _ t => t = s.setFile f { s.file f with ref := 1 }) rfl) ?_
    rintro - - rfl
    exact .pure ⟨by simpa using List.find?_some hf, rfl⟩

/-- **`fdalloc`** takes a descriptor that is not in use. -/
theorem fdalloc_spec : Ensures (fdalloc p f) s fun r t =>
    match r with
    | none => t = s ∧ ∀ fd, s.ofile p fd ≠ none
    | some fd => s.ofile p fd = none ∧ t = s.setFd p fd (some f) := by
  refine .get_bind ?_
  split
  · rename_i hnone
    refine .pure ⟨rfl, fun fd => ?_⟩
    simpa using List.find?_eq_none.mp hnone fd (List.mem_finRange fd)
  · rename_i fd hfd
    refine .bind (Ensures.set (Q := fun _ t => t = s.setFd p fd (some f)) rfl) ?_
    rintro - - rfl
    exact .pure ⟨by simpa using List.find?_some hfd, rfl⟩

/-- No entry of the file table is free, or no descriptor of the process. -/
def Sys.NoRoom (s : Sys) (p : Fin NPROC) : Prop := (∀ f, (s.file f).ref ≠ 0) ∨ ∀ fd, s.ofile p fd ≠ none

theorem openFile_spec (h : s.Closed) : Ensures (openFile sb p) s fun r t =>
    match r with
    | none => t = s ∧ s.NoRoom p
    | some (f, fd) => (s.file f).ref = 0 ∧ t = (s.setFile f { s.file f with ref := 1 }).setFd p fd (some f) := by
  refine .bind filealloc_spec ?_
  rintro r t hr
  cases r with
  | none => exact .pure ⟨hr.1, Or.inl hr.2⟩
  | some f =>
    obtain ⟨href, rfl⟩ := hr
    refine .bind fdalloc_spec ?_
    rintro r t hr
    cases r with
    | some fd => exact .pure ⟨href, hr.2⟩
    | none =>
      obtain ⟨rfl, hfull⟩ := hr
      -- the entry is closed again, and is as it was
      have hback : (s.setFile f { s.file f with ref := 1 }).closeFile f = s := by
        have hfile : ({ s.file f with ref := 0, type := .none } : File) = s.file f := by
          rw [← h f href, ← href]
        rw [Sys.closeFile, Sys.setFile_self, Sys.setFile, Sys.setFile]
        dsimp only
        rw [Function.update_idem, hfile, Function.update_eq_self]
      have hself : (s.setFile f { s.file f with ref := 1 }).file f = { s.file f with ref := 1 } :=
        Sys.setFile_self
      refine .bind (P := fun _ t => t = s) ?_ ?_
      · refine .get_bind ?_
        rw [hself]
        refine .ite (fun hcon => absurd hcon (Nat.lt_irrefl 1)) fun _ =>
          .ite (fun hcon => absurd hcon (Nat.lt_irrefl 1)) fun _ => ?_
        have hclose : (s.setFile f { s.file f with ref := 1 }).setFile f
            { s.file f with ref := 0, type := .none } = s := by
          rw [Sys.closeFile, hself] at hback
          exact hback
        refine .bind (Ensures.set (Q := fun _ t => t = s) hclose) fun _ t ht => ?_
        refine .ite (fun hcon => ?_) fun _ => .pure ht
        rw [show ({ s.file f with ref := 1 } : File).type = .none from h f href] at hcon
        exact absurd hcon (by decide)
      · intro _ t ht
        exact .pure ⟨ht, Or.inr hfull⟩

/-! ## `sys_open` -/

theorem Rest.opened (h : Rest sb R u) (hinv : Inv sb (ip ::ₘ R) (insert ip ∅) v)
    (hfiles : files sb v = files sb u) (hkept : Kept R u v) : Opened sb R ip v where
  inv := hinv
  settled i x hx h0 := by
    rw [hfiles] at hx
    have hi := h.held i x hx h0
    exact ⟨hi, hkept i hi (h.settled i x hx h0)⟩
  live i hi := by
    rw [hfiles]
    exact h.live i hi

theorem Opened.keep (h : Opened sb R ip u) :
    Ensures (iunlock ip) u fun _ v => Rest sb (ip ::ₘ R) v ∧ view sb v = view sb u := by
  obtain ⟨x, hx⟩ := h.inv.exists_of_locked (Or.inl rfl)
  refine (iunlock_spec h.inv (Set.notMem_empty ip)).mono ?_
  rintro - v ⟨hinv, hquiet⟩
  refine ⟨⟨hinv, fun i z hz h0 => ?_, fun i hi => ?_⟩, hquiet.view⟩
  · rw [hquiet.files] at hz
    obtain ⟨hi, hv⟩ := h.settled i z hz h0
    exact hquiet.valid i (Multiset.mem_cons_of_mem hi) hv
  · rw [hquiet.files]
    rcases Multiset.mem_cons.mp hi with rfl | hi
    · rw [hx]
      exact nofun
    · exact h.live i hi

theorem Opened.trunc (hsb : sb.Ok) (h : Opened sb R ip u) (hx : files sb u ip = some x)
    (hfile : x.type ≠ .ofNat T_DIR) :
    Ensures (itrunc sb ip) u fun _ v => Opened sb R ip v ∧
      files sb v = Function.update (files sb u) ip (some { x with content := [] }) := by
  refine (truncate_spec hsb h.inv (Or.inl rfl) hx hfile).mono ?_
  rintro - v ⟨hinv, hfiles, hvalid⟩
  refine ⟨⟨hinv, fun i z hz h0 => ?_, fun i hi => ?_⟩, hfiles⟩
  · rw [hvalid]
    rw [hfiles, Function.update_apply] at hz
    split at hz
    · rename_i hip
      obtain rfl := Option.some_inj.mp hz
      exact h.settled i x (hip ▸ hx) h0
    · exact h.settled i z hz h0
  · rw [hfiles, Function.update_apply]
    split
    · exact nofun
    · exact h.live i hi

/-- `O_CREATE` is set. -/
def Creates (omode : UInt32) : Prop := omode &&& .ofNat O_CREATE ≠ 0

/-- What `create` can do to the files. -/
inductive Makes (cwd : ℕ) (path : List UInt8) (type major minor : UInt16) :
    Multiset ℕ × Files → Multiset ℕ × Files → Prop
  | nothing {z : Multiset ℕ × Files} : Makes cwd path type major minor z z
  | created {R : Multiset ℕ} {F F' : Files} {ip dp : ℕ} {name : Mem}
    (hparent : F.walkParent (startOf cwd path) (components path) = some (dp, nameOf name))
    (h : Created R F type major minor ip dp name F') : Makes cwd path type major minor (R, F) (R, F')

section Calls

variable (hsb : sb.Ok)

include hsb

/-- The inode that is opened: it is the one that the path leads to, or it is new. -/
theorem openInode_spec (h : Rest sb R u) (hE : Allows E (files sb u)) (hcwd : cwd ∈ R) {path : List UInt8}
    (hpath : ∀ c ∈ path, c ≠ 0) (omode : UInt32) :
    Yields E (openInode sb cwd path omode) u fun r v =>
      match r with
      | none => Rest sb R v ∧ files sb v = files sb u ∧ (view sb v = view sb u ∨
          Creates omode ∧ (files sb u).walk (startOf cwd path) (components path) = none)
      | some ip => Opened sb R ip v ∧ (∀ x, files sb v ip = some x → x.type = .ofNat T_DIR → omode = 0) ∧
        (view sb v = view sb u ∨
          Creates omode ∧ (files sb u).walk (startOf cwd path) (components path) = none ∧
          ∃ dp name, (files sb u).walkParent (startOf cwd path) (components path) = some (dp, nameOf name) ∧
            Created R (files sb u) (.ofNat T_FILE) 0 0 ip dp name (files sb v)) := by
  have hlive := h.live cwd hcwd
  refine .ite (fun hcreate => ?_) fun _ => ?_
  · refine (create_spec hsb h hE hcwd hpath (by decide) 0 0).mono fun r v hr => ?_
    cases r with
    | none => exact ⟨hr.1, hr.2.1, hr.2.2.symm.imp_right fun hwalk => ⟨hcreate, hwalk⟩⟩
    | some ip =>
      obtain ⟨hopened, hr⟩ := hr
      rcases hr with ⟨hview, -, x, hx, htype, -⟩ | ⟨dp, name, hparent, hcreated⟩
      · refine ⟨hopened, fun z hz hdir => ?_, Or.inl hview⟩
        rw [files, hview] at hz
        obtain rfl := Option.some_inj.mp (hx.symm.trans hz)
        rw [hdir] at htype
        exact absurd htype (by decide)
      · obtain ⟨-, hwalk⟩ := Files.walk_of_walkParent _ _ hparent
        refine ⟨hopened, fun z hz hdir => ?_, Or.inr ⟨hcreate, ?_, dp, name, hparent, hcreated⟩⟩
        · rw [hcreated.eq_newNode hz] at hdir
          exact absurd (show UInt16.ofNat T_FILE = .ofNat T_DIR from hdir) (by decide)
        · rw [hwalk, hcreated.absent]
  · refine .bind (namei_spec hsb h.inv hcwd hlive h.held hE hpath) ?_
    rintro r t ⟨hquiet, hr⟩
    cases r with
    | none =>
      exact .pure ⟨h.of_files hr hquiet.files hquiet.valid, hquiet.files, Or.inl hquiet.view⟩
    | some ip =>
      obtain ⟨hinv, hwalk⟩ := hr
      refine .bind (ilock_spec hinv (Multiset.mem_cons_self ip R)
        (fun hcon => absurd hcon (Set.notMem_empty ip)) fun h0 => ?_) ?_
      · rw [hquiet.files] at h0
        exact hE.walk (hE.start hlive path) hwalk h0
      rintro - v ⟨-, ⟨x, hx⟩, hinv', hquiet'⟩
      have hx' : files sb v ip = some x := by rw [hquiet'.files, hx]
      have hview : view sb v = view sb u := hquiet'.view.trans hquiet.view
      have hfiles : files sb v = files sb u := hquiet'.files.trans hquiet.files
      have hkept : Kept R u v := Kept.trans hquiet.valid hquiet'.of_cons.valid
      refine .bind (getInode_spec hinv' (Or.inl rfl) hx').yields ?_
      rintro d v ⟨hd, -, rfl⟩
      rw [hd]
      refine .ite (fun _ => ?_) fun hro => ?_
      · refine .bind (iunlockput_spec hinv' (Set.notMem_empty ip) (hfiles ▸ h.held)).yields ?_
        rintro - w ⟨hinv'', hquiet''⟩
        have hfiles' := hquiet''.files.trans hfiles
        exact .pure ⟨h.of_files hinv'' hfiles' (hkept.trans hquiet''.valid), hfiles',
          Or.inl (hquiet''.view.trans hview)⟩
      · refine .pure ⟨h.opened hinv' hfiles hkept, fun z hz hdir => ?_, Or.inl hview⟩
        obtain rfl := Option.some_inj.mp (hx'.symm.trans hz)
        by_contra hne
        exact hro ⟨hdir, hne⟩

theorem openTrunc_spec (h : Opened sb R ip u) (hx : files sb u ip = some x) {d : Dinode}
    (hd : d.type = x.type) :
    Ensures (openTrunc sb ip d omode) u fun _ v => Opened sb R ip v ∧ SameTree (files sb u) (files sb v) := by
  refine .ite (fun htrunc => ?_) fun _ => .pure ⟨h, .refl _⟩
  have hfile : x.type ≠ .ofNat T_DIR := by
    rw [← hd, htrunc.2]
    decide
  refine (h.trunc hsb hx hfile).mono ?_
  rintro - v ⟨hopened, hfiles⟩
  exact ⟨hopened, hfiles ▸ .content hx hfile []⟩

end Calls

/-- A call has locked inode `ip`; apart from that none is being made. -/
structure Opening (sb : Superblock) (ip : ℕ) (s : Sys) : Prop where
  opened : Opened sb s.refs ip s.fs
  closed : s.Closed
  noDir : ∀ f x, (s.file f).type = .inode → (s.file f).writable → files sb s.fs (s.file f).ip = some x →
    x.type ≠ .ofNat T_DIR

theorem File.refs_opened (z : File) (d : Dinode) : (z.opened ip d omode).refs = {ip} := by
  rw [File.refs, File.opened]
  dsimp only
  split
  · exact if_pos (Or.inr rfl)
  · exact if_pos (Or.inl rfl)

theorem Opening.close (h : Opening sb ip s) :
    Ensures (onFs (iunlockput sb ip)) s fun _ t => Between sb t ∧ t.file = s.file ∧ t.proc = s.proc ∧
      view sb t.fs = view sb s.fs := by
  have hheld : Held s.refs (files sb s.fs) := fun i x hx h0 => (h.opened.settled i x hx h0).1
  refine (onFs_ensures (s := s) ((h.opened.close).and
    (iunlockput_spec h.opened.inv (Set.notMem_empty ip) hheld))).mono ?_
  rintro - - ⟨v, rfl, ⟨hrest, hfiles⟩, -, hquiet⟩
  refine ⟨⟨hrest, h.closed, fun f x htype hw hx => ?_⟩, rfl, rfl, hquiet.view⟩
  rw [hfiles] at hx
  exact h.noDir f x htype hw hx

theorem openAs_spec (hsb : sb.Ok) (h : Opening sb ip s) (hx : files sb s.fs ip = some x) {d : Dinode}
    (hd : d.type = x.type) (hro : x.type = .ofNat T_DIR → omode = 0) :
    Ensures (openAs sb p ip d omode) s fun r t => Between sb t ∧
      ReflTransGen Holds (s.now sb) (t.now sb) ∧
      (r = -1 → t.file = s.file ∧ t.proc = s.proc ∧ view sb t.fs = view sb s.fs ∧ s.NoRoom p) := by
  refine .bind (openFile_spec h.closed) ?_
  rintro r t hr
  cases r with
  | none =>
    obtain ⟨rfl, hfull⟩ := hr
    refine .bind h.close ?_
    rintro - w ⟨hbetween, hfile, hproc, hview⟩
    refine .pure ⟨hbetween, ?_, fun _ => ⟨hfile, hproc, hview, hfull⟩⟩
    rw [Sys.now_congr (s := t) (t := w) (by rw [Sys.refs, Sys.refs, hfile, hproc])
      (by rw [files, files, hview])]
  | some z =>
    obtain ⟨f, fd⟩ := z
    obtain ⟨href, rfl⟩ := hr
    refine .modify_bind ?_
    obtain ⟨s₁, hs₁⟩ : ∃ s₁, s₁ = (s.setFile f { s.file f with ref := 1 }).setFd p fd (some f) := ⟨_, rfl⟩
    rw [← hs₁]
    have hfs : s₁.fs = s.fs := by rw [hs₁]; rfl
    have hself : s₁.file f = { s.file f with ref := 1 } := by
      rw [hs₁]
      exact Sys.setFile_self
    have hother : ∀ g, g ≠ f → s₁.file g = s.file g := fun g hg => by
      rw [hs₁]
      exact Sys.setFile_of_ne hg
    -- the new reference
    have hrefs : (s₁.setFile f ((s₁.file f).opened ip d omode)).refs = ip ::ₘ s.refs := by
      obtain ⟨R, hold, hnew⟩ := s₁.exists_refs_file f
      have hzero : (s₁.file f).refs = 0 := by
        rw [hself, File.refs]
        exact if_neg (by rw [show ({ s.file f with ref := 1 } : File).type = _ from h.closed f href]; decide)
      have hs : s₁.refs = s.refs := by
        rw [hs₁, Sys.refs_setFd]
        exact Sys.refs_setFile rfl
      rw [hnew, File.refs_opened, Multiset.singleton_add, ← hs, hold, hzero, zero_add]
    refine .bind (onFs_ensures (s := s₁.setFile f ((s₁.file f).opened ip d omode))
      (openTrunc_spec hsb (u := s₁.fs) (R := s.refs) (by rw [hfs]; exact h.opened) (by rw [hfs]; exact hx) hd)) ?_
    rintro - - ⟨v, rfl, hopened, htree⟩
    refine .bind (onFs_ensures (s := { s₁.setFile f ((s₁.file f).opened ip d omode) with fs := v })
      hopened.keep) ?_
    rintro - - ⟨w, rfl, hrest, hview⟩
    rw [hfs] at htree
    have hfiles : files sb w = files sb v := by rw [files, files, hview]
    have hself' : (s₁.setFile f ((s₁.file f).opened ip d omode)).file f = (s₁.file f).opened ip d omode :=
      Sys.setFile_self
    have hother' : ∀ g, g ≠ f → (s₁.setFile f ((s₁.file f).opened ip d omode)).file g = s.file g :=
      fun g hg => (Sys.setFile_of_ne hg).trans (hother g hg)
    refine .pure ⟨⟨hrefs.symm ▸ hrest, fun g hg => ?_, fun g z htype hw hz => ?_⟩, ?_, fun hcon => ?_⟩
    · dsimp only at hg ⊢
      by_cases hgf : g = f
      · rw [hgf, hself', hself] at hg
        exact absurd hg Nat.one_ne_zero
      · rw [hother' g hgf] at hg ⊢
        exact h.closed g hg
    · dsimp only at htype hw hz
      rw [hfiles] at hz
      by_cases hgf : g = f
      · -- a file that is open for writing is no directory
        subst hgf
        rw [hself'] at hw hz
        intro hdir
        obtain ⟨y, hy, halike⟩ := htree.exists_left hz
        obtain rfl := Option.some_inj.mp (hx.symm.trans hy)
        rw [halike.type] at hdir
        have h0 := hro hdir
        subst h0
        exact absurd hw (by simp [File.opened])
      · rw [hother' g hgf] at htype hw hz
        obtain ⟨y, hy, halike⟩ := htree.exists_left hz
        rw [halike.type]
        exact h.noDir g y htype hw hy
    · have hnow : Sys.now sb { s₁.setFile f ((s₁.file f).opened ip d omode) with fs := w } =
          (ip ::ₘ s.refs, files sb v) := by
        rw [Sys.now, ← hfiles]
        exact congrArg (·, files sb w) hrefs
      rw [hnow]
      exact (ReflTransGen.single (.take (by rw [hx]; exact Option.some_ne_none _))).tail (.tree htree)
    · omega

section Calls

variable (hsb : sb.Ok) (h : Between sb s)

include h

omit h in
theorem withProc_yields {g : Proc → SysM ℤ} {Q : ℤ → Sys → Prop} (hnone : s.proc p = none → Q (-1) s)
    (hsome : ∀ y, s.proc p = some y → Yields E (g y) s Q) : Yields E (withProc p g) s Q := by
  refine .get_bind ?_
  cases hp : s.proc p with
  | none => exact .pure (hnone hp)
  | some y => exact hsome y hp

theorem Between.opening (hopened : Opened sb s.refs ip u)
    (hstays : ∀ i ∈ s.refs, (files sb s.fs).Stays (files sb u) i) : Opening sb ip { s with fs := u } := by
  refine ⟨hopened, h.closed, fun f x htype hw hx => ?_⟩
  have hmem := Sys.ip_mem_refs (s := s) htype
  obtain ⟨z, hz⟩ := Option.ne_none_iff_exists'.mp (h.rest.live _ hmem)
  obtain ⟨y, hy, hyz⟩ := hstays _ hmem z hz
  obtain rfl := Option.some_inj.mp (hy.symm.trans hx)
  rw [hyz]
  exact h.noDir f z htype hw hz

include hsb

/-- **`sys_open`** makes a file, or not, and then opens one or gives it up. -/
theorem sysOpen_spec (hE : Allows E (files sb s.fs)) {path : Option (List UInt8)}
    (hpath : ∀ p ∈ path, ∀ c ∈ p, c ≠ 0) (omode : UInt32) :
    Yields E (sysOpen sb p path omode) s fun r t => Between sb t ∧
      (t.now sb = s.now sb ∨ ∃ y q z, s.proc p = some y ∧ path = some q ∧
        Makes y.cwd q (.ofNat T_FILE) 0 0 (s.now sb) z ∧ (Creates omode ∨ z = s.now sb) ∧
        ReflTransGen Holds z (t.now sb)) ∧
      (r = -1 → t.file = s.file ∧ t.proc = s.proc ∧ (view sb t.fs = view sb s.fs ∨
        ∃ y q, s.proc p = some y ∧ path = some q ∧ Creates omode ∧
          (files sb s.fs).walk (startOf y.cwd q) (components q) = none ∧
          (files sb t.fs = files sb s.fs ∨ s.NoRoom p))) := by
  refine withProc_yields (fun _ => ⟨h, Or.inl rfl, fun _ => ⟨rfl, rfl, Or.inl rfl⟩⟩) fun y hy => ?_
  cases path with
  | none => exact .pure ⟨h, Or.inl rfl, fun _ => ⟨rfl, rfl, Or.inl rfl⟩⟩
  | some q =>
  refine .bind (onFs_yields (openInode_spec hsb h.rest hE (Sys.cwd_mem_refs hy) (hpath q rfl) omode)) ?_
  rintro r - ⟨u, rfl, hr⟩
  cases r with
  | none =>
    obtain ⟨hrest, hfiles, hview⟩ := hr
    refine .pure ⟨h.setFs hrest fun i _ => by rw [hfiles]; exact .refl, Or.inl (Sys.now_congr rfl hfiles),
      fun _ => ⟨rfl, rfl, hview.imp_right fun hwalk => ⟨y, q, hy, rfl, hwalk.1, hwalk.2, Or.inl hfiles⟩⟩⟩
  | some ip =>
    obtain ⟨hopened, hro, hr⟩ := hr
    obtain ⟨x, hx⟩ := hopened.inv.exists_of_locked (Or.inl rfl)
    -- what has been made
    have hmakes : Makes y.cwd q (.ofNat T_FILE) 0 0 (s.now sb) (s.refs, files sb u) ∧
        (Creates omode ∨ (s.refs, files sb u) = s.now sb) ∧
        (∀ i ∈ s.refs, (files sb s.fs).Stays (files sb u) i) := by
      rcases hr with hview | ⟨hcreates, -, dp, name, hparent, hcreated⟩
      · have hfiles : files sb u = files sb s.fs := by rw [files, files, hview]
        rw [hfiles]
        exact ⟨.nothing, Or.inr rfl, fun i _ => .refl⟩
      · exact ⟨.created hparent hcreated, Or.inl hcreates, fun i hi => hcreated.stays hi⟩
    obtain ⟨hmakes, hcreates, hstays⟩ := hmakes
    have hopening := h.opening hopened hstays
    refine .bind (onFs_ensures (s := { s with fs := u })
      (getInode_spec hopened.inv (Or.inl rfl) hx)).yields ?_
    rintro d - ⟨v, rfl, hd, -, rfl⟩
    -- what a failure leaves
    have hfail : ∀ t : Sys, view sb t.fs = view sb v → files sb t.fs = files sb s.fs ∨ s.NoRoom p →
        view sb t.fs = view sb s.fs ∨ ∃ y' q', s.proc p = some y' ∧ some q = some q' ∧ Creates omode ∧
          (files sb s.fs).walk (startOf y'.cwd q') (components q') = none ∧
          (files sb t.fs = files sb s.fs ∨ s.NoRoom p) := by
      intro t hview hleft
      rcases hr with hview' | ⟨hcreates, hwalk, -⟩
      · exact Or.inl (hview.trans hview')
      · exact Or.inr ⟨y, q, hy, rfl, hcreates, hwalk, hleft⟩
    refine .ite (fun hmajor => ?_) fun _ => ?_
    · -- a device with a bad number is not new
      refine .bind hopening.close.yields ?_
      rintro - t ⟨hbetween, hfile, hproc, hview⟩
      have hnow : t.now sb = (s.refs, files sb v) := by
        refine Prod.ext ?_ (by rw [Sys.now, files, hview]; rfl)
        change t.refs = s.refs
        rw [Sys.refs, Sys.refs, hfile, hproc]
      refine .pure ⟨hbetween, Or.inr ⟨y, q, _, hy, rfl, hmakes, hcreates, hnow ▸ .refl⟩,
        fun _ => ⟨hfile, hproc, hfail t hview (Or.inl ?_)⟩⟩
      rcases hr with hview' | ⟨-, -, dp, name, -, hcreated⟩
      · rw [files, files, hview, hview']
      · rw [hd, hcreated.eq_newNode hx] at hmajor
        exact absurd (show UInt16.ofNat T_FILE = .ofNat T_DEVICE from hmajor.1) (by decide)
    · refine ((openAs_spec hsb hopening hx hd (hro x hx)).mono ?_).yields
      rintro r t ⟨hbetween, hholds, hfailed⟩
      refine ⟨hbetween, Or.inr ⟨y, q, _, hy, rfl, hmakes, hcreates, hholds⟩, fun hr => ?_⟩
      obtain ⟨hfile, hproc, hview, hfull⟩ := hfailed hr
      exact ⟨hfile, hproc, hfail t hview (Or.inr hfull)⟩

end Calls

end Xv6.Fs
