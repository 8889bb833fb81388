import Xv6.Fs.Calls
import Xv6.Fs.Path

/-!
# What the calls that change names do

For every call of `Calls` there is a lemma that says what it does to the files when it succeeds, and that
it does nothing to them when it fails.  Between calls no inode is locked, and an inode without links is one
that somebody holds (`Rest`); every call keeps this.

`sys_link` raises the count before it knows whether the entry can be written, `sys_mkdir` builds a
directory before it links it, and the last reference to an inode that is no longer linked frees it.  So the
lemmas follow the files through every one of these steps.
-/

namespace Xv6.Fs

open Bytes Program

variable {sb : Superblock} {R : Multiset ℕ} {L : Set ℕ} {s t : State} {i dp ip cwd k : ℕ} {x y : Node}
  {E : Panic → Prop} {F : Files}

/-! ## Between calls -/

/-- No inode is locked; those without links are held, and in memory; those that are held are files. -/
structure Rest (sb : Superblock) (R : Multiset ℕ) (s : State) : Prop where
  inv : Inv sb R ∅ s
  settled : ∀ i x, files sb s i = some x → x.nlink = 0 → (s.inode i).valid
  live : ∀ i ∈ R, files sb s i ≠ none

theorem Rest.held (h : Rest sb R s) : Held R (files sb s) := fun i x hx h0 =>
  h.inv.mem_of_valid i (h.settled i x hx h0)

theorem Rest.of_files (h : Rest sb R s) (hinv : Inv sb R ∅ t) (hfiles : files sb t = files sb s)
    (hkept : Kept R s t) : Rest sb R t where
  inv := hinv
  settled i x hx h0 := by
    rw [hfiles] at hx
    exact hkept i (h.held i x hx h0) (h.settled i x hx h0)
  live i hi := by
    rw [hfiles]
    exact h.live i hi

/-- A call that changes files: an inode that has lost its last link has been locked before. -/
theorem Rest.of_held (h : Rest sb R s) (hinv : Inv sb R ∅ t) (hkept : Kept R s t)
    (hheld : Held R (files sb t)) (hlive : ∀ i ∈ R, files sb t i ≠ none)
    (hnew : ∀ i ∈ R, ∀ x, files sb t i = some x → x.nlink = 0 →
      (∃ y, files sb s i = some y ∧ y.nlink = 0) ∨ (t.inode i).valid) : Rest sb R t where
  inv := hinv
  settled i x hx h0 := by
    have hi := hheld i x hx h0
    rcases hnew i hi x hx h0 with ⟨y, hy, hy0⟩ | hv
    · exact hkept i hi (h.settled i y hy hy0)
    · exact hv
  live := hlive

/-- The panics that a call may end with. -/
structure Allows (E : Panic → Prop) (F : Files) : Prop where
  iget : E .igetNoInodes
  closed : Closed E F
  root : F ROOTINO = none → E .ilockNoType

theorem Allows.update (h : Allows E F) (hx : F i = some x) (htype : y.type = x.type)
    (hcontent : y.content = x.content) : Allows E (Function.update F i (some y)) where
  iget := h.iget
  closed j z hz hdir n l hl h0 := by
    have hnone : F l = none := by
      rw [Function.update_apply] at h0
      split at h0
      · exact nomatch h0
      · exact h0
    rw [Function.update_apply] at hz
    split at hz
    · rename_i hj
      obtain rfl := Option.some_inj.mp hz
      rw [hcontent] at hl
      exact h.closed i x hx (htype ▸ hdir) n l hl hnone
    · exact h.closed j z hz hdir n l hl hnone
  root h0 := by
    rw [Function.update_apply] at h0
    split at h0
    · exact nomatch h0
    · exact h.root h0

/-- The panics that `sys_unlink` may end with: a directory that is bound in itself, or a file with a name
and without links. -/
structure AllowsUnlink (E : Panic → Prop) (F : Files) : Prop extends Allows E F where
  deadlock : ∀ i x n, F i = some x → x.type = .ofNat T_DIR → n ≠ [46] → n ≠ [46, 46] →
    dirMap x.content n = some i → E .deadlock
  nlink : ∀ i x n j y, F i = some x → x.type = .ofNat T_DIR → n ≠ [46] → n ≠ [46, 46] →
    dirMap x.content n = some j → F j = some y → lessThanOne y.nlink = true → E .unlinkNlink

theorem Allows.walk (h : Allows E F) {ns : List (List UInt8)} :
    ∀ {i j : ℕ}, (F i = none → E .ilockNoType) → F.walk i ns = some j → F j = none → E .ilockNoType := by
  induction ns with
  | nil =>
    intro i j hi hwalk
    obtain rfl := Option.some_inj.mp hwalk
    exact hi
  | cons n ns ih =>
    intro i j hi hwalk
    rw [Files.walk_cons] at hwalk
    obtain ⟨l, hl, hwalk⟩ := Option.bind_eq_some_iff.mp hwalk
    refine ih (fun h0 => ?_) hwalk
    cases hx : F i with
    | none => exact hi hx
    | some x =>
      simp only [Files.step, hx] at hl
      split at hl
      · rename_i hdir
        exact h.closed i x hx hdir n l hl h0
      · cases hl

theorem Allows.start (h : Allows E F) (hcwd : F cwd ≠ none) (path : List UInt8) :
    F (startOf cwd path) = none → E .ilockNoType := by
  rw [startOf]
  split
  · exact h.root
  · exact fun h0 => absurd h0 hcwd

/-! ## Effects -/

/-- A file with another link count. -/
def Node.addLinks (x : Node) (n : UInt16) : Node := { x with nlink := x.nlink + n }

/-- A directory with another entry at `k`. -/
def Node.enter (y : Node) (k : ℕ) (name : Mem) (i : ℕ) : Node :=
  { y with content := overwrite y.content (16 * k) (direntBytes name (.ofNat i)) }

/-- In directory `y` the name `n` is not bound, and there is room for it at `k`. -/
structure Room (y : Node) (n : List UInt8) (k : ℕ) : Prop where
  absent : dirMap y.content n = none
  le : k ≤ numEntries y.content
  empty : k < numEntries y.content → (entry y.content k).inum = 0

/-- What `sys_link` does: file `ip` has a name more, in directory `dp`. -/
inductive Linked (R : Multiset ℕ) (F : Files) (ip dp : ℕ) (name : Mem) : Files → Prop
  | intro {x y : Node} {k : ℕ} (hx : F ip = some x) (hfile : x.type ≠ .ofNat T_DIR)
    (hy : F dp = some y) (hdir : y.type = .ofNat T_DIR) (hroom : Room y (nameOf name) k) :
    Linked R F ip dp name (Files.drop (Function.update (Function.update F ip (some (x.addLinks 1))) dp
      (some (y.enter k name ip))) R ip)

/-- A directory without its entry at `k`, which was for a file of a type. -/
def Node.erase (y : Node) (k : ℕ) (type : UInt16) : Node :=
  { y with
    content := overwrite y.content (16 * k) (List.replicate 16 0)
    nlink := if type = .ofNat T_DIR then y.nlink - 1 else y.nlink }

/-- What `sys_unlink` does: the name `n` of file `ip` is gone from directory `dp`. -/
inductive Unlinked (R : Multiset ℕ) (F : Files) (ip dp : ℕ) (n : List UInt8) : Files → Prop
  | intro {x y : Node} {k : ℕ} (hx : F ip = some x) (hy : F dp = some y) (hdir : y.type = .ofNat T_DIR)
    (hnames : Names y.content k n ip) (hne : ip ≠ dp) (hlinks : lessThanOne x.nlink = false)
    (hempty : x.type = .ofNat T_DIR → ∀ l, 2 ≤ l → l < numEntries x.content → (entry x.content l).inum = 0)
    (hdot : n ≠ [46]) (hdotdot : n ≠ [46, 46]) :
    Unlinked R F ip dp n (Files.drop (Function.update
      (Files.drop (Function.update F dp (some (y.erase k x.type))) (ip ::ₘ R) dp) ip
      (some { x with nlink := x.nlink - 1 })) R ip)

/-- The content of a new directory. -/
def dotsContent (ip dp : ℕ) : List UInt8 := direntBytes dot (.ofNat ip) ++ direntBytes dotdot (.ofNat dp)

/-- A new file, in directory `dp`. -/
def newNode (type major minor : UInt16) (ip dp : ℕ) : Node :=
  ⟨type, major, minor, 1, if type = .ofNat T_DIR then dotsContent ip dp else []⟩

/-- A directory with an entry for a new file of a type at `k`. -/
def Node.enterNew (y : Node) (k : ℕ) (name : Mem) (i : ℕ) (type : UInt16) : Node :=
  { y.enter k name i with nlink := if type = .ofNat T_DIR then y.nlink + 1 else y.nlink }

/-- What `create` does when it makes a file: inode `ip` is a new file, in directory `dp`. -/
inductive Created (R : Multiset ℕ) (F : Files) (type major minor : UInt16) (ip dp : ℕ) (name : Mem) :
    Files → Prop
  | intro {y : Node} {k : ℕ} (hip : F ip = none) (hpos : 0 < ip) (hy : F dp = some y)
    (hdir : y.type = .ofNat T_DIR) (hroom : Room y (nameOf name) k) :
    Created R F type major minor ip dp name (Files.drop (Function.update
      (Function.update F ip (some (newNode type major minor ip dp))) dp
      (some (y.enterNew k name ip type))) (ip ::ₘ R) dp)

theorem update_addLinks (hx : F i = some x) :
    Function.update (Function.update F i (some (x.addLinks 1))) i
      (some { x.addLinks 1 with nlink := (x.addLinks 1).nlink - 1 }) = F := by
  have hback : ({ x.addLinks 1 with nlink := (x.addLinks 1).nlink - 1 } : Node) = x := by
    simp only [Node.addLinks, UInt16.add_sub_cancel]
  rw [Function.update_idem, hback]
  exact Function.update_eq_self_iff.mpr hx.symm

theorem Held.cons (h : Held R F) : Held (i ::ₘ R) F := fun j x hx h0 =>
  Multiset.mem_cons_of_mem (h j x hx h0)

theorem Held.update (h : Held R F) (hi : x.nlink = 0 → i ∈ R) :
    Held R (Function.update F i (some x)) := by
  intro j y hy h0
  rw [Function.update_apply] at hy
  split at hy
  · rename_i hj
    obtain rfl := Option.some_inj.mp hy
    exact hj ▸ hi h0
  · exact h j y hy h0

theorem Linked.held {F' : Files} {name : Mem} (h : Linked R F ip dp name F') (hheld : Held R F) :
    Held R F' := by
  obtain ⟨hx, -, hy, -, -⟩ := h
  refine Held.drop ((hheld.cons.update fun _ => Multiset.mem_cons_self ip R).update fun h0 => ?_)
  exact Multiset.mem_cons_of_mem (hheld dp _ hy h0)

theorem Linked.ne_none {F' : Files} {name : Mem} (h : Linked R F ip dp name F') (hi : i ∈ R)
    (hne : F i ≠ none) : F' i ≠ none := by
  obtain ⟨-, -, -, -, -⟩ := h
  refine Files.drop_ne_none hi ?_
  rw [Function.update_apply]
  split
  · exact nofun
  · rw [Function.update_apply]
    split
    · exact nofun
    · exact hne

theorem Linked.of_ne {F' : Files} {name : Mem} (h : Linked R F ip dp name F') (hi : i ≠ ip)
    (hx : F' i = some x) (h0 : x.nlink = 0) : ∃ y, F i = some y ∧ y.nlink = 0 := by
  obtain @⟨z, y, k, -, -, hy, -, -⟩ := h
  have hx := Files.of_drop hx
  rw [Function.update_apply] at hx
  split at hx
  · rename_i hdp
    obtain rfl := Option.some_inj.mp hx
    exact ⟨y, hdp ▸ hy, h0⟩
  · rw [Function.update_of_ne hi] at hx
    exact ⟨x, hx, h0⟩

theorem Unlinked.held {F' : Files} {n : List UInt8} (h : Unlinked R F ip dp n F') (hheld : Held R F) :
    Held R F' := by
  obtain ⟨-, -, -, -, -, -, -, -, -⟩ := h
  refine Held.drop (Held.update (Held.drop ?_) fun _ => Multiset.mem_cons_self ip R)
  exact (hheld.cons.cons).update fun _ => Multiset.mem_cons_self dp _

theorem Unlinked.ne_none {F' : Files} {n : List UInt8} (h : Unlinked R F ip dp n F') (hi : i ∈ R)
    (hne : F i ≠ none) : F' i ≠ none := by
  obtain ⟨-, -, -, -, -, -, -, -, -⟩ := h
  refine Files.drop_ne_none hi ?_
  rw [Function.update_apply]
  split
  · exact nofun
  · refine Files.drop_ne_none (Multiset.mem_cons_of_mem hi) ?_
    rw [Function.update_apply]
    split
    · exact nofun
    · exact hne

theorem Unlinked.of_ne {F' : Files} {n : List UInt8} (h : Unlinked R F ip dp n F') (hip : i ≠ ip)
    (hdp : i ≠ dp) (hx : F' i = some x) : F i = some x := by
  obtain ⟨-, -, -, -, -, -, -, -, -⟩ := h
  have hx := Files.of_drop hx
  rw [Function.update_of_ne hip] at hx
  have hx := Files.of_drop hx
  rwa [Function.update_of_ne hdp] at hx

section Created

variable {F' : Files} {type major minor : UInt16} {name : Mem}

theorem Created.held (h : Created R F type major minor ip dp name F') (hheld : Held R F) : Held R F' := by
  obtain @⟨y, k, hip, -, hy, -, -⟩ := h
  intro i x hx h0
  have hall : Held (ip ::ₘ R) _ := Held.drop (i := dp) (F := Function.update
      (Function.update F ip (some (newNode type major minor ip dp))) dp (some (y.enterNew k name ip type)))
    ((hheld.cons.cons.update fun _ => Multiset.mem_cons_of_mem (Multiset.mem_cons_self ip R)).update
      fun _ => Multiset.mem_cons_self dp _)
  rcases Multiset.mem_cons.mp (hall i x hx h0) with rfl | hi
  · -- the new file has a link
    have hx := Files.of_drop hx
    rw [Function.update_of_ne (by rintro rfl; exact nomatch hip.symm.trans hy), Function.update_self] at hx
    obtain rfl := Option.some_inj.mp hx
    exact nomatch h0
  · exact hi

theorem Created.ne_none (h : Created R F type major minor ip dp name F') (hi : i ∈ R) (hne : F i ≠ none) :
    F' i ≠ none := by
  obtain ⟨-, -, -, -, -⟩ := h
  refine Files.drop_ne_none (Multiset.mem_cons_of_mem hi) ?_
  rw [Function.update_apply]
  split
  · exact nofun
  · rw [Function.update_apply]
    split
    · exact nofun
    · exact hne

theorem Created.of_ne (h : Created R F type major minor ip dp name F') (hip : i ≠ ip) (hdp : i ≠ dp)
    (hx : F' i = some x) : F i = some x := by
  obtain ⟨-, -, -, -, -⟩ := h
  have hx := Files.of_drop hx
  rwa [Function.update_of_ne hdp, Function.update_of_ne hip] at hx

end Created

section Calls

variable (hsb : sb.Ok)

include hsb

theorem setNlink_spec (h : Inv sb R L s) (hi : i ∈ L) (hx : files sb s i = some x) (f : UInt16 → UInt16) :
    Ensures (setNlink sb i f) s fun _ t => Inv sb R L t ∧
      files sb t = Function.update (files sb s) i (some { x with nlink := f x.nlink }) ∧ Kept R s t := by
  refine (save_spec hsb h hi hx (f := fun d => { d with nlink := f d.nlink })
    fun d => ⟨rfl, rfl, fun _ => rfl⟩).mono ?_
  rintro - t ⟨hinv, hfiles, hvalid⟩
  refine ⟨hinv, ?_, .of_eq hvalid⟩
  rw [hfiles, View.eq_of_node hx]

omit hsb in
theorem getInode_spec (h : Inv sb R L s) (hi : i ∈ L) (hx : files sb s i = some x) :
    Ensures (getInode i) s fun d t => d.type = x.type ∧ d.nlink = x.nlink ∧ t = s := by
  refine ensures_getInode_bind (.pure ⟨?_, ?_, rfl⟩)
  · rw [← h.dinode_of_locked hi, View.type_of_node hx]
  · rw [← h.dinode_of_locked hi, View.nlink_of_node hx]

theorem namei_spec (h : Inv sb R ∅ s) (hcwd : cwd ∈ R) (hlive : files sb s cwd ≠ none)
    (hheld : Held R (files sb s)) (hE : Allows E (files sb s)) {path : List UInt8}
    (hpath : ∀ c ∈ path, c ≠ 0) :
    Yields E (namei sb cwd path) s fun r t => Quiet sb R s t ∧
      match r with
      | none => Inv sb R ∅ t
      | some ip => Inv sb (ip ::ₘ R) ∅ t ∧
        (files sb s).walk (startOf cwd path) (components path) = some ip := by
  refine .bind (namex_spec hsb hE.iget noName hpath h hcwd hheld hE.closed (hE.start hlive path)) ?_
  rintro r t ⟨hquiet, hinv, hres⟩
  rw [Resolves, if_neg Bool.false_ne_true] at hres
  cases r with
  | none => exact .pure ⟨hquiet, hinv⟩
  | some y => exact .pure ⟨hquiet, hinv, hres.symm⟩

theorem parent_spec (h : Inv sb R ∅ s) (hcwd : cwd ∈ R) (hlive : files sb s cwd ≠ none)
    (hheld : Held R (files sb s)) (hE : Allows E (files sb s)) {path : List UInt8}
    (hpath : ∀ c ∈ path, c ≠ 0) (name : Mem) :
    Yields E (nameiparent sb cwd path name) s fun r t => Quiet sb R s t ∧
      match r with
      | none => Inv sb R ∅ t
      | some (dp, m) => Inv sb (dp ::ₘ R) ∅ t ∧
        (files sb s).walkParent (startOf cwd path) (components path) = some (dp, nameOf m) := by
  refine (namex_spec hsb hE.iget name hpath h hcwd hheld hE.closed (hE.start hlive path)).mono ?_
  rintro r t ⟨hquiet, hinv, hres⟩
  refine ⟨hquiet, ?_⟩
  rw [Resolves, if_pos rfl] at hres
  cases r with
  | none => exact hinv
  | some y => exact ⟨hinv, hres.symm⟩

omit hsb in
theorem lockDir_spec (h : Inv sb (dp ::ₘ R) ∅ s) (hdir : (files sb s).IsDir dp) :
    Yields E (ilock sb dp) s fun _ t => Quiet sb (dp ::ₘ R) s t ∧
      ∃ y, files sb s dp = some y ∧ OpenDir sb (dp ::ₘ R) (insert dp ∅) t dp y := by
  obtain ⟨y, hy, htype⟩ := hdir
  refine (ilock_spec h (Multiset.mem_cons_self dp R) (fun hcon => absurd hcon (Set.notMem_empty dp))
    fun hcon => nomatch hcon.symm.trans hy).mono ?_
  rintro - t ⟨-, -, hinv, hquiet⟩
  exact ⟨hquiet, y, hy, hinv, Or.inl rfl, by rw [hquiet.files, hy], htype⟩

/-! ## `sys_link` -/

/-- **`bad:`** lowers the count again. -/
theorem linkBad_spec (h : Inv sb (ip ::ₘ R) ∅ s) (hx : files sb s ip = some x)
    (hheld : Held R (Function.update (files sb s) ip (some { x with nlink := x.nlink - 1 }))) :
    Yields E (linkBad sb ip) s fun r t => r = -1 ∧ Inv sb R ∅ t ∧
      files sb t = Function.update (files sb s) ip (some { x with nlink := x.nlink - 1 }) ∧ Kept R s t := by
  have hmem : ip ∈ insert ip (∅ : Set ℕ) := Or.inl rfl
  refine .bind (ilock_spec h (Multiset.mem_cons_self ip R) (fun hcon => absurd hcon (Set.notMem_empty ip))
    fun hcon => nomatch hcon.symm.trans hx) ?_
  rintro - t ⟨-, -, hinv, hquiet⟩
  have hfiles := hquiet.files
  refine .bind (setNlink_spec hsb hinv hmem (by rw [hfiles, hx]) (· - 1)).yields ?_
  rintro - u ⟨hinv', hfiles', hkept⟩
  rw [hfiles] at hfiles'
  refine .bind (iunlockput_spec hinv' (Set.notMem_empty ip) (hfiles' ▸ hheld)).yields ?_
  rintro - w ⟨hinv'', hquiet'⟩
  refine .pure ⟨rfl, hinv'', hquiet'.files.trans hfiles', ?_⟩
  exact (Kept.trans hquiet.valid hkept).of_cons.trans hquiet'.valid

/-- `sys_link` after the count of file `ip`, which was `x` among the files `F`, has been raised. -/
theorem linkEnter_spec (h : Inv sb (ip ::ₘ R) ∅ s) (hv : (s.inode ip).valid) (hx : F ip = some x)
    (hfile : x.type ≠ .ofNat T_DIR) (hheld : Held R F)
    (hfiles : files sb s = Function.update F ip (some (x.addLinks 1))) (hE : Allows E F) (hcwd : cwd ∈ R)
    (hlive : F cwd ≠ none) {new : List UInt8} (hnew : ∀ c ∈ new, c ≠ 0) :
    Yields E (linkEnter sb cwd ip new) s fun r t => Inv sb R ∅ t ∧ Kept R s t ∧
      (r = -1 ∧ files sb t = F ∨ r = 0 ∧ ∃ dp name,
        F.walkParent (startOf cwd new) (components new) = some (dp, nameOf name) ∧
        Linked R F ip dp name (files sb t)) := by
  have hnames : SameNames F (files sb s) := hfiles ▸ .update hx rfl fun _ => rfl
  have hpos : 0 < ip := h.sound.pos (x := x.addLinks 1) (by
    change files sb s ip = _
    rw [hfiles, Function.update_self])
  have hip : ip < sb.ninodes := h.range ip (Multiset.mem_cons_self ip R)
  have hheld₁ : Held (ip ::ₘ R) (files sb s) := hfiles ▸ hheld.cons.update fun _ => Multiset.mem_cons_self ip R
  -- `bad:`, from any state with the same files
  have hbad : ∀ u, Inv sb (ip ::ₘ R) ∅ u → files sb u = files sb s → Kept R s u →
      Yields E (linkBad sb ip) u fun r t => Inv sb R ∅ t ∧ Kept R s t ∧
        (r = -1 ∧ files sb t = F ∨ r = 0 ∧ ∃ dp name,
          F.walkParent (startOf cwd new) (components new) = some (dp, nameOf name) ∧
          Linked R F ip dp name (files sb t)) := by
    intro u hinv hu hkept
    have hxu : files sb u ip = some (x.addLinks 1) := by rw [hu, hfiles, Function.update_self]
    have hback : Function.update (files sb u) ip
        (some { x.addLinks 1 with nlink := (x.addLinks 1).nlink - 1 }) = F := by
      rw [hu, hfiles]
      exact update_addLinks hx
    refine (linkBad_spec hsb hinv hxu (hback ▸ hheld)).mono ?_
    rintro r t ⟨rfl, hinv', hfiles', hkept'⟩
    exact ⟨hinv', hkept.trans hkept', Or.inl ⟨rfl, hfiles'.trans hback⟩⟩
  refine .bind (parent_spec hsb h (Multiset.mem_cons_of_mem hcwd) ?_ hheld₁ ?_ hnew noName) ?_
  · rw [hfiles, Function.update_apply]
    split
    · exact nofun
    · exact hlive
  · exact hfiles ▸ hE.update hx rfl rfl
  rintro r t ⟨hquiet, hr⟩
  cases r with
  | none => exact hbad t hr hquiet.files hquiet.of_cons.valid
  | some z =>
    obtain ⟨dp, name⟩ := z
    obtain ⟨hinv, hparent⟩ := hr
    obtain ⟨hdir, -⟩ := Files.walk_of_walkParent _ _ hparent
    refine .bind (lockDir_spec hinv (hquiet.files ▸ hdir)) ?_
    rintro - u ⟨hquiet', y, hy, hopen⟩
    have hfiles_u : files sb u = files sb s := hquiet'.files.trans hquiet.files
    have hkept_u : Kept (ip ::ₘ R) s u := Kept.trans hquiet.valid hquiet'.of_cons.valid
    refine .bind (hopen.dirlink_spec hsb name hpos hip hE.iget) ?_
    rintro r w ⟨hinv_w, hkept_w, hlinked⟩
    have hkept : Kept (ip ::ₘ R) s w := hkept_u.trans (Kept.of_cons hkept_w)
    rcases hlinked with ⟨rfl, habsent, k, hk, hempty, hfiles_w⟩ | ⟨rfl, hfiles_w⟩
    · refine .ite (fun hcon => absurd hcon (by decide)) fun _ => ?_
      rw [hfiles_u] at hfiles_w
      have hy' : files sb s dp = some y := by rw [← hquiet.files, hy]
      have hne : dp ≠ ip := by
        rintro rfl
        rw [hfiles, Function.update_self] at hy'
        exact hfile ((congrArg Node.type (Option.some_inj.mp hy')).trans hopen.type)
      have hheld_w : Held (ip ::ₘ R) (files sb w) := hfiles_w ▸ hheld₁.update fun h0 => hheld₁ dp y hy' h0
      refine .bind (iunlockput_spec hinv_w (Set.notMem_empty dp) hheld_w).yields ?_
      rintro - v ⟨hinv_v, hquiet_v⟩
      have hkept_v : Kept (ip ::ₘ R) s v := hkept.trans hquiet_v.valid
      refine .bind (put_spec hsb hinv_v (Set.notMem_empty ip)
        (hkept_v ip (Multiset.mem_cons_self ip R) hv)).yields ?_
      rintro - q ⟨hinv_q, hfiles_q, hkept_q⟩
      refine .pure ⟨hinv_q, hkept_v.of_cons.trans hkept_q, Or.inr ⟨rfl, dp, name,
        hnames.walkParent ▸ hparent, ?_⟩⟩
      rw [hfiles_q, hquiet_v.files, hfiles_w, hfiles]
      rw [hfiles, Function.update_of_ne hne] at hy'
      exact .intro hx hfile hy' hopen.type ⟨habsent, hk, hempty⟩
    · refine .ite (fun _ => ?_) fun hcon => absurd (by decide) hcon
      refine .bind (iunlockput_spec hinv_w (Set.notMem_empty dp) ?_).yields ?_
      · rw [hfiles_w, hfiles_u]
        exact hheld₁
      · rintro - v ⟨hinv_v, hquiet_v⟩
        refine hbad v hinv_v ?_ (hkept.trans hquiet_v.valid).of_cons
        rw [hquiet_v.files, hfiles_w, hfiles_u]

/-- **`sys_link`** gives a file a name more, or changes no file. -/
theorem sysLink_spec (h : Rest sb R s) (hE : Allows E (files sb s)) (hcwd : cwd ∈ R)
    {old new : Option (List UInt8)} (hold : ∀ p ∈ old, ∀ c ∈ p, c ≠ 0) (hnew : ∀ p ∈ new, ∀ c ∈ p, c ≠ 0) :
    Yields E (sysLink sb cwd old new) s fun r t => Rest sb R t ∧
      (r = -1 ∧ files sb t = files sb s ∨
        r = 0 ∧ ∃ p q ip dp name, old = some p ∧ new = some q ∧
          (files sb s).walk (startOf cwd p) (components p) = some ip ∧
          (files sb s).walkParent (startOf cwd q) (components q) = some (dp, nameOf name) ∧
          Linked R (files sb s) ip dp name (files sb t)) := by
  have hbad : Yields E (pure (-1)) s fun (r : ℤ) t => Rest sb R t ∧
      (r = -1 ∧ files sb t = files sb s ∨
        r = 0 ∧ ∃ p q ip dp name, old = some p ∧ new = some q ∧
          (files sb s).walk (startOf cwd p) (components p) = some ip ∧
          (files sb s).walkParent (startOf cwd q) (components q) = some (dp, nameOf name) ∧
          Linked R (files sb s) ip dp name (files sb t)) := .pure ⟨h, Or.inl ⟨rfl, rfl⟩⟩
  cases old with
  | none => exact hbad
  | some p =>
  cases new with
  | none => exact hbad
  | some q =>
  have hlive := h.live cwd hcwd
  -- the file
  refine .bind (namei_spec hsb h.inv hcwd hlive h.held hE (hold p rfl)) ?_
  rintro r t ⟨hquiet, hr⟩
  cases r with
  | none => exact .pure ⟨h.of_files hr hquiet.files hquiet.valid, Or.inl ⟨rfl, hquiet.files⟩⟩
  | some ip =>
    obtain ⟨hinv, hwalk⟩ := hr
    have hmem : ip ∈ insert ip (∅ : Set ℕ) := Or.inl rfl
    refine .bind (ilock_spec hinv (Multiset.mem_cons_self ip R)
      (fun hcon => absurd hcon (Set.notMem_empty ip)) fun h0 => ?_) ?_
    · rw [hquiet.files] at h0
      exact hE.walk (hE.start hlive p) hwalk h0
    rintro - u ⟨-, ⟨x, hx⟩, hinv_u, hquiet_u⟩
    have hfiles_u : files sb u = files sb s := hquiet_u.files.trans hquiet.files
    have hx_u : files sb u ip = some x := by rw [hquiet_u.files, hx]
    have hx_s : files sb s ip = some x := by rw [← hfiles_u, hx_u]
    have hkept_u : Kept R s u := Kept.trans hquiet.valid hquiet_u.of_cons.valid
    refine .bind (getInode_spec hinv_u hmem hx_u).yields ?_
    rintro d u ⟨hd, -, rfl⟩
    rw [hd]
    refine .ite (fun _ => ?_) fun hfile => ?_
    · refine .bind (iunlockput_spec hinv_u (Set.notMem_empty ip) (hfiles_u ▸ h.held)).yields ?_
      rintro - w ⟨hinv_w, hquiet_w⟩
      have hfiles_w := hquiet_w.files.trans hfiles_u
      exact .pure ⟨h.of_files hinv_w hfiles_w (hkept_u.trans hquiet_w.valid), Or.inl ⟨rfl, hfiles_w⟩⟩
    · -- the count is raised
      refine .bind (setNlink_spec hsb hinv_u hmem hx_u (· + 1)).yields ?_
      rintro - w ⟨hinv_w, hfiles_w, hkept_w⟩
      refine .bind (iunlock_spec hinv_w (Set.notMem_empty ip)).yields ?_
      rintro - v ⟨hinv_v, hquiet_v⟩
      have hv : (v.inode ip).valid := hquiet_v.valid ip (Multiset.mem_cons_self ip R) (hinv_w.valid ip hmem)
      have hkept_v : Kept R s v := (hkept_u.trans hkept_w.of_cons).trans hquiet_v.of_cons.valid
      refine (linkEnter_spec hsb hinv_v hv hx_s hfile h.held ?_ hE hcwd hlive (hnew q rfl)).mono ?_
      · rw [hquiet_v.files, hfiles_w, hfiles_u]
        rfl
      rintro r z ⟨hinv_q, hkept_q, hr⟩
      rcases hr with ⟨rfl, hfiles_q⟩ | ⟨rfl, dp, name, hparent, hlinked⟩
      · exact ⟨h.of_files hinv_q hfiles_q (hkept_v.trans hkept_q), Or.inl ⟨rfl, hfiles_q⟩⟩
      · refine ⟨h.of_held hinv_q (hkept_v.trans hkept_q) (hlinked.held h.held)
          (fun i hi => hlinked.ne_none hi (h.live i hi)) fun i hi y hy h0 => ?_,
          Or.inr ⟨rfl, p, q, ip, dp, name, rfl, rfl, hwalk, hparent, hlinked⟩⟩
        by_cases hip : i = ip
        · subst hip
          exact Or.inr (hkept_q i hi hv)
        · exact Or.inl (hlinked.of_ne hip hy h0)

/-! ## `sys_unlink` -/

omit hsb in
theorem unlinkBad_spec (h : Inv sb (dp ::ₘ R) (insert dp ∅) s) (hheld : Held R (files sb s)) :
    Ensures (unlinkBad sb dp) s fun r t => r = -1 ∧ Inv sb R ∅ t ∧ Quiet sb R s t := by
  refine .bind (iunlockput_spec h (Set.notMem_empty dp) hheld) ?_
  rintro - t ⟨hinv, hquiet⟩
  exact .pure ⟨rfl, hinv, hquiet⟩

theorem removable_spec (h : Inv sb R L s) (hi : i ∈ L) (hx : files sb s i = some x) :
    Ensures (removable sb i x.type) s fun r t => t = s ∧ (r = true ↔ (x.type = .ofNat T_DIR →
      ∀ l, 2 ≤ l → l < numEntries x.content → (entry x.content l).inum = 0)) := by
  refine .ite (fun hdir => ?_) fun hdir => .pure ⟨rfl, iff_of_true rfl fun hcon => absurd hcon hdir⟩
  refine (OpenDir.isdirempty_spec hsb ⟨h, hi, hx, hdir⟩).mono ?_
  rintro r t ⟨rfl, hr⟩
  exact ⟨rfl, hr.trans ⟨fun hall _ => hall, fun hall => hall hdir⟩⟩

theorem whenDir_spec (h : Inv sb R L s) (hi : i ∈ L) (hy : files sb s i = some y) (type : UInt16)
    (f : UInt16 → UInt16) :
    Ensures (whenDir type (setNlink sb i f)) s fun _ t => Inv sb R L t ∧
      files sb t = Function.update (files sb s) i
        (some { y with nlink := if type = .ofNat T_DIR then f y.nlink else y.nlink }) ∧ Kept R s t := by
  refine .ite (fun hdir => ?_) fun hdir => .pure ⟨h, ?_, fun _ _ hv => hv⟩
  · rw [if_pos hdir]
    exact setNlink_spec hsb h hi hy f
  · rw [if_neg hdir]
    exact (Function.update_eq_self_iff.mpr hy.symm).symm

theorem unlinkEntry_spec (h : OpenDir sb (ip ::ₘ dp ::ₘ R) (insert ip (insert dp ∅)) s dp y)
    (hx : files sb s ip = some x) {n : List UInt8} (hnames : Names y.content k n ip) (hne : ip ≠ dp)
    (hlinks : lessThanOne x.nlink = false)
    (hempty : x.type = .ofNat T_DIR → ∀ l, 2 ≤ l → l < numEntries x.content → (entry x.content l).inum = 0)
    (hdot : n ≠ [46]) (hdotdot : n ≠ [46, 46]) :
    Ensures (unlinkEntry sb dp ip (16 * k)) s fun r t => r = 0 ∧ Inv sb R ∅ t ∧ Kept R s t ∧
      Unlinked R (files sb s) ip dp n (files sb t) := by
  have hroot := hsb.root
  have hip : ip ∈ insert ip (insert dp (∅ : Set ℕ)) := Or.inl rfl
  obtain ⟨hok, -⟩ := h.dirOk.dirMap_erase (by omega) hnames
  refine .bind (h.writeDirent_spec hsb List.length_replicate hnames.lt.le hok) ?_
  rintro r t ⟨hinv, hvalid, hr⟩
  obtain ⟨rfl, hfiles⟩ := hr.resolve_right fun hcon => absurd hnames.lt (by omega)
  refine .ite (fun hcon => absurd rfl hcon) fun _ => ?_
  have hx_t : files sb t ip = some x := by rw [hfiles, Function.update_of_ne hne, hx]
  refine .bind (getInode_spec hinv hip hx_t) ?_
  rintro d t ⟨hd, -, rfl⟩
  rw [hd]
  have hy_t : files sb t dp = some { y with content := overwrite y.content (16 * k) (List.replicate 16 0) } := by
    rw [hfiles, Function.update_self]
  refine .bind (whenDir_spec hsb hinv h.mem hy_t x.type (· - 1)) ?_
  rintro - u ⟨hinv_u, hfiles_u, hkept_u⟩
  rw [hfiles, Function.update_idem] at hfiles_u
  -- the directory is given up first
  rw [Multiset.cons_swap, Set.insert_comm] at hinv_u
  refine .bind (unlockPut_spec hsb hinv_u (by simpa using hne.symm)) ?_
  rintro - w ⟨hinv_w, hfiles_w, hkept_w⟩
  have hx_w : files sb w ip = some x := by
    rw [hfiles_w]
    rcases Files.drop_cases (files sb u) (ip ::ₘ R) dp with hsame | ⟨-, hdrop⟩
    · rw [hsame, hfiles_u, Function.update_of_ne hne, hx]
    · rw [hdrop, Function.update_of_ne hne, hfiles_u, Function.update_of_ne hne, hx]
  refine .bind (setNlink_spec hsb hinv_w (Or.inl rfl) hx_w (· - 1)) ?_
  rintro - v ⟨hinv_v, hfiles_v, hkept_v⟩
  refine .bind (unlockPut_spec hsb hinv_v (Set.notMem_empty ip)) ?_
  rintro - q ⟨hinv_q, hfiles_q, hkept_q⟩
  refine .pure ⟨rfl, hinv_q, ?_, ?_⟩
  · have hkept : Kept (ip ::ₘ R) s w :=
      (Kept.of_eq hvalid).trans ((Kept.of_cons (i := dp) (by rwa [Multiset.cons_swap])).trans hkept_w)
    exact (hkept.trans hkept_v).of_cons.trans hkept_q
  · rw [hfiles_q, hfiles_v, hfiles_w, hfiles_u]
    exact .intro hx h.file h.type hnames hne hlinks hempty hdot hdotdot

/-- **`sys_unlink`** takes a name from a file, or changes no file. -/
theorem sysUnlink_spec (h : Rest sb R s) (hE : AllowsUnlink E (files sb s)) (hcwd : cwd ∈ R)
    {path : Option (List UInt8)} (hpath : ∀ p ∈ path, ∀ c ∈ p, c ≠ 0) :
    Yields E (sysUnlink sb cwd path) s fun r t => Rest sb R t ∧
      (r = -1 ∧ files sb t = files sb s ∨
        r = 0 ∧ ∃ p ip dp n, path = some p ∧
          (files sb s).walkParent (startOf cwd p) (components p) = some (dp, n) ∧
          Unlinked R (files sb s) ip dp n (files sb t)) := by
  cases path with
  | none => exact .pure ⟨h, Or.inl ⟨rfl, rfl⟩⟩
  | some p =>
  refine .bind (parent_spec hsb h.inv hcwd (h.live cwd hcwd) h.held hE.toAllows (hpath p rfl) noName) ?_
  rintro r t ⟨hquiet, hr⟩
  cases r with
  | none => exact .pure ⟨h.of_files hr hquiet.files hquiet.valid, Or.inl ⟨rfl, hquiet.files⟩⟩
  | some z =>
    obtain ⟨dp, name⟩ := z
    obtain ⟨hinv, hparent⟩ := hr
    obtain ⟨hdir, -⟩ := Files.walk_of_walkParent _ _ hparent
    refine .bind (lockDir_spec hinv (hquiet.files ▸ hdir)) ?_
    rintro - u ⟨hquiet_u, y, hy, hopen⟩
    have hfiles_u : files sb u = files sb s := hquiet_u.files.trans hquiet.files
    have hkept_u : Kept R s u := Kept.trans hquiet.valid hquiet_u.of_cons.valid
    have hy_s : files sb s dp = some y := by rw [← hquiet.files, hy]
    -- `bad:`, from any state with the same files
    have hbad : ∀ w, Inv sb (dp ::ₘ R) (insert dp ∅) w → files sb w = files sb s → Kept R s w →
        Yields E (unlinkBad sb dp) w fun r t => Rest sb R t ∧
          (r = -1 ∧ files sb t = files sb s ∨
            r = 0 ∧ ∃ q ip dp n, some p = some q ∧
              (files sb s).walkParent (startOf cwd q) (components q) = some (dp, n) ∧
              Unlinked R (files sb s) ip dp n (files sb t)) := by
      intro w hinv_w hfiles_w hkept_w
      refine ((unlinkBad_spec hinv_w (hfiles_w ▸ h.held)).mono ?_).yields
      rintro r t ⟨rfl, hinv_t, hquiet_t⟩
      have hfiles_t := hquiet_t.files.trans hfiles_w
      exact ⟨h.of_files hinv_t hfiles_t (hkept_w.trans hquiet_t.valid), Or.inl ⟨rfl, hfiles_t⟩⟩
    refine .ite (fun _ => hbad u hopen.inv hfiles_u hkept_u) fun hdots => ?_
    rw [namecmp_eq_zero_iff, namecmp_eq_zero_iff, not_or] at hdots
    obtain ⟨hdot, hdotdot⟩ := hdots
    refine .bind (hopen.dirlookup_spec hsb name hE.iget) ?_
    rintro r w ⟨hfind, hr⟩
    cases r with
    | none =>
      obtain rfl : w = u := hr
      exact hbad w hopen.inv hfiles_u hkept_u
    | some z =>
      obtain ⟨ip, off⟩ := z
      obtain ⟨hinv_w, hquiet_w, -⟩ := hr
      obtain ⟨k, rfl, hnames⟩ := Names.of_find hfind.symm
      have hfiles_w : files sb w = files sb s := hquiet_w.files.trans hfiles_u
      have hbound : dirMap y.content (nameOf name) = some ip :=
        hopen.dirOk.dirMap_eq_some_iff.mpr ⟨k, hnames⟩
      refine .bind (ilock_spec hinv_w (Multiset.mem_cons_self ip _) (fun hlocked => ?_) fun h0 => ?_) ?_
      · obtain rfl : ip = dp := by simpa using hlocked
        exact hE.deadlock ip y _ hy_s hopen.type hdot hdotdot hbound
      · rw [hfiles_w] at h0
        exact hE.closed dp y hy_s hopen.type _ ip hbound h0
      rintro - v ⟨hne, ⟨x, hx⟩, hinv_v, hquiet_v⟩
      have hne : ip ≠ dp := by simpa using hne
      have hfiles_v : files sb v = files sb s := hquiet_v.files.trans hfiles_w
      have hx_v : files sb v ip = some x := by rw [hquiet_v.files, hx]
      have hkept_v : Kept R s v :=
        (hkept_u.trans hquiet_w.of_cons.valid).trans hquiet_v.of_cons.of_cons.valid
      refine .bind (getInode_spec hinv_v (Or.inl rfl) hx_v).yields ?_
      rintro d v ⟨hd, hd', rfl⟩
      rw [hd, hd']
      refine .ite (fun hlinks => .panic ?_) fun hlinks => ?_
      · exact hE.nlink dp y _ ip x hy_s hopen.type hdot hdotdot hbound (by rw [← hfiles_v, hx_v]) hlinks
      refine .bind (removable_spec hsb hinv_v (Or.inl rfl) hx_v).yields ?_
      rintro r v ⟨rfl, hr⟩
      refine .ite (fun _ => ?_) fun hempty => ?_
      · refine .bind (iunlockput_spec hinv_v (by simpa using hne) (hfiles_v ▸ h.held.cons)).yields ?_
        rintro - q ⟨hinv_q, hquiet_q⟩
        exact hbad q hinv_q (hquiet_q.files.trans hfiles_v) (hkept_v.trans hquiet_q.of_cons.valid)
      · have hr := hr.mp (by simpa using hempty)
        have hopen_v : OpenDir sb (ip ::ₘ dp ::ₘ R) (insert ip (insert dp ∅)) v dp y :=
          ⟨hinv_v, Or.inr (Or.inl rfl), by rw [hfiles_v, hy_s], hopen.type⟩
        refine ((unlinkEntry_spec hsb hopen_v hx_v hnames hne (by simpa using hlinks) hr hdot
          hdotdot).mono ?_).yields
        rintro r q ⟨rfl, hinv_q, hkept_q, hunlinked⟩
        rw [hfiles_v] at hunlinked
        refine ⟨h.of_held hinv_q (hkept_v.trans hkept_q) (hunlinked.held h.held)
          (fun i hi => hunlinked.ne_none hi (h.live i hi)) fun i hi z hz h0 => ?_,
          Or.inr ⟨rfl, p, ip, dp, nameOf name, rfl, hparent, hunlinked⟩⟩
        by_cases hip : i = ip
        · exact Or.inr (hip ▸ hkept_q ip (hip ▸ hi) (hinv_v.valid ip (Or.inl rfl)))
        · by_cases hdp : i = dp
          · exact Or.inr (hdp ▸ hkept_q dp (hdp ▸ hi) (hinv_v.valid dp (Or.inr (Or.inl rfl))))
          · exact Or.inl ⟨z, hunlinked.of_ne hip hdp hz, h0⟩

/-! ## `create` -/

theorem createDots_spec (h : Inv sb R L s) (hip : ip ∈ L) (hx : files sb s ip = some x)
    (hnil : x.content = []) (hdp : 0 < dp) (hdp' : dp < sb.ninodes) (hE : E .igetNoInodes) :
    Yields E (createDots sb ip dp x.type) s fun r t => Inv sb R L t ∧ Kept R s t ∧
      ∃ c, files sb t = Function.update (files sb s) ip (some { x with content := c }) ∧
        (r = true → c = if x.type = .ofNat T_DIR then dotsContent ip dp else []) := by
  have hpos : 0 < ip := h.sound.pos hx
  have hlt := h.lt_of_locked hip
  have hsame : files sb s = Function.update (files sb s) ip (some { x with content := [] }) := by
    rw [← hnil]
    exact (Function.update_eq_self_iff.mpr hx.symm).symm
  refine .ite (fun hdir => ?_) fun hdir => .pure ⟨h, fun _ _ hv => hv, [], hsame, fun _ => ?_⟩
  swap
  · rw [if_neg hdir]
  have hopen : OpenDir sb R L s ip x := ⟨h, hip, hx, hdir⟩
  refine .bind (hopen.dirlink_spec hsb dot hpos hlt hE) ?_
  rintro r t ⟨hinv, hkept, hr⟩
  rcases hr with ⟨rfl, -, k, hk, -, hfiles⟩ | ⟨rfl, hfiles⟩
  swap
  · refine .ite (fun _ => ?_) fun hcon => absurd (by decide) hcon
    exact .pure ⟨hinv, hkept, [], hfiles.trans hsame, fun hcon => absurd hcon (by decide)⟩
  refine .ite (fun hcon => absurd hcon (by decide)) fun _ => ?_
  obtain rfl : k = 0 := by
    rw [hnil] at hk
    exact Nat.le_zero.mp hk
  have hfirst : overwrite x.content (16 * 0) (direntBytes dot (.ofNat ip)) = direntBytes dot (.ofNat ip) := by
    rw [hnil]
    simp [overwrite]
  rw [hfirst] at hfiles
  have hopen_t : OpenDir sb R L t ip { x with content := direntBytes dot (.ofNat ip) } :=
    ⟨hinv, hip, by rw [hfiles, Function.update_self], hdir⟩
  refine .bind (hopen_t.dirlink_spec hsb dotdot hdp hdp' hE) ?_
  rintro r u ⟨hinv_u, hkept_u, hr⟩
  rcases hr with ⟨rfl, -, k, hk, hempty, hfiles_u⟩ | ⟨rfl, hfiles_u⟩
  swap
  · exact .pure ⟨hinv_u, Kept.trans hkept hkept_u, _, hfiles_u.trans hfiles,
      fun hcon => absurd hcon (by decide)⟩
  -- the first entry is not empty
  obtain rfl : k = 1 := by
    dsimp only at hk hempty
    rw [numEntries_direntBytes] at hk hempty
    by_contra hne
    obtain rfl : k = 0 := by omega
    have h0 := hempty Nat.one_pos
    rw [entry_direntBytes, decode_direntBytes_inum] at h0
    have hninodes := hsb.ninodes_le
    have hinum : (UInt16.ofNat ip).toNat = ip := UInt16.toNat_ofNat_of_lt' (show ip < 65536 by omega)
    rw [h0] at hinum
    exact hpos.ne hinum
  have hsecond : overwrite (direntBytes dot (.ofNat ip)) (16 * 1) (direntBytes dotdot (.ofNat dp)) =
      dotsContent ip dp := by
    have hlen := overwrite_length (direntBytes dot (.ofNat ip)) (direntBytes dotdot (.ofNat dp))
    rw [length_direntBytes] at hlen
    exact hlen
  rw [hsecond, hfiles, Function.update_idem] at hfiles_u
  refine .pure ⟨hinv_u, Kept.trans hkept hkept_u, _, hfiles_u, fun _ => ?_⟩
  rw [if_pos hdir]

/-- **`fail:`** The new inode is freed. -/
theorem createFail_spec (h : Inv sb (ip ::ₘ dp ::ₘ R) (insert ip (insert dp ∅)) s)
    (hip : F ip = none) (hne : ip ≠ dp) (hnot : ip ∉ R) (hfiles : files sb s = Function.update F ip (some x))
    (hheld : Held R F) :
    Ensures (createFail sb ip dp) s fun r t => r = none ∧ Inv sb R ∅ t ∧ files sb t = F ∧ Kept R s t := by
  have hx : files sb s ip = some x := by rw [hfiles, Function.update_self]
  refine .bind (setNlink_spec hsb h (Or.inl rfl) hx fun _ => 0) ?_
  rintro - t ⟨hinv, hfiles_t, hkept⟩
  refine .bind (unlockPut_spec hsb hinv (by simpa using hne)) ?_
  rintro - u ⟨hinv_u, hfiles_u, hkept_u⟩
  have hlast : ip ∉ dp ::ₘ R := fun hcon => hnot ((Multiset.mem_cons.mp hcon).resolve_left hne)
  rw [Files.drop_of_last (x := { x with nlink := 0 }) (by rw [hfiles_t, Function.update_self]) rfl hlast,
    hfiles_t, hfiles, Function.update_idem, Function.update_idem] at hfiles_u
  have hback : files sb u = F := hfiles_u.trans (Function.update_eq_self_iff.mpr hip.symm)
  refine .bind (iunlockput_spec hinv_u (Set.notMem_empty dp) (hback ▸ hheld)) ?_
  rintro - w ⟨hinv_w, hquiet_w⟩
  exact .pure ⟨rfl, hinv_w, hquiet_w.files.trans hback,
    (hkept.of_cons.trans hkept_u).of_cons.trans hquiet_w.valid⟩

/-- The file that `create` returns is locked; the rest is as between calls. -/
structure Opened (sb : Superblock) (R : Multiset ℕ) (ip : ℕ) (s : State) : Prop where
  inv : Inv sb (ip ::ₘ R) (insert ip ∅) s
  settled : ∀ i x, files sb s i = some x → x.nlink = 0 → i ∈ R ∧ (s.inode i).valid
  live : ∀ i ∈ R, files sb s i ≠ none

/-- `create` after a new inode has been taken and locked, which was free among the files `F`. -/
theorem createEnter_spec {type major minor : UInt16}
    (h : Inv sb (ip ::ₘ dp ::ₘ R) (insert ip (insert dp ∅)) s) (hip : F ip = none) (hne : ip ≠ dp)
    (hnot : ip ∉ R) (hfiles : files sb s = Function.update F ip (some ⟨type, major, minor, 1, []⟩))
    (hy : F dp = some y) (hdir : y.type = .ofNat T_DIR) (hheld : Held R F) (hE : E .igetNoInodes)
    (name : Mem) :
    Yields E (createEnter sb ip dp name type) s fun r t => Kept R s t ∧
      match r with
      | none => Inv sb R ∅ t ∧ files sb t = F
      | some i => i = ip ∧ Inv sb (ip ::ₘ R) (insert ip ∅) t ∧
        Created R F type major minor ip dp name (files sb t) := by
  have hx : files sb s ip = some ⟨type, major, minor, 1, []⟩ := by rw [hfiles, Function.update_self]
  have hmem : dp ∈ insert ip (insert dp (∅ : Set ℕ)) := Or.inr (Or.inl rfl)
  have hy_s : files sb s dp = some y := by rw [hfiles, Function.update_of_ne hne.symm, hy]
  have hpos : 0 < ip := h.sound.pos hx
  -- `fail:`, from any state in which only the new inode differs
  have hfail : ∀ u c, Inv sb (ip ::ₘ dp ::ₘ R) (insert ip (insert dp ∅)) u → Kept (ip ::ₘ dp ::ₘ R) s u →
      files sb u = Function.update F ip (some ⟨type, major, minor, 1, c⟩) →
      Yields E (createFail sb ip dp) u fun r t => Kept R s t ∧
        match r with
        | none => Inv sb R ∅ t ∧ files sb t = F
        | some i => i = ip ∧ Inv sb (ip ::ₘ R) (insert ip ∅) t ∧
          Created R F type major minor ip dp name (files sb t) := by
    intro u c hinv hkept hu
    refine ((createFail_spec hsb hinv hip hne hnot hu hheld).mono ?_).yields
    rintro r t ⟨rfl, hinv_t, hfiles_t, hkept_t⟩
    exact ⟨hkept.of_cons.of_cons.trans hkept_t, hinv_t, hfiles_t⟩
  refine .bind (createDots_spec hsb h (Or.inl rfl) hx rfl (h.sound.pos hy_s) (h.lt_of_locked hmem) hE) ?_
  rintro r t ⟨hinv, hkept, c, hfiles_t, hc⟩
  rw [hfiles, Function.update_idem] at hfiles_t
  refine .ite (fun _ => hfail t c hinv hkept hfiles_t) fun hr => ?_
  have hc := hc (by simpa using hr)
  have hy_t : files sb t dp = some y := by rw [hfiles_t, Function.update_of_ne hne.symm, hy]
  have hopen : OpenDir sb (ip ::ₘ dp ::ₘ R) (insert ip (insert dp ∅)) t dp y := ⟨hinv, hmem, hy_t, hdir⟩
  refine .bind (hopen.dirlink_spec hsb name hpos (h.lt_of_locked (Or.inl rfl)) hE) ?_
  rintro r u ⟨hinv_u, hkept_u, hr⟩
  rcases hr with ⟨rfl, habsent, k, hk, hempty, hfiles_u⟩ | ⟨rfl, hfiles_u⟩
  swap
  · refine .ite (fun _ => ?_) fun hcon => absurd (by decide) hcon
    exact hfail u c hinv_u (hkept.trans hkept_u) (hfiles_u.trans hfiles_t)
  refine .ite (fun hcon => absurd hcon (by decide)) fun _ => ?_
  have hy_u : files sb u dp = some (y.enter k name ip) := by
    rw [hfiles_u, Function.update_self]
    rfl
  refine .bind (whenDir_spec hsb hinv_u hmem hy_u type (· + 1)).yields ?_
  rintro - w ⟨hinv_w, hfiles_w, hkept_w⟩
  rw [hfiles_u, Function.update_idem, hfiles_t, hc] at hfiles_w
  have hkept_sw : Kept (ip ::ₘ dp ::ₘ R) s w := (hkept.trans hkept_u).trans hkept_w
  rw [Multiset.cons_swap, Set.insert_comm] at hinv_w
  refine .bind (unlockPut_spec hsb hinv_w (by simpa using hne.symm)).yields ?_
  rintro - v ⟨hinv_v, hfiles_v, hkept_v⟩
  refine .pure ⟨hkept_sw.of_cons.of_cons.trans hkept_v.of_cons, rfl, hinv_v, ?_⟩
  rw [hfiles_v, hfiles_w]
  exact .intro hip hpos hy hdir ⟨habsent, hk, hempty⟩

/-- **`create`** makes a file, finds one, or changes nothing. -/
theorem create_spec (h : Rest sb R s) (hE : Allows E (files sb s)) (hcwd : cwd ∈ R) {path : List UInt8}
    (hpath : ∀ c ∈ path, c ≠ 0) {type : UInt16} (htype : type ≠ 0) (major minor : UInt16) :
    Yields E (create sb cwd path type major minor) s fun r t =>
      match r with
      | none => Rest sb R t ∧ files sb t = files sb s ∧
        ((files sb s).walk (startOf cwd path) (components path) = none ∨ view sb t = view sb s)
      | some ip => Opened sb R ip t ∧
        ((view sb t = view sb s ∧ type = .ofNat T_FILE ∧ ∃ x, files sb s ip = some x ∧
            (x.type = .ofNat T_FILE ∨ x.type = .ofNat T_DEVICE) ∧
            (files sb s).walk (startOf cwd path) (components path) = some ip) ∨
          ∃ dp name, (files sb s).walkParent (startOf cwd path) (components path) = some (dp, nameOf name) ∧
            Created R (files sb s) type major minor ip dp name (files sb t)) := by
  have hlive := h.live cwd hcwd
  refine .bind (parent_spec hsb h.inv hcwd hlive h.held hE hpath noName) ?_
  rintro r t ⟨hquiet, hr⟩
  cases r with
  | none => exact .pure ⟨h.of_files hr hquiet.files hquiet.valid, hquiet.files, Or.inr hquiet.view⟩
  | some z =>
    obtain ⟨dp, name⟩ := z
    obtain ⟨hinv, hparent⟩ := hr
    obtain ⟨hdir, hwalk⟩ := Files.walk_of_walkParent _ _ hparent
    refine .bind (lockDir_spec hinv (hquiet.files ▸ hdir)) ?_
    rintro - u ⟨hquiet_u, y, hy, hopen⟩
    have hfiles_u : files sb u = files sb s := hquiet_u.files.trans hquiet.files
    have hkept_u : Kept R s u := Kept.trans hquiet.valid hquiet_u.of_cons.valid
    have hy_s : files sb s dp = some y := by rw [← hquiet.files, hy]
    refine .bind (hopen.dirlookup_spec hsb name hE.iget) ?_
    rintro r w ⟨hfind, hr⟩
    cases r with
    | some z =>
      -- the name is there
      obtain ⟨ip, off⟩ := z
      obtain ⟨hinv_w, hquiet_w, -⟩ := hr
      have hfiles_w : files sb w = files sb s := hquiet_w.files.trans hfiles_u
      have hbound : dirMap y.content (nameOf name) = some ip := by
        rw [dirMap, ← hfind]
        rfl
      rw [Multiset.cons_swap] at hinv_w
      refine .bind (iunlockput_spec hinv_w (Set.notMem_empty dp) (hfiles_w ▸ h.held.cons)).yields ?_
      rintro - v ⟨hinv_v, hquiet_v⟩
      have hfiles_v : files sb v = files sb s := hquiet_v.files.trans hfiles_w
      refine .bind (ilock_spec hinv_v (Multiset.mem_cons_self ip R)
        (fun hcon => absurd hcon (Set.notMem_empty ip)) fun h0 => ?_) ?_
      · rw [hfiles_v] at h0
        exact hE.closed dp y hy_s hopen.type _ ip hbound h0
      rintro - q ⟨-, ⟨x, hx⟩, hinv_q, hquiet_q⟩
      have hview_q : view sb q = view sb s := hquiet_q.view.trans (hquiet_v.view.trans
        (hquiet_w.view.trans (hquiet_u.view.trans hquiet.view)))
      have hfiles_q : files sb q = files sb s := hquiet_q.files.trans hfiles_v
      have hx_q : files sb q ip = some x := by rw [hquiet_q.files, hx]
      have hkept_q : Kept R s q := ((hkept_u.trans hquiet_w.of_cons.valid).trans
        hquiet_v.of_cons.valid).trans hquiet_q.of_cons.valid
      refine .bind (getInode_spec hinv_q (Or.inl rfl) hx_q).yields ?_
      rintro d q ⟨hd, -, rfl⟩
      rw [hd]
      refine .ite (fun hfile => ?_) fun _ => ?_
      · refine .pure ⟨⟨hinv_q, fun i z hz h0 => ?_, fun i hi => ?_⟩, Or.inl ⟨hview_q, hfile.1, x, ?_,
          hfile.2, ?_⟩⟩
        · rw [hfiles_q] at hz
          have hi := h.held i z hz h0
          exact ⟨hi, hkept_q i hi (h.settled i z hz h0)⟩
        · rw [hfiles_q]
          exact h.live i hi
        · rw [← hfiles_q, hx_q]
        · rw [hwalk, Files.step_of_dir hy_s hopen.type, hbound]
      · refine .bind (iunlockput_spec hinv_q (Set.notMem_empty ip) (hfiles_q ▸ h.held)).yields ?_
        rintro - q' ⟨hinv', hquiet'⟩
        have hfiles' := hquiet'.files.trans hfiles_q
        exact .pure ⟨h.of_files hinv' hfiles' (hkept_q.trans hquiet'.valid), hfiles',
          Or.inr (hquiet'.view.trans hview_q)⟩
    | none =>
      obtain rfl : w = u := hr
      have habsent : (files sb s).walk (startOf cwd path) (components path) = none := by
        rw [hwalk, Files.step_of_dir hy_s hopen.type, dirMap, ← hfind]
        rfl
      refine .bind (ialloc_spec hsb hopen.inv hE.iget htype) ?_
      rintro r v hr
      cases r with
      | none =>
        obtain rfl : v = w := hr
        refine .bind (iunlockput_spec hopen.inv (Set.notMem_empty dp) (hfiles_u ▸ h.held)).yields ?_
        rintro - q ⟨hinv_q, hquiet_q⟩
        have hfiles_q := hquiet_q.files.trans hfiles_u
        exact .pure ⟨h.of_files hinv_q hfiles_q (hkept_u.trans hquiet_q.valid), hfiles_q, Or.inl habsent⟩
      | some ip =>
        -- a new inode
        obtain ⟨hpos, hip, hfiles_v, hinv_v, hkept_v⟩ := hr
        have hip_s : files sb s ip = none := by rw [← hfiles_u, hip]
        have hne : ip ≠ dp := by
          rintro rfl
          cases hip_s.symm.trans hy_s
        have hnot : ip ∉ R := fun hcon => h.live ip hcon hip_s
        have hx_v : files sb v ip = some ⟨type, 0, 0, 0, []⟩ := by rw [hfiles_v, Function.update_self]
        refine .bind (ilock_spec hinv_v (Multiset.mem_cons_self ip _) (fun hcon => ?_) fun hcon =>
          absurd (hcon.symm.trans hx_v) (Option.some_ne_none _).symm) ?_
        · exact absurd hcon (by simpa using hne)
        rintro - q ⟨-, -, hinv_q, hquiet_q⟩
        have hx_q : files sb q ip = some ⟨type, 0, 0, 0, []⟩ := by rw [hquiet_q.files, hx_v]
        rw [← bind_assoc]
        refine .bind (save_spec hsb hinv_q (Or.inl rfl) hx_q
          (f := fun d => { d with major := major, minor := minor, nlink := 1 })
          fun d => ⟨rfl, rfl, fun _ => rfl⟩).yields ?_
        rintro - p ⟨hinv_p, hfiles_p, hvalid_p⟩
        rw [hquiet_q.files, hfiles_v, Function.update_idem, hfiles_u] at hfiles_p
        have hkept_p : Kept (dp ::ₘ R) w p :=
          (Kept.trans hkept_v hquiet_q.of_cons.valid).trans (.of_eq hvalid_p)
        refine (createEnter_spec hsb hinv_p hip_s hne hnot hfiles_p hy_s hopen.type h.held hE.iget name).mono ?_
        rintro r z ⟨hkept_z, hr⟩
        have hkept : Kept R s z := (hkept_u.trans hkept_p.of_cons).trans hkept_z
        cases r with
        | none => exact ⟨h.of_files hr.1 hr.2 hkept, hr.2, Or.inl habsent⟩
        | some i =>
          obtain ⟨rfl, hinv_z, hcreated⟩ := hr
          refine ⟨⟨hinv_z, fun j x hx h0 => ?_, fun j hj => hcreated.ne_none hj (h.live j hj)⟩,
            Or.inr ⟨dp, name, hparent, hcreated⟩⟩
          have hj := hcreated.held h.held j x hx h0
          refine ⟨hj, ?_⟩
          by_cases hjdp : j = dp
          · subst hjdp
            exact hkept_z j hj (hinv_p.valid j (Or.inr (Or.inl rfl)))
          · have hji : j ≠ i := fun hcon => hnot (hcon ▸ hj)
            exact hkept j hj (h.settled j x (hcreated.of_ne hji hjdp hx) h0)

omit hsb in
theorem Opened.close (h : Opened sb R ip s) :
    Ensures (iunlockput sb ip) s fun _ t => Rest sb R t ∧ files sb t = files sb s := by
  refine (iunlockput_spec h.inv (Set.notMem_empty ip) fun i x hx h0 => (h.settled i x hx h0).1).mono ?_
  rintro - t ⟨hinv, hquiet⟩
  refine ⟨⟨hinv, fun i x hx h0 => ?_, fun i hi => ?_⟩, hquiet.files⟩
  · rw [hquiet.files] at hx
    obtain ⟨hi, hv⟩ := h.settled i x hx h0
    exact hquiet.valid i hi hv
  · rw [hquiet.files]
    exact h.live i hi

/-- **`sys_mkdir` and `sys_mknod`** make a file, or change nothing. -/
theorem sysMake_spec (h : Rest sb R s) (hE : Allows E (files sb s)) (hcwd : cwd ∈ R)
    {path : Option (List UInt8)} (hpath : ∀ p ∈ path, ∀ c ∈ p, c ≠ 0) {type : UInt16} (htype : type ≠ 0)
    (hfile : type ≠ .ofNat T_FILE) (major minor : UInt16) :
    Yields E (sysMake sb cwd path type major minor) s fun r t => Rest sb R t ∧
      (r = -1 ∧ files sb t = files sb s ∨
        r = 0 ∧ ∃ p ip dp name, path = some p ∧
          (files sb s).walkParent (startOf cwd p) (components p) = some (dp, nameOf name) ∧
          Created R (files sb s) type major minor ip dp name (files sb t)) := by
  cases path with
  | none => exact .pure ⟨h, Or.inl ⟨rfl, rfl⟩⟩
  | some p =>
    refine .bind (create_spec hsb h hE hcwd (hpath p rfl) htype major minor) ?_
    rintro r t hr
    cases r with
    | none => exact .pure ⟨hr.1, Or.inl ⟨rfl, hr.2.1⟩⟩
    | some ip =>
      obtain ⟨hopened, hr⟩ := hr
      refine .bind hopened.close.yields ?_
      rintro - u ⟨hrest, hfiles⟩
      rcases hr with ⟨-, hcon, -⟩ | ⟨dp, name, hparent, hcreated⟩
      · exact absurd hcon hfile
      · exact .pure ⟨hrest, Or.inr ⟨rfl, p, ip, dp, name, rfl, hparent, hfiles ▸ hcreated⟩⟩

end Calls

end Xv6.Fs
