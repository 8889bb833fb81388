import Xv6.Fs.Lookup

/-!
# Paths

`components` are the elements of a path: what stands between slashes and is not empty, cut down to
`DIRSIZ` bytes.  Every turn of `namex` takes the first of them off (`skipelem_spec`).

On the files a path is a walk from inode to inode (`Files.step`), from the root or from the current
directory, and this is what `namex` computes, with a reference to the inode where the walk ends.  On the
way it gives up the references that it takes.  No file changes by that, since an inode without links has
another reference (`Settled`).
-/

namespace Xv6.Fs

open Bytes Program

/-! ## Elements of a path -/

/-- The elements of a path. -/
def components (path : List UInt8) : List (List UInt8) :=
  ((path.splitOn slash).filter fun e => e ≠ []).map fun e => e.take 14

theorem nameFrom_eq_take {m : Mem} (n : ℕ) : ∀ (l : List UInt8) (k : ℕ), (∀ c ∈ l, c ≠ 0) →
    (∀ j < l.length, j < n → m (k + j) = l.getD j 0) → (l.length < n → m (k + l.length) = 0) →
    nameFrom m n k = l.take n := by
  induction n with
  | zero => exact fun l k _ _ _ => rfl
  | succ n ih =>
    intro l k hne hbytes hend
    cases l with
    | nil =>
      rw [nameFrom, if_pos]
      · rfl
      · exact hend (Nat.succ_pos n)
    | cons c l =>
      have hfirst : m k = c := hbytes 0 (Nat.succ_pos _) (Nat.succ_pos n)
      rw [nameFrom, hfirst, if_neg (hne c List.mem_cons_self), List.take_succ_cons]
      refine congrArg (c :: ·) (ih l (k + 1) (fun c hc => hne c (List.mem_cons_of_mem _ hc)) ?_ ?_)
      · intro j hj hjn
        rw [Nat.add_assoc, Nat.add_comm 1 j]
        exact hbytes (j + 1) (Nat.succ_lt_succ hj) (by omega)
      · intro hlt
        rw [Nat.add_assoc, Nat.add_comm 1]
        exact hend (Nat.succ_lt_succ hlt)

theorem nameOf_copyElem (name : Mem) {elem : List UInt8} (hne : ∀ c ∈ elem, c ≠ 0) :
    nameOf (copyElem name elem) = elem.take 14 := by
  refine nameFrom_eq_take 14 elem 0 hne (fun j hj hjn => ?_) fun hlt => ?_
  · rw [copyElem, Nat.zero_add]
    split
    · exact if_pos hjn
    · exact if_pos hj
  · rw [copyElem, if_neg (by omega), Nat.zero_add, if_neg (lt_irrefl _), if_pos rfl]

theorem components_nil : components [] = [] := rfl

theorem components_slash (p : List UInt8) : components (slash :: p) = components p := by
  have hsplit : (slash :: p).splitOn slash = [] :: p.splitOn slash :=
    List.splitOnP_append_cons_of_forall_mem (fun _ hx => (List.not_mem_nil hx).elim) slash (by simp) p
  rw [components, hsplit]
  rfl

theorem components_dropSlashes (p : List UInt8) :
    components (p.dropWhile (· = slash)) = components p := by
  induction p with
  | nil => rfl
  | cons c p ih =>
    rw [List.dropWhile_cons]
    split
    · rename_i hc
      rw [ih, show c = slash by simpa using hc, components_slash]
    · rfl

theorem takeWhile_ne_slash (p : List UInt8) : ∀ c ∈ p.takeWhile (· ≠ slash), (c == slash) = false := by
  induction p with
  | nil => exact fun c hc => nomatch hc
  | cons d p ih =>
    intro c hc
    rw [List.takeWhile_cons] at hc
    split at hc
    · rename_i hd
      rcases List.mem_cons.mp hc with rfl | hc
      · simpa using hd
      · exact ih c hc
    · exact nomatch hc

/-- The first element of a path that does not begin with a slash. -/
theorem components_cons {c : UInt8} (p : List UInt8) (hc : c ≠ slash) :
    components (c :: p) = ((c :: p).takeWhile (· ≠ slash)).take 14 ::
      components ((c :: p).dropWhile (· ≠ slash)) := by
  have happend := List.takeWhile_append_dropWhile (p := (· ≠ slash)) (l := c :: p)
  have hall := takeWhile_ne_slash (c :: p)
  have hne : (c :: p).takeWhile (· ≠ slash) ≠ [] := by
    rw [List.takeWhile_cons, if_pos (by simpa using hc)]
    exact List.cons_ne_nil _ _
  have hhead := List.head?_dropWhile_not (· ≠ slash) (c :: p)
  generalize (c :: p).takeWhile (· ≠ slash) = elem at happend hall hne
  generalize (c :: p).dropWhile (· ≠ slash) = rest at happend hhead
  rw [← happend]
  cases rest with
  | nil =>
    have hsplit : elem.splitOn slash = [elem] := List.splitOnP_eq_singleton hall
    rw [List.append_nil, components, hsplit]
    simp [hne, components_nil]
  | cons d rest =>
    obtain rfl : d = slash := by simpa using hhead
    have hsplit : (elem ++ slash :: rest).splitOn slash = elem :: rest.splitOn slash :=
      List.splitOnP_append_cons_of_forall_mem hall slash (by simp) rest
    rw [components, hsplit, components_slash]
    simp [hne, components]

/-- A path that does not begin with a slash has an element, if it is not empty. -/
theorem components_dropSlashes_eq_nil_iff (p : List UInt8) :
    components (p.dropWhile (· = slash)) = [] ↔ p.dropWhile (· = slash) = [] := by
  have hhead := List.head?_dropWhile_not (· = slash) p
  generalize p.dropWhile (· = slash) = q at hhead
  cases q with
  | nil => exact iff_of_true rfl rfl
  | cons c q =>
    rw [components_cons q (by simpa using hhead)]
    exact iff_of_false nofun nofun

/-- **`skipelem`** takes the first element off a path, and leaves no slash before the next. -/
theorem skipelem_spec {path : List UInt8} (hpath : ∀ c ∈ path, c ≠ 0) (name : Mem) :
    match skipelem path name with
    | none => components path = []
    | some (rest, m) => components path = nameOf m :: components rest ∧ (components rest = [] ↔ rest = []) ∧
      rest.length < path.length ∧ ∀ c ∈ rest, c ≠ 0 := by
  have hcomp := components_dropSlashes path
  have hhead := List.head?_dropWhile_not (· = slash) path
  have hsuffix := List.dropWhile_suffix (· = slash) (l := path)
  rw [skipelem]
  generalize path.dropWhile (· = slash) = q at hcomp hhead hsuffix
  cases q with
  | nil => exact hcomp.symm
  | cons c q =>
    have hc : c ≠ slash := by simpa using hhead
    have hne : ∀ d ∈ c :: q, d ≠ 0 := fun d hd => hpath d (hsuffix.subset hd)
    have hrest := (List.dropWhile_suffix (· = slash) (l := (c :: q).dropWhile (· ≠ slash))).trans
      (List.dropWhile_suffix (· ≠ slash))
    refine ⟨?_, components_dropSlashes_eq_nil_iff _, ?_, fun d hd => hne d (hrest.subset hd)⟩
    · rw [← hcomp, components_cons q hc, components_dropSlashes, nameOf_copyElem]
      exact fun d hd => hne d ((List.takeWhile_prefix _).subset hd)
    · have hdrop : (c :: q).dropWhile (· ≠ slash) = q.dropWhile (· ≠ slash) := by
        rw [List.dropWhile_cons, if_pos (by simpa using hc)]
      have h₁ := (List.dropWhile_suffix (· = slash) (l := (c :: q).dropWhile (· ≠ slash))).length_le
      rw [hdrop] at h₁ ⊢
      have h₂ := (List.dropWhile_suffix (· ≠ slash) (l := q)).length_le
      have h₃ := hsuffix.length_le
      rw [List.length_cons] at h₃
      omega

/-- What repeated calls of `skipelem` take off a path, in at most `fuel` calls. -/
def elements : ℕ → List UInt8 → Mem → List (List UInt8)
  | 0, _, _ => []
  | fuel + 1, path, name =>
    match skipelem path name with
    | none => []
    | some (rest, m) => nameOf m :: elements fuel rest m

theorem elements_eq (fuel : ℕ) : ∀ (path : List UInt8) (name : Mem), (∀ c ∈ path, c ≠ 0) →
    path.length < fuel → elements fuel path name = components path := by
  induction fuel with
  | zero => exact fun path name _ hlt => absurd hlt (Nat.not_lt_zero _)
  | succ fuel ih =>
    intro path name hpath hlt
    have hspec := skipelem_spec hpath name
    rw [elements]
    cases hskip : skipelem path name with
    | none =>
      rw [hskip] at hspec
      exact hspec.symm
    | some y =>
      rw [hskip] at hspec
      obtain ⟨hcomp, -, hlen, hrest⟩ := hspec
      rw [hcomp]
      exact congrArg (nameOf y.2 :: ·) (ih y.1 y.2 hrest (by omega))

/-! ## Walks -/

/-- File `i` is a directory. -/
def Files.IsDir (F : Files) (i : ℕ) : Prop := ∃ x, F i = some x ∧ x.type = .ofNat T_DIR

/-- The same, to be evaluated. -/
def Files.isDir (F : Files) (i : ℕ) : Bool :=
  match F i with
  | none => false
  | some x => x.type = .ofNat T_DIR

/-- What the name `n` is bound to in file `i`. -/
def Files.step (F : Files) (i : ℕ) (n : List UInt8) : Option ℕ :=
  match F i with
  | none => none
  | some x => if x.type = .ofNat T_DIR then dirMap x.content n else none

/-- The file at the end of a path from `i`. -/
def Files.walk (F : Files) (i : ℕ) (ns : List (List UInt8)) : Option ℕ := ns.foldlM F.step i

/-- The directory at the end of a path from `i` without its last element, and that element. -/
def Files.walkParent (F : Files) : ℕ → List (List UInt8) → Option (ℕ × List UInt8)
  | _, [] => none
  | i, [n] =>
    match F i with
    | none => none
    | some x => if x.type = .ofNat T_DIR then some (i, n) else none
  | i, n :: m :: ns => (F.step i n).bind fun j => F.walkParent j (m :: ns)

section Walk

variable {F : Files} {i j : ℕ} {x : Node} {n : List UInt8} {ns : List (List UInt8)}

theorem Files.isDir_iff : F.isDir i = true ↔ F.IsDir i := by
  rw [isDir, IsDir]
  cases F i with
  | none => exact iff_of_false nofun fun ⟨x, hx, _⟩ => nomatch hx
  | some x =>
    rw [decide_eq_true_iff]
    exact ⟨fun h => ⟨x, rfl, h⟩, fun ⟨y, hy, hdir⟩ => Option.some_inj.mp hy ▸ hdir⟩

theorem Files.walk_cons : F.walk i (n :: ns) = (F.step i n).bind fun j => F.walk j ns :=
  List.foldlM_cons

theorem Files.step_of_dir (hx : F i = some x) (hdir : x.type = .ofNat T_DIR) :
    F.step i n = dirMap x.content n := by
  simp only [step, hx]
  exact if_pos hdir

theorem Files.step_of_not_dir (h : ¬ F.IsDir i) : F.step i n = none := by
  rw [step]
  split
  · rfl
  · rename_i x hx
    exact if_neg fun hdir => h ⟨x, hx, hdir⟩

theorem Files.walkParent_single_of_dir (h : F.IsDir i) : F.walkParent i [n] = some (i, n) := by
  obtain ⟨x, hx, hdir⟩ := h
  simp only [walkParent, hx]
  exact if_pos hdir

theorem Files.walkParent_of_not_dir (h : ¬ F.IsDir i) : F.walkParent i ns = none := by
  match ns with
  | [] => rfl
  | [n] =>
    rw [walkParent]
    split
    · rfl
    · rename_i x hx
      exact if_neg fun hdir => h ⟨x, hx, hdir⟩
  | n :: m :: ns => rw [walkParent, F.step_of_not_dir h, Option.bind_none]

/-- The walk to the parent is the walk along all elements but the last, to a directory. -/
theorem Files.walkParent_eq (ns : List (List UInt8)) : ∀ i, F.walkParent i ns =
    ns.getLast?.bind fun n => ((F.walk i ns.dropLast).filter F.isDir).map fun j => (j, n) := by
  induction ns with
  | nil => exact fun i => rfl
  | cons n ns ih =>
    intro i
    cases ns with
    | nil =>
      change F.walkParent i [n] = ((some i).filter F.isDir).map fun j => (j, n)
      by_cases h : F.IsDir i
      · rw [F.walkParent_single_of_dir h, Option.filter_some, if_pos (F.isDir_iff.mpr h)]
        rfl
      · rw [F.walkParent_of_not_dir h, Option.filter_some, if_neg fun hcon => h (F.isDir_iff.mp hcon)]
        rfl
    | cons m ns =>
      rw [walkParent, List.getLast?_cons_cons, List.dropLast_cons_cons, Files.walk_cons]
      cases F.step i n with
      | none =>
        rw [Option.bind_none, Option.bind_none]
        cases (m :: ns).getLast? <;> rfl
      | some j => exact ih j

theorem Files.walk_of_walkParent (ns : List (List UInt8)) :
    ∀ i, F.walkParent i ns = some (j, n) → F.IsDir j ∧ F.walk i ns = F.step j n := by
  induction ns with
  | nil => exact fun i h => nomatch h
  | cons m ns ih =>
    intro i h
    cases ns with
    | nil =>
      by_cases hdir : F.IsDir i
      · rw [F.walkParent_single_of_dir hdir] at h
        obtain ⟨rfl, rfl⟩ := Prod.mk.inj (Option.some_inj.mp h)
        refine ⟨hdir, ?_⟩
        rw [Files.walk_cons]
        cases F.step i m <;> rfl
      · rw [F.walkParent_of_not_dir hdir] at h
        exact nomatch h
    | cons m' ns =>
      rw [walkParent] at h
      obtain ⟨k, hk, h⟩ := Option.bind_eq_some_iff.mp h
      rw [Files.walk_cons, hk]
      exact ih k h

/-- In `F` and `F'` the same names are bound to the same files. -/
structure SameNames (F F' : Files) : Prop where
  step : F'.step = F.step
  isDir : F'.isDir = F.isDir

theorem SameNames.update {y : Node} (hx : F i = some x) (htype : y.type = x.type)
    (hcontent : x.type = .ofNat T_DIR → y.content = x.content) :
    SameNames F (Function.update F i (some y)) where
  step := by
    funext j n
    by_cases hj : j = i
    · subst hj
      simp only [Files.step, Function.update_self, hx, htype]
      split
      · rw [hcontent ‹_›]
      · rfl
    · simp only [Files.step, Function.update_of_ne hj]
  isDir := by
    funext j
    by_cases hj : j = i
    · subst hj
      simp only [Files.isDir, Function.update_self, hx, htype]
    · simp only [Files.isDir, Function.update_of_ne hj]

theorem SameNames.walk {F' : Files} (h : SameNames F F') : F'.walk = F.walk := by
  funext i ns
  rw [Files.walk, Files.walk, h.step]

theorem SameNames.walkParent {F' : Files} (h : SameNames F F') : F'.walkParent = F.walkParent := by
  funext i ns
  rw [Files.walkParent_eq, Files.walkParent_eq, h.walk, h.isDir]

end Walk

/-! ## `namex` -/

/-- Names are bound to files, unless the panic that follows is expected. -/
def Closed (E : Panic → Prop) (F : Files) : Prop :=
  ∀ i x, F i = some x → x.type = .ofNat T_DIR → ∀ n j, dirMap x.content n = some j → F j = none →
    E .ilockNoType

/-- The result of a walk from `i` along the elements `ns`. -/
def Resolves (F : Files) (parent : Bool) (i : ℕ) (ns : List (List UInt8)) (r : Option (ℕ × Mem)) : Prop :=
  if parent then r.map (fun y => (y.1, nameOf y.2)) = F.walkParent i ns
  else r.map Prod.fst = F.walk i ns

/-- The references that are held with the result. -/
def withResult (r : Option (ℕ × Mem)) (R : Multiset ℕ) : Multiset ℕ :=
  match r with
  | none => R
  | some (j, _) => j ::ₘ R

section Namex

variable {sb : Superblock} {R : Multiset ℕ} {s : State} {i cwd : ℕ} {E : Panic → Prop}
  {F : Files} {n : List UInt8} {ns : List (List UInt8)} {parent : Bool}

theorem Resolves.of_not_dir (h : ¬ F.IsDir i) (hne : ns ≠ []) : Resolves F parent i ns none := by
  rw [Resolves]
  split
  · rw [F.walkParent_of_not_dir h]
    rfl
  · obtain ⟨n, ns, rfl⟩ := List.exists_cons_of_ne_nil hne
    rw [Files.walk_cons, F.step_of_not_dir h]
    rfl

/-- A turn that is not the last of `nameiparent` goes to the next file. -/
theorem Resolves.cons {r : Option (ℕ × Mem)} (hlast : ¬ (parent ∧ ns = []))
    (h : match F.step i n with
      | none => r = none
      | some j => Resolves F parent j ns r) : Resolves F parent i (n :: ns) r := by
  rw [Resolves]
  cases parent with
  | true =>
    obtain ⟨m, ns, rfl⟩ := List.exists_cons_of_ne_nil (fun hnil => hlast ⟨rfl, hnil⟩)
    rw [if_pos rfl, Files.walkParent]
    cases hstep : F.step i n with
    | none =>
      rw [hstep] at h
      rw [h]
      rfl
    | some j =>
      rw [hstep] at h
      have hres : Resolves F true j (m :: ns) r := h
      rw [Resolves, if_pos rfl] at hres
      exact hres
  | false =>
    rw [if_neg nofun, Files.walk_cons]
    cases hstep : F.step i n with
    | none =>
      rw [hstep] at h
      rw [h]
      rfl
    | some j =>
      rw [hstep] at h
      have hres : Resolves F false j ns r := h
      rw [Resolves, if_neg nofun] at hres
      exact hres

/-- The walk of `namex` from inode `i`, to which the call has a reference. -/
theorem namexFrom_spec (hsb : sb.Ok) (hE : E .igetNoInodes) (fuel : ℕ) (path : List UInt8) (name : Mem)
    (hpath : ∀ c ∈ path, c ≠ 0) (hlen : path.length < fuel) (h : Inv sb (i ::ₘ R) ∅ s)
    (hheld : Held R (files sb s)) (hclosed : Closed E (files sb s))
    (hi : files sb s i = none → E .ilockNoType) :
    Yields E (namexFrom sb parent fuel i path name) s fun r t => Quiet sb R s t ∧
      Inv sb (withResult r R) ∅ t ∧ Resolves (files sb s) parent i (components path) r := by
  induction fuel generalizing i path name s with
  | zero => exact absurd hlen (Nat.not_lt_zero _)
  | succ fuel ih =>
    have hskip := skipelem_spec hpath name
    rw [namexFrom]
    cases hnext : skipelem path name with
    | none =>
      rw [hnext] at hskip
      have hnil : components path = [] := hskip
      rw [hnil]
      refine .ite (fun hparent => ?_) fun hparent => ?_
      · subst hparent
        refine .bind (iput_spec h (fun hcon => absurd hcon (Set.notMem_empty i))
          fun hnot _ x hx h0 => hnot (hheld i x hx h0)).yields ?_
        rintro - t ⟨hinv, hquiet⟩
        exact .pure ⟨hquiet, hinv, rfl⟩
      · exact .pure ⟨.refl, h, by rw [Resolves, if_neg hparent]; rfl⟩
    | some y =>
      obtain ⟨rest, m⟩ := y
      rw [hnext] at hskip
      obtain ⟨hcomp, hlast, hshort, hrest⟩ := hskip
      rw [hcomp]
      refine .bind (ilock_spec h (Multiset.mem_cons_self i R) (fun hcon => absurd hcon (Set.notMem_empty i))
        hi) ?_
      rintro - t ⟨-, ⟨x, hx⟩, hinv, hquiet⟩
      have hmem : i ∈ insert i (∅ : Set ℕ) := Or.inl rfl
      have hx' : files sb t i = some x := by rw [hquiet.files, hx]
      refine .bind (P := fun d u => d.type = x.type ∧ u = t) (Ensures.yields
        (ensures_getInode_bind (.pure ⟨?_, rfl⟩))) ?_
      · rw [← hinv.dinode_of_locked hmem, View.type_of_node hx']
      rintro d u ⟨hd, rfl⟩
      have hheld' : Held R (files sb u) := hquiet.files ▸ hheld
      rw [hd]
      refine .ite (fun hfile => ?_) fun hdir => ?_
      · refine .bind (iunlockput_spec hinv (Set.notMem_empty i) hheld').yields ?_
        rintro - w ⟨hinv', hquiet'⟩
        refine .pure ⟨hquiet.of_cons.trans hquiet', hinv', .of_not_dir ?_ (List.cons_ne_nil _ _)⟩
        rintro ⟨y, hy, hydir⟩
        obtain rfl := Option.some_inj.mp (hx.symm.trans hy)
        exact hfile hydir
      · have hdir : x.type = .ofNat T_DIR := not_not.mp hdir
        refine .ite (fun hstop => ?_) fun hgo => ?_
        · obtain ⟨rfl, rfl⟩ := hstop
          refine .bind (iunlock_spec hinv (Set.notMem_empty i)).yields ?_
          rintro - w ⟨hinv', hquiet'⟩
          refine .pure ⟨(hquiet.trans hquiet').of_cons, hinv', ?_⟩
          rw [Resolves, if_pos rfl, components_nil, Files.walkParent_single_of_dir ⟨x, hx, hdir⟩]
          rfl
        · have hopen : OpenDir sb (i ::ₘ R) (insert i ∅) u i x := ⟨hinv, hmem, hx', hdir⟩
          refine .bind (hopen.dirlookup_spec hsb m hE) ?_
          rintro r w ⟨hfind, hr⟩
          have hstep : (files sb s).step i (nameOf m) = r.map Prod.fst := by
            rw [Files.step_of_dir hx hdir, dirMap, hfind]
          have hlast' : ¬ (parent ∧ components rest = []) := fun hcon => hgo ⟨hcon.1, hlast.mp hcon.2⟩
          cases r with
          | none =>
            obtain rfl : w = u := hr
            refine .bind (iunlockput_spec hinv (Set.notMem_empty i) hheld').yields ?_
            rintro - w ⟨hinv', hquiet'⟩
            refine .pure ⟨hquiet.of_cons.trans hquiet', hinv', .cons hlast' ?_⟩
            rw [hstep]
            rfl
          | some y =>
            obtain ⟨next, off⟩ := y
            obtain ⟨hinv', hquiet', -⟩ := hr
            rw [Multiset.cons_swap] at hinv'
            have hmono : Held (next ::ₘ R) (files sb w) := fun j z hj h0 =>
              Multiset.mem_cons_of_mem (hheld' j z (hquiet'.files ▸ hj) h0)
            refine .bind (iunlockput_spec hinv' (Set.notMem_empty i) hmono).yields ?_
            rintro - v ⟨hinv'', hquiet''⟩
            have hall : Quiet sb R s v :=
              (hquiet.of_cons.trans hquiet'.of_cons).trans hquiet''.of_cons
            have hfiles := hall.files
            refine (ih rest m hrest (by omega) hinv'' (hfiles ▸ hheld) (hfiles ▸ hclosed) ?_).mono ?_
            · rw [hfiles]
              exact hclosed i x hx hdir (nameOf m) next (by
                rw [← Files.step_of_dir hx hdir, hstep]
                rfl)
            · rintro r' v' ⟨hquiet₃, hinv₃, hres⟩
              refine ⟨hall.trans hquiet₃, hinv₃, .cons hlast' ?_⟩
              rw [hstep]
              exact hfiles ▸ hres

/-- Where a path begins. -/
def startOf (cwd : ℕ) (path : List UInt8) : ℕ := if path.head? = some slash then ROOTINO else cwd

/-- **`namex`** walks along the path. -/
theorem namex_spec (hsb : sb.Ok) (hE : E .igetNoInodes) {path : List UInt8} (name : Mem)
    (hpath : ∀ c ∈ path, c ≠ 0) (h : Inv sb R ∅ s) (hcwd : cwd ∈ R)
    (hheld : Held R (files sb s)) (hclosed : Closed E (files sb s))
    (hstart : files sb s (startOf cwd path) = none → E .ilockNoType) :
    Yields E (namex sb cwd path parent name) s fun r t => Quiet sb R s t ∧
      Inv sb (withResult r R) ∅ t ∧
        Resolves (files sb s) parent (startOf cwd path) (components path) r := by
  -- the walk, when the first reference has been taken
  have hwalk : ∀ t, Inv sb (startOf cwd path ::ₘ R) ∅ t → Quiet sb R s t →
      Yields E (namexFrom sb parent (path.length + 1) (startOf cwd path) path name) t fun r t =>
        Quiet sb R s t ∧ Inv sb (withResult r R) ∅ t ∧
          Resolves (files sb s) parent (startOf cwd path) (components path) r := by
    intro t hinv hquiet
    have hfiles := hquiet.files
    refine (namexFrom_spec hsb hE (path.length + 1) path name hpath (Nat.lt_succ_self _) hinv
      (hfiles ▸ hheld) (hfiles ▸ hclosed) (hfiles ▸ hstart)).mono ?_
    rintro r u ⟨hquiet', hinv', hres⟩
    exact ⟨hquiet.trans hquiet', hinv', hfiles ▸ hres⟩
  rw [namex]
  refine .ite (fun hslash => ?_) fun hslash => ?_
  · rw [startOf, if_pos hslash] at hwalk
    refine .bind (iget_spec h hsb.root hE) ?_
    rintro r t ⟨rfl, hinv, hquiet, -⟩
    rw [startOf, if_pos hslash]
    exact hwalk t hinv hquiet
  · rw [startOf, if_neg hslash] at hwalk
    refine .bind (idup_spec h hcwd).yields ?_
    rintro r t ⟨rfl, hinv, hquiet⟩
    rw [startOf, if_neg hslash]
    exact hwalk t hinv hquiet

end Namex

end Xv6.Fs
