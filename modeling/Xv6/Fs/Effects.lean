import Xv6.Fs.NameCalls

/-!
# What calls do to references and files

Seen from outside, a call changes the references that are held and the files.  It takes references and gives
them up, and it changes what files hold that are not directories (`Holds`); apart from that it makes at most
one change to the names (`Linked`, `Unlinked`, `Created`).

A file that is referred to stays what it is under all of this (`Files.Stays`).
-/

namespace Xv6.Fs

open Bytes

variable {F F' F'' : Files} {R : Multiset ℕ} {i j ip dp : ℕ} {x y : Node}

/-! ## Files that stay -/

/-- If `i` is a file of `F`, it is one of `F'`, of the same type. -/
def Files.Stays (F F' : Files) (i : ℕ) : Prop := ∀ x, F i = some x → ∃ y, F' i = some y ∧ y.type = x.type

theorem Files.Stays.refl : F.Stays F i := fun x hx => ⟨x, hx, rfl⟩

theorem Files.Stays.trans (h : F.Stays F' i) (h' : F'.Stays F'' i) : F.Stays F'' i := by
  intro x hx
  obtain ⟨y, hy, htype⟩ := h x hx
  obtain ⟨z, hz, htype'⟩ := h' y hy
  exact ⟨z, hz, htype'.trans htype⟩

theorem Files.Stays.update (hx : ∀ x, F j = some x → y.type = x.type) :
    F.Stays (Function.update F j (some y)) i := by
  intro z hz
  by_cases hij : i = j
  · subst hij
    exact ⟨y, Function.update_self .., hx z hz⟩
  · exact ⟨z, by rw [Function.update_of_ne hij, hz], rfl⟩

theorem Files.drop_of_ref (hi : i ∈ R) : F.drop R j i = F i := by
  rcases F.drop_cases R j with hsame | ⟨hnot, hdrop⟩
  · rw [hsame]
  · rw [hdrop, Function.update_of_ne]
    rintro rfl
    exact hnot hi

theorem Files.Stays.drop (hi : i ∈ R) : F.Stays (F.drop R j) i := fun x hx =>
  ⟨x, by rw [Files.drop_of_ref hi, hx], rfl⟩

theorem Created.stays {type major minor : UInt16} {name : Mem}
    (h : Created R F type major minor ip dp name F') (hi : i ∈ R) : F.Stays F' i := by
  obtain @⟨y, k, hip, -, hy, -, -⟩ := h
  refine ((Files.Stays.update fun z hz => ?_).trans (Files.Stays.update fun z hz => ?_)).trans
    (.drop (Multiset.mem_cons_of_mem hi))
  · exact nomatch hip.symm.trans hz
  · rw [Function.update_of_ne (by rintro rfl; exact nomatch hip.symm.trans hy)] at hz
    obtain rfl := Option.some_inj.mp (hy.symm.trans hz)
    rfl

section Created

variable {type major minor : UInt16} {name : Mem}

theorem Created.absent (h : Created R F type major minor ip dp name F') : F.step dp (nameOf name) = none := by
  obtain @⟨y, k, -, -, hy, hdir, hroom⟩ := h
  rw [Files.step_of_dir hy hdir, hroom.absent]

theorem Created.eq_newNode (h : Created R F type major minor ip dp name F') (hx : F' ip = some x) :
    x = newNode type major minor ip dp := by
  obtain @⟨y, k, hip, -, hy, -, -⟩ := h
  have hx := Files.of_drop hx
  rw [Function.update_of_ne (by rintro rfl; exact nomatch hip.symm.trans hy), Function.update_self] at hx
  exact (Option.some_inj.mp hx).symm

end Created

/-! ## The contents of files -/

/-- The same file, perhaps with another content; but not if it is a directory. -/
structure Node.Alike (x y : Node) : Prop where
  type : y.type = x.type
  major : y.major = x.major
  minor : y.minor = x.minor
  nlink : y.nlink = x.nlink
  content : x.type = .ofNat T_DIR → y.content = x.content

theorem Node.Alike.refl (x : Node) : x.Alike x := ⟨rfl, rfl, rfl, rfl, fun _ => rfl⟩

/-- The files are the same, up to the contents of those that are not directories. -/
def SameTree (F F' : Files) : Prop := ∀ i, Option.Rel Node.Alike (F i) (F' i)

theorem SameTree.refl (F : Files) : SameTree F F := fun i => by
  cases F i with
  | none => exact .none
  | some x => exact .some (.refl x)

theorem SameTree.update (hx : F i = some x) (hy : x.Alike y) :
    SameTree F (Function.update F i (some y)) := by
  intro j
  by_cases hj : j = i
  · subst hj
    rw [Function.update_self, hx]
    exact .some hy
  · rw [Function.update_of_ne hj]
    exact SameTree.refl F j

theorem SameTree.content (hx : F i = some x) (hfile : x.type ≠ .ofNat T_DIR) (c : List UInt8) :
    SameTree F (Function.update F i (some { x with content := c })) :=
  .update hx ⟨rfl, rfl, rfl, rfl, fun hdir => absurd hdir hfile⟩

theorem SameTree.exists_right (h : SameTree F F') (hx : F i = some x) : ∃ y, F' i = some y ∧ x.Alike y := by
  have hi := h i
  rw [hx] at hi
  generalize hy : F' i = y at hi
  cases hi with
  | some halike => exact ⟨_, rfl, halike⟩

theorem SameTree.exists_left (h : SameTree F F') (hy : F' i = some y) : ∃ x, F i = some x ∧ x.Alike y := by
  have hi := h i
  rw [hy] at hi
  generalize hx : F i = x at hi
  cases hi with
  | some halike => exact ⟨_, rfl, halike⟩

theorem SameTree.stays (h : SameTree F F') : F.Stays F' i := fun _ hx => by
  obtain ⟨y, hy, halike⟩ := h.exists_right hx
  exact ⟨y, hy, halike.type⟩

/-! ## References -/

/-- A reference is taken or given up, or the contents of files change. -/
inductive Holds : Multiset ℕ × Files → Multiset ℕ × Files → Prop
  | take {R : Multiset ℕ} {F : Files} {i : ℕ} (hi : F i ≠ none) : Holds (R, F) (i ::ₘ R, F)
  | drop {R : Multiset ℕ} {F : Files} {i : ℕ} : Holds (i ::ₘ R, F) (R, F.drop R i)
  | tree {R : Multiset ℕ} {F F' : Files} (h : SameTree F F') : Holds (R, F) (R, F')

end Xv6.Fs
