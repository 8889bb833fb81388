import Mathlib

/-!
# Forests of parent pointers

`Reaches par r c`: following the pointers `par` from `c` leads to `r`.  Three updates keep this: a
pointer of a leaf may be changed at will as far as the other nodes are concerned, a leaf may be hung
below a node that reaches the root, and any pointer may be turned to the root.
-/

namespace Forest

variable {ι : Type} [DecidableEq ι] {par : ι → Option ι} {r c q x : ι}

inductive Reaches (par : ι → Option ι) (r : ι) : ι → Prop
  | root : Reaches par r r
  | step {c q : ι} : par c = some q → Reaches par r q → Reaches par r c

/-- Nobody's parent. -/
def Leaf (par : ι → Option ι) (x : ι) : Prop := ∀ c, par c ≠ some x

theorem Reaches.update_leaf (hx : Leaf par x) (o : Option ι) (h : Reaches par r c) (hc : c ≠ x) :
    Reaches (Function.update par x o) r c := by
  induction h with
  | root => exact .root
  | @step c q hpar _ ih =>
    -- the next node is not `x`, which has no children
    have hq : q ≠ x := by
      rintro rfl
      exact hx c hpar
    exact .step ((Function.update_of_ne hc ..).trans hpar) (ih hq)

theorem Reaches.hang (hx : Leaf par x) (h : Reaches par r q) (hq : q ≠ x) :
    Reaches (Function.update par x (some q)) r x :=
  .step (Function.update_self ..) (h.update_leaf hx _ hq)

theorem Reaches.update_root (x : ι) (h : Reaches par r c) :
    Reaches (Function.update par x (some r)) r c := by
  induction h with
  | root => exact .root
  | @step c q hpar _ ih =>
    by_cases hc : c = x
    · subst hc
      exact .step (Function.update_self ..) .root
    · exact .step ((Function.update_of_ne hc ..).trans hpar) ih

end Forest
