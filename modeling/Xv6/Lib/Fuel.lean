import Mathlib

/-!
# Computations with fuel

A recursive function that is given fuel returns a result, fails, or runs out of fuel.  Three things are
said about it: what a result is like (`Ensures`), that it does not run out of fuel (`Halts`), and that it
computes a given outcome as far as the fuel goes (`Upto`).  Each has its rule for `bind`; the last two
together determine the outcome (`Upto.eq`).
-/

namespace Fuel

variable {ε α β γ : Type}

/-- The outcome of a computation. -/
inductive Res (ε α : Type) where
  | out
  | fail (e : ε)
  | ok (a : α)
  deriving DecidableEq

namespace Res

/-- The result, if there is one. -/
def value? : Res ε α → Option α
  | .ok a => some a
  | _ => none

/-- Go on with a result. -/
def bind (x : Res ε α) (f : α → Res ε β) : Res ε β :=
  match x with
  | .out => .out
  | .fail e => .fail e
  | .ok a => f a

@[simp] theorem ok_bind (a : α) (f : α → Res ε β) : (ok a).bind f = f a := rfl

@[simp] theorem fail_bind (e : ε) (f : α → Res ε β) : (fail e).bind f = .fail e := rfl

@[simp] theorem out_bind (f : α → Res ε β) : out.bind f = .out := rfl

/-- A result has the property. -/
def Ensures (P : α → Prop) : Res ε α → Prop
  | .ok a => P a
  | _ => True

/-- There is enough fuel, and a result has the property. -/
def Halts (P : α → Prop) : Res ε α → Prop
  | .ok a => P a
  | .fail _ => True
  | .out => False

/-- With enough fuel the outcome is `y`. -/
def Upto (x y : Res ε α) : Prop := x = .out ∨ x = y

variable {x : Res ε α} {y : Res ε β} {f : α → Res ε β} {P : α → Prop} {Q : β → Prop} {a : α}

theorem Ensures.bind (hx : x.Ensures P) (hf : ∀ a, P a → (f a).Ensures Q) :
    (x.bind f).Ensures Q := by
  cases x with
  | out => trivial
  | fail e => trivial
  | ok a => exact hf a hx

theorem Halts.bind (hx : x.Halts P) (hf : ∀ a, P a → (f a).Halts Q) : (x.bind f).Halts Q := by
  cases x with
  | out => exact hx
  | fail e => trivial
  | ok a => exact hf a hx

theorem Halts.imp {R : α → Prop} (hx : x.Halts P) (himp : ∀ a, P a → R a) : x.Halts R := by
  cases x with
  | out => exact hx
  | fail e => trivial
  | ok a => exact himp a hx

theorem Upto.refl (x : Res ε α) : x.Upto x := .inr rfl

theorem Upto.bind (hx : x.Upto (.ok a)) (hf : (f a).Upto y) : (x.bind f).Upto y := by
  rcases hx with rfl | rfl
  · exact .inl rfl
  · exact hf

theorem Upto.eq {z : Res ε α} (hx : x.Upto z) (hh : x.Halts P) : x = z := by
  rcases hx with rfl | rfl
  · exact hh.elim
  · rfl

end Res

end Fuel
