import Mathlib

/-!
# Loops

`for (i = 0; i < n; i++)` is a fold over `List.range n`.  The rule for it is the one of `while`
with a counter: an invariant that holds at `0` and goes from `i` to `i + 1` holds at `n`.
-/

namespace Loop

variable {σ : Type*}

/-- **The rule for a counting loop.** -/
theorem foldl_range {I : ℕ → σ → Prop} {f : σ → ℕ → σ} {n : ℕ} {s : σ} (h0 : I 0 s)
    (hstep : ∀ i < n, ∀ t, I i t → I (i + 1) (f t i)) : I n ((List.range n).foldl f s) := by
  induction n with
  | zero => exact h0
  | succ n ih =>
    rw [List.range_succ, List.foldl_append]
    exact hstep n (Nat.lt_succ_self n) _ (ih fun i hi => hstep i (Nat.lt_succ_of_lt hi))

end Loop
