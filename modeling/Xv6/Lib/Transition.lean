import Mathlib

/-!
# Runs of labelled transition systems

A system is a relation `R s a t`: in state `s`, action `a` leads to `t`.  A run carries its
history, the latest action first, and may be asked to take only actions that meet a condition
on the state they are taken in (`RunWith`).  `Run` is the run without a condition.

The two rules every safety proof uses are `RunWith.invariant` (what holds at the start and is
kept by every allowed step holds at the end) and `RunWith.invariant_history` (the same with the
history in the invariant).
-/

namespace Transition

variable {σ α : Type*}

/-- A run from `s` to `u` whose actions, latest first, are `h`, and each of whose actions meets
`C` in the state it is taken in. -/
inductive RunWith (R : σ → α → σ → Prop) (C : σ → α → Prop) (s : σ) : List α → σ → Prop
  | nil : RunWith R C s [] s
  | step {h : List α} {t u : σ} {a : α} :
      RunWith R C s h t → C t a → R t a u → RunWith R C s (a :: h) u

/-- A run with no condition on its actions. -/
abbrev Run (R : σ → α → σ → Prop) (s : σ) (h : List α) (u : σ) : Prop :=
  RunWith R (fun _ _ => True) s h u

variable {R : σ → α → σ → Prop} {C : σ → α → Prop} {s u : σ} {h : List α}

/-- **The invariant rule.**  What holds at the start and is kept by every allowed step holds
along every run. -/
theorem RunWith.invariant {I : σ → Prop} (hrun : RunWith R C s h u) (hs : I s)
    (hstep : ∀ t a v, I t → C t a → R t a v → I v) : I u := by
  induction hrun with
  | nil => exact hs
  | step _ hC hR ih => exact hstep _ _ _ ih hC hR

/-- The invariant rule for invariants that speak about the history. -/
theorem RunWith.invariant_history {I : List α → σ → Prop} (hrun : RunWith R C s h u)
    (hs : I [] s) (hstep : ∀ h t a v, I h t → C t a → R t a v → I (a :: h) v) : I h u := by
  induction hrun with
  | nil => exact hs
  | step _ hC hR ih => exact hstep _ _ _ _ ih hC hR

theorem RunWith.mono {C' : σ → α → Prop} (hC : ∀ t a, C t a → C' t a)
    (hrun : RunWith R C s h u) : RunWith R C' s h u := by
  induction hrun with
  | nil => exact .nil
  | step _ hc hR ih => exact .step ih (hC _ _ hc) hR

theorem RunWith.imp {R' : σ → α → σ → Prop} {C' : σ → α → Prop}
    (himp : ∀ t a v, C t a → R t a v → C' t a ∧ R' t a v) (hrun : RunWith R C s h u) :
    RunWith R' C' s h u := by
  induction hrun with
  | nil => exact .nil
  | step _ hc hR ih =>
    obtain ⟨hc', hR'⟩ := himp _ _ _ hc hR
    exact .step ih hc' hR'

theorem RunWith.trans {h' : List α} {v : σ} (hrun : RunWith R C s h u)
    (hrun' : RunWith R C u h' v) : RunWith R C s (h' ++ h) v := by
  induction hrun' with
  | nil => exact hrun
  | step _ hc hR ih => exact .step ih hc hR

/-- A run either meets a further condition at every step, or it has a first step that does not. -/
theorem RunWith.all_or_first (D : σ → α → Prop) (hrun : RunWith R C s h u) :
    RunWith R (fun t a => C t a ∧ D t a) s h u ∨
      ∃ h₁ t a v h₂, RunWith R (fun t a => C t a ∧ D t a) s h₁ t ∧ C t a ∧ ¬ D t a ∧ R t a v ∧
        RunWith R C v h₂ u ∧ h = h₂ ++ a :: h₁ := by
  induction hrun with
  | nil => exact .inl .nil
  | @step h t v a hrun hC hR ih =>
    rcases ih with hall | ⟨h₁, t', b, w, h₂, hrun₁, hCb, hDb, hRb, hrun₂, heq⟩
    · by_cases hD : D t a
      · exact .inl (.step hall ⟨hC, hD⟩ hR)
      · exact .inr ⟨h, t, a, v, [], hall, hC, hD, hR, .nil, rfl⟩
    · exact .inr ⟨h₁, t', b, w, a :: h₂, hrun₁, hCb, hDb, hRb, .step hrun₂ hC hR, by rw [heq]; rfl⟩

/-! ## Steps that can fail -/

/-- What a section of code does: it is not reached in this state, it stops the machine, or it
leads to a new state. -/
inductive Outcome (π σ : Type*) where
  | blocked
  | panic (msg : π)
  | next (s : σ)

/-- The new state, if there is one. -/
def Outcome.next? {π : Type*} : Outcome π σ → Option σ
  | .next s => some s
  | _ => none

/-- A panic meets `E`, and a new state meets `Q`. -/
def Outcome.Meets {π : Type*} (E : π → Prop) (Q : σ → Prop) : Outcome π σ → Prop
  | .blocked => True
  | .panic e => E e
  | .next s => Q s

theorem Outcome.next?_eq_some {π : Type*} {o : Outcome π σ} {s : σ} (h : o.next? = some s) :
    o = .next s := by
  cases o with
  | blocked => exact absurd h (by simp [Outcome.next?])
  | panic => exact absurd h (by simp [Outcome.next?])
  | next t => rw [Option.some.inj h]

/-! ## Executable systems -/

section Exec

variable (step : σ → α → Option σ)

/-- The relation of a step function. -/
def ofStep (s : σ) (a : α) (t : σ) : Prop := step s a = some t

/-- Execute a list of actions, first action first, each of which must meet `C`. -/
def execWith (C : σ → α → Prop) [∀ s a, Decidable (C s a)] : σ → List α → Option σ
  | s, [] => some s
  | s, a :: as => if C s a then (step s a).bind fun t => execWith C t as else none

/-- Execute a list of actions, first action first. -/
abbrev exec : σ → List α → Option σ := execWith step fun _ _ => True

variable {step}

@[simp] theorem exec_nil (s : σ) : exec step s [] = some s := rfl

theorem exec_append :
    ∀ (as bs : List α) (s : σ),
      exec step s (as ++ bs) = (exec step s as).bind fun t => exec step t bs
  | [], bs, s => rfl
  | a :: as, bs, s => by
    rw [List.cons_append, exec, execWith, execWith, if_pos trivial, if_pos trivial]
    cases step s a with
    | none => rfl
    | some t => exact exec_append as bs t

theorem exec_cons {s t : σ} {a : α} (as : List α) (h : step s a = some t) :
    exec step s (a :: as) = exec step t as := by
  rw [exec, execWith, if_pos trivial, h]
  rfl

theorem run_of_execWith {C : σ → α → Prop} [∀ s a, Decidable (C s a)] :
    ∀ {as : List α} {s u : σ}, execWith step C s as = some u →
      RunWith (ofStep step) C s as.reverse u
  | [], s, u, h => by
    rw [execWith, Option.some_inj] at h
    rw [← h]
    exact .nil
  | a :: as, s, u, h => by
    rw [execWith] at h
    split at h
    · rename_i hC
      obtain ⟨t, hst, hexec⟩ := Option.bind_eq_some_iff.mp h
      rw [List.reverse_cons]
      exact (RunWith.step .nil hC hst).trans (run_of_execWith hexec)
    · exact absurd h (by simp)

end Exec

end Transition
