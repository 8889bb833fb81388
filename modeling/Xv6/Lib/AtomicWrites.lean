import Mathlib

/-!
# Atomic writes in program order

A device is its contents and the writes that have been made to it, the oldest first.  When the
machine stops, the contents are those after some first part of its writes.  `Passes Q m m'` says
that the code that led from `m` to `m'` has only passed through contents that satisfy `Q`: this is
what holds whenever the machine stops in between.
-/

namespace AtomicWrites

variable {α β : Type*}

/-- A first part of two pieces is a first part of the first one, or contains it. -/
theorem prefix_append_cases {ws ws₁ ws₂ : List (α × β)} (h : ws <+: ws₁ ++ ws₂) :
    ws <+: ws₁ ∨ ∃ ws', ws = ws₁ ++ ws' ∧ ws' <+: ws₂ := by
  rcases List.prefix_or_prefix_of_prefix h (List.prefix_append ws₁ ws₂) with hle | ⟨ws', rfl⟩
  · exact Or.inl hle
  · exact Or.inr ⟨ws', rfl, (List.prefix_append_right_inj ws₁).mp h⟩

variable [DecidableEq α]

/-- The contents after a list of writes. -/
def apply (d : α → β) (ws : List (α × β)) : α → β :=
  ws.foldl (fun d w => Function.update d w.1 w.2) d

@[simp] theorem apply_nil (d : α → β) : apply d [] = d := rfl

@[simp] theorem apply_cons (d : α → β) (w : α × β) (ws : List (α × β)) :
    apply d (w :: ws) = apply (Function.update d w.1 w.2) ws := rfl

theorem apply_append (d : α → β) (ws ws' : List (α × β)) :
    apply d (ws ++ ws') = apply (apply d ws) ws' := by
  rw [apply, apply, apply, List.foldl_append]

theorem apply_congr {d d' : α → β} {a : α} (ws : List (α × β)) (h : d a = d' a) :
    apply d ws a = apply d' ws a := by
  induction ws generalizing d d' with
  | nil => exact h
  | cons w ws ih =>
    rw [apply_cons, apply_cons]
    refine ih ?_
    rw [Function.update_apply, Function.update_apply, h]

/-- A device: its contents, and its writes so far. -/
structure Device (α β : Type*) where
  disk : α → β
  trace : List (α × β)

/-- Write one block. -/
def Device.write (m : Device α β) (a : α) (v : β) : Device α β where
  disk := Function.update m.disk a v
  trace := m.trace ++ [(a, v)]

/-- From `m` to `m'` the contents have always satisfied `Q`. -/
def Passes (Q : (α → β) → Prop) (m m' : Device α β) : Prop :=
  ∃ ws, m'.trace = m.trace ++ ws ∧ m'.disk = apply m.disk ws ∧
    ∀ ws', ws' <+: ws → Q (apply m.disk ws')

variable {Q Q' : (α → β) → Prop} {m m' m'' : Device α β}

theorem Passes.refl (h : Q m.disk) : Passes Q m m :=
  ⟨[], by simp, rfl, fun ws' hws' => by
    rw [List.prefix_nil.mp hws']
    exact h⟩

theorem Passes.mono (hQ : ∀ d, Q d → Q' d) (h : Passes Q m m') : Passes Q' m m' := by
  obtain ⟨ws, htrace, hdisk, hall⟩ := h
  exact ⟨ws, htrace, hdisk, fun ws' hws' => hQ _ (hall ws' hws')⟩

theorem Passes.last (h : Passes Q m m') : Q m'.disk := by
  obtain ⟨ws, -, hdisk, hall⟩ := h
  rw [hdisk]
  exact hall ws List.prefix_rfl

theorem Passes.trans (h : Passes Q m m') (h' : Passes Q m' m'') : Passes Q m m'' := by
  obtain ⟨ws, htrace, hdisk, hall⟩ := h
  obtain ⟨ws₂, htrace₂, hdisk₂, hall₂⟩ := h'
  refine ⟨ws ++ ws₂, by rw [htrace₂, htrace, List.append_assoc],
    by rw [hdisk₂, hdisk, apply_append], fun ws' hws' => ?_⟩
  rcases prefix_append_cases hws' with hle | ⟨ws₃, rfl, hle⟩
  · exact hall ws' hle
  · rw [apply_append, ← hdisk]
    exact hall₂ ws₃ hle

theorem Passes.write {a : α} {v : β} (h : Q m.disk) (h' : Q (Function.update m.disk a v)) :
    Passes Q m (m.write a v) := by
  refine ⟨[(a, v)], rfl, rfl, fun ws' hws' => ?_⟩
  rcases List.prefix_cons_iff.mp hws' with rfl | ⟨t, rfl, ht⟩
  · exact h
  · rw [List.prefix_nil.mp ht]
    exact h'

theorem Passes.snoc {a : α} {v : β} (h : Passes Q m m') (h' : Q (Function.update m'.disk a v)) :
    Passes Q m (m'.write a v) :=
  h.trans (.write h.last h')

end AtomicWrites
