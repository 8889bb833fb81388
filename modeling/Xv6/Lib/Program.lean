import Mathlib

/-!
# Programs that read and write a state and may panic

A program is a function from states to a result and a new state, or to a panic.  `Ensures x s Q`
is total correctness of `x` started in `s`: it does not panic, and `Q` holds of its result and of
the state it ends in.

The rules follow the syntax of programs: a sequence by what its first part ensures
(`Ensures.bind`), a branch by its condition, a counting loop by an invariant
(`Ensures.countUp`).  `Ends x s Q` is the same without the promise that there is no panic.
-/

namespace Program

variable {ε σ α β : Type}

/-- A program with states `σ` and panics `ε`. -/
abbrev Prog (ε σ : Type) := StateT σ (Except ε)

/-- Started in `s`, the program does not panic, and ends with `Q`. -/
def Ensures (x : Prog ε σ α) (s : σ) (Q : α → σ → Prop) : Prop :=
  ∃ a s', x s = .ok (a, s') ∧ Q a s'

/-- Panic. -/
def panic (e : ε) : Prog ε σ α := fun _ => .error e

variable {x : Prog ε σ α} {f : α → Prog ε σ β} {s : σ} {P Q : α → σ → Prop} {R : β → σ → Prop}

theorem Ensures.pure {a : α} (h : Q a s) : Ensures (pure a : Prog ε σ α) s Q :=
  ⟨a, s, rfl, h⟩

theorem Ensures.get {Q : σ → σ → Prop} (h : Q s s) : Ensures (get : Prog ε σ σ) s Q :=
  ⟨s, s, rfl, h⟩

theorem Ensures.modify {g : σ → σ} {Q : PUnit → σ → Prop} (h : Q ⟨⟩ (g s)) :
    Ensures (modify g : Prog ε σ PUnit) s Q :=
  ⟨⟨⟩, g s, rfl, h⟩

theorem Ensures.set {t : σ} {Q : PUnit → σ → Prop} (h : Q ⟨⟩ t) :
    Ensures (set t : Prog ε σ PUnit) s Q :=
  ⟨⟨⟩, t, rfl, h⟩

theorem Ensures.bind (hx : Ensures x s P) (hf : ∀ a s', P a s' → Ensures (f a) s' R) :
    Ensures (x >>= f) s R := by
  obtain ⟨a, s', hrun, hP⟩ := hx
  obtain ⟨b, s'', hrun', hR⟩ := hf a s' hP
  refine ⟨b, s'', ?_, hR⟩
  change (x s >>= fun p => f p.1 p.2) = _
  rw [hrun]
  exact hrun'

theorem Ensures.mono (hx : Ensures x s P) (h : ∀ a s', P a s' → Q a s') : Ensures x s Q := by
  obtain ⟨a, s', hrun, hP⟩ := hx
  exact ⟨a, s', hrun, h a s' hP⟩

theorem Ensures.and (hx : Ensures x s P) (hx' : Ensures x s Q) :
    Ensures x s fun a s' => P a s' ∧ Q a s' := by
  obtain ⟨a, s', hrun, hP⟩ := hx
  obtain ⟨b, s'', hrun', hQ⟩ := hx'
  obtain ⟨rfl, rfl⟩ := Prod.mk.inj (Except.ok.inj (hrun.symm.trans hrun'))
  exact ⟨a, s', hrun, hP, hQ⟩

theorem Ensures.ite {c : Prop} [Decidable c] {y : Prog ε σ α} (ht : c → Ensures x s Q)
    (hf : ¬ c → Ensures y s Q) : Ensures (if c then x else y) s Q := by
  split
  · exact ht ‹_›
  · exact hf ‹_›

/-- After a first part that ends with `P`, only the states with `P` matter. -/
theorem Ensures.bind_congr {g : α → Prog ε σ β} (hx : Ensures x s P)
    (h : ∀ a s', P a s' → f a s' = g a s') : (x >>= f) s = (x >>= g) s := by
  obtain ⟨a, s', hrun, hP⟩ := hx
  change (x s >>= fun p => f p.1 p.2) = (x s >>= fun p => g p.1 p.2)
  rw [hrun]
  exact h a s' hP

theorem Ensures.get_bind {f : σ → Prog ε σ β} (h : Ensures (f s) s R) :
    Ensures (MonadState.get >>= f) s R :=
  Ensures.bind (.get (Q := fun a s' => a = s ∧ s' = s) ⟨rfl, rfl⟩) fun _ _ ⟨ha, hs⟩ => by
    rw [ha, hs]
    exact h

theorem Ensures.modify_bind {g : σ → σ} {f : PUnit → Prog ε σ β} (h : Ensures (f ⟨⟩) (g s) R) :
    Ensures (MonadState.modifyGet (fun s => (PUnit.unit, g s)) >>= f) s R :=
  Ensures.bind (.modify (Q := fun _ s' => s' = g s) rfl) fun _ _ hs => by
    rw [hs]
    exact h

theorem Ensures.of_eq {a : α} {s' : σ} (h : x s = .ok (a, s')) (hQ : Q a s') : Ensures x s Q :=
  ⟨a, s', h, hQ⟩

theorem Ensures.of_run {a : α} {s' : σ} (hx : Ensures x s Q) (h : x s = .ok (a, s')) : Q a s' := by
  obtain ⟨b, s'', hrun, hQ⟩ := hx
  obtain ⟨rfl, rfl⟩ := Prod.mk.inj (Except.ok.inj (hrun.symm.trans h))
  exact hQ

theorem Ensures.discard {Q : σ → Prop} (hx : Ensures x s fun _ s' => Q s') :
    Ensures (Functor.discard x) s fun _ s' => Q s' := by
  obtain ⟨a, s', hrun, hQ⟩ := hx
  refine ⟨⟨⟩, s', ?_, hQ⟩
  change (x s >>= fun p => Except.ok (PUnit.unit, p.2)) = _
  rw [hrun]
  rfl

/-- Whether a program returns a result with `p`; to be evaluated. -/
def returns (p : α → Bool) (x : Prog ε σ α) (s : σ) : Bool :=
  match x s with
  | .ok (a, _) => p a
  | .error _ => false

theorem exists_of_returns {p : α → Bool} (h : returns p x s) :
    ∃ a s', x s = .ok (a, s') ∧ p a := by
  rw [returns] at h
  split at h
  · rename_i a s' hrun
    exact ⟨a, s', hrun, h⟩
  · exact nomatch h

/-- The same for a condition on the result and on the state that a program ends in. -/
def endsIn (p : α → σ → Bool) (x : Prog ε σ α) (s : σ) : Bool :=
  match x s with
  | .ok (a, s') => p a s'
  | .error _ => false

theorem exists_of_endsIn {p : α → σ → Bool} (h : endsIn p x s) :
    ∃ a s', x s = .ok (a, s') ∧ p a s' := by
  rw [endsIn] at h
  split at h
  · rename_i a s' hrun
    exact ⟨a, s', hrun, h⟩
  · exact nomatch h

theorem Ensures.of_returns {p : α → Bool} (hx : Ensures x s Q) (h : returns p x s) :
    ∃ a s', p a ∧ Q a s' := by
  obtain ⟨a, s', hrun, hQ⟩ := hx
  rw [returns, hrun] at h
  exact ⟨a, s', h, hQ⟩

/-! ## Programs that may panic -/

/-- If the program, started in `s`, does not panic, it ends with `Q`. -/
def Ends (x : Prog ε σ α) (s : σ) (Q : α → σ → Prop) : Prop :=
  ∀ a s', x s = .ok (a, s') → Q a s'

theorem Ensures.ends (hx : Ensures x s Q) : Ends x s Q := fun _ _ h => hx.of_run h

theorem Ensures.and_ends (hx : Ensures x s P) (hx' : Ends x s Q) :
    Ensures x s fun a s' => P a s' ∧ Q a s' := by
  obtain ⟨a, s', hrun, hP⟩ := hx
  exact ⟨a, s', hrun, hP, hx' a s' hrun⟩

theorem Ends.panic (e : ε) : Ends (Program.panic e : Prog ε σ α) s Q := fun _ _ h => nomatch h

theorem Ends.mono (hx : Ends x s P) (h : ∀ a s', P a s' → Q a s') : Ends x s Q :=
  fun a s' hrun => h a s' (hx a s' hrun)

/-- A sequence that does not panic is made of two parts that do not. -/
theorem exists_of_bind {b : β} {s'' : σ} (h : (x >>= f) s = .ok (b, s'')) :
    ∃ a s', x s = .ok (a, s') ∧ f a s' = .ok (b, s'') := by
  change (x s >>= fun p => f p.1 p.2) = _ at h
  cases hx : x s with
  | error e =>
    rw [hx] at h
    exact nomatch h
  | ok p =>
    rw [hx] at h
    exact ⟨p.1, p.2, rfl, h⟩

theorem Ends.bind (hx : Ends x s P) (hf : ∀ a s', P a s' → Ends (f a) s' R) :
    Ends (x >>= f) s R := by
  intro b s'' hrun
  obtain ⟨a, s', hrun₁, hrun₂⟩ := exists_of_bind hrun
  exact hf a s' (hx a s' hrun₁) b s'' hrun₂

theorem Ends.ite {c : Prop} [Decidable c] {y : Prog ε σ α} (ht : c → Ends x s Q)
    (hf : ¬ c → Ends y s Q) : Ends (if c then x else y) s Q := by
  split
  · exact ht ‹_›
  · exact hf ‹_›

/-! ## Programs with known panics -/

/-- Started in `s`, the program ends with `Q`, or it panics with `E`. -/
def Yields (E : ε → Prop) (x : Prog ε σ α) (s : σ) (Q : α → σ → Prop) : Prop :=
  (∃ a s', x s = .ok (a, s') ∧ Q a s') ∨ ∃ e, x s = .error e ∧ E e

section Yields

variable {E : ε → Prop}

theorem Ensures.yields (hx : Ensures x s Q) : Yields E x s Q := Or.inl hx

theorem Yields.ensures (hx : Yields (fun _ => False) x s Q) : Ensures x s Q :=
  hx.resolve_right fun ⟨_, _, he⟩ => he

theorem Yields.pure {a : α} (h : Q a s) : Yields E (pure a : Prog ε σ α) s Q :=
  (Ensures.pure h).yields

theorem Yields.panic {e : ε} (h : E e) : Yields E (Program.panic e : Prog ε σ α) s Q :=
  Or.inr ⟨e, rfl, h⟩

theorem Yields.bind (hx : Yields E x s P) (hf : ∀ a s', P a s' → Yields E (f a) s' R) :
    Yields E (x >>= f) s R := by
  rcases hx with ⟨a, s', hrun, hP⟩ | ⟨e, hrun, he⟩
  · rcases hf a s' hP with ⟨b, s'', hrun', hR⟩ | ⟨e, hrun', he⟩
    · refine Or.inl ⟨b, s'', ?_, hR⟩
      change (x s >>= fun p => f p.1 p.2) = _
      rw [hrun]
      exact hrun'
    · refine Or.inr ⟨e, ?_, he⟩
      change (x s >>= fun p => f p.1 p.2) = _
      rw [hrun]
      exact hrun'
  · refine Or.inr ⟨e, ?_, he⟩
    change (x s >>= fun p => f p.1 p.2) = _
    rw [hrun]
    rfl

theorem Yields.mono (hx : Yields E x s P) (h : ∀ a s', P a s' → Q a s') : Yields E x s Q := by
  rcases hx with ⟨a, s', hrun, hP⟩ | he
  · exact Or.inl ⟨a, s', hrun, h a s' hP⟩
  · exact Or.inr he

theorem Yields.ite {c : Prop} [Decidable c] {y : Prog ε σ α} (ht : c → Yields E x s Q)
    (hf : ¬ c → Yields E y s Q) : Yields E (if c then x else y) s Q := by
  split
  · exact ht ‹_›
  · exact hf ‹_›

theorem Yields.get_bind {f : σ → Prog ε σ β} (h : Yields E (f s) s R) :
    Yields E (MonadState.get >>= f) s R :=
  Yields.bind (Ensures.get (Q := fun a s' => a = s ∧ s' = s) ⟨rfl, rfl⟩).yields fun _ _ ⟨ha, hs⟩ => by
    rw [ha, hs]
    exact h

theorem Yields.of_run {a : α} {s' : σ} (hx : Yields E x s Q) (h : x s = .ok (a, s')) : Q a s' := by
  rcases hx with ⟨b, s'', hrun, hQ⟩ | ⟨e, hrun, -⟩
  · obtain ⟨rfl, rfl⟩ := Prod.mk.inj (Except.ok.inj (hrun.symm.trans h))
    exact hQ
  · exact nomatch hrun.symm.trans h

end Yields

/-! ## Programs on a part of the state -/

/-- A program on a part of the state, run in the whole. -/
def zoom {τ : Type} (get : τ → σ) (set : τ → σ → τ) (x : Prog ε σ α) : Prog ε τ α :=
  fun t => (x (get t)).map fun r => (r.1, set t r.2)

theorem Ensures.zoom {τ : Type} {get : τ → σ} {set : τ → σ → τ} {t : τ}
    (h : Ensures x (get t) Q) :
    Ensures (zoom get set x) t fun a t' => ∃ s', t' = set t s' ∧ Q a s' := by
  obtain ⟨a, s', hrun, hQ⟩ := h
  refine ⟨a, set t s', ?_, s', rfl, hQ⟩
  rw [Program.zoom, hrun]
  rfl

theorem Yields.zoom {E : ε → Prop} {τ : Type} {get : τ → σ} {set : τ → σ → τ} {t : τ}
    (h : Yields E x (get t) Q) :
    Yields E (zoom get set x) t fun a t' => ∃ s', t' = set t s' ∧ Q a s' := by
  rcases h with ⟨a, s', hrun, hQ⟩ | ⟨e, hrun, he⟩
  · refine Or.inl ⟨a, set t s', ?_, s', rfl, hQ⟩
    rw [Program.zoom, hrun]
    rfl
  · refine Or.inr ⟨e, ?_, he⟩
    rw [Program.zoom, hrun]
    rfl

/-! ## Counting loops -/

/-- `for (i = a; n turns; i++) body(i)`, where the body may end the loop with a result. -/
def countUp (body : ℕ → Prog ε σ (Option β)) : ℕ → ℕ → Prog ε σ (Option β)
  | _, 0 => pure none
  | a, n + 1 => do
    match ← body a with
    | some b => pure (some b)
    | none => countUp body (a + 1) n

/-- **The rule for counting loops.**  `I i` holds before turn `i`, and every turn either goes on
with `I (i + 1)` or ends the loop with `R`. -/
theorem Ensures.countUp {I : ℕ → σ → Prop} {R : β → σ → Prop} {body : ℕ → Prog ε σ (Option β)}
    {a n : ℕ} (h0 : I a s)
    (hstep : ∀ i t, a ≤ i → i < a + n → I i t → Ensures (body i) t fun r t' =>
      match r with
      | none => I (i + 1) t'
      | some b => R b t') :
    Ensures (countUp body a n) s fun r t =>
      match r with
      | none => I (a + n) t
      | some b => R b t := by
  induction n generalizing a s with
  | zero => exact .pure h0
  | succ n ih =>
    refine .bind (hstep a s (Nat.le_refl a) (by omega) h0) fun r t hr => ?_
    cases r with
    | some b => exact .pure hr
    | none =>
      refine (ih hr fun i t hi hlt => hstep i t (by omega) (by omega)).mono fun r t' h => ?_
      cases r with
      | some b => exact h
      | none =>
        rw [Nat.add_assoc, Nat.add_comm 1 n] at h
        exact h

/-- A loop that only reads ends at the first turn with a result. -/
theorem Ensures.countUp_eq {f : ℕ → Option β} {body : ℕ → Prog ε σ (Option β)} {a n : ℕ}
    (h : ∀ i, a ≤ i → i < a + n → Ensures (body i) s fun r t => t = s ∧ r = f i) :
    Ensures (Program.countUp body a n) s fun r t => t = s ∧ r = (List.range' a n).findSome? f := by
  induction n generalizing a with
  | zero => exact .pure ⟨rfl, rfl⟩
  | succ n ih =>
    refine .bind (h a (Nat.le_refl a) (by omega)) ?_
    rintro r t ⟨rfl, rfl⟩
    rw [List.range'_succ, List.findSome?_cons]
    cases f a with
    | some b => exact .pure ⟨rfl, rfl⟩
    | none => exact ih fun i hi hlt => h i (by omega) (by omega)

/-- `for (i = a; n turns; i++) body(i)`. -/
def forUp (body : ℕ → Prog ε σ PUnit) : ℕ → ℕ → Prog ε σ PUnit
  | _, 0 => pure ⟨⟩
  | a, n + 1 => do
    body a
    forUp body (a + 1) n

theorem Ensures.forUp {I : ℕ → σ → Prop} {body : ℕ → Prog ε σ PUnit} {a n : ℕ} (h0 : I a s)
    (hstep : ∀ i t, a ≤ i → i < a + n → I i t → Ensures (body i) t fun _ t' => I (i + 1) t') :
    Ensures (forUp body a n) s fun _ t => I (a + n) t := by
  induction n generalizing a s with
  | zero => exact .pure h0
  | succ n ih =>
    refine .bind (hstep a s (Nat.le_refl a) (by omega) h0) fun _ t ht => ?_
    refine (ih ht fun i t hi hlt => hstep i t (by omega) (by omega)).mono fun _ t' h => ?_
    rw [Nat.add_assoc, Nat.add_comm 1 n] at h
    exact h

end Program
