import Mathlib

/-!
# Ring buffers with free-running counters

A buffer of `cap` cells with a read and a write counter that are never reset: they count modulo
`M`, a multiple of `cap`, and a counter is reduced modulo `cap` only to find its cell.  The buffer
is empty if the counters are equal and full if they differ by `cap`; both are tested modulo `M`.

`Contains q xs` says that the buffer represents the queue `xs`, oldest element first.  As long as
`cap < M`, the two tests are exact (`empty_iff`, `full_iff`), and `push` and `pop` are the operations
of the queue, whether or not the counters wrap around.
-/

/-- A buffer and its counters. -/
structure RingBuffer (α : Type*) where
  buf : ℕ → α
  rd : ℕ
  wr : ℕ

namespace RingBuffer

variable {α : Type*}

/-- The test for a full buffer. -/
def Full (cap M : ℕ) (q : RingBuffer α) : Prop := q.wr = (q.rd + cap) % M

/-- Store an element and advance the write counter. -/
def push (cap M : ℕ) (q : RingBuffer α) (c : α) : RingBuffer α :=
  { q with buf := Function.update q.buf (q.wr % cap) c, wr := (q.wr + 1) % M }

/-- The element at the read counter. -/
def front (cap : ℕ) (q : RingBuffer α) : α := q.buf (q.rd % cap)

/-- Advance the read counter. -/
def pop (M : ℕ) (q : RingBuffer α) : RingBuffer α := { q with rd := (q.rd + 1) % M }

/-- The buffer holds the queue `xs`. -/
structure Contains (cap M : ℕ) (q : RingBuffer α) (xs : List α) : Prop where
  length_le : xs.length ≤ cap
  rd_lt : q.rd < M
  wr_eq : q.wr = (q.rd + xs.length) % M
  get : ∀ j (h : j < xs.length), q.buf ((q.rd + j) % cap) = xs[j]

section

variable {cap M : ℕ} {q : RingBuffer α} {xs : List α}

theorem cell_ne {n i j : ℕ} (hij : i < j) (hj : j < cap) : (n + i) % cap ≠ (n + j) % cap := by
  intro heq
  have hmod : n + i ≡ n + j [MOD cap] := heq
  have hmod' : i ≡ j [MOD cap] := Nat.ModEq.add_left_cancel' n hmod
  rw [Nat.ModEq, Nat.mod_eq_of_lt (hij.trans hj), Nat.mod_eq_of_lt hj] at hmod'
  exact absurd hmod' (Nat.ne_of_lt hij)

/-- Counters at most `cap < M` apart are equal modulo `M` only if they are the same distance
apart. -/
theorem offset_inj {n i j : ℕ} (hi : i < M) (hj : j < M) (h : (n + i) % M = (n + j) % M) :
    i = j := by
  have hmod : i ≡ j [MOD M] := Nat.ModEq.add_left_cancel' n h
  rwa [Nat.ModEq, Nat.mod_eq_of_lt hi, Nat.mod_eq_of_lt hj] at hmod

theorem Contains.empty_iff (h : Contains cap M q xs) (hcap : cap < M) : q.rd = q.wr ↔ xs = [] := by
  constructor
  · intro heq
    rw [h.wr_eq] at heq
    have hrd : (q.rd + 0) % M = (q.rd + xs.length) % M := by
      rw [Nat.add_zero, Nat.mod_eq_of_lt h.rd_lt]
      exact heq
    exact List.eq_nil_of_length_eq_zero
      (offset_inj (by omega) (Nat.lt_of_le_of_lt h.length_le hcap) hrd).symm
  · rintro rfl
    rw [h.wr_eq, List.length_nil, Nat.add_zero, Nat.mod_eq_of_lt h.rd_lt]

theorem Contains.full_iff (h : Contains cap M q xs) (hcap : cap < M) :
    q.Full cap M ↔ xs.length = cap := by
  rw [Full, h.wr_eq]
  constructor
  · exact offset_inj (Nat.lt_of_le_of_lt h.length_le hcap) hcap
  · intro heq
    rw [heq]

theorem Contains.distance (h : Contains cap M q xs) (hcap : cap < M) :
    (q.wr + M - q.rd) % M = xs.length := by
  have hlen : xs.length < M := Nat.lt_of_le_of_lt h.length_le hcap
  have hrd := h.rd_lt
  rw [h.wr_eq]
  rcases Nat.lt_or_ge (q.rd + xs.length) M with hlt | hge
  · rw [Nat.mod_eq_of_lt hlt, show q.rd + xs.length + M - q.rd = xs.length + M by omega,
      Nat.add_mod_right, Nat.mod_eq_of_lt hlen]
  · have hwrap : q.rd + xs.length - M < M := by omega
    rw [Nat.mod_eq_sub_mod hge, Nat.mod_eq_of_lt hwrap,
      show q.rd + xs.length - M + M - q.rd = xs.length by omega, Nat.mod_eq_of_lt hlen]

theorem Contains.push (h : Contains cap M q xs) (hcap : cap < M) (hdvd : cap ∣ M)
    (hfull : ¬ q.Full cap M) (c : α) : Contains cap M (q.push cap M c) (xs ++ [c]) := by
  have hlt : xs.length < cap := by
    have hne : xs.length ≠ cap := fun heq => hfull ((h.full_iff hcap).mpr heq)
    exact Nat.lt_of_le_of_ne h.length_le hne
  have hcell : q.wr % cap = (q.rd + xs.length) % cap := by
    rw [h.wr_eq, Nat.mod_mod_of_dvd _ hdvd]
  refine ⟨?_, h.rd_lt, ?_, ?_⟩
  · rw [List.length_append, List.length_singleton]
    exact hlt
  · show (q.wr + 1) % M = (q.rd + (xs ++ [c]).length) % M
    rw [h.wr_eq, List.length_append, List.length_singleton, Nat.mod_add_mod, Nat.add_assoc]
  · intro j hj
    show Function.update q.buf (q.wr % cap) c ((q.rd + j) % cap) = _
    rw [List.length_append, List.length_singleton] at hj
    rw [hcell]
    rcases Nat.lt_succ_iff_lt_or_eq.mp hj with hold | rfl
    · rw [Function.update_of_ne (cell_ne hold hlt), List.getElem_append_left hold]
      exact h.get j hold
    · rw [Function.update_self, List.getElem_append_right (Nat.le_refl _)]
      simp

theorem Contains.front {x : α} (h : Contains cap M q (x :: xs)) : q.front cap = x := by
  have hget := h.get 0 (Nat.succ_pos _)
  rwa [Nat.add_zero] at hget

theorem Contains.pop {x : α} (h : Contains cap M q (x :: xs)) (hdvd : cap ∣ M) (hM : 0 < M) :
    Contains cap M (q.pop M) xs := by
  refine ⟨?_, Nat.mod_lt _ hM, ?_, ?_⟩
  · exact (Nat.le_succ _).trans h.length_le
  · show q.wr = ((q.rd + 1) % M + xs.length) % M
    rw [h.wr_eq, List.length_cons, Nat.mod_add_mod]
    congr 1
    omega
  · intro j hj
    show q.buf (((q.rd + 1) % M + j) % cap) = _
    have hget := h.get (j + 1) (Nat.succ_lt_succ hj)
    rw [List.getElem_cons_succ] at hget
    rw [← hget, ← Nat.mod_mod_of_dvd ((q.rd + 1) % M + j) hdvd, Nat.mod_add_mod,
      Nat.mod_mod_of_dvd _ hdvd]
    congr 2
    omega

/-- The first elements of a queue are what lies up to an earlier counter. -/
theorem Contains.take {ys zs : List α} (h : Contains cap M q (ys ++ zs)) :
    Contains cap M { q with wr := (q.rd + ys.length) % M } ys := by
  have hlen : (ys ++ zs).length = ys.length + zs.length := List.length_append
  refine ⟨?_, h.rd_lt, rfl, fun j hj => ?_⟩
  · exact (Nat.le_add_right _ _).trans (hlen ▸ h.length_le)
  · exact (h.get j (by omega)).trans (List.getElem_append_left hj)

/-- Without its first elements, a queue is what lies from a later counter on. -/
theorem Contains.drop {ys zs : List α} (h : Contains cap M q (ys ++ zs)) (hdvd : cap ∣ M)
    (hM : 0 < M) : Contains cap M { q with rd := (q.rd + ys.length) % M } zs := by
  induction ys generalizing q with
  | nil =>
    have hrd : (q.rd + ([] : List α).length) % M = q.rd := Nat.mod_eq_of_lt h.rd_lt
    rw [hrd]
    exact h
  | cons y ys ih =>
    have hrd : (q.rd + (y :: ys).length) % M = ((q.rd + 1) % M + ys.length) % M := by
      rw [List.length_cons, Nat.mod_add_mod, Nat.add_assoc, Nat.add_comm 1]
    rw [hrd]
    exact ih (h.pop hdvd hM)

theorem Contains.unpush {c : α} (h : Contains cap M q (xs ++ [c])) :
    Contains cap M { q with wr := (q.wr + M - 1) % M } xs := by
  have hlen : (xs ++ [c]).length = xs.length + 1 := by simp
  have hle := h.length_le
  have hrd := h.rd_lt
  rw [hlen] at hle
  refine ⟨?_, h.rd_lt, ?_, ?_⟩
  · exact (Nat.le_succ _).trans hle
  · show (q.wr + M - 1) % M = (q.rd + xs.length) % M
    rw [h.wr_eq, hlen, Nat.add_sub_assoc (by omega), Nat.mod_add_mod,
      show q.rd + (xs.length + 1) + (M - 1) = q.rd + xs.length + M by omega, Nat.add_mod_right]
  · intro j hj
    rw [h.get j (by omega), List.getElem_append_left hj]

theorem Contains.last {c : α} (h : Contains cap M q (xs ++ [c])) (hdvd : cap ∣ M) :
    q.buf ((q.wr + M - 1) % M % cap) = c := by
  have hwr : (q.wr + M - 1) % M = (q.rd + xs.length) % M := h.unpush.wr_eq
  rw [hwr, Nat.mod_mod_of_dvd _ hdvd, h.get xs.length (by simp)]
  simp

end

end RingBuffer
