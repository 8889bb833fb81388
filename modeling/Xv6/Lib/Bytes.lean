import Mathlib

/-!
# Little-endian words in byte-addressed memory

A memory is a function from addresses to bytes.  `load k m a` is the number in the `k` bytes of `m`
from `a` on, the least significant byte first, and `store k m a v` puts the low `k` bytes of `v`
there.  What a proof needs of the two is that a load gets back what was stored, and that words that
do not overlap do not matter to each other.
-/

namespace Bytes

/-- A byte-addressed memory. -/
abbrev Mem := ℕ → UInt8

/-- The number in the `k` bytes from `a` on. -/
def load : ℕ → Mem → ℕ → ℕ
  | 0, _, _ => 0
  | k + 1, m, a => (m a).toNat + 256 * load k m (a + 1)

/-- Put the low `k` bytes of `v` at `a`. -/
def store (k : ℕ) (m : Mem) (a v : ℕ) : Mem := fun i =>
  if a ≤ i ∧ i < a + k then UInt8.ofNat (v / 256 ^ (i - a)) else m i

variable {m m' : Mem} {k l a b v i : ℕ}

theorem store_inside (h : i < k) : store k m a v (a + i) = UInt8.ofNat (v / 256 ^ i) := by
  rw [store, if_pos ⟨by omega, by omega⟩, Nat.add_sub_cancel_left]

theorem store_outside (h : i < a ∨ a + k ≤ i) : store k m a v i = m i := by
  rw [store, if_neg (by omega)]

theorem store_congr (h : a ≤ i ∧ i < a + k ∨ m i = m' i) : store k m a v i = store k m' a v i := by
  rw [store, store]
  split
  · rfl
  · rename_i hout
    exact h.resolve_left hout

theorem load_congr (h : ∀ i, a ≤ i → i < a + k → m i = m' i) : load k m a = load k m' a := by
  induction k generalizing a with
  | zero => rfl
  | succ k ih =>
    have hhead := h a (Nat.le_refl a) (by omega)
    have htail := ih (a := a + 1) fun i hi hik => h i (by omega) (by omega)
    rw [load, load, hhead, htail]

@[simp] theorem load_zero (k a : ℕ) : load k (fun _ => 0) a = 0 := by
  induction k generalizing a with
  | zero => rfl
  | succ k ih =>
    rw [load, ih]
    rfl

theorem load_lt (k : ℕ) (m : Mem) (a : ℕ) : load k m a < 256 ^ k := by
  induction k generalizing a with
  | zero => exact Nat.one_pos
  | succ k ih =>
    have hbyte : (m a).toNat < 256 := (m a).toNat_lt
    have htail := ih (a + 1)
    rw [load, Nat.pow_succ]
    omega

theorem load_eq_of_bytes (h : ∀ i < k, m (a + i) = UInt8.ofNat (v / 256 ^ i)) :
    load k m a = v % 256 ^ k := by
  induction k generalizing a v with
  | zero => rw [load, Nat.pow_zero, Nat.mod_one]
  | succ k ih =>
    have hhead : (m a).toNat = v % 256 := by
      have h0 := h 0 (by omega)
      rw [Nat.add_zero, Nat.pow_zero, Nat.div_one] at h0
      rw [h0, UInt8.toNat_ofNat']
    have htail : load k m (a + 1) = v / 256 % 256 ^ k := by
      refine ih fun i hi => ?_
      rw [Nat.add_assoc, Nat.add_comm 1 i, h (i + 1) (by omega), Nat.div_div_eq_div_mul,
        Nat.pow_succ, Nat.mul_comm]
    rw [load, hhead, htail, Nat.pow_succ, Nat.mul_comm (256 ^ k) 256, Nat.mod_mul]

/-- **A load gets back what was stored.** -/
theorem load_store (k : ℕ) (m : Mem) (a v : ℕ) : load k (store k m a v) a = v % 256 ^ k :=
  load_eq_of_bytes fun _ hi => store_inside hi

theorem load_store_of_lt (h : v < 256 ^ k) : load k (store k m a v) a = v := by
  rw [load_store, Nat.mod_eq_of_lt h]

theorem load_store_of_disjoint (h : a + k ≤ b ∨ b + l ≤ a) :
    load k (store l m b v) a = load k m a :=
  load_congr fun i hi hik => store_outside (by omega)

-- the lemmas above are all that is used of loads and stores
attribute [irreducible] load store

end Bytes
