import Mathlib

/-!
# The two `memmove`s

The kernel (`kernel/string.c`) and the user library (`user/ulib.c`) each have a `memmove`.  Both copy byte by
byte, upwards or downwards; they differ in the test that chooses the direction and in the type of the length,
a `uint` in the kernel and an `int` in the library.

Addresses are 64-bit words and pointers wrap around, so a range of `n` bytes from `d` on holds the addresses
`a` with `a - d < n`.  In these terms each loop is right unless the bytes it stores run ahead of those it has
still to read: upwards if the destination is not among the `n` bytes behind the source (`copyUp_eq`),
downwards if the source is not among the `n` bytes behind the destination (`copyDown_eq`).  The tests of both
versions are then a matter of comparing addresses, and they need that neither range goes beyond the end of
the address space.
-/

namespace Xv6.Libc

/-- A 64-bit address space of bytes. -/
abbrev Memory := BitVec 64 → UInt8

/-! ## The model -/

/-- `while(n-- > 0) *d++ = *s++;` -/
def copyUp (m : Memory) (d s : BitVec 64) : ℕ → Memory
  | 0 => m
  | n + 1 => copyUp (Function.update m d (m s)) (d + 1) (s + 1) n

/-- `while(n-- > 0) *--d = *--s;` -/
def copyDown (m : Memory) (d s : BitVec 64) : ℕ → Memory
  | 0 => m
  | n + 1 => copyDown (Function.update m (d - 1) (m (s - 1))) (d - 1) (s - 1) n

/-- `memmove` of the kernel, with the memory after it and the pointer it returns.  The length is a `uint`. -/
def Kernel.memmove (m : Memory) (dst src : BitVec 64) (n : BitVec 32) : Memory × BitVec 64 :=
  if n = 0 then (m, dst)
  else if src < dst ∧ dst < src + n.zeroExtend 64 then
    (copyDown m (dst + n.zeroExtend 64) (src + n.zeroExtend 64) n.toNat, dst)
  else (copyUp m dst src n.toNat, dst)

/-- `memmove` of the user library.  The length is an `int`, and no round is made if it is negative. -/
def User.memmove (m : Memory) (vdst vsrc : BitVec 64) (n : BitVec 32) : Memory × BitVec 64 :=
  if vdst < vsrc then (copyUp m vdst vsrc n.toInt.toNat, vdst)
  else (copyDown m (vdst + n.signExtend 64) (vsrc + n.signExtend 64) n.toInt.toNat, vdst)

/-! ## The two loops -/

/-- The memory `m` with the `n` bytes from `s` on put at `d`, all at once. -/
def moved (m : Memory) (d s : BitVec 64) (n : ℕ) : Memory := fun a =>
  if (a - d).toNat < n then m (s + (a - d)) else m a

variable {m : Memory} {d s : BitVec 64} {n : ℕ}

/-- The destination may lie behind the source by nothing, or by `n` bytes and more. -/
theorem copyUp_eq (hn : n < 2 ^ 64) (h : d = s ∨ n ≤ (d - s).toNat) : copyUp m d s n = moved m d s n := by
  induction n generalizing m d s with
  | zero =>
    funext a
    simp [copyUp, moved]
  | succ n ih =>
    rw [copyUp, ih (by omega) (by bv_omega)]
    funext a
    rw [moved, moved]
    by_cases ha : a = d
    · -- the byte that was stored first is not stored again
      rw [if_neg (by bv_omega), if_pos (by bv_omega), ha, Function.update_self]
      congr 1
      bv_omega
    · have hlt : (a - (d + 1)).toNat < n ↔ (a - d).toNat < n + 1 := by bv_omega
      rw [Function.update_of_ne ha]
      by_cases hin : (a - d).toNat < n + 1
      · -- what is read has not been overwritten
        rw [if_pos (hlt.mpr hin), if_pos hin, Function.update_of_ne (by bv_omega)]
        congr 1
        bv_omega
      · rw [if_neg (fun hin' => hin (hlt.mp hin')), if_neg hin]

/-- The source may lie behind the destination by nothing, or by `n` bytes and more. -/
theorem copyDown_eq (hn : n < 2 ^ 64) (h : d = s ∨ n ≤ (s - d).toNat) :
    copyDown m (d + BitVec.ofNat 64 n) (s + BitVec.ofNat 64 n) n = moved m d s n := by
  induction n generalizing m with
  | zero =>
    funext a
    simp [copyDown, moved]
  | succ n ih =>
    have hpred (b : BitVec 64) : b + BitVec.ofNat 64 (n + 1) - 1 = b + BitVec.ofNat 64 n := by bv_omega
    rw [copyDown, hpred, hpred, ih (by omega) (h.imp_right fun hle => by omega)]
    funext a
    rw [moved, moved]
    by_cases ha : a = d + BitVec.ofNat 64 n
    · rw [if_neg (by bv_omega), if_pos (by bv_omega), ha, Function.update_self]
      congr 1
      bv_omega
    · have hlt : (a - d).toNat < n ↔ (a - d).toNat < n + 1 := by bv_omega
      rw [Function.update_of_ne ha]
      by_cases hin : (a - d).toNat < n + 1
      · rw [if_pos (hlt.mpr hin), if_pos hin, Function.update_of_ne (by bv_omega)]
      · rw [if_neg (fun hin' => hin (hlt.mp hin')), if_neg hin]

/-! ## The tests -/

/-- What `memmove` is for: the destination holds the bytes the source held before, and nothing else has
changed. -/
structure Moves (m m' : Memory) (dst src : BitVec 64) (n : ℕ) : Prop where
  copied : ∀ k < n, m' (dst + BitVec.ofNat 64 k) = m (src + BitVec.ofNat 64 k)
  rest : ∀ a : BitVec 64, a.toNat < dst.toNat ∨ dst.toNat + n ≤ a.toNat → m' a = m a

theorem moves_moved (hn : n < 2 ^ 64) (hd : d.toNat + n ≤ 2 ^ 64) : Moves m (moved m d s n) d s n where
  copied k hk := by
    rw [moved, if_pos (by bv_omega)]
    congr 1
    bv_omega
  rest a ha := by
    rw [moved, if_neg (by bv_omega)]

theorem Kernel.memmove_eq (m : Memory) {dst src : BitVec 64} {n : BitVec 32}
    (hsrc : src.toNat + n.toNat ≤ 2 ^ 64) (hdst : dst.toNat + n.toNat ≤ 2 ^ 64) :
    Kernel.memmove m dst src n = (moved m dst src n.toNat, dst) := by
  have hword : n.zeroExtend 64 = BitVec.ofNat 64 n.toNat := by bv_omega
  rw [Kernel.memmove]
  split
  · rename_i hzero
    subst hzero
    have hnone : moved m dst src 0 = m := funext fun a => by simp [moved]
    rw [show (0 : BitVec 32).toNat = 0 from rfl, hnone]
  · split
    · rename_i htest
      rw [hword] at htest ⊢
      rw [copyDown_eq (by omega) (.inr (by bv_omega))]
    · rename_i htest
      rw [hword] at htest
      rw [copyUp_eq (by omega) (by bv_omega)]

theorem User.memmove_eq (m : Memory) {dst src : BitVec 64} {n : BitVec 32} (hn : 0 ≤ n.toInt)
    (hsrc : src.toNat + n.toNat ≤ 2 ^ 64) (hdst : dst.toNat + n.toNat ≤ 2 ^ 64) :
    User.memmove m dst src n = (moved m dst src n.toNat, dst) := by
  have hlen : n.toInt.toNat = n.toNat := by
    rw [BitVec.toInt_eq_toNat_cond] at hn ⊢
    split at hn <;> omega
  have hmsb : n.msb = false := by
    rw [BitVec.msb_eq_false_iff_two_mul_lt]
    rw [BitVec.toInt_eq_toNat_cond] at hn
    split at hn <;> omega
  have hword : n.signExtend 64 = BitVec.ofNat 64 n.toNat := by
    rw [BitVec.signExtend_eq_setWidth_of_msb_false hmsb]
    bv_omega
  rw [User.memmove, hlen]
  split
  · rename_i htest
    rw [copyUp_eq (by omega) (.inr (by bv_omega))]
  · rename_i htest
    rw [hword, copyDown_eq (by omega) (by bv_omega)]

/-- **Both `memmove`s are safe for any overlap**, for every memory, every two addresses and every length such
that neither range goes beyond the end of the address space: they return the destination, whose bytes are those
the source held before the call, and leave all other bytes alone.  The library's takes its length as an
`int`, which must not be negative; for such lengths the two agree. -/
theorem memmove_overlap_safe (m : Memory) (dst src : BitVec 64) (n : BitVec 32)
    (hsrc : src.toNat + n.toNat ≤ 2 ^ 64) (hdst : dst.toNat + n.toNat ≤ 2 ^ 64) :
    (∃ m', Kernel.memmove m dst src n = (m', dst) ∧ Moves m m' dst src n.toNat) ∧
      (0 ≤ n.toInt →
        (∃ m', User.memmove m dst src n = (m', dst) ∧ Moves m m' dst src n.toNat) ∧
          User.memmove m dst src n = Kernel.memmove m dst src n) := by
  have hmoves : Moves m (moved m dst src n.toNat) dst src n.toNat := moves_moved (by omega) hdst
  have hkernel := Kernel.memmove_eq m hsrc hdst
  refine ⟨⟨_, hkernel, hmoves⟩, fun hn => ?_⟩
  have huser := User.memmove_eq m hn hsrc hdst
  exact ⟨⟨_, huser, hmoves⟩, huser.trans hkernel.symm⟩

/-- Three bytes are moved up by one, and the one in front stays. -/
theorem memmove_overlap_safe_up :
    User.memmove (fun a => .ofNat a.toNat) 101 100 3 = Kernel.memmove (fun a => .ofNat a.toNat) 101 100 3 ∧
      (Kernel.memmove (fun a => .ofNat a.toNat) 101 100 3).1 103 = 102 :=
  ⟨((memmove_overlap_safe (fun a => .ofNat a.toNat) 101 100 3 (by decide) (by decide)).2 (by decide)).2,
    by decide⟩

end Xv6.Libc
