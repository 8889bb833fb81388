import Xv6.Lib.Bytes
import Xv6.Param

/-!
# Addresses and page-table entries

The parts of `kernel/riscv.h` and `kernel/memlayout.h` that the virtual memory code uses.  A
`uint64` is a natural number, and sums that can wrap are cut off by `u64`.  A page has 4096 bytes
(`PGSIZE`), a page table 512 entries.

A page-table entry holds a page number above ten bits of flags; the lemmas here say how the two
parts come back out of an entry that has been put together.
-/

namespace Xv6
namespace Vm

/-- What a `uint64` holds. -/
def u64 (x : ℕ) : ℕ := x % 2 ^ 64

theorem u64_of_lt {x : ℕ} (h : x < 2 ^ 64) : u64 x = x := Nat.mod_eq_of_lt h

/-- One beyond the highest possible virtual address: `1L << 38`. -/
def MAXVA : ℕ := 2 ^ 38

/-- The trampoline page is at the highest address: `MAXVA - PGSIZE`. -/
def TRAMPOLINE : ℕ := MAXVA - 4096

/-- The trapframe page is below it: `TRAMPOLINE - PGSIZE`. -/
def TRAPFRAME : ℕ := TRAMPOLINE - 4096

/-- Start of RAM. -/
def KERNBASE : ℕ := 0x80000000

/-- End of RAM: `KERNBASE + 128*1024*1024`. -/
def PHYSTOP : ℕ := KERNBASE + 128 * 1024 * 1024

theorem MAXVA_eq : MAXVA = 274877906944 := rfl
theorem TRAMPOLINE_eq : TRAMPOLINE = 274877902848 := rfl
theorem TRAPFRAME_eq : TRAPFRAME = 274877898752 := rfl
theorem PHYSTOP_eq : PHYSTOP = 2281701376 := rfl

/-- `PGROUNDUP`. -/
def pgRoundUp (sz : ℕ) : ℕ := u64 (sz + 4096 - 1) / 4096 * 4096

/-- `PGROUNDDOWN`. -/
def pgRoundDown (a : ℕ) : ℕ := a / 4096 * 4096

theorem pgRoundUp_eq {sz : ℕ} (h : sz ≤ MAXVA) :
    pgRoundUp sz = (sz + 4095) / 4096 * 4096 := by
  rw [MAXVA_eq] at h
  rw [pgRoundUp, u64_of_lt (by omega), Nat.add_sub_assoc (by decide)]

theorem pgRoundUp_mod (sz : ℕ) : pgRoundUp sz % 4096 = 0 := Nat.mul_mod_left _ _

theorem pgRoundUp_le {sz : ℕ} (h : sz ≤ TRAPFRAME) : pgRoundUp sz ≤ TRAPFRAME := by
  rw [TRAPFRAME_eq] at h ⊢
  rw [pgRoundUp_eq (by rw [MAXVA_eq]; omega)]
  omega

theorem pgRoundUp_mono {sz sz' : ℕ} (hle : sz ≤ sz') (h : sz' ≤ TRAPFRAME) :
    pgRoundUp sz ≤ pgRoundUp sz' := by
  rw [TRAPFRAME_eq] at h
  rw [pgRoundUp_eq (by rw [MAXVA_eq]; omega), pgRoundUp_eq (by rw [MAXVA_eq]; omega)]
  omega

theorem le_pgRoundUp {sz : ℕ} (h : sz ≤ TRAPFRAME) : sz ≤ pgRoundUp sz := by
  rw [TRAPFRAME_eq] at h
  rw [pgRoundUp_eq (by rw [MAXVA_eq]; omega)]
  omega

/-! ## Virtual addresses -/

/-- The 9-bit page-table index of `va` at a level. -/
def px (level va : ℕ) : ℕ := va >>> (12 + 9 * level) % 512

theorem px_lt (level va : ℕ) : px level va < 512 := Nat.mod_lt _ (by decide)

/-- The three indices of an address below `MAXVA` determine its page. -/
theorem px_inj {va va' : ℕ} (h : va < MAXVA) (h' : va' < MAXVA) (h2 : px 2 va = px 2 va')
    (h1 : px 1 va = px 1 va') (h0 : px 0 va = px 0 va') : va / 4096 = va' / 4096 := by
  rw [MAXVA_eq] at h h'
  simp only [px, Nat.shiftRight_eq_div_pow, Nat.reduceMul, Nat.reduceAdd, Nat.reducePow] at h2 h1 h0
  omega

theorem px_congr (level : ℕ) {va va' : ℕ} (h : va / 4096 = va' / 4096) :
    px level va = px level va' := by
  rw [px, px, Nat.shiftRight_add, Nat.shiftRight_add, Nat.shiftRight_eq_div_pow va 12,
    Nat.shiftRight_eq_div_pow va' 12]
  rw [show (2 : ℕ) ^ 12 = 4096 from rfl, h]

/-! ## Page-table entries -/

/-- `PTE_V`: valid. -/
def PTE_V : ℕ := 1 <<< 0
/-- `PTE_R`: readable. -/
def PTE_R : ℕ := 1 <<< 1
/-- `PTE_W`: writable. -/
def PTE_W : ℕ := 1 <<< 2
/-- `PTE_X`: executable. -/
def PTE_X : ℕ := 1 <<< 3
/-- `PTE_U`: the user can access it. -/
def PTE_U : ℕ := 1 <<< 4

/-- `*pte & PTE_V`. -/
def isV (pte : ℕ) : Bool := pte.testBit 0
/-- `*pte & PTE_R`. -/
def isR (pte : ℕ) : Bool := pte.testBit 1
/-- `*pte & PTE_W`. -/
def isW (pte : ℕ) : Bool := pte.testBit 2
/-- `*pte & PTE_X`. -/
def isX (pte : ℕ) : Bool := pte.testBit 3
/-- `*pte & PTE_U`. -/
def isU (pte : ℕ) : Bool := pte.testBit 4

/-- `PA2PTE`. -/
def pa2pte (pa : ℕ) : ℕ := pa >>> 12 <<< 10

/-- `PTE2PA`. -/
def pte2pa (pte : ℕ) : ℕ := u64 (pte >>> 10 <<< 12)

/-- `PTE_FLAGS`. -/
def pteFlags (pte : ℕ) : ℕ := pte % 1024

/-- `PA2PTE(pa) | perm | PTE_V`. -/
def mkPte (pa perm : ℕ) : ℕ := pa2pte pa ||| perm ||| PTE_V

/-- `*pte & ~PTE_U`. -/
def clearU (pte : ℕ) : ℕ := pte &&& (2 ^ 64 - 1 - PTE_U)

section mkPte

variable {pa perm k : ℕ}

theorem mkPte_eq (h : perm < 1024) : mkPte pa perm = pa / 4096 * 1024 + (perm ||| PTE_V) := by
  have hor : perm ||| PTE_V < 2 ^ 10 := Nat.or_lt_two_pow h (by decide)
  rw [mkPte, Nat.or_assoc, pa2pte, ← Nat.shiftLeft_add_eq_or_of_lt hor, Nat.shiftLeft_eq,
    Nat.shiftRight_eq_div_pow]

theorem mkPte_lt (hpa : pa < 2 ^ 64) (h : perm < 1024) : mkPte pa perm < 2 ^ 64 := by
  have hor : perm ||| PTE_V < 2 ^ 10 := Nat.or_lt_two_pow h (by decide)
  rw [mkPte_eq h]
  omega

theorem pte2pa_mkPte (hpa : pa < 2 ^ 56) (hmod : pa % 4096 = 0) (h : perm < 1024) :
    pte2pa (mkPte pa perm) = pa := by
  have hor : perm ||| PTE_V < 2 ^ 10 := Nat.or_lt_two_pow h (by decide)
  rw [mkPte_eq h, pte2pa, Nat.shiftRight_eq_div_pow, Nat.shiftLeft_eq, u64]
  omega

theorem testBit_mkPte (hk : k < 10) : (mkPte pa perm).testBit k = (perm ||| PTE_V).testBit k := by
  rw [mkPte, Nat.or_assoc, Nat.testBit_or, pa2pte, Nat.testBit_shiftLeft]
  simp [Nat.not_le.mpr hk]

@[simp] theorem isV_mkPte : isV (mkPte pa perm) = true := by
  rw [isV, testBit_mkPte (by decide), Nat.testBit_or]
  simp [PTE_V]

/-- A flag other than `PTE_V` is the one that has been asked for. -/
theorem testBit_mkPte_of_pos (h0 : 0 < k) (hk : k < 10) :
    (mkPte pa perm).testBit k = perm.testBit k := by
  have hV : PTE_V.testBit k = false := by
    rw [PTE_V, Nat.shiftLeft_zero]
    exact Nat.testBit_lt_two_pow (Nat.one_lt_two_pow (by omega))
  rw [testBit_mkPte hk, Nat.testBit_or, hV, Bool.or_false]

@[simp] theorem isR_mkPte : isR (mkPte pa perm) = perm.testBit 1 :=
  testBit_mkPte_of_pos (by decide) (by decide)

@[simp] theorem isW_mkPte : isW (mkPte pa perm) = perm.testBit 2 :=
  testBit_mkPte_of_pos (by decide) (by decide)

@[simp] theorem isX_mkPte : isX (mkPte pa perm) = perm.testBit 3 :=
  testBit_mkPte_of_pos (by decide) (by decide)

@[simp] theorem isU_mkPte : isU (mkPte pa perm) = perm.testBit 4 :=
  testBit_mkPte_of_pos (by decide) (by decide)

end mkPte

section clearU

variable {pte : ℕ}

theorem testBit_clearU (hpte : pte < 2 ^ 64) (k : ℕ) :
    (clearU pte).testBit k = (pte.testBit k && decide (k ≠ 4)) := by
  have hmask : 2 ^ 64 - 1 - PTE_U = 2 ^ 64 - (PTE_U + 1) := by decide
  rw [clearU, Nat.testBit_and, hmask, Nat.testBit_two_pow_sub_succ (by decide)]
  by_cases hk : k < 64
  · have hU : PTE_U.testBit k = decide (k = 4) := by
      rw [PTE_U, Nat.one_shiftLeft, Nat.testBit_two_pow]
      simp [eq_comm]
    rw [hU]
    simp [hk]
  · have hbit : pte.testBit k = false :=
      Nat.testBit_lt_two_pow (hpte.trans_le (Nat.pow_le_pow_right (by decide) (by omega)))
    rw [hbit, Bool.false_and, Bool.false_and]

theorem testBit_clearU_of_ne {k : ℕ} (hpte : pte < 2 ^ 64) (hk : k ≠ 4) :
    (clearU pte).testBit k = pte.testBit k := by
  rw [testBit_clearU hpte, decide_eq_true hk, Bool.and_true]

theorem isU_clearU (hpte : pte < 2 ^ 64) : isU (clearU pte) = false := by
  rw [isU, testBit_clearU hpte]
  simp

theorem clearU_lt (hpte : pte < 2 ^ 64) : clearU pte < 2 ^ 64 :=
  lt_of_le_of_lt Nat.and_le_left hpte

theorem pte2pa_clearU (hpte : pte < 2 ^ 64) : pte2pa (clearU pte) = pte2pa pte := by
  have hshift : clearU pte >>> 10 = pte >>> 10 := by
    refine Nat.eq_of_testBit_eq fun k => ?_
    rw [Nat.testBit_shiftRight, Nat.testBit_shiftRight, testBit_clearU_of_ne hpte (by omega)]
  rw [pte2pa, hshift, pte2pa]

end clearU

end Vm
end Xv6
