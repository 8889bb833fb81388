import Mathlib

/-!
# The two `printint`s

`printint` of the kernel (`kernel/printf.c`) and of the user library (`user/printf.c`) convert a number into
characters, from the last digit to the first, in a buffer of 20 bytes on the stack, and then write the buffer
out backwards.  Nothing checks that the buffer is long enough.  Here a store or a load beyond it is a fault, as
is a digit beyond the table of digits, and a loop that has not ended when all 64 bits must have been divided
away; the theorem is that none of the three happens.  What the buffer holds before is arbitrary.

It just fits: `2 ^ 64 - 1` has 20 decimal digits, and `-2 ^ 63` has 19 and a sign.
-/

namespace Xv6.Libc

/-! ## The model -/

inductive Fault where
  | digit (i : ℕ)
  | store (i : ℕ)
  | load (i : ℕ)
  | spin
  deriving DecidableEq

/-- `char buf[20]` -/
abbrev Buf := Vector Char 20

def Buf.store (buf : Buf) (i : ℕ) (c : Char) : Except Fault Buf :=
  if h : i < 20 then .ok (buf.set i c h) else .error (.store i)

def Buf.load (buf : Buf) (i : ℕ) : Except Fault Char :=
  match buf[i]? with
  | some c => .ok c
  | none => .error (.load i)

def Kernel.digits : List Char := "0123456789abcdef".toList

def User.digits : List Char := "0123456789ABCDEF".toList

def digit (digits : List Char) (i : ℕ) : Except Fault Char :=
  match digits[i]? with
  | some c => .ok c
  | none => .error (.digit i)

/-- `do { buf[i++] = digits[x % base]; } while((x /= base) != 0);` -/
def convert (digits : List Char) (base : BitVec 64) : ℕ → Buf → ℕ → BitVec 64 → Except Fault (Buf × ℕ)
  | 0, _, _, _ => .error .spin
  | rounds + 1, buf, i, x => do
    let c ← digit digits (x % base).toNat
    let buf ← buf.store i c
    if x / base = 0 then return (buf, i + 1)
    else convert digits base rounds buf (i + 1) (x / base)

/-- `if(sign) buf[i++] = '-';` -/
def putSign (buf : Buf) (i : ℕ) : Bool → Except Fault (Buf × ℕ)
  | true => do return (← buf.store i '-', i + 1)
  | false => return (buf, i)

/-- `while(--i >= 0) putc(buf[i]);` -/
def emit (buf : Buf) : ℕ → Except Fault (List Char)
  | 0 => return []
  | i + 1 => do
    let c ← buf.load i
    return c :: (← emit buf i)

/-- Convert `x`, put the sign and write the buffer out.  A word of 64 bits is divided at most 64 times. -/
def putNumber (digits : List Char) (buf : Buf) (x : BitVec 64) (base : BitVec 32) (sign : Bool) :
    Except Fault (List Char) := do
  let (buf, i) ← convert digits (base.signExtend 64) 64 buf 0 x
  let (buf, i) ← putSign buf i sign
  emit buf i

/-- `printint` of the kernel.  The argument `sign` is overwritten by whether the number is negative. -/
def Kernel.printint (buf : Buf) (xx : BitVec 64) (base : BitVec 32) (sign : Bool) : Except Fault (List Char) :=
  let sign := sign && xx.slt 0
  putNumber Kernel.digits buf (if sign then -xx else xx) base sign

/-- `printint` of the user library, to some file descriptor. -/
def User.printint (buf : Buf) (xx : BitVec 64) (base : BitVec 32) (sgn : Bool) : Except Fault (List Char) :=
  if sgn && xx.slt 0 then putNumber User.digits buf (-xx) base true
  else putNumber User.digits buf xx base false

/-! ## Digits -/

/-- The digits of `x`, the last one first; of `0` it is one. -/
def lowDigits (b x : ℕ) : List ℕ := if x = 0 then [0] else Nat.digits b x

section Digits

variable {b x : ℕ}

theorem lowDigits_of_lt (hb : 1 < b) (h : x / b = 0) : lowDigits b x = [x % b] := by
  have hlt : x < b := (Nat.div_eq_zero_iff.mp h).resolve_left (by omega)
  rw [lowDigits, Nat.mod_eq_of_lt hlt]
  split
  · rename_i hzero
    rw [hzero]
  · rename_i hzero
    exact Nat.digits_of_lt b x hzero hlt

theorem lowDigits_of_le (hb : 1 < b) (h : x / b ≠ 0) : lowDigits b x = x % b :: lowDigits b (x / b) := by
  have hx : x ≠ 0 := by
    rintro rfl
    exact h (Nat.zero_div b)
  rw [lowDigits, lowDigits, if_neg hx, if_neg h, Nat.digits_def' hb (by omega)]

theorem length_lowDigits_le {k : ℕ} (hb : 1 < b) (hk : 0 < k) (h : x < b ^ k) : (lowDigits b x).length ≤ k := by
  rw [lowDigits]
  split
  · exact hk
  · exact (Nat.digits_length_le_iff hb x).mpr h

theorem lt_of_mem_lowDigits {d : ℕ} (hb : 1 < b) (h : d ∈ lowDigits b x) : d < b := by
  rw [lowDigits] at h
  split at h
  · rw [List.mem_singleton] at h
    omega
  · exact Nat.digits_lt_base hb h

theorem ofDigits_lowDigits (b x : ℕ) : Nat.ofDigits b (lowDigits b x) = x := by
  rw [lowDigits]
  split
  · rename_i hzero
    rw [hzero, Nat.ofDigits_singleton]
  · exact Nat.ofDigits_digits b x

theorem lowDigits_ne_nil (b x : ℕ) : lowDigits b x ≠ [] := by
  rw [lowDigits]
  split
  · exact List.cons_ne_nil 0 []
  · rename_i hzero
    exact Nat.digits_ne_nil_iff_ne_zero.mpr hzero

theorem head_lowDigits_reverse (b : ℕ) {x : ℕ} (hhead : (lowDigits b x).reverse.head? = some 0) :
    (lowDigits b x).reverse = [0] := by
  rw [List.head?_reverse] at hhead
  by_cases hx : x = 0
  · rw [hx]
    rfl
  · rw [lowDigits, if_neg hx] at hhead
    have hne : Nat.digits b x ≠ [] := Nat.digits_ne_nil_iff_ne_zero.mpr hx
    rw [List.getLast?_eq_some_getLast hne, Option.some_inj] at hhead
    exact absurd hhead (Nat.getLast_digit_ne_zero b hx)

end Digits

/-! ## The buffer -/

section Buffer

variable {buf : Buf} {cs : List Char}

theorem Buf.exists_store (h : cs <+: buf.toList) (hlen : cs.length < 20) (c : Char) :
    ∃ buf' : Buf, buf.store cs.length c = .ok buf' ∧ cs ++ [c] <+: buf'.toList := by
  refine ⟨buf.set cs.length c hlen, dif_pos hlen, ?_⟩
  obtain ⟨rest, hrest⟩ := h
  rw [Vector.toList_set, ← hrest]
  cases rest with
  | nil =>
    have hsize : buf.toList.length = 20 := Vector.length_toList
    rw [← hrest, List.append_nil] at hsize
    omega
  | cons e rest =>
    rw [List.set_append_right _ _ (Nat.le_refl _), Nat.sub_self]
    exact ⟨rest, by simp⟩

theorem emit_eq (h : cs <+: buf.toList) : emit buf cs.length = .ok cs.reverse := by
  induction cs using List.reverseRecOn with
  | nil => rfl
  | append_singleton cs c ih =>
    have hload : buf.load cs.length = .ok c := by
      obtain ⟨rest, hrest⟩ := h
      have hget : buf[cs.length]? = some c := by
        rw [← Vector.getElem?_toList, ← hrest]
        simp
      rw [Buf.load, hget]
    rw [List.length_append, List.length_singleton, emit, hload, List.reverse_append, List.reverse_singleton,
      ih ((List.prefix_append cs [c]).trans h)]
    rfl

/-- **The conversion loop.**  If the digits of `x` fit, they are stored behind what the buffer holds. -/
theorem exists_convert {digits : List Char} {base : BitVec 64} (hb : 1 < base.toNat)
    (hdigits : base.toNat ≤ digits.length) (rounds : ℕ) :
    ∀ (buf : Buf) (cs : List Char) (x : BitVec 64), cs <+: buf.toList →
      (lowDigits base.toNat x.toNat).length ≤ rounds →
      cs.length + (lowDigits base.toNat x.toNat).length ≤ 20 →
      ∃ buf' : Buf, convert digits base rounds buf cs.length x =
          .ok (buf', (cs ++ (lowDigits base.toNat x.toNat).map (digits.getD · '0')).length) ∧
        cs ++ (lowDigits base.toNat x.toNat).map (digits.getD · '0') <+: buf'.toList := by
  induction rounds with
  | zero =>
    intro buf cs x _ hrounds _
    exact absurd (List.length_eq_zero_iff.mp (Nat.le_zero.mp hrounds)) (lowDigits_ne_nil _ _)
  | succ rounds ih =>
    intro buf cs x h hrounds hroom
    have hlen : cs.length < 20 := by
      have := List.length_pos_iff.mpr (lowDigits_ne_nil base.toNat x.toNat)
      omega
    have hdigit : digit digits (x % base).toNat = .ok (digits.getD (x.toNat % base.toNat) '0') := by
      have hlt : x.toNat % base.toNat < digits.length := (Nat.mod_lt _ (by omega)).trans_le hdigits
      rw [digit, BitVec.toNat_umod, List.getD_eq_getElem?_getD, List.getElem?_eq_getElem hlt]
      rfl
    obtain ⟨buf₁, hstore, h₁⟩ := Buf.exists_store h hlen (digits.getD (x.toNat % base.toNat) '0')
    have hstep : convert digits base (rounds + 1) buf cs.length x =
        if x / base = 0 then .ok (buf₁, cs.length + 1)
        else convert digits base rounds buf₁ (cs.length + 1) (x / base) := by
      rw [convert, hdigit]
      show (buf.store cs.length _ >>= _) = _
      rw [hstore]
      rfl
    have hdiv : x / base = 0 ↔ x.toNat / base.toNat = 0 := by
      rw [← BitVec.toNat_inj, BitVec.toNat_udiv]
      rfl
    rw [hstep]
    split
    · -- the last round
      rename_i hlast
      rw [lowDigits_of_lt hb (hdiv.mp hlast)]
      exact ⟨buf₁, by simp, h₁⟩
    · rename_i hmore
      have hcons := lowDigits_of_le hb (mt hdiv.mpr hmore)
      rw [hcons, List.length_cons] at hrounds hroom
      rw [hcons, List.map_cons, List.append_cons]
      have hnext := ih buf₁ _ (x / base) h₁ (by rw [BitVec.toNat_udiv]; omega)
        (by rw [BitVec.toNat_udiv, List.length_append, List.length_singleton]; omega)
      rw [List.length_append, List.length_singleton, BitVec.toNat_udiv] at hnext
      exact hnext

end Buffer

/-! ## Numerals -/

/-- The canonical numeral of a number: a sign if it is negative, digits below the base, no zero in front of
other digits, and the value. -/
def IsNumeral (digits : List Char) (b : ℕ) (z : ℤ) (cs : List Char) : Prop :=
  ∃ ds : List ℕ, cs = (if z < 0 then ['-'] else []) ++ ds.map (digits.getD · '0') ∧
    ds ≠ [] ∧ (∀ d ∈ ds, d < b) ∧ (ds.head? = some 0 → ds = [0]) ∧
      ds.foldl (fun v d => b * v + d) 0 = z.natAbs

/-- The number the argument stands for. -/
def argument (xx : BitVec 64) (sign : Bool) : ℤ := if sign then xx.toInt else xx.toNat

/-- What is written for `x` with or without a sign. -/
def numeral (digits : List Char) (b x : ℕ) (sign : Bool) : List Char :=
  (if sign then ['-'] else []) ++ (lowDigits b x).reverse.map (digits.getD · '0')

theorem isNumeral_numeral (digits : List Char) {b x : ℕ} (hb : 1 < b) {z : ℤ} (hx : x = z.natAbs) :
    IsNumeral digits b z (numeral digits b x (decide (z < 0))) := by
  refine ⟨(lowDigits b x).reverse, by simp [numeral], by simpa using lowDigits_ne_nil b x, ?_,
    head_lowDigits_reverse b, ?_⟩
  · intro d hd
    exact lt_of_mem_lowDigits hb (List.mem_reverse.mp hd)
  · rw [List.foldl_reverse, ← hx]
    calc (lowDigits b x).foldr (fun d v => b * v + d) 0
        = Nat.ofDigits b (lowDigits b x) := by
          rw [Nat.ofDigits_eq_foldr]
          simp [Nat.add_comm]
      _ = x := ofDigits_lowDigits b x

theorem putNumber_eq {digits : List Char} (buf : Buf) {x : BitVec 64} {base : BitVec 32} {b : ℕ} {sign : Bool}
    (hbase : (base.signExtend 64).toNat = b) (hb : 1 < b) (hdigits : b ≤ digits.length)
    (hfit : (lowDigits b x.toNat).length + sign.toNat ≤ 20) :
    putNumber digits buf x base sign = .ok (numeral digits b x.toNat sign) := by
  subst hbase
  obtain ⟨buf₁, hconvert, h₁⟩ := exists_convert hb hdigits 64 buf [] x List.nil_prefix (by omega)
    (by rw [List.length_nil]; omega)
  rw [List.nil_append] at hconvert h₁
  rw [putNumber, ← List.length_nil (α := Char), hconvert]
  cases sign with
  | false =>
    refine (emit_eq h₁).trans ?_
    simp [numeral]
  | true =>
    rw [Bool.toNat_true] at hfit
    obtain ⟨buf₂, hstore, h₂⟩ := Buf.exists_store h₁ (by rw [List.length_map]; omega) '-'
    have hemit := emit_eq h₂
    rw [List.length_append, List.length_singleton] at hemit
    show (putSign buf₁ _ true >>= _) = _
    rw [putSign, hstore]
    refine hemit.trans ?_
    simp [numeral]

theorem map_toUpper_numeral {b x : ℕ} (hb : 1 < b) (hle : b ≤ 16) (sign : Bool) :
    (numeral Kernel.digits b x sign).map Char.toUpper = numeral User.digits b x sign := by
  have htable : ∀ d < 16, (Kernel.digits.getD d '0').toUpper = User.digits.getD d '0' := by decide
  have hsign : (if sign then ['-'] else []).map Char.toUpper = if sign then ['-'] else [] := by
    cases sign <;> rfl
  rw [numeral, numeral, List.map_append, hsign, List.map_map]
  congr 1
  refine List.map_congr_left fun d hd => ?_
  exact htable d ((lt_of_mem_lowDigits hb (List.mem_reverse.mp hd)).trans_le hle)

/-- Both versions find the sign, -/
theorem sign_argument (xx : BitVec 64) (sign : Bool) :
    (sign && xx.slt 0) = decide (argument xx sign < 0) := by
  cases sign with
  | false => simp [argument]
  | true => simp [argument, BitVec.slt]

/-- and the absolute value, of `-2 ^ 63` too, whose negation wraps around to itself. -/
theorem toNat_neg_of_argument_neg {xx : BitVec 64} {sign : Bool} (h : argument xx sign < 0) :
    (-xx).toNat = (argument xx sign).natAbs := by
  rw [argument, BitVec.toInt_eq_toNat_cond] at h ⊢
  split at h
  · split at h
    · omega
    · rw [if_pos ‹_›, if_neg ‹_›, BitVec.toNat_neg]
      omega
  · omega

theorem toNat_of_argument_nonneg {xx : BitVec 64} {sign : Bool} (h : ¬ argument xx sign < 0) :
    xx.toNat = (argument xx sign).natAbs := by
  rw [argument, BitVec.toInt_eq_toNat_cond] at h ⊢
  split at h
  · split at h
    · rw [if_pos ‹_›, if_pos ‹_›]
      omega
    · omega
  · rw [if_neg ‹_›]
    omega

theorem natAbs_argument_lt (xx : BitVec 64) (sign : Bool) :
    (argument xx sign).natAbs < 2 ^ 64 ∧ (argument xx sign < 0 → (argument xx sign).natAbs ≤ 2 ^ 63) := by
  have hlt := xx.isLt
  rw [argument, BitVec.toInt_eq_toNat_cond]
  split <;> try split
  all_goals omega

theorem length_lowDigits_argument {x : BitVec 64} {base : BitVec 32} {sign : Bool}
    (h : base = 10 ∨ base = 16 ∧ sign = false) :
    (lowDigits base.toNat (argument x sign).natAbs).length + (decide (argument x sign < 0)).toNat ≤ 20 := by
  obtain ⟨hlt, hneg⟩ := natAbs_argument_lt x sign
  obtain rfl | ⟨rfl, rfl⟩ := h
  · by_cases hz : argument x sign < 0
    · have := length_lowDigits_le (b := 10) (k := 19) (by decide) (by decide) ((hneg hz).trans_lt (by decide))
      simp only [hz, decide_true, Bool.toNat_true]
      exact Nat.succ_le_succ this
    · have := length_lowDigits_le (b := 10) (k := 20) (by decide) (by decide) (hlt.trans (by decide))
      simpa [hz] using this
  · have := length_lowDigits_le (b := 16) (k := 16) (by decide) (by decide) hlt
    have hz : ¬ argument x false < 0 := by simp [argument]
    simp only [hz, decide_false, Bool.toNat_false, Nat.add_zero]
    exact this.trans (by decide)

theorem base_le {base : BitVec 32} {sign : Bool} (h : base = 10 ∨ base = 16 ∧ sign = false) :
    (base.signExtend 64).toNat = base.toNat ∧ 1 < base.toNat ∧ base.toNat ≤ 16 := by
  obtain rfl | ⟨rfl, -⟩ := h <;> decide

theorem putNumber_argument (digits : List Char) (hdigits : digits.length = 16) (buf : Buf) (xx : BitVec 64)
    {base : BitVec 32} {sign : Bool} (h : base = 10 ∨ base = 16 ∧ sign = false) :
    putNumber digits buf (if argument xx sign < 0 then -xx else xx) base (decide (argument xx sign < 0)) =
      .ok (numeral digits base.toNat (argument xx sign).natAbs (decide (argument xx sign < 0))) := by
  obtain ⟨hext, hb, hle⟩ := base_le h
  have hmag : (if argument xx sign < 0 then -xx else xx).toNat = (argument xx sign).natAbs := by
    split
    · exact toNat_neg_of_argument_neg ‹_›
    · exact toNat_of_argument_nonneg ‹_›
  have hfit := length_lowDigits_argument (x := xx) h
  rw [← hmag] at hfit ⊢
  exact putNumber_eq buf hext hb (hdigits ▸ hle) hfit

/-- **`printint` prints every number.**  For every 64-bit argument, in base 10, signed or not, or unsigned in
base 16, and whatever the buffers hold at first, both versions return without a store beyond the buffer, the
kernel's has written the canonical numeral of the argument, and the library's has written the same with
letters in upper case. -/
theorem printint_prints (buf buf' : Buf) (xx : BitVec 64) (base : BitVec 32) (sign : Bool)
    (h : base = 10 ∨ base = 16 ∧ sign = false) :
    ∃ cs, Kernel.printint buf xx base sign = .ok cs ∧
      IsNumeral Kernel.digits base.toNat (argument xx sign) cs ∧
      User.printint buf' xx base sign = .ok (cs.map Char.toUpper) ∧
      IsNumeral User.digits base.toNat (argument xx sign) (cs.map Char.toUpper) := by
  obtain ⟨-, hb, hle⟩ := base_le h
  have hkernel := putNumber_argument Kernel.digits rfl buf xx h
  have huser := putNumber_argument User.digits rfl buf' xx h
  refine ⟨_, ?_, isNumeral_numeral Kernel.digits hb rfl, ?_⟩
  · rw [Kernel.printint, sign_argument]
    simpa using hkernel
  · rw [map_toUpper_numeral hb hle]
    refine ⟨?_, isNumeral_numeral User.digits hb rfl⟩
    rw [User.printint, sign_argument, ← huser]
    by_cases hz : argument xx sign < 0 <;> simp [hz]

/-- The most negative number takes all 20 bytes. -/
theorem printint_prints_min :
    ∃ cs, Kernel.printint (.replicate 20 ' ') (BitVec.intMin 64) 10 true = .ok cs ∧
      cs = "-9223372036854775808".toList := by
  obtain ⟨cs, hcs, -⟩ := printint_prints (.replicate 20 ' ') (.replicate 20 ' ') (BitVec.intMin 64) 10 true
    (.inl rfl)
  have heval : Kernel.printint (.replicate 20 ' ') (BitVec.intMin 64) 10 true =
      .ok "-9223372036854775808".toList := by decide +kernel
  exact ⟨cs, hcs, Except.ok.inj (hcs.symm.trans heval)⟩

end Xv6.Libc
