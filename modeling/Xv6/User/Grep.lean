import Xv6.User.Regexp

/-!
# The loop of `grep`

`grep` of `user/grep.c` reads its input in chunks into a buffer of 1024 bytes.  It writes the lines that
match, moves what is left of the last line to the front of the buffer, and reads the next chunk behind it.

The buffer is the list of its `m` bytes; the NUL is behind them.  `read` returns at least one byte if it is
asked for one and there is one, and otherwise as many as it likes: `chunk k` is what it likes in the `k`-th
call.

A line of 1023 bytes or more fills the buffer before its newline comes.  `read` is then asked for no bytes,
and the loop ends as if the input had ended.
-/

namespace Xv6.Grep

/-! ## The code -/

abbrev newline : UInt8 := 10

/-- `read` of at most `want` bytes: what is read, and what is left. -/
def read (input : List UInt8) (want chunk : ℕ) : List UInt8 × List UInt8 :=
  let n := if want = 0 then 0 else max 1 (min chunk want)
  (input.take n, input.drop n)

/-- `strchr(s, c)`, as an offset. -/
def strchr : List UInt8 → UInt8 → Option ℕ
  | [], _ => none
  | s :: rest, c =>
    if s = 0 then none else if s = c then some 0 else (strchr rest c).map (· + 1)

/-- The loop over the lines in the buffer: what is written, and what is left. -/
def lineLoop (pattern : List UInt8) : ℕ → List UInt8 → Option (List UInt8 × List UInt8)
  | 0, _ => none
  | fuel + 1, p =>
    match strchr p newline with
    | none => some ([], p)
    | some q =>
      -- the newline is a NUL during the match
      let out := if matchRe pattern (p.take q) then p.take q ++ [newline] else []
      (lineLoop pattern fuel (p.drop (q + 1))).map fun r => (out ++ r.1, r.2)

/-- The loop of `grep`, from the `k`-th call of `read` on: what is written. -/
def grepLoop (pattern : List UInt8) (chunk : ℕ → ℕ) :
    ℕ → ℕ → List UInt8 → List UInt8 → Option (List UInt8)
  | 0, _, _, _ => none
  | fuel + 1, k, input, buf =>
    let (got, rest) := read input (1024 - buf.length - 1) (chunk k)
    if got = [] then some []
    else
      (lineLoop pattern ((buf ++ got).length + 1) (buf ++ got)).bind fun r =>
        (grepLoop pattern chunk fuel (k + 1) rest r.2).map fun out => r.1 ++ out

/-- `grep(pattern, fd)`, where `input` is what can be read from `fd`. -/
def grep (pattern : List UInt8) (chunk : ℕ → ℕ) (fuel : ℕ) (input : List UInt8) : Option (List UInt8) :=
  grepLoop pattern chunk fuel 0 input []

/-! ## Lines -/

/-- The lines `ls`, each with its newline. -/
def unlines (ls : List (List UInt8)) : List UInt8 := ls.flatMap fun l => l ++ [newline]

variable {pattern p r input : List UInt8} {ls ls' : List (List UInt8)}

@[simp] theorem unlines_nil : unlines [] = [] := rfl

theorem unlines_cons (l : List UInt8) : unlines (l :: ls) = l ++ newline :: unlines ls := by
  rw [unlines, List.flatMap_cons, List.append_assoc, List.singleton_append]
  rfl

theorem unlines_append : unlines (ls ++ ls') = unlines ls ++ unlines ls' := List.flatMap_append

theorem exists_unlines (p : List UInt8) :
    ∃ ls r, p = unlines ls ++ r ∧ (∀ l ∈ ls, newline ∉ l) ∧ newline ∉ r := by
  induction p with
  | nil => exact ⟨[], [], rfl, by simp, by simp⟩
  | cons c p ih =>
    obtain ⟨ls, r, rfl, hls, hr⟩ := ih
    by_cases hc : c = newline
    · exact ⟨[] :: ls, r, by rw [unlines_cons, hc]; rfl, by simpa using hls, hr⟩
    · cases ls with
      | nil => exact ⟨[], c :: r, rfl, by simp, by simpa [Ne.symm hc] using hr⟩
      | cons l ls =>
        refine ⟨(c :: l) :: ls, r, by rw [unlines_cons, unlines_cons]; rfl, fun l' hl' => ?_, hr⟩
        rcases List.mem_cons.mp hl' with rfl | hl'
        · have := hls l List.mem_cons_self
          simpa [Ne.symm hc] using this
        · exact hls l' (List.mem_cons_of_mem l hl')

theorem append_newline_inj {l l' x y : List UInt8} (hl : newline ∉ l) (hl' : newline ∉ l')
    (h : l ++ newline :: x = l' ++ newline :: y) : l = l' ∧ x = y := by
  induction l generalizing l' with
  | nil =>
    cases l' with
    | nil => exact ⟨rfl, (List.cons.inj h).2⟩
    | cons c l' => exact absurd (List.cons.inj h).1 fun heq => hl' (heq ▸ List.mem_cons_self)
  | cons c l ih =>
    cases l' with
    | nil => exact absurd (List.cons.inj h).1.symm fun heq => hl (heq ▸ List.mem_cons_self)
    | cons c' l' =>
      obtain ⟨rfl, htail⟩ := List.cons.inj h
      obtain ⟨rfl, hxy⟩ := ih (fun hin => hl (List.mem_cons_of_mem _ hin))
        (fun hin => hl' (List.mem_cons_of_mem _ hin)) htail
      exact ⟨rfl, hxy⟩

theorem unlines_append_eq (hls : ∀ l ∈ ls, newline ∉ l) (hls' : ∀ l ∈ ls', newline ∉ l)
    (h : unlines ls ++ r = unlines ls') : ∃ ls₂, ls' = ls ++ ls₂ ∧ r = unlines ls₂ := by
  induction ls generalizing ls' with
  | nil => exact ⟨ls', rfl, h⟩
  | cons l ls ih =>
    cases ls' with
    | nil =>
      rw [unlines_cons, List.append_assoc] at h
      exact absurd h (by simp)
    | cons l' ls' =>
      rw [unlines_cons, unlines_cons, List.append_assoc, List.cons_append] at h
      obtain ⟨rfl, htail⟩ :=
        append_newline_inj (hls l List.mem_cons_self) (hls' l' List.mem_cons_self) h
      obtain ⟨ls₂, rfl, hr⟩ := ih (fun x hx => hls x (List.mem_cons_of_mem _ hx))
        (fun x hx => hls' x (List.mem_cons_of_mem _ hx)) htail
      exact ⟨ls₂, rfl, hr⟩

/-! ## The loops -/

theorem strchr_eq_none (h : newline ∉ p) : strchr p newline = none := by
  induction p with
  | nil => rfl
  | cons c p ih =>
    rw [List.mem_cons, not_or] at h
    rw [strchr, if_neg (Ne.symm h.1), ih h.2]
    split <;> rfl

theorem strchr_append (hp : newline ∉ p) (hnul : 0 ∉ p) :
    strchr (p ++ newline :: r) newline = some p.length := by
  induction p with
  | nil => rfl
  | cons c p ih =>
    rw [List.mem_cons, not_or] at hp hnul
    rw [List.cons_append, strchr, if_neg (Ne.symm hnul.1), if_neg (Ne.symm hp.1), ih hp.2 hnul.2]
    rfl

/-- **The loop over the buffer** writes the lines that match, and leaves the last one. -/
theorem lineLoop_eq {fuel : ℕ} (hls : ∀ l ∈ ls, newline ∉ l) (hnul : ∀ l ∈ ls, 0 ∉ l)
    (hr : newline ∉ r) (hfuel : ls.length < fuel) :
    lineLoop pattern fuel (unlines ls ++ r) = some (unlines (ls.filter (matchRe pattern)), r) := by
  induction ls generalizing fuel with
  | nil =>
    obtain ⟨fuel, rfl⟩ := Nat.exists_eq_add_of_lt hfuel
    rw [unlines_nil, List.nil_append, lineLoop, strchr_eq_none hr]
    rfl
  | cons l ls ih =>
    obtain ⟨fuel, rfl⟩ : ∃ n, fuel = n + 1 := ⟨fuel - 1, by omega⟩
    have htake : (l ++ newline :: (unlines ls ++ r)).take l.length = l := List.take_left
    have hdrop : (l ++ newline :: (unlines ls ++ r)).drop (l.length + 1) = unlines ls ++ r := by
      rw [← List.drop_drop, List.drop_left]
      rfl
    rw [unlines_cons, List.append_assoc, List.cons_append, lineLoop,
      strchr_append (hls l List.mem_cons_self) (hnul l List.mem_cons_self)]
    simp only [htake, hdrop]
    rw [ih (fun x hx => hls x (List.mem_cons_of_mem l hx)) (fun x hx => hnul x (List.mem_cons_of_mem l hx))
      (by rw [List.length_cons] at hfuel; omega), Option.map_some, List.filter_cons]
    split
    · rw [unlines_cons, List.append_assoc, List.singleton_append]
    · rw [List.nil_append]

theorem length_le_unlines : ls.length ≤ (unlines ls).length := by
  induction ls with
  | nil => exact Nat.le_refl 0
  | cons l ls ih =>
    rw [unlines_cons, List.length_append, List.length_cons, List.length_cons]
    omega

theorem nul_notMem_of_unlines (h : 0 ∉ unlines ls) : ∀ l ∈ ls, 0 ∉ l := by
  intro l hl h0
  exact h (List.mem_flatMap.mpr ⟨l, hl, List.mem_append_left _ h0⟩)

/-- **The loop of `grep`**, when the buffer holds the beginning of the next line. -/
theorem grepLoop_eq {chunk : ℕ → ℕ} {fuel k : ℕ} {buf : List UInt8} (hfuel : input.length < fuel)
    (heq : buf ++ input = unlines ls) (hls : ∀ l ∈ ls, newline ∉ l) (hlen : ∀ l ∈ ls, l.length < 1023)
    (hnul : 0 ∉ unlines ls) (hbuf : newline ∉ buf) :
    grepLoop pattern chunk fuel k input buf = some (unlines (ls.filter (matchRe pattern))) := by
  induction fuel generalizing k input buf ls with
  | zero => exact absurd hfuel (Nat.not_lt_zero _)
  | succ fuel ih =>
    rw [grepLoop, read]
    cases ls with
    | nil =>
      obtain ⟨rfl, rfl⟩ := List.append_eq_nil_iff.mp heq
      simp only [List.take_nil, if_true]
      rfl
    | cons l ls =>
      obtain ⟨hle, hpos⟩ : buf.length ≤ l.length ∧ input ≠ [] := by
        rw [unlines_cons] at heq
        rcases List.append_eq_append_iff.mp heq with ⟨x, rfl, hx⟩ | ⟨x, rfl, hx⟩
        · refine ⟨by rw [List.length_append]; omega, ?_⟩
          rw [hx]
          simp
        · -- a buffer that goes on behind the line would hold the newline
          cases x with
          | nil => exact ⟨by simp, by rw [← List.nil_append input, ← hx]; simp⟩
          | cons c x =>
            obtain rfl := (List.cons.inj hx).1
            exact absurd (List.mem_append_right l List.mem_cons_self) hbuf
      have hl := hlen l List.mem_cons_self
      have hwant : 1024 - buf.length - 1 ≠ 0 := by omega
      simp only [if_neg hwant]
      generalize hn : max 1 (min (chunk k) (1024 - buf.length - 1)) = n
      have hn' : 1 ≤ n := by omega
      have hgot : input.take n ≠ [] := by
        rw [Ne, List.take_eq_nil_iff]
        rintro (h0 | h0)
        · omega
        · exact hpos h0
      rw [if_neg hgot]
      -- the lines in the buffer, and what is left
      obtain ⟨ls₁, r, hsplit, hls₁, hr⟩ := exists_unlines (buf ++ input.take n)
      have hall : unlines ls₁ ++ (r ++ input.drop n) = unlines (l :: ls) := by
        rw [← List.append_assoc, ← hsplit, List.append_assoc, List.take_append_drop, heq]
      obtain ⟨ls₂, hls₂, hrest⟩ := unlines_append_eq hls₁ hls hall
      rw [hls₂] at hls hlen hnul ⊢
      rw [unlines_append] at hnul
      have hnul₁ : 0 ∉ unlines ls₁ := fun h0 => hnul (List.mem_append_left _ h0)
      have hnul₂ : 0 ∉ unlines ls₂ := fun h0 => hnul (List.mem_append_right _ h0)
      have hcount : ls₁.length < (buf ++ input.take n).length + 1 := by
        rw [hsplit, List.length_append]
        have : ls₁.length ≤ (unlines ls₁).length := length_le_unlines
        omega
      have hdrop : (input.drop n).length < fuel := by
        have := List.length_pos_iff.mpr hpos
        rw [List.length_drop]
        omega
      rw [hsplit] at hcount ⊢
      rw [lineLoop_eq hls₁ (nul_notMem_of_unlines hnul₁) hr hcount, Option.bind_some,
        ih hdrop hrest (fun x hx => hls x (List.mem_append_right _ hx))
          (fun x hx => hlen x (List.mem_append_right _ hx)) hnul₂ hr,
        Option.map_some, List.filter_append, unlines_append]

end Xv6.Grep
