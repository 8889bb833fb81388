import Mathlib

/-!
# Address-ordered free lists

Blocks of memory with a header each, which has a pointer to the next block and the size of the block in
units of `u` addresses.  A list of blocks is `Linked` if the pointers lead from each block to the next,
and `Apart` if every block ends before the next begins, with a gap.

The two ways in which a list of blocks changes are that a block is put in front of a list and swallows its
first block if it touches it (`Apart.join`), and that a block is taken out.  What the blocks cover
(`Covers`) and how many units they have (`units`) is said for both, so that users never look at addresses.

`seek` follows pointers until a test succeeds; it walks through lists (`Linked.seek`).
-/

namespace FreeList

/-- The header of a block. -/
structure Cell where
  ptr : ℕ
  size : ℕ

/-! ## Pointers -/

/-- The pointers lead through the list and then to `z`. -/
def Linked (h : ℕ → Cell) : List ℕ → ℕ → Prop
  | [], _ => True
  | a :: l, z => (h a).ptr = l.headD z ∧ Linked h l z

variable {h h' : ℕ → Cell} {l l₁ l₂ : List ℕ} {a b z : ℕ}

theorem linked_append : Linked h (l₁ ++ l₂) z ↔ Linked h l₁ (l₂.headD z) ∧ Linked h l₂ z := by
  induction l₁ with
  | nil => simp [Linked]
  | cons a l₁ ih =>
    have hhead : (l₁ ++ l₂).headD z = l₁.headD (l₂.headD z) := by
      cases l₁ <;> rfl
    rw [List.cons_append, Linked, Linked, ih, hhead, and_assoc]

theorem Linked.congr (hl : Linked h l z) (heq : ∀ a ∈ l, (h' a).ptr = (h a).ptr) :
    Linked h' l z := by
  induction l with
  | nil => trivial
  | cons a l ih =>
    exact ⟨(heq a List.mem_cons_self).trans hl.1,
      ih hl.2 fun b hb => heq b (List.mem_cons_of_mem a hb)⟩

theorem Linked.rotate (hl : Linked h (l₁ ++ a :: l₂) b) (hb : (l₁ ++ a :: l₂).headD b = b) :
    Linked h (a :: l₂ ++ l₁) a := by
  obtain ⟨h₁, h₂⟩ := linked_append.mp hl
  refine linked_append.mpr ⟨?_, h₁⟩
  have hhead : l₁.headD a = b := by
    cases l₁ with
    | nil => exact hb
    | cons x l₁ => exact hb
  rw [hhead]
  exact h₂

/-- Follow the pointers until the test succeeds. -/
def seek (h : ℕ → Cell) (P : ℕ → Bool) : ℕ → ℕ → Option ℕ
  | 0, _ => none
  | n + 1, p => if P p then some p else seek h P n (h p).ptr

theorem seek_mono {P : ℕ → Bool} {n m p q : ℕ} (hs : seek h P n p = some q) (hle : n ≤ m) :
    seek h P m p = some q := by
  induction n generalizing m p with
  | zero => exact nomatch hs
  | succ n ih =>
    obtain ⟨m, rfl⟩ := Nat.exists_eq_add_of_le' (Nat.lt_of_lt_of_le n.succ_pos hle)
    rw [seek] at hs ⊢
    split_ifs at hs ⊢ with hP
    · exact hs
    · exact ih hs (Nat.le_of_succ_le_succ hle)

theorem Linked.seek {P : ℕ → Bool} (hl : Linked h l z) (hP : ∀ a ∈ l, P a = false) (n : ℕ) :
    seek h P (l.length + n) (l.headD z) = seek h P n z := by
  induction l with
  | nil => rw [List.length_nil, Nat.zero_add, List.headD_nil]
  | cons a l ih =>
    rw [List.length_cons, Nat.add_right_comm, List.headD_cons, FreeList.seek,
      if_neg (by rw [hP a List.mem_cons_self]; decide), hl.1]
    exact ih hl.2 fun b hb => hP b (List.mem_cons_of_mem a hb)

/-! ## Blocks -/

section

variable (u : ℕ)

/-- Where a block ends. -/
def stop (h : ℕ → Cell) (a : ℕ) : ℕ := a + u * (h a).size

/-- Every block ends before the next begins, and does not touch it. -/
def Apart (h : ℕ → Cell) (l : List ℕ) : Prop := l.Pairwise fun a b => stop u h a < b

/-- An address in one of the blocks. -/
def Covers (h : ℕ → Cell) (l : List ℕ) (x : ℕ) : Prop := ∃ a ∈ l, a ≤ x ∧ x < stop u h a

end

/-- The units of all blocks. -/
def units (h : ℕ → Cell) (l : List ℕ) : ℕ := (l.map fun a => (h a).size).sum

variable {u x : ℕ}

theorem Apart.lt (hl : Apart u h (a :: l)) (hb : b ∈ l) : stop u h a < b :=
  List.rel_of_pairwise_cons hl hb

theorem le_stop (u : ℕ) (h : ℕ → Cell) (a : ℕ) : a ≤ stop u h a := Nat.le_add_right ..

theorem lt_stop (hu : 0 < u) (ha : 0 < (h a).size) : a < stop u h a :=
  Nat.lt_add_of_pos_right (Nat.mul_pos hu ha)

theorem Apart.congr (hl : Apart u h l) (heq : ∀ a ∈ l, (h' a).size = (h a).size) :
    Apart u h' l := by
  refine hl.imp_of_mem fun {a b} ha _ hab => ?_
  rw [stop, heq a ha]
  exact hab

theorem Apart.nodup (hl : Apart u h l) : l.Nodup :=
  List.Pairwise.imp (fun {a _} hab => Nat.ne_of_lt (Nat.lt_of_le_of_lt (le_stop u h a) hab)) hl

theorem covers_congr (heq : ∀ a ∈ l, (h' a).size = (h a).size) :
    Covers u h' l x ↔ Covers u h l x := by
  refine exists_congr fun a => and_congr_right fun ha => ?_
  rw [stop, stop, heq a ha]

theorem units_congr (heq : ∀ a ∈ l, (h' a).size = (h a).size) : units h' l = units h l := by
  rw [units, units]
  exact congrArg List.sum (List.map_congr_left heq)

theorem covers_append : Covers u h (l₁ ++ l₂) x ↔ Covers u h l₁ x ∨ Covers u h l₂ x := by
  simp only [Covers, List.mem_append, or_and_right, exists_or]

theorem covers_cons : Covers u h (a :: l) x ↔ (a ≤ x ∧ x < stop u h a) ∨ Covers u h l x := by
  simp [Covers]

theorem units_append : units h (l₁ ++ l₂) = units h l₁ + units h l₂ := by
  simp [units]

theorem units_cons : units h (a :: l) = (h a).size + units h l := by
  simp [units]

/-! ## Joining a block to a list -/

/-- The header of `a` after it was linked to the block `b`, which it swallows if they touch. -/
def join (u : ℕ) (h : ℕ → Cell) (a b : ℕ) : Cell :=
  if stop u h a = b then ⟨(h b).ptr, (h a).size + (h b).size⟩ else ⟨b, (h a).size⟩

/-- The list behind `a` after it was linked to the first block of `l`. -/
def rest (u : ℕ) (h : ℕ → Cell) (a : ℕ) : List ℕ → List ℕ
  | [] => []
  | b :: l => if stop u h a = b then l else b :: l

/-- What holds after a block was put in front of a list. -/
structure Joined (u : ℕ) (h : ℕ → Cell) (a : ℕ) (l : List ℕ) (z : ℕ) (h' : ℕ → Cell) (l' : List ℕ) :
    Prop where
  linked : Linked h' (a :: l') z
  apart : Apart u h' (a :: l')
  sublist : l'.Sublist l
  covers : ∀ x, Covers u h' (a :: l') x ↔ (a ≤ x ∧ x < stop u h a) ∨ Covers u h l x
  units : units h' (a :: l') = (h a).size + units h l
  le_stop : stop u h a ≤ stop u h' a

/-- A block in front of a list, linked to it, swallows the first block if they touch. -/
theorem Linked.join (hlink : Linked h l z) (hapart : Apart u h l) (hz : l = [] → stop u h a ≠ z)
    (hbefore : ∀ b ∈ l, stop u h a ≤ b) (ha : a ∉ l) :
    Joined u h a l z (Function.update h a (join u h a (l.headD z))) (rest u h a l) := by
  have hsame : ∀ (c : Cell), ∀ b ∈ l, Function.update h a c b = h b := by
    intro c b hb
    have hne : b ≠ a := fun heq => ha (heq ▸ hb)
    exact Function.update_of_ne hne ..
  have hself : ∀ c : Cell, stop u (Function.update h a c) a = a + u * c.size := by
    intro c
    rw [stop, Function.update_self]
  cases l with
  | nil =>
    have hjoin : FreeList.join u h a z = ⟨z, (h a).size⟩ := if_neg (hz rfl)
    rw [List.headD_nil, hjoin]
    refine ⟨⟨?_, trivial⟩, List.pairwise_singleton .., List.Sublist.refl _, fun x => ?_, ?_, ?_⟩
    · rw [Function.update_self]
      rfl
    · rw [rest, covers_cons, hself]
      simp [Covers, stop]
    · simp [rest, FreeList.units]
    · rw [hself]
      exact Nat.le_refl _
  | cons b l =>
    have hlt : ∀ c ∈ l, stop u h b < c := fun c hc => hapart.lt hc
    have hsame' : ∀ (c : Cell), ∀ d ∈ l, Function.update h a c d = h d :=
      fun c d hd => hsame c d (List.mem_cons_of_mem b hd)
    rw [List.headD_cons]
    by_cases htouch : stop u h a = b
    · -- the first block is swallowed
      have hjoin : FreeList.join u h a b = ⟨(h b).ptr, (h a).size + (h b).size⟩ := if_pos htouch
      have hrest : rest u h a (b :: l) = l := if_pos htouch
      have hstop : a + u * ((h a).size + (h b).size) = stop u h b := by
        rw [stop] at htouch ⊢
        rw [Nat.mul_add, ← Nat.add_assoc, htouch]
      rw [hjoin, hrest]
      refine ⟨⟨?_, ?_⟩, ?_, List.sublist_cons_self b l, fun x => ?_, ?_, ?_⟩
      · rw [Function.update_self]
        exact hlink.1
      · exact hlink.2.congr fun c hc => by rw [hsame' _ c hc]
      · refine List.pairwise_cons.mpr ⟨fun c hc => ?_, ?_⟩
        · rw [hself, hstop]
          exact hlt c hc
        · exact Apart.congr (List.pairwise_cons.mp hapart).2 fun c hc => by rw [hsame' _ c hc]
      · rw [covers_cons, hself, hstop, covers_congr fun c hc => by rw [hsame' _ c hc], covers_cons]
        have hbs := FreeList.le_stop u h b
        have has := FreeList.le_stop u h a
        rw [htouch] at has ⊢
        rw [← or_assoc]
        refine or_congr_left ?_
        omega
      · rw [units_cons, Function.update_self, units_congr fun c hc => by rw [hsame' _ c hc],
          units_cons, Nat.add_assoc]
      · rw [hself, hstop, htouch]
        exact FreeList.le_stop u h b
    · have hjoin : FreeList.join u h a b = ⟨b, (h a).size⟩ := if_neg htouch
      have hrest : rest u h a (b :: l) = b :: l := if_neg htouch
      rw [hjoin, hrest]
      refine ⟨⟨?_, ?_⟩, ?_, List.Sublist.refl _, fun x => ?_, ?_, ?_⟩
      · rw [Function.update_self]
        rfl
      · exact hlink.congr fun c hc => by rw [hsame _ c hc]
      · refine List.pairwise_cons.mpr ⟨fun c hc => ?_, ?_⟩
        · rw [hself]
          have hb : stop u h a < b := by
            have hle := hbefore b List.mem_cons_self
            omega
          rcases List.mem_cons.mp hc with rfl | hc
          · exact hb
          · have hbs := FreeList.le_stop u h b
            have hbc := hlt c hc
            show stop u h a < c
            omega
        · exact hapart.congr fun c hc => by rw [hsame _ c hc]
      · rw [covers_cons, hself, covers_congr fun c hc => by rw [hsame _ c hc]]
        rfl
      · rw [units_cons, Function.update_self, units_congr fun c hc => by rw [hsame _ c hc]]
      · rw [hself]
        exact Nat.le_refl _

/-! ## Rings -/

/-- The blocks of a circle, from `base` on. -/
structure Ring (u : ℕ) (h : ℕ → Cell) (base : ℕ) (r : List ℕ) : Prop where
  head : r.head? = some base
  linked : Linked h r base
  apart : Apart u h r

variable {base p q bp : ℕ} {r pre post : List ℕ}

theorem head?_append_cons (pre l l' : List ℕ) (a : ℕ) :
    (pre ++ a :: l).head? = (pre ++ a :: l').head? := by
  cases pre <;> rfl

theorem Ring.congr (hr : Ring u h base r) (heq : ∀ a ∈ r, h' a = h a) : Ring u h' base r where
  head := hr.head
  linked := hr.linked.congr fun a ha => by rw [heq a ha]
  apart := hr.apart.congr fun a ha => by rw [heq a ha]

theorem Ring.lt_of_append (hr : Ring u h base (pre ++ p :: post)) :
    (∀ a ∈ pre, stop u h a < p) ∧ ∀ b ∈ post, stop u h p < b := by
  obtain ⟨-, hpost, hpre⟩ := List.pairwise_append.mp hr.apart
  exact ⟨fun a ha => hpre a ha p List.mem_cons_self, fun b hb => Apart.lt hpost hb⟩

theorem Ring.base_le (hr : Ring u h base r) (ha : a ∈ r) : base ≤ a := by
  cases r with
  | nil => exact absurd ha List.not_mem_nil
  | cons b r =>
    obtain rfl : b = base := Option.some.inj hr.head
    rcases List.mem_cons.mp ha with rfl | hmem
    · exact Nat.le_refl _
    · exact Nat.le_of_lt (Nat.lt_of_le_of_lt (le_stop u h b) (hr.apart.lt hmem))

theorem Ring.ptr_eq (hr : Ring u h base (pre ++ p :: post)) : (h p).ptr = post.headD base :=
  (linked_append.mp hr.linked).2.1

theorem Ring.not_covers (hr : Ring u h base (pre ++ p :: post)) (hx : p ≤ x ∧ x < stop u h p) :
    ¬ Covers u h (pre ++ post) x := by
  obtain ⟨hpre, hpost⟩ := hr.lt_of_append
  rintro ⟨a, ha, hax⟩
  rcases List.mem_append.mp ha with ha | ha
  · have hlt := hpre a ha
    omega
  · have hlt := hpost a ha
    omega

/-- As blocks do not touch, what is covered without a gap is covered by one block. -/
theorem Ring.exists_block {y : ℕ} (hr : Ring u h base r) (hxy : x < y)
    (hcov : ∀ z, x ≤ z → z < y → Covers u h r z) : ∃ a ∈ r, a ≤ x ∧ y ≤ stop u h a := by
  obtain ⟨a, ha, hax, hxa⟩ := hcov x (Nat.le_refl x) hxy
  refine ⟨a, ha, hax, Nat.le_of_not_lt fun hlt => ?_⟩
  -- the first address behind the block would be covered by another one
  obtain ⟨b, hb, hba, hab⟩ := hcov (stop u h a) (Nat.le_of_lt hxa) hlt
  obtain ⟨pre, post, rfl⟩ := List.append_of_mem ha
  obtain ⟨hpre, hpost⟩ := hr.lt_of_append
  simp only [List.mem_append, List.mem_cons] at hb
  rcases hb with hb | rfl | hb
  · have hlt' := hpre b hb
    have hle := le_stop u h a
    omega
  · omega
  · have hlt' := hpost b hb
    omega

/-! ### Finding the place of a block -/

/-- An address above the first block of an ascending list has its place between two blocks. -/
theorem Apart.exists_place (hl : Apart u h (a :: l)) (ha : a < bp) (hbp : bp ∉ l) :
    ∃ pre p post, a :: l = pre ++ p :: post ∧ p < bp ∧ ∀ b ∈ post, bp < b := by
  induction l generalizing a with
  | nil => exact ⟨[], a, [], rfl, ha, by simp⟩
  | cons b l ih =>
    have htail : Apart u h (b :: l) := (List.pairwise_cons.mp hl).2
    have hbne : b ≠ bp := fun heq => hbp (heq ▸ List.mem_cons_self)
    rcases Nat.lt_or_gt_of_ne hbne with hlt | hgt
    · obtain ⟨pre, p, post, heq, hplace⟩ :=
        ih htail hlt fun hmem => hbp (List.mem_cons_of_mem b hmem)
      exact ⟨a :: pre, p, post, by rw [heq]; rfl, hplace⟩
    · refine ⟨[], a, b :: l, rfl, ha, fun c hc => ?_⟩
      rcases List.mem_cons.mp hc with rfl | hc
      · exact hgt
      · exact Nat.lt_trans hgt (Nat.lt_of_le_of_lt (le_stop u h b) (htail.lt hc))

theorem Ring.exists_place (hr : Ring u h base r) (hbase : base < bp) (hbp : bp ∉ r) :
    ∃ pre p post, r = pre ++ p :: post ∧ p < bp ∧ ∀ b ∈ post, bp < b := by
  cases r with
  | nil => exact nomatch hr.head
  | cons a l =>
    obtain rfl : a = base := Option.some.inj hr.head
    exact hr.apart.exists_place hbase fun hmem => hbp (List.mem_cons_of_mem a hmem)

/-- The test for the block in front of which `bp` is to be inserted: `bp` is between `p` and its
successor, or `p` is the last block and `bp` is behind it or before the first. -/
def isGap (h : ℕ → Cell) (bp p : ℕ) : Bool :=
  decide (p < bp ∧ bp < (h p).ptr) || decide ((h p).ptr ≤ p ∧ (p < bp ∨ bp < (h p).ptr))

theorem Ring.isGap (hr : Ring u h base (pre ++ p :: post)) (hp : p < bp)
    (hpost : ∀ b ∈ post, bp < b) : isGap h bp p = true := by
  have hptr := hr.ptr_eq
  cases post with
  | nil =>
    have hbase := hr.base_le (a := p) (by simp)
    rw [List.headD_nil] at hptr
    simp only [FreeList.isGap, hptr, Bool.or_eq_true, decide_eq_true_eq]
    exact .inr ⟨hbase, .inl hp⟩
  | cons b post =>
    rw [List.headD_cons] at hptr
    simp only [FreeList.isGap, hptr, Bool.or_eq_true, decide_eq_true_eq]
    exact .inl ⟨hp, hpost b List.mem_cons_self⟩

/-- No block but the last one in front of `bp` passes the test. -/
theorem Ring.not_isGap (hr : Ring u h base (pre ++ p :: post)) (hbp : base < bp)
    (hgap : bp < p ∨ ∃ b ∈ post.head?, b < bp) : FreeList.isGap h bp p = false := by
  have hptr := hr.ptr_eq
  have hlt := hr.lt_of_append.2
  have hle := le_stop u h p
  simp only [FreeList.isGap, Bool.or_eq_false_iff, decide_eq_false_iff_not]
  cases post with
  | nil =>
    rw [List.headD_nil] at hptr
    have hgap' : bp < p := by simpa using hgap
    rw [hptr]
    omega
  | cons b post =>
    rw [List.headD_cons] at hptr
    have hpb := hlt b List.mem_cons_self
    have hgap' : bp < p ∨ b < bp := by simpa using hgap
    rw [hptr]
    omega

/-- The search for the place of a block ends within one turn around the ring, wherever it begins. -/
theorem Ring.seek_isGap (hr : Ring u h base (pre ++ p :: post)) (hbase : base < bp) (hp : p < bp)
    (hpost : ∀ b ∈ post, bp < b) (hq : q ∈ pre ++ p :: post) {n : ℕ}
    (hn : (pre ++ p :: post).length ≤ n) : seek h (FreeList.isGap h bp) n q = some p := by
  obtain ⟨hlpre, hltail⟩ := linked_append.mp hr.linked
  have hfound : ∀ n, seek h (FreeList.isGap h bp) (n + 1) p = some p := by
    intro n
    rw [seek, if_pos (hr.isGap hp hpost)]
  have hnext : ∀ pre₁ a b, pre = pre₁ ++ a :: b → (b ++ p :: post).headD 0 < bp := by
    intro pre₁ a b hsplit
    cases b with
    | nil => exact hp
    | cons c b =>
      have hc := hr.lt_of_append.1 c (by simp [hsplit])
      have hle := le_stop u h c
      show c < bp
      omega
  have hpre : ∀ a ∈ pre, FreeList.isGap h bp a = false := by
    intro a ha
    obtain ⟨pre₁, b, hsplit⟩ := List.append_of_mem ha
    have hlt := hnext pre₁ a b hsplit
    rw [hsplit, List.append_assoc, List.cons_append] at hr
    refine hr.not_isGap hbase (.inr ?_)
    cases b with
    | nil => exact ⟨p, rfl, hlt⟩
    | cons c b => exact ⟨c, rfl, hlt⟩
  have hpost' : ∀ a ∈ post, FreeList.isGap h bp a = false := by
    intro a ha
    have hlt := hpost a ha
    obtain ⟨post₁, b, hsplit⟩ := List.append_of_mem ha
    rw [hsplit, ← List.cons_append, ← List.append_assoc] at hr
    exact hr.not_isGap hbase (.inl hlt)
  rw [List.length_append, List.length_cons] at hn
  -- from a block in front of `p` on
  have hwalk : ∀ pre₁ pre₂ n, pre = pre₁ ++ pre₂ → pre₂.length < n →
      seek h (FreeList.isGap h bp) n (pre₂.headD p) = some p := by
    intro pre₁ pre₂ n hsplit hlen
    obtain ⟨m, rfl⟩ := Nat.exists_eq_add_of_lt hlen
    rw [hsplit] at hlpre
    have hl₂ := (linked_append.mp hlpre).2
    rw [Nat.add_assoc]
    exact (hl₂.seek (fun a ha => hpre a (by simp [hsplit, ha])) (m + 1)).trans (hfound m)
  rcases List.mem_append.mp hq with hmem | hmem
  · obtain ⟨pre₁, pre₂, hsplit⟩ := List.append_of_mem hmem
    have hlen := congrArg List.length hsplit
    rw [List.length_append] at hlen
    exact hwalk pre₁ (q :: pre₂) n hsplit (by omega)
  · rcases List.mem_cons.mp hmem with rfl | hmem
    · obtain ⟨m, rfl⟩ : ∃ m, n = m + 1 := ⟨n - 1, by omega⟩
      exact hfound m
    · obtain ⟨post₁, post₂, hsplit⟩ := List.append_of_mem hmem
      have hlen := congrArg List.length hsplit
      rw [List.length_append] at hlen
      have hl₂ : Linked h (q :: post₂) base := by
        have hl := hltail.2
        rw [hsplit] at hl
        exact (linked_append.mp hl).2
      have hbase' : pre.headD p = base := by
        have hhead := hr.head
        cases pre with
        | nil => exact Option.some.inj hhead
        | cons c pre => exact Option.some.inj hhead
      obtain ⟨m, rfl⟩ := Nat.exists_eq_add_of_le (show (q :: post₂).length ≤ n by omega)
      have hwalked := hl₂.seek (fun a ha => hpost' a (by rw [hsplit]; exact List.mem_append_right _ ha)) m
      rw [List.headD_cons] at hwalked
      rw [hwalked, ← hbase']
      exact hwalk [] pre m rfl (by omega)

/-! ### Putting a block in and taking one out -/

/-- A block is linked to the successor of `p`, and `p` to the block; blocks that touch become one. -/
def insert (u : ℕ) (h : ℕ → Cell) (p bp : ℕ) : ℕ → Cell :=
  let h := Function.update h bp (join u h bp (h p).ptr)
  Function.update h p (join u h p bp)

/-- The ring after an insertion. -/
structure Inserted (u : ℕ) (h : ℕ → Cell) (base : ℕ) (r : List ℕ) (bp : ℕ) (h' : ℕ → Cell)
    (r' : List ℕ) : Prop where
  ring : Ring u h' base r'
  covers : ∀ x, Covers u h' r' x ↔ Covers u h r x ∨ (bp ≤ x ∧ x < stop u h bp)
  units : units h' r' = units h r + (h bp).size
  mem : ∀ a ∈ r', a = bp ∨ a ∈ r
  size_le : ∀ a ∈ r', (h a).size ≤ (h' a).size
  same : ∀ a, a ∉ r → a ≠ bp → h' a = h a

theorem Ring.insert (hr : Ring u h base (pre ++ p :: post)) (hbase : base < bp)
    (hpre : ∀ a ∈ pre ++ [p], stop u h a ≤ bp) (hpost : ∀ b ∈ post, stop u h bp ≤ b)
    (hnew : bp ∉ pre ++ p :: post) :
    ∃ r', Inserted u h base (pre ++ p :: post) bp (FreeList.insert u h p bp) r' ∧ p ∈ r' := by
  obtain ⟨hlpre, hltail⟩ := linked_append.mp hr.linked
  obtain ⟨hapre, hatail, -⟩ := List.pairwise_append.mp hr.apart
  obtain ⟨hltp, hlpt⟩ := hr.lt_of_append
  simp only [List.mem_append, List.mem_cons, not_or] at hnew
  obtain ⟨hbpre, hbp, hbpost⟩ := hnew
  have hppre : p ∉ pre := fun hmem =>
    Nat.not_lt_of_le (FreeList.le_stop u h p) (hltp p hmem)
  have hppost : p ∉ post := fun hmem =>
    Nat.not_lt_of_le (FreeList.le_stop u h p) (hlpt p hmem)
  have hptr : (h p).ptr = post.headD base := hltail.1
  -- the block and what comes behind it
  have hstop : stop u h bp ≠ base := by
    have hle := FreeList.le_stop u h bp
    omega
  have hj₁ := Linked.join hltail.2 (List.pairwise_cons.mp hatail).2 (fun _ => hstop) hpost hbpost
  rw [← hptr] at hj₁
  generalize hh₁ : Function.update h bp (join u h bp (h p).ptr) = h₁ at hj₁
  have hsame₁ : ∀ a, a ≠ bp → h₁ a = h a := by
    intro a ha
    rw [← hh₁, Function.update_of_ne ha]
  -- `p` and the block
  have hstop₁ : stop u h₁ p = stop u h p := by
    rw [stop, hsame₁ p fun heq => hbp heq.symm, stop]
  have hbefore : ∀ b ∈ bp :: rest u h bp post, stop u h₁ p ≤ b := by
    intro b hb
    rw [hstop₁]
    rcases List.mem_cons.mp hb with rfl | hb
    · exact hpre p (by simp)
    · exact Nat.le_of_lt (hlpt b (hj₁.sublist.subset hb))
  have hpnew : p ∉ bp :: rest u h bp post := by
    intro hmem
    rcases List.mem_cons.mp hmem with heq | hmem
    · exact hbp heq.symm
    · exact hppost (hj₁.sublist.subset hmem)
  have hj₂ := hj₁.linked.join hj₁.apart (fun hnil => nomatch hnil) hbefore hpnew
  rw [List.headD_cons] at hj₂
  have hinsert : FreeList.insert u h p bp = Function.update h₁ p (join u h₁ p bp) := by
    rw [FreeList.insert, hh₁]
  rw [hinsert]
  generalize hh₂ : Function.update h₁ p (join u h₁ p bp) = h₂ at hj₂
  have hsame : ∀ a, a ≠ bp → a ≠ p → h₂ a = h a := by
    intro a ha hap
    rw [← hh₂, Function.update_of_ne hap, hsame₁ a ha]
  have hpre' : ∀ a ∈ pre, h₂ a = h a := fun a ha =>
    hsame a (fun heq => hbpre (heq ▸ ha)) fun heq => hppre (heq ▸ ha)
  have hmem : ∀ a ∈ rest u h₁ p (bp :: rest u h bp post), a = bp ∨ a ∈ post := by
    intro a ha
    rcases List.mem_cons.mp (hj₂.sublist.subset ha) with heq | ha
    · exact .inl heq
    · exact .inr (hj₁.sublist.subset ha)
  refine ⟨pre ++ p :: rest u h₁ p (bp :: rest u h bp post), ⟨⟨?_, ?_, ?_⟩, fun x => ?_, ?_, ?_, ?_, ?_⟩,
    by simp⟩
  · exact (head?_append_cons ..).trans hr.head
  · refine linked_append.mpr ⟨?_, hj₂.linked⟩
    exact hlpre.congr fun a ha => by rw [hpre' a ha]
  · refine List.pairwise_append.mpr ⟨?_, hj₂.apart, fun a ha b hb => ?_⟩
    · exact Apart.congr hapre fun a ha => by rw [hpre' a ha]
    · have hap := hltp a ha
      rw [stop, hpre' a ha]
      rcases List.mem_cons.mp hb with rfl | hb
      · exact hap
      · have hpb := hj₂.apart.lt hb
        have hle := FreeList.le_stop u h₂ p
        rw [stop] at hap
        omega
  · rw [covers_append, hj₂.covers, hj₁.covers, hstop₁, covers_append, covers_cons,
      covers_congr fun a ha => by rw [hpre' a ha]]
    tauto
  · rw [units_append, hj₂.units, hj₁.units, units_append, units_cons,
      hsame₁ p fun heq => hbp heq.symm, units_congr fun a ha => by rw [hpre' a ha]]
    omega
  · intro a ha
    rcases List.mem_append.mp ha with ha | ha
    · exact .inr (List.mem_append_left _ ha)
    · rcases List.mem_cons.mp ha with rfl | ha
      · exact .inr (by simp)
      · exact (hmem a ha).imp_right fun hpost => by simp [hpost]
  · intro a ha
    have hjoin : ∀ (g : ℕ → Cell) (a b : ℕ), (g a).size ≤ (join u g a b).size := by
      intro g a b
      rw [join]
      split
      · exact Nat.le_add_right ..
      · exact Nat.le_refl _
    by_cases hap : a = p
    · rw [hap, ← hh₂, Function.update_self, ← hsame₁ p fun heq => hbp heq.symm]
      exact hjoin ..
    · rw [← hh₂, Function.update_of_ne hap]
      by_cases hab : a = bp
      · rw [hab, ← hh₁, Function.update_self]
        exact hjoin ..
      · exact Nat.le_of_eq (congrArg Cell.size (hsame₁ a hab)).symm
  · intro a ha hab
    exact hsame a hab fun heq => ha (by simp [heq])

theorem Ring.remove (hr : Ring u h base (pre ++ q :: p :: post)) :
    Ring u (Function.update h q ⟨(h p).ptr, (h q).size⟩) base (pre ++ q :: post) ∧
      (∀ x, Covers u h (pre ++ q :: p :: post) x ↔
        Covers u (Function.update h q ⟨(h p).ptr, (h q).size⟩) (pre ++ q :: post) x ∨
          (p ≤ x ∧ x < stop u h p)) ∧
      units h (pre ++ q :: p :: post) =
        units (Function.update h q ⟨(h p).ptr, (h q).size⟩) (pre ++ q :: post) + (h p).size := by
  obtain ⟨hlpre, hltail⟩ := linked_append.mp hr.linked
  have hnodup := hr.apart.nodup
  have hsize : ∀ a, (Function.update h q ⟨(h p).ptr, (h q).size⟩ a).size = (h a).size := by
    intro a
    rw [Function.update_apply]
    split_ifs with heq
    · rw [heq]
    · rfl
  have hne : ∀ a, a ≠ q → Function.update h q ⟨(h p).ptr, (h q).size⟩ a = h a :=
    fun a ha => Function.update_of_ne ha ..
  obtain ⟨-, htail, hdis⟩ := List.nodup_append.mp hnodup
  have hqpre : ∀ a ∈ pre, a ≠ q := fun a ha => hdis a ha q List.mem_cons_self
  have hqpost : ∀ a ∈ post, a ≠ q := by
    rintro a ha rfl
    exact (List.nodup_cons.mp htail).1 (List.mem_cons_of_mem p ha)
  have hsub : (pre ++ q :: post).Sublist (pre ++ q :: p :: post) :=
    (List.Sublist.refl pre).append ((List.sublist_cons_self p post).cons_cons q)
  refine ⟨⟨(head?_append_cons ..).trans hr.head, ?_, ?_⟩, fun x => ?_, ?_⟩
  · refine linked_append.mpr ⟨hlpre.congr fun a ha => by rw [hne a (hqpre a ha)], ?_, ?_⟩
    · rw [Function.update_self]
      exact hltail.2.1
    · exact hltail.2.2.congr fun a ha => by rw [hne a (hqpost a ha)]
  · exact Apart.congr (hr.apart.sublist hsub) fun a _ => hsize a
  · rw [covers_congr fun a _ => hsize a, covers_append, covers_append, covers_cons, covers_cons,
      covers_cons]
    tauto
  · rw [units_congr fun a _ => hsize a, units_append, units_append, units_cons, units_cons, units_cons]
    omega

theorem Ring.shrink (hr : Ring u h base (pre ++ p :: post)) {n : ℕ} (hn : n ≤ (h p).size) :
    Ring u (Function.update h p ⟨(h p).ptr, (h p).size - n⟩) base (pre ++ p :: post) ∧
      (∀ x, Covers u h (pre ++ p :: post) x ↔
        Covers u (Function.update h p ⟨(h p).ptr, (h p).size - n⟩) (pre ++ p :: post) x ∨
          (p + u * ((h p).size - n) ≤ x ∧ x < stop u h p)) ∧
      units h (pre ++ p :: post) =
        units (Function.update h p ⟨(h p).ptr, (h p).size - n⟩) (pre ++ p :: post) + n := by
  generalize hh' : Function.update h p ⟨(h p).ptr, (h p).size - n⟩ = h'
  have hself : h' p = ⟨(h p).ptr, (h p).size - n⟩ := by
    rw [← hh', Function.update_self]
  have hptr : ∀ a, (h' a).ptr = (h a).ptr := by
    intro a
    rw [← hh', Function.update_apply]
    split_ifs with heq
    · rw [heq]
    · rfl
  have hne : ∀ a, a ≠ p → h' a = h a := by
    intro a ha
    rw [← hh', Function.update_of_ne ha]
  obtain ⟨hltp, hlpt⟩ := hr.lt_of_append
  have hpre : ∀ a ∈ pre, (h' a).size = (h a).size := by
    intro a ha
    rw [hne a]
    rintro rfl
    exact Nat.not_lt_of_le (le_stop u h a) (hltp a ha)
  have hpost : ∀ a ∈ post, (h' a).size = (h a).size := by
    intro a ha
    rw [hne a]
    rintro rfl
    exact Nat.not_lt_of_le (le_stop u h a) (hlpt a ha)
  have hstop' : stop u h' p = p + u * ((h p).size - n) := by
    rw [stop, hself]
  have hle : p + u * ((h p).size - n) ≤ stop u h p :=
    Nat.add_le_add_left (Nat.mul_le_mul_left u (Nat.sub_le _ _)) p
  refine ⟨⟨hr.head, hr.linked.congr fun a _ => hptr a, ?_⟩, fun x => ?_, ?_⟩
  · obtain ⟨hapre, hatail, hdis⟩ := List.pairwise_append.mp hr.apart
    obtain ⟨hap, hapost⟩ := List.pairwise_cons.mp hatail
    refine List.pairwise_append.mpr ⟨Apart.congr hapre hpre, List.pairwise_cons.mpr
      ⟨fun b hb => ?_, Apart.congr hapost hpost⟩, fun a ha b hb => ?_⟩
    · rw [hstop']
      exact Nat.lt_of_le_of_lt hle (hap b hb)
    · rw [stop, hpre a ha]
      exact hdis a ha b hb
  · have hle' := le_stop u h' p
    rw [hstop'] at hle'
    rw [covers_append, covers_append, covers_cons, covers_cons, hstop', covers_congr hpre,
      covers_congr hpost]
    have hsplit : (p ≤ x ∧ x < stop u h p) ↔ (p ≤ x ∧ x < p + u * ((h p).size - n)) ∨
        (p + u * ((h p).size - n) ≤ x ∧ x < stop u h p) := by
      omega
    rw [hsplit]
    tauto
  · rw [units_append, units_append, units_cons, units_cons, hself, units_congr hpre,
      units_congr hpost]
    dsimp only
    omega

end FreeList
