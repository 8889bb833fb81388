import Mathlib

/-!
# The matcher of `grep`

`match`, `matchhere` and `matchstar` of `user/grep.c`.  A pointer into a string is what is left of the
string; its end is the NUL.  The functions recurse over the pattern, and `matchstar` and `match` go along
the text.

A pattern is an optional `^`, items and an optional `$`.  An item is a character or a `.`, perhaps with a
`*` behind it; any character can be starred, and a `*` with nothing to bind to is a character.  The language
of the items is put together with the operations of `Language`, and the matcher decides it.
-/

namespace Xv6.Grep

open Computability

/-! ## The code -/

abbrev caret : UInt8 := 94
abbrev dollar : UInt8 := 36
abbrev star : UInt8 := 42
abbrev dot : UInt8 := 46

/-- The loop of `matchstar`, where `here` is the search for what follows the star. -/
def starLoop (here : List UInt8 → Bool) (c : UInt8) : List UInt8 → Bool
  | [] => here []
  | t :: text => here (t :: text) || ((t == c || c == dot) && starLoop here c text)

/-- The last case of `matchhere`: the next character of the text, and what `here` says of the rest. -/
def matchone (here : List UInt8 → Bool) (c : UInt8) : List UInt8 → Bool
  | [] => false
  | t :: text => (c == dot || c == t) && here text

/-- Search for `re` at the beginning of `text`. -/
def matchhere : List UInt8 → List UInt8 → Bool
  | [], _ => true
  | [c], text => if c = dollar then text.isEmpty else matchone (matchhere []) c text
  | c :: d :: re, text =>
    if d = star then starLoop (matchhere re) c text else matchone (matchhere (d :: re)) c text

/-- Search for `c*re` at the beginning of `text`. -/
def matchstar (c : UInt8) (re text : List UInt8) : Bool := starLoop (matchhere re) c text

/-- The loop of `match`. -/
def searchLoop (re : List UInt8) : List UInt8 → Bool
  | [] => matchhere re []
  | t :: text => matchhere re (t :: text) || searchLoop re text

/-- `match(re, text)` -/
def matchRe (re text : List UInt8) : Bool :=
  match re with
  | [] => searchLoop [] text
  | c :: re => if c = caret then matchhere re text else searchLoop (c :: re) text

/-! ## Patterns -/

/-- What stands for one character. -/
inductive Sym where
  | lit (c : UInt8)
  | any

/-- A character of a pattern, where it is not an operator. -/
def Sym.of (c : UInt8) : Sym := if c = dot then .any else .lit c

/-- The characters that a symbol stands for. -/
def Sym.Matches : Sym → UInt8 → Prop
  | .lit c, t => t = c
  | .any, _ => True

inductive Item where
  | one (x : Sym)
  | many (x : Sym)

def Sym.language (x : Sym) : Language UInt8 := {w | ∃ t, x.Matches t ∧ w = [t]}

def Item.language : Item → Language UInt8
  | .one x => x.language
  | .many x => x.language∗

/-- The words that are made of one word of each item. -/
def itemsLanguage (items : List Item) : Language UInt8 := (items.map Item.language).prod

/-- The items of a pattern without its `^`, and whether a `$` is behind them. -/
def parseItems : List UInt8 → List Item × Bool
  | [] => ([], false)
  | [c] => if c = dollar then ([], true) else ([.one (.of c)], false)
  | c :: d :: re =>
    if d = star then (.many (.of c) :: (parseItems re).1, (parseItems re).2)
    else (.one (.of c) :: (parseItems (d :: re)).1, (parseItems (d :: re)).2)

/-- A pattern: whether it is anchored at the start, its items, and whether it is anchored at the end. -/
structure Pattern where
  caret : Bool
  items : List Item
  dollar : Bool

def parse : List UInt8 → Pattern
  | [] => ⟨false, [], false⟩
  | c :: re =>
    if c = caret then ⟨true, (parseItems re).1, (parseItems re).2⟩
    else ⟨false, (parseItems (c :: re)).1, (parseItems (c :: re)).2⟩

/-- Some prefix of the text is a word of `L`; with `d`, it is the whole text. -/
def Starts (L : Language UInt8) (d : Bool) (text : List UInt8) : Prop :=
  ∃ v w, text = v ++ w ∧ v ∈ L ∧ (d = true → w = [])

/-! ## The matcher decides the language -/

variable {c t : UInt8} {re text : List UInt8} {L M : Language UInt8} {d : Bool}

theorem matches_of : (Sym.of c).Matches t ↔ c = dot ∨ c = t := by
  rw [Sym.of]
  split
  · rename_i hc
    exact ⟨fun _ => Or.inl hc, fun _ => trivial⟩
  · rename_i hc
    exact ⟨fun h => Or.inr h.symm, fun h => (h.resolve_left hc).symm⟩

theorem starts_one : Starts 1 d text ↔ d = true → text = [] := by
  constructor
  · rintro ⟨v, w, rfl, hv, hw⟩ hd
    rw [(Language.mem_one v).mp hv, hw hd]
    rfl
  · intro h
    exact ⟨[], text, rfl, Language.nil_mem_one, h⟩

theorem starts_mul : Starts (L * M) d text ↔ ∃ v w, text = v ++ w ∧ v ∈ L ∧ Starts M d w := by
  constructor
  · rintro ⟨u, x, rfl, hu, hx⟩
    obtain ⟨v, hv, w, hw, rfl⟩ := Language.mem_mul.mp hu
    exact ⟨v, w ++ x, by rw [List.append_assoc], hv, w, x, rfl, hw, hx⟩
  · rintro ⟨v, w, rfl, hv, y, x, rfl, hy, hx⟩
    exact ⟨v ++ y, x, by rw [List.append_assoc], Language.append_mem_mul hv hy, hx⟩

theorem starts_symbol : Starts ((Sym.of c).language * M) d text ↔
    ∃ t w, text = t :: w ∧ (c = dot ∨ c = t) ∧ Starts M d w := by
  rw [starts_mul]
  constructor
  · rintro ⟨v, w, rfl, ⟨t, ht, rfl⟩, hw⟩
    exact ⟨t, w, rfl, matches_of.mp ht, hw⟩
  · rintro ⟨t, w, rfl, ht, hw⟩
    exact ⟨[t], w, rfl, ⟨t, matches_of.mpr ht, rfl⟩, hw⟩

theorem starts_star : Starts ((Sym.of c).language∗ * M) d text ↔
    Starts M d text ∨
      ∃ t w, text = t :: w ∧ (c = dot ∨ c = t) ∧ Starts ((Sym.of c).language∗ * M) d w := by
  have hunfold : (Sym.of c).language∗ * M = M + (Sym.of c).language * ((Sym.of c).language∗ * M) := by
    conv_lhs => rw [← Language.one_add_self_mul_kstar_eq_kstar]
    rw [add_mul, one_mul, mul_assoc]
  rw [← starts_symbol]
  conv_lhs => rw [hunfold]
  constructor
  · rintro ⟨v, w, rfl, hv | hv, hw⟩
    · exact Or.inl ⟨v, w, rfl, hv, hw⟩
    · exact Or.inr ⟨v, w, rfl, hv, hw⟩
  · rintro (⟨v, w, rfl, hv, hw⟩ | ⟨v, w, rfl, hv, hw⟩)
    · exact ⟨v, w, rfl, Or.inl hv, hw⟩
    · exact ⟨v, w, rfl, Or.inr hv, hw⟩

/-- **The loop of `matchstar`**, for a search `here` that decides `M`. -/
theorem starLoop_iff {here : List UInt8 → Bool} (hhere : ∀ text, here text = true ↔ Starts M d text) :
    starLoop here c text = true ↔ Starts ((Sym.of c).language∗ * M) d text := by
  induction text with
  | nil =>
    rw [starts_star, starLoop, hhere]
    refine (or_iff_left ?_).symm
    rintro ⟨t, w, heq, -⟩
    exact nomatch heq
  | cons t text ih =>
    rw [starts_star, starLoop, Bool.or_eq_true, Bool.and_eq_true, Bool.or_eq_true, hhere, ih]
    refine or_congr_right ⟨fun ⟨hc, htext⟩ => ⟨t, text, rfl, ?_, htext⟩, ?_⟩
    · exact hc.symm.imp beq_iff_eq.mp fun heq => (beq_iff_eq.mp heq).symm
    · rintro ⟨t', w, heq, hc, hw⟩
      obtain ⟨rfl, rfl⟩ := List.cons.inj heq
      exact ⟨hc.symm.imp (fun heq => beq_iff_eq.mpr heq.symm) beq_iff_eq.mpr, hw⟩

theorem itemsLanguage_cons (x : Item) (items : List Item) :
    itemsLanguage (x :: items) = x.language * itemsLanguage items := by
  rw [itemsLanguage, List.map_cons, List.prod_cons]
  rfl

theorem itemsLanguage_nil : itemsLanguage [] = 1 := rfl

theorem matchone_iff {here : List UInt8 → Bool} (hhere : ∀ text, here text = true ↔ Starts M d text) :
    matchone here c text = true ↔ Starts ((Sym.of c).language * M) d text := by
  rw [starts_symbol]
  cases text with
  | nil =>
    refine ⟨fun h => (nomatch h), ?_⟩
    rintro ⟨t, w, heq, -⟩
    exact nomatch heq
  | cons t text =>
    rw [matchone, Bool.and_eq_true, Bool.or_eq_true, hhere, beq_iff_eq, beq_iff_eq]
    constructor
    · rintro ⟨hc, htext⟩
      exact ⟨t, text, rfl, hc, htext⟩
    · rintro ⟨t', w, heq, hc, hw⟩
      obtain ⟨rfl, rfl⟩ := List.cons.inj heq
      exact ⟨hc, hw⟩

theorem matchhere_nil (text : List UInt8) : matchhere [] text = true ↔
    Starts (itemsLanguage (parseItems []).1) (parseItems []).2 text := by
  rw [matchhere, parseItems, itemsLanguage_nil, starts_one]
  exact ⟨fun _ h => (nomatch h), fun _ => rfl⟩

/-- **`matchhere`** decides whether the text starts with a word of the items. -/
theorem matchhere_iff (re : List UInt8) : ∀ text, matchhere re text = true ↔
    Starts (itemsLanguage (parseItems re).1) (parseItems re).2 text := by
  induction re using parseItems.induct with
  | case1 => exact matchhere_nil
  | case2 =>
    intro text
    rw [matchhere, if_pos rfl, parseItems, if_pos rfl, itemsLanguage_nil, starts_one,
      List.isEmpty_iff]
    exact ⟨fun h _ => h, fun h => h rfl⟩
  | case3 c hc =>
    intro text
    rw [matchhere, if_neg hc, parseItems, if_neg hc, itemsLanguage_cons, Item.language,
      matchone_iff matchhere_nil]
    rfl
  | case4 c re ih =>
    intro text
    rw [matchhere, if_pos rfl, parseItems, if_pos rfl, itemsLanguage_cons, Item.language,
      starLoop_iff ih]
  | case5 c d re hd ih =>
    intro text
    rw [matchhere, if_neg hd, parseItems, if_neg hd, itemsLanguage_cons, Item.language,
      matchone_iff ih]

/-- **`matchstar`** decides whether it starts with some of a character and then such a word. -/
theorem matchstar_iff (c : UInt8) (re text : List UInt8) : matchstar c re text = true ↔
    Starts ((Item.many (.of c)).language * itemsLanguage (parseItems re).1) (parseItems re).2 text :=
  starLoop_iff (matchhere_iff re)

theorem searchLoop_iff (re : List UInt8) : searchLoop re text = true ↔
    ∃ u rest, text = u ++ rest ∧ matchhere re rest = true := by
  induction text with
  | nil =>
    rw [searchLoop]
    constructor
    · intro h
      exact ⟨[], [], rfl, h⟩
    · rintro ⟨u, rest, heq, h⟩
      obtain ⟨rfl, rfl⟩ := List.append_eq_nil_iff.mp heq.symm
      exact h
  | cons t text ih =>
    rw [searchLoop, Bool.or_eq_true, ih]
    constructor
    · rintro (h | ⟨u, rest, rfl, h⟩)
      · exact ⟨[], t :: text, rfl, h⟩
      · exact ⟨t :: u, rest, rfl, h⟩
    · rintro ⟨u, rest, heq, h⟩
      cases u with
      | nil => exact Or.inl (heq ▸ h)
      | cons t' u =>
        obtain ⟨rfl, rfl⟩ := List.cons.inj heq
        exact Or.inr ⟨u, rest, rfl, h⟩

/-- **The matcher.**  For every pattern and every text, `match` returns 1 if and only if some part of the
text is a word of the items of the pattern: the beginning of the text after a `^`, and the end of it before
a `$`.  `matchhere` and `matchstar` decide the same for what begins where the text begins. -/
theorem matcher_decides (re text : List UInt8) :
    (matchRe re text = true ↔ ∃ u v w, text = u ++ (v ++ w) ∧ v ∈ itemsLanguage (parse re).items ∧
      ((parse re).caret = true → u = []) ∧ ((parse re).dollar = true → w = [])) ∧
    (matchhere re text = true ↔ ∃ v w, text = v ++ w ∧ v ∈ itemsLanguage (parseItems re).1 ∧
      ((parseItems re).2 = true → w = [])) ∧
    ∀ c, matchstar c re text = true ↔ ∃ v w, text = v ++ w ∧
      v ∈ (Item.many (.of c)).language * itemsLanguage (parseItems re).1 ∧
      ((parseItems re).2 = true → w = []) := by
  refine ⟨?_, matchhere_iff re text, fun c => matchstar_iff c re text⟩
  -- without a `^` the search is made everywhere
  have hsearch : ∀ re, searchLoop re text = true ↔ ∃ u v w, text = u ++ (v ++ w) ∧
      v ∈ itemsLanguage (parseItems re).1 ∧ (false = true → u = []) ∧
      ((parseItems re).2 = true → w = []) := by
    intro re
    rw [searchLoop_iff]
    constructor
    · rintro ⟨u, rest, rfl, h⟩
      obtain ⟨v, w, rfl, hv, hw⟩ := (matchhere_iff re rest).mp h
      exact ⟨u, v, w, rfl, hv, fun h => (nomatch h), hw⟩
    · rintro ⟨u, v, w, rfl, hv, -, hw⟩
      exact ⟨u, v ++ w, rfl, (matchhere_iff re _).mpr ⟨v, w, rfl, hv, hw⟩⟩
  cases re with
  | nil => exact hsearch []
  | cons c re =>
    rw [matchRe, parse]
    split
    · rw [matchhere_iff]
      constructor
      · rintro ⟨v, w, rfl, hv, hw⟩
        exact ⟨[], v, w, rfl, hv, fun _ => rfl, hw⟩
      · rintro ⟨u, v, w, rfl, hv, hu, hw⟩
        obtain rfl := hu rfl
        exact ⟨v, w, rfl, hv, hw⟩
    · exact hsearch (c :: re)

end Xv6.Grep
