import Xv6.Sh.Grammar

/-!
# The parser of `user/sh.c`

A `char *` into the line is the rest of the line from there, so that the end `es` is the empty list and
what is at it is a NUL.  A word is a pair of pointers, to its first character and behind its last one;
`nulterminate` puts a NUL there.

The parser looks at a character with `peek` and then gets the token with `gettoken`.  Over the tokens of
the line (`tokens`) it is the parser of the grammar, with the same outcome whatever it is
(`parseline_sim`).
-/

namespace Xv6.Sh

open Fuel

/-! ## Characters and tokens -/

abbrev Ptr := List Char

def NUL : Char := '\x00'

/-- `*s` -/
def deref (s : Ptr) : Char := s.headD NUL

def whitespace : List Char := [' ', '\t', '\r', '\n', '\x0b']

def symbols : List Char := ['<', '|', '>', '&', ';', '(', ')']

/-- `while(s < es && strchr(whitespace, *s)) s++;` -/
def skip (s : Ptr) : Ptr := s.dropWhile (· ∈ whitespace)

/-- The characters of words. -/
def wordChar (c : Char) : Bool := c ∉ whitespace ∧ c ∉ symbols

/-- The text from `q` to `eq`. -/
structure Word where
  q : Ptr
  eq : Ptr
  deriving DecidableEq

/-- What `gettoken` returns, and the pointers it sets. -/
structure Tok where
  ret : Char
  word : Word
  ps : Ptr

/-- The switch of `gettoken`: what it returns and where the token ends. -/
def scan (s : Ptr) : Char × Ptr :=
  match s with
  | [] => (NUL, s)
  | c :: s' =>
    if c = NUL then (c, s)
    else if c = '|' ∨ c = '(' ∨ c = ')' ∨ c = ';' ∨ c = '&' ∨ c = '<' then (c, s')
    else if c = '>' then if deref s' = '>' then ('+', s'.tail) else (c, s')
    else ('a', s.dropWhile wordChar)

def gettoken (s : Ptr) : Tok :=
  let q := skip s
  let r := scan q
  ⟨r.1, ⟨q, r.2⟩, skip r.2⟩

/-- `peek` moves the pointer, and says if one of the characters is there. -/
def peek (s : Ptr) (toks : List Char) : Bool × Ptr :=
  let s := skip s
  (deref s ≠ NUL ∧ deref s ∈ toks, s)

/-! ## The parser -/

abbrev Result := Res String (Cmd Word × Ptr)

/-- The loop of `parseline` over `&`. -/
def backs : ℕ → Cmd Word → Ptr → Result
  | 0, _, _ => .out
  | n + 1, cmd, s =>
    let p := peek s ['&']
    if p.1 then backs n (.back cmd) (gettoken p.2).ps else .ok (cmd, p.2)

def parseredirs : ℕ → Cmd Word → Ptr → Result
  | 0, _, _ => .out
  | n + 1, cmd, s =>
    let p := peek s ['<', '>']
    if p.1 then
      let tok := gettoken p.2
      let file := gettoken tok.ps
      if file.ret ≠ 'a' then .fail "missing file for redirection"
      else
        let cmd :=
          if tok.ret = '<' then .redir cmd file.word O_RDONLY 0
          else if tok.ret = '>' then .redir cmd file.word (O_WRONLY ||| O_CREATE ||| O_TRUNC) 1
          else if tok.ret = '+' then .redir cmd file.word (O_WRONLY ||| O_CREATE) 1
          else cmd
        parseredirs n cmd file.ps
    else .ok (cmd, p.2)

/-- `parseexec` keeps a pointer to the `EXEC` inside of the redirections, and writes a word there. -/
def Cmd.pushArg (w : Word) : Cmd Word → Cmd Word
  | .exec argv => .exec (argv ++ [w])
  | .redir cmd file mode fd => .redir (cmd.pushArg w) file mode fd
  | cmd => cmd

/-- The loop of `parseexec`. -/
def parseargs : ℕ → Cmd Word → ℕ → Ptr → Result
  | 0, _, _, _ => .out
  | n + 1, ret, argc, s =>
    let p := peek s ['|', ')', '&', ';']
    if p.1 then .ok (ret, p.2)
    else
      let tok := gettoken p.2
      if tok.ret = NUL then .ok (ret, tok.ps)
      else if tok.ret ≠ 'a' then .fail "syntax"
      else if MAXARGS ≤ argc + 1 then .fail "too many args"
      else (parseredirs n (ret.pushArg tok.word) tok.ps).bind fun r => parseargs n r.1 (argc + 1) r.2

mutual

def parseline : ℕ → Ptr → Result
  | 0, _ => .out
  | n + 1, s =>
    (parsepipe n s).bind fun r => (backs n r.1 r.2).bind fun r =>
      let p := peek r.2 [';']
      if p.1 then (parseline n (gettoken p.2).ps).bind fun l => .ok (.list r.1 l.1, l.2)
      else .ok (r.1, p.2)

def parsepipe : ℕ → Ptr → Result
  | 0, _ => .out
  | n + 1, s =>
    (parseexec n s).bind fun r =>
      let p := peek r.2 ['|']
      if p.1 then (parsepipe n (gettoken p.2).ps).bind fun q => .ok (.pipe r.1 q.1, q.2)
      else .ok (r.1, p.2)

def parseexec : ℕ → Ptr → Result
  | 0, _ => .out
  | n + 1, s =>
    let p := peek s ['(']
    if p.1 then parseblock n p.2
    else (parseredirs n (.exec []) p.2).bind fun r => parseargs n r.1 0 r.2

def parseblock : ℕ → Ptr → Result
  | 0, _ => .out
  | n + 1, s =>
    let p := peek s ['(']
    if ¬ p.1 then .fail "parseblock"
    else (parseline n (gettoken p.2).ps).bind fun r =>
      let p := peek r.2 [')']
      if ¬ p.1 then .fail "syntax - missing )"
      else parseredirs n r.1 (gettoken p.2).ps

end

/-! ### The ends of the words -/

/-- `*eq = 0`, in the line `buf` -/
def nul (buf : List Char) (w : Word) : List Char := buf.set (buf.length - w.eq.length) NUL

def nulterminate : Cmd Word → List Char → List Char
  | .exec argv, buf => argv.foldl nul buf
  | .redir cmd file _ _, buf => nul (nulterminate cmd buf) file
  | .pipe left right, buf => nulterminate right (nulterminate left buf)
  | .list left right, buf => nulterminate right (nulterminate left buf)
  | .back cmd, buf => nulterminate cmd buf

/-- The command that `parsecmd` returns, and the line after it. -/
structure Parsed where
  cmd : Cmd Word
  buf : List Char

/-- `parsecmd(s)` -/
def parsecmd (s : List Char) : Res String Parsed :=
  (parseline (4 * s.length + 4) s).bind fun r =>
    let p := peek r.2 []
    if p.2 ≠ [] then .fail "syntax" else .ok ⟨r.1, nulterminate r.1 s⟩

/-- The C string at the beginning of a word. -/
def cstring (buf : List Char) (w : Word) : List Char :=
  (buf.drop (buf.length - w.q.length)).takeWhile (· ≠ NUL)

/-! ## The tokens of a line -/

/-- The token that `gettoken` has found. -/
def Tok.token (t : Tok) : Token Word :=
  if t.ret = '|' then .bar
  else if t.ret = '(' then .lparen
  else if t.ret = ')' then .rparen
  else if t.ret = ';' then .semi
  else if t.ret = '&' then .amp
  else if t.ret = '<' then .redir .input
  else if t.ret = '>' then .redir .output
  else if t.ret = '+' then .redir .append
  else .word t.word

/-- Call `gettoken` up to `n` times. -/
def tokensUpto : ℕ → Ptr → List (Token Word)
  | 0, _ => []
  | n + 1, s =>
    let t := gettoken s
    if t.ret = NUL then [] else t.token :: tokensUpto n t.ps

/-- The tokens that `gettoken` produces. -/
def tokens (s : Ptr) : List (Token Word) := tokensUpto s.length s

def NulFree (s : Ptr) : Prop := NUL ∉ s

/-- What `gettoken` returns for a token. -/
def Token.ret {W : Type} : Token W → Char
  | .word _ => 'a'
  | .redir .input => '<'
  | .redir .output => '>'
  | .redir .append => '+'
  | .bar => '|'
  | .amp => '&'
  | .semi => ';'
  | .lparen => '('
  | .rparen => ')'

/-- The first character of a token other than a word. -/
def Token.sym {W : Type} : Token W → Option Char
  | .word _ => none
  | .redir .input => some '<'
  | .redir .output => some '>'
  | .redir .append => some '>'
  | .bar => some '|'
  | .amp => some '&'
  | .semi => some ';'
  | .lparen => some '('
  | .rparen => some ')'

variable {s : Ptr}

theorem NulFree.of_suffix {s' : Ptr} (hs : NulFree s) (hsuf : s' <:+ s) : NulFree s' :=
  fun hmem => hs (hsuf.subset hmem)

theorem skip_suffix (s : Ptr) : skip s <:+ s := List.dropWhile_suffix _

@[simp] theorem skip_skip (s : Ptr) : skip (skip s) = skip s := by
  rw [skip, skip, List.dropWhile_idempotent]

theorem skip_cons_notMem {c : Char} {s' : Ptr} (hskip : skip s = c :: s') : c ∉ whitespace := by
  have hhead := List.head?_dropWhile_not (· ∈ whitespace) s
  rw [← skip, hskip] at hhead
  simpa using hhead

theorem scan_symbol {c : Char} (hc : c ∈ symbols) (s' : Ptr) :
    ∃ t : Token Word, t.sym = some c ∧ (scan (c :: s')).1 = t.ret ∧
      ((scan (c :: s')).2 = s' ∨ (scan (c :: s')).2 = s'.tail) := by
  simp only [symbols, List.mem_cons, List.not_mem_nil, or_false] at hc
  rcases hc with rfl | rfl | rfl | rfl | rfl | rfl | rfl
  · exact ⟨.redir .input, rfl, rfl, .inl rfl⟩
  · exact ⟨.bar, rfl, rfl, .inl rfl⟩
  · by_cases hnext : deref s' = '>'
    · exact ⟨.redir .append, rfl, by simp [scan, hnext, NUL, Token.ret], .inr (by simp [scan, hnext, NUL])⟩
    · exact ⟨.redir .output, rfl, by simp [scan, hnext, NUL, Token.ret], .inl (by simp [scan, hnext, NUL])⟩
  · exact ⟨.amp, rfl, rfl, .inl rfl⟩
  · exact ⟨.semi, rfl, rfl, .inl rfl⟩
  · exact ⟨.lparen, rfl, rfl, .inl rfl⟩
  · exact ⟨.rparen, rfl, rfl, .inl rfl⟩

theorem scan_word {c : Char} (hc : c ∉ symbols) (hnul : c ≠ NUL) (s' : Ptr) :
    scan (c :: s') = ('a', (c :: s').dropWhile wordChar) := by
  simp only [symbols, List.mem_cons, List.not_mem_nil, or_false, not_or] at hc
  obtain ⟨hlt, hbar, hgt, hamp, hsemi, hlp, hrp⟩ := hc
  rw [scan, if_neg hnul, if_neg (by simp [*]), if_neg hgt]

theorem Tok.token_eq {tok : Tok} {t : Token Word} (hret : tok.ret = t.ret) (hsym : t.sym ≠ none) :
    tok.token = t := by
  rw [Tok.token, hret]
  cases t with
  | word w => exact absurd rfl hsym
  | redir op => cases op <;> rfl
  | _ => rfl

theorem Tok.token_word {tok : Tok} (hret : tok.ret = 'a') : tok.token = .word tok.word := by
  rw [Tok.token, hret]
  rfl

/-- What `gettoken` finds: the end of the line, or a token, and a pointer behind it. -/
theorem gettoken_cases (hs : NulFree s) :
    (skip s = [] ∧ (gettoken s).ret = NUL ∧ (gettoken s).ps = []) ∨
    ∃ c s' t, skip s = c :: s' ∧ (gettoken s).token = t ∧ (gettoken s).ret = t.ret ∧
      (gettoken s).ps.length < s.length ∧ (gettoken s).ps <:+ s ∧
      (t.sym = some c ∨ t = .word (gettoken s).word ∧ t.sym = none ∧ c ∉ symbols) := by
  cases hskip : skip s with
  | nil =>
    refine .inl ⟨rfl, ?_, ?_⟩ <;> simp only [gettoken, hskip] <;> rfl
  | cons c s' =>
    have hsuf : c :: s' <:+ s := hskip ▸ skip_suffix s
    have hnul : c ≠ NUL := fun heq => hs (heq ▸ hsuf.subset List.mem_cons_self)
    have hret : (gettoken s).ret = (scan (c :: s')).1 := by rw [gettoken, hskip]
    have hps : (gettoken s).ps = skip (scan (c :: s')).2 := by rw [gettoken, hskip]
    by_cases hc : c ∈ symbols
    · obtain ⟨t, hsym, hscan, hrest⟩ := scan_symbol hc s'
      have htok : (gettoken s).token = t := Tok.token_eq (hret.trans hscan) (by rw [hsym]; nofun)
      have hsuf' : (scan (c :: s')).2 <:+ s' := by
        rcases hrest with heq | heq
        · exact ⟨[], heq⟩
        · rw [heq]
          exact List.tail_suffix s'
      have hps' : (gettoken s).ps <:+ s' := by
        rw [hps]
        exact (skip_suffix _).trans hsuf'
      refine .inr ⟨c, s', t, rfl, htok, hret.trans hscan, ?_, ?_, .inl hsym⟩
      · exact Nat.lt_of_le_of_lt hps'.length_le (Nat.lt_of_succ_le hsuf.length_le)
      · exact hps'.trans ((List.suffix_cons c s').trans hsuf)
    · have hword : wordChar c = true := by
        have hws := skip_cons_notMem hskip
        simp [wordChar, hws, hc]
      have hscan := scan_word hc hnul s'
      have hps' : (gettoken s).ps <:+ s' := by
        rw [hps, hscan, List.dropWhile_cons_of_pos hword]
        exact (skip_suffix _).trans (List.dropWhile_suffix _)
      have hret' : (gettoken s).ret = 'a' := by rw [hret, hscan]
      refine .inr ⟨c, s', _, rfl, Tok.token_word hret', hret', ?_, ?_, .inr ⟨rfl, rfl, hc⟩⟩
      · exact Nat.lt_of_le_of_lt hps'.length_le (Nat.lt_of_succ_le hsuf.length_le)
      · exact hps'.trans ((List.suffix_cons c s').trans hsuf)

theorem Token.ret_ne_nul {W : Type} (t : Token W) : t.ret ≠ NUL := by
  cases t with
  | redir op => cases op <;> simp [Token.ret, NUL]
  | _ => simp [Token.ret, NUL]

theorem tokensUpto_eq {n m : ℕ} (hs : NulFree s) (hn : s.length ≤ n) (hm : s.length ≤ m) :
    tokensUpto n s = tokensUpto m s := by
  induction n generalizing m s with
  | zero =>
    obtain rfl : s = [] := List.eq_nil_of_length_eq_zero (Nat.le_zero.mp hn)
    cases m with
    | zero => rfl
    | succ m => rfl
  | succ n ih =>
    cases m with
    | zero =>
      obtain rfl : s = [] := List.eq_nil_of_length_eq_zero (Nat.le_zero.mp hm)
      rfl
    | succ m =>
      rw [tokensUpto, tokensUpto]
      rcases gettoken_cases hs with ⟨-, hret, -⟩ | ⟨c, s', t, -, -, -, hlen, hsuf, -⟩
      · simp only [hret, if_true]
      · have heq := ih (hs.of_suffix hsuf) (by omega) (m := m) (by omega)
        simp only [heq]

theorem tokens_eq (hs : NulFree s) :
    tokens s = if (gettoken s).ret = NUL then [] else (gettoken s).token :: tokens (gettoken s).ps := by
  rw [tokens, tokensUpto_eq hs (Nat.le_refl _) (Nat.le_succ _), tokensUpto]
  rcases gettoken_cases hs with ⟨-, hret, -⟩ | ⟨c, s', t, -, -, -, hlen, hsuf, -⟩
  · simp only [hret, if_true]
  · have heq := tokensUpto_eq (hs.of_suffix hsuf) hlen.le (Nat.le_refl (gettoken s).ps.length)
    simp only [heq, tokens]

/-- `gettoken` at a token. -/
structure GotToken (s : Ptr) (t : Token Word) (ts : List (Token Word)) : Prop where
  ret : (gettoken s).ret = t.ret
  tokens : tokens (gettoken s).ps = ts
  nulFree : NulFree (gettoken s).ps
  word : ∀ w, t = .word w → (gettoken s).word = w

theorem gettoken_cons {t : Token Word} {ts : List (Token Word)} (hs : NulFree s)
    (heq : tokens s = t :: ts) : GotToken s t ts := by
  rw [tokens_eq hs] at heq
  rcases gettoken_cases hs with ⟨-, hret, -⟩ | ⟨c, s', t', -, htok, hret, -, hsuf, hword⟩
  · rw [if_pos hret] at heq
    exact nomatch heq
  · rw [if_neg (by rw [hret]; exact t'.ret_ne_nul), htok] at heq
    obtain ⟨rfl, hts⟩ := List.cons.inj heq
    refine ⟨hret, hts, hs.of_suffix hsuf, ?_⟩
    rintro w rfl
    rcases hword with hsym | ⟨hw, -⟩
    · exact nomatch hsym
    · exact (Token.word.inj hw).symm

theorem Token.ret_eq_a {W : Type} {t : Token W} (hret : t.ret = 'a') : ∃ w, t = .word w := by
  cases t with
  | word w => exact ⟨w, rfl⟩
  | redir op => cases op <;> simp [Token.ret] at hret
  | _ => simp [Token.ret] at hret

theorem gettoken_nil (hs : NulFree s) (heq : tokens s = []) :
    (gettoken s).ret = NUL ∧ (gettoken s).ps = [] := by
  rw [tokens_eq hs] at heq
  rcases gettoken_cases hs with ⟨-, hret, hps⟩ | ⟨c, s', t', -, -, hret, -⟩
  · exact ⟨hret, hps⟩
  · rw [if_neg (by rw [hret]; exact t'.ret_ne_nul)] at heq
    exact nomatch heq

theorem ret_eq_a_iff (hs : NulFree s) :
    (gettoken s).ret = 'a' ↔ ∃ w ts, tokens s = .word w :: ts := by
  constructor
  · intro hret
    cases htok : tokens s with
    | nil =>
      rw [(gettoken_nil hs htok).1] at hret
      exact absurd hret (by decide)
    | cons t ts =>
      rw [(gettoken_cons hs htok).ret] at hret
      obtain ⟨w, rfl⟩ := Token.ret_eq_a hret
      exact ⟨w, ts, rfl⟩
  · rintro ⟨w, ts, htok⟩
    exact (gettoken_cons hs htok).ret

theorem peek_iff (hs : NulFree s) (toks : List Char) (htoks : toks ⊆ symbols) :
    (peek s toks).1 = true ↔ ∃ t ts, tokens s = t :: ts ∧ ∃ c ∈ toks, t.sym = some c := by
  rw [tokens_eq hs, peek]
  rcases gettoken_cases hs with ⟨hskip, hret, -⟩ | ⟨c, s', t, hskip, htok, hret, -, -, hword⟩
  · simp [hskip, hret, deref]
  · have hnul : c ≠ NUL := by
      rintro rfl
      exact hs ((skip_suffix s).subset (hskip ▸ List.mem_cons_self))
    rw [if_neg (by rw [hret]; exact t.ret_ne_nul), hskip, htok]
    rcases hword with hsym | ⟨-, hsym, hc⟩
    · simp [deref, hnul, hsym]
    · constructor
      · intro hpeek
        have hmem : c ∈ toks := by simpa [deref, hnul] using hpeek
        exact absurd (htoks hmem) hc
      · rintro ⟨t', ts, htok', c', -, hsym'⟩
        obtain rfl : t = t' := (List.cons.inj htok').1
        rw [hsym] at hsym'
        exact nomatch hsym'

@[simp] theorem gettoken_peek (s : Ptr) (toks : List Char) : gettoken (peek s toks).2 = gettoken s := by
  rw [gettoken, peek, skip_skip, gettoken]

theorem NulFree.peek (hs : NulFree s) (toks : List Char) : NulFree (peek s toks).2 :=
  hs.of_suffix (skip_suffix s)

theorem tokens_peek (hs : NulFree s) (toks : List Char) : tokens (peek s toks).2 = tokens s := by
  rw [tokens_eq (hs.peek toks), gettoken_peek, ← tokens_eq hs]

/-! ## The parser over characters and the parser over tokens -/

/-- The outcomes are the same: commands for derivations, and characters for tokens. -/
inductive Sim {δ : Type} (f : δ → Cmd Word) : Result → Parse.Result Word δ → Prop
  | out : Sim f .out .out
  | fail (e : String) : Sim f (.fail e) (.fail e)
  | ok (d : δ) (s : Ptr) (hs : NulFree s) : Sim f (.ok (f d, s)) (.ok (d, tokens s))

variable {δ δ' : Type} {f : δ → Cmd Word} {g : δ' → Cmd Word}

theorem Sim.bind {x : Result} {y : Parse.Result Word δ} {k : Cmd Word × Ptr → Result}
    {l : δ × List (Token Word) → Parse.Result Word δ'} (hx : Sim f x y)
    (hk : ∀ d s, NulFree s → Sim g (k (f d, s)) (l (d, tokens s))) : Sim g (x.bind k) (y.bind l) := by
  cases hx with
  | out => exact .out
  | fail e => exact .fail e
  | ok d s hs => exact hk d s hs

/-- The parser over tokens builds its result on the way back. -/
theorem Sim.map {x : Result} {y : Parse.Result Word δ} {h : δ → δ'} (hx : Sim (fun d => g (h d)) x y) :
    Sim g x (y.bind fun r => .ok (h r.1, r.2)) := by
  cases hx with
  | out => exact .out
  | fail e => exact .fail e
  | ok d s hs => exact .ok (h d) s hs

theorem Sim.peek {cmd : Cmd Word} {s : Ptr} (d : δ) (hd : f d = cmd) (hs : NulFree s)
    (toks : List Char) : Sim f (.ok (cmd, (Sh.peek s toks).2)) (.ok (d, tokens s)) := by
  rw [← hd, ← tokens_peek hs toks]
  exact .ok d _ (hs.peek toks)

theorem Token.eq_of_sym {W : Type} {t t' : Token W} {c : Char} (hsym : t.sym = some c)
    (hne : ∀ op, t ≠ .redir op) (hsym' : t'.sym = some c) : t' = t := by
  cases t with
  | word w => exact nomatch hsym
  | redir op => exact absurd rfl (hne op)
  | _ =>
    obtain rfl := Option.some.inj hsym
    cases t' with
    | redir op => cases op <;> simp [Token.sym] at hsym'
    | _ => first | rfl | simp [Token.sym] at hsym'

theorem peek_sym (hs : NulFree s) {t : Token Word} {c : Char} (hc : c ∈ symbols)
    (hsym : t.sym = some c) (hne : ∀ op, t ≠ .redir op) :
    (peek s [c]).1 = true ↔ ∃ ts, tokens s = t :: ts := by
  rw [peek_iff hs _ (by simpa using hc)]
  constructor
  · rintro ⟨t', ts, htok, c', hc', hsym'⟩
    rw [List.mem_singleton.mp hc'] at hsym'
    rw [Token.eq_of_sym hsym hne hsym'] at htok
    exact ⟨ts, htok⟩
  · rintro ⟨ts, htok⟩
    exact ⟨t, ts, htok, c, List.mem_singleton_self c, hsym⟩

theorem peek_amp (hs : NulFree s) : (peek s ['&']).1 = true ↔ ∃ ts, tokens s = .amp :: ts :=
  peek_sym hs (by decide) rfl nofun

theorem peek_semi (hs : NulFree s) : (peek s [';']).1 = true ↔ ∃ ts, tokens s = .semi :: ts :=
  peek_sym hs (by decide) rfl nofun

theorem peek_bar (hs : NulFree s) : (peek s ['|']).1 = true ↔ ∃ ts, tokens s = .bar :: ts :=
  peek_sym hs (by decide) rfl nofun

theorem peek_lparen (hs : NulFree s) : (peek s ['(']).1 = true ↔ ∃ ts, tokens s = .lparen :: ts :=
  peek_sym hs (by decide) rfl nofun

theorem peek_rparen (hs : NulFree s) : (peek s [')']).1 = true ↔ ∃ ts, tokens s = .rparen :: ts :=
  peek_sym hs (by decide) rfl nofun

theorem peek_redir (hs : NulFree s) :
    (peek s ['<', '>']).1 = true ↔ ∃ op ts, tokens s = .redir op :: ts := by
  rw [peek_iff hs _ (by decide)]
  constructor
  · rintro ⟨t, ts, htok, c, hc, hsym⟩
    cases t with
    | redir op => exact ⟨op, ts, htok⟩
    | word w => exact nomatch hsym
    | _ =>
      obtain rfl := Option.some.inj hsym
      exact absurd hc (by decide)
  · rintro ⟨op, ts, htok⟩
    cases op with
    | input => exact ⟨_, ts, htok, '<', by decide, rfl⟩
    | output => exact ⟨_, ts, htok, '>', by decide, rfl⟩
    | append => exact ⟨_, ts, htok, '>', by decide, rfl⟩

/-- The loop of `parseexec` ends at what can follow a command. -/
theorem peek_ends (hs : NulFree s) :
    (peek s ['|', ')', '&', ';']).1 = true ↔ ∃ t ts, tokens s = t :: ts ∧ Parse.EndsExec t := by
  rw [peek_iff hs _ (by decide)]
  refine exists_congr fun t => exists_congr fun ts => and_congr_right fun _ => ?_
  cases t with
  | redir op => cases op <;> simp [Token.sym, Parse.EndsExec]
  | _ => simp [Token.sym, Parse.EndsExec]

theorem backs_sim (n : ℕ) (cmd : Cmd Word) (hs : NulFree s) :
    Sim (fun k => Nat.iterate .back k cmd) (backs n cmd s) (Parse.amps n (tokens s)) := by
  induction n generalizing cmd s with
  | zero => exact .out
  | succ n ih =>
    rw [backs]
    by_cases hamp : ∃ ts, tokens s = .amp :: ts
    · obtain ⟨ts, htok⟩ := hamp
      have hgot := gettoken_cons hs htok
      simp only [(peek_amp hs).mpr ⟨ts, htok⟩, if_true, gettoken_peek]
      rw [htok, Parse.amps, ← hgot.tokens]
      exact Sim.map (ih (.back cmd) hgot.nulFree)
    · have hpeek : ¬ (peek s ['&']).1 = true := mt (peek_amp hs).mp hamp
      simp only [if_neg hpeek]
      rw [Parse.amps_of_ne hamp]
      exact Sim.peek 0 rfl hs _

theorem parseredirs_sim (n : ℕ) (cmd : Cmd Word) (hs : NulFree s) :
    Sim (fun rs => rs.foldl Redir.wrap cmd) (parseredirs n cmd s) (Parse.redirs n (tokens s)) := by
  induction n generalizing cmd s with
  | zero => exact .out
  | succ n ih =>
    rw [parseredirs]
    by_cases hredir : ∃ op ts, tokens s = .redir op :: ts
    · obtain ⟨op, ts, htok⟩ := hredir
      have hgot := gettoken_cons hs htok
      simp only [(peek_redir hs).mpr ⟨op, ts, htok⟩, if_true, gettoken_peek, htok]
      by_cases hword : ∃ w ts', ts = .word w :: ts'
      · obtain ⟨w, ts', rfl⟩ := hword
        have hfile := gettoken_cons hgot.nulFree hgot.tokens
        have hret : (gettoken (gettoken s).ps).ret = 'a' := hfile.ret
        rw [if_neg (not_not.mpr hret), Parse.redirs, ← hfile.tokens, hfile.word w rfl]
        have hcmd : (if (gettoken s).ret = '<' then Cmd.redir cmd w O_RDONLY 0
            else if (gettoken s).ret = '>' then .redir cmd w (O_WRONLY ||| O_CREATE ||| O_TRUNC) 1
            else if (gettoken s).ret = '+' then .redir cmd w (O_WRONLY ||| O_CREATE) 1
            else cmd) = Redir.wrap cmd ⟨op, w⟩ := by
          rw [hgot.ret]
          cases op <;> rfl
        rw [hcmd]
        exact Sim.map (ih _ hfile.nulFree)
      · -- another token or the end of the line is where the file should be
        have hret : (gettoken (gettoken s).ps).ret ≠ 'a' := by
          rw [Ne, ret_eq_a_iff hgot.nulFree, hgot.tokens]
          exact hword
        rw [if_pos hret, Parse.redirs]
        · exact .fail _
        · exact fun w ts' heq => hword ⟨w, ts', heq⟩
    · have hpeek : ¬ (peek s ['<', '>']).1 = true := mt (peek_redir hs).mp hredir
      simp only [if_neg hpeek]
      rw [Parse.redirs_of_ne hredir]
      exact Sim.peek [] rfl hs _

theorem Cmd.pushArg_wrap (rs : List (Redir Word)) (cmd : Cmd Word) (w : Word) :
    (rs.foldl Redir.wrap cmd).pushArg w = rs.foldl Redir.wrap (cmd.pushArg w) := by
  induction rs generalizing cmd with
  | nil => rfl
  | cons r rs ih => exact ih _

/-- A command with the redirections and the words that were found. -/
def simple (rs : List (Redir Word)) (ws : List Word) : Cmd Word := rs.foldl Redir.wrap (.exec ws)

theorem parseargs_sim (n argc : ℕ) (rs : List (Redir Word)) (ws : List Word) (hs : NulFree s) :
    Sim (fun as => simple (rs ++ as.flatMap Arg.redirs) (ws ++ as.map Arg.word))
      (parseargs n (simple rs ws) argc s) (Parse.args n argc (tokens s)) := by
  induction n generalizing argc rs ws s with
  | zero => exact .out
  | succ n ih =>
    have hdone : simple (rs ++ [].flatMap Arg.redirs) (ws ++ [].map Arg.word) = simple rs ws := by
      rw [List.flatMap_nil, List.map_nil, List.append_nil, List.append_nil]
    rw [parseargs]
    by_cases hends : ∃ t ts, tokens s = t :: ts ∧ Parse.EndsExec t
    · simp only [(peek_ends hs).mpr hends, if_true]
      obtain ⟨t, ts, htok, ht⟩ := hends
      have hargs : Parse.args (n + 1) argc (tokens s) = .ok ([], tokens s) := by
        rw [htok]
        cases t with
        | word w => exact ht.elim
        | redir op => exact ht.elim
        | lparen => exact ht.elim
        | _ => rfl
      rw [hargs]
      exact Sim.peek [] hdone hs _
    · have hpeek : ¬ (peek s ['|', ')', '&', ';']).1 = true := mt (peek_ends hs).mp hends
      simp only [if_neg hpeek, gettoken_peek]
      cases htok : tokens s with
      | nil =>
        obtain ⟨hret, hps⟩ := gettoken_nil hs htok
        rw [if_pos hret, hps, ← hdone]
        exact .ok [] [] nofun
      | cons t ts =>
        have hgot := gettoken_cons hs htok
        rw [if_neg (by rw [hgot.ret]; exact t.ret_ne_nul)]
        by_cases hword : ∃ w, t = .word w
        · obtain ⟨w, rfl⟩ := hword
          have hret : (gettoken s).ret = 'a' := hgot.ret
          rw [if_neg (not_not.mpr hret), Parse.args]
          split_ifs with hmax
          · exact .fail _
          · rw [hgot.word w rfl, simple, Cmd.pushArg_wrap, ← hgot.tokens]
            refine (parseredirs_sim n _ hgot.nulFree).bind fun rs' s' hs' => ?_
            have hcmd : rs'.foldl Redir.wrap (rs.foldl Redir.wrap (Cmd.pushArg w (.exec ws))) =
                simple (rs ++ rs') (ws ++ [w]) := by
              rw [simple, List.foldl_append]
              rfl
            have hfun : ∀ as : List (Arg Word),
                simple (rs ++ (⟨w, rs'⟩ :: as).flatMap Arg.redirs) (ws ++ (⟨w, rs'⟩ :: as).map Arg.word) =
                  simple (rs ++ rs' ++ as.flatMap Arg.redirs) (ws ++ [w] ++ as.map Arg.word) := by
              intro as
              rw [List.flatMap_cons, List.map_cons, List.append_assoc, List.append_assoc]
              rfl
            rw [hcmd]
            refine Sim.map (h := fun as : List (Arg Word) => ⟨w, rs'⟩ :: as) ?_
            simp only [hfun]
            exact ih (argc + 1) (rs ++ rs') (ws ++ [w]) hs'
        · have hret : (gettoken s).ret ≠ 'a' := by
            rw [hgot.ret]
            exact fun h => hword (Token.ret_eq_a h)
          rw [if_pos hret]
          cases t with
          | word w => exact absurd ⟨w, rfl⟩ hword
          | redir op => exact .fail _
          | lparen => exact .fail _
          | _ => exact absurd ⟨_, ts, htok, trivial⟩ hends

/-- **The parser of `sh.c` is the parser of the grammar.** -/
theorem parseline_sim (n : ℕ) :
    (∀ s, NulFree s → Sim Line.tree (parseline n s) (Parse.line n (tokens s))) ∧
    (∀ s, NulFree s → Sim Pipe.tree (parsepipe n s) (Parse.pipe n (tokens s))) ∧
    (∀ s, NulFree s → Sim Exec.tree (parseexec n s) (Parse.exec n (tokens s))) ∧
    ∀ s ts, NulFree s → tokens s = .lparen :: ts → Sim Exec.tree (parseblock n s) (Parse.block n ts) := by
  induction n with
  | zero => exact ⟨fun _ _ => .out, fun _ _ => .out, fun _ _ => .out, fun _ _ _ _ => .out⟩
  | succ n ih =>
    obtain ⟨hline, hpipe, hexec, hblock⟩ := ih
    refine ⟨fun s hs => ?_, fun s hs => ?_, fun s hs => ?_, fun s ts hs htok => ?_⟩
    · rw [parseline, Parse.line]
      refine (hpipe s hs).bind fun p s hs => (backs_sim n _ hs).bind fun k s hs => ?_
      by_cases hsemi : ∃ ts, tokens s = .semi :: ts
      · simp only [(peek_semi hs).mpr hsemi, if_true, gettoken_peek]
        obtain ⟨ts, htok⟩ := hsemi
        have hgot := gettoken_cons hs htok
        simp only [htok, ← hgot.tokens]
        exact (hline _ hgot.nulFree).bind fun l s hs => .ok (Line.seq p k l) s hs
      · have hpeek : ¬ (peek s [';']).1 = true := mt (peek_semi hs).mp hsemi
        simp only [if_neg hpeek]
        split
        · rename_i ts htok
          exact absurd ⟨ts, htok⟩ hsemi
        · exact Sim.peek (Line.last p k) rfl hs _
    · rw [parsepipe, Parse.pipe]
      refine (hexec s hs).bind fun e s hs => ?_
      by_cases hbar : ∃ ts, tokens s = .bar :: ts
      · simp only [(peek_bar hs).mpr hbar, if_true, gettoken_peek]
        obtain ⟨ts, htok⟩ := hbar
        have hgot := gettoken_cons hs htok
        simp only [htok, ← hgot.tokens]
        exact (hpipe _ hgot.nulFree).bind fun p s hs => .ok (Pipe.bar e p) s hs
      · have hpeek : ¬ (peek s ['|']).1 = true := mt (peek_bar hs).mp hbar
        simp only [if_neg hpeek]
        split
        · rename_i ts htok
          exact absurd ⟨ts, htok⟩ hbar
        · exact Sim.peek (Pipe.last e) rfl hs _
    · rw [parseexec]
      by_cases hparen : ∃ ts, tokens s = .lparen :: ts
      · simp only [(peek_lparen hs).mpr hparen, if_true]
        obtain ⟨ts, htok⟩ := hparen
        rw [htok, Parse.exec]
        exact hblock _ ts (hs.peek _) ((tokens_peek hs _).trans htok)
      · have hpeek : ¬ (peek s ['(']).1 = true := mt (peek_lparen hs).mp hparen
        simp only [if_neg hpeek]
        rw [Parse.exec_of_ne hparen, ← tokens_peek hs ['(']]
        refine (parseredirs_sim n _ (hs.peek _)).bind fun rs s hs => ?_
        exact Sim.map (h := Exec.simple rs) (parseargs_sim n 0 rs [] hs)
    · have hgot := gettoken_cons hs htok
      rw [parseblock, Parse.block, ← hgot.tokens]
      simp only [(peek_lparen hs).mpr ⟨ts, htok⟩, not_true, if_false, gettoken_peek]
      refine (hline _ hgot.nulFree).bind fun l s hs => ?_
      by_cases hparen : ∃ ts, tokens s = .rparen :: ts
      · simp only [(peek_rparen hs).mpr hparen, not_true, if_false]
        obtain ⟨ts, htok⟩ := hparen
        have hgot := gettoken_cons hs htok
        simp only [htok, ← hgot.tokens]
        exact Sim.map (h := Exec.block l) (parseredirs_sim n _ hgot.nulFree)
      · have hpeek : ¬ (peek s [')']).1 = true := mt (peek_rparen hs).mp hparen
        simp only [if_pos hpeek]
        split
        · rename_i ts htok
          exact absurd ⟨ts, htok⟩ hparen
        · exact .fail _

end Xv6.Sh
