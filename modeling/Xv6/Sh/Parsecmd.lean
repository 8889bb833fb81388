import Xv6.Sh.Parser

/-!
# What `parsecmd` returns

`parsecmd` accepts the lines whose tokens the grammar derives, and returns the command of the derivation.
The words of the command are pointers into the line; that they are strings there is due to
`nulterminate`, which puts a NUL behind each of them and overwrites no character of another word.
-/

namespace Xv6.Sh

open Fuel

/-! ## The words of a line -/

/-- The characters of a word. -/
def Word.text (w : Word) : List Char := w.q.take (w.q.length - w.eq.length)

/-- A word of the line `s`: it ends where its characters end. -/
structure Word.In (w : Word) (s : Ptr) : Prop where
  suffix : w.q <:+ s
  split : w.q = w.text ++ w.eq
  chars : ∀ c ∈ w.text, wordChar c = true
  stops : ∀ c ∈ w.eq.head?, wordChar c = false

variable {s : Ptr} {w : Word}

theorem Word.In.of_suffix {s' : Ptr} (hw : w.In s') (hsuf : s' <:+ s) : w.In s :=
  ⟨hw.suffix.trans hsuf, hw.split, hw.chars, hw.stops⟩

theorem Word.text_append (t e : List Char) : Word.text ⟨t ++ e, e⟩ = t := by
  rw [Word.text, List.length_append, Nat.add_sub_cancel, List.take_left]

theorem word_in_dropWhile (q : Ptr) : Word.In ⟨q, q.dropWhile wordChar⟩ q := by
  have htext := Word.text_append (q.takeWhile wordChar) (q.dropWhile wordChar)
  rw [List.takeWhile_append_dropWhile] at htext
  refine ⟨List.suffix_refl q, ?_, ?_, ?_⟩
  · rw [htext]
    exact List.takeWhile_append_dropWhile.symm
  · rw [htext]
    exact fun c hc => List.mem_takeWhile_imp hc
  · intro c hc
    have hhead := List.head?_dropWhile_not wordChar q
    rw [Option.mem_def.mp hc] at hhead
    exact hhead

theorem gettoken_word_in (hs : NulFree s) (hret : (gettoken s).ret ≠ NUL)
    (heq : (gettoken s).token = .word w) : w.In s := by
  rcases gettoken_cases hs with ⟨-, hnul, -⟩ | ⟨c, s', t, hskip, htok, -, -, -, hword⟩
  · exact absurd hnul hret
  · rw [htok] at heq
    rcases hword with hsym | ⟨hw, -, hc⟩
    · rw [heq] at hsym
      exact nomatch hsym
    · have hnul : c ≠ NUL := by
        rintro rfl
        exact hs ((skip_suffix s).subset (hskip ▸ List.mem_cons_self))
      obtain rfl : w = (gettoken s).word := Token.word.inj (heq.symm.trans hw)
      have hgot : (gettoken s).word = ⟨skip s, (skip s).dropWhile wordChar⟩ := by
        rw [gettoken, hskip, scan_word hc hnul]
      rw [hgot]
      exact (word_in_dropWhile _).of_suffix (skip_suffix s)

theorem tokens_word_in (hs : NulFree s) (hw : .word w ∈ tokens s) : w.In s := by
  rw [tokens] at hw
  generalize s.length = n at hw
  induction n generalizing s with
  | zero => cases hw
  | succ n ih =>
    rw [tokensUpto] at hw
    by_cases hret : (gettoken s).ret = NUL
    · simp only [if_pos hret] at hw
      cases hw
    · simp only [if_neg hret] at hw
      rcases List.mem_cons.mp hw with heq | hw
      · exact gettoken_word_in hs hret heq.symm
      · have hsuf : (gettoken s).ps <:+ s := by
          rcases gettoken_cases hs with ⟨-, hnul, -⟩ | ⟨c, s', t, -, -, -, -, hsuf, -⟩
          · exact absurd hnul hret
          · exact hsuf
        exact (ih (hs.of_suffix hsuf) hw).of_suffix hsuf

/-! ## The words of a command -/

def Cmd.words {W : Type} : Cmd W → List W
  | .exec argv => argv
  | .redir cmd file _ _ => cmd.words ++ [file]
  | .pipe left right => left.words ++ right.words
  | .list left right => left.words ++ right.words
  | .back cmd => cmd.words

section Derivations

variable {W : Type}

theorem Cmd.words_wrap (rs : List (Redir W)) (cmd : Cmd W) :
    (rs.foldl Redir.wrap cmd).words = cmd.words ++ rs.map Redir.file := by
  induction rs generalizing cmd with
  | nil => exact (List.append_nil _).symm
  | cons r rs ih =>
    rw [List.foldl_cons, ih, Redir.wrap, Cmd.words, List.append_assoc]
    rfl

theorem Cmd.words_backs (k : ℕ) (cmd : Cmd W) : (Nat.iterate Cmd.back k cmd).words = cmd.words := by
  induction k generalizing cmd with
  | zero => rfl
  | succ k ih => exact ih (.back cmd)

theorem Redir.file_mem {rs : List (Redir W)} {w : W} (hw : w ∈ rs.map Redir.file) :
    .word w ∈ rs.flatMap Redir.yield := by
  obtain ⟨r, hr, rfl⟩ := List.mem_map.mp hw
  exact List.mem_flatMap.mpr ⟨r, hr, by simp [Redir.yield]⟩

mutual

theorem Line.words_mem : (d : Line W) → (w : W) → w ∈ d.tree.words → .word w ∈ d.yield
  | .last p k, w, hw => by
    rw [Line.tree, Cmd.words_backs] at hw
    exact List.mem_append_left _ (p.words_mem w hw)
  | .seq p k l, w, hw => by
    rw [Line.tree, Cmd.words, Cmd.words_backs] at hw
    rw [Line.yield]
    rcases List.mem_append.mp hw with hw | hw
    · exact List.mem_append_left _ (p.words_mem w hw)
    · exact List.mem_append_right _ (List.mem_append_right _ (List.mem_cons_of_mem _ (l.words_mem w hw)))

theorem Pipe.words_mem : (d : Pipe W) → (w : W) → w ∈ d.tree.words → .word w ∈ d.yield
  | .last e, w, hw => e.words_mem w hw
  | .bar e p, w, hw => by
    rw [Pipe.yield]
    rcases List.mem_append.mp hw with hw | hw
    · exact List.mem_append_left _ (e.words_mem w hw)
    · exact List.mem_append_right _ (List.mem_cons_of_mem _ (p.words_mem w hw))

theorem Exec.words_mem : (d : Exec W) → (w : W) → w ∈ d.tree.words → .word w ∈ d.yield
  | .block l rs, w, hw => by
    rw [Exec.tree, Cmd.words_wrap] at hw
    rw [Exec.yield]
    refine List.mem_cons_of_mem _ ?_
    rcases List.mem_append.mp hw with hw | hw
    · exact List.mem_append_left _ (l.words_mem w hw)
    · exact List.mem_append_right _ (List.mem_cons_of_mem _ (Redir.file_mem hw))
  | .simple rs as, w, hw => by
    rw [Exec.tree, Cmd.words_wrap, Cmd.words, List.map_append] at hw
    rw [Exec.yield]
    simp only [List.mem_append] at hw ⊢
    rcases hw with hw | hw | hw
    · obtain ⟨a, ha, rfl⟩ := List.mem_map.mp hw
      exact .inr (List.mem_flatMap.mpr ⟨a, ha, List.mem_cons_self⟩)
    · exact .inl (Redir.file_mem hw)
    · obtain ⟨r, hr, rfl⟩ := List.mem_map.mp hw
      obtain ⟨a, ha, hra⟩ := List.mem_flatMap.mp hr
      refine .inr (List.mem_flatMap.mpr ⟨a, ha, List.mem_cons_of_mem _ ?_⟩)
      exact Redir.file_mem (List.mem_map_of_mem hra)

end

end Derivations

/-! ## The strings in the line -/

theorem nulterminate_eq (cmd : Cmd Word) (buf : List Char) :
    nulterminate cmd buf = cmd.words.foldl nul buf := by
  induction cmd generalizing buf with
  | exec argv => rfl
  | redir cmd file mode fd ih =>
    rw [nulterminate, ih, Cmd.words, List.foldl_append]
    rfl
  | pipe left right ihl ihr => rw [nulterminate, ihl, ihr, Cmd.words, List.foldl_append]
  | list left right ihl ihr => rw [nulterminate, ihl, ihr, Cmd.words, List.foldl_append]
  | back cmd ih => exact ih buf

theorem getElem?_of_suffix {s e : List Char} (hsuf : e <:+ s) (i : ℕ) :
    s[s.length - e.length + i]? = e[i]? := by
  obtain ⟨t, rfl⟩ := hsuf
  rw [List.length_append, Nat.add_sub_cancel, List.getElem?_append_right (Nat.le_add_right ..),
    Nat.add_sub_cancel_left]

theorem Word.In.eq_suffix (hw : w.In s) : w.eq <:+ s :=
  List.IsSuffix.trans ⟨w.text, hw.split.symm⟩ hw.suffix

/-- The characters of words are as they were. -/
structure Kept (s buf : List Char) : Prop where
  length : buf.length = s.length
  chars : ∀ (i : ℕ) (c : Char), s[i]? = some c → wordChar c = true → buf[i]? = some c

/-- There is a NUL behind the word, or the line ends there. -/
def Ended (buf : List Char) (w : Word) : Prop := ∀ c ∈ buf[buf.length - w.eq.length]?, c = NUL

theorem Kept.nul {buf : List Char} (hk : Kept s buf) (hw : w.In s) : Kept s (nul buf w) := by
  refine ⟨?_, ?_⟩
  · rw [Sh.nul, List.length_set]
    exact hk.length
  · intro i c hc hword
    have hne : buf.length - w.eq.length ≠ i := by
      rintro rfl
      have hend := getElem?_of_suffix hw.eq_suffix 0
      rw [Nat.add_zero, ← hk.length, hc, ← List.head?_eq_getElem?] at hend
      rw [hw.stops c hend.symm] at hword
      exact nomatch hword
    rw [Sh.nul, List.getElem?_set_ne hne]
    exact hk.chars i c hc hword

theorem ended_nul (buf : List Char) (w : Word) : Ended (nul buf w) w := by
  intro c hc
  rw [nul, List.length_set, List.getElem?_set_self'] at hc
  obtain ⟨d, -, hd⟩ := Option.map_eq_some_iff.mp hc
  exact hd.symm

theorem Ended.nul {buf : List Char} {w' : Word} (he : Ended buf w) : Ended (nul buf w') w := by
  intro c hc
  rw [Sh.nul, List.length_set, List.getElem?_set] at hc
  split_ifs at hc with heq hlt
  · exact (Option.some.inj hc).symm
  · exact nomatch hc
  · exact he c hc

theorem foldl_nul (ws : List Word) (hws : ∀ w ∈ ws, w.In s) :
    Kept s (ws.foldl nul s) ∧ ∀ w ∈ ws, Ended (ws.foldl nul s) w := by
  induction ws using List.reverseRecOn with
  | nil => exact ⟨⟨rfl, fun i c hc _ => hc⟩, nofun⟩
  | append_singleton ws w ih =>
    obtain ⟨hk, he⟩ := ih fun w' hw' => hws w' (List.mem_append_left _ hw')
    rw [List.foldl_append, List.foldl_cons, List.foldl_nil]
    refine ⟨hk.nul (hws w (by simp)), fun w' hw' => ?_⟩
    rcases List.mem_append.mp hw' with hw' | hw'
    · exact (he w' hw').nul
    · rw [List.mem_singleton.mp hw']
      exact ended_nul _ w

theorem cstring_eq {buf : List Char} (hs : NulFree s) (hw : w.In s) (hk : Kept s buf)
    (he : Ended buf w) : cstring buf w = w.text := by
  have hlen : w.q.length = w.text.length + w.eq.length := by
    rw [← List.length_append, ← hw.split]
  have hle := hw.suffix.length_le
  -- the characters of the word are in the buffer
  have htext : (buf.drop (buf.length - w.q.length)).take w.text.length = w.text := by
    refine List.ext_getElem? fun i => ?_
    rw [List.getElem?_take]
    split_ifs with hi
    · have hc : w.text[i]? = some w.text[i] := List.getElem?_eq_getElem hi
      rw [List.getElem?_drop, hk.length, hc]
      refine hk.chars _ _ ?_ (hw.chars _ (List.getElem_mem hi))
      rw [getElem?_of_suffix hw.suffix, hw.split, List.getElem?_append_left hi, hc]
    · exact (List.getElem?_eq_none (Nat.le_of_not_lt hi)).symm
  -- and the string ends behind them
  have hrest : ((buf.drop (buf.length - w.q.length)).drop w.text.length).takeWhile (· ≠ NUL) = [] := by
    have hpos : buf.length - w.q.length + w.text.length = buf.length - w.eq.length := by
      rw [hk.length]
      omega
    rw [List.drop_drop, hpos]
    cases hdrop : buf.drop (buf.length - w.eq.length) with
    | nil => rfl
    | cons c rest =>
      have hc : buf[buf.length - w.eq.length]? = some c := by
        rw [← List.head?_drop, hdrop]
        rfl
      rw [he c hc, List.takeWhile_cons_of_neg (by simp)]
  rw [cstring, ← List.take_append_drop w.text.length (buf.drop (buf.length - w.q.length)), htext,
    List.takeWhile_append_of_pos, hrest, List.append_nil]
  intro c hc
  have hmem : c ∈ s := hw.suffix.subset (hw.split ▸ List.mem_append_left _ hc)
  exact decide_eq_true fun heq => hs (heq ▸ hmem)

theorem Cmd.map_congr {W V : Type} {f g : W → V} {cmd : Cmd W} (heq : ∀ w ∈ cmd.words, f w = g w) :
    cmd.map f = cmd.map g := by
  induction cmd with
  | exec argv => exact congrArg _ (List.map_congr_left heq)
  | redir cmd file mode fd ih =>
    rw [Cmd.map, Cmd.map, ih fun w hw => heq w (List.mem_append_left _ hw), heq file (by simp [Cmd.words])]
  | pipe left right ihl ihr | list left right ihl ihr =>
    rw [Cmd.map, Cmd.map, ihl fun w hw => heq w (List.mem_append_left _ hw),
      ihr fun w hw => heq w (List.mem_append_right _ hw)]
  | back cmd ih => exact congrArg _ (ih heq)

/-! ## `parsecmd` -/

theorem tokensUpto_length (n : ℕ) (s : Ptr) : (tokensUpto n s).length ≤ n := by
  induction n generalizing s with
  | zero => exact Nat.le_refl 0
  | succ n ih =>
    rw [tokensUpto]
    split
    · exact Nat.zero_le _
    · exact Nat.succ_le_succ (ih _)

theorem tokens_eq_nil_iff (hs : NulFree s) : tokens s = [] ↔ skip s = [] := by
  rw [tokens_eq hs]
  rcases gettoken_cases hs with ⟨hskip, hret, -⟩ | ⟨c, s', t, hskip, -, hret, -⟩
  · simp [hskip, hret]
  · simp [hskip, hret, t.ret_ne_nul]

/-- The two outcomes: there is a derivation, whose command is returned, or there is none. -/
theorem parsecmd_cases (hs : NulFree s) :
    (∃ d : Line Word, d.Ok ∧ d.yield = tokens s ∧ parsecmd s = .ok ⟨d.tree, nulterminate d.tree s⟩) ∨
      (∃ e, parsecmd s = .fail e) ∧ ∀ d : Line Word, d.Ok → d.yield ≠ tokens s := by
  generalize hn : 4 * s.length + 4 = n
  have hsim := (parseline_sim n).1 s hs
  have hhalts := (Parse.line_halts n).1 (tokens s) (by
    have hlen := tokensUpto_length s.length s
    rw [tokens]
    omega)
  have hens := (Parse.line_ensures n).1 (tokens s)
  have hupto : ∀ d : Line Word, d.Ok → d.yield = tokens s → Parse.line n (tokens s) = .ok (d, []) := by
    intro d hd hyield
    have hd := Parse.line_upto d n [] hd fun _ h => absurd h.symm (Option.some_ne_none _)
    rw [List.append_nil, hyield] at hd
    exact hd.eq hhalts
  rw [parsecmd, hn]
  generalize parseline n s = x at hsim
  generalize Parse.line n (tokens s) = y at hsim hhalts hens hupto
  cases hsim with
  | out => exact hhalts.elim
  | fail e =>
    refine .inr ⟨⟨e, rfl⟩, fun d hd hyield => ?_⟩
    cases hupto d hd hyield
  | ok d rest hrest =>
    rw [Res.ok_bind]
    by_cases hend : (peek rest []).2 = []
    · refine .inl ⟨d, hens.1, ?_, ?_⟩
      · have hyield := hens.2
        rw [(tokens_eq_nil_iff hrest).mpr hend, List.append_nil] at hyield
        exact hyield.symm
      · simp only [hend, ne_eq, not_true, if_false]
    · refine .inr ⟨⟨"syntax", by simp only [ne_eq, hend, not_false_eq_true, if_true]⟩, fun d' hd' hyield => ?_⟩
      have heq := congrArg Prod.snd (Res.ok.inj (hupto d' hd' hyield))
      exact hend ((tokens_eq_nil_iff hrest).mp heq)

/-- **The shell parser.**  For every line, `parsecmd` returns; it succeeds if and only if the grammar
derives the tokens of the line, by one derivation, and then it returns the command of the derivation,
whose words are strings in the line. -/
theorem parsecmd_grammar (hs : NulFree s) :
    parsecmd s ≠ .out ∧
    ((∃ r, parsecmd s = .ok r) ↔ ∃ d : Line Word, d.Ok ∧ d.yield = tokens s) ∧
    (∀ d d' : Line Word, d.Ok → d'.Ok → d.yield = tokens s → d'.yield = tokens s → d = d') ∧
    ∀ (r : Parsed) (d : Line Word), parsecmd s = .ok r → d.Ok → d.yield = tokens s →
      r.cmd = d.tree ∧ r.cmd.map (cstring r.buf) = d.tree.map Word.text := by
  have huniq : ∀ d d' : Line Word, d.Ok → d'.Ok → d.yield = tokens s → d'.yield = tokens s → d = d' :=
    fun d d' hd hd' hy hy' => Line.yield_inj hd hd' (hy.trans hy'.symm)
  rcases parsecmd_cases hs with ⟨d, hd, hyield, hparse⟩ | ⟨⟨e, hparse⟩, hnone⟩
  · refine ⟨by rw [hparse]; nofun, ⟨fun _ => ⟨d, hd, hyield⟩, fun _ => ⟨_, hparse⟩⟩, huniq, ?_⟩
    intro r d' hr hd' hyield'
    obtain rfl := huniq d' d hd' hd hyield' hyield
    obtain rfl := Res.ok.inj (hparse.symm.trans hr)
    refine ⟨rfl, Cmd.map_congr fun w hw => ?_⟩
    have hin : ∀ w ∈ d'.tree.words, w.In s :=
      fun w hw => tokens_word_in hs (hyield ▸ d'.words_mem w hw)
    obtain ⟨hk, he⟩ := foldl_nul d'.tree.words hin
    rw [← nulterminate_eq] at hk he
    exact cstring_eq hs (hin w hw) hk (he w hw)
  · refine ⟨by rw [hparse]; nofun, ⟨fun ⟨r, hr⟩ => ?_, fun ⟨d, hd, hyield⟩ => ?_⟩, huniq, ?_⟩
    · exact nomatch hparse.symm.trans hr
    · exact absurd hyield (hnone d hd)
    · exact fun r d hr => nomatch hparse.symm.trans hr

/-- A line with a block, a pipe and two redirections, in the background. -/
theorem parsecmd_grammar_pipe :
    ∃ r, parsecmd "(a;bc) <d | e>> f &".toList = .ok r ∧
      r.cmd.map (cstring r.buf) = .back (.pipe
        (.redir (.list (.exec [['a']]) (.exec [['b', 'c']])) ['d'] O_RDONLY 0)
        (.redir (.exec [['e']]) ['f'] (O_WRONLY ||| O_CREATE) 1)) ∧
      ∃ d : Line Word, d.Ok ∧ d.yield = tokens "(a;bc) <d | e>> f &".toList ∧ r.cmd = d.tree := by
  have hs : NulFree "(a;bc) <d | e>> f &".toList := by
    rw [NulFree]
    decide +kernel
  have hcmd : (parsecmd "(a;bc) <d | e>> f &".toList).value?.map (fun r => r.cmd.map (cstring r.buf)) =
      some (.back (.pipe
        (.redir (.list (.exec [['a']]) (.exec [['b', 'c']])) ['d'] O_RDONLY 0)
        (.redir (.exec [['e']]) ['f'] (O_WRONLY ||| O_CREATE) 1))) := by
    decide +kernel
  have hgrammar := parsecmd_grammar hs
  cases hparse : parsecmd "(a;bc) <d | e>> f &".toList with
  | out => exact absurd hparse hgrammar.1
  | fail e =>
    rw [hparse] at hcmd
    cases hcmd
  | ok r =>
    rw [hparse] at hcmd
    obtain ⟨d, hd, hyield⟩ := hgrammar.2.1.mp ⟨r, hparse⟩
    exact ⟨r, rfl, Option.some.inj hcmd, d, hd, hyield, (hgrammar.2.2.2 r d hparse hd hyield).1⟩

end Xv6.Sh
