import Xv6.Sh.Parsecmd

/-!
# The ends of the words

All tokens of a line are in one buffer, and `nulterminate` overwrites what is behind each word of the
command: a blank, an operator or the NUL at the end of the line.  It does so in the order of the tree, which
is not that of the line.  This cuts no other word, since what is behind a word belongs to no word.
-/

namespace Xv6.Sh

open Fuel

variable {s : Ptr} {w w' : Word}

/-- The positions of a word in the line `s`. -/
def Word.Has (s : Ptr) (w : Word) (i : ℕ) : Prop := s.length - w.q.length ≤ i ∧ i < s.length - w.eq.length

/-- The position behind a word, where `nulterminate` puts the NUL. -/
def Word.stop (s : Ptr) (w : Word) : ℕ := s.length - w.eq.length

theorem Word.In.wordChar_of_has (hw : w.In s) {i : ℕ} (hi : w.Has s i) :
    ∃ c, s[i]? = some c ∧ wordChar c = true := by
  have hlen : w.q.length = w.text.length + w.eq.length := by
    rw [← List.length_append, ← hw.split]
  have hle := hw.suffix.length_le
  obtain ⟨hlo, hhi⟩ := hi
  obtain ⟨k, rfl⟩ := Nat.exists_eq_add_of_le hlo
  have hlt : k < w.text.length := by omega
  refine ⟨w.text[k], ?_, hw.chars _ (List.getElem_mem hlt)⟩
  rw [getElem?_of_suffix hw.suffix, hw.split, List.getElem?_append_left hlt,
    List.getElem?_eq_getElem hlt]

theorem Word.In.not_has_stop (hw : w.In s) (hw' : w'.In s) : ¬ w'.Has s (w.stop s) := by
  intro hhas
  obtain ⟨c, hc, hword⟩ := hw'.wordChar_of_has hhas
  have hend := getElem?_of_suffix hw.eq_suffix 0
  rw [Nat.add_zero, ← List.head?_eq_getElem?, ← Word.stop, hc] at hend
  rw [hw.stops c hend.symm] at hword
  exact nomatch hword

theorem foldl_nul_of_ne (ws : List Word) (buf : List Char) {i : ℕ}
    (hi : ∀ w ∈ ws, i ≠ w.stop buf) : (ws.foldl nul buf)[i]? = buf[i]? := by
  induction ws generalizing buf with
  | nil => rfl
  | cons w ws ih =>
    have hlen : (nul buf w).length = buf.length := List.length_set
    rw [List.foldl_cons, ih]
    · exact List.getElem?_set_ne (hi w List.mem_cons_self).symm
    · intro w' hw'
      rw [Word.stop, hlen]
      exact hi w' (List.mem_cons_of_mem w hw')

/-- **`nulterminate`.**  In a line that `parsecmd` accepts, every word of the command, read as a C string
after the ends have been put in, is the text of a token of the line.  The positions that were overwritten
are those behind the words, and none of them is inside of a word of the line. -/
theorem nulterminate_cuts (hs : NulFree s) {r : Parsed} (hparse : parsecmd s = .ok r) :
    (∀ w ∈ r.cmd.words, .word w ∈ tokens s ∧ cstring r.buf w = w.text ∧
      ∀ w', .word w' ∈ tokens s → ¬ w'.Has s (w.stop s)) ∧
    ∀ i, (∀ w ∈ r.cmd.words, i ≠ w.stop s) → r.buf[i]? = s[i]? := by
  rcases parsecmd_cases hs with ⟨d, hd, hyield, hok⟩ | ⟨⟨e, hfail⟩, -⟩
  · obtain rfl := Res.ok.inj (hok.symm.trans hparse)
    have htoken : ∀ w ∈ d.tree.words, .word w ∈ tokens s := fun w hw =>
      hyield ▸ d.words_mem w hw
    have hin : ∀ w ∈ d.tree.words, w.In s := fun w hw => tokens_word_in hs (htoken w hw)
    obtain ⟨hkept, hended⟩ := foldl_nul d.tree.words hin
    rw [← nulterminate_eq] at hkept hended
    refine ⟨fun w hw => ⟨htoken w hw, cstring_eq hs (hin w hw) hkept (hended w hw), fun w' hw' => ?_⟩,
      fun i hi => ?_⟩
    · exact (hin w hw).not_has_stop (tokens_word_in hs hw')
    · change (nulterminate d.tree s)[i]? = s[i]?
      rw [nulterminate_eq]
      exact foldl_nul_of_ne _ s hi
  · exact nomatch hfail.symm.trans hparse

/-- The words of a line without blanks, whose ends overwrite its operators. -/
theorem nulterminate_cuts_pipe : ∃ r, parsecmd "a<b|c;d".toList = .ok r ∧
    (∀ w ∈ r.cmd.words, .word w ∈ tokens "a<b|c;d".toList ∧ cstring r.buf w = w.text ∧
      ∀ w', .word w' ∈ tokens "a<b|c;d".toList → ¬ w'.Has "a<b|c;d".toList (w.stop "a<b|c;d".toList)) ∧
    r.buf = ['a', NUL, 'b', NUL, 'c', NUL, 'd'] := by
  have hs : NulFree "a<b|c;d".toList := by
    rw [NulFree]
    decide +kernel
  have hbuf : (parsecmd "a<b|c;d".toList).value?.map (·.buf) = some ['a', NUL, 'b', NUL, 'c', NUL, 'd'] := by
    decide +kernel
  cases hparse : parsecmd "a<b|c;d".toList with
  | ok r =>
    rw [hparse] at hbuf
    exact ⟨r, rfl, (nulterminate_cuts hs hparse).1, Option.some.inj hbuf⟩
  | _ =>
    rw [hparse] at hbuf
    cases hbuf

end Xv6.Sh
