import Xv6.Param
import Xv6.Lib.Ring
import Xv6.Lib.Transition

/-!
# The line discipline of the console

`struct cons` of `kernel/console.c` is a ring of characters with three free-running indices: readers
take characters at `r`, `w` is where the committed input ends, and the line that is still being edited
reaches from `w` to `e`.  The interrupt handler `consoleintr` and every turn of the loop of
`consoleread` run under `cons.lock`; a reader gives it up only when it sleeps or returns.  A step of
the machine is one character for the handler or one turn of a reader, so that interrupts and any number
of readers interleave as the lock lets them.

What the console is for is said without a ring (`Line`): there is the input that is committed, and the
line that can still be edited, and the editing rules say what a character does to the two.  Of the
readers the rules see only how many bytes they have taken, because a full buffer drops characters and
commits.  `Shows` connects the two, and the handler and the readers keep it, wherever the indices
wrap around.

* `console_line_discipline`: what readers take is the beginning of the committed input, the indices are
  in order and at most a buffer apart, and a `^D` that a read has put back is the end of file of the next.
-/

namespace Xv6
namespace Console

open Transition

/-! ## `kernel/console.c` -/

def INPUT_BUF_SIZE : ℕ := 128

/-- `C(x)`: control-x. -/
def C (x : Char) : UInt8 := UInt8.ofNat (x.toNat - '@'.toNat)

def newline : UInt8 := 10
def carriageReturn : UInt8 := 13
def delete : UInt8 := 0x7f

/-- The number that tells `consputc` to erase the last output character. -/
def BACKSPACE : ℕ := 0x100

/-- What `consputc` sends to the UART. -/
def consputc (c : ℕ) : List UInt8 := if c = BACKSPACE then [8, 32, 8] else [UInt8.ofNat c]

/-- `struct cons`, without its lock. -/
structure Cons where
  buf : ℕ → UInt8
  /-- Read index -/
  r : ℕ
  /-- Write index -/
  w : ℕ
  /-- Edit index -/
  e : ℕ

/-- What the interrupt handler leaves behind. -/
structure Handled where
  cons : Cons
  /-- What was echoed. -/
  echo : List UInt8
  /-- Whether `wakeup(&cons.r)` was called. -/
  wakeup : Bool

/-- The loop of `C('U')`, for at most the given number of turns. -/
def killLoop : ℕ → Handled → Handled
  | 0, x => x
  | n + 1, x =>
    if x.cons.e ≠ x.cons.w ∧
        x.cons.buf ((x.cons.e + UINT - 1) % UINT % INPUT_BUF_SIZE) ≠ newline then
      killLoop n { x with
        cons := { x.cons with e := (x.cons.e + UINT - 1) % UINT }
        echo := x.echo ++ consputc BACKSPACE }
    else x

/-- `C('U')`.  Every turn brings `e` one closer to `w`. -/
def killLine (k : Cons) : Handled := killLoop ((k.e + UINT - k.w) % UINT) ⟨k, [], false⟩

/-- A character, after `\r` has become `\n`, is echoed and stored, and may commit the line. -/
def store (k : Cons) (c : UInt8) : Handled :=
  let k := { k with
    buf := Function.update k.buf (k.e % INPUT_BUF_SIZE) c
    e := (k.e + 1) % UINT }
  if c = newline ∨ c = C 'D' ∨ (k.e + UINT - k.r) % UINT = INPUT_BUF_SIZE then
    ⟨{ k with w := k.e }, consputc c.toNat, true⟩
  else ⟨k, consputc c.toNat, false⟩

/-- `consoleintr`.  What `procdump` prints is left out. -/
def consoleintr (k : Cons) (c : UInt8) : Handled :=
  if c = C 'P' then ⟨k, [], false⟩
  else if c = C 'U' then killLine k
  else if c = C 'H' ∨ c = delete then
    if k.e ≠ k.w then ⟨{ k with e := (k.e + UINT - 1) % UINT }, consputc BACKSPACE, false⟩
    else ⟨k, [], false⟩
  else if c ≠ 0 ∧ (k.e + UINT - k.r) % UINT < INPUT_BUF_SIZE then
    store k (if c = carriageReturn then newline else c)
  else ⟨k, [], false⟩

/-- The variables of a call of `consoleread`, and the bytes it has copied out. -/
structure Reader where
  target : ℕ
  n : ℤ
  copied : List UInt8

/-- Where a process is: not in `consoleread`, in its loop with the lock, in `sleep`, or on the way
back from there. -/
inductive Place where
  | outside
  | loop (rd : Reader)
  | sleeping (rd : Reader)
  | woken (rd : Reader)

/-- `p->state = RUNNABLE` for a process that sleeps. -/
def Place.wake : Place → Place
  | .sleeping rd => .woken rd
  | x => x

/-- What is seen from outside: characters come in, bytes are taken out of the buffer, and reads
return. -/
inductive Item (P : Type) where
  | input (c : UInt8)
  | take (c : UInt8)
  | ret (p : P) (v : ℤ)

/-- The console, the processes that may read from it, what was echoed, and what has been seen. -/
structure State (P : Type) where
  cons : Cons
  lock : Option P
  place : P → Place
  killed : P → Bool
  uart : List UInt8
  trace : List (Item P)

section

variable {P : Type}

/-- The byte at the read index. -/
def State.front (s : State P) : UInt8 := s.cons.buf (s.cons.r % INPUT_BUF_SIZE)

/-- `cons.r++`, for a byte that is not put back. -/
def State.take (s : State P) : State P :=
  { s with
    cons := { s.cons with r := (s.cons.r + 1) % UINT }
    trace := s.trace ++ [.take s.front] }

/-- `cons.r++` and `cons.r--`. -/
def State.putBack (s : State P) : State P :=
  { s with cons := { s.cons with r := ((s.cons.r + 1) % UINT + UINT - 1) % UINT } }

variable [DecidableEq P]

/-- `return v`, after `release(&cons.lock)`. -/
def State.ret (s : State P) (p : P) (v : ℤ) : State P :=
  { s with
    lock := none
    place := Function.update s.place p .outside
    trace := s.trace ++ [.ret p v] }

/-- `return target - n` -/
def Reader.value (rd : Reader) : ℤ := cInt (rd.target - rd.n)

/-- A byte is copied out: `dst++; --n`. -/
def Reader.copy (rd : Reader) (c : UInt8) : Reader :=
  { rd with n := rd.n - 1, copied := rd.copied ++ [c] }

/-- A turn of the loop of `consoleread`; `ok` says whether `either_copyout` succeeds. -/
def turn (s : State P) (p : P) (rd : Reader) (ok : Bool) : State P :=
  if 0 < rd.n then
    if s.cons.r = s.cons.w then
      if s.killed p then s.ret p (-1)
      else { s with lock := none, place := Function.update s.place p (.sleeping rd) }
    else if s.front = C 'D' then
      if (rd.n % UINT).toNat < rd.target then s.putBack.ret p rd.value
      else s.take.ret p rd.value
    else if ok then
      if s.front = newline then s.take.ret p (rd.copy s.front).value
      else { s.take with place := Function.update s.place p (.loop (rd.copy s.front)) }
    else s.take.ret p rd.value
  else s.ret p rd.value

/-- What can happen: a character arrives, a process calls `consoleread`, makes a turn, comes back
from `sleep`, or is killed. -/
inductive Action (P : Type) where
  | intr (c : UInt8)
  | consoleread (p : P) (n : ℤ)
  | turn (p : P) (ok : Bool)
  | resume (p : P)
  | kkill (p : P)

/-- The handler runs, and wakes the readers if it has committed something. -/
def State.intr (s : State P) (c : UInt8) : State P :=
  let handled := consoleintr s.cons c
  { s with
    cons := handled.cons
    place := fun p => if handled.wakeup then (s.place p).wake else s.place p
    uart := s.uart ++ handled.echo
    trace := s.trace ++ [.input c] }

/-- A reader gets the lock. -/
def State.enter (s : State P) (p : P) (rd : Reader) : State P :=
  { s with lock := some p, place := Function.update s.place p (.loop rd) }

/-- `kkill` of a process that may sleep in `consoleread`. -/
def State.kkill (s : State P) (p : P) : State P :=
  { s with
    killed := Function.update s.killed p true
    place := Function.update s.place p (s.place p).wake }

def step (s : State P) : Action P → Option (State P)
  | .intr c => if s.lock = none then some (s.intr c) else none
  | .consoleread p n =>
    match s.lock, s.place p with
    | none, .outside =>
      if -2 ^ 31 ≤ n ∧ n < 2 ^ 31 then some (s.enter p ⟨(n % UINT).toNat, n, []⟩) else none
    | _, _ => none
  | .turn p ok =>
    match s.place p with
    | .loop rd => some (turn s p rd ok)
    | _ => none
  | .resume p =>
    match s.lock, s.place p with
    | none, .woken rd => some (s.enter p rd)
    | _, _ => none
  | .kkill p => some (s.kkill p)

end

variable {P : Type}

/-- The console after the boot: nothing was typed, and nobody reads. -/
def State.init (buf : ℕ → UInt8) : State P :=
  ⟨⟨buf, 0, 0, 0⟩, none, fun _ => .outside, fun _ => false, [], []⟩

/-! ## The editing rules -/

/-- The committed input, how much of it was taken, and the line that can be edited. -/
structure Line where
  committed : List UInt8
  taken : ℕ
  line : List UInt8

namespace Line

/-- The committed input that nobody has taken. -/
def unread (l : Line) : List UInt8 := l.committed.drop l.taken

/-- There is no place for another character. -/
def Full (l : Line) : Prop := l.unread.length + l.line.length = INPUT_BUF_SIZE

instance (l : Line) : Decidable l.Full := inferInstanceAs (Decidable (_ = _))

/-- The line becomes input. -/
def commit (l : Line) : Line := { l with committed := l.committed ++ l.line, line := [] }

/-- A character is added to the line. -/
def add (l : Line) (c : UInt8) : Line := { l with line := l.line ++ [c] }

/-- A character is added to the line, and may commit it. -/
def store (l : Line) (c : UInt8) : Line :=
  if c = newline ∨ c = C 'D' ∨ (l.add c).Full then (l.add c).commit else l.add c

/-- What a character does. -/
def input (l : Line) (c : UInt8) : Line :=
  if c = C 'P' then l
  else if c = C 'U' then { l with line := [] }
  else if c = C 'H' ∨ c = delete then { l with line := l.line.dropLast }
  else if c = 0 ∨ l.Full then l
  else l.store (if c = carriageReturn then newline else c)

/-- What is seen of the console, as the rules see it. -/
def see (l : Line) : Item P → Line
  | .input c => l.input c
  | .take _ => { l with taken := l.taken + 1 }
  | .ret .. => l

/-- The line after all that was seen. -/
def after (trace : List (Item P)) : Line := trace.foldl see ⟨[], 0, []⟩

end Line

/-- The bytes that were taken. -/
def takes (trace : List (Item P)) : List UInt8 :=
  trace.filterMap fun
    | .take c => some c
    | _ => none

/-- The reads that have returned, and their values. -/
def returns (trace : List (Item P)) : List (P × ℤ) :=
  trace.filterMap fun
    | .ret p v => some (p, v)
    | _ => none

namespace Line

theorem after_append (trace : List (Item P)) (i : Item P) :
    after (trace ++ [i]) = (after trace).see i := by
  rw [after, List.foldl_append]
  rfl

theorem committed_input (l : Line) (c : UInt8) : l.committed <+: (l.input c).committed := by
  have hstore : ∀ c, l.committed <+: (l.store c).committed := by
    intro c
    rw [store]
    split_ifs
    · exact List.prefix_append _ _
    · exact List.prefix_rfl
  rw [input]
  split_ifs <;> first | exact List.prefix_rfl | exact hstore _

theorem taken_input (l : Line) (c : UInt8) : (l.input c).taken = l.taken := by
  have hstore : ∀ c, (l.store c).taken = l.taken := by
    intro c
    rw [store]
    split_ifs <;> rfl
  rw [input]
  split_ifs <;> first | rfl | exact hstore _

theorem committed_after (trace : List (Item P)) :
    ∀ later, (after trace).committed <+: (after (trace ++ later)).committed := by
  intro later
  induction later using List.reverseRecOn with
  | nil => simp
  | append_singleton later i ih =>
    rw [← List.append_assoc, after_append]
    refine ih.trans ?_
    cases i with
    | input c => exact committed_input _ c
    | take c => exact List.prefix_rfl
    | ret p v => exact List.prefix_rfl

end Line

/-! ## The ring shows the line -/

/-- The ring of the console, with the line that is edited. -/
def Cons.ring (k : Cons) : RingBuffer UInt8 := ⟨k.buf, k.r, k.e⟩

/-- The buffer holds what was not taken and the line, and `w` is between them. -/
structure Shows (k : Cons) (l : Line) : Prop where
  ring : k.ring.Contains INPUT_BUF_SIZE UINT (l.unread ++ l.line)
  w_eq : k.w = (k.r + l.unread.length) % UINT
  le : l.taken ≤ l.committed.length
  open_line : newline ∉ l.line

namespace Shows

variable {k : Cons} {l : Line}

theorem init (buf : ℕ → UInt8) : Shows ⟨buf, 0, 0, 0⟩ ⟨[], 0, []⟩ := by
  refine ⟨⟨by simp [Line.unread], Nat.two_pow_pos 32, rfl, fun j hj => ?_⟩, rfl, le_rfl, by simp⟩
  exact absurd hj (Nat.not_lt_zero j)

theorem edit (h : Shows k l) :
    RingBuffer.Contains INPUT_BUF_SIZE UINT ⟨k.buf, k.w, k.e⟩ l.line := by
  have hdrop := h.ring.drop (by decide) (by decide)
  rw [h.w_eq]
  exact hdrop

theorem input (h : Shows k l) :
    RingBuffer.Contains INPUT_BUF_SIZE UINT ⟨k.buf, k.r, k.w⟩ l.unread := by
  have htake := h.ring.take
  rw [h.w_eq]
  exact htake

theorem e_eq_w_iff (h : Shows k l) : k.e = k.w ↔ l.line = [] := by
  rw [← h.edit.empty_iff (by decide)]
  exact eq_comm

theorem r_eq_w_iff (h : Shows k l) : k.r = k.w ↔ l.unread = [] := h.input.empty_iff (by decide)

theorem erase (h : Shows k l) {line : List UInt8} {c : UInt8} (hline : l.line = line ++ [c]) :
    Shows { k with e := (k.e + UINT - 1) % UINT } { l with line := line } := by
  have hring := h.ring
  rw [hline, ← List.append_assoc] at hring
  refine ⟨hring.unpush, h.w_eq, h.le, fun hmem => h.open_line ?_⟩
  rw [hline]
  exact List.mem_append_left _ hmem

/-- `C('U')` erases the line, however often the indices have wrapped around. -/
theorem killLoop {x : Handled} (h : Shows x.cons l) :
    Shows (killLoop l.line.length x).cons { l with line := [] } := by
  generalize hline : l.line = line
  induction line using List.reverseRecOn generalizing x l with
  | nil =>
    obtain ⟨committed, taken, line⟩ := l
    subst hline
    exact h
  | append_singleton line c ih =>
    have hne : x.cons.e ≠ x.cons.w := by
      rw [Ne, h.e_eq_w_iff, hline]
      simp
    have hlast : x.cons.buf ((x.cons.e + UINT - 1) % UINT % INPUT_BUF_SIZE) = c := by
      have hedit := h.edit
      rw [hline] at hedit
      exact hedit.last (by decide)
    have hc : c ≠ newline := by
      rintro rfl
      exact h.open_line (hline ▸ List.mem_append_right _ List.mem_cons_self)
    rw [List.length_append, List.length_singleton, Console.killLoop, if_pos ⟨hne, hlast ▸ hc⟩]
    exact ih (l := { l with line := line }) (h.erase hline) rfl

theorem killLine (h : Shows k l) : Shows (killLine k).cons { l with line := [] } := by
  have hdist : (k.e + UINT - k.w) % UINT = l.line.length := h.edit.distance (by decide)
  rw [Console.killLine, hdist]
  exact killLoop (x := ⟨k, [], false⟩) h

theorem distance (h : Shows k l) :
    (k.e + UINT - k.r) % UINT = l.unread.length + l.line.length := by
  have hdist := h.ring.distance (by decide)
  rwa [List.length_append] at hdist

theorem add (h : Shows k l) (hfull : ¬ l.Full) (c : UInt8) :
    RingBuffer.Contains INPUT_BUF_SIZE UINT
      ⟨Function.update k.buf (k.e % INPUT_BUF_SIZE) c, k.r, (k.e + 1) % UINT⟩
      (l.unread ++ (l.add c).line) := by
  have hnotFull : ¬ k.ring.Full INPUT_BUF_SIZE UINT := by
    rw [h.ring.full_iff (by decide), List.length_append]
    exact hfull
  have hpush := h.ring.push (by decide) (by decide) hnotFull c
  rwa [List.append_assoc] at hpush

theorem store (h : Shows k l) (hfull : ¬ l.Full) (c : UInt8) :
    Shows (store k c).cons (l.store c) := by
  have hring := h.add hfull c
  have hdist : ((k.e + 1) % UINT + UINT - k.r) % UINT = INPUT_BUF_SIZE ↔ (l.add c).Full := by
    rw [Line.Full, ← List.length_append]
    exact iff_of_eq (congrArg (· = _) (hring.distance (by decide)))
  rw [Console.store, Line.store]
  simp only [hdist]
  by_cases hcommit : c = newline ∨ c = C 'D' ∨ (l.add c).Full
  · have hunread : (l.add c).commit.unread = l.unread ++ (l.add c).line :=
      List.drop_append_of_le_length h.le
    rw [if_pos hcommit, if_pos hcommit]
    refine ⟨?_, ?_, ?_, List.not_mem_nil⟩
    · rw [hunread]
      exact (List.append_nil _).symm ▸ hring
    · rw [hunread]
      exact hring.wr_eq
    · show l.taken ≤ (l.committed ++ (l.add c).line).length
      rw [List.length_append]
      exact h.le.trans (Nat.le_add_right _ _)
  · rw [if_neg hcommit, if_neg hcommit]
    refine ⟨hring, h.w_eq, h.le, ?_⟩
    show newline ∉ l.line ++ [c]
    rw [List.mem_append, List.mem_singleton]
    rintro (hmem | heq)
    · exact h.open_line hmem
    · exact hcommit (.inl heq.symm)

/-- **The interrupt handler follows the editing rules.** -/
theorem consoleintr (h : Shows k l) (c : UInt8) : Shows (consoleintr k c).cons (l.input c) := by
  have hle := h.ring.length_le
  rw [List.length_append] at hle
  have hroom : (k.e + UINT - k.r) % UINT < INPUT_BUF_SIZE ↔ ¬ l.Full := by
    rw [h.distance, Line.Full]
    omega
  rw [Console.consoleintr, Line.input]
  by_cases hP : c = C 'P'
  · rw [if_pos hP, if_pos hP]
    exact h
  rw [if_neg hP, if_neg hP]
  by_cases hU : c = C 'U'
  · rw [if_pos hU, if_pos hU]
    exact h.killLine
  rw [if_neg hU, if_neg hU]
  by_cases hH : c = C 'H' ∨ c = delete
  · rw [if_pos hH, if_pos hH]
    rcases List.eq_nil_or_concat l.line with hnil | ⟨line, last, hline⟩
    · have hsame : ({ l with line := l.line.dropLast } : Line) = l := by
        rw [hnil, List.dropLast_nil, ← hnil]
      rw [if_neg (not_not.mpr (h.e_eq_w_iff.mpr hnil)), hsame]
      exact h
    · have hne : k.e ≠ k.w := by
        rw [Ne, h.e_eq_w_iff, hline]
        simp
      rw [if_pos hne, hline, List.concat_eq_append, List.dropLast_concat]
      exact h.erase (hline.trans (List.concat_eq_append))
  rw [if_neg hH, if_neg hH]
  by_cases hdrop : c = 0 ∨ l.Full
  · rw [if_pos hdrop, if_neg (fun hkeep => hdrop.elim hkeep.1 (hroom.mp hkeep.2))]
    exact h
  · obtain ⟨hzero, hfull⟩ := not_or.mp hdrop
    rw [if_neg hdrop, if_pos ⟨hzero, hroom.mpr hfull⟩]
    exact h.store hfull _

theorem take (h : Shows k l) (hne : k.r ≠ k.w) :
    l.unread = k.buf (k.r % INPUT_BUF_SIZE) :: ({ l with taken := l.taken + 1 } : Line).unread ∧
      Shows { k with r := (k.r + 1) % UINT } { l with taken := l.taken + 1 } := by
  obtain ⟨c, rest, hunread⟩ := List.exists_cons_of_ne_nil (mt h.r_eq_w_iff.mpr hne)
  have hring := h.ring
  rw [hunread, List.cons_append] at hring
  have hfront : k.buf (k.r % INPUT_BUF_SIZE) = c := hring.front
  have hrest : ({ l with taken := l.taken + 1 } : Line).unread = rest := by
    show l.committed.drop (l.taken + 1) = rest
    rw [← List.drop_drop, ← Line.unread, hunread]
    rfl
  have hlt : l.taken < l.committed.length := by
    have hlen : (l.committed.drop l.taken).length = (c :: rest).length := congrArg _ hunread
    rw [List.length_drop, List.length_cons] at hlen
    omega
  rw [hrest, hfront]
  refine ⟨hunread, ?_, ?_, hlt, h.open_line⟩
  · rw [hrest]
    exact hring.pop (by decide) (by decide)
  · rw [hrest]
    show k.w = ((k.r + 1) % UINT + rest.length) % UINT
    rw [h.w_eq, hunread, List.length_cons, Nat.mod_add_mod]
    congr 1
    omega

end Shows

/-! ## Readers -/

/-- What a call of `consoleread` has to do, and what it has done. -/
structure Reader.Ok (rd : Reader) : Prop where
  target : (rd.target : ℤ) = (rd.n + rd.copied.length) % UINT
  nonneg : rd.copied = [] ∨ 0 ≤ rd.n
  lower : -2 ^ 31 ≤ rd.n
  upper : rd.n + rd.copied.length < 2 ^ 31

namespace Reader.Ok

variable {rd : Reader}

theorem value_eq (h : rd.Ok) : rd.value = rd.copied.length := by
  obtain ⟨htarget, hnonneg, hlo, hhi⟩ := h
  rw [Reader.value, cInt, BitVec.toInt_ofInt, htarget, Int.bmod_def]
  rcases hnonneg with hnil | hpos
  · rw [hnil, List.length_nil] at hhi ⊢
    simp only [UINT]
    split_ifs <;> omega
  · simp only [UINT]
    split_ifs <;> omega

theorem lt_target_iff (h : rd.Ok) (hpos : 0 < rd.n) :
    (rd.n % UINT).toNat < rd.target ↔ rd.copied ≠ [] := by
  obtain ⟨htarget, -, -, hhi⟩ := h
  rw [← List.length_pos_iff]
  simp only [UINT] at htarget ⊢
  omega

theorem copy (h : rd.Ok) (hpos : 0 < rd.n) (c : UInt8) :
    (rd.copy c).Ok := by
  obtain ⟨htarget, -, hlo, hhi⟩ := h
  refine ⟨?_, .inr (by show 0 ≤ rd.n - 1; omega), by show -2 ^ 31 ≤ rd.n - 1; omega, ?_⟩
  · show (rd.target : ℤ) = (rd.n - 1 + (rd.copied ++ [c]).length) % UINT
    rw [htarget, List.length_append, List.length_singleton]
    congr 1
    omega
  · show rd.n - 1 + ((rd.copied ++ [c]).length : ℤ) < 2 ^ 31
    rw [List.length_append, List.length_singleton]
    omega

end Reader.Ok

/-- The call a process is in. -/
def Place.reader : Place → Option Reader
  | .outside => none
  | .loop rd | .sleeping rd | .woken rd => some rd

/-- The ring shows the line that the editing rules give, and what was taken is what the line says. -/
structure Inv (s : State P) : Prop where
  shows : Shows s.cons (Line.after s.trace)
  taken : takes s.trace = (Line.after s.trace).committed.take (Line.after s.trace).taken
  reader : ∀ p rd, (s.place p).reader = some rd → rd.Ok

theorem Inv.init (buf : ℕ → UInt8) : Inv (State.init buf : State P) where
  shows := .init buf
  taken := rfl
  reader := fun _ _ h => nomatch h

theorem takes_append (trace : List (Item P)) (i : Item P) :
    takes (trace ++ [i]) = takes trace ++ takes [i] := List.filterMap_append

section

variable {s s' : State P} {p : P} {rd : Reader}

theorem Inv.take (h : Inv s) (hne : s.cons.r ≠ s.cons.w) : Inv s.take := by
  have hafter : Line.after s.take.trace =
      { Line.after s.trace with taken := (Line.after s.trace).taken + 1 } := Line.after_append ..
  obtain ⟨hunread, hshows⟩ := h.shows.take hne
  refine ⟨hafter ▸ hshows, ?_, h.reader⟩
  have hlt : (Line.after s.trace).taken < (Line.after s.trace).committed.length := by
    have hlen := congrArg List.length hunread
    rw [Line.unread, List.length_drop, List.length_cons] at hlen
    omega
  have hget : (Line.after s.trace).committed[(Line.after s.trace).taken] =
      s.front := by
    rw [Line.unread, List.drop_eq_getElem_cons hlt] at hunread
    exact (List.cons.inj hunread).1
  show takes (s.trace ++ [.take s.front]) = _
  rw [hafter, takes_append, h.taken, List.take_succ_eq_append_getElem hlt, hget]
  rfl

theorem Inv.putBack_eq (h : Inv s) : s.putBack = s := by
  have hr : s.cons.r < UINT := h.shows.ring.rd_lt
  have hback : ((s.cons.r + 1) % UINT + UINT - 1) % UINT = s.cons.r := by
    simp only [UINT] at hr ⊢
    omega
  rw [State.putBack, hback]

variable [DecidableEq P]

theorem reader_update (h : ∀ q rd, (s.place q).reader = some rd → rd.Ok) {x : Place}
    (hx : ∀ rd, x.reader = some rd → rd.Ok) (q : P) (rd : Reader)
    (hq : (Function.update s.place p x q).reader = some rd) : rd.Ok := by
  rw [Function.update_apply] at hq
  split_ifs at hq
  · exact hx rd hq
  · exact h q rd hq

theorem Inv.ret (h : Inv s) (p : P) (v : ℤ) : Inv (s.ret p v) := by
  have hafter : Line.after (s.ret p v).trace = Line.after s.trace := Line.after_append ..
  have htakes : takes (s.ret p v).trace = takes s.trace := by
    show takes (s.trace ++ [.ret p v]) = _
    rw [takes_append]
    exact List.append_nil _
  refine ⟨?_, ?_, reader_update h.reader fun _ hrd => nomatch hrd⟩
  · rw [hafter]
    exact h.shows
  · rw [hafter, htakes]
    exact h.taken

theorem Inv.turn (h : Inv s) (hp : s.place p = .loop rd) (ok : Bool) : Inv (turn s p rd ok) := by
  have hrd : rd.Ok := h.reader p rd (by rw [hp]; rfl)
  rw [Console.turn]
  split_ifs with hpos hempty
  · exact h.ret p (-1)
  · exact ⟨h.shows, h.taken, reader_update h.reader fun rd' hrd' => Option.some.inj hrd' ▸ hrd⟩
  · rw [h.putBack_eq]
    exact h.ret p _
  · exact (h.take hempty).ret p _
  · exact (h.take hempty).ret p _
  · have htake := h.take hempty
    exact ⟨htake.shows, htake.taken, reader_update h.reader fun rd' hrd' =>
      Option.some.inj hrd' ▸ hrd.copy hpos _⟩
  · exact (h.take hempty).ret p _
  · exact h.ret p _

theorem Place.wake_reader (x : Place) : x.wake.reader = x.reader := by
  cases x <;> rfl

theorem step_cases {a : Action P} (h : step s a = some s') :
    (∃ c, s' = s.intr c) ∨
    (∃ p, ∃ n : ℤ, -2 ^ 31 ≤ n ∧ n < 2 ^ 31 ∧ s' = s.enter p ⟨(n % UINT).toNat, n, []⟩) ∨
    (∃ p rd ok, s.place p = .loop rd ∧ s' = turn s p rd ok) ∨
    (∃ p rd, s.place p = .woken rd ∧ s' = s.enter p rd) ∨
    ∃ p, s' = s.kkill p := by
  cases a with
  | intr c =>
    rw [step, Option.ite_none_right_eq_some] at h
    exact .inl ⟨c, (Option.some.inj h.2).symm⟩
  | consoleread p n =>
    rw [step] at h
    split at h
    · rw [Option.ite_none_right_eq_some] at h
      exact .inr (.inl ⟨p, n, h.1.1, h.1.2, (Option.some.inj h.2).symm⟩)
    · exact nomatch h
  | turn p ok =>
    rw [step] at h
    split at h
    · rename_i rd hp
      exact .inr (.inr (.inl ⟨p, rd, ok, hp, (Option.some.inj h).symm⟩))
    · exact nomatch h
  | resume p =>
    rw [step] at h
    split at h
    · rename_i rd _ hp
      exact .inr (.inr (.inr (.inl ⟨p, rd, hp, (Option.some.inj h).symm⟩)))
    · exact nomatch h
  | kkill p => exact .inr (.inr (.inr (.inr ⟨p, (Option.some.inj h).symm⟩)))

omit [DecidableEq P] in
theorem Inv.intr (h : Inv s) (c : UInt8) : Inv (s.intr c) := by
  have hafter : Line.after (s.trace ++ [.input c]) = (Line.after s.trace).input c :=
    Line.after_append ..
  refine ⟨?_, ?_, fun p rd hrd => h.reader p rd ?_⟩
  · rw [State.intr, hafter]
    exact h.shows.consoleintr c
  · -- what is committed now comes after what was taken
    have htaken := Line.taken_input (Line.after s.trace) c
    obtain ⟨later, hlater⟩ := (Line.after s.trace).committed_input c
    rw [State.intr, hafter, htaken, takes_append, h.taken, ← hlater,
      List.take_append_of_le_length h.shows.le]
    exact List.append_nil _
  · rw [← hrd, State.intr]
    dsimp only
    split_ifs
    · exact (Place.wake_reader _).symm
    · rfl

theorem Inv.enter (h : Inv s) (hrd : rd.Ok) (p : P) : Inv (s.enter p rd) :=
  ⟨h.shows, h.taken, reader_update h.reader fun _ hrd' => Option.some.inj hrd' ▸ hrd⟩

theorem Inv.of_step (h : Inv s) {a : Action P} (hstep : step s a = some s') : Inv s' := by
  obtain ⟨c, rfl⟩ | ⟨p, n, hlo, hhi, rfl⟩ | ⟨p, rd, ok, hp, rfl⟩ | ⟨p, rd, hp, rfl⟩ | ⟨p, rfl⟩ :=
    step_cases hstep
  · exact h.intr c
  · refine h.enter ⟨?_, .inl rfl, hlo, by simpa using hhi⟩ p
    have hnonneg : 0 ≤ n % (UINT : ℤ) := Int.emod_nonneg n (by decide)
    simpa using hnonneg
  · exact h.turn hp ok
  · exact h.enter (h.reader p rd (by rw [hp]; rfl)) p
  · exact ⟨h.shows, h.taken, reader_update h.reader fun rd hrd =>
      h.reader p rd ((Place.wake_reader _).symm.trans hrd)⟩

/-! ## The end of file -/

/-- The next byte to be read is a `^D`. -/
def EofNext (k : Cons) : Prop := k.r ≠ k.w ∧ k.buf (k.r % INPUT_BUF_SIZE) = C 'D'

theorem Shows.eofNext_iff {k : Cons} {l : Line} (h : Shows k l) :
    EofNext k ↔ l.unread.head? = some (C 'D') := by
  constructor
  · rintro ⟨hne, hfront⟩
    rw [(h.take hne).1, List.head?_cons, hfront]
  · intro hhead
    have hne : k.r ≠ k.w := by
      rw [Ne, h.r_eq_w_iff]
      intro hnil
      rw [hnil] at hhead
      exact nomatch hhead
    rw [(h.take hne).1, List.head?_cons] at hhead
    exact ⟨hne, Option.some.inj hhead⟩

omit [DecidableEq P] in
theorem trace_take (s : State P) : s.trace <+: s.take.trace := List.prefix_append ..

omit [DecidableEq P] in
theorem trace_putBack (s : State P) : s.putBack.trace = s.trace := by
  rw [State.putBack]

theorem trace_ret (s : State P) (p : P) (v : ℤ) : s.trace <+: (s.ret p v).trace :=
  List.prefix_append ..

theorem trace_step {a : Action P} (hstep : step s a = some s') : s.trace <+: s'.trace := by
  obtain ⟨c, rfl⟩ | ⟨p, n, -, -, rfl⟩ | ⟨p, rd, ok, -, rfl⟩ | ⟨p, rd, -, rfl⟩ | ⟨p, rfl⟩ :=
    step_cases hstep
  · exact List.prefix_append ..
  · exact List.prefix_rfl
  · rw [turn]
    split_ifs
    · exact trace_ret s p _
    · exact List.prefix_rfl
    · rw [← trace_putBack s]
      exact trace_ret s.putBack p _
    · exact (trace_take s).trans (trace_ret s.take p _)
    · exact (trace_take s).trans (trace_ret s.take p _)
    · exact trace_take s
    · exact (trace_take s).trans (trace_ret s.take p _)
    · exact trace_ret s p _
  · exact List.prefix_rfl
  · exact List.prefix_rfl

theorem EofNext.run {h : List (Action P)} {u : State P} (hs : Inv s) (hu : Inv u)
    (hrun : Run (ofStep step) s h u) (htakes : takes u.trace = takes s.trace)
    (heof : EofNext s.cons) : EofNext u.cons := by
  have htrace : s.trace <+: u.trace :=
    hrun.invariant (I := fun u => s.trace <+: u.trace) List.prefix_rfl
      fun _ _ _ ht _ hstep => ht.trans (trace_step hstep)
  obtain ⟨later, hlater⟩ := htrace
  have hcommitted := Line.committed_after s.trace later
  rw [hlater] at hcommitted
  have htaken : (Line.after u.trace).taken = (Line.after s.trace).taken := by
    have hlen := congrArg List.length htakes
    rw [hu.taken, hs.taken, List.length_take_of_le hu.shows.le,
      List.length_take_of_le hs.shows.le] at hlen
    exact hlen
  obtain ⟨more, hmore⟩ := hcommitted
  rw [hs.shows.eofNext_iff] at heof
  rw [hu.shows.eofNext_iff, Line.unread, htaken, ← hmore,
    List.drop_append_of_le_length hs.shows.le, List.head?_append, ← Line.unread, heof]
  rfl

/-- A read that meets a `^D` after other bytes returns these, and leaves the buffer as it is. -/
theorem Inv.turn_putBack (h : Inv s) (hp : s.place p = .loop rd) (hpos : 0 < rd.n)
    (heof : EofNext s.cons) (hcopied : rd.copied ≠ []) (ok : Bool) :
    step s (.turn p ok) = some (s.ret p rd.copied.length) := by
  have hrd : rd.Ok := h.reader p rd (by rw [hp]; rfl)
  have hfront : s.front = C 'D' := heof.2
  rw [step, hp]
  show some (Console.turn s p rd ok) = _
  rw [Console.turn, if_pos hpos, if_neg heof.1, if_pos hfront, if_pos ((hrd.lt_target_iff hpos).mpr hcopied),
    h.putBack_eq, hrd.value_eq]

/-- A read that meets a `^D` first takes it and returns 0. -/
theorem Inv.turn_eof (h : Inv s) (hp : s.place p = .loop rd) (hpos : 0 < rd.n)
    (heof : EofNext s.cons) (hcopied : rd.copied = []) (ok : Bool) :
    step s (.turn p ok) = some (s.take.ret p 0) := by
  have hrd : rd.Ok := h.reader p rd (by rw [hp]; rfl)
  have hfront : s.front = C 'D' := heof.2
  have hnot : ¬ (rd.n % UINT).toNat < rd.target := by
    rw [hrd.lt_target_iff hpos, hcopied]
    simp
  rw [step, hp]
  show some (Console.turn s p rd ok) = _
  rw [Console.turn, if_pos hpos, if_neg heof.1, if_pos hfront, if_neg hnot, hrd.value_eq, hcopied]
  rfl

/-! ## The line discipline -/

/-- What the console promises in a state. -/
structure Disciplined (s : State P) : Prop where
  /-- `w - r <= e - r` -/
  ordered : (s.cons.w + UINT - s.cons.r) % UINT ≤ (s.cons.e + UINT - s.cons.r) % UINT
  /-- `e - r <= INPUT_BUF_SIZE` -/
  bounded : (s.cons.e + UINT - s.cons.r) % UINT ≤ INPUT_BUF_SIZE
  taken : takes s.trace <+: (Line.after s.trace).committed
  putBack : ∀ p rd ok, s.place p = .loop rd → 0 < rd.n → EofNext s.cons → rd.copied ≠ [] →
    step s (.turn p ok) = some (s.ret p rd.copied.length)
  /-- The next read that takes a byte takes the `^D` and returns 0, whatever happens before. -/
  endOfFile : EofNext s.cons → ∀ h u, Run (ofStep step) s h u → takes u.trace = takes s.trace →
    EofNext u.cons ∧ ∀ p rd ok, u.place p = .loop rd → 0 < rd.n → rd.copied = [] →
      step u (.turn p ok) = some (u.take.ret p 0)

/-- **The console follows its line discipline.** -/
theorem console_line_discipline {buf : ℕ → UInt8} {h : List (Action P)}
    (hrun : Run (ofStep step) (State.init buf) h s) : Disciplined s := by
  have hkeeps : ∀ (t : State P) (a : Action P) (u : State P), Inv t → True → ofStep step t a u →
      Inv u := fun _ _ _ ht _ hstep => ht.of_step hstep
  have hinv : Inv s := hrun.invariant (I := Inv) (Inv.init buf) hkeeps
  have hle := hinv.shows.ring.length_le
  rw [List.length_append] at hle
  have hw : (s.cons.w + UINT - s.cons.r) % UINT = (Line.after s.trace).unread.length :=
    hinv.shows.input.distance (by decide)
  refine ⟨?_, ?_, ?_, ?_, ?_⟩
  · rw [hw, hinv.shows.distance]
    omega
  · rw [hinv.shows.distance]
    exact hle
  · rw [hinv.taken]
    exact List.take_prefix ..
  · intro p rd ok hp hpos heof hcopied
    exact hinv.turn_putBack hp hpos heof hcopied ok
  · intro heof h' u hrun' htakes
    have hu : Inv u := hrun'.invariant (I := Inv) hinv hkeeps
    have hnext := heof.run hinv hu hrun' htakes
    exact ⟨hnext, fun p rd ok hp hpos hcopied => hu.turn_eof hp hpos hnext hcopied ok⟩

/-- Two characters and a `^D` are typed; a read gets the characters, and the next one ends the
file. -/
theorem console_line_discipline_eof : ∃ (h : List (Action Bool)) (s : State Bool),
    Run (ofStep step) (State.init fun _ => 0) h s ∧ Disciplined s ∧
      takes s.trace = [104, 105, C 'D'] ∧ returns s.trace = [(true, 2), (false, 0)] := by
  have hexec : (exec step (State.init fun _ => 0)
      [.consoleread true 10, .turn true true, .intr 104, .intr 105, .intr (C 'D'), .resume true,
        .turn true true, .turn true true, .turn true true, .consoleread false 10,
        .turn false true]).map (fun s : State Bool => (takes s.trace, returns s.trace)) =
      some ([104, 105, C 'D'], [(true, 2), (false, 0)]) := by
    decide +kernel
  obtain ⟨s, hs, hobs⟩ := Option.map_eq_some_iff.mp hexec
  have hrun := run_of_execWith hs
  obtain ⟨htakes, hreturns⟩ := Prod.mk.inj hobs
  exact ⟨_, s, hrun, console_line_discipline hrun, htakes, hreturns⟩

end

end Console
end Xv6
