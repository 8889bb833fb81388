import Xv6.Lib.Fuel
import Xv6.Param

/-!
# The grammar of the shell

    Line  → Pipe '&'* [';' Line]
    Pipe  → Exec ['|' Pipe]
    Exec  → '(' Line ')' Redir* | Redir* (Word Redir*)*      with fewer than MAXARGS words
    Redir → ('<' | '>' | '>>') Word

A derivation is a tree of `Line`, `Pipe` and `Exec`; `yield` is what it derives, and `tree` the command it
prescribes.  The grammar has one derivation for what it derives at all: a parser over tokens finds it
(`line_upto`), and finds nothing else (`line_ensures`).  `sh.c` is a version of that parser over
characters.

Nothing here depends on what a word is.
-/

namespace Xv6.Sh

open Fuel

abbrev MAXARGS : ℕ := 10

/-! ## Commands -/

/-- `struct cmd` with words of type `W`; `argv` of an `EXEC` is a list. -/
inductive Cmd (W : Type) where
  | exec (argv : List W)
  | redir (cmd : Cmd W) (file : W) (mode fd : ℕ)
  | pipe (left right : Cmd W)
  | list (left right : Cmd W)
  | back (cmd : Cmd W)
  deriving DecidableEq

/-- The same command with other words. -/
def Cmd.map {W V : Type} (f : W → V) : Cmd W → Cmd V
  | .exec argv => .exec (argv.map f)
  | .redir cmd file mode fd => .redir (cmd.map f) (f file) mode fd
  | .pipe left right => .pipe (left.map f) (right.map f)
  | .list left right => .list (left.map f) (right.map f)
  | .back cmd => .back (cmd.map f)

/-! ## Tokens and derivations -/

/-- The kinds of redirection. -/
inductive Op where
  | input
  | output
  | append
  deriving DecidableEq

inductive Token (W : Type) where
  | word (w : W)
  | redir (op : Op)
  | bar
  | amp
  | semi
  | lparen
  | rparen
  deriving DecidableEq

structure Redir (W : Type) where
  op : Op
  file : W

/-- A word of a command and the redirections behind it. -/
structure Arg (W : Type) where
  word : W
  redirs : List (Redir W)

mutual

inductive Line (W : Type) where
  | last (pipe : Pipe W) (amps : ℕ)
  | seq (pipe : Pipe W) (amps : ℕ) (line : Line W)

inductive Pipe (W : Type) where
  | last (exec : Exec W)
  | bar (exec : Exec W) (pipe : Pipe W)

inductive Exec (W : Type) where
  | block (line : Line W) (redirs : List (Redir W))
  | simple (redirs : List (Redir W)) (args : List (Arg W))

end

variable {W : Type} {n : ℕ} {ts : List (Token W)} {P : Token W → Prop} {t : Token W}

/-! ### What is derived -/

def Redir.yield (r : Redir W) : List (Token W) := [.redir r.op, .word r.file]

def Arg.yield (a : Arg W) : List (Token W) := .word a.word :: a.redirs.flatMap Redir.yield

mutual

def Line.yield : Line W → List (Token W)
  | .last pipe amps => pipe.yield ++ List.replicate amps .amp
  | .seq pipe amps line => pipe.yield ++ (List.replicate amps .amp ++ .semi :: line.yield)

def Pipe.yield : Pipe W → List (Token W)
  | .last exec => exec.yield
  | .bar exec pipe => exec.yield ++ .bar :: pipe.yield

def Exec.yield : Exec W → List (Token W)
  | .block line redirs => .lparen :: (line.yield ++ .rparen :: redirs.flatMap Redir.yield)
  | .simple redirs args => redirs.flatMap Redir.yield ++ args.flatMap Arg.yield

end

/-! ### Numbers of words -/

mutual

/-- No command has `MAXARGS` words. -/
def Line.Ok : Line W → Prop
  | .last pipe _ => pipe.Ok
  | .seq pipe _ line => pipe.Ok ∧ line.Ok

def Pipe.Ok : Pipe W → Prop
  | .last exec => exec.Ok
  | .bar exec pipe => exec.Ok ∧ pipe.Ok

def Exec.Ok : Exec W → Prop
  | .block line _ => line.Ok
  | .simple _ args => args.length < MAXARGS

end

/-! ### The command -/

/-- What a redirection opens its file for. -/
def Op.mode : Op → ℕ
  | .input => O_RDONLY
  | .output => O_WRONLY ||| O_CREATE ||| O_TRUNC
  | .append => O_WRONLY ||| O_CREATE

/-- The descriptor that is redirected. -/
def Op.fd : Op → ℕ
  | .input => 0
  | .output => 1
  | .append => 1

/-- A command with a redirection around it. -/
def Redir.wrap (cmd : Cmd W) (r : Redir W) : Cmd W := .redir cmd r.file r.op.mode r.op.fd

mutual

/-- The command of a line: each `&` is around what is in front of it. -/
def Line.tree : Line W → Cmd W
  | .last pipe amps => Nat.iterate Cmd.back amps pipe.tree
  | .seq pipe amps line => .list (Nat.iterate Cmd.back amps pipe.tree) line.tree

def Pipe.tree : Pipe W → Cmd W
  | .last exec => exec.tree
  | .bar exec pipe => .pipe exec.tree pipe.tree

/-- All redirections are around the command, the last one outermost. -/
def Exec.tree : Exec W → Cmd W
  | .block line redirs => redirs.foldl Redir.wrap line.tree
  | .simple redirs args =>
    (redirs ++ args.flatMap Arg.redirs).foldl Redir.wrap (.exec (args.map Arg.word))

end

/-! ## A parser over tokens -/

namespace Parse

abbrev Result (W α : Type) := Res String (α × List (Token W))

def redirs : ℕ → List (Token W) → Result W (List (Redir W))
  | 0, _ => .out
  | n + 1, .redir op :: .word w :: ts =>
    (redirs n ts).bind fun r => .ok (⟨op, w⟩ :: r.1, r.2)
  | _ + 1, .redir _ :: _ => .fail "missing file for redirection"
  | _ + 1, ts => .ok ([], ts)

def amps : ℕ → List (Token W) → Result W ℕ
  | 0, _ => .out
  | n + 1, .amp :: ts => (amps n ts).bind fun r => .ok (r.1 + 1, r.2)
  | _ + 1, ts => .ok (0, ts)

/-- The words of a command that has `argc` words already. -/
def args : ℕ → ℕ → List (Token W) → Result W (List (Arg W))
  | 0, _, _ => .out
  | n + 1, argc, .word w :: ts =>
    if MAXARGS ≤ argc + 1 then .fail "too many args"
    else (redirs n ts).bind fun r =>
      (args n (argc + 1) r.2).bind fun a => .ok (⟨w, r.1⟩ :: a.1, a.2)
  | _ + 1, _, .redir _ :: _ => .fail "syntax"
  | _ + 1, _, .lparen :: _ => .fail "syntax"
  | _ + 1, _, ts => .ok ([], ts)

mutual

def line : ℕ → List (Token W) → Result W (Line W)
  | 0, _ => .out
  | n + 1, ts =>
    (pipe n ts).bind fun p => (amps n p.2).bind fun a =>
      match a.2 with
      | .semi :: ts => (line n ts).bind fun l => .ok (.seq p.1 a.1 l.1, l.2)
      | ts => .ok (.last p.1 a.1, ts)

def pipe : ℕ → List (Token W) → Result W (Pipe W)
  | 0, _ => .out
  | n + 1, ts =>
    (exec n ts).bind fun e =>
      match e.2 with
      | .bar :: ts => (pipe n ts).bind fun p => .ok (.bar e.1 p.1, p.2)
      | ts => .ok (.last e.1, ts)

def exec : ℕ → List (Token W) → Result W (Exec W)
  | 0, _ => .out
  | n + 1, .lparen :: ts => block n ts
  | n + 1, ts =>
    (redirs n ts).bind fun r => (args n 0 r.2).bind fun a => .ok (.simple r.1 a.1, a.2)

/-- The part of a block behind the parenthesis. -/
def block : ℕ → List (Token W) → Result W (Exec W)
  | 0, _ => .out
  | n + 1, ts =>
    (line n ts).bind fun l =>
      match l.2 with
      | .rparen :: ts => (redirs n ts).bind fun r => .ok (.block l.1 r.1, r.2)
      | _ => .fail "syntax - missing )"

end

theorem redirs_of_ne (hts : ¬ ∃ op ts', ts = .redir op :: ts') :
    redirs (n + 1) ts = .ok ([], ts) := by
  rw [redirs]
  · exact fun op w ts' heq => hts ⟨op, _, heq⟩
  · exact fun op ts' heq => hts ⟨op, ts', heq⟩

theorem amps_of_ne (hts : ¬ ∃ ts', ts = .amp :: ts') : amps (n + 1) ts = .ok (0, ts) := by
  rw [amps]
  exact fun ts' heq => hts ⟨ts', heq⟩

theorem exec_of_ne (hts : ¬ ∃ ts', ts = .lparen :: ts') :
    exec (n + 1) ts = (redirs n ts).bind fun r => (args n 0 r.2).bind fun a =>
      .ok (.simple r.1 a.1, a.2) := by
  rw [exec]
  exact fun ts' heq => hts ⟨ts', heq⟩

/-! ### It finds derivations only -/

theorem redirs_ensures (n : ℕ) (ts : List (Token W)) :
    (redirs n ts).Ensures fun r => ts = r.1.flatMap Redir.yield ++ r.2 := by
  fun_induction redirs n ts with
  | case1 => trivial
  | case2 n op w ts ih =>
    refine ih.bind fun r hr => ?_
    rw [hr]
    rfl
  | case3 => trivial
  | case4 => exact rfl

theorem amps_ensures (n : ℕ) (ts : List (Token W)) :
    (amps n ts).Ensures fun r => ts = List.replicate r.1 .amp ++ r.2 := by
  fun_induction amps n ts with
  | case1 => trivial
  | case2 n ts ih =>
    refine ih.bind fun r hr => ?_
    rw [hr]
    rfl
  | case3 => exact rfl

theorem args_ensures (n argc : ℕ) (ts : List (Token W)) (hargc : argc < MAXARGS) :
    (args n argc ts).Ensures fun r =>
      ts = r.1.flatMap Arg.yield ++ r.2 ∧ argc + r.1.length < MAXARGS := by
  fun_induction args n argc ts with
  | case1 => trivial
  | case2 => trivial
  | case3 n argc w ts hlt ih =>
    refine (redirs_ensures n ts).bind fun r hr => (ih r (Nat.lt_of_not_le hlt)).bind fun a ha => ?_
    constructor
    · rw [hr, ha.1, List.flatMap_cons, Arg.yield, List.cons_append, List.cons_append, List.append_assoc]
    · have hlen := ha.2
      rw [List.length_cons]
      omega
  | case4 => trivial
  | case5 => trivial
  | case6 => exact ⟨rfl, hargc⟩

theorem line_ensures (n : ℕ) :
    (∀ ts : List (Token W), (line n ts).Ensures fun r => r.1.Ok ∧ ts = r.1.yield ++ r.2) ∧
    (∀ ts : List (Token W), (pipe n ts).Ensures fun r => r.1.Ok ∧ ts = r.1.yield ++ r.2) ∧
    (∀ ts : List (Token W), (exec n ts).Ensures fun r => r.1.Ok ∧ ts = r.1.yield ++ r.2) ∧
    ∀ ts : List (Token W), (block n ts).Ensures fun r => r.1.Ok ∧ .lparen :: ts = r.1.yield ++ r.2 := by
  induction n with
  | zero => exact ⟨fun _ => trivial, fun _ => trivial, fun _ => trivial, fun _ => trivial⟩
  | succ n ih =>
    obtain ⟨hline, hpipe, hexec, hblock⟩ := ih
    refine ⟨fun ts => ?_, fun ts => ?_, fun ts => ?_, fun ts => ?_⟩
    · rw [line]
      refine (hpipe ts).bind fun p hp => (amps_ensures n p.2).bind fun a ha => ?_
      split
      · rename_i ts' hts'
        refine (hline ts').bind fun l hl => ⟨⟨hp.1, hl.1⟩, ?_⟩
        rw [hp.2, ha, hts', hl.2, Line.yield]
        simp only [List.append_assoc, List.cons_append]
      · refine ⟨hp.1, ?_⟩
        rw [hp.2, ha, Line.yield, List.append_assoc]
    · rw [pipe]
      refine (hexec ts).bind fun e he => ?_
      split
      · rename_i ts' hts'
        refine (hpipe ts').bind fun p hp => ⟨⟨he.1, hp.1⟩, ?_⟩
        rw [he.2, hts', hp.2, Pipe.yield, List.append_assoc, List.cons_append]
      · exact he
    · by_cases hparen : ∃ ts', ts = .lparen :: ts'
      · obtain ⟨ts', rfl⟩ := hparen
        exact hblock ts'
      · rw [exec_of_ne hparen]
        refine (redirs_ensures n ts).bind fun r hr =>
          (args_ensures n 0 r.2 (by decide)).bind fun a ha => ⟨?_, ?_⟩
        · rw [Exec.Ok]
          exact Nat.lt_of_le_of_lt (Nat.le_add_left ..) ha.2
        · rw [hr, ha.1, Exec.yield, List.append_assoc]
    · rw [block]
      refine (hline ts).bind fun l hl => ?_
      split
      · rename_i ts' hts'
        refine (redirs_ensures n ts').bind fun r hr => ⟨hl.1, ?_⟩
        rw [hl.2, hts', hr, Exec.yield, List.cons_append, List.append_assoc, List.cons_append]
      · trivial

/-! ### It finds every derivation -/

/-- The next token, if there is one, has the property. -/
def Next (P : Token W → Prop) (rest : List (Token W)) : Prop := ∀ t ∈ rest.head?, P t

/-- What can follow a line, a pipe and a command. -/
def EndsLine : Token W → Prop
  | .rparen => True
  | _ => False

@[inherit_doc EndsLine]
def EndsPipe : Token W → Prop
  | .amp | .semi | .rparen => True
  | _ => False

@[inherit_doc EndsLine]
def EndsExec : Token W → Prop
  | .bar | .amp | .semi | .rparen => True
  | _ => False

variable {rest : List (Token W)}

theorem Next.imp {Q : Token W → Prop} (hn : Next P rest) (himp : ∀ t, P t → Q t) : Next Q rest :=
  fun t ht => himp t (hn t ht)

theorem redirs_upto (rs : List (Redir W)) (n : ℕ) (hn : Next (fun t => ∀ op, t ≠ .redir op) rest) :
    (redirs n (rs.flatMap Redir.yield ++ rest)).Upto (.ok (rs, rest)) := by
  induction rs generalizing n with
  | nil =>
    cases n with
    | zero => exact .inl rfl
    | succ n =>
      cases rest with
      | nil => exact .refl _
      | cons t rest =>
        cases t with
        | redir op => exact absurd rfl (hn _ rfl op)
        | _ => exact .refl _
  | cons r rs ih =>
    cases n with
    | zero => exact .inl rfl
    | succ n => exact (ih n).bind (.refl _)

theorem amps_upto (k n : ℕ) (hn : Next (fun t => t ≠ .amp) rest) :
    (amps n (List.replicate k .amp ++ rest)).Upto (.ok (k, rest)) := by
  induction k generalizing n with
  | zero =>
    cases n with
    | zero => exact .inl rfl
    | succ n =>
      cases rest with
      | nil => exact .refl _
      | cons t rest =>
        cases t with
        | amp => exact absurd rfl (hn _ rfl)
        | _ => exact .refl _
  | succ k ih =>
    cases n with
    | zero => exact .inl rfl
    | succ n => exact (ih n).bind (.refl _)

theorem next_cons (ht : P t) : Next P (t :: rest) := by
  intro t' ht'
  obtain rfl : t = t' := Option.some.inj ht'
  exact ht

theorem next_args (as : List (Arg W)) (hword : ∀ w, P (.word w)) (hn : Next P rest) :
    Next P (as.flatMap Arg.yield ++ rest) := by
  cases as with
  | nil => exact hn
  | cons a as => exact next_cons (hword a.word)

theorem next_redirs (rs : List (Redir W)) (hredir : ∀ op, P (.redir op)) (hn : Next P rest) :
    Next P (rs.flatMap Redir.yield ++ rest) := by
  cases rs with
  | nil => exact hn
  | cons r rs => exact next_cons (hredir r.op)

theorem next_amps (k : ℕ) (hamp : P .amp) (hn : Next P rest) :
    Next P (List.replicate k .amp ++ rest) := by
  cases k with
  | zero => exact hn
  | succ k => exact next_cons hamp

theorem EndsExec.ne_redir (ht : EndsExec t) (op : Op) : t ≠ .redir op := by
  rintro rfl
  exact ht

theorem args_upto (as : List (Arg W)) (n argc : ℕ) (hlen : argc + as.length < MAXARGS)
    (hn : Next EndsExec rest) :
    (args n argc (as.flatMap Arg.yield ++ rest)).Upto (.ok (as, rest)) := by
  induction as generalizing n argc with
  | nil =>
    cases n with
    | zero => exact .inl rfl
    | succ n =>
      cases rest with
      | nil => exact .refl _
      | cons t rest =>
        have ht := hn t rfl
        cases t with
        | word w => exact ht.elim
        | redir op => exact ht.elim
        | lparen => exact ht.elim
        | _ => exact .refl _
  | cons a as ih =>
    cases n with
    | zero => exact .inl rfl
    | succ n =>
      rw [List.length_cons] at hlen
      have hargc : ¬ MAXARGS ≤ argc + 1 := by omega
      rw [List.flatMap_cons, Arg.yield, List.cons_append, List.cons_append, args, if_neg hargc,
        List.append_assoc]
      have hword : Next (fun t => ∀ op, t ≠ .redir op) (as.flatMap Arg.yield ++ rest) :=
        next_args as (fun _ _ => nofun) (hn.imp fun t ht => ht.ne_redir)
      exact (redirs_upto a.redirs n hword).bind ((ih n (argc + 1) (by omega)).bind (.refl _))

theorem EndsLine.endsPipe (ht : EndsLine t) : EndsPipe t := by
  cases t with
  | rparen => trivial
  | _ => exact ht.elim

theorem EndsPipe.endsExec (ht : EndsPipe t) : EndsExec t := by
  cases t with
  | amp | semi | rparen => trivial
  | _ => exact ht.elim

mutual

theorem line_upto : (d : Line W) → (n : ℕ) → (rest : List (Token W)) → d.Ok → Next EndsLine rest →
    (line n (d.yield ++ rest)).Upto (.ok (d, rest))
  | _, 0, _, _, _ => .inl rfl
  | .last p k, n + 1, rest, hd, hn => by
    rw [Line.yield, List.append_assoc, line]
    have hamps : Next (fun t => t ≠ .amp) rest := hn.imp fun t ht heq => by rw [heq] at ht; exact ht
    refine (pipe_upto p n _ hd (next_amps k trivial (hn.imp fun t => EndsLine.endsPipe))).bind
      ((amps_upto k n hamps).bind ?_)
    cases rest with
    | nil => exact .refl _
    | cons t rest =>
      have ht := hn t rfl
      cases t with
      | rparen => exact .refl _
      | _ => exact ht.elim
  | .seq p k l, n + 1, rest, hd, hn => by
    rw [Line.yield, List.append_assoc, List.append_assoc, line]
    exact (pipe_upto p n _ hd.1 (next_amps k trivial (next_cons (t := .semi) trivial))).bind
      ((amps_upto k n (next_cons (t := .semi) nofun)).bind ((line_upto l n rest hd.2 hn).bind (.refl _)))

theorem pipe_upto : (d : Pipe W) → (n : ℕ) → (rest : List (Token W)) → d.Ok → Next EndsPipe rest →
    (pipe n (d.yield ++ rest)).Upto (.ok (d, rest))
  | _, 0, _, _, _ => .inl rfl
  | .last e, n + 1, rest, hd, hn => by
    rw [Pipe.yield, pipe]
    refine (exec_upto e n rest hd (hn.imp fun t => EndsPipe.endsExec)).bind ?_
    cases rest with
    | nil => exact .refl _
    | cons t rest =>
      have ht := hn t rfl
      cases t with
      | bar => exact ht.elim
      | _ => exact .refl _
  | .bar e p, n + 1, rest, hd, hn => by
    rw [Pipe.yield, List.append_assoc, pipe]
    exact (exec_upto e n _ hd.1 (next_cons (t := .bar) trivial)).bind ((pipe_upto p n rest hd.2 hn).bind (.refl _))

theorem exec_upto : (d : Exec W) → (n : ℕ) → (rest : List (Token W)) → d.Ok → Next EndsExec rest →
    (exec n (d.yield ++ rest)).Upto (.ok (d, rest))
  | _, 0, _, _, _ => .inl rfl
  | .block l rs, 1, rest, hd, hn => .inl rfl
  | .block l rs, n + 2, rest, hd, hn => by
    have hredir : Next (fun t => ∀ op, t ≠ .redir op) rest := hn.imp fun t ht => ht.ne_redir
    rw [Exec.yield, List.cons_append, exec, block, List.append_assoc, List.cons_append]
    exact (line_upto l n _ hd (next_cons (t := .rparen) trivial)).bind ((redirs_upto rs n hredir).bind (.refl _))
  | .simple rs as, n + 1, rest, hd, hn => by
    have hredir : Next (fun t => ∀ op, t ≠ .redir op) (as.flatMap Arg.yield ++ rest) :=
      next_args as (fun _ _ => nofun) (hn.imp fun t ht => ht.ne_redir)
    have hfirst : Next (fun t => t ≠ .lparen) (rs.flatMap Redir.yield ++ (as.flatMap Arg.yield ++ rest)) :=
      next_redirs rs (fun _ => nofun) (next_args as (fun _ => nofun) (hn.imp fun t ht heq => by
        rw [heq] at ht
        exact ht))
    have hparen : ¬ ∃ ts', rs.flatMap Redir.yield ++ (as.flatMap Arg.yield ++ rest) = .lparen :: ts' := by
      rintro ⟨ts', heq⟩
      rw [heq] at hfirst
      exact hfirst _ rfl rfl
    rw [Exec.yield, List.append_assoc, exec_of_ne hparen]
    exact (redirs_upto rs n hredir).bind
      ((args_upto as n 0 ((Nat.zero_add _).symm ▸ hd) hn).bind (.refl _))

end

/-! ### It has enough fuel -/

theorem redirs_halts (n : ℕ) (ts : List (Token W)) (hlen : ts.length < n) :
    (redirs n ts).Halts fun r => r.2.length ≤ ts.length := by
  fun_induction redirs n ts with
  | case1 => exact absurd hlen (Nat.not_lt_zero _)
  | case2 n op w ts ih =>
    simp only [List.length_cons] at hlen ⊢
    exact (ih (by omega)).bind fun r hr => Nat.le_trans hr (by omega)
  | case3 => trivial
  | case4 => exact Nat.le_refl _

theorem amps_halts (n : ℕ) (ts : List (Token W)) (hlen : ts.length < n) :
    (amps n ts).Halts fun r => r.2.length ≤ ts.length := by
  fun_induction amps n ts with
  | case1 => exact absurd hlen (Nat.not_lt_zero _)
  | case2 n ts ih =>
    simp only [List.length_cons] at hlen ⊢
    exact (ih (by omega)).bind fun r hr => Nat.le_trans hr (by omega)
  | case3 => exact Nat.le_refl _

theorem args_halts (n argc : ℕ) (ts : List (Token W)) (hlen : ts.length < n) :
    (args n argc ts).Halts fun r => r.2.length ≤ ts.length := by
  fun_induction args n argc ts with
  | case1 => exact absurd hlen (Nat.not_lt_zero _)
  | case2 => trivial
  | case3 n argc w ts _ ih =>
    simp only [List.length_cons] at hlen ⊢
    refine (redirs_halts n ts (by omega)).bind fun r hr => ?_
    exact (ih r (by omega)).bind fun a ha => Nat.le_trans ha (Nat.le_trans hr (by omega))
  | case4 => trivial
  | case5 => trivial
  | case6 => exact Nat.le_refl _

/-- A call of each function costs fuel, and each round of calls a token. -/
theorem line_halts (n : ℕ) :
    (∀ ts : List (Token W), 4 * ts.length + 4 ≤ n → (line n ts).Halts fun r => r.2.length ≤ ts.length) ∧
    (∀ ts : List (Token W), 4 * ts.length + 3 ≤ n → (pipe n ts).Halts fun r => r.2.length ≤ ts.length) ∧
    (∀ ts : List (Token W), 4 * ts.length + 2 ≤ n → (exec n ts).Halts fun r => r.2.length ≤ ts.length) ∧
    ∀ ts : List (Token W), 4 * ts.length + 5 ≤ n → (block n ts).Halts fun r => r.2.length ≤ ts.length := by
  induction n with
  | zero =>
    exact ⟨fun _ h => absurd h (Nat.not_succ_le_zero _), fun _ h => absurd h (Nat.not_succ_le_zero _),
      fun _ h => absurd h (Nat.not_succ_le_zero _), fun _ h => absurd h (Nat.not_succ_le_zero _)⟩
  | succ n ih =>
    obtain ⟨hline, hpipe, hexec, hblock⟩ := ih
    refine ⟨fun ts hlen => ?_, fun ts hlen => ?_, fun ts hlen => ?_, fun ts hlen => ?_⟩
    · rw [line]
      refine (hpipe ts (by omega)).bind fun p hp => (amps_halts n p.2 (by omega)).bind fun a ha => ?_
      split
      · rename_i ts' hts'
        rw [hts', List.length_cons] at ha
        exact (hline ts' (by omega)).bind fun l hl => Nat.le_trans hl (by omega)
      · exact Nat.le_trans ha hp
    · rw [pipe]
      refine (hexec ts (by omega)).bind fun e he => ?_
      split
      · rename_i ts' hts'
        rw [hts', List.length_cons] at he
        exact (hpipe ts' (by omega)).bind fun p hp => Nat.le_trans hp (by omega)
      · exact he
    · by_cases hparen : ∃ ts', ts = .lparen :: ts'
      · obtain ⟨ts', rfl⟩ := hparen
        rw [List.length_cons] at hlen ⊢
        rw [exec]
        exact (hblock ts' (by omega)).imp fun r hr => Nat.le_trans hr (Nat.le_succ _)
      · rw [exec_of_ne hparen]
        refine (redirs_halts n ts (by omega)).bind fun r hr => ?_
        exact (args_halts n 0 r.2 (by omega)).bind fun a ha => Nat.le_trans ha hr
    · rw [block]
      refine (hline ts (by omega)).bind fun l hl => ?_
      split
      · rename_i ts' hts'
        rw [hts', List.length_cons] at hl
        exact (redirs_halts n ts' (by omega)).bind fun r hr => Nat.le_trans hr (by omega)
      · trivial

end Parse

theorem Line.yield_inj {d d' : Line W} (hd : d.Ok) (hd' : d'.Ok) (heq : d.yield = d'.yield) : d = d' := by
  have hnext : Parse.Next Parse.EndsLine ([] : List (Token W)) := nofun
  have hhalts := (Parse.line_halts (4 * d.yield.length + 4)).1 d.yield (Nat.le_refl _)
  have h := Parse.line_upto d (4 * d.yield.length + 4) [] hd hnext
  have h' := Parse.line_upto d' (4 * d.yield.length + 4) [] hd' hnext
  rw [List.append_nil] at h h'
  rw [← heq] at h'
  have hok := (h.eq hhalts).symm.trans (h'.eq hhalts)
  exact congrArg Prod.fst (Res.ok.inj hok)

end Xv6.Sh
