import Xv6.OperationPrograms
import Xv6.ShellParser
import Mathlib.Data.List.DropRight
import Mathlib.Data.List.TakeWhile
import Mathlib.Data.Nat.Init

/-!
# The grammar of command lines

The lines that the shell accepts, as derivations over tokens:

    line  ::= pipe '&'* [';' line]
    pipe  ::= exec ['|' pipe]
    exec  ::= '(' line ')' redir* | redir* (word redir*)*
    redir ::= ('<' | '>' | '>>') word

A derivation has the tokens it derives and the tree it stands for. The parser returns the tree of
the derivation of its input, and panics if there is none.
-/

namespace Xv6.Shell

open OperationPrograms

/-! ### Tokens -/

inductive Token where
  | bar
  | lpar
  | rpar
  | semi
  | amp
  | lt
  | gt
  | append
  | word (w : List Char)
  deriving DecidableEq, Repr

namespace Token

def ofSymbol : Char → Option Token
  | '|' => some bar
  | '(' => some lpar
  | ')' => some rpar
  | ';' => some semi
  | '&' => some amp
  | '<' => some lt
  | '>' => some gt
  | _ => none

def text : Token → List Char
  | bar => ['|']
  | lpar => ['(']
  | rpar => [')']
  | semi => [';']
  | amp => ['&']
  | lt => ['<']
  | gt => ['>']
  | append => ['>', '>']
  | word w => w

def code : Token → Char
  | bar => '|'
  | lpar => '('
  | rpar => ')'
  | semi => ';'
  | amp => '&'
  | lt => '<'
  | gt => '>'
  | append => '+'
  | word _ => 'a'

theorem code_ne_zero (t : Token) : t.code ≠ '\x00' := by cases t <;> simp [code]

theorem code_ne_word {t : Token} (h : ∀ w, t ≠ word w) : t.code ≠ 'a' := by
  cases t with
  | word w => exact absurd rfl (h w)
  | _ => simp [code]

end Token

/-- A line consists of these tokens. A word is as long as possible, and `>>` is one token. -/
inductive Lex : List Char → List Token → Prop where
  | nil : Lex [] []
  | space {c : Char} {s : List Char} {ts : List Token} : c ∈ whitespace → Lex s ts → Lex (c :: s) ts
  | symbol {c : Char} {s : List Char} {t : Token} {ts : List Token} : Token.ofSymbol c = some t →
      (c = '>' → s.head? ≠ some '>') → Lex s ts → Lex (c :: s) (t :: ts)
  | append {s : List Char} {ts : List Token} : Lex s ts → Lex ('>' :: '>' :: s) (.append :: ts)
  | word {w s : List Char} {ts : List Token} : w ≠ [] → (∀ c ∈ w, wordChar c) →
      (∀ c, s.head? = some c → ¬wordChar c) → Lex s ts → Lex (w ++ s) (.word w :: ts)

variable {s s' : List Char} {ts us : List Token} {n : ℕ} {cmd : Cmd (List Char)} {c : Char}

theorem mem_whitespace_iff : c ∈ whitespace ↔ strchr whitespace c = true := by
  simp [strchr]

theorem ofSymbol_not_space {t : Token} (h : Token.ofSymbol c = some t) :
    strchr whitespace c = false := by
  unfold Token.ofSymbol at h
  split at h <;> first | decide | exact absurd h (by simp)

theorem wordChar_not_space (h : wordChar c) : strchr whitespace c = false := by
  simp only [wordChar, Bool.and_eq_true, Bool.not_eq_true'] at h
  exact h.1

theorem skip_cons_of_space (h : strchr whitespace c = true) : skip (c :: s) = skip s := by
  simp [skip, h]

theorem skip_cons (h : strchr whitespace c = false) : skip (c :: s) = c :: s := by
  simp [skip, h]

theorem skip_skip (s : List Char) : skip (skip s) = skip s := by
  rw [skip, skip, List.dropWhile_idempotent]

theorem Lex.skip (h : Lex s ts) : Lex (Shell.skip s) ts := by
  induction h with
  | nil => exact .nil
  | space hc _ ih =>
    rw [skip_cons_of_space (mem_whitespace_iff.mp hc)]
    exact ih
  | symbol ht hgt h _ =>
    rw [skip_cons (ofSymbol_not_space ht)]
    exact .symbol ht hgt h
  | append h _ =>
    rw [skip_cons (by decide)]
    exact .append h
  | @word w s ts hne hw hs h _ =>
    obtain ⟨c, w, rfl⟩ := List.exists_cons_of_ne_nil hne
    rw [List.cons_append, skip_cons (wordChar_not_space (hw c (by simp)))]
    exact .word hne hw hs h

theorem Lex.head (h : Lex s ts) (hs : Shell.skip s = s) :
    (s = [] ∧ ts = []) ∨
    (∃ c s' t us, s = c :: s' ∧ Token.ofSymbol c = some t ∧ (c = '>' → s'.head? ≠ some '>') ∧
      ts = t :: us ∧ Lex s' us) ∨
    (∃ s' us, s = '>' :: '>' :: s' ∧ ts = .append :: us ∧ Lex s' us) ∨
    (∃ w s' us, w ≠ [] ∧ (∀ c ∈ w, wordChar c) ∧ (∀ c, s'.head? = some c → ¬wordChar c) ∧
      s = w ++ s' ∧ ts = .word w :: us ∧ Lex s' us) := by
  cases h with
  | nil => exact .inl ⟨rfl, rfl⟩
  | @space c s ts hc h =>
    have hlen := List.length_dropWhile_le (strchr whitespace) s
    rw [skip_cons_of_space (mem_whitespace_iff.mp hc)] at hs
    have := congrArg List.length hs
    rw [Shell.skip, List.length_cons] at this
    omega
  | symbol ht hgt h => exact .inr (.inl ⟨_, _, _, _, rfl, ht, hgt, rfl, h⟩)
  | append h => exact .inr (.inr (.inl ⟨_, _, rfl, rfl, h⟩))
  | word hne hw hend h => exact .inr (.inr (.inr ⟨_, _, _, hne, hw, hend, rfl, rfl, h⟩))

theorem takeWhile_word {w : List Char} (hw : ∀ c ∈ w, wordChar c)
    (hs : ∀ c, s.head? = some c → ¬wordChar c) :
    (w ++ s).takeWhile wordChar = w ∧ (w ++ s).dropWhile wordChar = s := by
  rw [List.takeWhile_append_of_pos hw, List.dropWhile_append_of_pos hw]
  cases s with
  | nil => simp
  | cons c s =>
    have hc : wordChar c = false := by simpa using hs c rfl
    simp [hc]

theorem gettoken_lex (h : Lex s ts) :
    match ts with
    | [] => gettoken s = ('\x00', [], [])
    | t :: us => ∃ s', gettoken s = (t.code, t.text, s') ∧ Lex s' us := by
  obtain ⟨hs, rfl⟩ | ⟨c, s', t, us, hs, ht, hgt, rfl, h'⟩ | ⟨s', us, hs, rfl, h'⟩ |
    ⟨w, s', us, hne, hw, hend, hs, rfl, h'⟩ := h.skip.head (skip_skip s)
  · simp only [gettoken, hs]
  · refine ⟨Shell.skip s', ?_, h'.skip⟩
    unfold Token.ofSymbol at ht
    split at ht <;> cases ht
    case h_7 =>
      cases s' with
      | nil => simp [gettoken, hs, Token.code, Token.text]
      | cons d s' =>
        have hd : d ≠ '>' := by simpa using hgt rfl
        simp only [gettoken, hs]
        split <;> simp_all [Token.code, Token.text]
    all_goals simp only [gettoken, hs, Token.code, Token.text]
  · exact ⟨Shell.skip s', by simp only [gettoken, hs, Token.code, Token.text], h'.skip⟩
  · refine ⟨Shell.skip s', ?_, h'.skip⟩
    obtain ⟨htake, hdrop⟩ := takeWhile_word hw hend
    have hword : ∀ c, (w ++ s').head? = some c → wordChar c := by
      obtain ⟨c, w, rfl⟩ := List.exists_cons_of_ne_nil hne
      intro d hd
      obtain rfl : c = d := by simpa using hd
      exact hw c (by simp)
    rw [gettoken, hs]
    split
    case h_1 heq => simp [hne] at heq
    case h_10 => simp only [htake, hdrop, Token.code, Token.text]
    all_goals
      rename_i heq
      rw [heq] at hword
      exact absurd (hword _ rfl) (by decide)

def ahead : List Token → Option Char
  | [] => none
  | .word _ :: _ => none
  | t :: _ => t.text.head?

theorem wordChar_not_symbol (h : wordChar c) : c ∉ symbols := by
  simp only [wordChar, Bool.and_eq_true, Bool.not_eq_true', strchr, List.contains_eq_mem,
    decide_eq_false_iff_not] at h
  exact h.2

theorem peek_lex (toks : List Char) (htoks : toks ⊆ symbols) (h : Lex s ts) :
    ∃ b s', peek toks s = (b, s') ∧ (ahead ts).any (strchr toks) = b ∧ Lex s' ts := by
  obtain ⟨hs, rfl⟩ | ⟨c, s', t, us, hs, ht, hgt, rfl, h'⟩ | ⟨s', us, hs, rfl, h'⟩ |
    ⟨w, s', us, hne, hw, hend, hs, rfl, h'⟩ := h.skip.head (skip_skip s)
  · exact ⟨false, [], by simp [peek, hs], rfl, .nil⟩
  · refine ⟨strchr toks c, c :: s', by simp [peek, hs], ?_, hs ▸ h.skip⟩
    unfold Token.ofSymbol at ht
    split at ht <;> cases ht <;> rfl
  · exact ⟨strchr toks '>', '>' :: '>' :: s', by simp [peek, hs], rfl, hs ▸ h.skip⟩
  · obtain ⟨c, w, rfl⟩ := List.exists_cons_of_ne_nil hne
    have hc : c ∉ toks := fun hc => wordChar_not_symbol (hw c (by simp)) (htoks hc)
    rw [List.cons_append] at hs
    exact ⟨false, c :: (w ++ s'), by simp [peek, hs, strchr, hc], rfl, hs ▸ h.skip⟩

def Next (toks : List Char) (ts : List Token) : Prop :=
  ts = [] ∨ (ahead ts).any (strchr toks) = true

theorem Next.mono {toks toks' : List Char} (h : Next toks ts) (hsub : toks ⊆ toks') :
    Next toks' ts := by
  refine h.imp id fun h => ?_
  cases hts : ahead ts with
  | none => simp [hts] at h
  | some c =>
    simp only [hts, Option.any_some, strchr, List.contains_eq_mem, decide_eq_true_eq] at h ⊢
    exact hsub h

theorem Next.not_ahead {toks toks' : List Char} (h : Next toks ts)
    (hdisj : ∀ c ∈ toks, c ∉ toks') :
    (ahead ts).any (strchr toks') = false := by
  obtain rfl | h := h
  · rfl
  · cases hts : ahead ts with
    | none => rfl
    | some c =>
      simp only [hts, Option.any_some, strchr, List.contains_eq_mem, decide_eq_true_eq,
        decide_eq_false_iff_not] at h ⊢
      exact hdisj c h

theorem Lex.exists_tokens (s : List Char) : ∃ ts, Lex s ts := by
  induction hn : s.length using Nat.strong_induction_on generalizing s with
  | _ n ih =>
    cases s with
    | nil => exact ⟨[], .nil⟩
    | cons c s =>
      simp only [List.length_cons] at hn
      by_cases hc : c ∈ whitespace
      · obtain ⟨ts, hts⟩ := ih s.length (by omega) s rfl
        exact ⟨ts, .space hc hts⟩
      · by_cases hw : wordChar c
        · have hlen := List.length_dropWhile_le wordChar s
          obtain ⟨ts, hts⟩ := ih _ (by omega) (s.dropWhile wordChar) rfl
          refine ⟨.word (c :: s.takeWhile wordChar) :: ts, ?_⟩
          have happ : c :: s = (c :: s.takeWhile wordChar) ++ s.dropWhile wordChar := by
            rw [List.cons_append, List.takeWhile_append_dropWhile]
          rw [happ]
          refine .word (by simp) ?_ ?_ hts
          · intro d hd
            obtain rfl | hd := List.mem_cons.mp hd
            · exact hw
            · exact List.mem_takeWhile_imp hd
          · intro d hd
            have := List.head?_dropWhile_not wordChar s
            rw [hd] at this
            simpa using this
        · have hsymbol : ∃ t, Token.ofSymbol c = some t := by
            have : c ∈ symbols := by
              simpa [wordChar, strchr, hc] using hw
            simp only [symbols, List.mem_cons, List.not_mem_nil, or_false] at this
            obtain rfl | rfl | rfl | rfl | rfl | rfl | rfl := this <;> exact ⟨_, rfl⟩
          obtain ⟨t, ht⟩ := hsymbol
          by_cases hgt : c = '>' ∧ s.head? = some '>'
          · obtain ⟨rfl, hhead⟩ := hgt
            cases s with
            | nil => simp at hhead
            | cons d s =>
              obtain rfl : d = '>' := by simpa using hhead
              obtain ⟨ts, hts⟩ := ih s.length (by simp at hn; omega) s rfl
              exact ⟨.append :: ts, .append hts⟩
          · obtain ⟨ts, hts⟩ := ih s.length (by omega) s rfl
            exact ⟨t :: ts, .symbol ht (fun h₁ h₂ => hgt ⟨h₁, h₂⟩) hts⟩

theorem Lex.unique (h : Lex s ts) (h' : Lex s us) : ts = us := by
  induction ts generalizing s us with
  | nil =>
    have ht := gettoken_lex h
    have hu := gettoken_lex h'
    cases us with
    | nil => rfl
    | cons u us =>
      obtain ⟨s', hu, -⟩ := hu
      rw [ht] at hu
      cases u <;> simp [Token.code] at hu
  | cons t ts ih =>
    obtain ⟨s₁, ht, hts⟩ := gettoken_lex h
    have hu := gettoken_lex h'
    cases us with
    | nil =>
      rw [ht] at hu
      cases t <;> simp [Token.code] at hu
    | cons u us =>
      obtain ⟨s₂, hu, hus⟩ := hu
      rw [ht] at hu
      simp only [Prod.mk.injEq] at hu
      obtain ⟨hcode, htext, rfl⟩ := hu
      rw [ih hts hus]
      cases t <;> cases u <;> simp_all [Token.code, Token.text]

/-! ### Derivations -/

inductive RedirOp where
  | input
  | output
  | append
  deriving DecidableEq, Repr

def RedirOp.token : RedirOp → Token
  | input => .lt
  | output => .gt
  | append => .append

/-- `redir ::= ('<' | '>' | '>>') word`. -/
structure Redirection where
  op : RedirOp
  file : List Char

namespace Redirection

def tokens (r : Redirection) : List Token := [r.op.token, .word r.file]

def wrap (cmd : Cmd (List Char)) (r : Redirection) : Cmd (List Char) :=
  match r.op with
  | .input => .redir cmd r.file oRdonly 0
  | .output => .redir cmd r.file (oWronly ||| oCreate ||| oTrunc) 1
  | .append => .redir cmd r.file (oWronly ||| oCreate) 1

end Redirection

/-- `redir*`. -/
def redirTokens (rs : List Redirection) : List Token := rs.flatMap Redirection.tokens

def wrapAll (cmd : Cmd (List Char)) (rs : List Redirection) : Cmd (List Char) :=
  rs.foldl Redirection.wrap cmd

/-- `(word redir*)*`. -/
def argTokens (args : List (List Char × List Redirection)) : List Token :=
  args.flatMap fun a => .word a.1 :: redirTokens a.2

mutual

/-- `line ::= pipe '&'* [';' line]`. -/
inductive Line where
  | last (first : Pipe) (amps : ℕ)
  | seq (first : Pipe) (amps : ℕ) (rest : Line)

/-- `pipe ::= exec ['|' pipe]`. -/
inductive Pipe where
  | last (first : Exec)
  | pipe (first : Exec) (rest : Pipe)

/-- `exec ::= '(' line ')' redir* | redir* (word redir*)*`. -/
inductive Exec where
  | block (body : Line) (rs : List Redirection)
  | simple (rs : List Redirection) (args : List (List Char × List Redirection))
      (few : args.length ≤ maxArgs - 1)

end

mutual

def Line.tokens : Line → List Token
  | .last first amps => first.tokens ++ List.replicate amps .amp
  | .seq first amps rest => first.tokens ++ (List.replicate amps .amp ++ .semi :: rest.tokens)

def Pipe.tokens : Pipe → List Token
  | .last first => first.tokens
  | .pipe first rest => first.tokens ++ .bar :: rest.tokens

def Exec.tokens : Exec → List Token
  | .block body rs => .lpar :: (body.tokens ++ .rpar :: redirTokens rs)
  | .simple rs args _ => redirTokens rs ++ argTokens args

end

def backs : ℕ → Cmd (List Char) → Cmd (List Char)
  | 0, cmd => cmd
  | n + 1, cmd => backs n (.back cmd)

mutual

def Line.cmd : Line → Cmd (List Char)
  | .last first amps => backs amps first.cmd
  | .seq first amps rest => .list (backs amps first.cmd) rest.cmd

def Pipe.cmd : Pipe → Cmd (List Char)
  | .last first => first.cmd
  | .pipe first rest => .pipe first.cmd rest.cmd

def Exec.cmd : Exec → Cmd (List Char)
  | .block body rs => wrapAll body.cmd rs
  | .simple rs args _ => wrapAll (.exec (args.map Prod.fst)) (rs ++ args.flatMap Prod.snd)

end

/-! ### Loops of the parser -/

theorem addArg_wrap (cmd : Cmd (List Char)) (r : Redirection) (w : List Char) :
    addArg (r.wrap cmd) w = r.wrap (addArg cmd w) := by
  obtain ⟨op, file⟩ := r
  cases op <;> rfl

theorem addArg_wrapAll (cmd : Cmd (List Char)) (rs : List Redirection) (w : List Char) :
    addArg (wrapAll cmd rs) w = wrapAll (addArg cmd w) rs := by
  induction rs generalizing cmd with
  | nil => rfl
  | cons r rs ih => rw [wrapAll, List.foldl_cons, ← wrapAll, ih, addArg_wrap]; rfl

theorem wrapAll_append (cmd : Cmd (List Char)) (rs rs' : List Redirection) :
    wrapAll cmd (rs ++ rs') = wrapAll (wrapAll cmd rs) rs' := List.foldl_append ..

theorem parseredirs_cons (n : ℕ) (cmd : Cmd (List Char)) {r : Redirection}
    (h : Lex s (r.tokens ++ us)) :
    ∃ s', parseredirs asText (n + 1) cmd s = parseredirs asText n (r.wrap cmd) s' ∧ Lex s' us := by
  obtain ⟨op, file⟩ := r
  obtain ⟨b, s₁, hpeek, hb, h₁⟩ := peek_lex ['<', '>'] (by decide) h
  obtain ⟨s₂, htok, h₂⟩ := gettoken_lex h₁
  obtain ⟨s₃, hword, h₃⟩ := gettoken_lex h₂
  obtain rfl : b = true := by cases op <;> exact hb.symm
  refine ⟨s₃, ?_, h₃⟩
  rw [parseredirs, hpeek]
  dsimp only
  rw [htok]
  dsimp only
  rw [hword]
  cases op <;> rfl

theorem parseredirs_missing {op : RedirOp} (h : Lex s (op.token :: us))
    (hus : ∀ w vs, us ≠ .word w :: vs) :
    parseredirs asText (n + 1) cmd s = .error (.panic "missing file for redirection") := by
  obtain ⟨b, s₁, hpeek, hb, h₁⟩ := peek_lex ['<', '>'] (by decide) h
  obtain ⟨s₂, htok, h₂⟩ := gettoken_lex h₁
  obtain rfl : b = true := by cases op <;> exact hb.symm
  have hcode : (gettoken s₂).1 ≠ 'a' := by
    have hget := gettoken_lex h₂
    cases us with
    | nil =>
      rw [hget]
      decide
    | cons t us =>
      obtain ⟨s₃, hget, -⟩ := hget
      rw [hget]
      exact Token.code_ne_word fun w hw => hus w us (by rw [hw])
  rw [parseredirs, hpeek]
  dsimp only
  rw [if_pos rfl, htok]
  dsimp only
  rw [if_pos hcode]
  rfl

theorem parseredirs_nil (n : ℕ) (cmd : Cmd (List Char)) (h : Lex s ts)
    (hts : (ahead ts).any (strchr ['<', '>']) = false) :
    ∃ s', parseredirs asText (n + 1) cmd s = .ok (cmd, s') ∧ Lex s' ts := by
  obtain ⟨b, s₁, hpeek, hb, h₁⟩ := peek_lex ['<', '>'] (by decide) h
  obtain rfl : b = false := hb.symm.trans hts
  refine ⟨s₁, ?_, h₁⟩
  rw [parseredirs, hpeek]
  rfl

theorem redirs_cases (ts : List Token) :
    (∃ (r : Redirection) (us : List Token), ts = r.tokens ++ us) ∨
    (∃ (op : RedirOp) (us : List Token), ts = op.token :: us ∧ ∀ w vs, us ≠ .word w :: vs) ∨
    (ahead ts).any (strchr ['<', '>']) = false := by
  have hop (op : RedirOp) (us : List Token) : (∃ (r : Redirection) (vs : List Token),
      op.token :: us = r.tokens ++ vs) ∨ ∀ w vs, us ≠ .word w :: vs := by
    match us with
    | .word w :: vs => exact .inl ⟨⟨op, w⟩, vs, rfl⟩
    | [] => exact .inr fun w vs h => by simp at h
    | .bar :: us | .lpar :: us | .rpar :: us | .semi :: us | .amp :: us | .lt :: us | .gt :: us
    | .append :: us => exact .inr fun w vs h => by simp at h
  match ts with
  | .lt :: us => exact (hop .input us).imp id fun h => .inl ⟨.input, us, rfl, h⟩
  | .gt :: us => exact (hop .output us).imp id fun h => .inl ⟨.output, us, rfl, h⟩
  | .append :: us => exact (hop .append us).imp id fun h => .inl ⟨.append, us, rfl, h⟩
  | [] | .bar :: us | .lpar :: us | .rpar :: us | .semi :: us | .amp :: us | .word w :: us =>
    exact .inr (.inr rfl)

theorem parseredirs_sound (h : Lex s ts) (hn : ts.length < n) :
    Ends (· ≠ .fuel) (fun r => ∃ rs us, ts = redirTokens rs ++ us ∧ r.1 = wrapAll cmd rs ∧
      Lex r.2 us) (parseredirs asText n cmd s) := by
  induction n generalizing s ts cmd with
  | zero => omega
  | succ n ih =>
    obtain ⟨r, us, rfl⟩ | ⟨op, us, rfl, hus⟩ | hts := redirs_cases ts
    · obtain ⟨s', heq, h'⟩ := parseredirs_cons n cmd h
      rw [heq]
      refine (ih h' (by simp [Redirection.tokens] at hn; omega)).mono ?_
      rintro ⟨c, s''⟩ ⟨rs, vs, rfl, hc, hlex⟩
      exact ⟨r :: rs, vs, by simp [redirTokens], hc, hlex⟩
    · rw [parseredirs_missing h hus]
      simp
    · obtain ⟨s', heq, h'⟩ := parseredirs_nil n cmd h hts
      rw [heq]
      exact ⟨[], ts, rfl, rfl, h'⟩

variable {rs : List Redirection}

theorem parseredirs_complete (h : Lex s (redirTokens rs ++ us))
    (hus : (ahead us).any (strchr ['<', '>']) = false) :
    Ends (· = .fuel) (fun r => r.1 = wrapAll cmd rs ∧ Lex r.2 us) (parseredirs asText n cmd s) := by
  induction n generalizing s rs cmd with
  | zero => exact rfl
  | succ n ih =>
    cases rs with
    | nil =>
      obtain ⟨s', heq, h'⟩ := parseredirs_nil n cmd h hus
      rw [heq]
      exact ⟨rfl, h'⟩
    | cons r rs =>
      rw [redirTokens, List.flatMap_cons, List.append_assoc] at h
      obtain ⟨s', heq, h'⟩ := parseredirs_cons n cmd h
      rw [heq]
      exact ih h'

theorem parseargs_word (n argc : ℕ) (ret : Cmd (List Char)) {w : List Char}
    (h : Lex s (.word w :: us)) :
    ∃ s', parseargs asText (n + 1) argc ret s = (if maxArgs ≤ argc + 1 then
        throw (.panic "too many args")
      else do
        let r ← parseredirs asText n (addArg ret w) s'
        parseargs asText n (argc + 1) r.1 r.2) ∧ Lex s' us := by
  obtain ⟨b, s₁, hpeek, hb, h₁⟩ := peek_lex ['|', ')', '&', ';'] (by decide) h
  obtain rfl : b = false := hb.symm
  obtain ⟨s₂, hget, h₂⟩ := gettoken_lex h₁
  refine ⟨s₂, ?_, h₂⟩
  rw [parseargs, hpeek]
  dsimp only
  rw [if_neg Bool.false_ne_true, hget]
  dsimp only
  rw [if_neg (Token.code_ne_zero _), if_neg (show ¬(Token.word w).code ≠ 'a' from not_not.mpr rfl)]
  rfl

theorem parseargs_nil (n argc : ℕ) (ret : Cmd (List Char)) (h : Lex s ts)
    (hts : Next ['|', ')', '&', ';'] ts) :
    ∃ s', parseargs asText (n + 1) argc ret s = .ok (ret, s') ∧ Lex s' ts := by
  obtain ⟨b, s₁, hpeek, hb, h₁⟩ := peek_lex ['|', ')', '&', ';'] (by decide) h
  rw [parseargs, hpeek]
  obtain rfl | hts := hts
  · have hget : gettoken s₁ = ('\x00', [], []) := gettoken_lex h₁
    obtain rfl : b = false := hb.symm
    refine ⟨[], ?_, .nil⟩
    dsimp only
    rw [if_neg Bool.false_ne_true, hget]
    rfl
  · obtain rfl : b = true := hb.symm.trans hts
    exact ⟨s₁, rfl, h₁⟩

theorem parseargs_error {argc : ℕ} {ret : Cmd (List Char)} {t : Token} (h : Lex s (t :: us))
    (ht : ∀ w, t ≠ .word w) (hts : (ahead (t :: us)).any (strchr ['|', ')', '&', ';']) = false) :
    parseargs asText (n + 1) argc ret s = .error (.panic "syntax") := by
  obtain ⟨b, s₁, hpeek, hb, h₁⟩ := peek_lex ['|', ')', '&', ';'] (by decide) h
  obtain ⟨s₂, hget, h₂⟩ := gettoken_lex h₁
  obtain rfl : b = false := hb.symm.trans hts
  rw [parseargs, hpeek]
  dsimp only
  rw [if_neg Bool.false_ne_true, hget]
  dsimp only
  rw [if_neg (Token.code_ne_zero t), if_pos (Token.code_ne_word ht)]
  rfl

theorem args_cases (ts : List Token) :
    (∃ w us, ts = .word w :: us) ∨
    Next ['|', ')', '&', ';'] ts ∨
    ∃ t us, ts = t :: us ∧ (∀ w, t ≠ .word w) ∧
      (ahead (t :: us)).any (strchr ['|', ')', '&', ';']) = false := by
  match ts with
  | .word w :: us => exact .inl ⟨w, us, rfl⟩
  | [] => exact .inr (.inl (.inl rfl))
  | .bar :: us | .rpar :: us | .semi :: us | .amp :: us => exact .inr (.inl (.inr rfl))
  | .lpar :: us | .lt :: us | .gt :: us | .append :: us =>
    exact .inr (.inr ⟨_, us, rfl, fun w h => by simp at h, rfl⟩)

theorem parseargs_sound {argc : ℕ} {ws : List (List Char)} (h : Lex s ts) (hn : ts.length < n)
    (hargc : argc ≤ maxArgs - 1) :
    Ends (· ≠ .fuel) (fun r => ∃ args us, argc + args.length ≤ maxArgs - 1 ∧
        ts = argTokens args ++ us ∧
        r.1 = wrapAll (.exec (ws ++ args.map Prod.fst)) (rs ++ args.flatMap Prod.snd) ∧ Lex r.2 us)
      (parseargs asText n argc (wrapAll (.exec ws) rs) s) := by
  induction n generalizing s ts argc ws rs with
  | zero => omega
  | succ n ih =>
    obtain ⟨w, us, rfl⟩ | hts | ⟨t, us, rfl, ht, hts⟩ := args_cases ts
    · obtain ⟨s', heq, h'⟩ := parseargs_word n argc (wrapAll (.exec ws) rs) h
      simp only [List.length_cons] at hn
      rw [heq]
      split
      · exact Stop.noConfusion
      · refine Ends.bind ((parseredirs_sound h' (by omega)).mono ?_)
        rintro ⟨c, s₁⟩ ⟨rs', vs, rfl, rfl, h₁⟩
        rw [addArg_wrapAll, ← wrapAll_append]
        refine (ih h₁ (by simp at hn; omega) (by omega)).mono ?_
        rintro ⟨c, s₂⟩ ⟨args, vs', hlen, rfl, hc, h₂⟩
        refine ⟨(w, rs') :: args, vs', by simp; omega, by simp [argTokens], ?_, h₂⟩
        simpa using hc
    · obtain ⟨s', heq, h'⟩ := parseargs_nil n argc (wrapAll (.exec ws) rs) h hts
      rw [heq]
      exact ⟨[], ts, hargc, rfl, by simp, h'⟩
    · rw [parseargs_error h ht hts]
      exact Stop.noConfusion

theorem ahead_args {toks : List Char} (args : List (List Char × List Redirection))
    (hus : Next ['|', ')', '&', ';'] us) (hdisj : ∀ c ∈ ['|', ')', '&', ';'], c ∉ toks) :
    (ahead (argTokens args ++ us)).any (strchr toks) = false := by
  cases args with
  | nil => exact hus.not_ahead hdisj
  | cons a args => rfl

theorem ahead_simple (rs : List Redirection) (args : List (List Char × List Redirection))
    (hus : Next ['|', ')', '&', ';'] us) :
    (ahead (redirTokens rs ++ (argTokens args ++ us))).any (strchr ['(']) = false := by
  cases rs with
  | nil => exact ahead_args args hus (by simp)
  | cons r rs =>
    obtain ⟨op, file⟩ := r
    cases op <;> rfl

theorem parseargs_complete {argc : ℕ} {ws : List (List Char)}
    {args : List (List Char × List Redirection)} (h : Lex s (argTokens args ++ us))
    (hargc : argc + args.length ≤ maxArgs - 1) (hus : Next ['|', ')', '&', ';'] us) :
    Ends (· = .fuel) (fun r =>
        r.1 = wrapAll (.exec (ws ++ args.map Prod.fst)) (rs ++ args.flatMap Prod.snd) ∧ Lex r.2 us)
      (parseargs asText n argc (wrapAll (.exec ws) rs) s) := by
  induction n generalizing s argc ws rs args with
  | zero => exact rfl
  | succ n ih =>
    cases args with
    | nil =>
      obtain ⟨s', heq, h'⟩ := parseargs_nil n argc (wrapAll (.exec ws) rs) h hus
      rw [heq]
      exact ⟨by simp, h'⟩
    | cons a args =>
      obtain ⟨w, rs'⟩ := a
      rw [argTokens, List.flatMap_cons, List.append_assoc, List.cons_append] at h
      obtain ⟨s', heq, h'⟩ := parseargs_word n argc (wrapAll (.exec ws) rs) h
      simp only [List.length_cons] at hargc
      rw [heq, if_neg (by unfold maxArgs at *; omega)]
      refine Ends.bind ((parseredirs_complete h' (ahead_args args hus (by simp))).mono ?_)
      rintro ⟨c, s₁⟩ ⟨rfl, h₁⟩
      rw [addArg_wrapAll, ← wrapAll_append]
      refine (ih h₁ (by omega)).mono ?_
      rintro ⟨c, s₂⟩ ⟨hc, h₂⟩
      exact ⟨by simpa using hc, h₂⟩

theorem parseback_cons (n : ℕ) (cmd : Cmd (List Char)) (h : Lex s (.amp :: us)) :
    ∃ s', parseback (n + 1) cmd s = parseback n (.back cmd) s' ∧ Lex s' us := by
  obtain ⟨b, s₁, hpeek, rfl, h₁⟩ := peek_lex ['&'] (by decide) h
  obtain ⟨s₂, hget, h₂⟩ := gettoken_lex h₁
  refine ⟨s₂, ?_, h₂⟩
  rw [parseback, hpeek]
  dsimp only
  rw [hget]
  rfl

theorem parseback_nil (n : ℕ) (cmd : Cmd (List Char)) (h : Lex s ts)
    (hts : (ahead ts).any (strchr ['&']) = false) :
    ∃ s', parseback (n + 1) cmd s = .ok (cmd, s') ∧ Lex s' ts := by
  obtain ⟨b, s₁, hpeek, hb, h₁⟩ := peek_lex ['&'] (by decide) h
  obtain rfl : b = false := hb.symm.trans hts
  refine ⟨s₁, ?_, h₁⟩
  rw [parseback, hpeek]
  rfl

theorem ahead_eq_amp (h : (ahead ts).any (strchr ['&']) = true) : ∃ us, ts = .amp :: us := by
  match ts, h with
  | .amp :: us, _ => exact ⟨us, rfl⟩

theorem parseback_sound (h : Lex s ts) (hn : ts.length < n) :
    Ends (· ≠ .fuel) (fun r => ∃ k us, ts = List.replicate k .amp ++ us ∧ r.1 = backs k cmd ∧
      Lex r.2 us) (parseback n cmd s) := by
  induction n generalizing s ts cmd with
  | zero => omega
  | succ n ih =>
    by_cases hts : (ahead ts).any (strchr ['&']) = true
    · obtain ⟨us, rfl⟩ := ahead_eq_amp hts
      obtain ⟨s', heq, h'⟩ := parseback_cons n cmd h
      rw [heq]
      refine (ih h' (by simpa using hn)).mono ?_
      rintro ⟨c, s₃⟩ ⟨k, vs, rfl, hc, h₃⟩
      exact ⟨k + 1, vs, by simp [List.replicate_succ], hc, h₃⟩
    · obtain ⟨s', heq, h'⟩ := parseback_nil n cmd h (by simpa using hts)
      rw [heq]
      exact ⟨0, ts, rfl, rfl, h'⟩

theorem parseback_complete {k : ℕ} (h : Lex s (List.replicate k .amp ++ us))
    (hus : (ahead us).any (strchr ['&']) = false) :
    Ends (· = .fuel) (fun r => r.1 = backs k cmd ∧ Lex r.2 us) (parseback n cmd s) := by
  induction n generalizing s k cmd with
  | zero => exact rfl
  | succ n ih =>
    cases k with
    | zero =>
      obtain ⟨s', heq, h'⟩ := parseback_nil n cmd h hus
      rw [heq]
      exact ⟨rfl, h'⟩
    | succ k =>
      rw [List.replicate_succ, List.cons_append] at h
      obtain ⟨s', heq, h'⟩ := parseback_cons n cmd h
      rw [heq]
      exact ih h'

/-! ### The functions of the parser -/

theorem peek_token (toks : List Char) (htoks : toks ⊆ symbols) {t : Token}
    (h : Lex s (t :: us)) (ht : (ahead (t :: us)).any (strchr toks) = true) :
    ∃ s₁ s₂, peek toks s = (true, s₁) ∧ gettoken s₁ = (t.code, t.text, s₂) ∧ Lex s₂ us := by
  obtain ⟨b, s₁, hpeek, hb, h₁⟩ := peek_lex toks htoks h
  obtain ⟨s₂, hget, h₂⟩ := gettoken_lex h₁
  exact ⟨s₁, s₂, by rw [hpeek, ← hb, ht], hget, h₂⟩

/-- What a function of the parser finds: the tokens of a derivation, and its tree. -/
def Finds {D : Type} (tokens : D → List Token) (tree : D → Cmd (List Char)) (ts : List Token)
    (r : Cmd (List Char) × List Char) : Prop :=
  ∃ d us, ts = tokens d ++ us ∧ r.1 = tree d ∧ Lex r.2 us

/-- With fuel `n` for its tokens, each function of the parser panics or finds a derivation. -/
structure Sound (n : ℕ) : Prop where
  line : ∀ s ts, Lex s ts → 4 * ts.length + 4 ≤ n →
    Ends (· ≠ .fuel) (Finds Line.tokens Line.cmd ts) (parseline asText n s)
  pipe : ∀ s ts, Lex s ts → 4 * ts.length + 3 ≤ n →
    Ends (· ≠ .fuel) (Finds Pipe.tokens Pipe.cmd ts) (parsepipe asText n s)
  exec : ∀ s ts, Lex s ts → 4 * ts.length + 2 ≤ n →
    Ends (· ≠ .fuel) (Finds Exec.tokens Exec.cmd ts) (parseexec asText n s)
  block : ∀ s us, Lex s (.lpar :: us) → 4 * us.length + 5 ≤ n →
    Ends (· ≠ .fuel) (Finds Exec.tokens Exec.cmd (.lpar :: us)) (parseblock asText n s)

namespace Sound

theorem parseline_finds (ih : Sound n) (h : Lex s ts) (hn : 4 * ts.length + 3 ≤ n) :
    Ends (· ≠ .fuel) (Finds Line.tokens Line.cmd ts) (parseline asText (n + 1) s) := by
  rw [parseline]
  refine Ends.bind ((ih.pipe s ts h hn).mono ?_)
  rintro ⟨c, s₁⟩ ⟨p, us, rfl, rfl, h₁⟩
  rw [List.length_append] at hn
  refine Ends.bind ((parseback_sound h₁ (by omega)).mono ?_)
  rintro ⟨c, s₂⟩ ⟨k, vs, rfl, rfl, h₂⟩
  rw [List.length_append] at hn
  obtain ⟨b, s₃, hpeek, hb, h₃⟩ := peek_lex [';'] (by decide) h₂
  dsimp only
  rw [hpeek]
  cases b with
  | false => exact ⟨.last p k, vs, by simp [Line.tokens], by simp [Line.cmd], h₃⟩
  | true =>
    obtain ⟨ws, rfl⟩ : ∃ ws, vs = .semi :: ws := by
      match vs, hb with
      | .semi :: ws, _ => exact ⟨ws, rfl⟩
    obtain ⟨s₄, hget, h₄⟩ := gettoken_lex h₃
    dsimp only
    rw [if_pos rfl, hget]
    refine Ends.bind ((ih.line s₄ ws h₄ (by simp at hn; omega)).mono ?_)
    rintro ⟨c, s₅⟩ ⟨d, xs, rfl, rfl, h₅⟩
    exact ⟨.seq p k d, xs, by simp [Line.tokens], by simp [Line.cmd], h₅⟩

theorem parsepipe_finds (ih : Sound n) (h : Lex s ts) (hn : 4 * ts.length + 2 ≤ n) :
    Ends (· ≠ .fuel) (Finds Pipe.tokens Pipe.cmd ts) (parsepipe asText (n + 1) s) := by
  rw [parsepipe]
  refine Ends.bind ((ih.exec s ts h hn).mono ?_)
  rintro ⟨c, s₁⟩ ⟨e, us, rfl, rfl, h₁⟩
  rw [List.length_append] at hn
  obtain ⟨b, s₂, hpeek, hb, h₂⟩ := peek_lex ['|'] (by decide) h₁
  dsimp only
  rw [hpeek]
  cases b with
  | false => exact ⟨.last e, us, by simp [Pipe.tokens], by simp [Pipe.cmd], h₂⟩
  | true =>
    obtain ⟨ws, rfl⟩ : ∃ ws, us = .bar :: ws := by
      match us, hb with
      | .bar :: ws, _ => exact ⟨ws, rfl⟩
    obtain ⟨s₃, hget, h₃⟩ := gettoken_lex h₂
    dsimp only
    rw [if_pos rfl, hget]
    refine Ends.bind ((ih.pipe s₃ ws h₃ (by simp at hn; omega)).mono ?_)
    rintro ⟨c, s₄⟩ ⟨d, xs, rfl, rfl, h₄⟩
    exact ⟨.pipe e d, xs, by simp [Pipe.tokens], by simp [Pipe.cmd], h₄⟩

theorem parseexec_finds (ih : Sound n) (h : Lex s ts) (hn : 4 * ts.length + 1 ≤ n) :
    Ends (· ≠ .fuel) (Finds Exec.tokens Exec.cmd ts) (parseexec asText (n + 1) s) := by
  obtain ⟨b, s₁, hpeek, hb, h₁⟩ := peek_lex ['('] (by decide) h
  rw [parseexec, hpeek]
  dsimp only
  cases b with
  | true =>
    obtain ⟨us, rfl⟩ : ∃ us, ts = .lpar :: us := by
      match ts, hb with
      | .lpar :: us, _ => exact ⟨us, rfl⟩
    rw [if_pos rfl]
    exact ih.block s₁ us h₁ (by simp at hn; omega)
  | false =>
    rw [if_neg Bool.false_ne_true]
    refine Ends.bind ((parseredirs_sound h₁ (by omega)).mono ?_)
    rintro ⟨c, s₂⟩ ⟨rs, us, rfl, rfl, h₂⟩
    rw [List.length_append] at hn
    refine (parseargs_sound h₂ (by omega) (Nat.zero_le _)).mono ?_
    rintro ⟨c, s₃⟩ ⟨args, vs, hlen, rfl, hc, h₃⟩
    exact ⟨.simple rs args (by omega), vs, by simp [Exec.tokens], by simpa [Exec.cmd] using hc, h₃⟩

theorem parseblock_finds (ih : Sound n) (h : Lex s (.lpar :: us)) (hn : 4 * us.length + 4 ≤ n) :
    Ends (· ≠ .fuel) (Finds Exec.tokens Exec.cmd (.lpar :: us))
      (parseblock asText (n + 1) s) := by
  obtain ⟨s₁, s₂, hpeek, hget, h₂⟩ := peek_token ['('] (by decide) h rfl
  rw [parseblock, hpeek]
  dsimp only
  rw [if_neg (by decide), hget]
  refine Ends.bind ((ih.line s₂ us h₂ hn).mono ?_)
  rintro ⟨c, s₃⟩ ⟨d, vs, rfl, rfl, h₃⟩
  rw [List.length_append] at hn
  obtain ⟨b, s₄, hpeek', hb', h₄⟩ := peek_lex [')'] (by decide) h₃
  dsimp only
  rw [hpeek']
  cases b with
  | false => exact Stop.noConfusion
  | true =>
    obtain ⟨ws, rfl⟩ : ∃ ws, vs = .rpar :: ws := by
      match vs, hb' with
      | .rpar :: ws, _ => exact ⟨ws, rfl⟩
    obtain ⟨s₅, hget', h₅⟩ := gettoken_lex h₄
    simp only [List.length_cons] at hn
    dsimp only
    rw [if_neg (by decide), hget']
    refine (parseredirs_sound h₅ (by omega)).mono ?_
    rintro ⟨c, s₆⟩ ⟨rs, xs, rfl, hc, h₆⟩
    exact ⟨.block d rs, xs, by simp [Exec.tokens], by simpa [Exec.cmd] using hc, h₆⟩

end Sound

theorem parse_sound (n : ℕ) : Sound n := by
  induction n with
  | zero => exact ⟨by omega, by omega, by omega, by omega⟩
  | succ n ih =>
    exact ⟨fun _ _ h hn => ih.parseline_finds h (by omega),
      fun _ _ h hn => ih.parsepipe_finds h (by omega),
      fun _ _ h hn => ih.parseexec_finds h (by omega),
      fun _ _ h hn => ih.parseblock_finds h (by omega)⟩

def Returns (tree : Cmd (List Char)) (us : List Token) (r : Cmd (List Char) × List Char) : Prop :=
  r.1 = tree ∧ Lex r.2 us

/-- In front of the tokens of a derivation and a token that may follow it, each function of the
parser returns the tree of the derivation, or fuel `n` is too little. -/
structure Complete (n : ℕ) : Prop where
  line : ∀ s (d : Line) us, Lex s (d.tokens ++ us) → Next [')'] us →
    Ends (· = .fuel) (Returns d.cmd us) (parseline asText n s)
  pipe : ∀ s (d : Pipe) us, Lex s (d.tokens ++ us) → Next [')', '&', ';'] us →
    Ends (· = .fuel) (Returns d.cmd us) (parsepipe asText n s)
  exec : ∀ s (d : Exec) us, Lex s (d.tokens ++ us) → Next ['|', ')', '&', ';'] us →
    Ends (· = .fuel) (Returns d.cmd us) (parseexec asText n s)
  block : ∀ s (d : Line) rs us, Lex s ((Exec.block d rs).tokens ++ us) →
    Next ['|', ')', '&', ';'] us →
    Ends (· = .fuel) (Returns (Exec.block d rs).cmd us) (parseblock asText n s)

namespace Complete

theorem parseline_returns (ih : Complete n) {d : Line} (h : Lex s (d.tokens ++ us))
    (hus : Next [')'] us) :
    Ends (· = .fuel) (Returns d.cmd us) (parseline asText (n + 1) s) := by
  rw [parseline]
  cases d with
  | last p k =>
    rw [Line.tokens, List.append_assoc] at h
    have hnext : Next [')', '&', ';'] (List.replicate k .amp ++ us) := by
      cases k with
      | zero => exact hus.mono (by decide)
      | succ k => exact .inr rfl
    refine Ends.bind ((ih.pipe s p _ h hnext).mono ?_)
    rintro ⟨c, s₁⟩ ⟨rfl, h₁⟩
    refine Ends.bind ((parseback_complete h₁ (hus.not_ahead (by simp))).mono ?_)
    rintro ⟨c, s₂⟩ ⟨rfl, h₂⟩
    obtain ⟨b, s₃, hpeek, hb, h₃⟩ := peek_lex [';'] (by decide) h₂
    obtain rfl : b = false := hb.symm.trans (hus.not_ahead (by simp))
    dsimp only
    rw [hpeek]
    exact ⟨by simp [Line.cmd], h₃⟩
  | seq p k rest =>
    rw [Line.tokens, List.append_assoc, List.append_assoc, List.cons_append] at h
    have hnext : Next [')', '&', ';'] (List.replicate k .amp ++ .semi :: (rest.tokens ++ us)) := by
      cases k with
      | zero => exact .inr rfl
      | succ k => exact .inr rfl
    refine Ends.bind ((ih.pipe s p _ h hnext).mono ?_)
    rintro ⟨c, s₁⟩ ⟨rfl, h₁⟩
    refine Ends.bind ((parseback_complete h₁ rfl).mono ?_)
    rintro ⟨c, s₂⟩ ⟨rfl, h₂⟩
    obtain ⟨s₃, s₄, hpeek, hget, h₄⟩ := peek_token [';'] (by decide) h₂ rfl
    dsimp only
    rw [hpeek]
    dsimp only
    rw [if_pos rfl, hget]
    refine Ends.bind ((ih.line s₄ rest us h₄ hus).mono ?_)
    rintro ⟨c, s₅⟩ ⟨rfl, h₅⟩
    exact ⟨by simp [Line.cmd], h₅⟩

theorem parsepipe_returns (ih : Complete n) {d : Pipe} (h : Lex s (d.tokens ++ us))
    (hus : Next [')', '&', ';'] us) :
    Ends (· = .fuel) (Returns d.cmd us) (parsepipe asText (n + 1) s) := by
  rw [parsepipe]
  cases d with
  | last e =>
    rw [Pipe.tokens] at h
    refine Ends.bind ((ih.exec s e us h (hus.mono (by decide))).mono ?_)
    rintro ⟨c, s₁⟩ ⟨rfl, h₁⟩
    obtain ⟨b, s₂, hpeek, hb, h₂⟩ := peek_lex ['|'] (by decide) h₁
    obtain rfl : b = false := hb.symm.trans (hus.not_ahead (by simp))
    dsimp only
    rw [hpeek]
    exact ⟨by simp [Pipe.cmd], h₂⟩
  | pipe e rest =>
    rw [Pipe.tokens, List.append_assoc, List.cons_append] at h
    refine Ends.bind ((ih.exec s e _ h (.inr rfl)).mono ?_)
    rintro ⟨c, s₁⟩ ⟨rfl, h₁⟩
    obtain ⟨s₂, s₃, hpeek, hget, h₃⟩ := peek_token ['|'] (by decide) h₁ rfl
    dsimp only
    rw [hpeek]
    dsimp only
    rw [if_pos rfl, hget]
    refine Ends.bind ((ih.pipe s₃ rest us h₃ hus).mono ?_)
    rintro ⟨c, s₄⟩ ⟨rfl, h₄⟩
    exact ⟨by simp [Pipe.cmd], h₄⟩

theorem parseexec_returns (ih : Complete n) {d : Exec} (h : Lex s (d.tokens ++ us))
    (hus : Next ['|', ')', '&', ';'] us) :
    Ends (· = .fuel) (Returns d.cmd us) (parseexec asText (n + 1) s) := by
  obtain ⟨b, s₁, hpeek, hb, h₁⟩ := peek_lex ['('] (by decide) h
  rw [parseexec, hpeek]
  dsimp only
  cases d with
  | block body rs =>
    obtain rfl : b = true := by
      rw [← hb, Exec.tokens]
      rfl
    rw [if_pos rfl]
    exact ih.block s₁ body rs us h₁ hus
  | simple rs args few =>
    rw [Exec.tokens, List.append_assoc] at h₁ hb
    obtain rfl : b = false := hb.symm.trans (ahead_simple rs args hus)
    rw [if_neg Bool.false_ne_true]
    refine Ends.bind ((parseredirs_complete h₁ (ahead_args args hus (by simp))).mono ?_)
    rintro ⟨c, s₂⟩ ⟨rfl, h₂⟩
    refine (parseargs_complete h₂ (by omega) hus).mono ?_
    rintro ⟨c, s₃⟩ ⟨hc, h₃⟩
    exact ⟨by simpa [Exec.cmd] using hc, h₃⟩

theorem parseblock_returns (ih : Complete n) {d : Line} (h : Lex s ((Exec.block d rs).tokens ++ us))
    (hus : Next ['|', ')', '&', ';'] us) :
    Ends (· = .fuel) (Returns (Exec.block d rs).cmd us) (parseblock asText (n + 1) s) := by
  rw [Exec.tokens, List.cons_append, List.append_assoc, List.cons_append] at h
  obtain ⟨s₁, s₂, hpeek, hget, h₂⟩ := peek_token ['('] (by decide) h rfl
  rw [parseblock, hpeek]
  dsimp only
  rw [if_neg (by decide), hget]
  refine Ends.bind ((ih.line s₂ d _ h₂ (.inr rfl)).mono ?_)
  rintro ⟨c, s₃⟩ ⟨rfl, h₃⟩
  obtain ⟨s₄, s₅, hpeek', hget', h₅⟩ := peek_token [')'] (by decide) h₃ rfl
  dsimp only
  rw [hpeek']
  dsimp only
  rw [if_neg (by decide), hget']
  refine (parseredirs_complete h₅ (hus.not_ahead (by simp))).mono ?_
  rintro ⟨c, s₆⟩ ⟨hc, h₆⟩
  exact ⟨by simpa [Exec.cmd] using hc, h₆⟩

end Complete

theorem parse_complete (n : ℕ) : Complete n := by
  induction n with
  | zero => exact ⟨fun _ _ _ _ _ => rfl, fun _ _ _ _ _ => rfl, fun _ _ _ _ _ => rfl,
      fun _ _ _ _ _ _ => rfl⟩
  | succ n ih =>
    exact ⟨fun _ _ _ h hus => ih.parseline_returns h hus,
      fun _ _ _ h hus => ih.parsepipe_returns h hus,
      fun _ _ _ h hus => ih.parseexec_returns h hus,
      fun _ _ _ _ h hus => ih.parseblock_returns h hus⟩

/-! ### Command lines -/

theorem parsecmd_sound {buf : List Char} (h : Lex (text buf) ts) (hn : 4 * ts.length + 4 ≤ n) :
    Ends (· ≠ .fuel) (fun cmd => ∃ d : Line, d.tokens = ts ∧ d.cmd = cmd)
      (parsecmd asText n buf) := by
  refine Ends.bind (((parse_sound n).line _ ts h hn).mono ?_)
  rintro ⟨c, s₁⟩ ⟨d, us, rfl, rfl, h₁⟩
  dsimp only
  split
  · exact Stop.noConfusion
  · next hend =>
    obtain ⟨b, s₂, hpeek, -, h₂⟩ := peek_lex [] (by decide) h₁
    rw [hpeek, not_not] at hend
    obtain rfl : s₂ = [] := hend
    refine ⟨d, ?_, rfl⟩
    rw [h₂.unique .nil, List.append_nil]

theorem parsecmd_complete {buf : List Char} {d : Line} (h : Lex (text buf) d.tokens) :
    Ends (· = .fuel) (· = d.cmd) (parsecmd asText n buf) := by
  rw [← List.append_nil d.tokens] at h
  refine Ends.bind (((parse_complete n).line _ d [] h (.inl rfl)).mono ?_)
  rintro ⟨c, s₁⟩ ⟨rfl, h₁⟩
  have hend : (peek [] s₁).2 = [] := by
    obtain ⟨hs, -⟩ | ⟨c, s', t, us, hs, ht, hgt, hts, h'⟩ | ⟨s', us, hs, hts, h'⟩ |
      ⟨w, s', us, hne, hw, hend, hs, hts, h'⟩ := h₁.skip.head (skip_skip s₁)
    · rw [peek, hs]
    all_goals cases hts
  dsimp only
  rw [if_neg (not_not.mpr hend)]
  rfl

/-- `parsecmd` ends on every buffer. It returns the tree of the derivation of the line, if the
line has one, and otherwise panics. -/
theorem parsecmd_accepts_grammar (buf : List Char) :
    ∃ ts, Lex (text buf) ts ∧ (∀ us, Lex (text buf) us → us = ts) ∧
      ∀ fuel, 4 * ts.length + 4 ≤ fuel →
        match parsecmd asText fuel buf with
        | .ok cmd => (∃ d : Line, d.tokens = ts ∧ d.cmd = cmd) ∧
            ∀ d : Line, d.tokens = ts → d.cmd = cmd
        | .error stop => stop ≠ .fuel ∧ ¬∃ d : Line, d.tokens = ts := by
  obtain ⟨ts, h⟩ := Lex.exists_tokens (text buf)
  refine ⟨ts, h, fun us hus => hus.unique h, fun fuel hfuel => ?_⟩
  have hsound := parsecmd_sound h hfuel
  have hcomplete (d : Line) (hd : d.tokens = ts) :
      Ends (· = .fuel) (· = d.cmd) (parsecmd asText fuel buf) :=
    parsecmd_complete (by rwa [hd])
  cases hparse : parsecmd asText fuel buf with
  | ok cmd =>
    rw [hparse] at hsound hcomplete
    exact ⟨hsound, fun d hd => (hcomplete d hd).symm⟩
  | error stop =>
    rw [hparse] at hsound hcomplete
    exact ⟨hsound, fun ⟨d, hd⟩ => hsound (hcomplete d hd)⟩

example : parsecmd asText 40 "a <x b | (c ; d) >>y &".toList = .ok (.back (.pipe
    (.redir (.exec [['a'], ['b']]) ['x'] 0 0)
    (.redir (.list (.exec [['c']]) (.exec [['d']])) ['y'] 0x201 1))) := by decide +kernel

end Xv6.Shell
