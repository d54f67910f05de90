import Xv6.ShellParser
import Mathlib.Data.List.DropRight
import Mathlib.Data.List.TakeWhile

/-!
# The strings of a command line

The parser of the shell with trees that hold pointers into the line, and `nulterminate`, which ends
the strings in the line. A pointer is an offset into the buffer; the text between two pointers is
the word of the tree that holds its words themselves.
-/

namespace Xv6.Shell

/-- The pointers `q` and `eq` that `gettoken` sets, and the text between them. -/
structure Word where
  text : List Char
  q : ℕ
  eq : ℕ
  deriving DecidableEq, Repr

/-- The offset of a part of the line that ends where the line does. -/
def pointer (line s : List Char) : ℕ := line.length - s.length

/-- A tree that holds the pointers to its words. -/
def wordIn (line q text : List Char) : Word :=
  ⟨text, pointer line q, pointer line q + text.length⟩

def nulterminate : Cmd Word → List Char → List Char
  | .exec argv, buf => argv.foldl (fun buf w => buf.set w.eq '\x00') buf
  | .redir cmd file _ _, buf => (nulterminate cmd buf).set file.eq '\x00'
  | .pipe left right, buf => nulterminate right (nulterminate left buf)
  | .list left right, buf => nulterminate right (nulterminate left buf)
  | .back cmd, buf => nulterminate cmd buf

namespace Cmd

variable {W V : Type}

def map (f : W → V) : Cmd W → Cmd V
  | .exec argv => .exec (argv.map f)
  | .redir cmd file mode fd => .redir (cmd.map f) (f file) mode fd
  | .pipe left right => .pipe (left.map f) (right.map f)
  | .list left right => .list (left.map f) (right.map f)
  | .back cmd => .back (cmd.map f)

def words : Cmd W → List W
  | .exec argv => argv
  | .redir cmd file _ _ => cmd.words ++ [file]
  | .pipe left right => left.words ++ right.words
  | .list left right => left.words ++ right.words
  | .back cmd => cmd.words

theorem map_congr {f g : W → V} {c : Cmd W} (h : ∀ w ∈ c.words, f w = g w) :
    c.map f = c.map g := by
  induction c with
  | exec argv => exact congrArg Cmd.exec (List.map_congr_left h)
  | redir cmd file mode fd ih =>
    obtain ⟨hcmd, hfile⟩ := List.forall_mem_append.mp h
    rw [map, map, ih hcmd, hfile file (List.mem_singleton_self file)]
  | pipe left right ihl ihr =>
    obtain ⟨hl, hr⟩ := List.forall_mem_append.mp h
    rw [map, map, ihl hl, ihr hr]
  | list left right ihl ihr =>
    obtain ⟨hl, hr⟩ := List.forall_mem_append.mp h
    rw [map, map, ihl hl, ihr hr]
  | back cmd ih => rw [map, map, ih h]

theorem map_addArg (f : W → V) (c : Cmd W) (w : W) :
    (addArg c w).map f = addArg (c.map f) (f w) := by
  induction c with
  | exec argv => simp [addArg, map]
  | redir cmd file mode fd ih => simp [addArg, map, ih]
  | _ => rfl

theorem mem_words_addArg {c : Cmd W} {w v : W} (h : v ∈ (addArg c w).words) :
    v ∈ c.words ∨ v = w := by
  induction c with
  | exec argv => simpa [addArg, words] using h
  | redir cmd file mode fd ih =>
    simp only [addArg, words, List.mem_append, List.mem_singleton] at h ⊢
    tauto
  | _ => exact .inl h

end Cmd

def stringAt (buf : List Char) (q : ℕ) : List Char := text (buf.drop q)

/-- The tree with the strings that its pointers point to. -/
def Cmd.read (buf : List Char) (c : Cmd Word) : Cmd (List Char) := c.map fun w => stringAt buf w.q

/-- A word stands in the line between its pointers, and is as long as possible. -/
structure Word.Marked (line : List Char) (w : Word) : Prop where
  eq_eq : w.eq = w.q + w.text.length
  le : w.eq ≤ line.length
  chars : ∀ c ∈ w.text, wordChar c
  drop_eq : line.drop w.q = w.text ++ line.drop w.eq
  stop : ∀ c, (line.drop w.eq).head? = some c → ¬wordChar c

variable {line s : List Char}

theorem drop_pointer (h : s <:+ line) : line.drop (pointer line s) = s := by
  obtain ⟨t, rfl⟩ := h
  simp [pointer]

theorem skip_suffix (s : List Char) : skip s <:+ s := List.dropWhile_suffix _

theorem gettoken_cases (s : List Char) :
    ∃ mid, skip s = (gettoken s).2.1 ++ mid ∧ (gettoken s).2.2 = skip mid ∧
      ((gettoken s).1 = 'a' → (∀ c ∈ (gettoken s).2.1, wordChar c) ∧
        ∀ c, mid.head? = some c → ¬wordChar c) := by
  unfold gettoken
  split
  case h_1 h => exact ⟨[], h, rfl, by simp⟩
  case h_10 =>
    refine ⟨(skip s).dropWhile wordChar, List.takeWhile_append_dropWhile.symm, rfl, fun _ => ?_⟩
    constructor
    · intro c hc
      exact List.mem_takeWhile_imp hc
    · intro c hc
      have := List.head?_dropWhile_not wordChar (skip s)
      rw [hc] at this
      simpa using this
  case h_9 t _ h => exact ⟨t, h, rfl, by simp⟩
  all_goals
    rename_i t h
    exact ⟨t, h, rfl, by simp⟩

theorem peek_suffix (toks : List Char) (h : s <:+ line) :
    ∃ found s', peek toks s = (found, s') ∧ s' <:+ line := by
  refine ⟨(peek toks s).1, (peek toks s).2, rfl, ?_⟩
  have hsnd : (peek toks s).2 = skip s := by
    unfold peek
    split <;> simp [*]
  rw [hsnd]
  exact (skip_suffix s).trans h

theorem gettoken_suffix (h : s <:+ line) :
    ∃ tok text s', gettoken s = (tok, text, s') ∧ s' <:+ line ∧
      (tok = 'a' → (wordIn line (skip s) text).Marked line) := by
  obtain ⟨mid, hskip, hrest, hword⟩ := gettoken_cases s
  have hsuffix : skip s <:+ line := (skip_suffix s).trans h
  have hmid : mid <:+ line := (List.suffix_append _ mid).trans (hskip ▸ hsuffix)
  refine ⟨(gettoken s).1, (gettoken s).2.1, (gettoken s).2.2, rfl,
    hrest ▸ (skip_suffix mid).trans hmid, fun ha => ?_⟩
  obtain ⟨hchars, hstop⟩ := hword ha
  have hdrop := drop_pointer hsuffix
  have hnext : line.drop (wordIn line (skip s) (gettoken s).2.1).eq = mid := by
    rw [wordIn, ← List.drop_drop, hdrop, hskip, List.drop_left]
  constructor
  · rfl
  · have hlen : (skip s).length = (gettoken s).2.1.length + mid.length := by
      rw [hskip, List.length_append]
    have hle := hsuffix.length_le
    simp only [wordIn, pointer]
    omega
  · exact hchars
  · rw [hnext]
    exact hdrop.trans hskip
  · rw [hnext]
    exact hstop

/-- The parser does the same with pointers and without: it returns the same tree, whose words are
marked, and a part of the line, or stops in the same way. -/
inductive Follows (line : List Char) : Except Stop (Cmd Word × List Char) →
    Except Stop (Cmd (List Char) × List Char) → Prop where
  | ok {c : Cmd Word} {s : List Char} : (∀ w ∈ c.words, w.Marked line) → s <:+ line →
      Follows line (.ok (c, s)) (.ok (c.map Word.text, s))
  | error (e : Stop) : Follows line (.error e) (.error e)

theorem Follows.bind {x : Except Stop (Cmd Word × List Char)}
    {y : Except Stop (Cmd (List Char) × List Char)}
    {f : Cmd Word × List Char → Except Stop (Cmd Word × List Char)}
    {g : Cmd (List Char) × List Char → Except Stop (Cmd (List Char) × List Char)}
    (h : Follows line x y)
    (hf : ∀ c s, (∀ w ∈ c.words, w.Marked line) → s <:+ line →
      Follows line (f (c, s)) (g (c.map Word.text, s))) :
    Follows line (x >>= f) (y >>= g) := by
  cases h with
  | ok hc hs => exact hf _ _ hc hs
  | error e => exact .error e

theorem Follows.ite {b : Prop} [Decidable b] {x x' : Except Stop (Cmd Word × List Char)}
    {y y' : Except Stop (Cmd (List Char) × List Char)} (h : b → Follows line x y)
    (h' : ¬b → Follows line x' y') :
    Follows line (if b then x else x') (if b then y else y') := by
  split
  · exact h ‹_›
  · exact h' ‹_›

theorem parseredirs_follows {c : Cmd Word} (n : ℕ) (hc : ∀ w ∈ c.words, w.Marked line)
    (hs : s <:+ line) :
    Follows line (parseredirs (wordIn line) n c s) (parseredirs asText n (c.map Word.text) s) := by
  induction n generalizing c s with
  | zero => exact .error _
  | succ n ih =>
    have hredir {f : Word} (hf : f.Marked line) (mode fd : ℕ) {s : List Char} (hs : s <:+ line) :
        Follows line (parseredirs (wordIn line) n (.redir c f mode fd) s)
          (parseredirs asText n (.redir (c.map Word.text) f.text mode fd) s) :=
      ih (c := .redir c f mode fd)
        (List.forall_mem_append.mpr ⟨hc, List.forall_mem_singleton.mpr hf⟩) hs
    obtain ⟨more, s₁, hpeek, hs₁⟩ := peek_suffix ['<', '>'] hs
    rw [parseredirs, parseredirs, hpeek]
    refine Follows.ite (fun _ => ?_) fun _ => .ok hc hs₁
    obtain ⟨tok, _, s₂, htok, hs₂, -⟩ := gettoken_suffix hs₁
    obtain ⟨a, file, s₃, hfile, hs₃, hmarked⟩ := gettoken_suffix hs₂
    rw [htok]
    dsimp only
    rw [hfile]
    refine Follows.ite (fun _ => .error _) fun ha => ?_
    have hf := hmarked (not_not.mp ha)
    refine Follows.ite (fun _ => hredir hf _ _ hs₃) fun _ => ?_
    refine Follows.ite (fun _ => hredir hf _ _ hs₃) fun _ => ?_
    exact Follows.ite (fun _ => hredir hf _ _ hs₃) fun _ => ih hc hs₃

theorem parseargs_follows {c : Cmd Word} (n argc : ℕ) (hc : ∀ w ∈ c.words, w.Marked line)
    (hs : s <:+ line) :
    Follows line (parseargs (wordIn line) n argc c s)
      (parseargs asText n argc (c.map Word.text) s) := by
  induction n generalizing argc c s with
  | zero => exact .error _
  | succ n ih =>
    obtain ⟨stop, s₁, hpeek, hs₁⟩ := peek_suffix ['|', ')', '&', ';'] hs
    rw [parseargs, parseargs, hpeek]
    refine Follows.ite (fun _ => .ok hc hs₁) fun _ => ?_
    obtain ⟨tok, arg, s₂, htok, hs₂, hmarked⟩ := gettoken_suffix hs₁
    rw [htok]
    refine Follows.ite (fun _ => .ok hc hs₂) fun _ => ?_
    refine Follows.ite (fun _ => .error _) fun ha => ?_
    refine Follows.ite (fun _ => .error _) fun _ => ?_
    have harg : addArg (c.map Word.text) (asText (skip s₁) arg) =
        (addArg c (wordIn line (skip s₁) arg)).map Word.text :=
      (Cmd.map_addArg Word.text c (wordIn line (skip s₁) arg)).symm
    rw [harg]
    refine (parseredirs_follows n ?_ hs₂).bind fun c s hc hs => ih _ hc hs
    intro w hw
    obtain hw | rfl := Cmd.mem_words_addArg hw
    · exact hc w hw
    · exact hmarked (not_not.mp ha)

theorem parseback_follows {c : Cmd Word} (n : ℕ) (hc : ∀ w ∈ c.words, w.Marked line)
    (hs : s <:+ line) :
    Follows line (parseback n c s) (parseback n (c.map Word.text) s) := by
  induction n generalizing c s with
  | zero => exact .error _
  | succ n ih =>
    obtain ⟨more, s₁, hpeek, hs₁⟩ := peek_suffix ['&'] hs
    rw [parseback, parseback, hpeek]
    refine Follows.ite (fun _ => ?_) fun _ => .ok hc hs₁
    obtain ⟨tok, _, s₂, htok, hs₂, -⟩ := gettoken_suffix hs₁
    rw [htok]
    exact ih (c := .back c) hc hs₂

theorem parse_follows (line : List Char) (n : ℕ) :
    (∀ s, s <:+ line → Follows line (parseline (wordIn line) n s) (parseline asText n s)) ∧
    (∀ s, s <:+ line → Follows line (parsepipe (wordIn line) n s) (parsepipe asText n s)) ∧
    (∀ s, s <:+ line → Follows line (parseblock (wordIn line) n s) (parseblock asText n s)) ∧
    (∀ s, s <:+ line → Follows line (parseexec (wordIn line) n s) (parseexec asText n s)) := by
  induction n with
  | zero =>
    simp only [parseline, parsepipe, parseblock, parseexec]
    exact ⟨fun _ _ => .error _, fun _ _ => .error _, fun _ _ => .error _, fun _ _ => .error _⟩
  | succ n ih =>
    obtain ⟨hline, hpipe, hblock, hexec⟩ := ih
    refine ⟨fun s hs => ?_, fun s hs => ?_, fun s hs => ?_, fun s hs => ?_⟩
    · rw [parseline, parseline]
      refine (hpipe s hs).bind fun c s hc hs => (parseback_follows n hc hs).bind fun c s hc hs => ?_
      obtain ⟨more, s₁, hpeek, hs₁⟩ := peek_suffix [';'] hs
      obtain ⟨tok, _, s₂, htok, hs₂, -⟩ := gettoken_suffix hs₁
      dsimp only
      rw [hpeek]
      refine Follows.ite (fun _ => ?_) fun _ => .ok hc hs₁
      rw [htok]
      refine (hline _ hs₂).bind fun c' s hc' hs => ?_
      exact .ok (c := .list c c') (List.forall_mem_append.mpr ⟨hc, hc'⟩) hs
    · rw [parsepipe, parsepipe]
      refine (hexec s hs).bind fun c s hc hs => ?_
      obtain ⟨more, s₁, hpeek, hs₁⟩ := peek_suffix ['|'] hs
      obtain ⟨tok, _, s₂, htok, hs₂, -⟩ := gettoken_suffix hs₁
      dsimp only
      rw [hpeek]
      refine Follows.ite (fun _ => ?_) fun _ => .ok hc hs₁
      rw [htok]
      refine (hpipe _ hs₂).bind fun c' s hc' hs => ?_
      exact .ok (c := .pipe c c') (List.forall_mem_append.mpr ⟨hc, hc'⟩) hs
    · obtain ⟨opened, s₁, hpeek, hs₁⟩ := peek_suffix ['('] hs
      obtain ⟨tok, _, s₂, htok, hs₂, -⟩ := gettoken_suffix hs₁
      rw [parseblock, parseblock, hpeek]
      refine Follows.ite (fun _ => .error _) fun _ => ?_
      rw [htok]
      refine (hline _ hs₂).bind fun c s hc hs => ?_
      obtain ⟨closed, s₃, hclose, hs₃⟩ := peek_suffix [')'] hs
      obtain ⟨tok, _, s₄, htok, hs₄, -⟩ := gettoken_suffix hs₃
      dsimp only
      rw [hclose]
      refine Follows.ite (fun _ => .error _) fun _ => ?_
      rw [htok]
      exact parseredirs_follows n hc hs₄
    · obtain ⟨opened, s₁, hpeek, hs₁⟩ := peek_suffix ['('] hs
      rw [parseexec, parseexec, hpeek]
      refine Follows.ite (fun _ => hblock _ hs₁) fun _ => ?_
      refine (parseredirs_follows (c := .exec []) n (by simp [Cmd.words]) hs₁).bind
        fun c s hc hs => ?_
      exact parseargs_follows n 0 hc hs

variable {buf : List Char} {w v : Word}

theorem Word.Marked.eq_notMem (hw : w.Marked line) (hv : v.Marked line) (hq : w.q ≤ v.eq) :
    w.eq ≤ v.eq := by
  by_contra hlt
  have hi : v.eq - w.q < w.text.length := by
    have := hw.eq_eq
    omega
  have hget : (line.drop v.eq).head? = some (w.text[v.eq - w.q]) := by
    have hdrop : line.drop v.eq = (line.drop w.q).drop (v.eq - w.q) := by
      rw [List.drop_drop]
      congr 1
      omega
    rw [hdrop, hw.drop_eq, List.head?_drop, List.getElem?_append_left hi,
      List.getElem?_eq_getElem hi]
  exact hv.stop _ hget (hw.chars _ (List.getElem_mem hi))

def terminate (ws : List Word) (buf : List Char) : List Char :=
  ws.foldl (fun buf w => buf.set w.eq '\x00') buf

theorem nulterminate_eq (c : Cmd Word) (buf : List Char) :
    nulterminate c buf = terminate c.words buf := by
  induction c generalizing buf with
  | exec argv => rfl
  | redir cmd file mode fd ih => simp [nulterminate, Cmd.words, terminate, ih]
  | pipe left right ihl ihr => simp [nulterminate, Cmd.words, terminate, ihl, ihr]
  | list left right ihl ihr => simp [nulterminate, Cmd.words, terminate, ihl, ihr]
  | back cmd ih => exact ih buf

theorem getElem?_terminate_of_ne {ws : List Word} {i : ℕ} (h : ∀ w ∈ ws, w.eq ≠ i) :
    (terminate ws buf)[i]? = buf[i]? := by
  induction ws generalizing buf with
  | nil => rfl
  | cons w ws ih =>
    obtain ⟨hw, hws⟩ := List.forall_mem_cons.mp h
    rw [terminate, List.foldl_cons, ← terminate, ih hws, List.getElem?_set_ne hw]

theorem getElem?_terminate_of_mem {ws : List Word} {i : ℕ} (h : ∃ w ∈ ws, w.eq = i)
    (hi : i < buf.length) : (terminate ws buf)[i]? = some '\x00' := by
  induction ws generalizing buf with
  | nil => simp at h
  | cons v ws ih =>
    rw [terminate, List.foldl_cons, ← terminate]
    by_cases hws : ∃ w ∈ ws, w.eq = i
    · exact ih hws (by simpa using hi)
    · obtain ⟨w, hw, rfl⟩ := h
      obtain rfl | hw := List.mem_cons.mp hw
      · rw [getElem?_terminate_of_ne fun u hu heq => hws ⟨u, hu, heq⟩, List.getElem?_set_self hi]
      · exact absurd ⟨w, hw, rfl⟩ hws

theorem text_append_zero {l : List Char} (h : '\x00' ∉ l) (s : List Char) :
    text (l ++ '\x00' :: s) = l := by
  have hl : ∀ c ∈ l, decide (c ≠ '\x00') = true := fun c hc =>
    decide_eq_true (ne_of_mem_of_not_mem hc h)
  rw [text, List.takeWhile_append_of_pos hl]
  simp

theorem stringAt_eq {l : List Char} {q : ℕ} (hl : ∀ i < l.length, buf[q + i]? = l[i]?)
    (hend : buf[q + l.length]? = some '\x00') (hnul : '\x00' ∉ l) : stringAt buf q = l := by
  have htake : (buf.drop q).take l.length = l := by
    refine List.ext_getElem? fun i => ?_
    rw [List.getElem?_take]
    split
    · rw [List.getElem?_drop]
      exact hl i ‹_›
    · rw [List.getElem?_eq_none (by omega)]
  obtain ⟨s, hs⟩ : ∃ s, (buf.drop q).drop l.length = '\x00' :: s := by
    rw [List.drop_drop]
    obtain ⟨hlt, hget⟩ := List.getElem?_eq_some_iff.mp hend
    rw [List.drop_eq_getElem_cons hlt, hget]
    exact ⟨_, rfl⟩
  rw [stringAt, ← List.take_append_drop l.length (buf.drop q), htake, hs, text_append_zero hnul]

theorem text_getElem? {i : ℕ} (hi : i < (text buf).length) : buf[i]? = (text buf)[i]? := by
  obtain ⟨s, hs⟩ := List.takeWhile_prefix (l := buf) (fun c => decide (c ≠ '\x00'))
  conv_lhs => rw [← hs]
  exact List.getElem?_append_left hi

theorem length_text_lt (h : '\x00' ∈ buf) : (text buf).length < buf.length := by
  obtain ⟨l, s, rfl, hl⟩ := List.eq_append_cons_of_mem h
  rw [text_append_zero hl, List.length_append, List.length_cons]
  omega

theorem stringAt_terminate {ws : List Word} (hbuf : '\x00' ∈ buf)
    (hws : ∀ w ∈ ws, w.Marked (text buf)) (hw : w ∈ ws) :
    stringAt (terminate ws buf) w.q = w.text := by
  have hm := hws w hw
  have heq := hm.eq_eq
  refine stringAt_eq (fun i hi => ?_) ?_ ?_
  · have hne : ∀ v ∈ ws, v.eq ≠ w.q + i := by
      intro v hv hi
      have := hm.eq_notMem (hws v hv) (by omega)
      omega
    have hle := hm.le
    rw [getElem?_terminate_of_ne hne, text_getElem? (by omega), ← List.getElem?_drop, hm.drop_eq,
      List.getElem?_append_left hi]
  · rw [← heq]
    exact getElem?_terminate_of_mem ⟨w, hw, rfl⟩ (Nat.lt_of_le_of_lt hm.le (length_text_lt hbuf))
  · intro hmem
    have hline : '\x00' ∈ text buf :=
      List.mem_of_mem_drop (hm.drop_eq ▸ List.mem_append_left _ hmem)
    simpa using List.mem_takeWhile_imp hline

/-- After `nulterminate`, the strings that the tree points to are the words that the parser
recognised. -/
theorem nulterminate_keeps_words (fuel : ℕ) {buf : List Char} (h : '\x00' ∈ buf) :
    (parsecmd (wordIn (text buf)) fuel buf).map (fun c => c.read (nulterminate c buf)) =
      parsecmd asText fuel buf := by
  have hfollows := (parse_follows (text buf) fuel).1 (text buf) List.suffix_rfl
  rw [parsecmd, parsecmd]
  generalize parseline (wordIn (text buf)) fuel (text buf) = x at *
  generalize parseline asText fuel (text buf) = y at *
  cases hfollows with
  | error e => rfl
  | @ok c s hc hs =>
    have hread : c.read (nulterminate c buf) = c.map Word.text := by
      rw [nulterminate_eq]
      exact Cmd.map_congr fun w hw => stringAt_terminate h hc hw
    simp only [bind, Except.bind]
    split
    · rfl
    · exact congrArg Except.ok hread

/-- The line `a>b|c` has a word that ends at an operator, and one that ends at the newline. -/
theorem nulterminate_keeps_words_pipe :
    (parsecmd (wordIn "a>b|c\n".toList) 8 "a>b|c\n\x00".toList).map
        (fun c => c.read (nulterminate c "a>b|c\n\x00".toList)) =
      .ok (.pipe (.redir (.exec [['a']]) ['b'] 0x601 1) (.exec [['c']])) := by
  refine (nulterminate_keeps_words 8 (by decide)).trans ?_
  decide +kernel

end Xv6.Shell
