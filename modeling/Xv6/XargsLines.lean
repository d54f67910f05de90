import Xv6.KernelParameters
import Xv6.TextLines
import Mathlib.Data.List.TakeWhile

/-!
# The commands that xargs runs

`main` of `xargs.c` reads its input byte by byte into a buffer. At a newline it forks, and the child
calls `exec` with the fixed arguments and the line in the buffer.
-/

namespace Xv6.Xargs

open TextLines

def bufSize : ℕ := 512

/-- A store outside `buf` or outside `args`. -/
inductive Fault where
  | buf (m : ℕ)
  | args (n : ℕ)
  deriving DecidableEq, Repr

structure Exec where
  path : List Char
  argv : List (List Char)
  deriving DecidableEq, Repr

/-- `exec(args[0], args)` where `args` are the fixed arguments and a line. -/
def call (args : List (List Char)) (line : List Char) : Exec := ⟨args.headD [], args ++ [line]⟩

def cstring (s : List Char) : List Char := s.takeWhile (· ≠ '\x00')

/-- The loop that copies the fixed arguments to `args`. -/
def copyArgs : (argv args : List (List Char)) → Except Fault (List (List Char))
  | [], args => .ok args
  | a :: argv, args =>
    if maxArg ≤ args.length then .error (.args args.length) else copyArgs argv (args ++ [a])

/-- The loop over the input. `m` bytes of a line are in the buffer, `i` lines came before it, and
`forks` says which calls of `fork` succeed. -/
def readLoop (args : List (List Char)) (forks : ℕ → Bool) :
    (stream : List Char) → (i m : ℕ) → (buf : List Char) → List Exec → Except Fault (List Exec)
  | [], _, _, _, execs => .ok execs
  | c :: stream, i, m, buf, execs =>
    if bufSize ≤ m then
      .error (.buf m)
    else
      let buf := buf.set m c
      if c = '\n' then
        let buf := buf.set m '\x00'
        if maxArg ≤ args.length then
          .error (.args args.length)
        else if maxArg ≤ args.length + 1 then
          .error (.args (args.length + 1))
        else if forks i then
          readLoop args forks stream (i + 1) 0 buf (execs ++ [call args (cstring buf)])
        else
          readLoop args forks stream (i + 1) 0 buf execs
      else
        readLoop args forks stream i (m + 1) buf execs

structure Buffer where
  bytes : List Char
  length_bytes : bytes.length = bufSize

def Buffer.zero : Buffer := ⟨List.replicate bufSize '\x00', List.length_replicate⟩

/-- `main`: the status that it exits with and the calls of `exec`. -/
def main (argv : List (List Char)) (forks : ℕ → Bool) (buf : Buffer) (stream : List Char) :
    Except Fault (ℕ × List Exec) :=
  if argv.length < 2 then
    .ok (1, [])
  else do
    let args ← copyArgs argv.tail []
    let execs ← readLoop args forks stream 0 0 buf.bytes []
    return (0, execs)

def inputLines (stream : List Char) : List (List Char) :=
  lines '\n' stream ++ if rest '\n' stream = [] then [] else [rest '\n' stream]

/-- The calls for lines of which the first is line `i`. -/
def performed (args : List (List Char)) (forks : ℕ → Bool) : ℕ → List (List Char) → List Exec
  | _, [] => []
  | i, l :: ls =>
    if forks i then call args (cstring l) :: performed args forks (i + 1) ls
    else performed args forks (i + 1) ls

variable {args argv : List (List Char)} {forks : ℕ → Bool} {buf l d s : List Char} {i m : ℕ}
  {execs : List Exec}

theorem copyArgs_eq (h : args.length + argv.length ≤ maxArg) :
    copyArgs argv args = .ok (args ++ argv) := by
  induction argv generalizing args with
  | nil => simp [copyArgs]
  | cons a argv ih =>
    rw [List.length_cons] at h
    rw [copyArgs, if_neg (by omega), ih (by simp; omega), List.append_assoc, List.singleton_append]

theorem take_set_succ {c : Char} (h : m < buf.length) :
    (buf.set m c).take (m + 1) = buf.take m ++ [c] := by
  rw [List.take_add_one, List.getElem?_set_self h, List.take_set_of_le (le_refl m)]
  rfl

theorem readLoop_chars (args : List (List Char)) (forks : ℕ → Bool) (d s : List Char) (i : ℕ)
    (execs : List Exec) (hbuf : buf.length = bufSize) (hd : '\n' ∉ d)
    (hm : m + d.length ≤ bufSize) :
    ∃ buf', readLoop args forks (d ++ s) i m buf execs =
        readLoop args forks s i (m + d.length) buf' execs ∧
      buf'.take (m + d.length) = buf.take m ++ d ∧ buf'.length = bufSize := by
  induction d generalizing m buf with
  | nil => exact ⟨buf, rfl, (List.append_nil _).symm, hbuf⟩
  | cons c d ih =>
    simp only [List.mem_cons, not_or] at hd
    rw [List.length_cons] at hm
    have hset : (buf.set m c).length = bufSize := by rw [List.length_set, hbuf]
    obtain ⟨buf', heq, htake, hlen⟩ := ih (m := m + 1) hset hd.2 (by omega)
    rw [List.length_cons, ← Nat.add_assoc, Nat.add_right_comm]
    refine ⟨buf', ?_, ?_, hlen⟩
    · rw [List.cons_append, readLoop, if_neg (by omega)]
      simp only [if_neg (Ne.symm hd.1)]
      exact heq
    · rw [htake, take_set_succ (by omega), List.append_assoc, List.singleton_append]

theorem cstring_append_zero (l s : List Char) : cstring (l ++ '\x00' :: s) = cstring l := by
  induction l with
  | nil => simp [cstring]
  | cons c l ih =>
    simp only [cstring] at ih ⊢
    rw [List.cons_append, List.takeWhile_cons, List.takeWhile_cons, ih]

theorem readLoop_newline (hargs : args.length + 1 < maxArg) (hbuf : buf.length = bufSize)
    (htake : buf.take m = l) (hm : m < bufSize) :
    ∃ buf', readLoop args forks ('\n' :: s) i m buf execs =
        readLoop args forks s (i + 1) 0 buf' (execs ++ performed args forks i [l]) ∧
      buf'.length = bufSize := by
  have hzero : cstring (buf.set m '\x00') = cstring l := by
    rw [List.set_eq_take_append_cons_drop, if_pos (by omega), htake,
      cstring_append_zero]
  refine ⟨buf.set m '\x00', ?_, by simp [hbuf]⟩
  have hfirst : ¬maxArg ≤ args.length := by omega
  rw [readLoop, if_neg (by omega)]
  by_cases hfork : forks i
  · simp [performed, hfork, hzero, hfirst, Nat.not_le.mpr hargs]
  · simp [performed, hfork, hfirst, Nat.not_le.mpr hargs]

theorem readLoop_overrun (hbuf : buf.length = bufSize) (hd : '\n' ∉ d) (hlen : bufSize ≤ d.length)
    (hs : d.length = bufSize → s ≠ []) :
    readLoop args forks (d ++ s) i 0 buf execs = .error (.buf bufSize) := by
  have hsplit : d ++ s = d.take bufSize ++ (d.drop bufSize ++ s) := by
    rw [← List.append_assoc, List.take_append_drop]
  have hfirst : (d.take bufSize).length = bufSize := by rw [List.length_take, min_eq_left hlen]
  obtain ⟨buf', heq, -, -⟩ := readLoop_chars (m := 0) args forks (d.take bufSize)
    (d.drop bufSize ++ s) i execs hbuf (fun h => hd (List.mem_of_mem_take h)) (by omega)
  rw [hsplit, heq, hfirst, Nat.zero_add]
  cases hnext : d.drop bufSize ++ s with
  | nil =>
    obtain ⟨hdrop, rfl⟩ := List.append_eq_nil_iff.mp hnext
    rw [List.drop_eq_nil_iff] at hdrop
    exact absurd rfl (hs (by omega))
  | cons c t => rw [readLoop, if_pos (le_refl bufSize)]

theorem performed_cons (ls : List (List Char)) :
    performed args forks i (l :: ls) =
      performed args forks i [l] ++ performed args forks (i + 1) ls := by
  simp only [performed]
  split <;> rfl

theorem readLoop_eq (hargs : args.length + 1 < maxArg) (hbuf : buf.length = bufSize) :
    readLoop args forks s i 0 buf execs =
      if (∀ l ∈ lines '\n' s, l.length < bufSize) ∧ (rest '\n' s).length ≤ bufSize then
        .ok (execs ++ performed args forks i (lines '\n' s))
      else .error (.buf bufSize) := by
  induction s using lines_induction '\n' generalizing i buf execs with
  | hrest s hs =>
    rw [lines_of_notMem hs, rest_of_notMem hs]
    by_cases hlen : s.length ≤ bufSize
    · obtain ⟨buf', heq, -, -⟩ :=
        readLoop_chars (m := 0) args forks s [] i execs hbuf hs (by omega)
      rw [List.append_nil] at heq
      rw [heq, if_pos ⟨by simp, hlen⟩]
      simp [readLoop, performed]
    · rw [if_neg (fun h => hlen h.2), ← readLoop_overrun (s := []) hbuf hs (by omega) (by omega),
        List.append_nil]
  | hline l s hl ih =>
    rw [lines_append_cons hl, rest_append_cons hl]
    by_cases hlen : l.length < bufSize
    · obtain ⟨buf', heq, htake, hbuf'⟩ :=
        readLoop_chars (m := 0) args forks l ('\n' :: s) i execs hbuf hl (by omega)
      obtain ⟨buf'', hrun, hbuf''⟩ := readLoop_newline hargs hbuf' htake (by omega)
      rw [heq, hrun, ih hbuf'', performed_cons (lines '\n' s), List.append_assoc]
      simp [hlen]
    · rw [if_neg (fun h => hlen (h.1 l (by simp))),
        readLoop_overrun hbuf hl (by omega) (fun _ => by simp)]

theorem length_performed_le (args : List (List Char)) (forks : ℕ → Bool) (i : ℕ)
    (ls : List (List Char)) :
    (performed args forks i ls).length ≤ ls.length := by
  induction ls generalizing i with
  | nil => rfl
  | cons l ls ih =>
    have := ih (i + 1)
    rw [performed]
    split <;> simp only [List.length_cons] <;> omega

theorem cstring_eq_self : cstring l = l ↔ '\x00' ∉ l := by
  rw [cstring, List.takeWhile_eq_self_iff]
  simp only [ne_eq, decide_eq_true_eq]
  exact ⟨fun h hmem => h _ hmem rfl, fun h x hx heq => h (heq ▸ hx)⟩

theorem call_inj {l' : List Char} : call args l = call args l' ↔ l = l' := by
  simp [call]

theorem forall_forks_succ {n : ℕ} :
    (∀ j < n + 1, forks (i + j)) ↔ forks i ∧ ∀ j < n, forks (i + 1 + j) := by
  rw [Nat.forall_lt_succ_left]
  simp only [Nat.add_zero, Nat.add_assoc, Nat.add_comm 1]

theorem performed_eq_map (args : List (List Char)) (forks : ℕ → Bool) (i : ℕ)
    (ls extra : List (List Char)) :
    performed args forks i ls = (ls ++ extra).map (call args) ↔
      extra = [] ∧ (∀ l ∈ ls, '\x00' ∉ l) ∧ ∀ j < ls.length, forks (i + j) := by
  induction ls generalizing i with
  | nil =>
    rw [performed, List.nil_append, eq_comm, List.map_eq_nil_iff]
    simp
  | cons l ls ih =>
    rw [List.length_cons, forall_forks_succ]
    by_cases hfork : forks i
    · rw [performed, if_pos hfork, List.cons_append, List.map_cons, List.cons.injEq, call_inj,
        cstring_eq_self, ih, List.forall_mem_cons]
      simp only [hfork, true_and]
      tauto
    · refine iff_of_false (fun h => ?_) (fun h => hfork h.2.2.1)
      have hlen := congrArg List.length h
      have hle := length_performed_le args forks (i + 1) ls
      rw [performed, if_neg hfork] at hlen
      simp only [List.length_map, List.length_append, List.length_cons] at hlen
      omega

theorem main_eq (buf : Buffer) (hargv : 2 ≤ argv.length) (hmax : argv.length < maxArg) :
    main argv forks buf s =
      if (∀ l ∈ lines '\n' s, l.length < bufSize) ∧ (rest '\n' s).length ≤ bufSize then
        .ok (0, performed argv.tail forks 0 (lines '\n' s))
      else .error (.buf bufSize) := by
  have hargs : argv.tail.length + 1 < maxArg := by
    rw [List.length_tail]
    omega
  rw [main, if_neg (by omega), copyArgs_eq (by simp; omega), List.nil_append]
  change (readLoop argv.tail forks s 0 0 buf.bytes []).bind _ = _
  rw [readLoop_eq hargs buf.length_bytes, List.nil_append]
  split <;> rfl

/-- `xargs` runs the command once for every line, and stores nothing outside of `buf` and `args`, if
and only if the input is empty or ends with a newline, every line has fewer than 512 characters and
no zero, and every `fork` succeeds. -/
theorem xargs_exact_iff (argv : List (List Char)) (forks : ℕ → Bool) (buf : Buffer)
    (stream : List Char) (hargv : 2 ≤ argv.length) (hmax : argv.length < maxArg) :
    main argv forks buf stream = .ok (0, (inputLines stream).map (call argv.tail)) ↔
      rest '\n' stream = [] ∧
      (∀ l ∈ lines '\n' stream, l.length < bufSize ∧ '\x00' ∉ l) ∧
      ∀ i < (lines '\n' stream).length, forks i := by
  have hmap := performed_eq_map argv.tail forks 0 (lines '\n' stream)
    (if rest '\n' stream = [] then [] else [rest '\n' stream])
  have hrest : (if rest '\n' stream = [] then [] else [rest '\n' stream]) = [] ↔
      rest '\n' stream = [] := by
    split <;> simp [*]
  rw [← inputLines, hrest] at hmap
  simp only [Nat.zero_add] at hmap
  rw [main_eq buf hargv hmax]
  by_cases hfit :
      (∀ l ∈ lines '\n' stream, l.length < bufSize) ∧ (rest '\n' stream).length ≤ bufSize
  · rw [if_pos hfit, Except.ok.injEq, Prod.mk.injEq, hmap]
    simp only [true_and]
    constructor
    · rintro ⟨hlast, hnul, hforks⟩
      exact ⟨hlast, fun l hl => ⟨hfit.1 l hl, hnul l hl⟩, hforks⟩
    · rintro ⟨hlast, hlines, hforks⟩
      exact ⟨hlast, fun l hl => (hlines l hl).2, hforks⟩
  · refine iff_of_false ?_ ?_
    · rw [if_neg hfit]
      simp
    · rintro ⟨hlast, hlines, -⟩
      exact hfit ⟨fun l hl => (hlines l hl).1, by simp [hlast]⟩

/-- Two lines are two commands. -/
theorem xargs_exact_two_lines :
    main ["xargs".toList, "echo".toList] (fun _ => true) Buffer.zero "a\nb c\n".toList =
      .ok (0, [⟨"echo".toList, ["echo".toList, "a".toList]⟩,
        ⟨"echo".toList, ["echo".toList, "b c".toList]⟩]) := by
  have h := (xargs_exact_iff ["xargs".toList, "echo".toList] (fun _ => true) Buffer.zero
    "a\nb c\n".toList (by decide) (by decide)).mpr (by decide)
  rw [h]
  decide

/-- A last line without a newline is not run, and a line of 512 characters is stored outside of the
buffer. -/
theorem xargs_loses_last_line :
    main ["xargs".toList, "echo".toList] (fun _ => true) Buffer.zero "a".toList = .ok (0, []) ∧
    inputLines "a".toList = ["a".toList] ∧
    main ["xargs".toList, "echo".toList] (fun _ => true) Buffer.zero
      (List.replicate 512 'a' ++ ['\n']) = .error (.buf 512) := by
  refine ⟨by decide, by decide, ?_⟩
  have hline : '\n' ∉ List.replicate 512 'a' :=
    fun h => absurd (List.eq_of_mem_replicate h) (by decide)
  rw [main_eq Buffer.zero (by decide) (by decide), if_neg]
  · rfl
  · rintro ⟨hlines, -⟩
    have := hlines (List.replicate 512 'a') (by rw [lines_append_cons hline]; exact .head _)
    rw [List.length_replicate] at this
    exact absurd this (by decide)

end Xv6.Xargs
