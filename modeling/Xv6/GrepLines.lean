import Xv6.GrepPatterns
import Xv6.TextLines

/-!
# The lines that grep prints

The loop of `grep` over its input. It reads into a buffer of 1024 bytes behind what is left of an
unfinished line, prints the lines in the buffer that match, and moves the unfinished line after
them to the start of the buffer.
-/

namespace Xv6.Grep

open TextLines

def bufSize : ℕ := 1024

/-- `read` returns bytes of the stream, at most `size` and at least one if there is one to read and
room for it. How many it returns at most is `want`. -/
def read (size want : ℕ) (stream : List Char) : List Char × List Char :=
  stream.splitAt (min (max 1 want) size)

def cstring (buf : List Char) (p : ℕ) : List Char := (buf.drop p).takeWhile (· ≠ '\x00')

/-- `strchr`: how far away the character is, if it stands before the terminating zero. -/
def strchr (c : Char) : List Char → Option ℕ
  | [] => none
  | x :: s =>
    if x = '\x00' then none
    else if x = c then some 0
    else (strchr c s).map (· + 1)

def scan (pattern : List Char) :
    (fuel p : ℕ) → (buf out : List Char) → Option (ℕ × List Char × List Char)
  | 0, _, _, _ => none
  | n + 1, p, buf, out =>
    match strchr '\n' (buf.drop p) with
    | none => some (p, buf, out)
    | some d =>
      let q := p + d
      let buf := buf.set q '\x00'
      if matchRe pattern (cstring buf p) then
        let buf := buf.set q '\n'
        scan pattern n (q + 1) buf (out ++ (buf.drop p).take (q + 1 - p))
      else
        scan pattern n (q + 1) buf out

/-- The loop over the stream. The buffer holds `m` bytes, and `wants i` is for the read after `i`
others. -/
def grepLoop (pattern : List Char) (wants : ℕ → ℕ) :
    (fuel i m : ℕ) → (buf stream out : List Char) → Option (List Char)
  | 0, _, _, _, _, _ => none
  | n + 1, i, m, buf, stream, out =>
    match read (bufSize - m - 1) (wants i) stream with
    | ([], _) => some out
    | (got, stream) => do
      -- the bytes that `read` stores at `buf + m`
      let buf := buf.take m ++ got ++ buf.drop (m + got.length)
      let m := m + got.length
      let buf := buf.set m '\x00'
      let (p, buf, out) ← scan pattern bufSize 0 buf out
      if m > 0 then
        let m := m - p
        -- `memmove(buf, p, m)`
        let buf := (buf.drop p).take m ++ buf.drop m
        grepLoop pattern wants n (i + 1) m buf stream out
      else
        grepLoop pattern wants n (i + 1) m buf stream out

structure Buffer where
  bytes : List Char
  length_bytes : bytes.length = bufSize

def Buffer.zero : Buffer := ⟨List.replicate bufSize '\x00', List.length_replicate⟩

/-- `grep` on a descriptor from which the stream is read: what it writes. -/
def grep (pattern : List Char) (wants : ℕ → ℕ) (buf : Buffer) (stream : List Char) :
    Option (List Char) :=
  grepLoop pattern wants (stream.length + 1) 0 0 buf.bytes stream []

def matching (pattern : List Char) (ls : List (List Char)) : List Char :=
  (ls.filter (matchRe pattern)).flatMap (· ++ ['\n'])

def short (l : List Char) : Bool := l.length < bufSize - 1

variable {pattern l d s junk buf : List Char} {p : ℕ}

theorem matching_append (pattern : List Char) (ls ls' : List (List Char)) :
    matching pattern (ls ++ ls') = matching pattern ls ++ matching pattern ls' := by
  simp [matching]

theorem strchr_line (hnul : '\x00' ∉ l) (hl : '\n' ∉ l) (s : List Char) :
    strchr '\n' (l ++ '\n' :: s) = some l.length := by
  induction l with
  | nil => simp [strchr]
  | cons x l ih =>
    simp only [List.mem_cons, not_or] at hnul hl
    simp [strchr, Ne.symm hnul.1, Ne.symm hl.1, ih hnul.2 hl.2]

theorem strchr_end (hd : '\n' ∉ d) (s : List Char) : strchr '\n' (d ++ '\x00' :: s) = none := by
  induction d with
  | nil => simp [strchr]
  | cons x d ih =>
    simp only [List.mem_cons, not_or] at hd
    simp [strchr, Ne.symm hd.1, ih hd.2]

theorem cstring_eq (h : buf.drop p = l ++ '\x00' :: s) (hnul : '\x00' ∉ l) : cstring buf p = l := by
  have hl : ∀ x ∈ l, decide (x ≠ '\x00') = true := by
    intro x hx
    exact decide_eq_true (ne_of_mem_of_not_mem hx hnul)
  rw [cstring, h, List.takeWhile_append_of_pos hl]
  simp

theorem drop_set {x y : Char} (h : buf.drop p = l ++ y :: s) :
    (buf.set (p + l.length) x).drop p = l ++ x :: s := by
  rw [List.drop_set, if_neg (by omega), h, Nat.add_sub_cancel_left,
    List.set_append_right _ _ le_rfl]
  simp

theorem drop_past {y : Char} (h : buf.drop p = l ++ y :: s) : buf.drop (p + l.length + 1) = s := by
  rw [Nat.add_assoc, ← List.drop_drop, h, List.drop_append, List.drop_eq_nil_of_le (by omega)]
  simp

theorem take_past {y : Char} (h : buf.drop p = l ++ y :: s) :
    (buf.drop p).take (p + l.length + 1 - p) = l ++ [y] := by
  rw [h, Nat.add_assoc, Nat.add_sub_cancel_left, List.take_append,
    List.take_of_length_le (by omega)]
  simp

theorem scan_line (pattern : List Char) (n : ℕ) (out : List Char) (h : buf.drop p = l ++ '\n' :: s)
    (hnul : '\x00' ∉ l) (hl : '\n' ∉ l) :
    ∃ buf', scan pattern (n + 1) p buf out =
        scan pattern n (p + l.length + 1) buf' (out ++ matching pattern [l]) ∧
      buf'.drop (p + l.length + 1) = s ∧ buf'.length = buf.length := by
  have hzero := drop_set (x := '\x00') h
  have hone := drop_set (x := '\n') hzero
  rw [scan, h, strchr_line hnul hl]
  simp only [cstring_eq hzero hnul]
  by_cases hm : matchRe pattern l
  · rw [if_pos hm, take_past hone]
    exact ⟨_, by simp [matching, hm], drop_past hone, by simp⟩
  · rw [if_neg hm]
    exact ⟨_, by simp [matching, hm], drop_past hzero, by simp⟩

theorem scan_eq (pattern : List Char) (fuel : ℕ) (out d : List Char)
    (h : buf.drop p = d ++ '\x00' :: junk) (hnul : '\x00' ∉ d) (hfuel : d.length < fuel) :
    ∃ p' buf', scan pattern fuel p buf out =
        some (p', buf', out ++ matching pattern (lines '\n' d)) ∧
      buf'.drop p' = rest '\n' d ++ '\x00' :: junk ∧ buf'.length = buf.length ∧
      p' + (rest '\n' d).length = p + d.length := by
  induction d using lines_induction '\n' generalizing fuel p buf out with
  | hrest d hd =>
    obtain ⟨n, rfl⟩ := Nat.exists_eq_succ_of_ne_zero (Nat.ne_zero_of_lt hfuel)
    rw [lines_of_notMem hd, rest_of_notMem hd]
    refine ⟨p, buf, ?_, h, rfl, rfl⟩
    simp [scan, h, strchr_end hd, matching]
  | hline l d hl ih =>
    obtain ⟨n, rfl⟩ := Nat.exists_eq_succ_of_ne_zero (Nat.ne_zero_of_lt hfuel)
    simp only [List.mem_append, List.mem_cons, not_or] at hnul
    simp only [List.length_append, List.length_cons] at hfuel ⊢
    rw [List.append_assoc, List.cons_append] at h
    obtain ⟨buf₁, heq, hdrop, hlen⟩ := scan_line pattern n out h hnul.1 hl
    obtain ⟨p', buf', hscan, hrest, hlen', hp'⟩ :=
      ih n (out ++ matching pattern [l]) hdrop hnul.2.2 (by omega)
    have hcons := matching_append pattern [l] (lines '\n' d)
    rw [List.singleton_append] at hcons
    rw [heq, hscan, lines_append_cons hl, rest_append_cons hl, hcons, List.append_assoc]
    exact ⟨p', buf', rfl, hrest, by omega, by omega⟩

theorem takeWhile_short_append (d s : List Char) (h : d.length < bufSize) :
    (lines '\n' (d ++ s)).takeWhile short =
      lines '\n' d ++ (lines '\n' (rest '\n' d ++ s)).takeWhile short := by
  induction d using lines_induction '\n' with
  | hrest d hd => rw [lines_of_notMem hd, rest_of_notMem hd, List.nil_append]
  | hline l d hl ih =>
    simp only [List.length_append, List.length_cons] at h
    have hshort : short l = true := decide_eq_true (by omega)
    rw [List.append_assoc, List.cons_append, lines_append_cons hl, lines_append_cons hl,
      rest_append_cons hl, List.takeWhile_cons_of_pos hshort, ih (by omega), List.cons_append]

theorem takeWhile_short_full (hd : '\n' ∉ d) (hlen : bufSize - 1 ≤ d.length) :
    (lines '\n' (d ++ s)).takeWhile short = [] := by
  by_cases hs : '\n' ∈ s
  · obtain ⟨l, t, rfl, hl⟩ := List.eq_append_cons_of_mem hs
    have hlong : ¬short (d ++ l) := by
      simp only [short, List.length_append, decide_eq_true_eq]
      omega
    rw [← List.append_assoc, lines_append_cons (by simp [hd, hl]), List.takeWhile_cons_of_neg hlong]
  · rw [lines_of_notMem (by simp [hd, hs]), List.takeWhile_nil]

theorem read_cases (size want : ℕ) (stream : List Char) :
    ∃ got left, read size want stream = (got, left) ∧ stream = got ++ left ∧ got.length ≤ size ∧
      (got = [] → stream = [] ∨ size = 0) := by
  refine ⟨_, _, List.splitAt_eq .., (List.take_append_drop _ _).symm, ?_, ?_⟩
  · rw [List.length_take]
    omega
  · intro h
    obtain h | h := List.take_eq_nil_iff.mp h
    · exact .inr (by omega)
    · exact .inl h

theorem refill_eq {m : ℕ} {got : List Char} (hbuf : buf.length = bufSize)
    (hm : m + got.length < bufSize) :
    ∃ junk, (buf.take m ++ got ++ buf.drop (m + got.length)).set (m + got.length) '\x00' =
      (buf.take m ++ got) ++ '\x00' :: junk ∧ m + got.length + 1 + junk.length = bufSize := by
  have hlen : (buf.take m ++ got).length = m + got.length := by
    rw [List.length_append, List.length_take]
    omega
  refine ⟨buf.drop (m + got.length + 1), ?_, ?_⟩
  · rw [List.drop_eq_getElem_cons (by omega), List.set_append_right _ _ (by omega), hlen,
      Nat.sub_self, List.set_cons_zero]
  · rw [List.length_drop]
    omega

theorem grepLoop_round {wants : ℕ → ℕ} {n i m : ℕ} {stream got left out buf' out' : List Char}
    (hread : read (bufSize - m - 1) (wants i) stream = (got, left)) (hgot : 0 < got.length)
    (hscan : scan pattern bufSize 0
      ((buf.take m ++ got ++ buf.drop (m + got.length)).set (m + got.length) '\x00') out =
        some (p, buf', out')) :
    grepLoop pattern wants (n + 1) i m buf stream out =
      grepLoop pattern wants n (i + 1) (m + got.length - p)
        ((buf'.drop p).take (m + got.length - p) ++ buf'.drop (m + got.length - p)) left out' := by
  rw [grepLoop, hread]
  obtain ⟨x, got, rfl⟩ := List.exists_cons_of_ne_nil (List.ne_nil_of_length_pos hgot)
  have hm : m + (x :: got).length > 0 := Nat.lt_of_lt_of_le hgot (Nat.le_add_left _ m)
  simp only [hscan, Option.bind_eq_bind, Option.bind_some, if_pos hm]

/-- The loop over the stream writes the lines that match, up to the first line that does not fit
into the buffer. The first `m` bytes of the buffer are the start of a line. -/
theorem grepLoop_eq {wants : ℕ → ℕ} {fuel i m : ℕ} {stream out : List Char}
    (hbuf : buf.length = bufSize) (hm : m < bufSize) (hd : '\n' ∉ buf.take m)
    (hnul : '\x00' ∉ buf.take m ++ stream) (hfuel : stream.length < fuel) :
    grepLoop pattern wants fuel i m buf stream out =
      some (out ++ matching pattern ((lines '\n' (buf.take m ++ stream)).takeWhile short)) := by
  induction fuel generalizing i m buf stream out with
  | zero => omega
  | succ n ih =>
    obtain ⟨got, left, hread, rfl, hsize, hgot⟩ := read_cases (bufSize - m - 1) (wants i) stream
    obtain rfl | hpos := Nat.eq_zero_or_pos got.length |>.imp_left List.length_eq_zero_iff.mp
    · suffices hnone : (lines '\n' (buf.take m ++ left)).takeWhile short = [] by
        rw [grepLoop, hread, List.nil_append, hnone]
        simp [matching]
      obtain hleft | hfull := hgot rfl
      · rw [List.nil_append] at hleft
        rw [hleft, List.append_nil, lines_of_notMem hd, List.takeWhile_nil]
      · refine takeWhile_short_full hd ?_
        rw [List.length_take]
        omega
    · rw [← List.append_assoc] at hnul
      obtain ⟨hdata, hleft⟩ := not_or.mp (mt List.mem_append.mpr hnul)
      rw [List.length_append] at hfuel
      have hroom : m + got.length < bufSize := by omega
      obtain ⟨junk, hfill, hjunk⟩ := refill_eq hbuf hroom
      have hlen : (buf.take m ++ got).length = m + got.length := by
        rw [List.length_append, List.length_take]
        omega
      obtain ⟨p, buf', hscan, hrest, hlen', hp⟩ :=
        scan_eq (p := 0) pattern bufSize out (buf.take m ++ got) hfill hdata (by omega)
      have hm' : m + got.length - p = (rest '\n' (buf.take m ++ got)).length := by omega
      have htake : (buf'.drop p).take (m + got.length - p) = rest '\n' (buf.take m ++ got) := by
        rw [hrest, hm', List.take_left]
      rw [hfill] at hlen'
      simp only [List.length_append, List.length_cons] at hlen' hlen
      have hnul' : '\x00' ∉ rest '\n' (buf.take m ++ got) ++ left := by
        rw [List.mem_append]
        exact not_or.mpr ⟨fun h => hdata (rest_subset _ h), hleft⟩
      rw [grepLoop_round hread hpos hscan, htake, hm', ih, List.take_left]
      · rw [List.append_assoc, ← matching_append, ← takeWhile_short_append _ _ (by simp; omega),
          List.append_assoc]
      · simp only [List.length_append, List.length_drop]
        omega
      · omega
      · rw [List.take_left]
        exact notMem_rest _
      · rwa [List.take_left]
      · omega

theorem grep_eq {wants : ℕ → ℕ} {buf : Buffer} {stream : List Char} (h : '\x00' ∉ stream) :
    grep pattern wants buf stream =
      some (matching pattern ((lines '\n' stream).takeWhile short)) := by
  rw [grep, grepLoop_eq buf.length_bytes (by decide) (by simp) (by simpa using h) (by omega)]
  simp

theorem matching_eq_nil {ls : List (List Char)} :
    matching pattern ls = [] ↔ ∀ l ∈ ls, matchRe pattern l = false := by
  simp [matching, List.flatMap_eq_nil_iff]

/-- However the stream is read, `grep` prints all its lines that match if and only if none of them
stands at or after a line of 1023 characters or more. -/
theorem grep_complete_iff (pattern : List Char) (wants : ℕ → ℕ) (buf : Buffer) (stream : List Char)
    (h : '\x00' ∉ stream) :
    grep pattern wants buf stream = some (matching pattern (lines '\n' stream)) ↔
      ∀ l ∈ (lines '\n' stream).dropWhile short, matchRe pattern l = false := by
  have hsplit := matching_append pattern ((lines '\n' stream).takeWhile short)
    ((lines '\n' stream).dropWhile short)
  rw [List.takeWhile_append_dropWhile] at hsplit
  rw [grep_eq h, hsplit, Option.some_inj, ← matching_eq_nil]
  simp

/-- Of two lines, in reads of two bytes, the first is printed. -/
theorem grep_complete_two_lines :
    grep ['b'] (fun _ => 2) Buffer.zero ['a', 'b', '\n', 'c', '\n'] = some ['a', 'b', '\n'] := by
  have h := (grep_complete_iff ['b'] (fun _ => 2) Buffer.zero ['a', 'b', '\n', 'c', '\n']
    (by decide)).mpr (by decide)
  rw [h]
  decide

/-- A line of 1023 characters matches and is not printed. -/
theorem grep_loses_long_line :
    grep ['a'] (fun _ => 1) Buffer.zero (List.replicate 1023 'a' ++ ['\n']) = some [] ∧
    matching ['a'] (lines '\n' (List.replicate 1023 'a' ++ ['\n'])) =
      List.replicate 1023 'a' ++ ['\n'] := by
  have hmem (c : Char) (hc : c ≠ 'a') : c ∉ List.replicate 1023 'a' :=
    fun h => hc (List.eq_of_mem_replicate h)
  have hlines : lines '\n' (List.replicate 1023 'a' ++ ['\n']) = [List.replicate 1023 'a'] := by
    rw [lines_append_cons (hmem _ (by decide)), lines_of_notMem List.not_mem_nil]
  have hlong : ¬short (List.replicate 1023 'a') := by
    rw [short, List.length_replicate]
    decide
  have hmatch : matchRe ['a'] (List.replicate 1023 'a') = true := rfl
  have hnul : '\x00' ∉ List.replicate 1023 'a' ++ ['\n'] := by
    rw [List.mem_append]
    exact not_or.mpr ⟨hmem _ (by decide), by decide⟩
  constructor
  · rw [grep_eq hnul, hlines, List.takeWhile_cons_of_neg hlong]
    rfl
  · rw [hlines, matching, List.filter_cons_of_pos hmatch, List.filter_nil, List.flatMap_cons,
      List.flatMap_nil, List.append_nil]

end Xv6.Grep
