import Mathlib.Computability.Language

/-!
# The matcher of grep

`match`, `matchhere` and `matchstar` of `grep.c`, and the language of a pattern that they decide.
A string is the list of its characters, without the zero that ends it.
-/

namespace Xv6.Grep

/-- `matchstar`; `here` is `matchhere` with the pattern that follows the star. -/
def matchstar (c : Char) (here : List Char → Bool) : List Char → Bool
  | [] => here []
  | t :: text => here (t :: text) || ((t == c || c == '.') && matchstar c here text)

/-- `matchhere`: the pattern matches at the beginning of the text. -/
def matchhere : List Char → List Char → Bool
  | [], _ => true
  | c :: re, text =>
    match re with
    | '*' :: re => matchstar c (matchhere re) text
    | re =>
      if c = '$' ∧ re = [] then
        text.isEmpty
      else
        match text with
        | [] => false
        | t :: text => (c == '.' || c == t) && matchhere re text

def matchfrom (re : List Char) : List Char → Bool
  | [] => matchhere re []
  | t :: text => matchhere re (t :: text) || matchfrom re text

/-- `match`. -/
def matchRe : List Char → List Char → Bool
  | '^' :: re, text => matchhere re text
  | re, text => matchfrom re text

open Computability

/-- What a character of a pattern stands for: `.` for every character, any other for itself. -/
def single (c : Char) : Language Char := {w | ∃ x, w = [x] ∧ (c = '.' ∨ x = c)}

/-- A character of a pattern, or a character with a star after it. -/
inductive Item where
  | one (c : Char)
  | star (c : Char)
  deriving DecidableEq, Repr

def Item.language : Item → Language Char
  | one c => single c
  | star c => (single c)∗

/-- A pattern: whether it is tied to the start of the text by `^`, its items, and whether it is tied
to the end of the text by `$`. -/
structure Pattern where
  start : Bool
  items : List Item
  stop : Bool
  deriving DecidableEq, Repr

namespace Pattern

def cons (i : Item) (p : Pattern) : Pattern := { p with items := i :: p.items }

/-- The pattern without `^`. A `*` makes a star of the character before it, whatever that is, and a
`$` at the end ties the pattern to the end of the text. All else stands for itself. -/
def read : List Char → Pattern
  | [] => ⟨false, [], false⟩
  | c :: re =>
    match re with
    | '*' :: re => (read re).cons (.star c)
    | re =>
      if c = '$' ∧ re = [] then ⟨false, [], true⟩
      else (read re).cons (.one c)

def ofText : List Char → Pattern
  | '^' :: re => { read re with start := true }
  | re => read re

/-- The strings that the items of a pattern stand for, one after the other. -/
def language (p : Pattern) : Language Char := (p.items.map Item.language).prod

/-- A part of the text is in the language of the pattern, and it stands at the start and at the end
where the pattern asks for that. -/
def Occurs (p : Pattern) (text : List Char) : Prop :=
  ∃ u w v, text = u ++ w ++ v ∧ w ∈ p.language ∧ (p.start → u = []) ∧ (p.stop → v = [])

/-- The text begins with a string of the language of the pattern. -/
def Leads (p : Pattern) (text : List Char) : Prop :=
  ∃ w v, text = w ++ v ∧ w ∈ p.language ∧ (p.stop → v = [])

end Pattern

variable {c : Char} {re text : List Char}

theorem cons_mem_single_mul {l : Language Char} {w : List Char} :
    w ∈ single c * l ↔ ∃ x v, w = x :: v ∧ (c = '.' ∨ x = c) ∧ v ∈ l := by
  rw [Language.mem_mul]
  constructor
  · rintro ⟨_, ⟨x, rfl, hx⟩, v, hv, rfl⟩
    exact ⟨x, v, rfl, hx, hv⟩
  · rintro ⟨x, v, rfl, hx, hv⟩
    exact ⟨[x], ⟨x, rfl, hx⟩, v, hv, rfl⟩

theorem mem_single_kstar {w : List Char} :
    w ∈ (single c)∗ ↔ w = [] ∨ ∃ x v, w = x :: v ∧ (c = '.' ∨ x = c) ∧ v ∈ (single c)∗ := by
  rw [← cons_mem_single_mul, ← Language.mem_one, ← Language.mem_add,
    Language.one_add_self_mul_kstar_eq_kstar]

theorem matchstar_iff {here : List Char → Bool} :
    matchstar c here text ↔ ∃ w v, text = w ++ v ∧ w ∈ (single c)∗ ∧ here v := by
  induction text with
  | nil =>
    simp only [matchstar, List.nil_eq, List.append_eq_nil_iff]
    constructor
    · intro h
      exact ⟨[], [], ⟨rfl, rfl⟩, Language.nil_mem_kstar _, h⟩
    · rintro ⟨w, v, ⟨rfl, rfl⟩, -, h⟩
      exact h
  | cons t text ih =>
    simp only [matchstar, Bool.or_eq_true, Bool.and_eq_true, beq_iff_eq, ih]
    constructor
    · rintro (h | ⟨ht, w, v, rfl, hw, h⟩)
      · exact ⟨[], t :: text, rfl, Language.nil_mem_kstar _, h⟩
      · exact ⟨t :: w, v, rfl, mem_single_kstar.mpr (.inr ⟨t, w, rfl, ht.symm, hw⟩), h⟩
    · rintro ⟨w, v, heq, hw, h⟩
      obtain rfl | ⟨x, w, rfl, hx, hrest⟩ := mem_single_kstar.mp hw
      · rw [List.nil_append] at heq
        exact .inl (heq ▸ h)
      · obtain ⟨rfl, rfl⟩ := List.cons.inj heq
        exact .inr ⟨hx.symm, w, v, rfl, hrest, h⟩

namespace Pattern

variable {p : Pattern}

theorem leads_nil (h : p.items = []) : p.Leads text ↔ (p.stop → text = []) := by
  simp [Leads, language, h]

theorem leads_cons {i : Item} :
    (p.cons i).Leads text ↔ ∃ w v, text = w ++ v ∧ w ∈ i.language ∧ p.Leads v := by
  simp only [Leads, language, cons, List.map_cons, List.prod_cons, Language.mem_mul]
  constructor
  · rintro ⟨_, v, rfl, ⟨w, hw, w', hw', rfl⟩, hstop⟩
    exact ⟨w, w' ++ v, List.append_assoc .., hw, w', v, rfl, hw', hstop⟩
  · rintro ⟨w, _, rfl, hw, w', v, rfl, hw', hstop⟩
    exact ⟨w ++ w', v, (List.append_assoc ..).symm, ⟨w, hw, w', hw', rfl⟩, hstop⟩

end Pattern

theorem matchhere_star : matchhere (c :: '*' :: re) text = matchstar c (matchhere re) text := rfl

theorem matchhere_dollar : matchhere ['$'] text = text.isEmpty := rfl

theorem matchhere_cons (hstar : ∀ re', re ≠ '*' :: re') (hdollar : ¬(c = '$' ∧ re = [])) :
    matchhere (c :: re) text ↔
      ∃ x v, text = x :: v ∧ (c = '.' ∨ x = c) ∧ matchhere re v := by
  rw [matchhere.eq_def]
  cases text with
  | nil => simp [hdollar]
  | cons t text =>
    simp only [if_neg hdollar, Bool.and_eq_true, Bool.or_eq_true, beq_iff_eq]
    constructor
    · rintro ⟨hc, h⟩
      exact ⟨t, text, rfl, hc.imp_right Eq.symm, h⟩
    · rintro ⟨x, v, heq, hc, h⟩
      obtain ⟨rfl, rfl⟩ := List.cons.inj heq
      exact ⟨hc.imp_right Eq.symm, h⟩

theorem matchhere_iff : matchhere re text ↔ (Pattern.read re).Leads text := by
  fun_induction Pattern.read re generalizing text with
  | case1 => simp [matchhere, Pattern.leads_nil]
  | case2 c re ih =>
    rw [Pattern.leads_cons, matchhere_star, matchstar_iff]
    simp only [ih]
    rfl
  | case3 c re hstar hdollar =>
    rw [Pattern.leads_nil rfl, hdollar.1, hdollar.2, matchhere_dollar]
    simp
  | case4 c re hstar hdollar ih =>
    rw [Pattern.leads_cons, matchhere_cons hstar hdollar]
    simp only [ih]
    constructor
    · rintro ⟨x, v, rfl, hx, hv⟩
      exact ⟨[x], v, rfl, ⟨x, rfl, hx⟩, hv⟩
    · rintro ⟨_, v, rfl, ⟨x, rfl, hx⟩, hv⟩
      exact ⟨x, v, rfl, hx, hv⟩

theorem matchfrom_iff : matchfrom re text ↔ ∃ u v, text = u ++ v ∧ matchhere re v := by
  induction text with
  | nil =>
    simp only [matchfrom, List.nil_eq, List.append_eq_nil_iff]
    constructor
    · intro h
      exact ⟨[], [], ⟨rfl, rfl⟩, h⟩
    · rintro ⟨u, v, ⟨rfl, rfl⟩, h⟩
      exact h
  | cons t text ih =>
    simp only [matchfrom, Bool.or_eq_true, ih]
    constructor
    · rintro (h | ⟨u, v, rfl, h⟩)
      · exact ⟨[], t :: text, rfl, h⟩
      · exact ⟨t :: u, v, rfl, h⟩
    · rintro ⟨u, v, heq, h⟩
      cases u with
      | nil => exact .inl (heq ▸ h)
      | cons x u =>
        obtain ⟨rfl, rfl⟩ := List.cons.inj heq
        exact .inr ⟨u, v, rfl, h⟩

theorem Pattern.read_start : (Pattern.read re).start = false := by
  fun_induction Pattern.read re with
  | case1 => rfl
  | case2 c re ih => exact ih
  | case3 => rfl
  | case4 c re hstar hdollar ih => exact ih

theorem Pattern.occurs_of_start {p : Pattern} (h : p.start = true) :
    p.Occurs text ↔ p.Leads text := by
  simp only [Occurs, Leads, h, true_imp_iff]
  constructor
  · rintro ⟨_, w, v, rfl, hw, rfl, hstop⟩
    exact ⟨w, v, rfl, hw, hstop⟩
  · rintro ⟨w, v, rfl, hw, hstop⟩
    exact ⟨[], w, v, rfl, hw, rfl, hstop⟩

theorem Pattern.occurs_of_free {p : Pattern} (h : p.start = false) :
    p.Occurs text ↔ ∃ u v, text = u ++ v ∧ p.Leads v := by
  simp only [Occurs, Leads, h, Bool.false_eq_true, false_imp_iff, true_and]
  constructor
  · rintro ⟨u, w, v, rfl, hw, hstop⟩
    exact ⟨u, w ++ v, List.append_assoc .., w, v, rfl, hw, hstop⟩
  · rintro ⟨u, _, rfl, w, v, rfl, hw, hstop⟩
    exact ⟨u, w, v, (List.append_assoc ..).symm, hw, hstop⟩

/-- `match` returns 1 if and only if a part of the text is in the language of the pattern. -/
theorem match_iff (re text : List Char) : matchRe re text ↔ (Pattern.ofText re).Occurs text := by
  fun_cases Pattern.ofText re with
  | case1 re =>
    rw [matchRe, matchhere_iff, Pattern.occurs_of_start rfl]
    rfl
  | case2 _ hstart =>
    rw [matchRe.eq_2 re text hstart, matchfrom_iff, Pattern.occurs_of_free Pattern.read_start]
    simp only [matchhere_iff]

end Xv6.Grep
