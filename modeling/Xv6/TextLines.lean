import Mathlib.Data.List.Basic

/-!
# Lines of a text

A text is cut into lines by a separator. A line is the part before a separator; what follows the
last separator is the rest of the text.
-/

namespace TextLines

variable {α : Type*} [BEq α] {sep : α} {l s : List α}

def lines (sep : α) (s : List α) : List (List α) := (s.splitOn sep).dropLast

def rest (sep : α) (s : List α) : List α := (s.splitOn sep).getLastD []

variable [LawfulBEq α]

theorem lines_of_notMem (h : sep ∉ s) : lines sep s = [] := by
  rw [lines, List.splitOn_eq_singleton h, List.dropLast_singleton]

theorem rest_of_notMem (h : sep ∉ s) : rest sep s = s := by
  rw [rest, List.splitOn_eq_singleton h, List.getLastD_cons, List.getLastD_nil]

theorem lines_append_cons (h : sep ∉ l) (s : List α) :
    lines sep (l ++ sep :: s) = l :: lines sep s := by
  rw [lines, List.splitOn_append_cons_self_of_not_mem h, lines,
    List.dropLast_cons_of_ne_nil (List.splitOn_ne_nil sep s)]

theorem rest_append_cons (h : sep ∉ l) (s : List α) : rest sep (l ++ sep :: s) = rest sep s := by
  rw [rest, List.splitOn_append_cons_self_of_not_mem h, rest]
  obtain ⟨x, xs, hx⟩ := List.exists_cons_of_ne_nil (List.splitOn_ne_nil sep s)
  rw [hx, List.getLastD_cons, List.getLastD_cons, List.getLastD_cons]

theorem lines_induction {P : List α → Prop} (sep : α) (hrest : ∀ s, sep ∉ s → P s)
    (hline : ∀ l s, sep ∉ l → P s → P (l ++ sep :: s)) (s : List α) : P s := by
  induction hn : s.length using Nat.strongRecOn generalizing s with
  | ind n ih =>
    by_cases h : sep ∈ s
    · obtain ⟨l, t, rfl, hl⟩ := List.eq_append_cons_of_mem h
      refine hline l t hl (ih t.length ?_ t rfl)
      simp only [List.length_append, List.length_cons] at hn
      omega
    · exact hrest s h

theorem notMem_rest (s : List α) : sep ∉ rest sep s := by
  induction s using lines_induction sep with
  | hrest s hs => rwa [rest_of_notMem hs]
  | hline l s hl ih => rwa [rest_append_cons hl]

theorem rest_subset (s : List α) : rest sep s ⊆ s := by
  induction s using lines_induction sep with
  | hrest s hs =>
    rw [rest_of_notMem hs]
    exact List.Subset.refl s
  | hline l s hl ih =>
    rw [rest_append_cons hl]
    intro x hx
    exact List.mem_append_right l (List.mem_cons_of_mem sep (ih hx))

end TextLines
