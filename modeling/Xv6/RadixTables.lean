import Mathlib.Algebra.BigOperators.Fin
import Mathlib.Algebra.BigOperators.GroupWithZero.Action
import Mathlib.Algebra.Order.BigOperators.Group.Multiset
import Mathlib.Data.Multiset.UnionInter

/-!
# Trees of tables in a paged memory

Each page of a memory can be read as a table of `N` entries. A radix table of `n` levels is
a tree: an entry of an upper table is zero or points to a page with a table of the next
level, and the entries of the lowest tables are the values. The pages of the tree are
distinct, so that a store into one of them changes one entry of the tree.
-/

namespace Xv6.RadixTables
open Function

variable {N : ℕ} {V : Type} {n : ℕ}

structure Coding (V : Type) where
  zero : V
  ptr : ℕ → V

inductive Tree (N : ℕ) (V : Type) : ℕ → Type where
  | leaf (v : V) : Tree N V 0
  | empty {n : ℕ} : Tree N V (n + 1)
  | node {n : ℕ} (page : ℕ) (child : Fin N → Tree N V n) : Tree N V (n + 1)

namespace Tree

def blank (k : Coding V) : (n : ℕ) → Tree N V n
  | 0 => .leaf k.zero
  | _ + 1 => .empty

/-- The entry `v` of a memory represents a tree. -/
def Rep (k : Coding V) (view : ℕ → Fin N → V) : {n : ℕ} → Tree N V n → V → Prop
  | _, .leaf w, v => v = w
  | _, .empty, v => v = k.zero
  | _, .node page child, v => v = k.ptr page ∧ ∀ i, Rep k view (child i) (view page i)

def get (k : Coding V) : {n : ℕ} → Tree N V n → List (Fin N) → V
  | _, .leaf v, _ => v
  | _, .empty, _ => k.zero
  | _, .node _ _, [] => k.zero
  | _, .node _ child, i :: is => get k (child i) is

def pages : {n : ℕ} → Tree N V n → Multiset ℕ
  | _, .leaf _ => 0
  | _, .empty => 0
  | _, .node page child => page ::ₘ ∑ i, pages (child i)

/-- The page and the index of the value at the end of a path, if all tables are there. -/
def slot : {n : ℕ} → Tree N V n → List (Fin N) → Option (ℕ × Fin N)
  | 0, _, _ => none
  | _ + 1, .empty, _ => none
  | _ + 1, .node _ _, [] => none
  | 1, .node page _, i :: _ => some (page, i)
  | _ + 2, .node _ child, i :: is => slot (child i) is

def set : {n : ℕ} → Tree N V n → List (Fin N) → V → Tree N V n
  | _, .leaf _, _, w => .leaf w
  | _, .empty, _, _ => .empty
  | _, .node page child, [], _ => .node page child
  | _, .node page child, i :: is, w => .node page (update child i (set (child i) is w))

variable {k : Coding V} {view view' : ℕ → Fin N → V}

theorem rep_blank (view : ℕ → Fin N → V) : Rep k view (blank k n : Tree N V n) k.zero := by
  cases n <;> rfl

@[simp] theorem pages_blank : pages (blank k n : Tree N V n) = 0 := by cases n <;> rfl

@[simp] theorem get_blank (is : List (Fin N)) : get k (blank k n : Tree N V n) is = k.zero := by
  cases n <;> rfl

theorem pages_empty : pages (.empty : Tree N V (n + 1)) = 0 := by rw [pages]

theorem pages_node_blank (page : ℕ) :
    pages (.node page fun _ => blank k n : Tree N V (n + 1)) = {page} := by
  rw [pages]
  simp

theorem get_node_blank (page : ℕ) (is : List (Fin N)) :
    get k (.node page fun _ => blank k n : Tree N V (n + 1)) is = k.zero := by
  cases is with
  | nil => rfl
  | cons i is => exact get_blank is

variable {child : Fin N → Tree N V n} {page : ℕ}

theorem pages_child_le (i : Fin N) : page ::ₘ pages (child i) ≤ pages (.node page child) := by
  rw [pages]
  refine Multiset.cons_le_cons page ?_
  exact Finset.single_le_sum (f := fun i => pages (child i)) (fun _ _ => Multiset.zero_le _)
    (Finset.mem_univ i)

variable {t : Tree N V n}

theorem Rep.frame {v : V} (h : Rep k view t v) (hview : ∀ p ∈ pages t, view' p = view p) :
    Rep k view' t v := by
  induction t generalizing v with
  | leaf w => exact h
  | empty => exact h
  | node page child ih =>
    refine ⟨h.1, fun i => ?_⟩
    have hle : page ::ₘ pages (child i) ≤ pages (.node page child) := pages_child_le i
    rw [hview page (by simp [pages])]
    exact ih i (h.2 i) fun p hp => hview p (Multiset.mem_of_le hle (Multiset.mem_cons_of_mem hp))

theorem Rep.update {v : V} {i : Fin N} (h : Rep k view (.node page child) v)
    (ht : Rep k view' t (view' page i)) (hpage : ∀ j, j ≠ i → view' page j = view page j)
    (hview : ∀ j, j ≠ i → ∀ p ∈ pages (child j), view' p = view p) :
    Rep k view' (.node page (update child i t)) v := by
  refine ⟨h.1, fun j => ?_⟩
  by_cases hj : j = i
  · subst hj
    rwa [update_self]
  · rw [update_of_ne hj, hpage j hj]
    exact (h.2 j).frame (hview j hj)

theorem pages_update (page : ℕ) (child : Fin N → Tree N V n) (i : Fin N) (t : Tree N V n) :
    pages (.node page (update child i t)) + pages (child i) =
      pages (.node page child) + pages t := by
  simp only [pages, Multiset.cons_add]
  congr 1
  rw [← Finset.add_sum_erase _ _ (Finset.mem_univ i),
    ← Finset.add_sum_erase Finset.univ (fun j => pages (child j)) (Finset.mem_univ i),
    update_self]
  have hrest : ∑ j ∈ Finset.univ.erase i, pages (update child i t j) =
      ∑ j ∈ Finset.univ.erase i, pages (child j) :=
    Finset.sum_congr rfl fun j hj => by rw [update_of_ne (Finset.ne_of_mem_erase hj)]
  rw [hrest]
  ac_rfl

theorem page_notMem_child (h : (pages (.node page child)).Nodup) (i : Fin N) :
    page ∉ pages (child i) :=
  (Multiset.nodup_cons.mp (Multiset.nodup_of_le (pages_child_le i) h)).1

theorem nodup_child (h : (pages (.node page child)).Nodup) (i : Fin N) : (pages (child i)).Nodup :=
  (Multiset.nodup_cons.mp (Multiset.nodup_of_le (pages_child_le i) h)).2

theorem disjoint_children (h : (pages (.node page child)).Nodup) {i j : Fin N} (hij : j ≠ i) {p : ℕ}
    (hi : p ∈ pages (child i)) : p ∉ pages (child j) := by
  intro hj
  have hle : pages (child i) + pages (child j) ≤ ∑ i, pages (child i) := by
    rw [← Finset.sum_pair (f := fun i => pages (child i)) (Ne.symm hij)]
    exact Finset.sum_le_sum_of_subset (Finset.subset_univ _)
  have hnodup := Multiset.nodup_of_le hle (Multiset.nodup_cons.mp h).2
  exact (Multiset.disjoint_left.mp (Multiset.nodup_add.mp hnodup).2.2) hi hj

theorem mem_pages_node {p : ℕ} :
    p ∈ pages (.node page child) ↔ p = page ∨ ∃ i, p ∈ pages (child i) := by
  rw [pages, Multiset.mem_cons, Multiset.mem_sum]
  simp

def beside (page : ℕ) (child : Fin N → Tree N V n) (i : Fin N) : Multiset ℕ :=
  pages (.node page child) - pages (child i)

theorem pages_eq_beside (page : ℕ) (child : Fin N → Tree N V n) (i : Fin N) :
    pages (.node page child) = pages (child i) + beside page child i := by
  have hle := (Multiset.le_cons_self (pages (child i)) page).trans (pages_child_le i)
  exact (add_tsub_cancel_of_le hle).symm

theorem pages_update_beside (page : ℕ) (child : Fin N → Tree N V n) (i : Fin N)
    (t : Tree N V n) :
    pages (.node page (update child i t)) = pages t + beside page child i := by
  have h := pages_update page child i t
  rw [pages_eq_beside page child i] at h
  refine add_right_cancel (h.trans ?_)
  ac_rfl

theorem page_mem_beside {i : Fin N} (h : (pages (.node page child)).Nodup) :
    page ∈ beside page child i := by
  have hmem : page ∈ pages (.node page child) := mem_pages_node.mpr (.inl rfl)
  rw [pages_eq_beside page child i] at hmem
  exact (Multiset.mem_add.mp hmem).resolve_left (page_notMem_child h i)

theorem child_mem_beside {page p : ℕ} {i j : Fin N} (h : (pages (.node page child)).Nodup)
    (hj : j ≠ i) (hp : p ∈ pages (child j)) : p ∈ beside page child i := by
  have hmem : p ∈ pages (.node page child) := mem_pages_node.mpr (.inr ⟨j, hp⟩)
  rw [pages_eq_beside page child i] at hmem
  exact (Multiset.mem_add.mp hmem).resolve_left fun hi => disjoint_children h hj hi hp

@[simp] theorem pages_set (t : Tree N V n) (is : List (Fin N)) (w : V) :
    pages (set t is w) = pages t := by
  induction t generalizing is with
  | leaf v => rfl
  | empty => rfl
  | node page child ih =>
    cases is with
    | nil => rfl
    | cons i is =>
      have hsum := pages_update page child i (set (child i) is w)
      rw [ih i is] at hsum
      exact add_right_cancel hsum

variable {is : List (Fin N)}

theorem slot_mem {p : ℕ} {i : Fin N} (h : slot t is = some (p, i)) : p ∈ pages t := by
  induction t generalizing is with
  | leaf v => cases h
  | empty => cases h
  | @node n page child ih =>
    match n, is with
    | _, [] => cases h
    | 0, j :: _ =>
      cases h
      simp [pages]
    | n + 1, j :: is =>
      exact Multiset.mem_of_le (pages_child_le j) (Multiset.mem_cons_of_mem (ih j h))

theorem Rep.view_slot {v : V} {p : ℕ} {i : Fin N} (h : Rep k view t v)
    (hslot : slot t is = some (p, i)) : view p i = get k t is := by
  induction t generalizing v is with
  | leaf v => cases hslot
  | empty => cases hslot
  | @node n page child ih =>
    match n, is with
    | _, [] => cases hslot
    | 0, j :: js =>
      cases hslot
      have hchild := h.2 i
      rw [get]
      match hc : child i with
      | .leaf w =>
        rw [hc] at hchild
        exact hchild
    | n + 1, j :: is => exact ih j (h.2 j) hslot

theorem get_eq_zero_of_slot {t : Tree N V (n + 1)} (h : slot t is = none)
    (hlen : is.length = n + 1) : get k t is = k.zero := by
  induction n generalizing is with
  | zero =>
    match t, is with
    | .empty, _ => rfl
    | .node _ _, i :: is => cases h
  | succ n ih =>
    match t, is with
    | .empty, _ => rfl
    | .node _ child, i :: is => exact ih h (by simpa using hlen)

theorem get_set_self (w : V) (h : slot t is ≠ none) : get k (set t is w) is = w := by
  induction t generalizing is with
  | leaf v => exact absurd rfl h
  | empty => exact absurd rfl h
  | @node n page child ih =>
    match n, is with
    | _, [] => exact absurd rfl h
    | 0, j :: js =>
      rw [set, get, update_self]
      cases child j
      rfl
    | n + 1, j :: is =>
      rw [set, get, update_self]
      exact ih j h

theorem get_set_ne {is js : List (Fin N)} (w : V) (his : is.length = n) (hjs : js.length = n)
    (hne : js ≠ is) : get k (set t is w) js = get k t js := by
  induction t generalizing is js with
  | leaf v =>
    rw [List.eq_nil_of_length_eq_zero his, List.eq_nil_of_length_eq_zero hjs] at hne
    exact absurd rfl hne
  | empty => rfl
  | node page child ih =>
    match is, js with
    | [], _ => rfl
    | _ :: _, [] => rfl
    | i :: is, j :: js =>
      simp only [List.length_cons, Nat.add_right_cancel_iff] at his hjs
      rw [set, get, get]
      by_cases hij : j = i
      · subst hij
        rw [update_self]
        exact ih j his hjs (fun heq => hne (by rw [heq]))
      · rw [update_of_ne hij]

def write (view : ℕ → Fin N → V) (p : ℕ) (i : Fin N) (w : V) : ℕ → Fin N → V :=
  update view p (update (view p) i w)

theorem write_self (view : ℕ → Fin N → V) (p : ℕ) (i : Fin N) (w : V) :
    write view p i w p i = w := by simp [write]

theorem write_of_ne (view : ℕ → Fin N → V) {p q : ℕ} (i : Fin N) (w : V) (h : q ≠ p) :
    write view p i w q = view q := by simp [write, h]

theorem Rep.set {v : V} {p : ℕ} {i : Fin N} (w : V) (h : Rep k view t v) (hnodup : (pages t).Nodup)
    (hslot : slot t is = some (p, i)) : Rep k (write view p i w) (set t is w) v := by
  induction t generalizing v is with
  | leaf v => cases hslot
  | empty => cases hslot
  | @node n page child ih =>
    match n, is with
    | _, [] => cases hslot
    | 0, j :: js =>
      cases hslot
      refine h.update ?_ (fun j hj => by simp [write, hj]) (fun j _ q hq => ?_)
      · rw [write_self]
        cases child i
        rfl
      · exact write_of_ne view i w fun hqp => page_notMem_child hnodup j (hqp ▸ hq)
    | n + 1, j :: is =>
      have hp : p ∈ pages (child j) := slot_mem hslot
      have hpage : p ≠ page := fun hpp => page_notMem_child hnodup j (hpp ▸ hp)
      rw [Tree.set]
      refine h.update ?_ (fun l _ => by rw [write_of_ne view i w hpage.symm])
        (fun l hl q hq => ?_)
      · rw [write_of_ne view i w hpage.symm]
        exact ih j (h.2 j) (nodup_child hnodup j) hslot
      · exact write_of_ne view i w fun hqp => disjoint_children hnodup hl hp (hqp ▸ hq)

-- The sum over the children must not be unfolded when `N` is a large number.
attribute [irreducible] pages

end Tree

end Xv6.RadixTables
