import Mathlib.Data.List.Basic
import Mathlib.Tactic.Common

/-!
# Finite maps in a list of slots

A list of slots, each of them empty or with a key and a value, read as a map. A key is looked
up from the front, a new key goes into the first empty slot or behind the last one, and a key
is removed by emptying its slot. As long as no key is in two slots the list is a finite map,
and no operation moves a key to another slot.
-/

namespace Xv6.SlotMaps

abbrev Slots (K V : Type*) := List (Option (K × V))

variable {K V : Type*}

def Distinct (l : Slots K V) : Prop :=
  ∀ ⦃m n : ℕ⦄ ⦃k : K⦄ ⦃v w : V⦄, l[m]? = some (some (k, v)) → l[n]? = some (some (k, w)) → m = n

def firstFree (l : Slots K V) : ℕ := l.findIdx Option.isNone

def fill (l : Slots K V) (n : ℕ) (x : Option (K × V)) : Slots K V :=
  if n < l.length then l.set n x else l ++ [x]

theorem firstFree_le (l : Slots K V) : firstFree l ≤ l.length := List.findIdx_le_length

theorem getElem?_firstFree (l : Slots K V) (k : K) (v : V) :
    l[firstFree l]? ≠ some (some (k, v)) := by
  intro h
  obtain ⟨hlt, heq⟩ := List.getElem?_eq_some_iff.mp h
  have hnone : (l[firstFree l]).isNone = true := List.findIdx_getElem (w := hlt)
  rw [heq] at hnone
  cases hnone

variable {l : Slots K V} {n : ℕ}

theorem getElem?_fill (hn : n ≤ l.length) (x : Option (K × V)) (m : ℕ) :
    (fill l n x)[m]? = if m = n then some x else l[m]? := by
  rw [fill]
  split
  · rw [List.getElem?_set]
    grind
  · rw [List.getElem?_append]
    grind

variable {k : K}

theorem Distinct.fill (h : Distinct l) (hn : n ≤ l.length) {v : V}
    (hk : ∀ (m : ℕ) (w : V), l[m]? ≠ some (some (k, w))) : Distinct (fill l n (some (k, v))) := by
  intro a b k' w w' ha hb
  rw [getElem?_fill hn] at ha hb
  split at ha <;> split at hb
  · rw [‹a = n›, ‹b = n›]
  · cases ha
    exact absurd hb (hk b w')
  · cases hb
    exact absurd ha (hk a w)
  · exact h ha hb

theorem Distinct.clear (h : Distinct l) (hn : n ≤ l.length) :
    Distinct (SlotMaps.fill l n none) := by
  intro a b k w w' ha hb
  rw [getElem?_fill hn] at ha hb
  split at ha
  · cases ha
  · split at hb
    · cases hb
    · exact h ha hb

variable [DecidableEq K]

/-- The place of the first slot with the key, and the value there. -/
def lookup : Slots K V → K → Option (ℕ × V)
  | [], _ => none
  | none :: l, k => (lookup l k).map fun x => (x.1 + 1, x.2)
  | some (k', v) :: l, k =>
    if k' = k then some (0, v) else (lookup l k).map fun x => (x.1 + 1, x.2)

theorem getElem?_of_lookup {v : V} (h : lookup l k = some (n, v)) : l[n]? = some (some (k, v)) := by
  induction l generalizing n with
  | nil => cases h
  | cons x l ih =>
    have hrest (h : (lookup l k).map (fun x => (x.1 + 1, x.2)) = some (n, v)) :
        (x :: l)[n]? = some (some (k, v)) := by
      obtain ⟨⟨m, w⟩, hm, heq⟩ := Option.map_eq_some_iff.mp h
      cases heq
      exact ih hm
    cases x with
    | none => exact hrest h
    | some x =>
      rw [lookup] at h
      split at h
      · cases h
        rw [← ‹x.1 = k›]
        rfl
      · exact hrest h

theorem lookup_ne_none {v : V} (h : l[n]? = some (some (k, v))) : lookup l k ≠ none := by
  induction l generalizing n with
  | nil => simp at h
  | cons x l ih =>
    match x, n with
    | none, 0 => cases h
    | none, n + 1 => simpa [lookup] using ih h
    | some (k', w), 0 =>
      cases h
      simp [lookup]
    | some (k', w), n + 1 =>
      rw [lookup]
      split
      · simp
      · simpa using ih h

theorem lookup_eq_none : lookup l k = none ↔ ∀ (n : ℕ) (v : V), l[n]? ≠ some (some (k, v)) := by
  constructor
  · intro h n v hn
    exact lookup_ne_none hn h
  · intro h
    cases hl : lookup l k with
    | none => rfl
    | some x => exact absurd (getElem?_of_lookup hl) (h x.1 x.2)

theorem Distinct.lookup_eq_some (h : Distinct l) {v : V} :
    lookup l k = some (n, v) ↔ l[n]? = some (some (k, v)) := by
  refine ⟨getElem?_of_lookup, fun hn => ?_⟩
  cases hl : lookup l k with
  | none => exact absurd hl (lookup_ne_none hn)
  | some x =>
    have hx := getElem?_of_lookup (n := x.1) (v := x.2) hl
    obtain rfl : x.1 = n := h hx hn
    rw [hn] at hx
    cases hx
    rfl

theorem Distinct.lookup_congr {l l' : Slots K V} (h : Distinct l) (h' : Distinct l')
    (hk : ∀ (n : ℕ) (v : V), l'[n]? = some (some (k, v)) ↔ l[n]? = some (some (k, v))) :
    lookup l' k = lookup l k := by
  ext ⟨n, v⟩
  rw [h'.lookup_eq_some, h.lookup_eq_some, hk]

theorem Distinct.insert (h : Distinct l) (hk : lookup l k = none) (v : V) :
    Distinct (SlotMaps.fill l (firstFree l) (some (k, v))) ∧
      ∀ k', lookup (SlotMaps.fill l (firstFree l) (some (k, v))) k' =
        if k' = k then some (firstFree l, v) else lookup l k' := by
  have hfree := firstFree_le l
  have hd := h.fill hfree (v := v) (lookup_eq_none.mp hk)
  refine ⟨hd, fun k' => ?_⟩
  split
  · rw [hd.lookup_eq_some, getElem?_fill hfree, if_pos rfl, ‹k' = k›]
  · refine h.lookup_congr hd fun n w => ?_
    rw [getElem?_fill hfree]
    split
    · rw [‹n = firstFree l›]
      have hno := getElem?_firstFree l k' w
      grind
    · rfl

theorem Distinct.erase (h : Distinct l) {v : V} (hk : lookup l k = some (n, v)) :
    Distinct (SlotMaps.fill l n none) ∧
      ∀ k', lookup (SlotMaps.fill l n none) k' = if k' = k then none else lookup l k' := by
  have hn := getElem?_of_lookup hk
  have hlt : n < l.length := (List.getElem?_eq_some_iff.mp hn).1
  have hd := h.clear (Nat.le_of_lt hlt)
  refine ⟨hd, fun k' => ?_⟩
  split
  · rw [lookup_eq_none]
    intro m w hm
    rw [getElem?_fill (Nat.le_of_lt hlt)] at hm
    split at hm
    · cases hm
    · exact ‹m ≠ n› (h (‹k' = k› ▸ hm) hn)
  · refine h.lookup_congr hd fun m w => ?_
    rw [getElem?_fill (Nat.le_of_lt hlt)]
    split
    · rw [‹m = n›, hn]
      simp [Ne.symm ‹k' ≠ k›]
    · rfl

end Xv6.SlotMaps
