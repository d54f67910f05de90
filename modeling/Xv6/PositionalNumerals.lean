import Mathlib.Algebra.GroupWithZero.Nat
import Mathlib.Algebra.Ring.Int.Defs
import Mathlib.Data.Nat.Init

/-!
# Positional numerals

The loop that stores the digits of a number from the last to the first, into an array with room for
so many of them. The digits it stores are those of the numeral in reverse.
-/

namespace PositionalNumerals

/-- The digits of `x` are added to the array until the quotient is zero. There is no result if a
digit has no room. -/
def storeDigits (digit : ℕ → Char) (base : ℕ) :
    (room x : ℕ) → (buf : List Char) → Option (List Char)
  | 0, _, _ => none
  | room + 1, x, buf =>
    let buf := buf ++ [digit (x % base)]
    if x / base = 0 then some buf else storeDigits digit base room (x / base) buf

def signed (base : ℕ) (z : ℤ) : List Char :=
  if z < 0 then '-' :: Nat.toDigits base z.natAbs else Nat.toDigits base z.natAbs

variable {digit : ℕ → Char} {base room x : ℕ} {buf : List Char}

theorem storeDigits_eq (f : Char → Char) (hbase : 1 < base)
    (hdigit : ∀ i < base, digit i = f i.digitChar) :
    storeDigits digit base room x buf =
      if (Nat.toDigits base x).length ≤ room then
        some (buf ++ ((Nat.toDigits base x).map f).reverse)
      else none := by
  induction room generalizing x buf with
  | zero =>
    have hlen : 0 < (Nat.toDigits base x).length := Nat.length_toDigits_pos
    rw [storeDigits, if_neg (by omega)]
  | succ room ih =>
    have hlast := hdigit (x % base) (Nat.mod_lt x (by omega))
    have hdiv : x / base = 0 ↔ x < base := Nat.div_eq_zero_iff_lt (by omega)
    rw [storeDigits, Nat.toDigits_eq_if hbase, hlast]
    by_cases hx : x < base
    · simp [hdiv, hx, Nat.mod_eq_of_lt hx]
    · simp [hdiv, hx, ih]

theorem length_signed_le {z : ℤ} {k : ℕ} (hbase : 1 < base) (hk : 0 < k) :
    (signed base z).length ≤ k + 1 ↔ -(base : ℤ) ^ k < z ∧ z < (base : ℤ) ^ (k + 1) := by
  have hpos : ∀ k, (0 : ℤ) < (base : ℤ) ^ k := fun k => Int.pow_pos (by omega)
  have hcast : ∀ k, ((base ^ k : ℕ) : ℤ) = (base : ℤ) ^ k := fun k => Int.natCast_pow base k
  have := hpos k
  have := hpos (k + 1)
  have := hcast k
  have := hcast (k + 1)
  rw [signed]
  split
  · rw [List.length_cons, Nat.add_le_add_iff_right, Nat.length_toDigits_le_iff hbase hk]
    omega
  · rw [Nat.length_toDigits_le_iff hbase (by omega)]
    omega

/-- The digits of a base, written by way of `f`, are different from one another and from the
sign. -/
structure Digits (f : Char → Char) (base : ℕ) : Prop where
  one_lt : 1 < base
  inj : ∀ i < base, ∀ j < base, f i.digitChar = f j.digitChar → i = j
  minus : f '-' = '-'
  ne_minus : ∀ i < base, f i.digitChar ≠ '-'

variable {f : Char → Char}

theorem mem_toDigits {c : Char} (hbase : 1 < base) (h : c ∈ Nat.toDigits base x) :
    ∃ i < base, c = i.digitChar := by
  induction x using Nat.strongRecOn with
  | ind x ih =>
    rw [Nat.toDigits_eq_if hbase] at h
    split at h
    · rename_i hx
      exact ⟨x, hx, List.mem_singleton.mp h⟩
    · obtain h | h := List.mem_append.mp h
      · exact ih (x / base) (Nat.div_lt_self (by omega) hbase) h
      · exact ⟨x % base, Nat.mod_lt x (by omega), List.mem_singleton.mp h⟩

theorem Digits.toDigits_inj (h : Digits f base) {y : ℕ}
    (heq : (Nat.toDigits base x).map f = (Nat.toDigits base y).map f) : x = y := by
  have hone := h.one_lt
  induction x using Nat.strongRecOn generalizing y with
  | ind x ih =>
    have hlast (z : ℕ) : z % base < base := Nat.mod_lt z (by omega)
    rw [Nat.toDigits_eq_if hone, Nat.toDigits_eq_if (n := y) hone] at heq
    split at heq <;> split at heq
    · rename_i hx hy
      exact h.inj x hx y hy (by simpa using heq)
    · exact absurd (congrArg List.length heq) (by simp)
    · exact absurd (congrArg List.length heq) (by simp)
    · rename_i hx hy
      simp only [List.map_append, List.map_cons, List.map_nil] at heq
      obtain ⟨hinit, hdigit⟩ := List.append_inj' heq rfl
      have hdiv := ih (x / base) (Nat.div_lt_self (by omega) hone) hinit
      have hmod := h.inj _ (hlast x) _ (hlast y) (by simpa using hdigit)
      rw [← Nat.div_add_mod x base, hdiv, hmod, Nat.div_add_mod]

theorem Digits.signed_inj (h : Digits f base) {z z' : ℤ}
    (heq : (signed base z).map f = (signed base z').map f) : z = z' := by
  have hhead (n : ℕ) (s : List Char) : (Nat.toDigits base n).map f ≠ '-' :: s := by
    intro hs
    have hmem : '-' ∈ (Nat.toDigits base n).map f := by simp [hs]
    obtain ⟨c, hc, hminus⟩ := List.mem_map.mp hmem
    obtain ⟨i, hi, rfl⟩ := mem_toDigits h.one_lt hc
    exact h.ne_minus i hi hminus
  unfold signed at heq
  split at heq <;> split at heq
  · have := h.toDigits_inj (List.cons.inj heq).2
    omega
  · rw [List.map_cons, h.minus] at heq
    exact absurd heq.symm (hhead _ _)
  · rw [List.map_cons, h.minus] at heq
    exact absurd heq (hhead _ _)
  · have := h.toDigits_inj heq
    omega

end PositionalNumerals
