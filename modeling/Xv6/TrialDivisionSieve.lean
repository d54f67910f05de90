import Mathlib.Data.Nat.Prime.Basic
import Mathlib.Data.List.Range
import Mathlib.Data.List.Sort

/-!
# Sieving by trial division

A list of numbers is sifted by dropping its head and the multiples of its head. When the list
contains the prime factors of its members, in increasing order, the heads of the lists that
come up in this way are its primes.
-/

namespace Xv6.TrialDivisionSieve

def sift : List ℕ → List ℕ
  | [] => []
  | p :: xs => xs.filter fun n => n % p ≠ 0

theorem sift_sublist (l : List ℕ) : (sift l).Sublist l := by
  cases l with
  | nil => exact .slnil
  | cons p xs => exact List.filter_sublist.trans (List.sublist_cons_self p xs)

theorem sift_mono {l l' : List ℕ} (h : l <+: l') : sift l <+: sift l' := by
  obtain ⟨t, rfl⟩ := h
  cases l with
  | nil => exact List.nil_prefix
  | cons p xs =>
    rw [List.cons_append, sift, sift, List.filter_append]
    exact List.prefix_append _ _

theorem sift_take_succ {l : List ℕ} {p n c : ℕ} (hp : l.head? = some p) (hc : 0 < c)
    (hn : l[c]? = some n) :
    sift (l.take (c + 1)) = sift (l.take c) ++ if n % p ≠ 0 then [n] else [] := by
  cases l with
  | nil => cases hp
  | cons q xs =>
    obtain rfl : q = p := Option.some.inj hp
    obtain ⟨c, rfl⟩ := Nat.exists_eq_succ_of_ne_zero hc.ne'
    rw [Nat.succ_eq_add_one, List.getElem?_cons_succ] at hn
    rw [Nat.succ_eq_add_one, List.take_succ_cons, List.take_succ_cons, sift, sift,
      List.take_add_one, hn, List.filter_append]
    by_cases h : n % q = 0 <;> simp [h]

def heads (l : List ℕ) : ℕ → List ℕ
  | 0 => []
  | k + 1 => heads l k ++ (sift^[k] l).head?.toList

structure Sievable (l : List ℕ) : Prop where
  increasing : l.Pairwise (· < ·)
  two_le : ∀ n ∈ l, 2 ≤ n
  factors : ∀ n ∈ l, ∀ q : ℕ, q.Prime → q ∣ n → q ∈ l

variable {l xs : List ℕ} {p : ℕ}

theorem Sievable.head_prime (h : Sievable (p :: xs)) : p.Prime := by
  have h2 := h.two_le p List.mem_cons_self
  have hprime : p.minFac.Prime := Nat.minFac_prime (by omega)
  have hmem := h.factors p List.mem_cons_self _ hprime (Nat.minFac_dvd p)
  rcases List.mem_cons.mp hmem with heq | hmem
  · rwa [heq] at hprime
  · have hlt := List.rel_of_pairwise_cons h.increasing hmem
    exact absurd (Nat.minFac_le (by omega)) (Nat.not_le_of_lt hlt)

theorem Sievable.sifted (h : Sievable l) : Sievable (sift l) := by
  cases l with
  | nil => exact h
  | cons p xs =>
    have hsub := sift_sublist (p :: xs)
    refine ⟨h.increasing.sublist hsub, fun n hn => h.two_le n (hsub.subset hn), ?_⟩
    intro n hn q hq hdvd
    have hn' := List.mem_filter.mp hn
    have hnp : ¬p ∣ n := fun hp => by simpa [Nat.mod_eq_zero_of_dvd hp] using hn'.2
    have hne : q ≠ p := fun heq => hnp (heq ▸ hdvd)
    have hmem := (List.mem_cons.mp (h.factors n (hsub.subset hn) q hq hdvd)).resolve_left hne
    refine List.mem_filter.mpr ⟨hmem, ?_⟩
    have hqp : ¬p ∣ q := fun hp => hne ((Nat.prime_dvd_prime_iff_eq h.head_prime hq).mp hp).symm
    simpa [Nat.dvd_iff_mod_eq_zero] using hqp

theorem Sievable.filter_prime (h : Sievable l) :
    l.filter (fun n => n.Prime) = l.head?.toList ++ (sift l).filter fun n => n.Prime := by
  cases l with
  | nil => rfl
  | cons p xs =>
    have hp := h.head_prime
    rw [List.filter_cons_of_pos (by simpa using hp)]
    simp only [List.head?_cons, Option.toList_some, List.singleton_append, sift,
      List.filter_filter, List.cons.injEq, true_and]
    refine List.filter_congr fun n hn => ?_
    have hlt := List.rel_of_pairwise_cons h.increasing hn
    by_cases hprime : n.Prime
    · have hmod : n % p ≠ 0 := fun h0 => by
        have heq := (Nat.prime_dvd_prime_iff_eq hp hprime).mp (Nat.dvd_of_mod_eq_zero h0)
        omega
      simp [hprime, hmod]
    · simp [hprime]

theorem Sievable.iterate (h : Sievable l) (k : ℕ) : Sievable (sift^[k] l) := by
  induction k with
  | zero => exact h
  | succ k ih =>
    rw [Function.iterate_succ_apply']
    exact ih.sifted

theorem Sievable.heads_append (h : Sievable l) (k : ℕ) :
    heads l k ++ (sift^[k] l).filter (fun n => n.Prime) =
      l.filter fun n => n.Prime := by
  induction k with
  | zero => rfl
  | succ k ih =>
    rw [heads, List.append_assoc, Function.iterate_succ_apply', ← (h.iterate k).filter_prime, ih]

theorem sievable_range (n : ℕ) : Sievable (List.range' 2 n) := by
  refine ⟨List.pairwise_lt_range', fun m hm => (List.mem_range'_1.mp hm).1, ?_⟩
  intro m hm q hq hdvd
  have hm' := List.mem_range'_1.mp hm
  have hle := Nat.le_of_dvd (by omega) hdvd
  exact List.mem_range'_1.mpr ⟨hq.two_le, by omega⟩

end Xv6.TrialDivisionSieve
