import Mathlib.Algebra.BigOperators.Group.Finset.Piecewise
import Mathlib.Data.Fintype.Card

/-! # Counting the processes with a property when one of them changes -/

namespace Xv6.CountingProcesses
open Function

variable {P L : Type*} [DecidableEq P]

theorem read_update {α : Type*} (f : L → α) (g : P → L) (p : P) (l : L) :
    (fun q => f (update g p l q)) = update (fun q => f (g q)) p (f l) := by
  funext q
  exact Function.apply_update (fun _ => f) g p l q

theorem read_update_same {α : Type*} (f : L → α) (g : P → L) (p : P) (l : L)
    (h : f l = f (g p)) : (fun q => f (update g p l q)) = fun q => f (g q) := by
  rw [read_update, h]
  exact update_eq_self p (fun q => f (g q))

variable [Fintype P]

theorem sum_update (f : L → ℕ) (g : P → L) (p : P) (l : L) :
    (∑ q, f (update g p l q)) + f (g p) = (∑ q, f (g q)) + f l := by
  rw [read_update f g p l, Finset.sum_update_of_mem (Finset.mem_univ p),
    Finset.sum_eq_add_sum_sdiff_singleton_of_mem (Finset.mem_univ p) (fun q => f (g q))]
  omega

def count (g : P → Option L) : ℕ := ∑ q, (g q).isSome.toNat

theorem count_update (g : P → Option L) (p : P) (l : Option L) :
    count (update g p l) + (g p).isSome.toNat = count g + l.isSome.toNat :=
  sum_update (fun l : Option L => l.isSome.toNat) g p l

omit [DecidableEq P] in
theorem count_eq_zero {g : P → Option L} : count g = 0 ↔ ∀ p, g p = none := by
  simp [count]

omit [DecidableEq P] in
theorem count_pos {g : P → Option L} {p : P} {l : L} (h : g p = some l) : 0 < count g := by
  rw [Nat.pos_iff_ne_zero]
  intro h0
  simp [count_eq_zero.mp h0 p] at h

theorem eq_of_count_le_one {g : P → Option L} (h : count g ≤ 1) {p q : P} {l m : L}
    (hp : g p = some l) (hq : g q = some m) : p = q := by
  by_contra hne
  have hrest := count_update g p none
  have hpos : 0 < count (update g p none) :=
    count_pos (by rw [update_of_ne (Ne.symm hne)]; exact hq)
  simp only [hp, Option.isSome_some, Option.isSome_none, Bool.toNat_true, Bool.toNat_false] at hrest
  omega

end Xv6.CountingProcesses
