import Mathlib.Data.Nat.ModEq
import Mathlib.Logic.Function.Basic

/-!
# Ring buffers with running counters

A queue of at most `N` elements lies in an array of `N` cells. Two counters say how many elements
were ever taken and ever put; they run modulo `M`, a multiple of `N`, and an element's cell is its
count modulo `N`.
-/

namespace Xv6.RingBuffers
open Function

variable {α : Type*} {M N : ℕ} [NeZero N]

/-- The cells between the counters `r` and `w` hold the queue `q`, oldest first. -/
structure Holds (M : ℕ) (cells : Fin N → α) (r w : ℕ) (q : List α) : Prop where
  read_lt : r < M
  write_eq : w = (r + q.length) % M
  length_le : q.length ≤ N
  cell : ∀ i (h : i < q.length), cells (Fin.ofNat N (r + i)) = q.get ⟨i, h⟩

variable {cells : Fin N → α} {r w : ℕ} {q : List α}

theorem Holds.nil (hr : r < M) : Holds M cells r r [] :=
  ⟨hr, (Nat.mod_eq_of_lt hr).symm, Nat.zero_le _, fun _ h => absurd h (Nat.not_lt_zero _)⟩

theorem ofNat_mod (hdvd : N ∣ M) (k : ℕ) : Fin.ofNat N (k % M) = Fin.ofNat N k := by
  ext
  simp [Fin.ofNat, Nat.mod_mod_of_dvd k hdvd]

theorem ofNat_add_ne {a i j : ℕ} (hij : i < j) (hj : j < i + N) :
    Fin.ofNat N (a + i) ≠ Fin.ofNat N (a + j) := by
  intro h
  have hmod : a + i ≡ a + j [MOD N] := congrArg Fin.val h
  have hij' : i ≡ j [MOD N] := Nat.ModEq.add_left_cancel' a hmod
  have hdvd : N ∣ j - i := (Nat.modEq_iff_dvd' hij.le).mp hij'
  exact absurd (Nat.le_of_dvd (by omega) hdvd) (by omega)

theorem Holds.eq_iff (h : Holds M cells r w q) (hNM : N < M) : r = w ↔ q = [] := by
  have hr := h.read_lt
  have hle := h.length_le
  rw [h.write_eq]
  constructor
  · intro heq
    by_contra hne
    have hpos := List.length_pos_iff.mpr hne
    rcases Nat.lt_or_ge (r + q.length) M with hlt | hge
    · rw [Nat.mod_eq_of_lt hlt] at heq
      omega
    · rw [Nat.mod_eq_sub_mod hge, Nat.mod_eq_of_lt (by omega)] at heq
      omega
  · rintro rfl
    exact (Nat.mod_eq_of_lt hr).symm

theorem Holds.sub_mod (h : Holds M cells r w q) (hNM : N < M) :
    (w + (M - r)) % M = q.length := by
  have hr := h.read_lt
  have hle := h.length_le
  rw [h.write_eq, Nat.mod_add_mod, show r + q.length + (M - r) = q.length + M by omega,
    Nat.add_mod_right, Nat.mod_eq_of_lt (by omega)]

theorem Holds.full_iff (h : Holds M cells r w q) (hNM : N < M) :
    w = (r + N) % M ↔ q.length = N := by
  have hr := h.read_lt
  have hle := h.length_le
  rw [h.write_eq]
  constructor
  · intro heq
    have hmod : q.length ≡ N [MOD M] := Nat.ModEq.add_left_cancel' r heq
    exact hmod.eq_of_lt_of_lt (by omega) hNM
  · intro hfull
    rw [hfull]

theorem Holds.put (h : Holds M cells r w q) (hdvd : N ∣ M) (hroom : q.length < N) (x : α) :
    Holds M (update cells (Fin.ofNat N w) x) r ((w + 1) % M) (q ++ [x]) where
  read_lt := h.read_lt
  write_eq := by
    rw [h.write_eq, Nat.mod_add_mod, List.length_append, List.length_singleton, Nat.add_assoc]
  length_le := by
    simp only [List.length_append, List.length_singleton]
    omega
  cell i hi := by
    have hw : Fin.ofNat N w = Fin.ofNat N (r + q.length) := by rw [h.write_eq, ofNat_mod hdvd]
    simp only [List.length_append, List.length_singleton] at hi
    by_cases hlast : i = q.length
    · subst hlast
      rw [hw, update_self]
      simp
    · have hlt : i < q.length := by omega
      rw [hw, update_of_ne (ofNat_add_ne hlt (by omega)), h.cell i hlt]
      simp [List.getElem_append_left hlt]

theorem Holds.fill (h : Holds M cells r w q) (hdvd : N ∣ M) (hroom : q.length < N) (x : α) :
    Holds M (update cells (Fin.ofNat N w) x) r w q where
  read_lt := h.read_lt
  write_eq := h.write_eq
  length_le := h.length_le
  cell i hi := by
    have hw : Fin.ofNat N w = Fin.ofNat N (r + q.length) := by rw [h.write_eq, ofNat_mod hdvd]
    rw [hw, update_of_ne (ofNat_add_ne hi (by omega)), h.cell i hi]

theorem Holds.push (h : Holds M cells r w q) (hdvd : N ∣ M) (hroom : q.length < N) {x : α}
    (hx : cells (Fin.ofNat N w) = x) : Holds M cells r ((w + 1) % M) (q ++ [x]) := by
  have hput := h.put hdvd hroom x
  rwa [← hx, update_eq_self, hx] at hput

theorem Holds.head {x : α} (h : Holds M cells r w (x :: q)) : cells (Fin.ofNat N r) = x :=
  h.cell 0 (Nat.succ_pos _)

theorem Holds.take {x : α} (h : Holds M cells r w (x :: q)) (hdvd : N ∣ M) :
    Holds M cells ((r + 1) % M) w q where
  read_lt := Nat.mod_lt _ (Nat.zero_lt_of_lt h.read_lt)
  write_eq := by
    rw [h.write_eq, Nat.mod_add_mod, List.length_cons]
    congr 1
    omega
  length_le := (Nat.le_succ _).trans h.length_le
  cell i hi := by
    have hcell := h.cell (i + 1) (Nat.succ_lt_succ hi)
    have hidx : Fin.ofNat N ((r + 1) % M + i) = Fin.ofNat N (r + (i + 1)) := by
      rw [← ofNat_mod hdvd, Nat.mod_add_mod, ofNat_mod hdvd]
      congr 1
      omega
    rw [hidx, hcell]
    rfl

theorem Holds.unput {x : α} (h : Holds M cells r w (q ++ [x])) :
    Holds M cells r ((r + q.length) % M) q where
  read_lt := h.read_lt
  write_eq := rfl
  length_le := by
    have hle := h.length_le
    simp only [List.length_append, List.length_singleton] at hle
    omega
  cell i hi := by
    have hcell := h.cell i (by simp only [List.length_append]; omega)
    rw [hcell]
    simp [List.getElem_append_left hi]

theorem Holds.cell_append {q' : List α} (h : Holds M cells r w (q ++ q')) (hdvd : N ∣ M) {m i : ℕ}
    (hm : m = (r + q.length) % M) (hi : i < q'.length) :
    cells (Fin.ofNat N ((m + i) % M)) = q'.get ⟨i, hi⟩ := by
  have hcell := h.cell (q.length + i) (by simp only [List.length_append]; omega)
  have hidx : Fin.ofNat N ((m + i) % M) = Fin.ofNat N (r + (q.length + i)) := by
    rw [hm, Nat.mod_add_mod, ofNat_mod hdvd, Nat.add_assoc]
  rw [hidx, hcell]
  simp

end Xv6.RingBuffers
