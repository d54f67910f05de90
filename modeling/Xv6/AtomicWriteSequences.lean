import Mathlib.Logic.Function.Basic

/-!
# Stores that receive one atomic write after another

A store maps addresses to values. A program's effect on it is the list of writes it
issues; stopping the program between two of them leaves the store after a prefix.
-/

namespace Xv6.AtomicWriteSequences

variable {Addr Val : Type*} [DecidableEq Addr]

def applyWrites (d : Addr → Val) (ws : List (Addr × Val)) : Addr → Val :=
  ws.foldl (fun d w => Function.update d w.1 w.2) d

@[simp] theorem applyWrites_nil (d : Addr → Val) : applyWrites d [] = d := rfl

@[simp] theorem applyWrites_cons (d : Addr → Val) (w : Addr × Val) (ws : List (Addr × Val)) :
    applyWrites d (w :: ws) = applyWrites (Function.update d w.1 w.2) ws := rfl

theorem applyWrites_append (d : Addr → Val) (ws vs : List (Addr × Val)) :
    applyWrites d (ws ++ vs) = applyWrites (applyWrites d ws) vs := List.foldl_append

theorem applyWrites_of_not_mem (d : Addr → Val) (ws : List (Addr × Val)) {x : Addr}
    (h : ∀ w ∈ ws, w.1 ≠ x) : applyWrites d ws x = d x := by
  induction ws generalizing d with
  | nil => rfl
  | cons w ws ih =>
    rw [applyWrites_cons, ih _ (fun v hv => h v (by simp [hv]))]
    exact Function.update_of_ne (h w (by simp)).symm _ _

theorem applyWrites_congr {d d' : Addr → Val} (ws : List (Addr × Val)) {x : Addr}
    (h : d x = d' x) : applyWrites d ws x = applyWrites d' ws x := by
  induction ws generalizing d d' with
  | nil => exact h
  | cons w ws ih =>
    refine ih ?_
    simp only [Function.update_apply, h]

theorem applyWrites_eq_of_mem (d : Addr → Val) (ws : List (Addr × Val)) {x : Addr} {v : Val}
    (hmem : ∃ w ∈ ws, w.1 = x) (hall : ∀ w ∈ ws, w.1 = x → w.2 = v) :
    applyWrites d ws x = v := by
  induction ws generalizing d with
  | nil => simp at hmem
  | cons w ws ih =>
    rw [applyWrites_cons]
    by_cases hrest : ∃ u ∈ ws, u.1 = x
    · exact ih _ hrest (fun u hu => hall u (by simp [hu]))
    · have hw : w.1 = x := by
        obtain ⟨u, hu, hux⟩ := hmem
        rcases List.mem_cons.mp hu with rfl | hu
        · exact hux
        · exact absurd ⟨u, hu, hux⟩ hrest
      rw [applyWrites_of_not_mem _ _ (fun u hu hux => hrest ⟨u, hu, hux⟩)]
      subst hw
      simpa using hall w (by simp) rfl

end Xv6.AtomicWriteSequences
