import Xv6.Directories
import Mathlib.Data.List.TakeWhile

/-!
# Path names

What `skipelem` makes of a path: the pieces between the slashes that are not empty, each cut to
`DIRSIZ` bytes. Behind the last piece it leaves the empty path, which tells `namex` that it has
reached the final element.
-/

namespace Xv6.Fs

/-- The pieces of a path between its slashes, without the empty ones. -/
def components (path : Path) : List (List UInt8) := (path.splitOn slash).filter (· ≠ [])

theorem components_nil : components [] = [] := by simp [components]

theorem components_slash (path : Path) : components (slash :: path) = components path := by
  simp [components, List.splitOn, List.splitOnP_cons_eq_if_modifyHead]

theorem components_skip (path : Path) :
    components (path.dropWhile (· = slash)) = components path := by
  induction path with
  | nil => rfl
  | cons c path ih =>
    by_cases hc : c = slash
    · rw [List.dropWhile_cons_of_pos (by simpa using hc), ih, hc, components_slash]
    · rw [List.dropWhile_cons_of_neg (by simpa using hc)]

theorem components_piece {path : Path} {c : UInt8} {rest : Path} (h : path = c :: rest)
    (hc : c ≠ slash) : components path =
      path.takeWhile (· ≠ slash) :: components (path.dropWhile (· ≠ slash)) := by
  have hne : path.takeWhile (· ≠ slash) ≠ [] := by simp [h, hc]
  have hmem : ∀ b ∈ path.takeWhile (· ≠ slash), (b == slash) = false := by
    intro b hb
    simpa using List.mem_takeWhile_imp hb
  have hsplit := List.takeWhile_append_dropWhile (p := fun b => b ≠ slash) (l := path)
  cases hdrop : path.dropWhile (· ≠ slash) with
  | nil =>
    rw [hdrop, List.append_nil] at hsplit
    rw [hsplit] at hmem
    rw [components, List.splitOn, List.splitOnP_eq_singleton hmem, hsplit, components_nil]
    simp [h]
  | cons b tail =>
    have hb : b = slash := by
      have hhead := List.head?_dropWhile_not (fun b => decide (b ≠ slash)) path
      rw [hdrop] at hhead
      simpa using hhead
    rw [hdrop, hb] at hsplit
    rw [hb, components_slash, components, components, List.splitOn, List.splitOn]
    nth_rewrite 1 [← hsplit]
    rw [List.splitOnP_append_cons_of_forall_mem hmem slash (by simp),
      List.filter_cons_of_pos (by simpa using hne)]

theorem skipelem_cases (path : Path) :
    (skipelem path = none ∧ components path = []) ∨
      ∃ elem rest, skipelem path = some (elem.take dirSiz, rest) ∧
        components path = elem :: components rest ∧ rest.length < path.length ∧
        (components rest = [] → rest = []) := by
  have hskip := components_skip path
  have hlen := (List.dropWhile_suffix (p := fun b => decide (b = slash)) (l := path)).length_le
  have hhead := List.head?_dropWhile_not (fun b => decide (b = slash)) path
  rw [skipelem]
  cases hdrop : path.dropWhile (· = slash) with
  | nil =>
    rw [hdrop] at hskip
    exact .inl ⟨rfl, by rw [← hskip, components_nil]⟩
  | cons c tail =>
    have hc : c ≠ slash := by simpa [hdrop] using hhead
    rw [hdrop] at hskip hlen
    have hpiece := @components_piece (c :: tail) c tail rfl hc
    have hrest := components_skip ((c :: tail).dropWhile (· ≠ slash))
    have hshort := (List.dropWhile_suffix (p := fun b => decide (b = slash))
      (l := (c :: tail).dropWhile (· ≠ slash))).length_le
    have hshorter : ((c :: tail).dropWhile (· ≠ slash)).length ≤ tail.length := by
      rw [List.dropWhile_cons_of_pos (by simpa using hc)]
      exact List.dropWhile_suffix _ |>.length_le
    refine .inr ⟨_, _, rfl, ?_, ?_, ?_⟩
    · rw [← hskip, hpiece, hrest]
    · simp only [List.length_cons] at hlen
      omega
    · intro hempty
      generalize hr : ((c :: tail).dropWhile (· ≠ slash)).dropWhile (· = slash) = r at hempty
      cases r with
      | nil => rfl
      | cons b r =>
        have hb : b ≠ slash := by
          have hnot := List.head?_dropWhile_not (fun b => decide (b = slash))
            ((c :: tail).dropWhile (· ≠ slash))
          rw [hr] at hnot
          simpa using hnot
        rw [components_piece rfl hb] at hempty
        cases hempty

theorem elements_eq (path : Path) {k : ℕ} (hk : path.length ≤ k) :
    elements k path = (components path).map (List.take dirSiz) := by
  induction k generalizing path with
  | zero =>
    obtain rfl : path = [] := List.length_eq_zero_iff.mp (by omega)
    rfl
  | succ k ih =>
    rw [elements]
    rcases skipelem_cases path with ⟨hnone, hpieces⟩ | ⟨elem, rest, hsome, hpieces, hlen, -⟩
    · rw [hnone, hpieces]
      rfl
    · rw [hsome, hpieces, List.map_cons]
      exact congrArg _ (ih rest (by omega))

/-- Calls of `skipelem` up to the end of a path yield its pieces, and the path that a call leaves
is empty exactly if the call has found the last piece. -/
theorem skipelem_parses (path : Path) (k : ℕ) (hk : path.length ≤ k) :
    elements k path = (components path).map (List.take dirSiz) ∧
      ∀ name rest, skipelem path = some (name, rest) →
        (rest = [] ↔ (components path).length = 1) := by
  refine ⟨elements_eq path hk, fun name rest hskip => ?_⟩
  rcases skipelem_cases path with ⟨hnone, -⟩ | ⟨elem, rest', hsome, hpieces, -, hlast⟩
  · rw [hnone] at hskip
    cases hskip
  · rw [hsome, Option.some_inj, Prod.mk.injEq] at hskip
    obtain ⟨-, rfl⟩ := hskip
    rw [hpieces, List.length_cons, Nat.add_eq_right, List.length_eq_zero_iff]
    refine ⟨fun hrest => ?_, hlast⟩
    rw [hrest, components_nil]

theorem skipelem_parses_two :
    elements 5 [47, 97, 47, 47, 98] = (components [47, 97, 47, 47, 98]).map (List.take dirSiz) ∧
      components [47, 97, 47, 47, 98] = [[97], [98]] :=
  ⟨(skipelem_parses [47, 97, 47, 47, 98] 5 (by decide)).1, by decide⟩

end Xv6.Fs
