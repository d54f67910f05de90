import Xv6.SchedulerExclusion

/-!
# The steps of a CPU

Which point of `scheduler`, `sched` and the sections of a process's lock follows which, and
what a step of one CPU leaves alone.
-/

namespace Xv6.Scheduler

variable {C : Type} {n : ℕ}

theorem owns_of_executes {pc : Pc n} {p : Fin n} (h : pc.executes = some p) :
    pc.owns = some p := by
  cases pc <;> first | exact h | cases h

variable [DecidableEq C] {s s' : System C n} {c : C} {k : Choice n}

omit [DecidableEq C] in
theorem touch_pc (w : Party n) (q : Fin n) (x : Touch) : (s.touch w q x).pc = s.pc := by
  cases x <;> cases w <;> simp only [System.touch] <;> split <;> rfl

omit [DecidableEq C] in
theorem touch_context (w : Party n) (q : Fin n) (x : Touch) (p : Fin n) :
    (s.touch w q x).context p = s.context p ∨ (s.touch w q x).context p = .forkret := by
  cases x with
  | alloc memory =>
    cases w with
    | scheduler i => exact .inl rfl
    | thread t =>
      simp only [System.touch]
      split
      · by_cases hp : p = q <;> simp [hp]
      · exact .inl rfl
  | _ =>
    refine .inl ?_
    cases w <;> simp only [System.touch] <;> split <;> rfl

/-- What a step of a CPU leaves alone: the points of the other CPUs, and the contexts of
threads that wait in `sched`. -/
structure Moves (s : System C n) (c : C) (s' : System C n) : Prop where
  other : ∀ d, d ≠ c → s'.pc d = s.pc d
  context : ∀ p, s'.context p = s.context p ∨ s'.context p = .forkret ∨
    (s.pc c).executes = some p

omit [DecidableEq C] in
theorem Moves.refl (s : System C n) (c : C) : Moves s c s := ⟨fun _ _ => rfl, fun _ => .inl rfl⟩

omit [DecidableEq C] in
theorem Moves.trans {u : System C n} (h : Moves s c u) (h' : Moves u c s')
    (hexecutes : (u.pc c).executes = (s.pc c).executes) : Moves s c s' := by
  refine ⟨fun d hd => (h'.other d hd).trans (h.other d hd), fun p => ?_⟩
  obtain hsame | hfork | hp := h'.context p
  · rw [hsame]
    exact h.context p
  · exact .inr (.inl hfork)
  · exact .inr (.inr (hexecutes ▸ hp))

theorem Acts.pc_eq {pc pc' : Pc n} (h : Acts s c k pc pc' s') :
    s'.pc = Function.update s.pc c pc' := by
  cases h with
  | inside => rw [System.goto, touch_pc]
  | _ => rfl

theorem Acts.moves {pc pc' : Pc n} (h : Acts s c k pc pc' s') (hpc : s.pc c = pc) :
    Moves s c s' := by
  refine ⟨fun d hd => by rw [h.pc_eq, Function.update_of_ne hd], fun p => ?_⟩
  cases h with
  | inside => exact (touch_context _ _ _ p).imp_right .inl
  | @save _ t =>
    by_cases hp : p = t
    · exact .inr (.inr (by rw [hpc, hp]; rfl))
    · exact .inl (Function.update_of_ne hp _ _)
  | _ => exact .inl rfl

theorem Exclusive.goes [NeZero n] (h : Exclusive s) {pc : Pc n} (hpc : s.pc c = pc)
    (hs : s.next c k = some s') :
    ∃ pc', Acts s c k pc pc' s' ∧ s'.pc c = pc' ∧ Moves s c s' := by
  obtain ⟨pc', hacts⟩ := h.acts hpc hs
  exact ⟨pc', hacts, by rw [hacts.pc_eq, Function.update_self], hacts.moves hpc⟩

end Xv6.Scheduler
