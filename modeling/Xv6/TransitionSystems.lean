import Mathlib.Logic.Relation

/-!
# Runs of labelled transition systems

A step relation takes a state and an event to a next state. A run lists the events in
order. An inductive invariant holds in every state a run reaches, and a run all of whose
steps meet a condition is a run of the restricted step relation.
-/

namespace Xv6.TransitionSystems

variable {State Event : Type*}

/-- A run from one state to another through a list of events, built at its end. -/
inductive Run (step : State → Event → State → Prop) : State → List Event → State → Prop where
  | nil (s : State) : Run step s [] s
  | snoc {s t u : State} {es : List Event} {e : Event} (run : Run step s es t)
      (last : step t e u) : Run step s (es ++ [e]) u

def Reachable (init : State → Prop) (step : State → Event → State → Prop) (s : State) : Prop :=
  ∃ s₀ es, init s₀ ∧ Run step s₀ es s

variable {init : State → Prop} {R : State → Event → State → Prop}

theorem Reachable.of_init {s : State} (h : init s) : Reachable init R s := ⟨s, [], h, .nil s⟩

variable {s t : State}

theorem Reachable.step {e : Event} (h : Reachable init R s) (hs : R s e t) :
    Reachable init R t := by
  obtain ⟨s₀, es, hi, hr⟩ := h
  exact ⟨s₀, es ++ [e], hi, hr.snoc hs⟩

variable {es : List Event}

theorem Run.invariant {I : State → Prop} (h : Run R s es t) (h₀ : I s)
    (hstep : ∀ s e t, I s → R s e t → I t) : I t := by
  induction h with
  | nil => exact h₀
  | snoc _ hl ih => exact hstep _ _ _ ih hl

theorem Reachable.invariant {I : State → Prop} {s : State} (h : Reachable init R s)
    (h₀ : ∀ s, init s → I s) (hstep : ∀ s e t, I s → R s e t → I t) : I s := by
  obtain ⟨s₀, es, hi, hr⟩ := h
  exact hr.invariant (h₀ s₀ hi) hstep

theorem Run.mono {R' : State → Event → State → Prop} (h : Run R s es t)
    (hle : ∀ s e t, R s e t → R' s e t) : Run R' s es t := by
  induction h with
  | nil => exact .nil _
  | snoc _ hl ih => exact ih.snoc (hle _ _ _ hl)

theorem Run.cons {s t u : State} {e : Event} (hs : R s e t) (h : Run R t es u) :
    Run R s (e :: es) u := by
  induction h with
  | nil => exact (Run.nil s).snoc hs
  | snoc _ hl ih => exact ih.snoc hl

/-- The state a list of events leads to, for steps given by a function. -/
def exec (next : State → Event → Option State) (s : State) : List Event → Option State
  | [] => some s
  | e :: es => (next s e).bind fun t => exec next t es

variable {next : State → Event → Option State}

theorem run_of_exec (h : exec next s es = some t) :
    Run (fun s e t => next s e = some t) s es t := by
  induction es generalizing s with
  | nil =>
    cases h
    exact .nil _
  | cons e es ih =>
    obtain ⟨u, hu, hrest⟩ := Option.bind_eq_some_iff.mp h
    exact .cons hu (ih hrest)

theorem run_of_exec_if {c : State → Event → Bool} {G : State → Event → Prop}
    (hc : ∀ s e, c s e = true → G s e)
    (h : exec (fun s e => if c s e then next s e else none) s es = some t) :
    Run (fun s e t => next s e = some t ∧ G s e) s es t := by
  induction es generalizing s with
  | nil =>
    cases h
    exact .nil _
  | cons e es ih =>
    obtain ⟨u, hu, hrest⟩ := Option.bind_eq_some_iff.mp h
    simp only at hu
    split at hu
    · exact .cons ⟨hu, hc _ _ ‹_›⟩ (ih hrest)
    · cases hu

theorem exists_of_any {α : Type*} {o : Option α} {p : α → Prop} {_ : DecidablePred p}
    (h : (o.any fun a => decide (p a)) = true) : ∃ a, o = some a ∧ p a := by
  simpa [Option.any_eq_true] using h

theorem reachable_of_exec (h : exec next s es = some t) :
    Reachable (fun s' => s' = s) (fun s e t => next s e = some t) t :=
  ⟨s, es, rfl, run_of_exec h⟩

end Xv6.TransitionSystems
