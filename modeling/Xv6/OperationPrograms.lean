import Mathlib.Tactic.Common

/-!
# Programs over a set of atomic operations

A program is a tree: it has returned, or it performs one operation and goes on with the
operation's result. What a program guarantees is computed from what each operation guarantees.
-/

namespace Xv6.OperationPrograms

section Fallible

universe v

variable {E α : Type*}

/-- A computation that returns ends with `Q`, and one that fails does so with an error in
`F`. -/
def Ends (F : E → Prop) (Q : α → Prop) : Except E α → Prop
  | .ok a => Q a
  | .error e => F e

variable {F : E → Prop} {Q : α → Prop}

@[simp] theorem ends_ok (a : α) : Ends F Q (.ok a) ↔ Q a := Iff.rfl

@[simp] theorem ends_error (e : E) : Ends F Q (.error e) ↔ F e := Iff.rfl

theorem Ends.mono {Q' : α → Prop} {x : Except E α} (hx : Ends F Q x) (h : ∀ a, Q a → Q' a) :
    Ends F Q' x := by
  cases x with
  | ok a => exact h a hx
  | error e => exact hx

theorem Ends.imp {F' : E → Prop} {x : Except E α} (hx : Ends F Q x) (h : ∀ e, F e → F' e) :
    Ends F' Q x := by
  cases x with
  | ok a => exact hx
  | error e => exact h e hx

theorem Ends.and {G : E → Prop} {Q' : α → Prop} {x : Except E α} (hx : Ends F Q x)
    (hx' : Ends G Q' x) : Ends F (fun a => Q a ∧ Q' a) x := by
  cases x with
  | ok a => exact ⟨hx, hx'⟩
  | error e => exact hx

theorem Ends.bind {α β : Type v} {Q : β → Prop} {x : Except E α} {f : α → Except E β}
    (hx : Ends F (fun a => Ends F Q (f a)) x) : Ends F Q (x >>= f) := by
  cases x with
  | ok a => exact hx
  | error e => exact hx

theorem Ends.exists_ok {x : Except E α} (h : Ends (fun _ => False) Q x) :
    ∃ a, x = .ok a ∧ Q a := by
  cases x with
  | ok a => exact ⟨a, rfl, h⟩
  | error e => exact h.elim

theorem exists_ok_of_any {x : Except E α} {p : α → Bool} (h : x.toOption.any p = true) :
    ∃ a, x = .ok a ∧ p a = true := by
  cases x with
  | ok a => exact ⟨a, rfl, h⟩
  | error e => exact absurd h Bool.false_ne_true

end Fallible

/-- Programs over the operations `Op`, where `op` returns a `Res op`. -/
inductive Prog (Op : Type) (Res : Op → Type) (α : Type) where
  | ret (a : α)
  | call (op : Op) (k : Res op → Prog Op Res α)

namespace Prog

variable {Op : Type} {Res : Op → Type} {α β : Type}

def bind : Prog Op Res α → (α → Prog Op Res β) → Prog Op Res β
  | ret a, f => f a
  | call op k, f => call op fun r => bind (k r) f

instance : Monad (Prog Op Res) where
  pure := ret
  bind := bind

def perform (op : Op) : Prog Op Res (Res op) := call op ret

@[simp] theorem pure_eq (a : α) : (pure a : Prog Op Res α) = ret a := rfl

@[simp] theorem ret_bind (a : α) (f : α → Prog Op Res β) : (ret a >>= f) = f a := rfl

@[simp] theorem call_bind (op : Op) (k : Res op → Prog Op Res α) (f : α → Prog Op Res β) :
    (call op k >>= f) = call op fun r => k r >>= f := rfl

variable {S : Type*}

/-- What must hold of a state for the program to end in a state with `Q`, when `spec op Q`
is what must hold for the operation `op` to do so. -/
def wp (spec : (op : Op) → (Res op → S → Prop) → S → Prop) :
    Prog Op Res α → (α → S → Prop) → S → Prop
  | ret a, Q => Q a
  | call op k, Q => spec op fun r => wp spec (k r) Q

variable {spec : (op : Op) → (Res op → S → Prop) → S → Prop}

@[simp] theorem wp_ret (a : α) (Q : α → S → Prop) : wp spec (ret a) Q = Q a := rfl

@[simp] theorem wp_call (op : Op) (k : Res op → Prog Op Res α) (Q : α → S → Prop) :
    wp spec (call op k) Q = spec op fun r => wp spec (k r) Q := rfl

@[simp] theorem wp_perform (op : Op) (Q : Res op → S → Prop) :
    wp spec (perform op) Q = spec op Q := rfl

@[simp] theorem wp_bind (m : Prog Op Res α) (f : α → Prog Op Res β) (Q : β → S → Prop) :
    wp spec (m >>= f) Q = wp spec m fun a => wp spec (f a) Q := by
  induction m with
  | ret a => rfl
  | call op k ih =>
    simp only [call_bind, wp_call]
    exact congrArg (spec op) (funext ih)

/-- Operations that promise more when less is asked of their end. -/
def Monotone (spec : (op : Op) → (Res op → S → Prop) → S → Prop) : Prop :=
  ∀ op Q Q', (∀ r s, Q r s → Q' r s) → ∀ s, spec op Q s → spec op Q' s

variable {m : Prog Op Res α}

theorem wp_mono (hspec : Monotone spec) {Q Q' : α → S → Prop} (h : ∀ a s, Q a s → Q' a s) {s : S}
    (hm : wp spec m Q s) : wp spec m Q' s := by
  induction m generalizing s with
  | ret a => exact h a s hm
  | call op k ih => exact hspec op _ _ (fun r _ hr => ih r hr) s hm

variable {E : Type}

/-- Run a program to its end, unless one of its operations fails. -/
def run (step : (op : Op) → S → Except E (Res op × S)) : Prog Op Res α → S → Except E (α × S)
  | ret a, s => .ok (a, s)
  | call op k, s => do
    let r ← step op s
    run step (k r.1) r.2

variable {step : (op : Op) → S → Except E (Res op × S)}

theorem run_perform {op : Op} {s s' : S} {r : Res op} (h : step op s = .ok (r, s')) :
    run step (perform op) s = .ok (r, s') := by
  rw [perform, run, h]
  rfl

theorem run_bind (step : (op : Op) → S → Except E (Res op × S)) (m : Prog Op Res α)
    (f : α → Prog Op Res β) (s : S) :
    run step (m >>= f) s =
      match run step m s with
      | .ok r => run step (f r.1) r.2
      | .error e => .error e := by
  induction m generalizing s with
  | ret a => rfl
  | call op k ih =>
    rw [call_bind, run, run]
    cases step op s with
    | error e => rfl
    | ok r => exact ih r.1 r.2

theorem run_bind_eq {f : α → Prog Op Res β} {s s' : S} {a : α} (h : run step m s = .ok (a, s')) :
    run step (m >>= f) s = run step (f a) s' := by
  rw [run_bind, h]

theorem run_bind_congr {m m' : Prog Op Res α} {f g : α → Prog Op Res β} {s : S}
    (hm : run step m s = run step m' s)
    (h : ∀ a s', run step m' s = .ok (a, s') → run step (f a) s' = run step (g a) s') :
    run step (m >>= f) s = run step (m' >>= g) s := by
  rw [run_bind, run_bind, hm]
  cases hr : run step m' s with
  | ok r => exact h r.1 r.2 hr
  | error e => rfl

/-- Whenever the program `m` ends, `m'` ends in the same way. -/
def Extends (step : (op : Op) → S → Except E (Res op × S)) (m m' : Prog Op Res α) : Prop :=
  ∀ s r, run step m s = .ok r → run step m' s = .ok r

theorem Extends.refl (m : Prog Op Res α) : Extends step m m := fun _ _ h => h

theorem Extends.bind {m m' : Prog Op Res α} {f g : α → Prog Op Res β} (hm : Extends step m m')
    (hf : ∀ a, Extends step (f a) (g a)) : Extends step (m >>= f) (m' >>= g) := by
  intro s r h
  rw [run_bind] at h ⊢
  cases hr : run step m s with
  | ok r' =>
    rw [hr] at h
    rw [hm s r' hr]
    exact hf r'.1 r'.2 r h
  | error e =>
    rw [hr] at h
    cases h

theorem Extends.ite {c : Prop} [Decidable c] {m m' n n' : Prog Op Res α} (hm : Extends step m m')
    (hn : Extends step n n') : Extends step (if c then m else n) (if c then m' else n') := by
  split
  · exact hm
  · exact hn

theorem extends_of_le {m : ℕ → Prog Op Res α} (h : ∀ k, Extends step (m k) (m (k + 1))) {i j : ℕ}
    (hij : i ≤ j) : Extends step (m i) (m j) := by
  induction hij with
  | refl => exact .refl _
  | step _ ih => exact fun s r hr => h _ s r (ih s r hr)

/-- The guarantee of each operation, read off the function that performs it: a result with
`Q`, or an error in `F`. -/
def guarantee (step : (op : Op) → S → Except E (Res op × S)) (F : E → Prop) (op : Op)
    (Q : Res op → S → Prop) (s : S) : Prop := Ends F (fun r => Q r.1 r.2) (step op s)

theorem guarantee_monotone (step : (op : Op) → S → Except E (Res op × S)) (F : E → Prop) :
    Monotone (guarantee step F) := fun _ _ _ h _ hs => hs.mono fun _ => h _ _

theorem ends_of_wp {F : E → Prop} {Q : α → S → Prop} {s : S} (h : wp (guarantee step F) m Q s) :
    Ends F (fun r => Q r.1 r.2) (run step m s) := by
  induction m generalizing s with
  | ret a => exact h
  | call op k ih => exact Ends.bind (h.mono fun r hr => ih r.1 hr)

theorem exists_run_of_wp {Q : α → S → Prop} {s : S} (h : wp (guarantee step fun _ => False) m Q s) :
    ∃ a s', run step m s = .ok (a, s') ∧ Q a s' := by
  obtain ⟨r, hr, hQ⟩ := (ends_of_wp h).exists_ok
  exact ⟨r.1, r.2, hr, hQ⟩

def Uses (A : Op → Prop) : Prog Op Res α → Prop
  | ret _ => True
  | call op k => A op ∧ ∀ r, Uses A (k r)

theorem Uses.bind {A : Op → Prop} {f : α → Prog Op Res β} (hm : m.Uses A) (hf : ∀ a, (f a).Uses A) :
    (m >>= f).Uses A := by
  induction m with
  | ret a => exact hf a
  | call op k ih => exact ⟨hm.1, fun r => ih r (hm.2 r)⟩

theorem wp_frame {F : E → Prop} {A : Op → Prop} {T : Type*} (v : S → T)
    (hstep : ∀ op, A op → ∀ s r s', step op s = .ok (r, s') → v s' = v s) (hm : m.Uses A)
    {Q : α → S → Prop} {s : S} (h : wp (guarantee step F) m Q s) :
    wp (guarantee step F) m (fun a s' => Q a s' ∧ v s' = v s) s := by
  induction m generalizing s with
  | ret a => exact ⟨h, rfl⟩
  | call op k ih =>
    rw [wp_call, guarantee] at h ⊢
    cases hr : step op s with
    | error e =>
      rw [hr] at h
      exact h
    | ok r =>
      rw [hr, ends_ok] at h
      rw [ends_ok]
      refine wp_mono (guarantee_monotone step F) (fun a s' hs => ?_) (ih r.1 (hm.2 r.1) h)
      rw [← hstep op hm.1 s r.1 r.2 hr]
      exact hs

end Prog

end Xv6.OperationPrograms
