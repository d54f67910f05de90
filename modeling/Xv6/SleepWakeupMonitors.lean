import Xv6.TransitionSystems
import Mathlib.Algebra.GroupWithZero.Nat
import Mathlib.Logic.Function.Basic

/-!
# Monitors built from a lock, sleep and wakeup

Processes share a state guarded by one lock `lk`. Sleeping takes the process's own lock, then
releases `lk`, then marks the process asleep and releases its own lock; waking visits the
processes one by one and needs each one's own lock for the visit. Nothing here is atomic
beyond one such step, a sleeper may be roused at any time, and processes also run code
outside `lk` that may change the shared state.
-/

namespace Xv6.SleepWakeupMonitors
open TransitionSystems Function

/-- Where a process stands. `L` is the process's own control state. -/
inductive Phase (P C L : Type*) where
  | outside (l : L)
  | inside (l : L)
  | parking (c : C) (l : L)
  | parked (c : C) (l : L)
  | asleep (c : C) (l : L)
  | roused (l : L)
  | waking (c : C) (todo : List P) (l : L)

inductive Move (C L S E : Type*) where
  | stay (l : L) (s : S)
  | release (l : L) (s : S)
  | sleep (c : C) (l : L)
  | wakeup (c : C) (l : L) (s : S)
  | panic (e : E)

/-- A program for every process: how it takes the lock, what it does with it, and what it
may do without it. The choice `K` resolves what the program leaves open. -/
structure Monitor (P C L S E K : Type*) where
  procs : List P
  enter : L → Option L
  move : P → L → S → Move C L S E
  run : P → K → L → S → Option (L × S)

/-- The shared state, the lock's holder, every process, and a panic if there was one. -/
structure State (P C L S E : Type*) where
  shared : S
  lock : Option P
  phase : P → Phase P C L
  panicked : Option E

inductive Event (P K : Type*) where
  | acquire (p : P)
  | move (p : P)
  | park (p : P)
  | doze (p : P)
  | visit (p : P)
  | rouse (p : P)
  | run (p : P) (k : K)

variable {P C L S E K : Type*}

/-- A process's own lock is held by the process itself on its way to sleep. -/
def Phase.ownLockHeld : Phase P C L → Bool
  | .parking .. | .parked .. => true
  | _ => false

def Phase.holds : Phase P C L → Bool
  | .inside _ | .parking .. | .waking .. => true
  | _ => false

/-- The lock's holder is exactly the process whose phase says so. -/
def LockExact (s : State P C L S E) : Prop := ∀ p, s.lock = some p ↔ (s.phase p).holds = true

section Phases

variable [DecidableEq P] {s : State P C L S E}

def State.goto (s : State P C L S E) (p : P) (ph : Phase P C L) : State P C L S E :=
  { s with phase := update s.phase p ph }

@[simp] theorem goto_phase_self (s : State P C L S E) (p : P) (ph : Phase P C L) :
    (s.goto p ph).phase p = ph := by simp [State.goto]

theorem goto_phase_ne (s : State P C L S E) {p q : P} (ph : Phase P C L) (h : q ≠ p) :
    (s.goto p ph).phase q = s.phase q := by simp [State.goto, h]

theorem LockExact.goto_same (h : LockExact s) (p : P) {ph : Phase P C L}
    (hph : ph.holds = (s.phase p).holds) : LockExact (s.goto p ph) := by
  intro q
  by_cases hq : q = p
  · subst hq
    rw [goto_phase_self, hph]
    exact h q
  · rw [goto_phase_ne s ph hq]
    exact h q

theorem LockExact.goto_acquire (h : LockExact s) (p : P) {ph : Phase P C L}
    (hfree : s.lock = none) (hph : ph.holds = true) :
    LockExact { s.goto p ph with lock := some p } := by
  intro q
  by_cases hq : q = p
  · subst hq
    simp [hph]
  · have := h q
    simp only [hfree, reduceCtorEq, false_iff] at this
    simp [goto_phase_ne s ph hq, this, Ne.symm hq]

theorem LockExact.goto_release (h : LockExact s) (p : P) (ph : Phase P C L)
    (hheld : (s.phase p).holds = true) (hph : ph.holds = false) :
    LockExact { s.goto p ph with lock := none } := by
  intro q
  by_cases hq : q = p
  · subst hq
    simp [hph]
  · have hlock := (h p).mpr hheld
    have := h q
    rw [hlock] at this
    simp only [Option.some.injEq, Ne.symm hq, false_iff] at this
    simp [goto_phase_ne s ph hq, this]

omit [DecidableEq P] in
theorem LockExact.shared (h : LockExact s) (s' : S) : LockExact { s with shared := s' } := h

def Phase.waitsOn : Phase P C L → Option C
  | .parking c _ | .parked c _ | .asleep c _ => some c
  | _ => none

/-- Every process on its way into sleep waits for a condition that still fails, or a
wakeup of its channel is under way and has yet to visit it. -/
def NoLostWakeup (Blocked : C → S → Prop) (s : State P C L S E) : Prop :=
  ∀ p c, (s.phase p).waitsOn = some c →
    Blocked c s.shared ∨ ∃ q todo l, s.phase q = .waking c todo l ∧ p ∈ todo

variable {Blocked : C → S → Prop}

/-- A process that has no wakeup left to do goes to another phase: it may start to wait for
what is blocked, and what it unblocks it wakes up. -/
theorem NoLostWakeup.goto (h : NoLostWakeup Blocked s) (p : P) (ph : Phase P C L) (s' : S)
    (hp : ∀ c todo l, s.phase p = .waking c todo l → todo = [])
    (hph : ∀ c, ph.waitsOn = some c → (s.phase p).waitsOn = some c ∨ Blocked c s')
    (hb : ∀ c, Blocked c s.shared → Blocked c s' ∨
      ∃ todo l, ph = .waking c todo l ∧ ∀ q, q ≠ p → q ∈ todo) :
    NoLostWakeup Blocked { s.goto p ph with shared := s' } := by
  intro q c hq
  have hold : (s.phase q).waitsOn = some c ∨ Blocked c s' := by
    by_cases hqp : q = p
    · subst hqp
      exact hph c (by simpa using hq)
    · exact .inl (by simpa [goto_phase_ne s ph hqp] using hq)
  rcases hold with hold | hblk
  · rcases h q c hold with hblk | ⟨r, todo, l, hr, hmem⟩
    · refine (hb c hblk).imp id ?_
      rintro ⟨todo, l, rfl, hall⟩
      refine ⟨p, todo, l, goto_phase_self s p _, hall q ?_⟩
      rintro rfl
      simp [Phase.waitsOn] at hq
    · have hrp : r ≠ p := by
        rintro rfl
        rw [hp c todo l hr] at hmem
        cases hmem
      exact .inr ⟨r, todo, l, by simpa [goto_phase_ne s ph hrp] using hr, hmem⟩
  · exact .inl hblk

end Phases

variable [DecidableEq C]

def Phase.visited (c : C) : Phase P C L → Phase P C L
  | .asleep c' l => if c' = c then .roused l else .asleep c' l
  | ph => ph

variable [DecidableEq P]

/-- One step of the scheduled process; `none` when it cannot be taken. -/
def Monitor.next (M : Monitor P C L S E K) (s : State P C L S E) (e : Event P K) :
    Option (State P C L S E) :=
  if s.panicked.isSome then none else
  match e with
  | .acquire p => if s.lock.isSome then none else
    match s.phase p with
    | .outside l => match M.enter l with
      | some l' => some { s.goto p (.inside l') with lock := some p }
      | none => none
    | .roused l => some { s.goto p (.inside l) with lock := some p }
    | _ => none
  | .move p => match s.phase p with
    | .inside l => match M.move p l s.shared with
      | .stay l' s' => some { s.goto p (.inside l') with shared := s' }
      | .release l' s' => some { s.goto p (.outside l') with shared := s', lock := none }
      | .sleep c l' => some (s.goto p (.parking c l'))
      | .wakeup c l' s' =>
        some { s.goto p (.waking c (M.procs.filter (fun q => q ≠ p)) l') with shared := s' }
      | .panic x => some { s with panicked := some x }
    | _ => none
  | .park p => match s.phase p with
    | .parking c l => some { s.goto p (.parked c l) with lock := none }
    | _ => none
  | .doze p => match s.phase p with
    | .parked c l => some (s.goto p (.asleep c l))
    | _ => none
  | .visit p => match s.phase p with
    | .waking _ [] l => some (s.goto p (.inside l))
    | .waking c (q :: todo) l =>
      if (s.phase q).ownLockHeld then none
      else some ((s.goto q ((s.phase q).visited c)).goto p (.waking c todo l))
    | _ => none
  | .rouse p => match s.phase p with
    | .asleep _ l => some (s.goto p (.roused l))
    | _ => none
  | .run p k => match s.phase p with
    | .outside l => match M.run p k l s.shared with
      | some (l', s') => some { s.goto p (.outside l') with shared := s' }
      | none => none
    | _ => none

def Monitor.Step (M : Monitor P C L S E K) (s : State P C L S E) (e : Event P K)
    (t : State P C L S E) : Prop := M.next s e = some t

/-- Everything one step can be, with its guard and its effect. -/
inductive StepView (M : Monitor P C L S E K) (s : State P C L S E) :
    Event P K → State P C L S E → Prop where
  | enter (p : P) (l l' : L) (free : s.lock = none) (at_ : s.phase p = .outside l)
      (into : M.enter l = some l') :
      StepView M s (.acquire p) { s.goto p (.inside l') with lock := some p }
  | reenter (p : P) (l : L) (free : s.lock = none) (at_ : s.phase p = .roused l) :
      StepView M s (.acquire p) { s.goto p (.inside l) with lock := some p }
  | stay (p : P) (l l' : L) (s' : S) (at_ : s.phase p = .inside l)
      (mv : M.move p l s.shared = .stay l' s') :
      StepView M s (.move p) { s.goto p (.inside l') with shared := s' }
  | release (p : P) (l l' : L) (s' : S) (at_ : s.phase p = .inside l)
      (mv : M.move p l s.shared = .release l' s') :
      StepView M s (.move p) { s.goto p (.outside l') with shared := s', lock := none }
  | sleep (p : P) (l l' : L) (c : C) (at_ : s.phase p = .inside l)
      (mv : M.move p l s.shared = .sleep c l') : StepView M s (.move p) (s.goto p (.parking c l'))
  | wakeup (p : P) (l l' : L) (c : C) (s' : S) (at_ : s.phase p = .inside l)
      (mv : M.move p l s.shared = .wakeup c l' s') :
      StepView M s (.move p)
        { s.goto p (.waking c (M.procs.filter (fun q => q ≠ p)) l') with shared := s' }
  | panic (p : P) (l : L) (x : E) (at_ : s.phase p = .inside l)
      (mv : M.move p l s.shared = .panic x) : StepView M s (.move p) { s with panicked := some x }
  | park (p : P) (l : L) (c : C) (at_ : s.phase p = .parking c l) :
      StepView M s (.park p) { s.goto p (.parked c l) with lock := none }
  | doze (p : P) (l : L) (c : C) (at_ : s.phase p = .parked c l) :
      StepView M s (.doze p) (s.goto p (.asleep c l))
  | visited (p : P) (l : L) (c : C) (at_ : s.phase p = .waking c [] l) :
      StepView M s (.visit p) (s.goto p (.inside l))
  | visit (p q : P) (l : L) (c : C) (todo : List P) (at_ : s.phase p = .waking c (q :: todo) l)
      (own : (s.phase q).ownLockHeld = false) :
      StepView M s (.visit p) ((s.goto q ((s.phase q).visited c)).goto p (.waking c todo l))
  | rouse (p : P) (l : L) (c : C) (at_ : s.phase p = .asleep c l) :
      StepView M s (.rouse p) (s.goto p (.roused l))
  | run (p : P) (k : K) (l l' : L) (s' : S) (at_ : s.phase p = .outside l)
      (step : M.run p k l s.shared = some (l', s')) :
      StepView M s (.run p k) { s.goto p (.outside l') with shared := s' }

variable {M : Monitor P C L S E K} {s t : State P C L S E} {e : Event P K}

theorem Monitor.Step.view (h : M.Step s e t) : s.panicked = none ∧ StepView M s e t := by
  unfold Monitor.Step Monitor.next at h
  split at h
  · cases h
  rename_i hp
  refine ⟨by simpa using hp, ?_⟩
  cases e with
  | acquire p =>
    simp only at h
    split at h
    · cases h
    rename_i hfree
    have hfree : s.lock = none := by simpa using hfree
    split at h
    · rename_i l hl
      split at h
      · rename_i l' hl'
        cases h
        exact .enter p l l' hfree hl hl'
      · cases h
    · rename_i l hl
      cases h
      exact .reenter p l hfree hl
    · cases h
  | move p =>
    simp only at h
    split at h
    · rename_i l hl
      split at h <;> cases h
      · exact .stay p l _ _ hl ‹_›
      · exact .release p l _ _ hl ‹_›
      · exact .sleep p l _ _ hl ‹_›
      · exact .wakeup p l _ _ _ hl ‹_›
      · exact .panic p l _ hl ‹_›
    · cases h
  | park p =>
    simp only at h
    split at h <;> cases h
    exact .park p _ _ ‹_›
  | doze p =>
    simp only at h
    split at h <;> cases h
    exact .doze p _ _ ‹_›
  | visit p =>
    simp only at h
    split at h
    · cases h
      exact .visited p _ _ ‹_›
    · split at h <;> cases h
      exact .visit p _ _ _ _ ‹_› (eq_false_of_ne_true ‹_›)
    · cases h
  | rouse p =>
    simp only at h
    split at h <;> cases h
    exact .rouse p _ _ ‹_›
  | run p k =>
    simp only at h
    split at h
    · rename_i l hl
      split at h <;> cases h
      exact .run p k l _ _ hl ‹_›
    · cases h

theorem Monitor.Step.panicked_iff (h : M.Step s e t) (x : E) : t.panicked = some x ↔
      ∃ p l, e = .move p ∧ s.phase p = .inside l ∧ M.move p l s.shared = .panic x := by
  obtain ⟨hnone, hv⟩ := h.view
  cases hv <;> simp_all [State.goto]

omit [DecidableEq P] in
@[simp] theorem holds_visited (c : C) (ph : Phase P C L) : (ph.visited c).holds = ph.holds := by
  cases ph <;> simp only [Phase.visited]
  split <;> rfl

theorem LockExact.step (h : LockExact s) (hv : StepView M s e t) : LockExact t := by
  cases hv with
  | enter p l l' free at_ into => exact h.goto_acquire p free rfl
  | reenter p l free at_ => exact h.goto_acquire p free rfl
  | stay p l l' s' at_ mv => exact (h.goto_same p (by rw [at_]; rfl)).shared s'
  | release p l l' s' at_ mv =>
    exact (h.goto_release p (.outside l') (by rw [at_]; rfl) rfl).shared s'
  | sleep p l l' c at_ mv => exact h.goto_same p (by rw [at_]; rfl)
  | wakeup p l l' c s' at_ mv => exact (h.goto_same p (by rw [at_]; rfl)).shared s'
  | panic p l x at_ mv => exact h
  | park p l c at_ => exact h.goto_release p _ (by rw [at_]; rfl) rfl
  | doze p l c at_ => exact h.goto_same p (by rw [at_]; rfl)
  | visited p l c at_ => exact h.goto_same p (by rw [at_]; rfl)
  | visit p q l c todo at_ own =>
    have hq := h.goto_same q (holds_visited c (s.phase q))
    refine hq.goto_same p ?_
    by_cases hpq : p = q
    · subst hpq
      simp [at_, Phase.visited, Phase.holds]
    · rw [goto_phase_ne _ _ hpq, at_]
      rfl
  | rouse p l c at_ => exact h.goto_same p (by rw [at_]; rfl)
  | run p k l l' s' at_ step => exact (h.goto_same p (by rw [at_]; rfl)).shared s'

def Phase.control : Phase P C L → L
  | .outside l | .inside l | .parking _ l | .parked _ l | .asleep _ l | .roused l
  | .waking _ _ l => l

def State.control (s : State P C L S E) (p : P) : L := (s.phase p).control

omit [DecidableEq C] [DecidableEq P] in
theorem control_eq {p : P} {ph : Phase P C L} (h : s.phase p = ph) : s.control p = ph.control := by
  rw [State.control, h]

omit [DecidableEq C] in
theorem goto_control (s : State P C L S E) (p : P) (ph : Phase P C L) :
    (s.goto p ph).control = update s.control p ph.control := by
  funext q
  by_cases hq : q = p
  · subst hq
    simp [State.control]
  · simp [State.control, goto_phase_ne s ph hq, hq]

omit [DecidableEq C] in
theorem goto_control_same (s : State P C L S E) (p : P) {ph : Phase P C L}
    (h : ph.control = s.control p) : (s.goto p ph).control = s.control := by
  rw [goto_control, h, update_eq_self]

theorem goto_visited_control (s : State P C L S E) (q : P) (c : C) :
    (s.goto q ((s.phase q).visited c)).control = s.control := by
  apply goto_control_same
  unfold State.control
  cases s.phase q <;> simp only [Phase.visited]
  split <;> rfl

/-- What a step does to the shared state and the control states: nothing, the entry of a
process, a move of the lock's holder, a step outside the lock, or a panic. -/
inductive Effect (M : Monitor P C L S E K) (s t : State P C L S E) : Event P K → Prop where
  | none (e : Event P K) (move : ∀ p, e ≠ .move p) (run : ∀ p k, e ≠ .run p k)
      (shared : t.shared = s.shared) (control : t.control = s.control)
      (panicked : t.panicked = s.panicked) : Effect M s t e
  | enter (p : P) (l l' : L) (at_ : s.phase p = .outside l) (into : M.enter l = some l')
      (shared : t.shared = s.shared) (control : t.control = update s.control p l')
      (panicked : t.panicked = s.panicked) : Effect M s t (.acquire p)
  | move (p : P) (l l' : L) (s' : S) (at_ : s.phase p = .inside l)
      (mv : M.move p l s.shared = .stay l' s' ∨ M.move p l s.shared = .release l' s' ∨
        ∃ c, M.move p l s.shared = .wakeup c l' s')
      (shared : t.shared = s') (control : t.control = update s.control p l')
      (panicked : t.panicked = s.panicked) : Effect M s t (.move p)
  | sleep (p : P) (l l' : L) (c : C) (at_ : s.phase p = .inside l)
      (mv : M.move p l s.shared = .sleep c l') (shared : t.shared = s.shared)
      (control : t.control = update s.control p l') (panicked : t.panicked = s.panicked) :
      Effect M s t (.move p)
  | run (p : P) (k : K) (l l' : L) (s' : S) (at_ : s.phase p = .outside l)
      (step : M.run p k l s.shared = some (l', s')) (shared : t.shared = s')
      (control : t.control = update s.control p l') (panicked : t.panicked = s.panicked) :
      Effect M s t (.run p k)
  | panic (p : P) (l : L) (x : E) (at_ : s.phase p = .inside l)
      (mv : M.move p l s.shared = .panic x) (shared : t.shared = s.shared)
      (control : t.control = s.control) (panicked : t.panicked = some x) : Effect M s t (.move p)

theorem StepView.effect (hv : StepView M s e t) : Effect M s t e := by
  have hsame {p : P} {ph ph' : Phase P C L} (hp : s.phase p = ph)
      (hctl : ph'.control = ph.control) : (s.goto p ph').control = s.control :=
    goto_control_same s p (hctl.trans (control_eq hp).symm)
  cases hv with
  | enter p l l' free at_ into => exact .enter p l l' at_ into rfl (goto_control s p _) rfl
  | reenter p l free at_ => exact .none _ nofun nofun rfl (hsame at_ rfl) rfl
  | stay p l l' s' at_ mv => exact .move p l l' s' at_ (.inl mv) rfl (goto_control s p _) rfl
  | release p l l' s' at_ mv =>
    exact .move p l l' s' at_ (.inr (.inl mv)) rfl (goto_control s p (.outside l')) rfl
  | sleep p l l' c at_ mv => exact .sleep p l l' c at_ mv rfl (goto_control s p _) rfl
  | wakeup p l l' c s' at_ mv =>
    exact .move p l l' s' at_ (.inr (.inr ⟨c, mv⟩)) rfl (goto_control s p _) rfl
  | panic p l x at_ mv => exact .panic p l x at_ mv rfl rfl rfl
  | park p l c at_ =>
    have hctl : (s.goto p (.parked c l)).control = s.control := hsame at_ rfl
    exact .none _ nofun nofun rfl hctl rfl
  | doze p l c at_ => exact .none _ nofun nofun rfl (hsame at_ rfl) rfl
  | visited p l c at_ => exact .none _ nofun nofun rfl (hsame at_ rfl) rfl
  | visit p q l c todo at_ own =>
    refine .none _ nofun nofun rfl ?_ rfl
    have hq := goto_visited_control s q c
    rw [goto_control_same _ p (by rw [hq]; exact (control_eq at_).symm), hq]
  | rouse p l c at_ => exact .none _ nofun nofun rfl (hsame at_ rfl) rfl
  | run p k l l' s' at_ step =>
    exact .run p k l l' s' at_ step rfl (goto_control s p (.outside l')) rfl

/-- Control states that a process has only while it holds the lock: the program leaves them
before it gives the lock up, and code outside the lock does not lead to them. -/
structure Inner (M : Monitor P C L S E K) (inner : L → Bool) : Prop where
  release : ∀ p l sh l' sh', M.move p l sh = .release l' sh' → inner l' = false
  sleep : ∀ p l sh c l', M.move p l sh = .sleep c l' → inner l' = false
  run : ∀ p k l sh l' sh', M.run p k l sh = some (l', sh') → inner l' = false

/-- The phases of a process that goes on with its program under the lock. -/
def Phase.works : Phase P C L → Bool
  | .inside _ | .waking .. => true
  | _ => false

/-- Inner control states occur only where the program goes on under the lock. -/
def InnerWorks (inner : L → Bool) (s : State P C L S E) : Prop :=
  ∀ p, inner (s.control p) = true → (s.phase p).works = true

omit [DecidableEq C] in
theorem InnerWorks.goto {inner : L → Bool} (h : InnerWorks inner s) (p : P) (ph : Phase P C L)
    (hph : inner ph.control = true → ph.works = true) : InnerWorks inner (s.goto p ph) := by
  intro q hq
  rw [goto_control] at hq
  by_cases hqp : q = p
  · subst hqp
    rw [update_self] at hq
    rw [goto_phase_self]
    exact hph hq
  · rw [update_of_ne hqp] at hq
    rw [goto_phase_ne s ph hqp]
    exact h q hq

theorem InnerWorks.step {inner : L → Bool} (hM : Inner M inner) (h : InnerWorks inner s)
    (hv : StepView M s e t) : InnerWorks inner t := by
  have hidle {p : P} {ph : Phase P C L} (hp : s.phase p = ph) (hw : ph.works = false) :
      inner ph.control = false := by
    by_contra hi
    have hworks := h p (by rw [control_eq hp]; simpa using hi)
    rw [hp, hw] at hworks
    cases hworks
  have hout {l : L} {ph : Phase P C L} (hl : inner l = false) (hph : ph.control = l) :
      inner ph.control = true → ph.works = true := fun hi => by simp [hph, hl] at hi
  cases hv with
  | enter p l l' free at_ into => exact h.goto p (.inside l') fun _ => rfl
  | reenter p l free at_ => exact h.goto p (.inside l) fun _ => rfl
  | stay p l l' s' at_ mv => exact h.goto p (.inside l') fun _ => rfl
  | release p l l' s' at_ mv =>
    exact h.goto p (.outside l') (hout (hM.release p l _ l' s' mv) rfl)
  | sleep p l l' c at_ mv => exact h.goto p (.parking c l') (hout (hM.sleep p l _ c l' mv) rfl)
  | wakeup p l l' c s' at_ mv =>
    exact h.goto p (.waking c (M.procs.filter (fun q => q ≠ p)) l') fun _ => rfl
  | panic p l x at_ mv => exact h
  | park p l c at_ => exact h.goto p (.parked c l) (hout (hidle at_ rfl) rfl)
  | doze p l c at_ => exact h.goto p (.asleep c l) (hout (hidle at_ rfl) rfl)
  | visited p l c at_ => exact h.goto p (.inside l) fun _ => rfl
  | visit p q l c todo at_ own =>
    refine InnerWorks.goto (h.goto q _ fun hi => ?_) p (.waking c todo l) fun _ => rfl
    cases hq : s.phase q with
    | inside l => rfl
    | waking d todo l => rfl
    | asleep d l =>
      have hl := hidle hq rfl
      rw [hq, Phase.visited] at hi
      split at hi <;> simp_all [Phase.control]
    | _ =>
      have hl := hidle hq rfl
      simp_all [Phase.visited, Phase.control]
  | rouse p l c at_ => exact h.goto p (.roused l) (hout (hidle at_ rfl) rfl)
  | run p k l l' s' at_ step =>
    exact h.goto p (.outside l') (hout (hM.run p k l _ l' s' step) rfl)

omit [DecidableEq C] [DecidableEq P] in
theorem InnerWorks.unique {inner : L → Bool} (h : InnerWorks inner s) (hlock : LockExact s)
    {p : P} (hp : (s.phase p).holds = true) {q : P} (hq : q ≠ p) :
    inner (s.control q) = false := by
  by_contra hi
  have hworks := h q (by simpa using hi)
  have hholds : (s.phase q).holds = true := by
    cases hph : s.phase q <;> rw [hph] at hworks <;> first | rfl | cases hworks
  have heq := (hlock p).mpr hp
  rw [(hlock q).mpr hholds] at heq
  exact hq (Option.some.inj heq)

/-- The obligations of a monitor program, in states satisfying an invariant `I`: sleep
only while blocked, and unblock a channel only together with a wakeup of it. -/
structure WakesUp (M : Monitor P C L S E K) (I : State P C L S E → Prop)
    (Blocked : C → S → Prop) : Prop where
  all : ∀ p, p ∈ M.procs
  sleep : ∀ s p l c l', I s → s.phase p = .inside l → M.move p l s.shared = .sleep c l' →
    Blocked c s.shared
  stay : ∀ s p l l' s', I s → s.phase p = .inside l → M.move p l s.shared = .stay l' s' →
    ∀ c, Blocked c s.shared → Blocked c s'
  release : ∀ s p l l' s', I s → s.phase p = .inside l → M.move p l s.shared = .release l' s' →
    ∀ c, Blocked c s.shared → Blocked c s'
  wakeup : ∀ s p l c l' s', I s → s.phase p = .inside l →
    M.move p l s.shared = .wakeup c l' s' → ∀ c', c' ≠ c → Blocked c' s.shared → Blocked c' s'
  run : ∀ s p k l l' s', I s → s.phase p = .outside l → M.run p k l s.shared = some (l', s') →
    ∀ c, Blocked c s.shared → Blocked c s'

variable {I : State P C L S E → Prop} {Blocked : C → S → Prop}

omit [DecidableEq P] in
theorem visited_waitsOn {c d : C} {ph : Phase P C L} (hown : ph.ownLockHeld = false)
    (h : (ph.visited c).waitsOn = some d) : ph.waitsOn = some d ∧ d ≠ c := by
  cases ph with
  | parking c' l => simp [Phase.ownLockHeld] at hown
  | parked c' l => simp [Phase.ownLockHeld] at hown
  | asleep c' l =>
    simp only [Phase.visited] at h
    split at h
    · simp [Phase.waitsOn] at h
    · rename_i hc
      simp only [Phase.waitsOn, Option.some.injEq] at h
      exact ⟨by simp [Phase.waitsOn, h], h ▸ hc⟩
  | _ => simp [Phase.visited, Phase.waitsOn] at h

omit [DecidableEq P] in
theorem visited_waking {c d : C} {ph : Phase P C L} {todo : List P} {l : L} :
    ph.visited c = .waking d todo l ↔ ph = .waking d todo l := by
  cases ph <;> simp [Phase.visited]
  split <;> simp

theorem NoLostWakeup.visit (h : NoLostWakeup Blocked s) {p x : P} {l : L} {c : C}
    {todo : List P} (at_ : s.phase p = .waking c (x :: todo) l)
    (own : (s.phase x).ownLockHeld = false) :
    NoLostWakeup Blocked ((s.goto x ((s.phase x).visited c)).goto p (.waking c todo l)) := by
  intro q d hq
  have hqp : q ≠ p := by
    rintro rfl
    simp [Phase.waitsOn] at hq
  rw [goto_phase_ne _ _ hqp] at hq
  have hold : (s.phase q).waitsOn = some d ∧ (q = x → d ≠ c) := by
    by_cases hqx : q = x
    · subst hqx
      rw [goto_phase_self] at hq
      obtain ⟨hw, hne⟩ := visited_waitsOn own hq
      exact ⟨hw, fun _ => hne⟩
    · rw [goto_phase_ne _ _ hqx] at hq
      exact ⟨hq, fun e => absurd e hqx⟩
  rcases h q d hold.1 with hblk | ⟨r, todo', m, hr, hmem⟩
  · exact .inl hblk
  by_cases hrp : r = p
  · subst hrp
    rw [at_] at hr
    cases hr
    have hqx : q ≠ x := fun e => hold.2 e rfl
    have hmem : q ∈ todo := by simpa [hqx] using hmem
    exact .inr ⟨r, todo, l, goto_phase_self _ _ _, hmem⟩
  · refine .inr ⟨r, todo', m, ?_, hmem⟩
    rw [goto_phase_ne _ _ hrp]
    by_cases hrx : r = x
    · subst hrx
      rw [goto_phase_self]
      exact visited_waking.mpr hr
    · rw [goto_phase_ne _ _ hrx, hr]

/-- No step of a monitor that keeps its obligations loses a wakeup. -/
theorem NoLostWakeup.step (hw : WakesUp M I Blocked) (hI : I s) (h : NoLostWakeup Blocked s)
    (hv : StepView M s e t) : NoLostWakeup Blocked t := by
  have hquiet {p : P} {ph : Phase P C L} (hp : s.phase p = ph) (ph' : Phase P C L)
      (hno : ∀ c todo l, ph = .waking c todo l → todo = [])
      (hwaits : ∀ c, ph'.waitsOn = some c → ph.waitsOn = some c) {s' : S}
      (hb : ∀ c, Blocked c s.shared → Blocked c s') :
      NoLostWakeup Blocked { s.goto p ph' with shared := s' } :=
    h.goto p ph' s' (by rwa [hp]) (fun c hc => .inl (by rw [hp]; exact hwaits c hc))
      fun c hc => .inl (hb c hc)
  cases hv with
  | enter p l l' free at_ into => exact hquiet at_ (.inside l') nofun nofun fun _ => id
  | reenter p l free at_ => exact hquiet at_ (.inside l) nofun nofun fun _ => id
  | stay p l l' s' at_ mv =>
    exact hquiet at_ (.inside l') nofun nofun (hw.stay s p l l' s' hI at_ mv)
  | release p l l' s' at_ mv =>
    exact hquiet at_ (.outside l') nofun nofun (hw.release s p l l' s' hI at_ mv)
  | sleep p l l' c at_ mv =>
    refine h.goto p _ s.shared (by simp [at_]) ?_ fun _ => .inl
    rintro d ⟨⟩
    exact .inr (hw.sleep s p l c l' hI at_ mv)
  | wakeup p l l' c s' at_ mv =>
    refine h.goto p _ s' (by simp [at_]) (by simp [Phase.waitsOn]) fun d hd => ?_
    by_cases hdc : d = c
    · subst hdc
      exact .inr ⟨_, l', rfl, fun q hq => by simp [hw.all q, hq]⟩
    · exact .inl (hw.wakeup s p l c l' s' hI at_ mv d hdc hd)
  | panic p l x at_ mv => exact h
  | park p l c at_ => exact hquiet at_ (.parked c l) nofun (fun _ => id) fun _ => id
  | doze p l c at_ => exact hquiet at_ (.asleep c l) nofun (fun _ => id) fun _ => id
  | visited p l c at_ => exact hquiet at_ (.inside l) (by simp) nofun fun _ => id
  | visit p x l c todo at_ own => exact h.visit at_ own
  | rouse p l c at_ => exact hquiet at_ (.roused l) nofun nofun fun _ => id
  | run p k l l' s' at_ step =>
    exact hquiet at_ (.outside l') nofun nofun (hw.run s p k l l' s' hI at_ step)

omit [DecidableEq C] [DecidableEq P] in
theorem NoLostWakeup.blocked (h : NoLostWakeup Blocked s) (hlock : LockExact s)
    (hfree : s.lock = none) {p : P} {c : C} (hp : (s.phase p).waitsOn = some c) :
    Blocked c s.shared := by
  rcases h p c hp with hblk | ⟨q, todo, l, hq, -⟩
  · exact hblk
  · have := (hlock q).mpr (by rw [hq]; rfl)
    rw [hfree] at this
    cases this

-- runs of two processes name them by numerals
instance neZero_two : NeZero 2 := ⟨Nat.succ_ne_zero 1⟩

end Xv6.SleepWakeupMonitors
