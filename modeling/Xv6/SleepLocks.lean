import Xv6.SleepWakeupMonitors
import Mathlib.Data.List.FinRange

/-!
# Sleep-locks

`acquiresleep`, `releasesleep` and `holdingsleep` of `sleeplock.c` as a monitor guarded by
`lk->lk`. Who has the lock is who is between a completed `acquiresleep` and the
`releasesleep` that ends it; the fields of the lock say so whenever somebody looks at them.
-/

namespace Xv6.SleepLocks
open TransitionSystems SleepWakeupMonitors Function

structure Shared where
  locked : Bool
  pid : ℕ

inductive Chan where
  | lk
  deriving DecidableEq, Repr

inductive Point where
  | idle
  /-- the head of the loop of `acquiresleep` -/
  | acquire
  /-- in front of the `release` of `acquiresleep` -/
  | taken
  | release
  /-- in front of the `release` of `releasesleep` -/
  | released
  | holding
  /-- in front of the `release` of `holdingsleep` -/
  | held (r : Bool)
  /-- `holdingsleep` has returned `r` -/
  | answered (r : Bool)
  deriving DecidableEq

/-- A process's place, and whether it is between a completed `acquiresleep` and the
`releasesleep` that ends it. -/
structure Control where
  point : Point
  between : Bool
  deriving DecidableEq

inductive Call where
  | acquire
  | release
  | holding

variable {n : ℕ}

def enter (l : Control) : Option Control :=
  match l.point with
  | .acquire | .release | .holding => some l
  | _ => none

def move (pid : Fin n → ℕ) (p : Fin n) (l : Control) (sh : Shared) :
    Move Chan Control Shared Empty :=
  match l.point with
  | .acquire =>
    if sh.locked then .sleep .lk l
    else .stay { l with point := .taken } { locked := true, pid := pid p }
  | .taken => .release ⟨.idle, true⟩ sh
  | .release => .wakeup .lk ⟨.released, false⟩ { locked := false, pid := 0 }
  | .released => .release { l with point := .idle } sh
  | .holding => .stay { l with point := .held (sh.locked && sh.pid == pid p) } sh
  | .held r => .release { l with point := .answered r } sh
  | _ => .stay l sh

def run : Call → Control → Shared → Option (Control × Shared)
  | k, l, sh =>
    match l.point with
    | .idle | .answered _ =>
      match k with
      | .acquire => some ({ l with point := .acquire }, sh)
      | .release => if l.between then some ({ l with point := .release }, sh) else none
      | .holding => some ({ l with point := .holding }, sh)
    | _ => none

/-- A sleep-lock used by `n` processes with the given numbers. -/
def monitor (pid : Fin n → ℕ) : Monitor (Fin n) Chan Control Shared Empty Call where
  procs := List.finRange n
  enter := enter
  move := move pid
  run _ := run

abbrev LockUsers (n : ℕ) := State (Fin n) Chan Control Shared Empty

structure Initial (s : LockUsers n) : Prop where
  locked : s.shared.locked = false
  lock : s.lock = none
  phase : ∀ p, s.phase p = .outside ⟨.idle, false⟩
  panicked : s.panicked = none

/-- The lock is taken, though `acquiresleep` may not have returned yet. -/
def Control.Owns (l : Control) : Prop := l.between = true ∨ l.point = .taken

/-- The fields of the lock name the one process that has it, and `holdingsleep` tells the
caller whether that is itself. -/
structure Exclusive (pid : Fin n → ℕ) (sh : Shared) (ctl : Fin n → Control) : Prop where
  unique : ∀ p q, (ctl p).Owns → (ctl q).Owns → p = q
  locked : sh.locked = true ↔ ∃ p, (ctl p).Owns
  pid_eq : ∀ p, (ctl p).Owns → sh.pid = pid p
  release : ∀ p, (ctl p).point = .release → (ctl p).between = true
  answer : ∀ p r, (ctl p).point = .held r ∨ (ctl p).point = .answered r → r = (ctl p).between

variable {pid : Fin n → ℕ} {sh sh' : Shared} {ctl : Fin n → Control} {p : Fin n}

theorem Exclusive.goto (h : Exclusive pid sh ctl) (p : Fin n) {l : Control}
    (howns : l.Owns ↔ (ctl p).Owns) (hrel : l.point = .release → l.between = true)
    (hans : ∀ r, l.point = .held r ∨ l.point = .answered r → r = l.between) :
    Exclusive pid sh (update ctl p l) := by
  have hall (q : Fin n) : (update ctl p l q).Owns ↔ (ctl q).Owns := by
    by_cases hq : q = p
    · subst hq
      rw [update_self, howns]
    · rw [update_of_ne hq]
  refine ⟨fun q r hq hr => h.unique q r ((hall q).mp hq) ((hall r).mp hr), ?_,
    fun q hq => h.pid_eq q ((hall q).mp hq), ?_, ?_⟩
  · simp only [hall]
    exact h.locked
  · intro q
    by_cases hq : q = p
    · subst hq
      rwa [update_self]
    · rw [update_of_ne hq]
      exact h.release q
  · intro q
    by_cases hq : q = p
    · subst hq
      rwa [update_self]
    · rw [update_of_ne hq]
      exact h.answer q

theorem Exclusive.holding (hpid : Function.Injective pid) (h : Exclusive pid sh ctl)
    (hp : (ctl p).point ≠ .taken) : (sh.locked && sh.pid == pid p) = (ctl p).between := by
  rw [Bool.eq_iff_iff, Bool.and_eq_true, beq_iff_eq, h.locked]
  constructor
  · rintro ⟨⟨q, hq⟩, heq⟩
    obtain rfl : q = p := hpid ((h.pid_eq q hq).symm.trans heq)
    exact hq.resolve_right hp
  · intro hb
    exact ⟨⟨p, .inl hb⟩, h.pid_eq p (.inl hb)⟩

theorem Exclusive.take (h : Exclusive pid sh ctl) (hfree : sh.locked = false) (p : Fin n) :
    Exclusive pid { locked := true, pid := pid p }
      (update ctl p { ctl p with point := .taken }) := by
  have hnone (q : Fin n) : ¬(ctl q).Owns := by
    intro hq
    have hlocked := h.locked.mpr ⟨q, hq⟩
    rw [hfree] at hlocked
    exact Bool.false_ne_true hlocked
  have honly (q : Fin n)
      (hq : (update ctl p { ctl p with point := .taken } q).Owns) : q = p := by
    by_contra hne
    rw [update_of_ne hne] at hq
    exact hnone q hq
  refine ⟨fun q r hq hr => (honly q hq).trans (honly r hr).symm, ?_, ?_, ?_, ?_⟩
  · refine iff_of_true rfl ⟨p, ?_⟩
    rw [update_self]
    exact .inr rfl
  · intro q hq
    rw [honly q hq]
  · intro q
    by_cases hq : q = p
    · subst hq
      simp
    · rw [update_of_ne hq]
      exact h.release q
  · intro q
    by_cases hq : q = p
    · subst hq
      simp
    · rw [update_of_ne hq]
      exact h.answer q

theorem Exclusive.drop (h : Exclusive pid sh ctl) (hp : (ctl p).point = .release) :
    Exclusive pid { locked := false, pid := 0 } (update ctl p ⟨.released, false⟩) := by
  have hnone (q : Fin n) : ¬(update ctl p ⟨.released, false⟩ q).Owns := by
    intro hq
    by_cases hqp : q = p
    · subst hqp
      simp [Control.Owns] at hq
    · rw [update_of_ne hqp] at hq
      exact hqp (h.unique q p hq (.inl (h.release p hp)))
  refine ⟨fun q _ hq => absurd hq (hnone q), ?_, fun q hq => absurd hq (hnone q), ?_, ?_⟩
  · simp only [Bool.false_eq_true, false_iff, not_exists]
    exact hnone
  · intro q
    by_cases hq : q = p
    · subst hq
      simp
    · rw [update_of_ne hq]
      exact h.release q
  · intro q
    by_cases hq : q = p
    · subst hq
      simp
    · rw [update_of_ne hq]
      exact h.answer q

structure Sound (pid : Fin n → ℕ) (s : LockUsers n) : Prop where
  exclusive : Exclusive pid s.shared s.control
  lockExact : LockExact s
  noLost : NoLostWakeup (fun _ (sh : Shared) => sh.locked = true) s

variable {s t : LockUsers n}

theorem wakesUp (pid : Fin n → ℕ) :
    WakesUp (monitor pid) (fun _ => True) fun _ (sh : Shared) => sh.locked = true where
  all p := List.mem_finRange p
  sleep s p l c l' _ _ mv := by
    simp only [monitor, move] at mv
    repeat' split at mv
    all_goals cases mv
    assumption
  stay s p l l' s' _ _ mv c hb := by
    simp only [monitor, move] at mv
    repeat' split at mv
    all_goals cases mv
    all_goals exact hb
  release s p l l' s' _ _ mv c hb := by
    simp only [monitor, move] at mv
    repeat' split at mv
    all_goals cases mv
    all_goals exact hb
  wakeup s p l c l' s' _ _ mv c' hne := by
    cases c
    cases c'
    exact absurd rfl hne
  run s p k l l' s' _ _ step c hb := by
    simp only [monitor, run] at step
    repeat' split at step
    all_goals cases step
    all_goals exact hb

theorem Exclusive.step (hpid : Function.Injective pid) (h : Exclusive pid s.shared s.control)
    (he : Effect (monitor pid) s t e) : Exclusive pid t.shared t.control := by
  cases he with
  | none e move run shared control => rwa [shared, control]
  | enter p l l' at_ into shared control =>
    have hl : s.control p = l := control_eq at_
    obtain rfl : l = l' := by
      simp only [monitor, enter] at into
      split at into <;> cases into
      all_goals rfl
    rwa [shared, control, ← hl, update_eq_self]
  | move p l l' s' at_ mv shared control =>
    have hl : s.control p = l := control_eq at_
    subst hl
    rw [shared, control]
    obtain mv | mv | ⟨c, mv⟩ := mv <;> simp only [monitor, move] at mv
    · split at mv
      · split at mv <;> cases mv
        exact h.take (eq_false_of_ne_true ‹_›) p
      · cases mv
      · cases mv
      · cases mv
      · rename_i hp
        cases mv
        refine h.goto p ?_ (by simp) ?_
        · simp [Control.Owns, hp]
        · rintro r (hr | hr) <;> cases hr
          exact h.holding hpid (by simp [hp])
      · cases mv
      · cases mv
        rwa [update_eq_self]
    · split at mv <;> try cases mv
      · split at mv <;> cases mv
      · rename_i hp
        exact h.goto p (by simp [Control.Owns, hp]) (by simp) (by simp)
      · rename_i hp
        exact h.goto p (by simp [Control.Owns, hp]) (by simp) (by simp)
      · rename_i r hp
        refine h.goto p (by simp [Control.Owns, hp]) (by simp) ?_
        rintro r' (hr | hr) <;> cases hr
        exact h.answer p r (.inl hp)
    · split at mv <;> try cases mv
      · split at mv <;> cases mv
      · exact h.drop ‹_›
  | sleep p l l' c at_ mv shared control =>
    have hl : s.control p = l := control_eq at_
    obtain rfl : l = l' := by
      simp only [monitor, move] at mv
      repeat' split at mv
      all_goals cases mv
      rfl
    rwa [shared, control, ← hl, update_eq_self]
  | run p k l l' s' at_ step shared control =>
    have hl : s.control p = l := control_eq at_
    subst hl
    rw [shared, control]
    simp only [monitor, run] at step
    have hpoint : (s.control p).point ≠ .taken := by
      intro hp
      simp [hp] at step
    repeat' split at step
    all_goals cases step
    all_goals refine h.goto p (by simp [Control.Owns, hpoint]) ?_ (by simp)
    all_goals intro hr
    all_goals first | cases hr; done | assumption
  | panic p l x => cases x

theorem Sound.step (hpid : Function.Injective pid) (h : Sound pid s)
    (hv : StepView (monitor pid) s e t) :
    Sound pid t :=
  ⟨h.exclusive.step hpid hv.effect, h.lockExact.step hv, h.noLost.step (wakesUp pid) trivial hv⟩

theorem Initial.sound (h : Initial s) : Sound pid s := by
  have hctl (p : Fin n) : s.control p = ⟨.idle, false⟩ := by
    rw [State.control, h.phase]
    rfl
  refine ⟨⟨?_, ?_, ?_, ?_, ?_⟩, ?_, ?_⟩
  · simp [hctl, Control.Owns]
  · simp [hctl, Control.Owns, h.locked]
  · simp [hctl, Control.Owns]
  · simp [hctl]
  · simp [hctl]
  · intro p
    simp [h.lock, h.phase, Phase.holds]
  · intro p c hp
    simp [h.phase, Phase.waitsOn] at hp

/-- The process is `SLEEPING`, or has `p->lock` and is about to be. -/
def asleep (s : LockUsers n) (p : Fin n) : Bool :=
  match s.phase p with
  | .parked .. | .asleep .. => true
  | _ => false

/-- For every interleaving of the calls, wakeups and spurious wakeups: at most one process
has the lock, `holdingsleep` is true for exactly that process, and nobody sleeps on a free
lock. -/
theorem sleeplock_excludes (pid : Fin n → ℕ) (hpid : Function.Injective pid) (s : LockUsers n)
    (h : Reachable Initial (monitor pid).Step s) :
    (∀ p q, (s.control p).between = true → (s.control q).between = true → p = q) ∧
      (∀ p r, (s.control p).point = .held r ∨ (s.control p).point = .answered r →
        r = (s.control p).between) ∧
      (s.lock = none → s.shared.locked = false → ∀ p, asleep s p = false) := by
  have hsound : Sound pid s :=
    h.invariant (fun s hs => hs.sound) fun s e t hs hst => hs.step hpid hst.view.2
  refine ⟨fun p q hp hq => hsound.exclusive.unique p q (.inl hp) (.inl hq),
    hsound.exclusive.answer, ?_⟩
  intro hfree hunlocked p
  by_contra hasleep
  rw [Bool.not_eq_false] at hasleep
  have hwaits : (s.phase p).waitsOn = some .lk := by
    unfold asleep at hasleep
    split at hasleep
    · rename_i c l hp
      cases c
      rw [hp]
      rfl
    · rename_i c l hp
      cases c
      rw [hp]
      rfl
    · cases hasleep
  have hlocked := hsound.noLost.blocked hsound.lockExact hfree hwaits
  rw [hunlocked] at hlocked
  exact Bool.false_ne_true hlocked

def freeLock : LockUsers 2 := ⟨⟨false, 0⟩, none, fun _ => .outside ⟨.idle, false⟩, none⟩

theorem initial_freeLock : Initial freeLock := ⟨rfl, rfl, fun _ => rfl, rfl⟩

/-- The first process takes the lock, the second one goes to sleep on it, and the first one
asks whether it has the lock. -/
def contend : List (Event (Fin 2) Call) :=
  [.run 0 .acquire, .acquire 0, .move 0, .move 0, .run 1 .acquire, .acquire 1, .move 1, .park 1,
    .doze 1, .run 0 .holding, .acquire 0, .move 0, .move 0]

theorem sleeplock_excludes_contend :
    ∃ s, Reachable Initial (monitor fun p : Fin 2 => p.val + 1).Step s ∧ asleep s 1 = true ∧
      (s.control 0).point = .answered true ∧ (s.control 0).between = true := by
  have hrun : (exec (monitor fun p : Fin 2 => p.val + 1).next freeLock contend).any (fun s =>
      asleep s 1 = true ∧ (s.control 0).point = .answered true) = true := by decide +kernel
  obtain ⟨s, hs, hasleep, hpoint⟩ := exists_of_any hrun
  have hreach : Reachable Initial (monitor fun p : Fin 2 => p.val + 1).Step s :=
    ⟨_, _, initial_freeLock, run_of_exec hs⟩
  have hinj : Function.Injective fun p : Fin 2 => p.val + 1 := fun p q h =>
    Fin.ext (Nat.succ.inj h)
  exact ⟨s, hreach, hasleep, hpoint,
    ((sleeplock_excludes _ hinj s hreach).2.1 0 true (.inr hpoint)).symm⟩

end Xv6.SleepLocks
