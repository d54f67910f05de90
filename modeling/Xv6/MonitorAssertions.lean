import Xv6.KillableMonitors

/-!
# Monitor invariants and assertions of the lock's holder

A monitor invariant `J` holds whenever the lock is free. Whoever takes the lock may rely on
it and must restore it before the lock is given up. In between, an assertion `A` is attached
to each control point of the holder. Runs may be restricted to moves that meet a condition `G`.
-/

namespace Xv6.MonitorAssertions
open TransitionSystems SleepWakeupMonitors KillableMonitors Function

variable {P C L S E K : Type*}

/-- What a move from the shared state `sh` owes: the next control point's assertion, or the
invariant where the lock is given up. A sleeper gets nothing but the invariant back. -/
def MoveOk (J : S → Prop) (A : L → S → Prop) (sh : S) : Move C L S E → Prop
  | .stay l sh' | .wakeup _ l sh' => A l sh'
  | .release _ sh' => J sh'
  | .sleep _ l => J sh ∧ ∀ sh', J sh' → A l sh'
  | .panic _ => True

structure Annotation (M : Monitor P C L S E K) (F : Flags P S) (G A : P → L → S → Prop)
    (J : S → Prop) : Prop where
  enter : ∀ p l l' sh, M.enter l = some l' → J sh → A p l' sh
  move : ∀ p l sh, G p l sh → A p l sh → MoveOk J (A p) sh (M.move p l sh)
  run : ∀ p k l sh l' sh', M.run p k l sh = some (l', sh') →
    (J sh → J sh') ∧ ∀ q l, A q l sh → A q l sh'
  kill : ∀ q sh, (J sh → J (F.kill q sh)) ∧ ∀ p l, A p l sh → A p l (F.kill q sh)

def Guarded (G : P → L → S → Prop) (s : State P C L S E) (e : KEvent P K) : Prop :=
  ∀ p l, e = .step (.move p) → s.phase p = .inside l → G p l s.shared

def Promise (J : S → Prop) (A : P → L → S → Prop) (p : P) (sh : S) : Phase P C L → Prop
  | .outside _ => True
  | .inside l | .waking _ _ l => A p l sh
  | .parking _ l => J sh ∧ ∀ sh', J sh' → A p l sh'
  | .parked _ l | .asleep _ l | .roused l => ∀ sh', J sh' → A p l sh'

structure Annotated (J : S → Prop) (A : P → L → S → Prop) (s : State P C L S E) : Prop where
  lock : LockExact s
  free : s.lock = none → J s.shared
  promise : ∀ p, Promise J A p s.shared (s.phase p)

variable {M : Monitor P C L S E K} {F : Flags P S} {G A : P → L → S → Prop} {J : S → Prop}
  {s t : State P C L S E} {e : KEvent P K}

theorem Promise.congr {p : P} {sh sh' : S} {ph : Phase P C L} (hph : ph.holds = false)
    (h : Promise J A p sh ph) : Promise J A p sh' ph := by
  cases ph <;> first | exact h | cases hph

theorem Promise.mono {p : P} {sh sh' : S} {ph : Phase P C L} (hJ : J sh → J sh')
    (hA : ∀ l, A p l sh → A p l sh') (h : Promise J A p sh ph) : Promise J A p sh' ph := by
  cases ph with
  | inside l => exact hA l h
  | waking c todo l => exact hA l h
  | parking c l => exact ⟨hJ h.1, h.2⟩
  | _ => exact h

variable [DecidableEq P]

theorem Annotated.holder (h : Annotated J A s) {p : P} (hp : (s.phase p).holds = true)
    (ph : Phase P C L) {sh : S} {t : State P C L S E}
    (hphase : t.phase = (s.goto p ph).phase) (hshared : t.shared = sh) (hlock : LockExact t)
    (hfree : ph.holds = false → J sh) (hprom : Promise J A p sh ph) : Annotated J A t := by
  subst hshared
  have hself : t.phase p = ph := by rw [hphase, goto_phase_self]
  refine ⟨hlock, fun hnone => hfree ?_, fun q => ?_⟩
  · by_contra hne
    have hholds := (hlock p).mpr (by rw [hself]; simpa using hne)
    rw [hnone] at hholds
    cases hholds
  · by_cases hqp : q = p
    · subst hqp
      rwa [hself]
    · rw [hphase, goto_phase_ne s ph hqp]
      refine Promise.congr ?_ (h.promise q)
      by_contra hne
      have hq := (h.lock q).mpr (by simpa using hne)
      rw [(h.lock p).mpr hp] at hq
      exact hqp (Option.some.inj hq).symm

theorem Annotated.other (h : Annotated J A s) (p : P) (ph : Phase P C L) {sh : S}
    {t : State P C L S E} (hphase : t.phase = (s.goto p ph).phase) (hshared : t.shared = sh)
    (hlock : LockExact t) (hkeep : s.lock = t.lock) (hJ : J s.shared → J sh)
    (hA : ∀ q l, A q l s.shared → A q l sh) (hprom : Promise J A p sh ph) : Annotated J A t := by
  subst hshared
  refine ⟨hlock, fun hnone => hJ (h.free (hkeep.trans hnone)), fun q => ?_⟩
  by_cases hqp : q = p
  · subst hqp
    rw [hphase, goto_phase_self]
    exact hprom
  · rw [hphase, goto_phase_ne s ph hqp]
    exact (h.promise q).mono hJ (hA q)

variable [DecidableEq C]

omit [DecidableEq C] in
theorem Annotated.take (h : Annotated J A s) {p : P} {l : L} (hfree : s.lock = none)
    (hlock : LockExact { s.goto p (.inside l) with lock := some p })
    (hl : ∀ sh, J sh → A p l sh) :
    Annotated J A { s.goto p (.inside l) with lock := some p } := by
  refine ⟨hlock, nofun, fun q => ?_⟩
  by_cases hqp : q = p
  · subst hqp
    simp only [goto_phase_self]
    exact hl _ (h.free hfree)
  · simp only [goto_phase_ne s _ hqp]
    exact h.promise q

theorem Annotated.visited (h : Annotated J A s) (q : P) (c : C) :
    Annotated J A (s.goto q ((s.phase q).visited c)) := by
  refine h.other q _ rfl rfl (h.lock.goto_same q (holds_visited c _)) rfl id (fun _ _ => id) ?_
  have hprom := h.promise q
  rcases visited_eq c (s.phase q) with hsame | ⟨l', hasleep, hroused⟩
  · rwa [hsame]
  · rw [hroused]
    rwa [hasleep] at hprom

/-- One step of the monitor keeps the assertions, if its move meets the condition. -/
theorem Annotated.step (ha : Annotation M F G A J) (h : Annotated J A s) {e : Event P K}
    (hG : Guarded G s (.step e)) (hv : StepView M s e t) : Annotated J A t := by
  have hlock : LockExact t := h.lock.step hv
  have hprom {p : P} {ph : Phase P C L} (hp : s.phase p = ph) : Promise J A p s.shared ph :=
    hp ▸ h.promise p
  have hmove {p : P} {l : L} {m : Move C L S E} (hp : s.phase p = .inside l)
      (hg : G p l s.shared) (mv : M.move p l s.shared = m) : MoveOk J (A p) s.shared m :=
    mv ▸ ha.move p l s.shared hg (hprom hp)
  cases hv with
  | enter p l l' free at_ into => exact h.take free hlock fun sh => ha.enter p l l' sh into
  | reenter p l free at_ => exact h.take free hlock (hprom at_)
  | stay p l l' s' at_ mv =>
    exact h.holder (by rw [at_]; rfl) _ rfl rfl hlock (by simp [Phase.holds])
      (hmove at_ (hG p l rfl at_) mv)
  | release p l l' s' at_ mv =>
    exact h.holder (by rw [at_]; rfl) (.outside l') rfl rfl hlock
      (fun _ => hmove at_ (hG p l rfl at_) mv) trivial
  | sleep p l l' c at_ mv =>
    exact h.holder (by rw [at_]; rfl) _ rfl rfl hlock (by simp [Phase.holds])
      (hmove at_ (hG p l rfl at_) mv)
  | wakeup p l l' c s' at_ mv =>
    exact h.holder (by rw [at_]; rfl) _ rfl rfl hlock (by simp [Phase.holds])
      (hmove at_ (hG p l rfl at_) mv)
  | panic p l x at_ mv => exact ⟨h.lock, h.free, h.promise⟩
  | park p l c at_ =>
    exact h.holder (by rw [at_]; rfl) (.parked c l) rfl rfl hlock (fun _ => (hprom at_).1)
      (hprom at_).2
  | doze p l c at_ =>
    have hasleep := hprom at_
    exact h.other p (.asleep c l) rfl rfl hlock rfl id (fun _ _ => id) hasleep
  | visited p l c at_ =>
    have hinside := hprom at_
    exact h.holder (by rw [at_]; rfl) _ rfl rfl hlock (by simp [Phase.holds]) hinside
  | visit p q l c todo at_ own =>
    have hwaking := hprom at_
    refine (h.visited q c).holder (p := p) ?_ _ rfl rfl hlock (by simp [Phase.holds]) hwaking
    by_cases hpq : p = q
    · subst hpq
      rw [goto_phase_self, holds_visited, at_]
      rfl
    · rw [goto_phase_ne s _ hpq, at_]
      rfl
  | rouse p l c at_ =>
    have hroused := hprom at_
    exact h.other p (.roused l) rfl rfl hlock rfl id (fun _ _ => id) hroused
  | run p k l l' s' at_ step =>
    obtain ⟨hJ, hA⟩ := ha.run p k l s.shared l' s' step
    exact h.other p (.outside l') rfl rfl hlock rfl hJ hA trivial

omit [DecidableEq C] in
theorem Annotated.kill (ha : Annotation M F G A J) (h : Annotated J A s) (q : P) :
    Annotated J A (killed F s q) := by
  obtain ⟨hJ, hA⟩ := ha.kill q s.shared
  refine h.other q _ rfl rfl ((h.lock.goto_same q (holds_woken _)).shared _) rfl hJ hA ?_
  have hprom := h.promise q
  cases hph : s.phase q <;> rw [hph] at hprom <;> exact hprom.mono hJ (hA q)

theorem Annotated.next (ha : Annotation M F G A J) (h : Annotated J A s)
    (hn : next M F s e = some t) (hG : Guarded G s e) : Annotated J A t := by
  rcases next_cases hn with ⟨e, rfl, hv⟩ | ⟨q, -, -, rfl⟩
  · exact h.step ha hG hv
  · exact h.kill ha q

omit [DecidableEq P] [DecidableEq C] in
theorem Annotated.always (h : Annotated J A s) (hA : ∀ p l sh, A p l sh → J sh) :
    J s.shared := by
  cases hlock : s.lock with
  | none => exact h.free hlock
  | some p =>
    have hholds := (h.lock p).mp hlock
    have hprom := h.promise p
    cases hph : s.phase p <;> rw [hph] at hholds hprom <;>
      first | exact hA p _ _ hprom | exact hprom.1 | cases hholds

/-- What a move owes to the sleepers: it sleeps only while blocked, and unblocks a channel
only together with a wakeup of it. -/
def MoveWakes (Blocked : C → S → Prop) (sh : S) : Move C L S E → Prop
  | .stay _ sh' | .release _ sh' => ∀ c, Blocked c sh → Blocked c sh'
  | .sleep c _ => Blocked c sh
  | .wakeup c _ sh' => ∀ c', c' ≠ c → Blocked c' sh → Blocked c' sh'
  | .panic _ => True

omit [DecidableEq P] [DecidableEq C] in
theorem wakesUp_of_moves {I : State P C L S E → Prop} {Blocked : C → S → Prop}
    (hall : ∀ p, p ∈ M.procs)
    (hmove : ∀ s p l, I s → s.phase p = .inside l →
      MoveWakes Blocked s.shared (M.move p l s.shared))
    (hrun : ∀ p k l sh l' sh', M.run p k l sh = some (l', sh') →
      ∀ c, Blocked c sh → Blocked c sh') :
    WakesUp M I Blocked := by
  refine ⟨hall, ?_, ?_, ?_, ?_, fun s p k l l' sh' _ _ hr => hrun p k l s.shared l' sh' hr⟩
  · intro s p l c l' h hl hm
    have hok := hmove s p l h hl
    rwa [hm] at hok
  · intro s p l l' sh' h hl hm
    have hok := hmove s p l h hl
    rwa [hm] at hok
  · intro s p l l' sh' h hl hm
    have hok := hmove s p l h hl
    rwa [hm] at hok
  · intro s p l c l' sh' h hl hm
    have hok := hmove s p l h hl
    rwa [hm] at hok

omit [DecidableEq P] [DecidableEq C] in
theorem Annotated.inside (h : Annotated J A s) {p : P} {l : L} (hl : s.phase p = .inside l) :
    A p l s.shared := by
  have hprom := h.promise p
  rwa [hl] at hprom

/-- Every outcome of a move from the shared state `sh` satisfies `Q`. -/
def MoveAll (Q : L → S → Prop) (sh : S) : Move C L S E → Prop
  | .stay l sh' | .release l sh' | .wakeup _ l sh' => Q l sh'
  | .sleep _ l => Q l sh
  | .panic _ => True

omit [DecidableEq P] [DecidableEq C] in
theorem MoveAll.mono {Q Q' : L → S → Prop} {sh : S} {m : Move C L S E}
    (hQ : ∀ l sh', Q l sh' → Q' l sh') (h : MoveAll Q sh m) : MoveAll Q' sh m := by
  cases m with
  | panic x => trivial
  | _ => exact hQ _ _ h

/-- The move is no panic, and its outcome satisfies `Q`. -/
def MoveSafe (Q : L → S → Prop) (sh : S) : Move C L S E → Prop
  | .stay l sh' | .release l sh' | .wakeup _ l sh' => Q l sh'
  | .sleep _ l => Q l sh
  | .panic _ => False

omit [DecidableEq C] in
/-- A property of the shared state and the control points of all processes is kept by every
step of a monitor, and no step panics, if the program keeps it without panics. -/
theorem effect_keeps {Q : S → (P → L) → Prop} (h : Q s.shared s.control)
    (henter : ∀ p l l', s.phase p = .outside l → M.enter l = some l' →
      Q s.shared (update s.control p l'))
    (hmove : ∀ p l, s.phase p = .inside l →
      MoveSafe (fun l' sh' => Q sh' (update s.control p l')) s.shared
        (M.move p l s.shared))
    (hrun : ∀ p k l l' sh', s.phase p = .outside l → M.run p k l s.shared = some (l', sh') →
      Q sh' (update s.control p l')) {e : Event P K} (he : Effect M s t e) :
    Q t.shared t.control ∧ t.panicked = s.panicked := by
  cases he with
  | none e move run shared control panicked =>
    rw [shared, control]
    exact ⟨h, panicked⟩
  | enter p l l' at_ into shared control panicked =>
    rw [shared, control]
    exact ⟨henter p l l' at_ into, panicked⟩
  | move p l l' s' at_ mv shared control panicked =>
    rw [shared, control]
    have hall := hmove p l at_
    rcases mv with mv | mv | ⟨c, mv⟩ <;> (rw [mv] at hall; exact ⟨hall, panicked⟩)
  | sleep p l l' c at_ mv shared control panicked =>
    rw [shared, control]
    have hall := hmove p l at_
    rw [mv] at hall
    exact ⟨hall, panicked⟩
  | run p k l l' s' at_ step shared control panicked =>
    rw [shared, control]
    exact ⟨hrun p k l l' s' at_ step, panicked⟩
  | panic p l x at_ mv shared control panicked =>
    have hall := hmove p l at_
    rw [mv] at hall
    exact hall.elim

theorem next_keeps {Q : S → (P → L) → Prop} (h : Q s.shared s.control)
    (henter : ∀ p l l', s.control p = l → M.enter l = some l' →
      Q s.shared (update s.control p l'))
    (hmove : ∀ p l, s.phase p = .inside l → s.control p = l →
      MoveAll (fun l' sh' => Q sh' (update s.control p l')) s.shared
        (M.move p l s.shared))
    (hrun : ∀ p k l l' sh', s.control p = l → M.run p k l s.shared = some (l', sh') →
      Q sh' (update s.control p l'))
    (hkill : ∀ q, e = .kill q → Q (F.kill q s.shared) s.control) (hn : next M F s e = some t) :
    Q t.shared t.control := by
  rcases next_cases hn with ⟨e, rfl, hv⟩ | ⟨q, he, -, rfl⟩
  · cases hv.effect with
    | none e move run shared control panicked =>
      rw [shared, control]
      exact h
    | enter p l l' at_ into shared control panicked =>
      rw [shared, control]
      exact henter p l l' (control_eq at_) into
    | move p l l' s' at_ mv shared control panicked =>
      rw [shared, control]
      have hall := hmove p l at_ (control_eq at_)
      rcases mv with mv | mv | ⟨c, mv⟩ <;> rwa [mv] at hall
    | sleep p l l' c at_ mv shared control panicked =>
      rw [shared, control]
      have hall := hmove p l at_ (control_eq at_)
      rwa [mv] at hall
    | run p k l l' s' at_ step shared control panicked =>
      rw [shared, control]
      exact hrun p k l l' s' (control_eq at_) step
    | panic p l x at_ mv shared control panicked =>
      rw [shared, control]
      exact h
  · rw [killed_control]
    exact hkill q he

end Xv6.MonitorAssertions
