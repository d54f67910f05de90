import Xv6.SleepWakeupMonitors

/-!
# Monitors whose processes can be killed

Every process has a flag that says whether it was killed. Killing takes the victim's own lock,
sets the flag, and makes the victim run if it is asleep, all in one critical section.
-/

namespace Xv6.KillableMonitors
open TransitionSystems SleepWakeupMonitors

variable {P C L S E K : Type*}

structure Flags (P S : Type*) where
  killed : S → P → Bool
  kill : P → S → S

/-- Scheduling choices: a step of the monitor, or somebody kills a process. -/
inductive KEvent (P K : Type*) where
  | step (e : Event P K)
  | kill (q : P)

def woken : Phase P C L → Phase P C L
  | .asleep _ l => .roused l
  | ph => ph

section Kill

variable [DecidableEq P]

def killed (F : Flags P S) (s : State P C L S E) (q : P) : State P C L S E :=
  { s.goto q (woken (s.phase q)) with shared := F.kill q s.shared }

variable [DecidableEq C]

def next (M : Monitor P C L S E K) (F : Flags P S) (s : State P C L S E) :
    KEvent P K → Option (State P C L S E)
  | .step (.rouse _) => none
  | .step e => M.next s e
  | .kill q =>
    if s.panicked.isSome ∨ (s.phase q).ownLockHeld = true then none else some (killed F s q)

variable {M : Monitor P C L S E K} {F : Flags P S} {s t : State P C L S E} {e : KEvent P K}

theorem next_cases (h : next M F s e = some t) :
    (∃ e', e = .step e' ∧ StepView M s e' t) ∨
      ∃ q, e = .kill q ∧ (s.phase q).ownLockHeld = false ∧ t = killed F s q := by
  cases e with
  | step e =>
    have hstep : M.Step s e t := by
      cases e with
      | rouse p => cases h
      | _ => exact h
    exact .inl ⟨e, rfl, hstep.view.2⟩
  | kill q =>
    simp only [next] at h
    split at h
    · cases h
    · rename_i hq
      cases h
      exact .inr ⟨q, rfl, by simpa using (not_or.mp hq).2, rfl⟩

theorem run_next {p : P} {k : K} (hn : next M F s (.step (.run p k)) = some t) :
    ∃ l l' sh', s.phase p = .outside l ∧ M.run p k l s.shared = some (l', sh') ∧
      t = { s.goto p (.outside l') with shared := sh' } := by
  obtain ⟨_, ⟨⟩, hv⟩ | ⟨q, hq, -⟩ := next_cases hn
  · cases hv with
    | run p k l l' sh' at_ step => exact ⟨l, l', sh', at_, step, rfl⟩
  · cases hq

theorem outside_next (hn : next M F s e = some t) {q : P} {l : L} (hq : s.phase q = .outside l)
    (hrun : ∀ k, e ≠ .step (.run q k)) (henter : M.enter l = none) : t.phase q = .outside l := by
  have hgoto {p : P} {ph : Phase P C L} (hp : s.phase p ≠ .outside l) :
      (s.goto p ph).phase q = .outside l := by
    have hne : q ≠ p := by
      rintro rfl
      exact hp hq
    rw [goto_phase_ne s ph hne, hq]
  rcases next_cases hn with ⟨e, rfl, hv⟩ | ⟨r, rfl, -, rfl⟩
  · cases hv with
    | enter p l₁ l' free at_ into =>
      refine hgoto fun hp => ?_
      cases at_.symm.trans hp
      rw [henter] at into
      cases into
    | panic => exact hq
    | visit p r l₁ c todo at_ own =>
      have hne : q ≠ p := by
        rintro rfl
        rw [hq] at at_
        cases at_
      rw [goto_phase_ne _ _ hne]
      by_cases hr : q = r
      · subst hr
        rw [goto_phase_self, hq]
        rfl
      · rw [goto_phase_ne s _ hr, hq]
    | run p k =>
      have hne : q ≠ p := by
        rintro rfl
        exact hrun k rfl
      exact (goto_phase_ne s _ hne).trans hq
    | _ => exact hgoto (by simp [*])
  · by_cases hr : q = r
    · subst hr
      simp [killed, hq, woken]
    · simp [killed, goto_phase_ne s _ hr, hq]

omit [DecidableEq C] [DecidableEq P] in
@[simp] theorem holds_woken (ph : Phase P C L) : (woken ph).holds = ph.holds := by
  cases ph <;> rfl

omit [DecidableEq C] [DecidableEq P] in
@[simp] theorem control_woken (ph : Phase P C L) : (woken ph).control = ph.control := by
  cases ph <;> rfl

omit [DecidableEq C] in
theorem killed_control (F : Flags P S) (s : State P C L S E) (q : P) :
    (killed F s q).control = s.control :=
  goto_control_same s q (control_woken _)

theorem noLostWakeup_next {I : State P C L S E → Prop} {Blocked : C → S → Prop}
    (hw : WakesUp M I Blocked) (hkill : ∀ q c sh, Blocked c sh → Blocked c (F.kill q sh))
    (hI : I s) (h : NoLostWakeup Blocked s) (hn : next M F s e = some t) :
    NoLostWakeup Blocked t := by
  rcases next_cases hn with ⟨e, rfl, hv⟩ | ⟨q, -, -, rfl⟩
  · exact h.step hw hI hv
  · have hwaits (c : C) (hc : (woken (s.phase q)).waitsOn = some c) :
        (s.phase q).waitsOn = some c := by
      cases hph : s.phase q <;> rw [hph] at hc <;> first | exact hc | cases hc
    by_cases hwk : ∃ c todo l, s.phase q = .waking c todo l
    · obtain ⟨c, todo, l, hph⟩ := hwk
      have hsame : woken (s.phase q) = s.phase q := by rw [hph]; rfl
      intro p d hp
      have hphase : (killed F s q).phase = s.phase := by
        simp [killed, State.goto, hsame]
      rw [hphase] at hp ⊢
      exact (h p d hp).imp (hkill q d _) id
    · exact h.goto q _ _ (fun c todo l hph => (hwk ⟨c, todo, l, hph⟩).elim)
        (fun c hc => .inl (hwaits c hc)) fun c hc => .inl (hkill q c _ hc)

theorem waitsOn_next {W : P → C → Prop}
    (hW : ∀ p l sh c l', M.move p l sh = .sleep c l' → W p c)
    (h : ∀ p c, (s.phase p).waitsOn = some c → W p c) (hn : next M F s e = some t) :
    ∀ p c, (t.phase p).waitsOn = some c → W p c := by
  have hgoto {s : State P C L S E} {q : P} {ph : Phase P C L}
      (h : ∀ p c, (s.phase p).waitsOn = some c → W p c)
      (hph : ∀ c, ph.waitsOn = some c → W q c) :
      ∀ p c, ((s.goto q ph).phase p).waitsOn = some c → W p c := by
    intro p c hp
    by_cases hpq : p = q
    · subst hpq
      exact hph c (by simpa using hp)
    · rw [goto_phase_ne s ph hpq] at hp
      exact h p c hp
  have hsame {q : P} {ph : Phase P C L} (hq : s.phase q = ph) (c : C)
      (hc : ph.waitsOn = some c) : W q c := h q c (by rw [hq]; exact hc)
  rcases next_cases hn with ⟨e, rfl, hv⟩ | ⟨q, -, -, rfl⟩
  · cases hv with
    | sleep q l l' d at_ mv =>
      exact hgoto h (by rintro c ⟨⟩; exact hW q l s.shared d l' mv)
    | park q l d at_ => exact hgoto h fun c hc => hsame at_ c hc
    | doze q l d at_ => exact hgoto h fun c hc => hsame at_ c hc
    | visit q r l d todo at_ own =>
      refine hgoto (hgoto h fun c hc => h r c ?_) (by simp [Phase.waitsOn])
      cases hph : s.phase r <;> rw [hph] at hc <;>
        simp only [Phase.visited, Phase.waitsOn] at hc ⊢ <;> grind
    | panic => exact h
    | _ => exact hgoto h (by simp [Phase.waitsOn])
  · refine hgoto h fun c hc => h q c ?_
    cases hph : s.phase q <;> rw [hph] at hc <;> first | exact hc | cases hc

theorem release_of_outside {p : P} {l l' : L} (hn : next M F s e = some t)
    (hin : s.phase p = .inside l) (hout : t.phase p = .outside l') :
    M.move p l s.shared = .release l' t.shared := by
  have hstays {q : P} (ph : Phase P C L) (hq : q ≠ p) (ht : t.phase p = (s.goto q ph).phase p) :
      False := by
    rw [goto_phase_ne s ph (Ne.symm hq), hin, hout] at ht
    cases ht
  have hmoves (ph : Phase P C L) (ht : t.phase p = (s.goto p ph).phase p) : ph = .outside l' := by
    rw [goto_phase_self, hout] at ht
    exact ht.symm
  rcases next_cases hn with ⟨e, rfl, hv⟩ | ⟨q, -, -, rfl⟩
  · cases hv with
    | release q m m' s' at_ mv =>
      by_cases hq : q = p
      · subst hq
        cases hmoves (.outside m') rfl
        rw [hin] at at_
        cases at_
        exact mv
      · exact (hstays (.outside m') hq rfl).elim
    | run q k m m' s' at_ step =>
      by_cases hq : q = p
      · subst hq
        rw [hin] at at_
        cases at_
      · exact (hstays (.outside m') hq rfl).elim
    | panic q m x at_ mv =>
      rw [hin] at hout
      cases hout
    | visit q r m c todo at_ own =>
      have hqp : q ≠ p := by
        rintro rfl
        rw [hin] at at_
        cases at_
      rw [goto_phase_ne _ _ (Ne.symm hqp)] at hout
      by_cases hrp : r = p
      · subst hrp
        rw [goto_phase_self, hin] at hout
        cases hout
      · rw [goto_phase_ne _ _ (Ne.symm hrp), hin] at hout
        cases hout
    | park q m c at_ =>
      by_cases hq : q = p
      · subst hq
        cases hmoves (.parked c m) rfl
      · exact (hstays (.parked c m) hq rfl).elim
    | _ q =>
      by_cases hq : q = p
      · subst hq
        cases hmoves _ rfl
      · exact (hstays _ hq rfl).elim
  · by_cases hq : q = p
    · subst hq
      have hph := hmoves (woken (s.phase q)) rfl
      rw [hin] at hph
      cases hph
    · exact (hstays (woken (s.phase q)) hq rfl).elim

end Kill

/-- What a move of `p` from the control point `l` and the shared state `sh` does about the
flags: it leaves them alone, or lowers them where it gives up the lock; it sleeps only from
`checked` points, and gets to one only after it saw its own flag clear. -/
def MoveChecks (F : Flags P S) (checked : L → Prop) (p : P) (l : L) (sh : S) :
    Move C L S E → Prop
  | .stay l' sh' | .wakeup _ l' sh' =>
    (checked l' → checked l ∨ F.killed sh p = false) ∧ ∀ q, F.killed sh' q = F.killed sh q
  | .release _ sh' => ∀ q, F.killed sh' q = true → F.killed sh q = true
  | .sleep _ l' => checked l ∧ ¬checked l'
  | .panic _ => True

/-- The program looks at its flag before every sleep, and nothing but a kill sets the flag
of another process. -/
structure Checks (M : Monitor P C L S E K) (F : Flags P S) (checked : L → Prop) : Prop where
  enter : ∀ l l', M.enter l = some l' → ¬checked l'
  move : ∀ p l sh, MoveChecks F checked p l sh (M.move p l sh)
  run : ∀ p k l sh l' sh', M.run p k l sh = some (l', sh') →
    ∀ q, q ≠ p → F.killed sh' q = true → F.killed sh q = true
  kill : ∀ q sh p, p ≠ q → F.killed (F.kill q sh) p = F.killed sh p

/-- A process that found its flag clear and is on its way to sleep, or asleep. -/
def Drowsy (checked : L → Prop) : Phase P C L → Prop
  | .parking .. | .parked .. | .asleep .. => True
  | .inside l | .waking _ _ l => checked l
  | _ => False

def Window (checked : L → Prop) : Phase P C L → Prop
  | .inside l | .waking _ _ l => checked l
  | _ => False

/-- No kill hits a process between its look at the flag and its sleep. -/
def OutsideWindow (checked : L → Prop) (s : State P C L S E) : KEvent P K → Prop
  | .kill q => ¬Window checked (s.phase q)
  | .step _ => True

/-- What a process does next after its sleep is not to sleep again. -/
def StartsOver (checked : L → Prop) : Phase P C L → Prop
  | .parking _ l | .parked _ l | .asleep _ l | .roused l => ¬checked l
  | _ => True

/-- Drowsy processes were not killed, and a process starts over after its sleep. -/
structure Alert (F : Flags P S) (checked : L → Prop) (s : State P C L S E) : Prop where
  clear : ∀ p, Drowsy checked (s.phase p) → F.killed s.shared p = false
  again : ∀ p, StartsOver checked (s.phase p)

variable {M : Monitor P C L S E K} {F : Flags P S} {checked : L → Prop}
  {s t : State P C L S E} {e : KEvent P K}

theorem not_killed {sh sh' : S} {p : P} (h : F.killed sh p = false)
    (hmono : F.killed sh' p = true → F.killed sh p = true) : F.killed sh' p = false := by
  by_contra hk
  have htrue := hmono (by simpa using hk)
  rw [h] at htrue
  cases htrue

theorem visited_eq [DecidableEq C] (c : C) (ph : Phase P C L) :
    ph.visited c = ph ∨ ∃ l, ph = .asleep c l ∧ ph.visited c = .roused l := by
  cases ph with
  | asleep c' l =>
    by_cases hc : c' = c
    · subst hc
      exact .inr ⟨l, rfl, by simp [Phase.visited]⟩
    · exact .inl (by simp [Phase.visited, hc])
  | _ => exact .inl rfl

variable [DecidableEq P]

theorem Alert.goto (h : Alert F checked s) (p : P) (ph : Phase P C L) {sh : S} {t : State P C L S E}
    (hphase : t.phase = (s.goto p ph).phase) (hshared : t.shared = sh)
    (hmono : ∀ q, q ≠ p → F.killed sh q = true → F.killed s.shared q = true)
    (hclear : Drowsy checked ph → F.killed sh p = false) (hagain : StartsOver checked ph) :
    Alert F checked t := by
  subst hshared
  constructor
  · intro q hq
    rw [hphase] at hq
    by_cases hqp : q = p
    · subst hqp
      rw [goto_phase_self] at hq
      exact hclear hq
    · rw [goto_phase_ne s ph hqp] at hq
      exact not_killed (h.clear q hq) (hmono q hqp)
  · intro q
    rw [hphase]
    by_cases hqp : q = p
    · subst hqp
      rw [goto_phase_self]
      exact hagain
    · rw [goto_phase_ne s ph hqp]
      exact h.again q

omit [DecidableEq P] in
theorem Alert.clear_at (h : Alert F checked s) {p : P} {ph : Phase P C L} (hp : s.phase p = ph)
    (hd : Drowsy checked ph) : F.killed s.shared p = false :=
  h.clear p (hp ▸ hd)

omit [DecidableEq P] in
theorem Alert.again_at (h : Alert F checked s) {p : P} {ph : Phase P C L} (hp : s.phase p = ph) :
    StartsOver checked ph :=
  hp ▸ h.again p

variable [DecidableEq C]

theorem Alert.step {e : Event P K} (hc : Checks M F checked) (h : Alert F checked s)
    (hv : StepView M s e t) : Alert F checked t := by
  have hmove {p : P} {l : L} {m : Move C L S E} (mv : M.move p l s.shared = m) :
      MoveChecks F checked p l s.shared m := mv ▸ hc.move p l s.shared
  cases hv with
  | enter p l l' free at_ into =>
    exact h.goto p _ rfl rfl (fun _ _ => id) (fun hl => absurd hl (hc.enter l l' into)) trivial
  | reenter p l free at_ =>
    exact h.goto p _ rfl rfl (fun _ _ => id) (fun hd => absurd hd (h.again_at at_)) trivial
  | stay p l l' s' at_ mv =>
    obtain ⟨hl, hk⟩ := hmove mv
    refine h.goto p _ rfl rfl (fun q _ hq => hk q ▸ hq) (fun hd => ?_) trivial
    exact (hk p).trans ((hl hd).elim (h.clear_at at_) id)
  | release p l l' s' at_ mv =>
    exact h.goto p (.outside l') rfl rfl (fun q _ => hmove mv q) False.elim trivial
  | sleep p l l' c at_ mv =>
    obtain ⟨hl, hl'⟩ := hmove mv
    exact h.goto p _ rfl rfl (fun _ _ => id) (fun _ => h.clear_at at_ hl) hl'
  | wakeup p l l' c s' at_ mv =>
    obtain ⟨hl, hk⟩ := hmove mv
    refine h.goto p _ rfl rfl (fun q _ hq => hk q ▸ hq) (fun hd => ?_) trivial
    exact (hk p).trans ((hl hd).elim (h.clear_at at_) id)
  | panic p l x at_ mv => exact ⟨h.clear, h.again⟩
  | park p l c at_ =>
    exact h.goto p (.parked c l) rfl rfl (fun _ _ => id) (h.clear_at at_ :) (h.again_at at_ :)
  | doze p l c at_ =>
    exact h.goto p (.asleep c l) rfl rfl (fun _ _ => id) (h.clear_at at_ :) (h.again_at at_ :)
  | visited p l c at_ =>
    exact h.goto p _ rfl rfl (fun _ _ => id) (h.clear_at at_ :) trivial
  | visit p q l c todo at_ own =>
    have hq : Alert F checked (s.goto q ((s.phase q).visited c)) := by
      rcases visited_eq c (s.phase q) with hsame | ⟨l', hasleep, hroused⟩
      · rw [hsame]
        exact h.goto q _ rfl rfl (fun _ _ => id) (h.clear q) (h.again q)
      · rw [hroused]
        exact h.goto q (.roused l') rfl rfl (fun _ _ => id) False.elim (h.again_at hasleep :)
    exact hq.goto p _ rfl rfl (fun _ _ => id) (h.clear_at at_ :) trivial
  | rouse p l c at_ =>
    exact h.goto p (.roused l) rfl rfl (fun _ _ => id) False.elim (h.again_at at_ :)
  | run p k l l' s' at_ step =>
    exact h.goto p (.outside l') rfl rfl (hc.run p k l s.shared l' s' step) False.elim trivial

omit [DecidableEq C] in
theorem Alert.kill (hc : Checks M F checked) (h : Alert F checked s) {q : P}
    (hown : (s.phase q).ownLockHeld = false) (hwin : ¬Window checked (s.phase q)) :
    Alert F checked (killed F s q) := by
  have hawake : ¬Drowsy checked (woken (s.phase q)) := by
    cases hph : s.phase q <;> rw [hph] at hwin hown <;>
      first | exact hwin | exact id | cases hown
  have hagain : StartsOver checked (woken (s.phase q)) := by
    have hold := h.again q
    cases hph : s.phase q <;> rw [hph] at hold <;> exact hold
  exact h.goto q _ rfl rfl (fun p hp hk => hc.kill q s.shared p hp ▸ hk)
    (fun hd => absurd hd hawake) hagain

omit [DecidableEq P] [DecidableEq C] in
theorem alert_outside {l : L} (h : ∀ p, s.phase p = .outside l) : Alert F checked s where
  clear p hp := by
    rw [h p] at hp
    exact hp.elim
  again p := by
    rw [h p]
    trivial

/-- In a run whose kills all fall outside the window, no sleeping process was killed. -/
theorem not_killed_of_asleep (hc : Checks M F checked) {init : State P C L S E → Prop}
    (hinit : ∀ s, init s → ∃ l, ∀ p, s.phase p = .outside l)
    (h : Reachable init (fun s e t => next M F s e = some t ∧ OutsideWindow checked s e) s)
    {p : P} {c : C} {l : L} (hp : s.phase p = .asleep c l) : F.killed s.shared p = false := by
  have halert : Alert F checked s := by
    refine h.invariant (fun s hs => alert_outside (hinit s hs).choose_spec) ?_
    rintro s e t hs ⟨hn, hwin⟩
    rcases next_cases hn with ⟨e, rfl, hv⟩ | ⟨q, rfl, hown, rfl⟩
    · exact hs.step hc hv
    · exact hs.kill hc hown hwin
  exact halert.clear p (by rw [hp]; trivial)

end Xv6.KillableMonitors
