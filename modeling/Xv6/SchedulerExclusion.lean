import Xv6.ContextSwitches

/-!
# Exclusion in the scheduler

From the moment a scheduler finds a process runnable until it takes the process back, the process
belongs to that CPU alone. So no two CPUs execute one process, a context is loaded only when it is
completely saved, and `wait` frees no running process.
-/

namespace Xv6.Scheduler
open TransitionSystems Function

variable {C : Type} {n : ℕ}

def Party.thread? : Party n → Option (Fin n)
  | .scheduler _ => none
  | .thread t => some t

def Pc.holds : Pc n → Option (Fin n)
  | .between _ | .enter .. => none
  | .inside _ q _ | .release _ q | .check q | .picked q | .swtchIn q | .back q | .unlock q => some q
  | .change _ p _ | .sched _ p _ | .swtchOut _ p _ => some p
  | .swtchLoad t | .resume t _ => some t

def Pc.executes : Pc n → Option (Fin n)
  | .between w | .inside w _ _ | .release w _ => w.thread?
  | .check _ | .picked _ | .swtchIn _ | .back _ | .unlock _ => none
  | .enter t _ _ | .change t _ _ | .sched t _ _ | .swtchOut t _ _ | .swtchLoad t | .resume t _ =>
    some t

/-- The value of `c->proc` that goes with what a CPU does. -/
def Pc.cproc : Pc n → Option (Fin n)
  | .between w | .inside w _ _ | .release w _ => w.thread?
  | .check _ | .picked _ | .unlock _ => none
  | .swtchIn i | .back i => some i
  | .enter t _ _ | .change t _ _ | .sched t _ _ | .swtchOut t _ _ | .swtchLoad t | .resume t _ =>
    some t

def Pc.owns : Pc n → Option (Fin n)
  | .between w | .inside w _ _ | .release w _ => w.thread?
  | .check _ | .unlock _ => none
  | .picked i | .swtchIn i | .back i => some i
  | .enter t _ _ | .change t _ _ | .sched t _ _ | .swtchOut t _ _ | .swtchLoad t | .resume t _ =>
    some t

def Context.Returns (p : Fin n) : Context n → Prop
  | .forkret => True
  | .sched p' k => p' = p ∧ k ≠ .exit

structure Resting (p : Fin n) (st : ProcState) (saved : Bool) (x : Context n) : Prop where
  state : st ≠ .running
  saved : st ≠ .unused → saved = true
  returns : st ≠ .unused → st ≠ .zombie → x.Returns p

def Pc.Stage (p : Fin n) (st : ProcState) (saved : Bool) (x : Context n) : Pc n → Prop
  | .between _ | .inside .. | .release .. | .check _ | .unlock _ | .enter .. | .change .. =>
    st = .running
  | .picked _ | .swtchIn _ => st = .running ∧ saved = true ∧ x.Returns p
  | .sched _ _ k => st = k.state
  | .swtchOut _ _ x' => ∃ k, x' = .sched p k ∧ st = k.state
  | .swtchLoad _ | .back _ => Resting p st saved x
  | .resume _ x' => st = .running ∧ x'.Returns p

def Pc.Local (np : Fin n → Option (Fin n)) : Pc n → Prop
  | .enter t p _ | .change t p _ | .sched t p _ | .swtchOut t p _ => p = t
  | .inside w q x => ∀ t, w.thread? = some t →
      (x = .publish → np t = some q) ∧ ∀ memory, x = .alloc memory → np t = none
  | .between _ | .release .. | .check _ | .picked _ | .swtchIn _ | .back _ | .unlock _
  | .swtchLoad _ | .resume .. => True

structure Exclusive (s : System C n) : Prop where
  lock : ∀ q c, s.lock q = some c ↔ (s.pc c).holds = some q
  cproc : ∀ c, s.cproc c = (s.pc c).cproc
  ccontext : ∀ c t, (s.pc c).executes = some t → s.ccontext c = t
  vars : ∀ c, (s.pc c).Local s.np
  once : ∀ c d p, (s.pc c).owns = some p → (s.pc d).owns = some p → c = d
  stage : ∀ c p, (s.pc c).owns = some p →
    (s.pc c).Stage p (s.state p) (s.saved p) (s.context p)
  resting : ∀ p, (∀ c, (s.pc c).owns ≠ some p) →
    Resting p (s.state p) (s.saved p) (s.context p)
  child : ∀ t q, s.np t = some q → s.state q = .used
  children : ∀ t u q, s.np t = some q → s.np u = some q → t = u
  calm : s.panicked = none

variable [DecidableEq C] {s : System C n} {c : C} {q : Fin n}

omit [DecidableEq C] in
theorem Exclusive.running (h : Exclusive s) {d : C} (hc : (s.pc c).holds = some q)
    (hd : (s.pc d).owns = some q) (hcd : d ≠ c) : s.state q = .running := by
  have hstage := h.stage d q hd
  have hvars := h.vars d
  have hnot : (s.pc d).holds ≠ some q := by
    intro hq
    have hlock := (h.lock q d).mpr hq
    rw [(h.lock q c).mpr hc] at hlock
    exact hcd (Option.some.inj hlock).symm
  cases hpc : s.pc d <;> rw [hpc] at hd hstage hvars hnot <;>
    simp_all [Pc.owns, Pc.holds, Pc.Stage, Pc.Local]

/-- What the step of a CPU to `pc` does to a process: nothing, or no other CPU owns the process and
it is as `pc` says. -/
inductive Keeps (s : System C n) (c : C) (pc : Pc n) (s' : System C n) (p : Fin n) : Prop where
  | same (state : s'.state p = s.state p) (saved : s'.saved p = s.saved p)
      (context : s'.context p = s.context p) (owns : pc.owns = some p ↔ (s.pc c).owns = some p)
      (stage : pc.owns = some p → (s.pc c).Stage p (s.state p) (s.saved p) (s.context p) →
        pc.Stage p (s.state p) (s.saved p) (s.context p))
  | owned (alone : ∀ d, d ≠ c → (s.pc d).owns ≠ some p) (owns : pc.owns = some p)
      (stage : pc.Stage p (s'.state p) (s'.saved p) (s'.context p))
  | free (alone : ∀ d, d ≠ c → (s.pc d).owns ≠ some p) (owns : pc.owns ≠ some p)
      (resting : Resting p (s'.state p) (s'.saved p) (s'.context p))

variable {s' : System C n} {pc : Pc n} {i : Fin n}

omit [DecidableEq C] in
theorem Keeps.alone {p : Fin n} (hk : Keeps s c pc s' p) (h : Exclusive s) (hp : pc.owns = some p)
    {d : C} (hd : d ≠ c) : (s.pc d).owns ≠ some p := by
  cases hk with
  | same _ _ _ owns => exact fun hdp => hd (h.once d c p hdp (owns.mp hp))
  | owned alone | free alone => exact alone d hd

omit [DecidableEq C] in
/-- A CPU that owns no process but `i` before and after its step. -/
theorem Keeps.one {old : Pc n} (hpc : s.pc c = old) (hold : ∀ p, old.owns = some p → p = i)
    (hnew : ∀ p, pc.owns = some p → p = i) (hstate : ∀ p, p ≠ i → s'.state p = s.state p)
    (hsaved : ∀ p, p ≠ i → s'.saved p = s.saved p)
    (hcontext : ∀ p, p ≠ i → s'.context p = s.context p) (hi : Keeps s c pc s' i) (p : Fin n) :
    Keeps s c pc s' p := by
  subst hpc
  by_cases hp : p = i
  · exact hp ▸ hi
  · exact .same (hstate p hp) (hsaved p hp) (hcontext p hp)
      ⟨fun h => absurd (hnew p h) hp, fun h => absurd (hold p h) hp⟩
      fun h => absurd (hnew p h) hp

/-- The invariant from what a step of the CPU `c` to `pc` does. -/
theorem Exclusive.of_keeps (h : Exclusive s) (hpc : s'.pc = update s.pc c pc)
    (hlock : ∀ q d, s'.lock q = some d ↔ (update s.pc c pc d).holds = some q)
    (hcproc : s'.cproc = update s.cproc c pc.cproc)
    (hccontext : ∀ d, d ≠ c → s'.ccontext d = s.ccontext d)
    (hexecutes : ∀ t, pc.executes = some t → s'.ccontext c = t)
    (hvars : ∀ d, (update s.pc c pc d).Local s'.np) (hkeeps : ∀ p, Keeps s c pc s' p)
    (hchild : ∀ t q, s'.np t = some q → s'.state q = .used)
    (hchildren : ∀ t u q, s'.np t = some q → s'.np u = some q → t = u)
    (hcalm : s'.panicked = none) : Exclusive s' where
  lock := by rwa [hpc]
  cproc d := by
    rw [hcproc, hpc]
    by_cases hd : d = c
    · rw [hd, update_self, update_self]
    · rw [update_of_ne hd, update_of_ne hd, h.cproc d]
  ccontext d t ht := by
    rw [hpc] at ht
    by_cases hd : d = c
    · rw [hd, update_self] at ht
      exact hd ▸ hexecutes t ht
    · rw [update_of_ne hd] at ht
      rw [hccontext d hd, h.ccontext d t ht]
  vars := by rwa [hpc]
  once a b p ha hb := by
    rw [hpc] at ha hb
    by_cases hac : a = c <;> by_cases hbc : b = c
    · exact hac.trans hbc.symm
    · rw [hac, update_self] at ha
      rw [update_of_ne hbc] at hb
      exact absurd hb ((hkeeps p).alone h ha hbc)
    · rw [hbc, update_self] at hb
      rw [update_of_ne hac] at ha
      exact absurd ha ((hkeeps p).alone h hb hac)
    · rw [update_of_ne hac] at ha
      rw [update_of_ne hbc] at hb
      exact h.once a b p ha hb
  stage d p hp := by
    rw [hpc] at hp ⊢
    by_cases hd : d = c
    · rw [hd, update_self] at hp ⊢
      cases hkeeps p with
      | same state saved context owns stage =>
        rw [state, saved, context]
        exact stage hp (h.stage c p (owns.mp hp))
      | owned _ _ stage => exact stage
      | free _ owns _ => exact absurd hp owns
    · rw [update_of_ne hd] at hp ⊢
      cases hkeeps p with
      | same state saved context =>
        rw [state, saved, context]
        exact h.stage d p hp
      | owned alone | free alone => exact absurd hp (alone d hd)
  resting p hp := by
    rw [hpc] at hp
    have hc : pc.owns ≠ some p := by simpa using hp c
    cases hkeeps p with
    | same state saved context owns =>
      rw [state, saved, context]
      refine h.resting p fun d => ?_
      by_cases hd : d = c
      · exact fun ho => hc (owns.mpr (hd ▸ ho))
      · simpa [hd] using hp d
    | owned _ owns => exact absurd owns hc
    | free _ _ resting => exact resting
  child := hchild
  children := hchildren
  calm := hcalm

theorem Exclusive.vars_goto (h : Exclusive s) (hvars : pc.Local s.np) (d : C) :
    (update s.pc c pc d).Local s.np := by
  by_cases hd : d = c
  · rwa [hd, update_self]
  · rw [update_of_ne hd]
    exact h.vars d

theorem Exclusive.cproc_goto (h : Exclusive s) (hcproc : pc.cproc = (s.pc c).cproc) :
    s.cproc = update s.cproc c pc.cproc := by
  rw [hcproc, ← h.cproc c, update_eq_self]

omit [DecidableEq C] in
theorem Exclusive.alone (h : Exclusive s) {p : Fin n} (hp : (s.pc c).owns = some p) (d : C)
    (hd : d ≠ c) : (s.pc d).owns ≠ some p := fun hdp => hd (h.once d c p hdp hp)

theorem Exclusive.goto (h : Exclusive s) {old : Pc n} (hpc : s.pc c = old) {lock : Fin n → Option C}
    (hlock : ∀ q d, lock q = some d ↔ (update s.pc c pc d).holds = some q)
    (hcproc : pc.cproc = old.cproc) (howns : pc.owns = old.owns)
    (hexecutes : ∀ t, pc.executes = some t → old.executes = some t) (hvars : pc.Local s.np)
    (hstage : ∀ p, pc.owns = some p → old.Stage p (s.state p) (s.saved p) (s.context p) →
      pc.Stage p (s.state p) (s.saved p) (s.context p)) :
    Exclusive { s.goto c pc with lock := lock } := by
  subst hpc
  exact h.of_keeps rfl hlock (h.cproc_goto hcproc) (fun _ _ => rfl)
    (fun t ht => h.ccontext c t (hexecutes t ht)) (h.vars_goto hvars)
    (fun p => .same rfl rfl rfl (by rw [howns]) (hstage p)) h.child h.children h.calm

theorem Exclusive.lock_acquired (h : Exclusive s) (hfree : s.lock q = none)
    (hold : (s.pc c).holds = none) (hnew : pc.holds = some q) (x : Fin n) (d : C) :
    update s.lock q (some c) x = some d ↔ (update s.pc c pc d).holds = some x := by
  have hlock := h.lock
  grind [update_apply]

theorem Exclusive.lock_released (h : Exclusive s) (hold : (s.pc c).holds = some q)
    (hnew : pc.holds = none) (x : Fin n) (d : C) :
    update s.lock q none x = some d ↔ (update s.pc c pc d).holds = some x := by
  have hq := (h.lock q c).mpr hold
  have hd := h.lock q d
  have hx := h.lock x d
  grind [update_apply]

theorem Exclusive.lock_kept (h : Exclusive s) {old : Pc n} (hpc : s.pc c = old)
    (hsame : pc.holds = old.holds) (x : Fin n) (d : C) :
    s.lock x = some d ↔ (update s.pc c pc d).holds = some x := by
  have hlock := h.lock
  grind [update_apply]

theorem Exclusive.pick (h : Exclusive s) (hc : s.pc c = .check i) (hi : s.state i = .runnable) :
    Exclusive { s.goto c (.picked i) with state := update s.state i .running } := by
  have hfree (d : C) (hd : (s.pc d).owns = some i) : False := by
    have hdc : d ≠ c := by
      rintro rfl
      rw [hc] at hd
      cases hd
    have hrun := h.running (c := c) (by rw [hc]; rfl) hd hdc
    rw [hi] at hrun
    cases hrun
  have hrest := h.resting i hfree
  refine h.of_keeps rfl (h.lock_kept hc rfl) (h.cproc_goto (by rw [hc]; rfl)) (fun _ _ => rfl)
    nofun (h.vars_goto trivial) (Keeps.one hc nofun (fun _ hp => (Option.some.inj hp).symm)
      (fun _ hp => update_of_ne hp _ _) (fun _ _ => rfl) (fun _ _ => rfl) ?_) (fun t q hq => ?_)
    h.children h.calm
  · refine .owned (fun d _ => hfree d) rfl ⟨update_self .., hrest.saved ?_, hrest.returns ?_ ?_⟩ <;>
      simp [hi]
  · have hused := h.child t q hq
    have hqi : q ≠ i := by
      rintro rfl
      rw [hi] at hused
      cases hused
    exact (update_of_ne hqi _ _).trans hused

theorem Exclusive.setProc (h : Exclusive s) (hc : s.pc c = .picked i) :
    Exclusive { s.goto c (.swtchIn i) with cproc := update s.cproc c (some i) } := by
  refine h.of_keeps rfl (h.lock_kept hc rfl) rfl (fun _ _ => rfl) nofun (h.vars_goto trivial)
    (fun p => .same rfl rfl rfl ?_ fun _ hstage => ?_) h.child h.children h.calm
  · rw [hc]
    rfl
  · rwa [hc] at hstage

theorem Exclusive.load (h : Exclusive s) (hc : s.pc c = .swtchIn i) :
    Exclusive { s.goto c (.resume i (s.context i)) with
      ccontext := update s.ccontext c i
      saved := update s.saved i false } := by
  have howns : (s.pc c).owns = some i := by rw [hc]; rfl
  have hstage := h.stage c i howns
  rw [hc] at hstage
  refine h.of_keeps rfl (h.lock_kept hc rfl) (h.cproc_goto (by rw [hc]; rfl))
    (fun d hd => update_of_ne hd _ _) (fun t ht => ?_) (h.vars_goto trivial)
    (Keeps.one hc (fun _ hp => (Option.some.inj hp).symm) (fun _ hp => (Option.some.inj hp).symm)
      (fun _ _ => rfl) (fun _ hp => update_of_ne hp _ _) (fun _ _ => rfl)
      (.owned (h.alone howns) rfl ⟨hstage.1, hstage.2.2⟩)) h.child h.children h.calm
  exact (update_self ..).trans (Option.some.inj ht)

theorem Exclusive.leave (h : Exclusive s) {t p : Fin n} {k : Leave} (hc : s.pc c = .change t p k)
    (chan : Fin n → ℕ) :
    Exclusive { s.goto c (.sched t p k) with
      state := update s.state p k.state
      chan := chan } := by
  have hvars := h.vars c
  have howns : (s.pc c).owns = some t := by rw [hc]; rfl
  have hstage := h.stage c t howns
  rw [hc] at hvars hstage
  obtain rfl : p = t := hvars
  refine h.of_keeps rfl (h.lock_kept hc rfl) (h.cproc_goto (by rw [hc]; rfl)) (fun _ _ => rfl)
    (fun u hu => h.ccontext c u (by rw [hc]; exact hu)) (h.vars_goto rfl)
    (Keeps.one hc (fun _ hq => (Option.some.inj hq).symm) (fun _ hq => (Option.some.inj hq).symm)
      (fun _ hq => update_of_ne hq _ _) (fun _ _ => rfl) (fun _ _ => rfl)
      (.owned (h.alone howns) rfl (update_self ..))) (fun u q hq => ?_) h.children h.calm
  have hused := h.child u q hq
  have hqp : q ≠ p := by
    rintro rfl
    rw [show s.state q = .running from hstage] at hused
    cases hused
  exact (update_of_ne hqp _ _).trans hused

theorem Exclusive.save (h : Exclusive s) {p : Fin n} {x : Context n}
    (hc : s.pc c = .swtchOut p p x) :
    Exclusive { s.goto c (.swtchLoad p) with
      context := update s.context p x
      saved := update s.saved p true } := by
  have howns : (s.pc c).owns = some p := by rw [hc]; rfl
  have hstage := h.stage c p howns
  rw [hc] at hstage
  obtain ⟨k, rfl, hst⟩ := hstage
  have hrest : Resting p (s.state p) true (.sched p k) := by
    refine ⟨?_, fun _ => rfl, fun _ hz => ⟨rfl, ?_⟩⟩
    · rw [hst]
      cases k <;> simp [Leave.state]
    · rintro rfl
      exact hz hst
  refine h.of_keeps rfl (h.lock_kept hc rfl) (h.cproc_goto (by rw [hc]; rfl)) (fun _ _ => rfl)
    (fun u hu => h.ccontext c u (by rw [hc]; exact hu)) (h.vars_goto trivial)
    (Keeps.one hc (fun _ hq => (Option.some.inj hq).symm) (fun _ hq => (Option.some.inj hq).symm)
      (fun _ _ => rfl) (fun _ hq => update_of_ne hq _ _) (fun _ hq => update_of_ne hq _ _)
      (.owned (h.alone howns) rfl ?_)) h.child h.children h.calm
  simpa [Pc.Stage, System.goto] using hrest

theorem Exclusive.clearProc (h : Exclusive s) (hc : s.pc c = .back i) :
    Exclusive { s.goto c (.unlock i) with cproc := update s.cproc c none } := by
  have howns : (s.pc c).owns = some i := by rw [hc]; rfl
  have hstage := h.stage c i howns
  rw [hc] at hstage
  exact h.of_keeps rfl (h.lock_kept hc rfl) rfl (fun _ _ => rfl) nofun (h.vars_goto trivial)
    (Keeps.one hc (fun _ hp => (Option.some.inj hp).symm) nofun (fun _ _ => rfl) (fun _ _ => rfl)
      (fun _ _ => rfl) (.free (h.alone howns) nofun hstage)) h.child h.children h.calm

variable {w : Party n}

theorem Exclusive.resting_of_inside (h : Exclusive s) {x : Touch} (hc : s.pc c = .inside w q x)
    (hq : s.state q ≠ .running) : ∀ d, (s.pc d).owns ≠ some q := by
  intro d hd
  by_cases hdc : d = c
  · subst hdc
    have hstage := h.stage d q hd
    rw [hc] at hstage
    exact hq hstage
  · exact hq (h.running (c := c) (by rw [hc]; rfl) hd hdc)

theorem Exclusive.touched (h : Exclusive s) {x : Touch} (hc : s.pc c = .inside w q x)
    (hq : s.state q ≠ .running) (st : ProcState) (saved : Bool) (ctx : Context n)
    (np : Fin n → Option (Fin n)) (chan : Fin n → ℕ) (hrest : Resting q st saved ctx)
    (hnp : ∀ t, w.thread? ≠ some t → np t = s.np t)
    (hchild : ∀ t p, np t = some p → update s.state q st p = .used)
    (hchildren : ∀ t u p, np t = some p → np u = some p → t = u) :
    Exclusive { s.goto c (.release w q) with
      state := update s.state q st
      saved := update s.saved q saved
      context := update s.context q ctx
      np := np
      chan := chan } := by
  have hfree := h.resting_of_inside hc hq
  have hvars (d : C) (hd : d ≠ c) : (s.pc d).Local np := by
    have hold := h.vars d
    have honce := h.once c d
    rw [hc] at honce
    cases hpc : s.pc d <;> rw [hpc] at hold honce <;> simp only [Pc.Local, Pc.owns] at * <;>
      grind
  refine h.of_keeps rfl (h.lock_kept hc rfl) (h.cproc_goto (by rw [hc]; rfl)) (fun _ _ => rfl)
    (fun t ht => h.ccontext c t (by rw [hc]; exact ht)) (fun d => ?_) (fun p => ?_) hchild hchildren
    h.calm
  · by_cases hd : d = c
    · rw [hd, update_self]
      trivial
    · rw [update_of_ne hd]
      exact hvars d hd
  · by_cases hp : p = q
    · subst hp
      have howns : (Pc.release w p).owns ≠ some p := fun ho => hfree c (by rw [hc]; exact ho)
      exact .free (fun d _ => hfree d) howns (by simpa using hrest)
    · refine .same (update_of_ne hp _ _) (update_of_ne hp _ _) (update_of_ne hp _ _) ?_
        fun _ hst => ?_
      · rw [hc]
        rfl
      · rwa [hc] at hst

theorem Exclusive.touch (h : Exclusive s) {x : Touch} (hc : s.pc c = .inside w q x) :
    Exclusive ((s.touch w q x).goto c (.release w q)) := by
  have hquiet : Exclusive (s.goto c (.release w q)) :=
    h.goto hc (h.lock_kept hc rfl) rfl rfl (fun _ ht => ht) trivial fun _ _ hp => hp
  have hrunnable (hq : s.state q = .sleeping) :
      Exclusive ({ s with state := update s.state q .runnable }.goto c (.release w q)) := by
    have hrest := h.resting q (h.resting_of_inside hc (by simp [hq]))
    have hready : Resting q .runnable (s.saved q) (s.context q) :=
      ⟨by decide, fun _ => hrest.saved (by simp [hq]),
        fun _ _ => hrest.returns (by simp [hq]) (by simp [hq])⟩
    have hnew := h.touched hc (by simp [hq]) _ _ _ s.np s.chan hready (fun _ _ => rfl)
      (fun t p hp => ?_) h.children
    · simpa [System.goto] using hnew
    · have hused := h.child t p hp
      have hpq : p ≠ q := by
        rintro rfl
        rw [hq] at hused
        cases hused
      simpa [hpq] using hused
  cases x with
  | wakeup chan =>
    simp only [System.touch]
    split
    · exact hrunnable (by simp [*])
    · exact hquiet
  | kill =>
    simp only [System.touch]
    split
    · exact hrunnable ‹_›
    · exact hquiet
  | look => exact hquiet
  | alloc memory =>
    cases w with
    | scheduler i => exact hquiet
    | thread t =>
      simp only [System.touch]
      split
      · rename_i hq
        have hnp : s.np t = none := by
          have hvars := h.vars c
          rw [hc] at hvars
          exact (hvars t rfl).2 memory rfl
        have hchild := h.child
        have hchildren := h.children
        have hnew := h.touched hc (by simp [hq.1]) .used true .forkret
          (update s.np t (some q)) s.chan
          ⟨by decide, fun _ => rfl, fun _ _ => trivial⟩ ?_ ?_ ?_
        · exact hnew
        all_goals grind [update_apply, Party.thread?]
      · exact hquiet
  | publish =>
    cases w with
    | scheduler i => exact hquiet
    | thread t =>
      have hnp : s.np t = some q := by
        have hvars := h.vars c
        rw [hc] at hvars
        exact (hvars t rfl).1 rfl
      have hchild := h.child
      have hchildren := h.children
      have hq := h.child t q hnp
      have hrest := h.resting q (h.resting_of_inside hc (by simp [hq]))
      have hready : Resting q .runnable (s.saved q) (s.context q) :=
        ⟨by decide, fun _ => hrest.saved (by simp [hq]),
          fun _ _ => hrest.returns (by simp [hq]) (by simp [hq])⟩
      have hnew := h.touched hc (by simp [hq]) _ _ _ (update s.np t none) s.chan hready
        ?_ ?_ ?_
      · simpa [System.touch, System.goto] using hnew
      all_goals grind [update_apply, Party.thread?]
  | wait copied =>
    simp only [System.touch]
    split
    · rename_i hq
      have hchild := h.child
      have hnew := h.touched hc (by simp [hq.1]) .unused (s.saved q) (s.context q) s.np
        (update s.chan q 0) ⟨by decide, fun hu => absurd rfl hu, fun hu => absurd rfl hu⟩
        (fun _ _ => rfl) ?_ h.children
      · simpa [System.goto] using hnew
      · grind [update_apply]
    · exact hquiet

omit [DecidableEq C] in
theorem Exclusive.chan (h : Exclusive s) (chan : Fin n → ℕ) : Exclusive { s with chan := chan } :=
  ⟨h.lock, h.cproc, h.ccontext, h.vars, h.once, h.stage, h.resting, h.child, h.children, h.calm⟩

omit [DecidableEq C] in
theorem local_of_allowed {x : Touch} (h : s.allowed c q w x = true) :
    (Pc.inside w q x).Local s.np := by
  cases w with
  | scheduler i => exact fun t ht => by cases ht
  | thread t =>
    rintro t ⟨⟩
    refine ⟨?_, ?_⟩
    · rintro rfl
      simpa [System.allowed] using h
    · rintro memory rfl
      simpa [System.allowed] using h

/-- What a step of the CPU `c` does at each point if it does not panic, and where it goes. -/
inductive Acts (s : System C n) (c : C) : Choice n → Pc n → Pc n → System C n → Prop where
  | touch {w : Party n} {q : Fin n} {x : Touch} (free : s.lock q = none)
      (allowed : s.allowed c q w x = true) :
      Acts s c (.touch q x) (.between w) (.inside w q x)
        { s.goto c (.inside w q x) with lock := update s.lock q (some c) }
  | look {i : Fin n} (free : s.lock i = none) :
      Acts s c .go (.between (.scheduler i)) (.check i)
        { s.goto c (.check i) with lock := update s.lock i (some c) }
  | leave {t : Fin n} {l : Leave} :
      Acts s c (.leave l) (.between (.thread t)) (.enter t t l) (s.goto c (.enter t t l))
  | inside {k : Choice n} {w : Party n} {q : Fin n} {x : Touch} :
      Acts s c k (.inside w q x) (.release w q) ((s.touch w q x).goto c (.release w q))
  | release {k : Choice n} {w : Party n} {q : Fin n} :
      Acts s c k (.release w q) (.between w)
        { s.goto c (.between w) with lock := update s.lock q none }
  | pick {k : Choice n} {i : Fin n} (runnable : s.state i = .runnable) :
      Acts s c k (.check i) (.picked i)
        { s.goto c (.picked i) with state := update s.state i .running }
  | pass {k : Choice n} {i : Fin n} : Acts s c k (.check i) (.unlock i) (s.goto c (.unlock i))
  | setProc {k : Choice n} {i : Fin n} :
      Acts s c k (.picked i) (.swtchIn i)
        { s.goto c (.swtchIn i) with cproc := update s.cproc c (some i) }
  | load {k : Choice n} {i : Fin n} :
      Acts s c k (.swtchIn i) (.resume i (s.context i))
        { s.goto c (.resume i (s.context i)) with
          ccontext := update s.ccontext c i
          saved := update s.saved i false }
  | clearProc {k : Choice n} {i : Fin n} :
      Acts s c k (.back i) (.unlock i)
        { s.goto c (.unlock i) with cproc := update s.cproc c none }
  | unlock {k : Choice n} {i j : Fin n} :
      Acts s c k (.unlock i) (.between (.scheduler j))
        { s.goto c (.between (.scheduler j)) with lock := update s.lock i none }
  | enter {k : Choice n} {t p : Fin n} {l : Leave} (free : s.lock p = none) :
      Acts s c k (.enter t p l) (.change t p l)
        { s.goto c (.change t p l) with lock := update s.lock p (some c) }
  | change {k : Choice n} {t p : Fin n} {l : Leave} (chan : Fin n → ℕ) :
      Acts s c k (.change t p l) (.sched t p l)
        { s.goto c (.sched t p l) with state := update s.state p l.state, chan := chan }
  | sched {k : Choice n} {t : Fin n} {l : Leave} :
      Acts s c k (.sched t t l) (.swtchOut t t (.sched t l))
        (s.goto c (.swtchOut t t (.sched t l)))
  | save {k : Choice n} {t : Fin n} {x : Context n} :
      Acts s c k (.swtchOut t t x) (.swtchLoad t)
        { s.goto c (.swtchLoad t) with
          context := update s.context t x
          saved := update s.saved t true }
  | back {k : Choice n} {t : Fin n} : Acts s c k (.swtchLoad t) (.back t) (s.goto c (.back t))
  | resume {k : Choice n} {t : Fin n} {x : Context n} (chan : Fin n → ℕ)
      (running : s.state t = .running) :
      Acts s c k (.resume t x) (.between (.thread t))
        { s.goto c (.between (.thread t)) with lock := update s.lock t none, chan := chan }

section
variable {k : Choice n}

theorem Exclusive.acquired (h : Exclusive s) (hold : (s.pc c).holds = none)
    (hs : s.acquire c q pc = some s') :
    s.lock q = none ∧ { s.goto c pc with lock := update s.lock q (some c) } = s' := by
  unfold System.acquire at hs
  split at hs
  · exact ⟨‹_›, Option.some.inj hs⟩
  · rename_i d hd
    split at hs
    · subst d
      rw [(h.lock q c).mp hd] at hold
      cases hold
    · cases hs

theorem Exclusive.released (h : Exclusive s) (hold : (s.pc c).holds = some q) :
    s.release c q pc = { s.goto c pc with lock := update s.lock q none } :=
  if_pos ((h.lock q c).mpr hold)

theorem Exclusive.acts_between [NeZero n] (h : Exclusive s) (hpc : s.pc c = .between w)
    (hs : s.next c k = some s') : ∃ pc, Acts s c k (.between w) pc s' := by
  have hold : (s.pc c).holds = none := by rw [hpc]; rfl
  rw [System.next, if_neg (by simp [h.calm]), hpc] at hs
  cases k with
  | touch q x =>
    dsimp only at hs
    split_ifs at hs with hallowed
    obtain ⟨hfree, rfl⟩ := h.acquired hold hs
    exact ⟨_, .touch hfree hallowed⟩
  | go =>
    cases w with
    | scheduler i =>
      obtain ⟨hfree, rfl⟩ := h.acquired hold hs
      exact ⟨_, .look hfree⟩
    | thread t => cases hs
  | leave l =>
    cases w with
    | scheduler i => cases hs
    | thread t =>
      dsimp only at hs
      split_ifs at hs
      rw [h.cproc c, hpc] at hs
      cases hs
      exact ⟨_, .leave⟩

theorem Exclusive.acts_sched [NeZero n] (h : Exclusive s) {t p : Fin n} {l : Leave}
    (hpc : s.pc c = .sched t p l) (hs : s.next c k = some s') :
    ∃ pc, Acts s c k (.sched t p l) pc s' := by
  have hvars := h.vars c
  have hstage := h.stage c t (by rw [hpc]; rfl)
  rw [System.next, if_neg (by simp [h.calm]), hpc] at hs
  rw [hpc] at hvars hstage
  obtain rfl : p = t := hvars
  have hst : s.state p ≠ .running := by
    rw [show s.state p = l.state from hstage]
    cases l <;> simp [Leave.state]
  simp only [h.cproc c, hpc, Pc.cproc, Option.map_some, (h.lock p c).mpr (by rw [hpc]; rfl), hst,
    ne_eq, not_true_eq_false, if_false, Option.some.injEq] at hs
  subst hs
  exact ⟨_, .sched⟩

theorem Exclusive.acts_resume [NeZero n] (h : Exclusive s) {t : Fin n} {x : Context n}
    (hpc : s.pc c = .resume t x) (hs : s.next c k = some s') :
    ∃ pc, Acts s c k (.resume t x) pc s' := by
  have hold : (s.pc c).holds = some t := by rw [hpc]; rfl
  have hstage := h.stage c t (by rw [hpc]; rfl)
  rw [System.next, if_neg (by simp [h.calm]), hpc] at hs
  rw [hpc] at hstage
  obtain ⟨hrun, hreturns⟩ := hstage
  cases x with
  | forkret =>
    rw [h.cproc c, hpc] at hs
    obtain rfl := (h.released hold).symm.trans (Option.some.inj hs)
    exact ⟨_, .resume s.chan hrun⟩
  | sched p l =>
    obtain ⟨rfl, hl⟩ := hreturns
    cases l with
    | yield =>
      obtain rfl := (h.released hold).symm.trans (Option.some.inj hs)
      exact ⟨_, .resume s.chan hrun⟩
    | sleep chan =>
      obtain rfl := ((h.chan (update s.chan p 0)).released hold).symm.trans (Option.some.inj hs)
      exact ⟨_, .resume _ hrun⟩
    | exit => exact absurd rfl hl

/-- From a state of the invariant every step is one of these. -/
theorem Exclusive.acts [NeZero n] (h : Exclusive s) (hpc : s.pc c = pc)
    (hs : s.next c k = some s') : ∃ pc', Acts s c k pc pc' s' := by
  have hvars := h.vars c
  have hall := hs
  rw [System.next, if_neg (by simp [h.calm]), hpc] at hs
  rw [hpc] at hvars
  cases pc with
  | between w => exact h.acts_between hpc hall
  | inside w q x =>
    cases hs
    exact ⟨_, .inside⟩
  | release w q =>
    obtain rfl := (h.released (by rw [hpc]; rfl)).symm.trans (Option.some.inj hs)
    exact ⟨_, .release⟩
  | check i =>
    dsimp only at hs
    split_ifs at hs with hi <;> cases hs
    · exact ⟨_, .pick hi⟩
    · exact ⟨_, .pass⟩
  | picked i =>
    cases hs
    exact ⟨_, .setProc⟩
  | swtchIn i =>
    cases hs
    exact ⟨_, .load⟩
  | back i =>
    cases hs
    exact ⟨_, .clearProc⟩
  | unlock i =>
    obtain rfl := (h.released (by rw [hpc]; rfl)).symm.trans (Option.some.inj hs)
    exact ⟨_, .unlock⟩
  | enter t p l =>
    obtain ⟨hfree, rfl⟩ := h.acquired (by rw [hpc]; rfl) hs
    exact ⟨_, .enter hfree⟩
  | change t p l => cases l <;> cases hs <;> exact ⟨_, .change _⟩
  | sched t p l => exact h.acts_sched hpc hall
  | swtchOut t p x =>
    obtain rfl : p = t := hvars
    cases hs
    exact ⟨_, .save⟩
  | swtchLoad t =>
    rw [h.ccontext c t (by rw [hpc]; rfl)] at hs
    cases hs
    exact ⟨_, .back⟩
  | resume t x => exact h.acts_resume hpc hall

/-- Every step keeps the invariant. -/
theorem Exclusive.step [NeZero n] (h : Exclusive s) (hstep : s.next c k = some s') :
    Exclusive s' := by
  have hvars := h.vars c
  generalize hpc : s.pc c = pc at hvars
  have hkept {pc' : Pc n} (hsame : pc'.holds = pc.holds) (q : Fin n) (d : C) :
      s.lock q = some d ↔ (update s.pc c pc' d).holds = some q := h.lock_kept hpc hsame q d
  obtain ⟨pc', hacts⟩ := h.acts hpc hstep
  cases hacts with
  | touch free allowed =>
    exact h.goto hpc (h.lock_acquired free (by rw [hpc]; rfl) rfl) rfl rfl (fun _ ht => ht)
      (local_of_allowed allowed) fun _ _ hp => hp
  | look free =>
    exact h.goto hpc (h.lock_acquired free (by rw [hpc]; rfl) rfl) rfl rfl (fun _ ht => ht) trivial
      nofun
  | leave => exact h.goto hpc (hkept rfl) rfl rfl (fun _ ht => ht) rfl fun _ _ hp => hp
  | inside => exact h.touch hpc
  | release =>
    exact h.goto hpc (h.lock_released (by rw [hpc]; rfl) rfl) rfl rfl (fun _ ht => ht) trivial
      fun _ _ hp => hp
  | pick runnable => exact h.pick hpc runnable
  | pass => exact h.goto hpc (hkept rfl) rfl rfl nofun trivial nofun
  | setProc => exact h.setProc hpc
  | load => exact h.load hpc
  | clearProc => exact h.clearProc hpc
  | unlock =>
    exact h.goto hpc (h.lock_released (by rw [hpc]; rfl) rfl) rfl rfl (fun _ ht => ht) trivial nofun
  | enter free =>
    exact h.goto hpc (h.lock_acquired free (by rw [hpc]; rfl) rfl) rfl rfl (fun _ ht => ht) hvars
      fun _ _ hp => hp
  | change chan => exact h.leave hpc chan
  | sched =>
    refine h.goto hpc (hkept rfl) rfl rfl (fun _ ht => ht) rfl fun p hp hst => ?_
    cases hp
    exact ⟨_, rfl, hst⟩
  | save => exact h.save hpc
  | back => exact h.goto hpc (hkept rfl) rfl rfl nofun trivial fun _ _ hp => hp
  | @resume k t x chan running =>
    have hlock (q : Fin n) (d : C) : update s.lock t none q = some d ↔
        (update s.pc c (.between (.thread t)) d).holds = some q :=
      h.lock_released (by rw [hpc]; rfl) rfl q d
    refine Exclusive.chan (h.goto hpc hlock rfl rfl (fun _ ht => ht) trivial fun p hp _ => ?_) chan
    cases hp
    exact running

end

theorem exclusive_boot (C : Type) (n : ℕ) [NeZero n] : Exclusive (boot C n) where
  lock q c := by simp [boot, Pc.holds]
  cproc c := rfl
  ccontext c t ht := by cases ht
  vars c := trivial
  once c d p hp := by cases hp
  stage c p hp := by cases hp
  resting p _ := by
    by_cases hp : p = 0
    · subst hp
      exact ⟨by simp [boot], by simp [boot], fun _ _ => trivial⟩
    · exact ⟨by simp [boot, hp], by simp [boot, hp], fun _ _ => trivial⟩
  child t q hq := by cases hq
  children t u q hq := by cases hq
  calm := rfl

/-- In every interleaving of the CPUs: a process is `c->proc` of at most one CPU; while its
lock is free it is `RUNNING` exactly if it is `c->proc` of exactly one; a context is loaded
only when it has been saved completely; `freeproc`, in `wait` and where `allocproc` or `fork`
fails, meets no process that a CPU still executes; and `sched` and the locks do not panic. -/
theorem scheduler_exclusion [NeZero n] {s : System C n} (h : Reached s) :
    (∀ c d p, s.cproc c = some p → s.cproc d = some p → c = d) ∧
    (∀ p, s.lock p = none → (s.state p = .running ↔ ∃! c, s.cproc c = some p)) ∧
    (∀ c p, s.pc c = .swtchIn p → s.saved p = true) ∧
    (∀ c w q x, s.pc c = .inside w q x →
      ((∃ copied, x = .wait copied) ∧ s.state q = .zombie ∨
        (∃ memory, x = .alloc memory) ∧ s.state q = .unused) →
      ∀ d, (s.pc d).executes ≠ some q ∧ s.cproc d ≠ some q) ∧
    s.panicked = none := by
  have hex : Exclusive s := by
    refine h.invariant (by rintro s rfl; exact exclusive_boot C n) ?_
    rintro s ⟨c, k⟩ s' hs hstep
    exact hs.step hstep
  have howns {c : C} {p : Fin n} (hp : s.cproc c = some p) : (s.pc c).owns = some p := by
    rw [hex.cproc] at hp
    cases hpc : s.pc c <;> rw [hpc] at hp <;> first | exact hp | cases hp
  have hexecutes {c : C} {p : Fin n} (hp : (s.pc c).executes = some p) : s.cproc c = some p := by
    rw [hex.cproc]
    cases hpc : s.pc c <;> rw [hpc] at hp <;> first | exact hp | cases hp
  refine ⟨fun c d p hc hd => hex.once c d p (howns hc) (howns hd), fun p hfree => ?_,
    fun c p hc => ?_, fun c w q x hc hz d => ?_, hex.calm⟩
  · constructor
    · intro hrun
      have hsome : ∃ c, (s.pc c).owns = some p := by
        by_contra hnone
        exact (hex.resting p fun c hc => hnone ⟨c, hc⟩).state hrun
      obtain ⟨c, hc⟩ := hsome
      refine ⟨c, ?_, fun d hd => hex.once d c p (howns hd) hc⟩
      have hnot : (s.pc c).holds ≠ some p := fun hl => by
        have hlock := (hex.lock p c).mpr hl
        rw [hfree] at hlock
        cases hlock
      simp only [hex.cproc]
      cases hpc : s.pc c <;> rw [hpc] at hc hnot <;> first | exact hc | exact absurd hc hnot
    · rintro ⟨c, hc, -⟩
      have hstage := hex.stage c p (howns hc)
      have hvars := hex.vars c
      have hnot : (s.pc c).holds ≠ some p := fun hl => by
        have hlock := (hex.lock p c).mpr hl
        rw [hfree] at hlock
        cases hlock
      have hown := howns hc
      cases hpc : s.pc c <;> rw [hpc] at hstage hnot hown hvars <;>
        simp_all [Pc.owns, Pc.holds, Pc.Stage, Pc.Local]
  · have hstage := hex.stage c p (by rw [hc]; rfl)
    rw [hc] at hstage
    exact hstage.2.1
  · have hne : s.state q ≠ .running := by
      rcases hz with ⟨-, hz⟩ | ⟨-, hz⟩ <;> simp [hz]
    have hnone := hex.resting_of_inside hc hne
    exact ⟨fun hd => hnone d (howns (hexecutes hd)), fun hd => hnone d (howns hd)⟩

/-- A CPU is about to load the context of the first process. -/
theorem scheduler_exclusion_swtchIn : ∃ s : System (Fin 2) 2,
    Reached s ∧ s.pc 0 = .swtchIn 0 ∧ s.saved 0 = true := by
  have hrun : (exec (fun s e => s.next e.1 e.2) (boot (Fin 2) 2)
      [(0, .go), (0, .go), (0, .go)]).any (fun s => s.pc 0 = .swtchIn 0) = true := by
    decide +kernel
  obtain ⟨s, hs, hprop⟩ := (Option.any_eq_true _ _).mp hrun
  have hpc : s.pc 0 = .swtchIn 0 := of_decide_eq_true hprop
  have hreach : Reached s := reachable_of_exec hs
  exact ⟨s, hreach, hpc, (scheduler_exclusion hreach).2.2.1 0 0 hpc⟩

end Xv6.Scheduler
