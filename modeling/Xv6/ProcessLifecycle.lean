import Xv6.ProcessTable

/-!
# The life of a process

Pids are unique as long as `nextpid` has not wrapped. Every process but `initproc` has a
living parent from the moment it can run. A zombie keeps its pid and exit status until its
parent's `wait` returns them and frees the slot, and no parent sleeps in `wait` beside a
zombie child.
-/

namespace Xv6.Process
open TransitionSystems SleepWakeupMonitors KillableMonitors MonitorAssertions Function

variable {n : ℕ}

/-! ### Parents -/

/-- The child that a process in the middle of `fork` is about to hand out. -/
def Control.child? : Control n → Option (Fin n)
  | .adopt np _ | .publish np _ => some np
  | _ => none

/-- The points of `exit`. -/
def Control.exits : Control n → Bool
  | .exit _ | .reparent _ _ | .die _ => true
  | _ => false

/-- The states and parents of all slots, and where their processes are. -/
structure Family [NeZero n] (st : Fin n → ProcState) (par : Fin n → Option (Fin n))
    (ctl : Fin n → Control n) : Prop where
  init : st 0 = .live
  thread : ∀ p, ctl p ≠ .dead → st p = .live
  alive : ∀ x q, par x = some q → st q = .live
  child : ∀ x, x ≠ 0 → st x = .live ∨ st x = .zombie → par x ≠ none
  forking : ∀ p np, (ctl p).child? = some np → st np = .used
  adopted : ∀ p np pid, ctl p = .publish np pid → par np = some p
  once : ∀ p q np, (ctl p).child? = some np → (ctl q).child? = some np → p = q
  exits : ∀ p, (ctl p).exits = true → p ≠ 0

namespace Family

variable [NeZero n] {st : Fin n → ProcState} {par : Fin n → Option (Fin n)}
  {ctl : Fin n → Control n}

/-- What the family says of one process, at its point `l`. -/
structure Member (st : Fin n → ProcState) (par : Fin n → Option (Fin n)) (p : Fin n)
    (l : Control n) : Prop where
  thread : l ≠ .dead → st p = .live
  forking : ∀ np, l.child? = some np → st np = .used
  adopted : ∀ np pid, l = .publish np pid → par np = some p
  exits : l.exits = true → p ≠ 0

variable {st' : Fin n → ProcState} {par' : Fin n → Option (Fin n)} {p : Fin n} {l : Control n}

theorem member (h : Family st par ctl) (p : Fin n) : Member st par p (ctl p) :=
  ⟨h.thread p, h.forking p, h.adopted p, h.exits p⟩

theorem Member.mono (h : Member st par p l) (hlive : st p = .live → st' p = .live)
    (hused : ∀ np, l.child? = some np → st np = .used → st' np = .used)
    (hpar : ∀ np, l.child? = some np → par np = some p → par' np = some p) :
    Member st' par' p l where
  thread hl := hlive (h.thread hl)
  forking np hl := hused np hl (h.forking np hl)
  adopted np pid hl := hpar np (by rw [hl]; rfl) (h.adopted np pid hl)
  exits := h.exits

/-- The rule for a step of `p` to `l`: the others' points stay, and no other process has
the child that `p` has there. -/
theorem advance (h : Family st par ctl) (hinit : st' 0 = .live)
    (halive : ∀ x q, par' x = some q → st' q = .live)
    (hchild : ∀ x, x ≠ 0 → st' x = .live ∨ st' x = .zombie → par' x ≠ none)
    (hself : Member st' par' p l) (hother : ∀ q, q ≠ p → Member st' par' q (ctl q))
    (honce : ∀ q np, q ≠ p → l.child? = some np → (ctl q).child? ≠ some np) :
    Family st' par' (update ctl p l) := by
  have hmember (q : Fin n) : Member st' par' q (update ctl p l q) := by
    by_cases hq : q = p
    · subst hq
      rwa [update_self]
    · rw [update_of_ne hq]
      exact hother q hq
  refine ⟨hinit, fun q => (hmember q).thread, halive, hchild, fun q => (hmember q).forking,
    fun q => (hmember q).adopted, fun q r np hq hr => ?_, fun q => (hmember q).exits⟩
  by_cases hqp : q = p <;> by_cases hrp : r = p
  · rw [hqp, hrp]
  · subst hqp
    rw [update_self] at hq
    rw [update_of_ne hrp] at hr
    exact absurd hr (honce r np hrp hq)
  · subst hrp
    rw [update_of_ne hqp] at hq
    rw [update_self] at hr
    exact absurd hq (honce q np hqp hr)
  · rw [update_of_ne hqp] at hq
    rw [update_of_ne hrp] at hr
    exact h.once q r np hq hr

theorem goto (h : Family st par ctl) (p : Fin n) {l : Control n} (hlive : st p = .live)
    (hchild : l.child? = none) (hexits : l.exits = true → p ≠ 0) :
    Family st par (update ctl p l) := by
  refine h.advance h.init h.alive h.child ⟨fun _ => hlive, by simp [hchild], ?_, hexits⟩
    (fun q _ => h.member q) (by simp [hchild])
  rintro np pid rfl
  cases hchild

theorem alloc (h : Family st par ctl) {p np : Fin n} (pid : ℤ) (hlive : st p = .live)
    (hnp : st np = .unused) :
    Family (update st np .used) par (update ctl p (.adopt np pid)) := by
  have hst {x : Fin n} {v : ProcState} (hx : st x = v) (hv : v ≠ .unused) :
      update st np .used x = v := by
    rw [update_of_ne (by rintro rfl; exact hv (hx.symm.trans hnp)), hx]
  refine h.advance (hst h.init nofun) (fun x q hq => hst (h.alive x q hq) nofun) ?_ ?_ ?_ ?_
  · intro x hx0 hx
    by_cases hxn : x = np
    · subst hxn
      simp at hx
    · rw [update_of_ne hxn] at hx
      exact h.child x hx0 hx
  · exact ⟨fun _ => hst hlive nofun, by simp [Control.child?], nofun, nofun⟩
  · intro q _
    exact (h.member q).mono (hst · nofun) (fun _ _ => (hst · nofun)) fun _ _ => id
  · intro q np' _ hl hq
    cases hl
    have hused := h.forking q np hq
    rw [hnp] at hused
    cases hused

/-- A slot may get any living process as its parent. -/
theorem given_parent (h : Family st par ctl) (x : Fin n) {q : Fin n} (hq : st q = .live) :
    (∀ y r, update par x (some q) y = some r → st r = .live) ∧
      ∀ y, y ≠ 0 → st y = .live ∨ st y = .zombie → update par x (some q) y ≠ none := by
  refine ⟨(forall_update_iff par fun _ v => ∀ r, v = some r → st r = .live).mpr
    ⟨fun r hr => Option.some.inj hr ▸ hq, fun y _ => h.alive y⟩, fun y hy0 hy => ?_⟩
  by_cases hyx : y = x
  · simp [hyx]
  · rw [update_of_ne hyx]
    exact h.child y hy0 hy

theorem adopt (h : Family st par ctl) {p np : Fin n} {pid : ℤ} (hp : ctl p = .adopt np pid) :
    Family st (update par np (some p)) (update ctl p (.publish np pid)) := by
  have hlive : st p = .live := h.thread p (by simp [hp])
  have hnp : (ctl p).child? = some np := by simp [hp, Control.child?]
  obtain ⟨halive, hchild⟩ := h.given_parent np hlive
  refine h.advance h.init halive hchild ?_ ?_ ?_
  · refine ⟨fun _ => hlive, fun np' hl => ?_, fun np' pid' hl => ?_, nofun⟩ <;> cases hl
    · exact h.forking p np hnp
    · exact update_self ..
  · intro q hq
    refine (h.member q).mono id (fun _ _ => id) fun np' hl hpar => ?_
    rw [update_of_ne (by rintro rfl; exact hq (h.once q p np' hl hnp)), hpar]
  · intro q np' hq hl hc
    cases hl
    exact hq (h.once q p np hc hnp)

theorem publish (h : Family st par ctl) {p np : Fin n} {pid : ℤ} (r : ℤ)
    (hp : ctl p = .publish np pid) :
    Family (update st np .live) par (update ctl p (.forked r)) := by
  have hnp : (ctl p).child? = some np := by simp [hp, Control.child?]
  have hlive {x : Fin n} (hx : st x = .live) : update st np .live x = .live := by
    by_cases hxn : x = np <;> simp [hxn, hx]
  refine h.advance (hlive h.init) (fun x q hq => hlive (h.alive x q hq)) ?_ ?_ ?_ nofun
  · intro x hx0 hx
    by_cases hxn : x = np
    · rw [hxn, h.adopted p np pid hp]
      nofun
    · rw [update_of_ne hxn] at hx
      exact h.child x hx0 hx
  · exact ⟨fun _ => hlive (h.thread p (by simp [hp])), nofun, nofun, nofun⟩
  · intro q hq
    refine (h.member q).mono hlive (fun np' hl hused => ?_) fun _ _ => id
    rw [update_of_ne (by rintro rfl; exact hq (h.once q p np' hl hnp)), hused]

theorem reparent (h : Family st par ctl) {p x : Fin n} {status : ℤ} {todo : List (Fin n)}
    (hp : ctl p = .reparent status (x :: todo)) (hx : par x = some p) :
    Family st (update par x (some 0)) (update ctl p (.reparent status todo)) := by
  obtain ⟨halive, hchild⟩ := h.given_parent x h.init
  refine h.advance h.init halive hchild ?_ ?_ nofun
  · exact ⟨fun _ => h.thread p (by simp [hp]), nofun, nofun,
      fun _ => h.exits p (by simp [hp, Control.exits])⟩
  · intro q hq
    refine (h.member q).mono id (fun _ _ => id) fun np _ hpar => ?_
    rw [update_of_ne (by rintro rfl; exact hq (Option.some.inj (hpar.symm.trans hx))), hpar]

theorem die (h : Family st par ctl) {p : Fin n} {status : ℤ} (hp : ctl p = .die status)
    (hnone : ∀ x, par x ≠ some p) :
    Family (update st p .zombie) par (update ctl p .dead) := by
  have hp0 : p ≠ 0 := h.exits p (by simp [hp, Control.exits])
  have hlive : st p = .live := h.thread p (by simp [hp])
  refine h.advance ?_ ?_ ?_ ⟨(absurd rfl ·), nofun, nofun, nofun⟩ ?_ nofun
  · rw [update_of_ne hp0.symm]
    exact h.init
  · intro x q hq
    rw [update_of_ne (by rintro rfl; exact hnone x hq)]
    exact h.alive x q hq
  · intro x hx0 hx
    by_cases hxp : x = p
    · exact h.child x hx0 (.inl (hxp ▸ hlive))
    · rw [update_of_ne hxp] at hx
      exact h.child x hx0 hx
  · intro q hq
    refine (h.member q).mono (fun hl => ?_) (fun np _ hused => ?_) fun _ _ => id
    · rw [update_of_ne hq, hl]
    · rw [update_of_ne (by rintro rfl; rw [hlive] at hused; cases hused), hused]

theorem free (h : Family st par ctl) {x : Fin n} (hx : st x ≠ .live) (hx' : st x ≠ .used) :
    Family (update st x .unused) (update par x none) ctl := by
  have hlive {y : Fin n} (hy : st y = .live) : update st x .unused y = .live := by
    rw [update_of_ne (by rintro rfl; exact hx hy), hy]
  have hused {y : Fin n} (hy : st y = .used) : update st x .unused y = .used := by
    rw [update_of_ne (by rintro rfl; exact hx' hy), hy]
  have hmember (q : Fin n) : Member (update st x .unused) (update par x none) q (ctl q) := by
    refine (h.member q).mono hlive (fun _ _ => hused) fun np hl hpar => ?_
    rw [update_of_ne (by rintro rfl; exact hx' (h.forking q np hl)), hpar]
  refine ⟨hlive h.init, fun q => (hmember q).thread, fun y q hq => ?_, fun y hy0 hy => ?_,
    fun q => (hmember q).forking, fun q => (hmember q).adopted, h.once, h.exits⟩
  · by_cases hyx : y = x
    · simp [hyx] at hq
    · rw [update_of_ne hyx] at hq
      exact hlive (h.alive y q hq)
  · by_cases hyx : y = x
    · simp [hyx] at hy
    · rw [update_of_ne hyx] at hy ⊢
      exact h.child y hy0 hy

end Family

/-! ### What the holder of `wait_lock` knows -/

def Table.st (t : Table n) (x : Fin n) : ProcState := (t.proc x).state

def Table.par (t : Table n) (x : Fin n) : Option (Fin n) := (t.proc x).parent

theorem Table.st_modify (t : Table n) (p : Fin n) (f : Proc n → Proc n) :
    (t.modify p f).st = update t.st p (f (t.proc p)).state := by
  funext x
  by_cases hx : x = p <;> simp [Table.st, Table.modify, hx]

theorem Table.par_modify (t : Table n) (p : Fin n) (f : Proc n → Proc n) :
    (t.modify p f).par = update t.par p (f (t.proc p)).parent := by
  funext x
  by_cases hx : x = p <;> simp [Table.par, Table.modify, hx]

theorem Table.st_modify_same (t : Table n) (p : Fin n) {f : Proc n → Proc n}
    (h : (f (t.proc p)).state = (t.proc p).state) : (t.modify p f).st = t.st := by
  rw [Table.st_modify, h]
  exact update_eq_self p t.st

theorem Table.par_modify_same (t : Table n) (p : Fin n) {f : Proc n → Proc n}
    (h : (f (t.proc p)).parent = (t.proc p).parent) : (t.modify p f).par = t.par := by
  rw [Table.par_modify, h]
  exact update_eq_self p t.par

theorem Table.st_allocproc (t : Table n) (np : Fin n) (memory : Bool) :
    (t.allocproc np memory).st =
      update t.st np (if memory then .used else .unused) := by
  funext x
  by_cases hx : x = np <;> cases memory <;>
    simp [Table.st, Table.allocproc, Table.modify, Proc.free, hx]

theorem Table.par_allocproc (t : Table n) (np : Fin n) (memory : Bool) :
    (t.allocproc np memory).par =
      if memory then t.par else update t.par np none := by
  funext x
  by_cases hx : x = np <;> cases memory <;>
    simp [Table.par, Table.allocproc, Table.modify, Proc.free, hx]

/-- An exiting process has handed the children it visited to `initproc`; a waiting process
has found no zombie among those it visited. -/
def Visited [NeZero n] (p : Fin n) (t : Table n) : Control n → Prop
  | .reparent _ todo => t.dying = none ∧ (p ≠ 0 → ∀ x, x ∉ todo → t.par x ≠ some p)
  | .die _ => t.dying = some p ∧ (p ≠ 0 → ∀ x, t.par x ≠ some p)
  | .waitScan _ _ todo => t.dying = none ∧ ∀ x, x ∉ todo → t.par x = some p → t.st x ≠ .zombie
  | .waitKilled _ | .waitSleep _ => t.dying = none ∧ ∀ x, t.par x = some p → t.st x ≠ .zombie
  | _ => t.dying = none

structure Harmless (t t' : Table n) : Prop where
  dying : t'.dying = t.dying
  par : ∀ x q, t'.par x = some q → t.par x = some q
  zombie : ∀ x, t'.st x = .zombie → t.st x = .zombie

theorem Harmless.refl (t : Table n) : Harmless t t := ⟨rfl, fun _ _ => id, fun _ => id⟩

theorem Harmless.of_update {t t' : Table n} (hd : t'.dying = t.dying)
    (hpar : t'.par = t.par ∨ ∃ x, t'.par = update t.par x none)
    (hst : t'.st = t.st ∨ ∃ x v, v ≠ .zombie ∧ t'.st = update t.st x v) :
    Harmless t t' where
  dying := hd
  par y q hy := by
    rcases hpar with hpar | ⟨x, hpar⟩
    · rwa [hpar] at hy
    · rw [hpar, update_apply] at hy
      split at hy
      · cases hy
      · exact hy
  zombie y hy := by
    rcases hst with hst | ⟨x, v, hv, hst⟩
    · rwa [hst] at hy
    · rw [hst, update_apply] at hy
      split at hy
      · exact absurd hy hv
      · exact hy

theorem Harmless.visited [NeZero n] {t t' : Table n} (h : Harmless t t') {p : Fin n}
    {l : Control n} (hv : Visited p t l) : Visited p t' l := by
  obtain ⟨hd, hp, hz⟩ := h
  cases l with
  | reparent status todo =>
    exact ⟨hd.trans hv.1, fun h0 x hx hpar => hv.2 h0 x hx (hp x p hpar)⟩
  | die status => exact ⟨hd.trans hv.1, fun h0 x hpar => hv.2 h0 x (hp x p hpar)⟩
  | waitScan addr havekids todo =>
    exact ⟨hd.trans hv.1, fun x hx hpar hst => hv.2 x hx (hp x p hpar) (hz x hst)⟩
  | waitKilled addr =>
    exact ⟨hd.trans hv.1, fun x hpar hst => hv.2 x (hp x p hpar) (hz x hst)⟩
  | waitSleep addr =>
    exact ⟨hd.trans hv.1, fun x hpar hst => hv.2 x (hp x p hpar) (hz x hst)⟩
  | _ => exact hd.trans hv

theorem harmless_of_ran [NeZero n] {p : Fin n} {l l' : Control n} {t t' : Table n}
    (h : Ran p t l l' t') : Harmless t t' := by
  cases h with
  | fault => exact .of_update rfl (.inl (t.par_modify_same p rfl)) (.inl (t.st_modify_same p rfl))
  | alloc x todo unused =>
    exact .of_update rfl (.inl (t.par_allocproc x true))
      (.inr ⟨x, .used, by decide, t.st_allocproc x true⟩)
  | fail x todo unused =>
    exact .of_update rfl (.inr ⟨x, t.par_allocproc x false⟩)
      (.inr ⟨x, .unused, by decide, t.st_allocproc x false⟩)
  | publish np pid =>
    exact .of_update rfl (.inl (t.par_modify_same np rfl))
      (.inr ⟨np, .live, by decide, t.st_modify np _⟩)
  | _ => exact .refl t

theorem harmless_kill (q : Fin n) (t : Table n) : Harmless t ((flags n).kill q t) := by
  refine .of_update rfl (.inl ?_) (.inl ?_)
  · exact t.par_modify_same (f := fun q => { q with killed := true, marked := true }) q rfl
  · exact t.st_modify_same (f := fun q => { q with killed := true, marked := true }) q rfl

theorem harmless_free (t : Table n) (x : Fin n) : Harmless t (t.modify x fun _ => .free n) :=
  .of_update rfl (.inr ⟨x, t.par_modify x _⟩) (.inr ⟨x, .unused, by decide, t.st_modify x _⟩)

section Moves

variable [NeZero n] {p : Fin n} {l : Control n} {t : Table n}

theorem move_visited (h : Visited p t l) :
    MoveOk (fun t => t.dying = none) (fun l t => Visited p t l) t (move p l t) := by
  cases l with
  | adopt np pid => exact h
  | exit status => exact ⟨h, fun _ x hx => absurd (List.mem_finRange x) hx⟩
  | reparent status todo =>
    cases todo with
    | nil => exact ⟨rfl, fun h0 x => h.2 h0 x List.not_mem_nil⟩
    | cons x todo =>
      simp only [move]
      by_cases hx : (t.proc x).parent = some p
      · rw [if_pos hx]
        refine ⟨h.1, fun h0 y hy => ?_⟩
        rw [Table.par_modify, update_apply]
        split
        · exact fun he => h0 (Option.some.inj he).symm
        · exact h.2 h0 y (by simp [*])
      · rw [if_neg hx]
        refine ⟨h.1, fun h0 y hy => ?_⟩
        by_cases hyx : y = x
        · rw [hyx]
          exact hx
        · exact h.2 h0 y (by simp [hyx, hy])
  | die status => rfl
  | wait addr => exact ⟨h, fun x hx => absurd (List.mem_finRange x) hx⟩
  | waitScan addr havekids todo =>
    cases todo with
    | nil =>
      cases havekids with
      | false => exact h.1
      | true => exact ⟨h.1, fun x => h.2 x List.not_mem_nil⟩
    | cons x todo =>
      simp only [move]
      by_cases hx : (t.proc x).parent = some p
      · rw [if_pos hx]
        by_cases hz : (t.proc x).state = .zombie
        · rw [if_pos hz]
          split
          · exact h.1
          · exact h.1
        · rw [if_neg hz]
          refine ⟨h.1, fun y hy hpar => ?_⟩
          by_cases hyx : y = x
          · rw [hyx]
            exact hz
          · exact h.2 y (by simp [hyx, hy]) hpar
      · rw [if_neg hx]
        refine ⟨h.1, fun y hy hpar => ?_⟩
        by_cases hyx : y = x
        · exact absurd (hyx ▸ hpar) hx
        · exact h.2 y (by simp [hyx, hy]) hpar
  | waitKilled addr =>
    simp only [move]
    split
    · exact h.1
    · exact h
  | waitSleep addr => exact ⟨h.1, fun _ => id⟩
  | _ => exact h

end Moves

theorem annotation_visited (n : ℕ) [NeZero n] : Annotation (monitor n) (flags n)
    (fun _ _ _ => True) (fun p l t => Visited p t l) (fun t => t.dying = none) where
  enter p l l' t hl h := by
    cases l <;> cases hl <;> exact h
  move p l t _ h := move_visited h
  run p k l t l' t' hr := by
    have hh := harmless_of_ran (ran_of_run hr)
    exact ⟨fun h => hh.dying.trans h, fun _ _ hv => hh.visited hv⟩
  kill q t := ⟨id, fun _ _ hv => (harmless_kill q t).visited hv⟩

/-! ### Nobody sleeps in `wait` beside a zombie child -/

/-- What keeps a process asleep in `wait`: it has no zombie child, and no child is about to
become one. -/
def NoZombie (c : Option (Fin n)) (t : Table n) : Prop :=
  ∀ q, c = some q → ∀ x, t.par x = some q → t.st x ≠ .zombie ∧ t.dying ≠ some x

theorem Harmless.noZombie {t t' : Table n} (h : Harmless t t') {c : Option (Fin n)}
    (hc : NoZombie c t) : NoZombie c t' := by
  intro q hq x hx
  obtain ⟨hz, hd⟩ := hc q hq x (h.par x q hx)
  exact ⟨fun hz' => hz (h.zombie x hz'), h.dying ▸ hd⟩

theorem move_noZombie [NeZero n] {p : Fin n} {l : Control n} {t : Table n} (h : Visited p t l)
    (hused : ∀ np, l.child? = some np → t.st np = .used) :
    MoveWakes NoZombie t (move p l t) := by
  cases l with
  | adopt np pid =>
    intro c hc q hq x hx
    rw [Table.par_modify, update_apply] at hx
    rw [Table.st_modify, update_apply]
    split at hx
    · subst x
      rw [if_pos rfl]
      have hnp : (t.proc np).state = .used := hused np rfl
      have hd : t.dying = none := h
      simp [hnp, Table.modify, hd]
    · rw [if_neg ‹_›]
      exact hc q hq x hx
  | reparent status todo =>
    cases todo with
    | nil =>
      intro c hc hn q hq x hx
      refine ⟨(hn q hq x hx).1, fun he => hc ?_⟩
      cases he
      exact hq.trans hx.symm
    | cons x todo =>
      simp only [move]
      split
      · intro c hc hn q hq y hy
        rw [Table.par_modify, update_apply] at hy
        rw [Table.st_modify, update_apply]
        split at hy
        · exact absurd (hq.trans hy.symm) hc
        · rw [if_neg ‹_›]
          exact hn q hq y hy
      · exact fun _ => id
  | die status =>
    intro c hn q hq x hx
    have hxp : x ≠ p := by
      rintro rfl
      exact (hn q hq x (by simpa [Table.par, Table.modify] using hx)).2 h.1
    have hold := hn q hq x (by simpa [Table.par, Table.modify, hxp] using hx)
    simpa [Table.st, Table.modify, hxp] using hold.1
  | waitScan addr havekids todo =>
    cases todo with
    | nil => cases havekids <;> exact fun _ => id
    | cons x todo =>
      simp only [move]
      split
      · split
        · split
          · exact fun _ => id
          · exact fun _ => (harmless_free t x).noZombie
        · exact fun _ => id
      · exact fun _ => id
  | waitKilled addr =>
    simp only [move]
    split <;> exact fun _ => id
  | waitSleep addr =>
    rintro q ⟨⟩ x hx
    exact ⟨h.2 x hx, by simp [h.1]⟩
  | _ => exact fun _ => id

/-! ### Families along a run -/

section Families

variable [NeZero n] {p : Fin n} {l : Control n} {t : Table n} {ctl : Fin n → Control n}

abbrev Related (t : Table n) (ctl : Fin n → Control n) : Prop := Family t.st t.par ctl

theorem move_related (h : Related t ctl) (hl : ctl p = l) (hv : Visited p t l) :
    MoveAll (fun l' t' => Related t' (update ctl p l')) t (move p l t) := by
  have hgoto {l' : Control n} (hne : l ≠ .dead) (hchild : l'.child? = none)
      (hexits : l'.exits = true → p ≠ 0) : Related t (update ctl p l') :=
    h.goto p (h.thread p (hl ▸ hne)) hchild hexits
  have hself : Related t (update ctl p l) := by
    rw [← hl, update_eq_self]
    exact h
  cases l with
  | adopt np pid =>
    have hadopt := h.adopt hl
    simpa [MoveAll, move, Related, Table.par_modify, Table.st_modify_same] using hadopt
  | exit status => exact hgoto nofun rfl fun _ => h.exits p (by rw [hl]; rfl)
  | reparent status todo =>
    have hne : p ≠ 0 := h.exits p (by rw [hl]; rfl)
    cases todo with
    | nil => exact hgoto nofun rfl fun _ => hne
    | cons x todo =>
      simp only [move]
      split
      · have hrep := h.reparent hl ‹_›
        simpa [MoveAll, Related, Table.par_modify, Table.st_modify_same] using hrep
      · exact hgoto nofun rfl fun _ => hne
  | die status =>
    have hne : p ≠ 0 := h.exits p (by rw [hl]; rfl)
    have hdie := h.die hl (hv.2 hne)
    have hst : (t.modify p fun q => { q with xstate := status, state := .zombie }).st =
        update t.st p .zombie := t.st_modify p _
    have hpar : (t.modify p fun q => { q with xstate := status, state := .zombie }).par = t.par :=
      t.par_modify_same p rfl
    rw [← hst, ← hpar] at hdie
    exact hdie
  | wait addr => exact hgoto nofun rfl nofun
  | waitScan addr havekids todo =>
    cases todo with
    | nil => cases havekids <;> exact hgoto nofun rfl nofun
    | cons x todo =>
      simp only [move]
      split
      · split
        · split
          · exact hgoto nofun rfl nofun
          · have hx : t.st x = .zombie := ‹_›
            have hfree : Related t (update ctl p
                (.waited (t.proc x).pid (addr.map fun _ => (t.proc x).xstate))) :=
              hgoto nofun rfl nofun
            have hfree := hfree.free (x := x) (by simp [hx]) (by simp [hx])
            simpa [MoveAll, Related, Table.par_modify, Table.st_modify, Proc.free] using hfree
        · exact hgoto nofun rfl nofun
      · exact hgoto nofun rfl nofun
  | waitKilled addr =>
    simp only [move]
    split <;> exact hgoto nofun rfl nofun
  | waitSleep addr => exact hgoto nofun rfl nofun
  | _ => exact hself

theorem ran_related {l' : Control n} {t' : Table n} (h : Related t ctl) (hl : ctl p = l)
    (hr : Ran p t l l' t') : Related t' (update ctl p l') := by
  have hgoto {l' : Control n} (hne : l ≠ .dead) (hchild : l'.child? = none)
      (hexits : l'.exits = true → p ≠ 0) : Related t (update ctl p l') :=
    h.goto p (h.thread p (hl ▸ hne)) hchild hexits
  have huser (hu : l.inUser = true) : l ≠ .dead := by
    rintro rfl
    cases hu
  cases hr with
  | start live => exact h.goto p live rfl nofun
  | fork l user => exact hgoto (huser user) rfl nofun
  | exit l user status ne => exact hgoto (huser user) rfl fun _ => ne
  | wait l user addr => exact hgoto (huser user) rfl nofun
  | fault l user =>
    have hfault : Related t (update ctl p .user) := hgoto (huser user) rfl nofun
    simpa [Related, Table.par_modify_same, Table.st_modify_same] using hfault
  | full => exact hgoto nofun rfl nofun
  | skip x todo => exact hgoto nofun rfl nofun
  | alloc x todo unused =>
    have halloc := h.alloc t.nextpid (h.thread p (by simp [hl])) unused
    simpa [Related, Table.st_allocproc, Table.par_allocproc] using halloc
  | fail x todo unused =>
    have hst : t.st x = .unused := unused
    have hfail : Related t (update ctl p (.forked (-1))) := hgoto nofun rfl nofun
    have hfail := hfail.free (x := x) (by simp [hst]) (by simp [hst])
    simpa [Related, Table.st_allocproc, Table.par_allocproc] using hfail
  | publish np pid =>
    have hpub := h.publish pid hl
    simpa [Related, Table.par_modify_same, Table.st_modify] using hpub

end Families

/-! ### What a step does to one slot -/

/-- `wait` of the parent `w` returns the pid and the exit status of the zombie in slot `x`
and frees the slot. -/
def Reaps (t : Table n) (ctl : Fin n → Control n) (t' : Table n) (ctl' : Fin n → Control n)
    (x : Fin n) : Prop :=
  (t.proc x).state = .zombie ∧ t'.proc x = .free n ∧
    ∃ w addr havekids todo, (t.proc x).parent = some w ∧
      ctl w = .waitScan addr havekids (x :: todo) ∧ addr ≠ some false ∧
      ctl' w = .waited (t.proc x).pid (addr.map fun _ => (t.proc x).xstate)

inductive SlotStep [NeZero n] (t : Table n) (ctl : Fin n → Control n) (e : KEvent (Fin n) Choice)
    (t' : Table n) (ctl' : Fin n → Control n) (x : Fin n) : Prop where
  | same (eq : t'.proc x = t.proc x)
  | faulted (user : (ctl x).inUser = true)
      (eq : t'.proc x = { t.proc x with killed := true, marked := true })
  | killed (ev : e = .kill x) (eq : t'.proc x = { t.proc x with killed := true, marked := true })
  | reaped (reaps : Reaps t ctl t' ctl' x)
  | reparented (q : Fin n) (status : ℤ) (todo : List (Fin n)) (parent : (t.proc x).parent = some q)
      (at_ : ctl q = .reparent status (x :: todo))
      (eq : t'.proc x = { t.proc x with parent := some 0 })
  | died (status : ℤ) (at_ : ctl x = .die status)
      (eq : t'.proc x = { t.proc x with xstate := status, state := .zombie })
  | allocated (unused : (t.proc x).state = .unused) (forks : t'.forks = t.forks + 1)
      (eq : t'.proc x = { t.proc x with pid := t.nextpid, state := .used, marked := false })
  | failed (unused : (t.proc x).state = .unused) (eq : t'.proc x = .free n)
  | adopted (q : Fin n) (pid : ℤ) (at_ : ctl q = .adopt x pid)
      (eq : t'.proc x = { t.proc x with parent := some q })
  | published (q : Fin n) (pid : ℤ) (at_ : ctl q = .publish x pid)
      (eq : t'.proc x = { t.proc x with state := .live })

section Slots

variable [NeZero n] {p x : Fin n} {l : Control n} {t : Table n} {ctl : Fin n → Control n}
  {e : KEvent (Fin n) Choice}

theorem move_slot (hl : ctl p = l) (x : Fin n) :
    MoveAll (fun l' t' => SlotStep t ctl e t' (update ctl p l') x) t (move p l t) := by
  cases l with
  | adopt np pid =>
    by_cases hx : x = np
    · subst hx
      exact .adopted p pid hl (t.modify_self x _)
    · exact .same (t.modify_ne hx _)
  | reparent status todo =>
    cases todo with
    | nil => exact .same rfl
    | cons y todo =>
      simp only [move]
      split
      · by_cases hx : x = y
        · subst hx
          exact .reparented p status todo ‹_› hl (t.modify_self x _)
        · exact .same (t.modify_ne hx _)
      · exact .same rfl
  | die status =>
    by_cases hx : x = p
    · subst hx
      exact .died status hl (by simp)
    · exact .same (by simp [t.modify_ne hx])
  | waitScan addr havekids todo =>
    cases todo with
    | nil => cases havekids <;> exact .same rfl
    | cons y todo =>
      simp only [move]
      split
      · split
        · split
          · exact .same rfl
          · by_cases hx : x = y
            · subst hx
              refine .reaped ⟨‹_›, t.modify_self x _, p, addr, havekids, todo, ‹_›, hl, ‹_›, ?_⟩
              exact update_self p _ ctl
            · exact .same (t.modify_ne hx _)
        · exact .same rfl
      · exact .same rfl
  | waitKilled addr =>
    simp only [move]
    split <;> exact .same rfl
  | _ => exact .same rfl

theorem ran_slot {l' : Control n} {t' : Table n} (hl : ctl p = l) (hr : Ran p t l l' t')
    (x : Fin n) : SlotStep t ctl e t' (update ctl p l') x := by
  cases hr with
  | fault l user =>
    by_cases hx : x = p
    · subst hx
      exact .faulted (hl ▸ user) (t.modify_self x _)
    · exact .same (t.modify_ne hx _)
  | alloc y todo unused =>
    by_cases hx : x = y
    · subst hx
      exact .allocated unused rfl (by simp [Table.allocproc, Table.modify])
    · exact .same (by simp [Table.allocproc, Table.modify, hx])
  | fail y todo unused =>
    by_cases hx : x = y
    · subst hx
      exact .failed unused (by simp [Table.allocproc, Table.modify])
    · exact .same (by simp [Table.allocproc, Table.modify, hx])
  | publish np pid =>
    by_cases hx : x = np
    · subst hx
      exact .published p pid hl (t.modify_self x _)
    · exact .same (t.modify_ne hx _)
  | _ => exact .same rfl

theorem slotStep_of_step {s s' : Processes n} (h : Step s e s') (x : Fin n) :
    SlotStep s.shared s.control e s'.shared s'.control x := by
  refine next_keeps (Q := fun t' ctl' => SlotStep s.shared s.control e t' ctl' x)
    (.same rfl) (fun _ _ _ _ _ => .same rfl) (fun p l _ hl => move_slot hl x)
    (fun p k l l' sh' hl hr => ran_slot hl (ran_of_run hr) x) (fun q he => ?_) h
  by_cases hx : x = q
  · subst hx
    exact .killed he (by simp [flags])
  · exact .same (by simp [flags, s.shared.modify_ne hx])

theorem move_counters (p : Fin n) (l : Control n) (t : Table n) :
    MoveAll (fun _ t' => t'.forks = t.forks ∧ t'.nextpid = t.nextpid) t (move p l t) := by
  cases l with
  | reparent status todo =>
    cases todo with
    | nil => exact ⟨rfl, rfl⟩
    | cons x todo =>
      simp only [move]
      split <;> exact ⟨rfl, rfl⟩
  | waitScan addr havekids todo =>
    cases todo with
    | nil => cases havekids <;> exact ⟨rfl, rfl⟩
    | cons x todo =>
      simp only [move]
      repeat' split
      all_goals exact ⟨rfl, rfl⟩
  | waitKilled addr =>
    simp only [move]
    split <;> exact ⟨rfl, rfl⟩
  | _ => exact ⟨rfl, rfl⟩

theorem counters_of_step {s s' : Processes n} {e : KEvent (Fin n) Choice} (h : Step s e s') :
    (s'.shared.forks = s.shared.forks ∧ s'.shared.nextpid = s.shared.nextpid) ∨
      ∃ x memory, s.shared.st x = .unused ∧ s'.shared = s.shared.allocproc x memory := by
  refine next_keeps (Q := fun t' _ => (t'.forks = s.shared.forks ∧ t'.nextpid = s.shared.nextpid) ∨
    ∃ x memory, s.shared.st x = .unused ∧ t' = s.shared.allocproc x memory)
    (.inl ⟨rfl, rfl⟩) (fun _ _ _ _ _ => .inl ⟨rfl, rfl⟩)
    (fun p l _ _ => (move_counters p l s.shared).mono fun _ _ => .inl)
    (fun p k l l' sh' _ hr => ?_) (fun q _ => .inl ⟨rfl, rfl⟩) h
  cases ran_of_run hr with
  | alloc x todo unused => exact .inr ⟨x, true, unused, rfl⟩
  | fail x todo unused => exact .inr ⟨x, false, unused, rfl⟩
  | _ => exact .inl ⟨rfl, rfl⟩

end Slots

/-! ### Pids -/

/-- As long as `nextpid` has not wrapped, pids are handed out in order, and only processes
have one. -/
structure Pids (t : Table n) : Prop where
  next : t.nextpid = Int.bmod (t.forks + 2) (2 ^ 32)
  free : ∀ x, t.st x = .unused → (t.proc x).pid = 0
  range : t.forks < 2 ^ 31 - 1 → ∀ x, t.st x ≠ .unused →
    1 ≤ (t.proc x).pid ∧ (t.proc x).pid ≤ t.forks + 1
  inj : t.forks < 2 ^ 31 - 1 → ∀ x y, t.st x ≠ .unused → t.st y ≠ .unused →
    (t.proc x).pid = (t.proc y).pid → x = y

theorem Pids.allocproc {t : Table n} (h : Pids t) {x : Fin n} (hx : t.st x = .unused)
    (memory : Bool) : Pids (t.allocproc x memory) := by
  have hforks : (t.allocproc x memory).forks = t.forks + 1 := by cases memory <;> rfl
  have hnext : (t.allocproc x memory).nextpid = Int.bmod (t.nextpid + 1) (2 ^ 32) := by
    cases memory <;> rfl
  have hother {y : Fin n} (hy : y ≠ x) : (t.allocproc x memory).proc y = t.proc y := by
    cases memory <;> simp [Table.allocproc, Table.modify, hy]
  have hst {y : Fin n} (hy : y ≠ x) : (t.allocproc x memory).st y = t.st y := by
    rw [Table.st, hother hy, Table.st]
  have hpid (hbound : t.forks + 1 < 2 ^ 31 - 1) (hne : (t.allocproc x memory).st x ≠ .unused) :
      ((t.allocproc x memory).proc x).pid = t.forks + 2 := by
    cases memory with
    | false => exact absurd (by simp [Table.st_allocproc]) hne
    | true =>
      have hnew : ((t.allocproc x true).proc x).pid = t.nextpid := by
        simp [Table.allocproc, Table.modify]
      rw [hnew, h.next, Int.bmod_eq_of_le] <;> omega
  refine ⟨?_, fun y hy => ?_, fun hbound y hy => ?_, fun hbound y z hy hz heq => ?_⟩
  · rw [hnext, hforks, h.next, Int.bmod_add_bmod]
    congr 1
  · by_cases hyx : y = x
    · subst hyx
      cases memory with
      | false => simp [Table.allocproc, Table.modify, Proc.free]
      | true => simp [Table.st_allocproc] at hy
    · rw [hother hyx]
      exact h.free y (hst hyx ▸ hy)
  · rw [hforks] at hbound ⊢
    by_cases hyx : y = x
    · subst hyx
      rw [hpid hbound hy]
      omega
    · rw [hst hyx] at hy
      have hr := h.range (by omega) y hy
      rw [hother hyx]
      omega
  · rw [hforks] at hbound
    by_contra hyz
    have hlt {y : Fin n} (hyx : y ≠ x) (hy : (t.allocproc x memory).st y ≠ .unused) :
        ((t.allocproc x memory).proc y).pid ≤ t.forks + 1 := by
      rw [hst hyx] at hy
      rw [hother hyx]
      exact (h.range (by omega) y hy).2
    by_cases hyx : y = x
    · subst hyx
      have hz' := hlt (Ne.symm hyz) hz
      rw [← heq, hpid hbound hy] at hz'
      omega
    · by_cases hzx : z = x
      · subst hzx
        have hy' := hlt hyx hy
        rw [heq, hpid hbound hz] at hy'
        omega
      · rw [hst hyx] at hy
        rw [hst hzx] at hz
        rw [hother hyx, hother hzx] at heq
        exact hyz (h.inj (by omega) y z hy hz heq)

theorem Pids.keep {t t' : Table n} (h : Pids t) (hforks : t'.forks = t.forks)
    (hnext : t'.nextpid = t.nextpid)
    (hslots : ∀ x, t'.proc x = .free n ∨
      (t'.proc x).pid = (t.proc x).pid ∧ (t'.st x = .unused ↔ t.st x = .unused)) : Pids t' := by
  have hfree {x : Fin n} (hx : t'.proc x = .free n) : t'.st x = .unused ∧ (t'.proc x).pid = 0 := by
    simp [Table.st, hx, Proc.free]
  have hused {x : Fin n} (hx : t'.st x ≠ .unused) :
      (t'.proc x).pid = (t.proc x).pid ∧ t.st x ≠ .unused := by
    rcases hslots x with hf | ⟨hpid, hst⟩
    · exact absurd (hfree hf).1 hx
    · exact ⟨hpid, fun hu => hx (hst.mpr hu)⟩
  refine ⟨by rw [hnext, hforks, h.next], fun x hx => ?_, fun hbound x hx => ?_,
    fun hbound x y hx hy heq => ?_⟩
  · rcases hslots x with hf | ⟨hpid, hst⟩
    · exact (hfree hf).2
    · rw [hpid]
      exact h.free x (hst.mp hx)
  · rw [hforks] at hbound ⊢
    rw [(hused hx).1]
    exact h.range hbound x (hused hx).2
  · rw [hforks] at hbound
    rw [(hused hx).1, (hused hy).1] at heq
    exact h.inj hbound x y (hused hx).2 (hused hy).2 heq

variable {s s' : Processes n}

theorem Pids.step [NeZero n] {e : KEvent (Fin n) Choice} (h : Pids s.shared)
    (hrel : Related s.shared s.control) (hstep : Step s e s') : Pids s'.shared := by
  rcases counters_of_step hstep with ⟨hforks, hnext⟩ | ⟨x, memory, hx, heq⟩
  · refine h.keep hforks hnext fun x => ?_
    cases slotStep_of_step hstep x with
    | same eq => exact .inr (by simp [Table.st, eq])
    | faulted user eq => exact .inr (by simp [Table.st, eq])
    | killed ev eq => exact .inr (by simp [Table.st, eq])
    | reaped reaps => exact .inl reaps.2.1
    | reparented q status todo parent at_ eq => exact .inr (by simp [Table.st, eq])
    | died status at_ eq =>
      have hlive : (s.shared.proc x).state = .live := hrel.thread x (by simp [at_])
      exact .inr (by simp [Table.st, eq, hlive])
    | allocated unused forks eq => omega
    | failed unused eq => exact .inl eq
    | adopted q pid at_ eq => exact .inr (by simp [Table.st, eq])
    | published q pid at_ eq =>
      have hused : (s.shared.proc x).state = .used :=
        hrel.forking q x (by simp [at_, Control.child?])
      exact .inr (by simp [Table.st, eq, hused])
  · rw [heq]
    exact h.allocproc hx memory

/-! ### Every interleaving -/

structure Lifecycle [NeZero n] (s : Processes n) : Prop where
  visited : Annotated (fun t => t.dying = none) (fun p l t => Visited p t l) s
  related : Related s.shared s.control
  pids : Pids s.shared
  wakeups : NoLostWakeup NoZombie s
  channel : ∀ p c, (s.phase p).waitsOn = some c → c = some p

theorem lifecycle_boot (n : ℕ) [NeZero n] : Lifecycle (boot n) where
  visited := ⟨fun p => by simp [boot, Phase.holds], fun _ => rfl, fun _ => trivial⟩
  related := by
    have hst (p : Fin n) : (boot n).shared.st p = if p = 0 then .live else .unused := by
      by_cases hp : p = 0 <;> simp [boot, Table.st, Proc.free, hp]
    have hpar (p : Fin n) : (boot n).shared.par p = none := by
      by_cases hp : p = 0 <;> simp [boot, Table.par, Proc.free, hp]
    have hctl (p : Fin n) : (boot n).control p = .dead := rfl
    exact {
      init := by simp [hst]
      thread := fun p hp => absurd (hctl p) hp
      alive := by simp [hpar]
      child := by simp +contextual [hst]
      forking := by simp [hctl, Control.child?]
      adopted := by simp [hctl]
      once := by simp [hctl, Control.child?]
      exits := by simp [hctl, Control.exits] }
  pids := by
    have hst (p : Fin n) : (boot n).shared.st p = if p = 0 then .live else .unused := by
      by_cases hp : p = 0 <;> simp [boot, Table.st, Proc.free, hp]
    have hpid (p : Fin n) : ((boot n).shared.proc p).pid = if p = 0 then 1 else 0 := by
      by_cases hp : p = 0 <;> simp [boot, Proc.free, hp]
    have hforks : (boot n).shared.forks = 0 := rfl
    have hnext : (boot n).shared.nextpid = 2 := rfl
    exact ⟨by rw [hnext, hforks]; decide, by grind, by grind, by grind⟩
  wakeups p c hc := by cases hc
  channel p c hc := by cases hc

theorem sleep_channel [NeZero n] {p : Fin n} {l l' : Control n} {t : Table n}
    {c : Option (Fin n)} (h : move p l t = .sleep c l') : c = some p := by
  cases l with
  | waitSleep addr =>
    cases h
    rfl
  | reparent status todo =>
    cases todo with
    | nil => cases h
    | cons x todo =>
      simp only [move] at h
      split at h <;> cases h
  | waitScan addr havekids todo =>
    cases todo with
    | nil => cases havekids <;> cases h
    | cons x todo =>
      simp only [move] at h
      repeat' split at h
      all_goals cases h
  | waitKilled addr =>
    simp only [move] at h
    split at h <;> cases h
  | _ => cases h

theorem related_step [NeZero n] {e : KEvent (Fin n) Choice} (h : Lifecycle s)
    (hstep : Step s e s') : Related s'.shared s'.control := by
  refine next_keeps h.related (fun p l l' hl henter => ?_)
    (fun p l hin hl => move_related h.related hl (h.visited.inside hin))
    (fun p k l l' t' hl hr => ran_related h.related hl (ran_of_run hr)) (fun q _ => ?_) hstep
  · have hsame : l' = l := by cases l <;> cases henter <;> rfl
    rw [hsame, ← hl, update_eq_self]
    exact h.related
  · have hkill := h.related
    simpa [Related, flags, Table.par_modify_same, Table.st_modify_same] using hkill

theorem wakesUp (n : ℕ) [NeZero n] : WakesUp (monitor n) Lifecycle NoZombie := by
  refine wakesUp_of_moves List.mem_finRange (fun s p l h hl => ?_)
    fun p k l t l' t' hr c => (harmless_of_ran (ran_of_run hr)).noZombie
  refine move_noZombie (h.visited.inside hl) fun np hnp => h.related.forking p np ?_
  rwa [State.control, hl]

theorem Lifecycle.step [NeZero n] {e : KEvent (Fin n) Choice} (h : Lifecycle s)
    (hstep : Step s e s') : Lifecycle s' where
  visited := h.visited.next (annotation_visited n) hstep fun _ _ _ _ => trivial
  related := related_step h hstep
  pids := h.pids.step h.related hstep
  wakeups := noLostWakeup_next (wakesUp n) (fun q _ t => (harmless_kill q t).noZombie) h h.wakeups
    hstep
  channel := waitsOn_next (fun _ _ _ _ _ => sleep_channel) h.channel hstep

theorem Reached.lifecycle [NeZero n] {s : Processes n} (h : Reached s) : Lifecycle s :=
  h.invariant (by rintro s rfl; exact lifecycle_boot n) fun _ _ _ => Lifecycle.step

theorem zombie_step [NeZero n] {e : KEvent (Fin n) Choice} (h : Lifecycle s) (hstep : Step s e s')
    {x : Fin n} (hx : (s.shared.proc x).state = .zombie) :
    ((s'.shared.proc x).state = .zombie ∧ (s'.shared.proc x).pid = (s.shared.proc x).pid ∧
        (s'.shared.proc x).xstate = (s.shared.proc x).xstate) ∨
      Reaps s.shared s.control s'.shared s'.control x := by
  cases slotStep_of_step hstep x with
  | same eq => exact .inl (by simp [eq, hx])
  | faulted user eq => exact .inl (by simp [eq, hx])
  | killed ev eq => exact .inl (by simp [eq, hx])
  | reaped reaps => exact .inr reaps
  | reparented q status todo parent at_ eq => exact .inl (by simp [eq, hx])
  | died status at_ eq =>
    have hlive : (s.shared.proc x).state = .live := h.related.thread x (by simp [at_])
    rw [hx] at hlive
    cases hlive
  | allocated unused forks eq => simp [hx] at unused
  | failed unused eq => simp [hx] at unused
  | adopted q pid at_ eq => exact .inl (by simp [eq, hx])
  | published q pid at_ eq =>
    have hused : (s.shared.proc x).state = .used :=
      h.related.forking q x (by simp [at_, Control.child?])
    rw [hx] at hused
    cases hused

theorem zombie_run [NeZero n] {es : List (KEvent (Fin n) Choice)} (h : Lifecycle s)
    (hrun : Run Step s es s') {x : Fin n} (hx : (s.shared.proc x).state = .zombie) :
    ((s'.shared.proc x).state = .zombie ∧ (s'.shared.proc x).pid = (s.shared.proc x).pid ∧
        (s'.shared.proc x).xstate = (s.shared.proc x).xstate) ∨
      ∃ es₁ e es₂ a b, es = es₁ ++ e :: es₂ ∧ Run Step s es₁ a ∧ Step a e b ∧ Run Step b es₂ s' ∧
        Reaps a.shared a.control b.shared b.control x ∧
        (a.shared.proc x).pid = (s.shared.proc x).pid ∧
        (a.shared.proc x).xstate = (s.shared.proc x).xstate := by
  induction hrun with
  | nil => exact .inl ⟨hx, rfl, rfl⟩
  | @snoc t u es e hrun hlast ih =>
    rcases ih with ⟨hz, hpid, hstatus⟩ | ⟨es₁, e', es₂, a, b, rfl, hpre, hab, hpost, hreap⟩
    · have ht : Lifecycle t := hrun.invariant h fun _ _ _ => Lifecycle.step
      rcases zombie_step ht hlast hz with ⟨hz', hpid', hstatus'⟩ | hreap
      · exact .inl ⟨hz', hpid'.trans hpid, hstatus'.trans hstatus⟩
      · exact .inr ⟨es, e, [], t, u, rfl, hrun, hlast, .nil u, hreap, hpid, hstatus⟩
    · exact .inr ⟨es₁, e', es₂ ++ [e], a, b, by simp, hpre, hab, hpost.snoc hlast, hreap⟩

theorem freed_step [NeZero n] {e : KEvent (Fin n) Choice} (hstep : Step s e s') {x : Fin n}
    (hx : (s.shared.proc x).state ≠ .unused) (hfree : (s'.shared.proc x).state = .unused) :
    Reaps s.shared s.control s'.shared s'.control x := by
  cases slotStep_of_step hstep x with
  | reaped reaps => exact reaps
  | same eq => exact absurd (by simpa [eq] using hfree) hx
  | faulted user eq => exact absurd (by simpa [eq] using hfree) hx
  | killed ev eq => exact absurd (by simpa [eq] using hfree) hx
  | reparented q status todo parent at_ eq => exact absurd (by simpa [eq] using hfree) hx
  | died status at_ eq => simp [eq] at hfree
  | allocated unused forks eq => exact absurd unused hx
  | failed unused eq => exact absurd unused hx
  | adopted q pid at_ eq => exact absurd (by simpa [eq] using hfree) hx
  | published q pid at_ eq => simp [eq] at hfree

theorem died_step [NeZero n] {e : KEvent (Fin n) Choice} (hstep : Step s e s') {x : Fin n}
    (hx : (s.shared.proc x).state ≠ .zombie) (hdead : (s'.shared.proc x).state = .zombie) :
    ∃ status, s.control x = .die status ∧ (s'.shared.proc x).xstate = status ∧
      (s'.shared.proc x).pid = (s.shared.proc x).pid := by
  cases slotStep_of_step hstep x with
  | died status at_ eq => exact ⟨status, at_, by simp [eq], by simp [eq]⟩
  | reaped reaps => exact absurd reaps.1 hx
  | same eq => exact absurd (by simpa [eq] using hdead) hx
  | faulted user eq => exact absurd (by simpa [eq] using hdead) hx
  | killed ev eq => exact absurd (by simpa [eq] using hdead) hx
  | reparented q status todo parent at_ eq => exact absurd (by simpa [eq] using hdead) hx
  | allocated unused forks eq => simp [eq] at hdead
  | failed unused eq => simp [eq, Proc.free] at hdead
  | adopted q pid at_ eq => exact absurd (by simpa [eq] using hdead) hx
  | published q pid at_ eq => simp [eq] at hdead

theorem parent_step [NeZero n] {e : KEvent (Fin n) Choice} (h : Lifecycle s) (hstep : Step s e s')
    {x q : Fin n} (hx : (s.shared.proc x).state = .live ∨ (s.shared.proc x).state = .zombie)
    (hq : (s.shared.proc x).parent = some q) : (s'.shared.proc x).parent = some q ∨
      ((s'.shared.proc x).parent = some 0 ∧
        ∃ status todo, s.control q = .reparent status (x :: todo)) ∨
      Reaps s.shared s.control s'.shared s'.control x := by
  cases slotStep_of_step hstep x with
  | same eq => exact .inl (by simp [eq, hq])
  | faulted user eq => exact .inl (by simp [eq, hq])
  | killed ev eq => exact .inl (by simp [eq, hq])
  | reaped reaps => exact .inr (.inr reaps)
  | reparented q' status todo parent at_ eq =>
    cases hq.symm.trans parent
    exact .inr (.inl ⟨by simp [eq], status, todo, at_⟩)
  | died status at_ eq => exact .inl (by simp [eq, hq])
  | allocated unused forks eq => simp [unused] at hx
  | failed unused eq => simp [unused] at hx
  | adopted q' pid at_ eq =>
    have hused : (s.shared.proc x).state = .used :=
      h.related.forking q' x (by simp [at_, Control.child?])
    simp [hused] at hx
  | published q' pid at_ eq => exact .inl (by simp [eq, hq])

/-- In every interleaving of `fork`, `exit`, `wait` and `kill`: pids are unique before
`nextpid` overflows; every process but `initproc` has a living parent; zombies keep their
pid and status until one `wait` of the parent, which is `initproc` if the first parent
exited, returns them and frees the slot; nobody sleeps in `wait` beside a zombie child. -/
theorem process_lifecycle [NeZero n] {s : Processes n} (h : Reached s) :
    (s.shared.forks < 2 ^ 31 - 1 → ∀ x y, (s.shared.proc x).state ≠ .unused →
      (s.shared.proc y).state ≠ .unused → (s.shared.proc x).pid = (s.shared.proc y).pid → x = y) ∧
    (∀ x, x ≠ 0 → (s.shared.proc x).state = .live ∨ (s.shared.proc x).state = .zombie →
      ∃ q, (s.shared.proc x).parent = some q ∧ (s.shared.proc q).state ≠ .unused ∧
        (s.shared.proc q).state ≠ .zombie) ∧
    (∀ es s' x, Run Step s es s' → (s.shared.proc x).state = .zombie →
      ((s'.shared.proc x).state = .zombie ∧ (s'.shared.proc x).pid = (s.shared.proc x).pid ∧
          (s'.shared.proc x).xstate = (s.shared.proc x).xstate) ∨
        ∃ es₁ e es₂ a b, es = es₁ ++ e :: es₂ ∧ Run Step s es₁ a ∧ Step a e b ∧ Run Step b es₂ s' ∧
          Reaps a.shared a.control b.shared b.control x ∧
          (a.shared.proc x).pid = (s.shared.proc x).pid ∧
          (a.shared.proc x).xstate = (s.shared.proc x).xstate) ∧
    (∀ e s', Step s e s' → ∀ x,
      ((s.shared.proc x).state ≠ .unused → (s'.shared.proc x).state = .unused →
        Reaps s.shared s.control s'.shared s'.control x) ∧
      ((s.shared.proc x).state ≠ .zombie → (s'.shared.proc x).state = .zombie →
        ∃ status, s.control x = .die status ∧ (s'.shared.proc x).xstate = status ∧
          (s'.shared.proc x).pid = (s.shared.proc x).pid) ∧
      ((s.shared.proc x).state = .live ∨ (s.shared.proc x).state = .zombie →
        ∀ q, (s.shared.proc x).parent = some q →
          (s'.shared.proc x).parent = some q ∨
          ((s'.shared.proc x).parent = some 0 ∧
            ∃ status todo, s.control q = .reparent status (x :: todo)) ∨
          Reaps s.shared s.control s'.shared s'.control x)) ∧
    (s.lock = none → ∀ p c l, s.phase p = .asleep c l →
      ∀ x, (s.shared.proc x).parent = some p → (s.shared.proc x).state ≠ .zombie) := by
  have hlife := h.lifecycle
  refine ⟨hlife.pids.inj, fun x hx hst => ?_, fun es s' x hrun hx => zombie_run hlife hrun hx,
    fun e s' hstep x => ⟨freed_step hstep, died_step hstep, fun hx q => parent_step hlife hstep hx⟩,
    fun hfree p c l hp x hx => ?_⟩
  · obtain ⟨q, hq⟩ := Option.ne_none_iff_exists'.mp (hlife.related.child x hx hst)
    have hlive : (s.shared.proc q).state = .live := hlife.related.alive x q hq
    exact ⟨q, hq, by simp [hlive], by simp [hlive]⟩
  · have hwait : (s.phase p).waitsOn = some c := by rw [hp]; rfl
    have hnone := hlife.wakeups.blocked hlife.visited.lock hfree hwait
    exact (hnone p (hlife.channel p c hwait) x hx).1

def forkExit : List (KEvent (Fin 2) Choice) :=
  [.step (.run 0 .start), .step (.run 0 .fork), .step (.run 0 (.next true)),
    .step (.run 0 (.next true)), .step (.acquire 0), .step (.move 0), .step (.run 0 (.next true)),
    .step (.run 1 .start), .step (.run 1 (.exit 5)), .step (.acquire 1), .step (.move 1),
    .step (.move 1), .step (.move 1), .step (.move 1), .step (.visit 1), .step (.visit 1),
    .step (.move 1)]

theorem process_lifecycle_forkExit : ∃ (s : Processes 2) (q : Fin 2), Reached s ∧
    (s.shared.proc 1).state = .zombie ∧ (s.shared.proc 1).xstate = 5 ∧
    (s.shared.proc 1).parent = some q ∧ (s.shared.proc q).state ≠ .zombie := by
  have hrun : (exec (next (monitor 2) (flags 2)) (boot 2) forkExit).any (fun s =>
      (s.shared.proc 1).state = .zombie ∧ (s.shared.proc 1).xstate = 5) = true := by
    decide +kernel
  obtain ⟨s, hs, hzombie, hstatus⟩ := exists_of_any hrun
  have hreach : Reached s := reachable_of_exec hs
  obtain ⟨q, hq, -, hne⟩ := (process_lifecycle hreach).2.1 1 (by decide) (.inr hzombie)
  exact ⟨s, q, hreach, hzombie, hstatus, hq, hne⟩

end Xv6.Process
