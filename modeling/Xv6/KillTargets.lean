import Xv6.ProcessLifecycle

/-!
# The target of `kill`

`kill` marks the first slot whose `pid` field is the given one, whatever the state of the slot.
Free slots hold pid 0, and neither `allocproc` nor `fork` clears `killed`: `kill(0)` succeeds as
long as a free slot comes first, and the next process in that slot is born killed.
-/

namespace Xv6.Process
open TransitionSystems SleepWakeupMonitors KillableMonitors MonitorAssertions

variable {n : ℕ}

/-- The loop of `kill`, run while nobody holds the lock of a slot it visits. -/
def killScan (pid : ℤ) (s : Processes n) : List (Fin n) → Option (ℤ × Processes n)
  | [] => some (-1, s)
  | p :: todo =>
    if (s.phase p).ownLockHeld then none
    else if (s.shared.proc p).pid = pid then some (0, killed (flags n) s p)
    else killScan pid s todo

/-- `kill(pid)`: the result and the state it leaves. -/
def kill (pid : ℤ) (s : Processes n) : Option (ℤ × Processes n) :=
  killScan pid s (List.finRange n)

/-- A process with this pid is in slot `q`. -/
def HasPid (s : Processes n) (pid : ℤ) (q : Fin n) : Prop :=
  (s.shared.proc q).state ≠ .unused ∧ (s.shared.proc q).pid = pid

structure KillSpec (pid : ℤ) (s : Processes n) (r : ℤ) (s' : Processes n) : Prop where
  zero : r = 0 ↔ ∃ q, HasPid s pid q
  hit : (∃ q, HasPid s pid q) → ∃ q, HasPid s pid q ∧ s' = killed (flags n) s q
  miss : (¬∃ q, HasPid s pid q) → r = -1 ∧ s' = s

def firstWith (pid : ℤ) (s : Processes n) : Option (Fin n) :=
  (List.finRange n).find? fun q => (s.shared.proc q).pid = pid

def FindsProcess (pid : ℤ) (s : Processes n) : Prop :=
  ∀ q, firstWith pid s = some q → (s.shared.proc q).state ≠ .unused

theorem killScan_eq {pid r : ℤ} {s s' : Processes n} {todo : List (Fin n)}
    (h : killScan pid s todo = some (r, s')) :
    (∃ q, todo.find? (fun q => (s.shared.proc q).pid = pid) = some q ∧
        (s.phase q).ownLockHeld = false ∧ r = 0 ∧ s' = killed (flags n) s q) ∨
      (todo.find? (fun q => (s.shared.proc q).pid = pid) = none ∧ r = -1 ∧ s' = s) := by
  induction todo with
  | nil =>
    cases h
    exact .inr ⟨rfl, rfl, rfl⟩
  | cons p todo ih =>
    simp only [killScan] at h
    split at h
    · cases h
    rename_i hown
    split at h
    · cases h
      exact .inl ⟨p, by simp [*], by simpa using hown, rfl, rfl⟩
    · rcases ih h with ⟨q, hq, hrest⟩ | ⟨hnone, hrest⟩
      · exact .inl ⟨q, by simp [*], hrest⟩
      · exact .inr ⟨by simp [*], hrest⟩

section Calls

variable {pid r : ℤ} {s s' : Processes n}

theorem pid_of_firstWith {q : Fin n} (h : firstWith pid s = some q) :
    (s.shared.proc q).pid = pid := by
  simpa using List.find?_some h

theorem firstWith_none (h : firstWith pid s = none) (q : Fin n) :
    (s.shared.proc q).pid ≠ pid := by
  simpa using List.find?_eq_none.mp h q (List.mem_finRange q)

theorem killSpec_of_findsProcess (h : kill pid s = some (r, s')) (hfinds : FindsProcess pid s) :
    KillSpec pid s r s' := by
  rcases killScan_eq h with ⟨q, hq, -, rfl, rfl⟩ | ⟨hnone, rfl, rfl⟩
  · have hpid : HasPid s pid q := ⟨hfinds q hq, pid_of_firstWith hq⟩
    exact ⟨⟨fun _ => ⟨q, hpid⟩, fun _ => rfl⟩, fun _ => ⟨q, hpid, rfl⟩,
      fun hno => absurd ⟨q, hpid⟩ hno⟩
  · have hno : ¬∃ q, HasPid s' pid q := fun ⟨q, hq⟩ => firstWith_none hnone q hq.2
    exact ⟨⟨by omega, fun hq => absurd hq hno⟩, fun hq => absurd hq hno, fun _ => ⟨rfl, rfl⟩⟩

theorem findsProcess_of_killSpec (hpids : Pids s.shared) (hforks : s.shared.forks < 2 ^ 31 - 1)
    (h : kill pid s = some (r, s')) (hspec : KillSpec pid s r s') : FindsProcess pid s := by
  intro q hq hunused
  have hzero : pid = 0 := (pid_of_firstWith hq).symm.trans (hpids.free q hunused)
  have hr : r = 0 := by
    rcases killScan_eq h with ⟨q', -, -, hr, -⟩ | ⟨hnone, -, -⟩
    · exact hr
    · cases hq.symm.trans hnone
  obtain ⟨p, hp, hpid⟩ := hspec.zero.mp hr
  have hrange := hpids.range hforks p hp
  omega

theorem step_of_kill [NeZero n] (h : kill pid s = some (r, s')) :
    (∃ q, (s.shared.proc q).pid = pid ∧ Step s (.kill q) s') ∨ s' = s := by
  have hpanic : s.panicked = none := by
    cases hp : s.panicked with
    | none => rfl
    | some x => cases x
  rcases killScan_eq h with ⟨q, hq, hown, -, rfl⟩ | ⟨-, -, rfl⟩
  · exact .inl ⟨q, pid_of_firstWith hq, by simp [Step, next, hpanic, hown]⟩
  · exact .inr rfl

end Calls

/-- The kill of this event, if it is one, hits a process and not a free slot. -/
def HitsProcess (s : Processes n) (e : KEvent (Fin n) Choice) : Prop :=
  ∀ q, e = .kill q → (s.shared.proc q).state ≠ .unused

/-- The flags of free slots are clear, and a process is killed only by a `kill` of its own
pid or by a fault. -/
def Deserved (t : Table n) : Prop :=
  ∀ x, (t.st x = .unused → (t.proc x).killed = false) ∧
    ((t.proc x).killed = true → (t.proc x).marked = true)

theorem Deserved.step [NeZero n] {s s' : Processes n} {e : KEvent (Fin n) Choice}
    (h : Deserved s.shared) (hlife : Lifecycle s) (hstep : Step s e s') (hhits : HitsProcess s e) :
    Deserved s'.shared := by
  intro x
  have hx := h x
  cases slotStep_of_step hstep x with
  | same eq => simpa [Table.st, eq] using hx
  | faulted user eq =>
    have hlive : (s.shared.proc x).state = .live :=
      hlife.related.thread x fun hdead => by simp [hdead, Control.inUser] at user
    simp [Table.st, eq, hlive]
  | killed ev eq => simp [Table.st, eq, hhits x ev]
  | reaped reaps => simp [Table.st, reaps.2.1, Proc.free]
  | reparented q status todo parent at_ eq => simpa [Table.st, eq] using hx
  | died status at_ eq => simpa [Table.st, eq] using hx.2
  | allocated unused forks eq =>
    have hclear : (s.shared.proc x).killed = false := hx.1 unused
    simp [Table.st, eq, hclear]
  | failed unused eq => simp [Table.st, eq, Proc.free]
  | adopted q pid at_ eq => simpa [Table.st, eq] using hx
  | published q pid at_ eq => simpa [Table.st, eq] using hx.2

/-- `kill` meets its specification exactly when it finds a process first; if every kill of a
run hits a process, then nobody has its flag set without a fault or a `kill` of its own pid
after its creation. -/
theorem kill_hits_target [NeZero n] {s : Processes n} (h : Reached s) :
    (∀ pid r s', kill pid s = some (r, s') →
      ((∃ q, (s.shared.proc q).pid = pid ∧ Step s (.kill q) s') ∨ s' = s) ∧
      (FindsProcess pid s → KillSpec pid s r s') ∧
      (s.shared.forks < 2 ^ 31 - 1 → KillSpec pid s r s' → FindsProcess pid s)) ∧
    (Reachable (fun s => s = boot n) (fun s e s' => Step s e s' ∧ HitsProcess s e) s →
      ∀ x, (s.shared.proc x).state ≠ .unused → (s.shared.proc x).killed = true →
        (s.shared.proc x).marked = true) := by
  refine ⟨fun pid r s' hkill => ⟨step_of_kill hkill, killSpec_of_findsProcess hkill,
    fun hforks => findsProcess_of_killSpec h.lifecycle.pids hforks hkill⟩, fun hreach x _ hx => ?_⟩
  have hinv : Lifecycle s ∧ Deserved s.shared := by
    refine hreach.invariant (I := fun s => Lifecycle s ∧ Deserved s.shared) ?_ ?_
    · rintro s rfl
      refine ⟨lifecycle_boot n, fun x => ?_⟩
      by_cases hx : x = 0 <;> simp [boot, Table.st, Proc.free, hx]
    · rintro s e s' ⟨hlife, hd⟩ ⟨hstep, hhits⟩
      exact ⟨hlife.step hstep, hd.step hlife hstep hhits⟩
  exact (hinv.2 x).2 hx

def hitsProcess (s : Processes n) : KEvent (Fin n) Choice → Bool
  | .kill q => (s.shared.proc q).state ≠ .unused
  | .step _ => true

theorem hitsProcess_iff (s : Processes n) (e : KEvent (Fin n) Choice)
    (h : hitsProcess s e = true) : HitsProcess s e := by
  rintro q rfl
  simpa [hitsProcess] using h

def forkChild : List (KEvent (Fin 2) Choice) :=
  [.step (.run 0 .start), .step (.run 0 .fork), .step (.run 0 (.next true)),
    .step (.run 0 (.next true)), .step (.acquire 0), .step (.move 0), .step (.run 0 (.next true))]

/-- A child with pid 2 is killed by its pid. -/
theorem kill_hits_target_child : ∃ s s' : Processes 2, Reached s ∧ kill 2 s = some (0, s') ∧
    KillSpec 2 s 0 s' ∧ (s.shared.proc 1).state = .live ∧
    ((s.shared.proc 1).killed = true → (s.shared.proc 1).marked = true) := by
  have hrun : (exec (fun s e => if hitsProcess s e then next (monitor 2) (flags 2) s e else none)
      (boot 2) forkChild).any (fun s => (firstWith 2 s = some 1 ∧
        (s.shared.proc 1).state = .live) ∧ (kill 2 s).any (fun x => x.1 = 0) = true) = true := by
    decide +kernel
  obtain ⟨s, hs, ⟨hfirst, hstate⟩, hkill⟩ := exists_of_any hrun
  obtain ⟨⟨r, s'⟩, hkill, rfl⟩ := exists_of_any hkill
  have hguarded : Run (fun s e s' => Step s e s' ∧ HitsProcess s e) (boot 2) forkChild s :=
    run_of_exec_if hitsProcess_iff hs
  have hreach : Reached s := ⟨_, _, rfl, hguarded.mono fun _ _ _ => And.left⟩
  have hfinds : FindsProcess 2 s := by
    intro q hq
    cases hfirst.symm.trans hq
    simp [hstate]
  obtain ⟨hcall, hflag⟩ := kill_hits_target hreach
  exact ⟨s, s', hreach, hkill, (hcall 2 0 s' hkill).2.1 hfinds, hstate,
    hflag ⟨_, _, rfl, hguarded⟩ 1 (by simp [hstate])⟩

/-- Right after boot, `kill(0)` reports success and marks a free slot; the child that
`initproc` forks next is killed although nobody called `kill` with its pid. -/
theorem child_born_killed : ∃ s s' : Processes 2, kill 0 (boot 2) = some (0, s) ∧
    (∀ q, ¬HasPid (boot 2) 0 q) ∧ Run Step s forkChild s' ∧ (s'.shared.proc 1).state = .live ∧
    (s'.shared.proc 1).killed = true ∧ (s'.shared.proc 1).marked = false := by
  have hrun : (kill 0 (boot 2)).any (fun x => x.1 = 0 ∧
      (exec (next (monitor 2) (flags 2)) x.2 forkChild).any (fun s' =>
        (s'.shared.proc 1).state = .live ∧ (s'.shared.proc 1).killed = true ∧
          (s'.shared.proc 1).marked = false) = true) = true := by
    decide +kernel
  obtain ⟨⟨r, s⟩, hkill, rfl, hexec⟩ := exists_of_any hrun
  obtain ⟨s', hs', hchild⟩ := (Option.any_eq_true _ _).mp hexec
  refine ⟨s, s', hkill, fun q hq => ?_, run_of_exec hs', of_decide_eq_true hchild⟩
  have hnone : ∀ q : Fin 2, ((boot 2).shared.proc q).state = .unused ∨
      ((boot 2).shared.proc q).pid ≠ 0 := by decide
  exact (hnone q).elim hq.1 fun hne => hne hq.2

end Xv6.Process
