import Xv6.PipeSleepers
import Xv6.ConsoleInput
import Xv6.ClockTicks
import Xv6.ProcessLifecycle

/-!
# Killed processes and sleep

The loops of `piperead`, `pipewrite`, `consoleread`, `sys_sleep` and `wait` look at `killed`
before they sleep. The look and the sleep are two critical sections of `p->lock`, and a
`kill` between them finds the victim awake: it sets the flag, wakes nobody, and the victim
goes to sleep. If no `kill` falls into this window, no killed process sleeps.
-/

namespace Xv6.KilledSleepers
open TransitionSystems SleepWakeupMonitors KillableMonitors

variable {n : ℕ}

/-- Between the look at `killed` and the `sleep` in `pipewrite` and `piperead`. -/
def pipeChecked : Pipes.Control → Prop
  | .writeSleep .. | .readSleep .. => True
  | _ => False

theorem pipe_checks (n : ℕ) : Checks (Pipes.monitor n) Pipes.flags pipeChecked where
  enter l l' h := by
    cases l <;> cases h <;> exact id
  move p l sh := by
    cases l with
    | write addr k i =>
      simp only [Pipes.monitor, Pipes.move, Pipes.writeRound]
      by_cases hi : i < k
      · rw [if_pos hi]
        split
        · exact fun _ => id
        · rename_i hdead
          have hclear : sh.killed p = false := by simpa using (not_or.mp hdead).2
          split
          · exact ⟨fun _ => .inr hclear, fun _ => rfl⟩
          · split <;> exact ⟨False.elim, fun _ => rfl⟩
      · rw [if_neg hi]
        exact ⟨False.elim, fun _ => rfl⟩
    | writeSleep addr k i => exact ⟨trivial, id⟩
    | read addr k =>
      simp only [Pipes.monitor, Pipes.move]
      split
      · split
        · exact fun _ => id
        · exact ⟨fun _ => .inr (Bool.eq_false_iff.mpr ‹_›), fun _ => rfl⟩
      · exact ⟨False.elim, fun _ => rfl⟩
    | readSleep addr k => exact ⟨trivial, id⟩
    | readCopy addr k i =>
      simp only [Pipes.monitor, Pipes.move, Pipes.readRound]
      split
      · split <;> exact ⟨False.elim, fun _ => rfl⟩
      · exact ⟨False.elim, fun _ => rfl⟩
    | close writable => cases writable <;> exact ⟨False.elim, fun _ => rfl⟩
    | writeDone i => exact fun _ => id
    | readDone addr k i => exact fun _ => id
    | closeDone => exact fun _ => id
    | _ => exact ⟨False.elim, fun _ => rfl⟩
  run p k l sh l' sh' h q _ := by
    rw [Pipes.run_shared h]
    exact id
  kill q sh p hp := by simp [Pipes.flags, hp]

/-- Between the look at `killed` and the `sleep` in `consoleread`. -/
def consoleChecked : Console.Control → Prop
  | .readSleep .. => True
  | _ => False

theorem console_checks (n : ℕ) : Checks (Console.monitor n) Console.flags consoleChecked where
  enter l l' h := by
    cases l <;> cases h <;> exact id
  move p l sh := by
    cases l with
    | read dst target k =>
      simp only [Console.monitor, Console.move]
      split
      · split
        · split
          · exact fun _ => id
          · exact ⟨fun _ => .inr (Bool.eq_false_iff.mpr ‹_›), fun _ => rfl⟩
        · simp only [Console.readRound]
          repeat' split
          all_goals first | exact fun _ => id | exact ⟨False.elim, fun _ => rfl⟩
      · exact fun _ => id
    | readSleep dst target k => exact ⟨trivial, id⟩
    | intr c =>
      simp only [Console.monitor, Console.move, Console.store]
      repeat' split
      all_goals first | exact fun _ => id | exact ⟨False.elim, fun _ => rfl⟩
    | killLine =>
      simp only [Console.monitor, Console.move]
      split <;> exact ⟨False.elim, fun _ => rfl⟩
    | intrDone => exact fun _ => id
    | _ => exact ⟨False.elim, fun _ => rfl⟩
  run p k l sh l' sh' h q _ := by
    cases l <;> cases k <;> cases h <;> exact id
  kill q sh p hp := by simp [Console.flags, hp]

/-- Between the look at `killed` and the `sleep` in `sys_sleep`. -/
def clockChecked : Clock.Control → Prop
  | .loopSleep .. => True
  | _ => False

theorem clock_checks (n : ℕ) : Checks (Clock.monitor n) Clock.flags clockChecked where
  enter l l' h := by
    cases l <;> cases h <;> exact id
  move p l sh := by
    cases l with
    | loop k ticks0 =>
      simp only [Clock.monitor, Clock.move]
      split
      · split
        · exact fun _ => id
        · exact ⟨fun _ => .inr (Bool.eq_false_iff.mpr ‹_›), fun _ => rfl⟩
      · exact fun _ => id
    | loopSleep k ticks0 => exact ⟨trivial, id⟩
    | intrDone => exact fun _ => id
    | _ => exact ⟨False.elim, fun _ => rfl⟩
  run p k l sh l' sh' h q _ := by
    cases l <;> cases k <;> cases h <;> exact id
  kill q sh p hp := by simp [Clock.flags, hp]

/-- Between the look at `killed` and the `sleep` in `wait`. -/
def waitChecked : Process.Control n → Prop
  | .waitSleep _ => True
  | _ => False

theorem killed_modify (t : Process.Table n) (x : Fin n) {f : Process.Proc n → Process.Proc n}
    (h : (f (t.proc x)).killed = (t.proc x).killed) (q : Fin n) :
    (Process.flags n).killed (t.modify x f) q = (Process.flags n).killed t q := by
  by_cases hq : q = x
  · subst hq
    simpa [Process.flags] using h
  · simp [Process.flags, t.modify_ne hq]

theorem killed_free (t : Process.Table n) (x q : Fin n)
    (h : (Process.flags n).killed (t.modify x fun _ => .free n) q = true) :
    (Process.flags n).killed t q = true := by
  by_cases hq : q = x
  · subst hq
    simp [Process.flags, Process.Proc.free] at h
  · simpa [Process.flags, t.modify_ne hq] using h

theorem wait_checks (n : ℕ) [NeZero n] :
    Checks (Process.monitor n) (Process.flags n) waitChecked where
  enter l l' h := by
    cases l <;> cases h <;> exact id
  move p l t := by
    cases l with
    | adopt np pid => exact fun q hq => (killed_modify t np rfl q).symm.trans hq
    | reparent status todo =>
      cases todo with
      | nil => exact ⟨False.elim, fun _ => rfl⟩
      | cons x todo =>
        simp only [Process.monitor, Process.move]
        split
        · exact ⟨False.elim, killed_modify t x rfl⟩
        · exact ⟨False.elim, fun _ => rfl⟩
    | die status =>
      intro q hq
      have hsame := killed_modify t p (f := fun q => { q with xstate := status, state := .zombie })
        rfl q
      exact hsame.symm.trans hq
    | waitScan addr havekids todo =>
      cases todo with
      | nil =>
        cases havekids with
        | false => exact fun _ => id
        | true => exact ⟨False.elim, fun _ => rfl⟩
      | cons x todo =>
        simp only [Process.monitor, Process.move]
        split
        · split
          · split
            · exact fun _ => id
            · exact killed_free t x
          · exact ⟨False.elim, fun _ => rfl⟩
        · exact ⟨False.elim, fun _ => rfl⟩
    | waitKilled addr =>
      simp only [Process.monitor, Process.move]
      split
      · exact fun _ => id
      · exact ⟨fun _ => .inr (Bool.eq_false_iff.mpr ‹_›), fun _ => rfl⟩
    | waitSleep addr => exact ⟨trivial, id⟩
    | _ => exact ⟨False.elim, fun _ => rfl⟩
  run p k l t l' t' h q hq := by
    cases Process.ran_of_run h with
    | fault l user =>
      intro hk
      simpa [Process.flags, t.modify_ne hq] using hk
    | alloc x todo unused =>
      intro hk
      by_cases hx : q = x <;>
        simpa [Process.flags, Process.Table.allocproc, Process.Table.modify, hx] using hk
    | fail x todo unused => exact killed_free t x q
    | publish np pid => exact fun hk => (killed_modify t np rfl q).symm.trans hk
    | _ => exact id
  kill q t p hp := by simp [Process.flags, t.modify_ne hp]

/-- In every run of the users of a pipe, of the console, of the clock and of `wait` in which
no `kill` falls between a process's look at `killed` and its `sleep`, no killed process is
`SLEEPING`. -/
theorem killed_not_asleep (n : ℕ) [NeZero n] :
    (∀ s : Pipes.PipeUsers n, Reachable Pipes.Initial
        (fun s e t => Pipes.Step s e t ∧ OutsideWindow pipeChecked s e) s →
      ∀ p c l, s.phase p = .asleep c l → s.shared.killed p = false) ∧
    (∀ s : Console.ConsoleUsers n, Reachable Console.Initial
        (fun s e t => Console.Step s e t ∧ OutsideWindow consoleChecked s e) s →
      ∀ p c l, s.phase p = .asleep c l → s.shared.killed p = false) ∧
    (∀ s : Clock.ClockUsers n, Reachable Clock.Initial
        (fun s e t => Clock.Step s e t ∧ OutsideWindow clockChecked s e) s →
      ∀ p c l, s.phase p = .asleep c l → s.shared.killed p = false) ∧
    (∀ s : Process.Processes n, Reachable (fun s => s = Process.boot n)
        (fun s e t => Process.Step s e t ∧ OutsideWindow waitChecked s e) s →
      ∀ p c l, s.phase p = .asleep c l → (s.shared.proc p).killed = false) := by
  refine ⟨fun s h p c l hp => ?_, fun s h p c l hp => ?_, fun s h p c l hp => ?_,
    fun s h p c l hp => ?_⟩
  · exact not_killed_of_asleep (pipe_checks n) (fun s hs => ⟨_, hs.phase⟩) h hp
  · exact not_killed_of_asleep (console_checks n) (fun s hs => ⟨_, hs.phase⟩) h hp
  · exact not_killed_of_asleep (clock_checks n) (fun s hs => ⟨_, hs.phase⟩) h hp
  · exact not_killed_of_asleep (wait_checks n) (by rintro s rfl; exact ⟨_, fun _ => rfl⟩) h hp

/-- Only processes that are asleep are killed, so none in the window. -/
def killsAsleep {P C L S E K : Type*} (s : State P C L S E) : KEvent P K → Bool
  | .kill q => match s.phase q with
    | .asleep .. => true
    | _ => false
  | .step _ => true

theorem outsideWindow_of_killsAsleep {P C L S E K : Type*} {checked : L → Prop}
    (s : State P C L S E) (e : KEvent P K) (h : killsAsleep s e = true) :
    OutsideWindow checked s e := by
  cases e with
  | kill q =>
    simp only [killsAsleep] at h
    split at h
    · rename_i hq
      rw [OutsideWindow, hq]
      exact id
    · cases h
  | step e => trivial

/-- Two readers sleep on the empty pipe, and the first one is killed. It is not asleep any more,
and the other one was not killed. -/
theorem killed_not_asleep_twoReaders : ∃ (s : Pipes.PipeUsers 2) (l : Pipes.Control),
    Reachable Pipes.Initial (fun s e t => Pipes.Step s e t ∧ OutsideWindow pipeChecked s e) s ∧
      s.shared.killed 0 = true ∧ s.phase 1 = .asleep .nread l ∧ s.shared.killed 1 = false ∧
      ∀ c l, s.phase 0 ≠ .asleep c l := by
  have hrun : (exec (fun s e =>
      if killsAsleep s e then next (Pipes.monitor 2) Pipes.flags s e else none)
      (Pipes.emptyPipe 2) (Pipes.sleepyReader 0 ++ Pipes.sleepyReader 1 ++ [.kill 0])).any
        (fun s => s.shared.killed 0 = true ∧ Pipes.asleepOn .nread s 1 = true) = true := by
    decide +kernel
  obtain ⟨s, hs, hkilled, hasleep⟩ := exists_of_any hrun
  obtain ⟨l, hl⟩ := Pipes.asleep_of_asleepOn hasleep
  have hreach : Reachable Pipes.Initial
      (fun s e t => Pipes.Step s e t ∧ OutsideWindow pipeChecked s e) s :=
    ⟨_, _, Pipes.initial_emptyPipe 2, run_of_exec_if outsideWindow_of_killsAsleep hs⟩
  have hclear := (killed_not_asleep 2).1 s hreach
  refine ⟨s, l, hreach, hkilled, hl, hclear 1 _ l hl, fun c l h0 => ?_⟩
  rw [hclear 0 c l h0] at hkilled
  cases hkilled

/-- A reader of an empty pipe is killed after it found `killed` clear and before it
sleeps. -/
def killInWindow : List (KEvent (Fin 1) Pipes.Choice) :=
  [.step (.run 0 (.read (fun _ => true) 1)), .step (.acquire 0), .step (.move 0), .kill 0,
    .step (.move 0), .step (.park 0), .step (.doze 0)]

/-- The reader is asleep and killed. -/
theorem killed_reader_asleep : ∃ (s : Pipes.PipeUsers 1) (l : Pipes.Control),
    Reachable Pipes.Initial Pipes.Step s ∧ s.phase 0 = .asleep .nread l ∧
      s.shared.killed 0 = true := by
  have hrun : (exec (next (Pipes.monitor 1) Pipes.flags) (Pipes.emptyPipe 1) killInWindow).any
      (fun s => Pipes.asleepOn .nread s 0 = true ∧ s.shared.killed 0 = true) = true := by
    decide +kernel
  obtain ⟨s, hs, hasleep, hkilled⟩ := exists_of_any hrun
  obtain ⟨l, hl⟩ := Pipes.asleep_of_asleepOn hasleep
  exact ⟨s, l, ⟨_, _, Pipes.initial_emptyPipe 1, run_of_exec hs⟩, hl, hkilled⟩

end Xv6.KilledSleepers
