import Xv6.Pipes

/-!
# Who sleeps on a pipe

Readers sleep while the pipe is empty and its write end open, writers while it is full and its
read end open. `pipewrite` announces the bytes it stored only when it fills the pipe or ends its
loop; a writer that finds itself killed in between returns without a wakeup.
-/

namespace Xv6.Pipes
open TransitionSystems SleepWakeupMonitors KillableMonitors MonitorAssertions

variable {P : Type}

def Quiet (sh : Shared P) : Prop := sh.stored = false ∧ sh.taken = false

/-- What the lock's holder knows about wakeups it still owes and about its sleep. -/
def SleepAssertion (sh : Shared P) : Control → Prop
  | .write _ _ _ => sh.taken = false ∧ (sh.stored = true → sh.pipe.readopen = true)
  | .writeSleep _ _ _ => Quiet sh ∧ sh.pipe.full = true ∧ sh.pipe.readopen = true
  | .readSleep _ _ => Quiet sh ∧ sh.pipe.empty = true ∧ sh.pipe.writeopen = true
  | .readCopy _ _ _ => sh.stored = false
  | _ => Quiet sh

/-- A writer that stored bytes is not found killed before it has announced them. -/
def Announces (p : P) (l : Control) (sh : Shared P) : Prop :=
  ∀ addr n i, l = .write addr n i → i < n → sh.stored = true → sh.killed p = false

/-- What keeps the sleepers of a channel asleep: the condition of their loop, or a wakeup
that the lock's holder owes. -/
def Blocked : Chan → Shared P → Prop
  | .nread, sh => (sh.pipe.empty = true ∧ sh.pipe.writeopen = true) ∨ sh.stored = true
  | .nwrite, sh => (sh.pipe.full = true ∧ sh.pipe.readopen = true) ∨ sh.taken = true

abbrev QuietOk (sh : Shared P) : Move Chan Control (Shared P) Empty → Prop :=
  MoveOk Quiet (fun l sh => SleepAssertion sh l) sh

section Moves

variable {p : P} {addr : Source} {addr' : Target} {n : ℤ} {i : ℕ} {dead : Bool} {l : Control}
  {sh : Shared P}

theorem writeRound_quiet (h : SleepAssertion sh (.write addr n i))
    (hdead : i < n → sh.stored = true → dead = false) :
    QuietOk sh (writeRound addr n i dead sh) := by
  obtain ⟨htaken, hopen⟩ := h
  unfold writeRound
  by_cases hi : i < n
  · rw [if_pos hi]
    by_cases hexit : sh.pipe.readopen = false ∨ dead
    · rw [if_pos hexit]
      refine ⟨?_, htaken⟩
      by_contra hne
      have hstored : sh.stored = true := by simpa using hne
      rw [hopen hstored, hdead hi hstored] at hexit
      simp at hexit
    rw [if_neg hexit]
    have hro : sh.pipe.readopen = true := by
      simpa using (not_or.mp hexit).1
    by_cases hfull : sh.pipe.full
    · rw [if_pos hfull]
      exact ⟨⟨rfl, htaken⟩, hfull, hro⟩
    rw [if_neg hfull]
    cases addr i with
    | none => exact ⟨rfl, htaken⟩
    | some ch => exact ⟨htaken, fun _ => hro⟩
  · rw [if_neg hi]
    exact ⟨rfl, htaken⟩

theorem readRound_quiet (h : sh.stored = false) : QuietOk sh (readRound addr' n i sh) := by
  unfold readRound
  by_cases hgo : i < n ∧ sh.pipe.empty = false
  · rw [if_pos hgo]
    by_cases haddr : addr' i
    · simp only [haddr, if_true]
      exact h
    · simp only [haddr]
      exact ⟨h, rfl⟩
  · rw [if_neg hgo]
    exact ⟨h, rfl⟩

theorem move_quiet (hann : Announces p l sh) (h : SleepAssertion sh l) :
    QuietOk sh (move p l sh) := by
  cases l with
  | write addr n i => exact writeRound_quiet h (hann addr n i rfl)
  | writeSleep addr n i => exact ⟨h.1, fun _ hq => ⟨hq.2, fun hs => by simp [hq.1] at hs⟩⟩
  | read addr n =>
    simp only [move]
    by_cases hwait : sh.pipe.empty ∧ sh.pipe.writeopen
    · rw [if_pos hwait]
      by_cases hdead : sh.killed p
      · rw [if_pos hdead]
        exact h
      · rw [if_neg hdead]
        exact ⟨h, hwait.1, hwait.2⟩
    · rw [if_neg hwait]
      exact h.1
  | readSleep addr n => exact ⟨h.1, fun _ hq => hq⟩
  | readCopy addr n i => exact readRound_quiet h
  | close writable =>
    cases writable with
    | true => exact ⟨rfl, h.2⟩
    | false => exact ⟨h.1, rfl⟩
  | _ => exact h

theorem writeRound_wakes (h : SleepAssertion sh (.write addr n i)) :
    MoveWakes Blocked sh (writeRound addr n i dead sh) := by
  have hother : ∀ c, c ≠ Chan.nread → Blocked c sh → Blocked c { sh with stored := false } := by
    intro c hc hb
    cases c with
    | nread => exact absurd rfl hc
    | nwrite => exact hb
  unfold writeRound
  by_cases hi : i < n
  · rw [if_pos hi]
    by_cases hexit : sh.pipe.readopen = false ∨ dead
    · rw [if_pos hexit]
      exact fun _ => id
    rw [if_neg hexit]
    by_cases hfull : sh.pipe.full
    · rw [if_pos hfull]
      exact hother
    rw [if_neg hfull]
    cases addr i with
    | none => exact hother
    | some ch =>
      intro c hb
      cases c with
      | nread => exact .inr rfl
      | nwrite =>
        rcases hb with hb | htaken
        · exact absurd hb.1 hfull
        · rw [h.1] at htaken
          cases htaken
  · rw [if_neg hi]
    exact hother

theorem readRound_wakes (h : sh.stored = false) :
    MoveWakes Blocked sh (readRound addr' n i sh) := by
  unfold readRound
  by_cases hgo : i < n ∧ sh.pipe.empty = false
  · rw [if_pos hgo]
    have hnread : ¬Blocked .nread sh := by
      rintro (hb | hstored)
      · rw [hgo.2] at hb
        cases hb.1
      · rw [h] at hstored
        cases hstored
    by_cases haddr : addr' i
    · simp only [haddr, if_true]
      intro c hb
      cases c with
      | nread => exact absurd hb hnread
      | nwrite => exact .inr rfl
    · simp only [haddr]
      intro c hc hb
      cases c with
      | nread => exact absurd hb hnread
      | nwrite => exact absurd rfl hc
  · rw [if_neg hgo]
    intro c hc hb
    cases c with
    | nread => exact hb
    | nwrite => exact absurd rfl hc

theorem move_wakes (h : SleepAssertion sh l) : MoveWakes Blocked sh (move p l sh) := by
  cases l with
  | write addr n i => exact writeRound_wakes h
  | writeSleep addr n i => exact .inl h.2
  | read addr n =>
    simp only [move]
    split
    · split <;> exact fun _ => id
    · exact fun _ => id
  | readSleep addr n => exact .inl h.2
  | readCopy addr n i => exact readRound_wakes h
  | close writable =>
    cases writable with
    | true =>
      intro c hc hb
      cases c with
      | nread => exact absurd rfl hc
      | nwrite => exact hb
    | false =>
      intro c hc hb
      cases c with
      | nread => exact hb
      | nwrite => exact absurd rfl hc
  | _ => exact fun _ => id

end Moves

theorem annotation_quiet (n : ℕ) :
    Annotation (monitor n) flags Announces (fun _ l sh => SleepAssertion sh l) Quiet where
  enter p l l' sh hl h := by
    rcases enter_cases hl with ⟨_, _, _, rfl⟩ | ⟨_, _, rfl⟩ | ⟨_, rfl⟩
    · exact ⟨h.2, fun hs => by simp [h.1] at hs⟩
    · exact h
    · exact h
  move p l sh hG h := move_quiet hG h
  run p k l sh l' sh' hr := by
    obtain rfl := run_shared hr
    exact ⟨id, fun _ _ => id⟩
  kill q sh := ⟨id, fun p l h => by cases l <;> exact h⟩

theorem wakesUp (n : ℕ) :
    WakesUp (monitor n) (Annotated Quiet fun _ l sh => SleepAssertion sh l) Blocked :=
  wakesUp_of_moves List.mem_finRange (fun _ _ _ h hl => move_wakes (h.inside hl))
    fun _ _ _ _ _ _ hr c => by
      obtain rfl := run_shared hr
      exact id

/-- In every run in which no writer finds itself killed between storing a byte and the
wakeup that announces it: while `pi->lock` is free, a process asleep on `&pi->nread` means
that the pipe is empty and its write end open, and a process asleep on `&pi->nwrite` that
it is full and its read end open. -/
theorem no_stuck_pipe_sleeper {n : ℕ} {s : PipeUsers n}
    (h : Reachable Initial (fun s e t => Step s e t ∧ Guarded Announces s e) s)
    (hfree : s.lock = none) (p : Fin n) (l : Control) :
    (s.phase p = .asleep .nread l →
        s.shared.pipe.empty = true ∧ s.shared.pipe.writeopen = true) ∧
      (s.phase p = .asleep .nwrite l →
        s.shared.pipe.full = true ∧ s.shared.pipe.readopen = true) := by
  obtain ⟨hann, hlost⟩ : Annotated Quiet (fun _ l sh => SleepAssertion sh l) s ∧
      NoLostWakeup Blocked s := by
    refine h.invariant (I := fun s => Annotated Quiet (fun _ l sh => SleepAssertion sh l) s ∧
      NoLostWakeup Blocked s) (fun s hi => ⟨hi.annotated ⟨hi.stored, hi.taken⟩, ?_⟩) ?_
    · intro q c hq
      simp [hi.phase q, Phase.waitsOn] at hq
    · rintro s e t ⟨hann, hlost⟩ ⟨hn, hG⟩
      refine ⟨hann.next (annotation_quiet n) hn hG, ?_⟩
      exact noLostWakeup_next (wakesUp n) (fun q c sh hb => by cases c <;> exact hb) hann hlost hn
  have hquiet := hann.free hfree
  constructor
  · intro hp
    have hb : Blocked .nread s.shared := hlost.blocked hann.lock hfree (by rw [hp]; rfl)
    refine hb.resolve_right ?_
    simp [hquiet.1]
  · intro hp
    have hb : Blocked .nwrite s.shared := hlost.blocked hann.lock hfree (by rw [hp]; rfl)
    refine hb.resolve_right ?_
    simp [hquiet.2]

def moverAlive {n : ℕ} (s : PipeUsers n) : KEvent (Fin n) Choice → Bool
  | .step (.move p) => !s.shared.killed p
  | _ => true

theorem guarded_of_moverAlive {n : ℕ} (s : PipeUsers n) (e : KEvent (Fin n) Choice)
    (h : moverAlive s e = true) : Guarded Announces s e := by
  rintro p l rfl hl addr k i rfl hi hstored
  simpa [moverAlive] using h

def sleepyReader {n : ℕ} (p : Fin n) : List (KEvent (Fin n) Choice) :=
  [.step (.run p (.read (fun _ => true) 1)), .step (.acquire p), .step (.move p),
    .step (.move p), .step (.park p), .step (.doze p)]

def asleepOn {n : ℕ} (c : Chan) (s : PipeUsers n) (p : Fin n) : Bool :=
  match s.phase p with
  | .asleep c' _ => c' = c
  | _ => false

theorem asleep_of_asleepOn {n : ℕ} {c : Chan} {s : PipeUsers n} {p : Fin n}
    (h : asleepOn c s p = true) : ∃ l, s.phase p = .asleep c l := by
  unfold asleepOn at h
  split at h
  · rename_i c' l hl
    obtain rfl := of_decide_eq_true h
    exact ⟨l, hl⟩
  · cases h

/-- A reader sleeps on the empty pipe. A writer fills the pipe, wakes up the reader, and sleeps. -/
def sleepyWriter : List (KEvent (Fin 2) Choice) :=
  sleepyReader 0 ++ [.step (.run 1 (.write (fun _ => some 65) 513)), .step (.acquire 1)] ++
    List.replicate 513 (.step (.move 1)) ++
    [.step (.visit 1), .step (.visit 1), .step (.move 1), .step (.park 1), .step (.doze 1)]

theorem no_stuck_pipe_sleeper_sleepyWriter : ∃ (s : PipeUsers 2) (l : Control),
    Reachable Initial (fun s e t => Step s e t ∧ Guarded Announces s e) s ∧ s.lock = none ∧
      s.phase 1 = .asleep .nwrite l ∧
      s.shared.pipe.full = true ∧ s.shared.pipe.readopen = true := by
  have hrun : (exec (fun s e => if moverAlive s e then next (monitor 2) flags s e else none)
      (emptyPipe 2) sleepyWriter).any
        (fun s => s.lock = none ∧ asleepOn .nwrite s 1 = true) = true := by
    decide +kernel
  obtain ⟨s, hs, hlock, hasleep⟩ := exists_of_any hrun
  obtain ⟨l, hl⟩ := asleep_of_asleepOn hasleep
  have hreach : Reachable Initial (fun s e t => Step s e t ∧ Guarded Announces s e) s :=
    ⟨_, _, initial_emptyPipe 2, run_of_exec_if guarded_of_moverAlive hs⟩
  exact ⟨s, l, hreach, hlock, hl, (no_stuck_pipe_sleeper hreach hlock 1 l).2 hl⟩

/-- A reader sleeps on the empty pipe; a writer stores one byte of two, is killed, and
returns. -/
def killedWriter : List (KEvent (Fin 2) Choice) :=
  sleepyReader 0 ++
    [.step (.run 1 (.write (fun _ => some 65) 2)), .step (.acquire 1), .step (.move 1),
      .kill 1, .step (.move 1)]

/-- The reader is left asleep although `pi->lock` is free and the pipe holds a byte. -/
theorem reader_stuck_after_killed_writer : ∃ (s : PipeUsers 2) (l : Control),
    Reachable Initial Step s ∧ s.lock = none ∧ s.shared.pipe.empty = false ∧
      s.phase 0 = .asleep .nread l := by
  have hrun : (exec (next (monitor 2) flags) (emptyPipe 2) killedWriter).any (fun s =>
      s.lock = none ∧ s.shared.pipe.empty = false ∧ asleepOn .nread s 0 = true) = true := by
    decide +kernel
  obtain ⟨s, hs, hlock, hempty, hasleep⟩ := exists_of_any hrun
  obtain ⟨l, hl⟩ := asleep_of_asleepOn hasleep
  exact ⟨s, l, ⟨_, _, initial_emptyPipe 2, run_of_exec hs⟩, hlock, hempty, hl⟩

end Xv6.Pipes
