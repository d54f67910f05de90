import Xv6.KernelParameters
import Xv6.MonitorAssertions
import Xv6.RingBuffers
import Mathlib.Data.List.FinRange
import Mathlib.Data.List.Infix

/-!
# Pipes

`pipewrite`, `piperead` and `pipeclose` of `pipe.c` as a monitor guarded by `pi->lock`, used by
any number of processes. User memory is part of a call's arguments: for each byte of the buffer,
what `copyin` fetches or whether `copyout` succeeds.
-/

namespace Xv6.Pipes
open TransitionSystems SleepWakeupMonitors KillableMonitors MonitorAssertions RingBuffers

structure Pipe where
  data : Fin pipeSize → UInt8
  nread : UInt32
  nwrite : UInt32
  readopen : Bool
  writeopen : Bool

namespace Pipe

def empty (pi : Pipe) : Bool := pi.nread = pi.nwrite

def full (pi : Pipe) : Bool := pi.nwrite = pi.nread + UInt32.ofNat pipeSize

/-- `pi->data[pi->nwrite++ % PIPESIZE] = ch`. -/
def put (pi : Pipe) (ch : UInt8) : Pipe :=
  { pi with
    data := Function.update pi.data (Fin.ofNat pipeSize pi.nwrite.toNat) ch
    nwrite := pi.nwrite + 1 }

/-- The byte `pi->data[pi->nread % PIPESIZE]`. -/
def front (pi : Pipe) : UInt8 := pi.data (Fin.ofNat pipeSize pi.nread.toNat)

def drop (pi : Pipe) : Pipe := { pi with nread := pi.nread + 1 }

end Pipe

/-- The pipe and the `killed` flags of its users, and the history: the bytes accepted from
writers and those removed by readers, and whether bytes were stored or removed since the
last wakeup of the readers or writers. -/
structure Shared (P : Type) where
  pipe : Pipe
  killed : P → Bool
  accepted : List UInt8
  removed : List UInt8
  stored : Bool
  taken : Bool

inductive Chan where
  | nread
  | nwrite
  deriving DecidableEq, Repr

abbrev Source := ℕ → Option UInt8

abbrev Target := ℕ → Bool

inductive Control where
  | idle
  /-- the head of the loop of `pipewrite` -/
  | write (addr : Source) (n : ℤ) (i : ℕ)
  /-- in front of the `sleep` of `pipewrite` -/
  | writeSleep (addr : Source) (n : ℤ) (i : ℕ)
  /-- in front of the last `release` of `pipewrite` -/
  | writeDone (i : ℕ)
  /-- the head of the first loop of `piperead` -/
  | read (addr : Target) (n : ℤ)
  /-- in front of the `sleep` of `piperead` -/
  | readSleep (addr : Target) (n : ℤ)
  /-- the head of the second loop of `piperead` -/
  | readCopy (addr : Target) (n : ℤ) (i : ℕ)
  /-- in front of the last `release` of `piperead` -/
  | readDone (addr : Target) (n : ℤ) (i : ℕ)
  | close (writable : Bool)
  /-- in front of the `release` of `pipeclose` -/
  | closeDone
  | wrote (r : ℤ)
  | didRead (addr : Target) (n : ℤ) (r : ℤ)

inductive Choice where
  | write (addr : Source) (n : ℤ)
  | read (addr : Target) (n : ℤ)
  | close (writable : Bool)

variable {P : Type}

/-- The points at which a process waits for `pi->lock`. -/
def enter : Control → Option Control
  | .write addr n i => some (.write addr n i)
  | .read addr n => some (.read addr n)
  | .close writable => some (.close writable)
  | _ => none

def writeRound (addr : Source) (n : ℤ) (i : ℕ) (dead : Bool) (sh : Shared P) :
    Move Chan Control (Shared P) Empty :=
  if i < n then
    if sh.pipe.readopen = false ∨ dead then
      .release (.wrote (-1)) sh
    else if sh.pipe.full then
      .wakeup .nread (.writeSleep addr n i) { sh with stored := false }
    else
      match addr i with
      | none => .wakeup .nread (.writeDone i) { sh with stored := false }
      | some ch => .stay (.write addr n (i + 1)) { sh with
          pipe := sh.pipe.put ch
          accepted := sh.accepted ++ [ch]
          stored := true }
  else
    .wakeup .nread (.writeDone i) { sh with stored := false }

def readRound (addr : Target) (n : ℤ) (i : ℕ) (sh : Shared P) :
    Move Chan Control (Shared P) Empty :=
  if i < n ∧ sh.pipe.empty = false then
    let sh' := { sh with
      pipe := sh.pipe.drop
      removed := sh.removed ++ [sh.pipe.front] }
    if addr i then
      .stay (.readCopy addr n (i + 1)) { sh' with taken := true }
    else
      .wakeup .nwrite (.readDone addr n i) { sh' with taken := false }
  else
    .wakeup .nwrite (.readDone addr n i) { sh with taken := false }

def move (p : P) (l : Control) (sh : Shared P) : Move Chan Control (Shared P) Empty :=
  match l with
  | .write addr n i => writeRound addr n i (sh.killed p) sh
  | .writeSleep addr n i => .sleep .nwrite (.write addr n i)
  | .writeDone i => .release (.wrote i) sh
  | .read addr n =>
    if sh.pipe.empty ∧ sh.pipe.writeopen then
      if sh.killed p then .release (.didRead addr n (-1)) sh else .stay (.readSleep addr n) sh
    else
      .stay (.readCopy addr n 0) sh
  | .readSleep addr n => .sleep .nread (.read addr n)
  | .readCopy addr n i => readRound addr n i sh
  | .readDone addr n i => .release (.didRead addr n i) sh
  | .close true =>
    .wakeup .nread .closeDone { sh with
      pipe := { sh.pipe with writeopen := false }
      stored := false }
  | .close false =>
    .wakeup .nwrite .closeDone { sh with
      pipe := { sh.pipe with readopen := false }
      taken := false }
  | .closeDone => .release .idle sh
  | l => .stay l sh

def run : Choice → Control → Shared P → Option (Control × Shared P)
  | k, .idle, sh | k, .wrote _, sh | k, .didRead _ _ _, sh =>
    match k with
    | .write addr n => some (.write addr n 0, sh)
    | .read addr n => some (.read addr n, sh)
    | .close writable => some (.close writable, sh)
  | _, _, _ => none

def monitor (n : ℕ) : Monitor (Fin n) Chan Control (Shared (Fin n)) Empty Choice where
  procs := List.finRange n
  enter := enter
  move := move
  run _ := run

def flags [DecidableEq P] : Flags P (Shared P) where
  killed sh p := sh.killed p
  kill q sh := { sh with killed := Function.update sh.killed q true }

abbrev PipeUsers (n : ℕ) := State (Fin n) Chan Control (Shared (Fin n)) Empty

/-- A pipe as `pipealloc` leaves it, on a page with any contents, and nobody using it. -/
structure Initial {n : ℕ} (s : PipeUsers n) : Prop where
  nread : s.shared.pipe.nread = 0
  nwrite : s.shared.pipe.nwrite = 0
  readopen : s.shared.pipe.readopen = true
  writeopen : s.shared.pipe.writeopen = true
  accepted : s.shared.accepted = []
  removed : s.shared.removed = []
  stored : s.shared.stored = false
  taken : s.shared.taken = false
  lock : s.lock = none
  phase : ∀ p, s.phase p = .outside .idle
  panicked : s.panicked = none

def Step {n : ℕ} (s : PipeUsers n) (e : KEvent (Fin n) Choice) (t : PipeUsers n) : Prop :=
  next (monitor n) flags s e = some t

theorem Initial.annotated {n : ℕ} {s : PipeUsers n} (h : Initial s) {J : Shared (Fin n) → Prop}
    {A : Fin n → Control → Shared (Fin n) → Prop} (hJ : J s.shared) : Annotated J A s where
  lock p := by simp [h.lock, h.phase p, Phase.holds]
  free _ := hJ
  promise p := by
    rw [h.phase p]
    trivial

/-- The pipe holds the bytes `q`, oldest first. -/
def Pipe.Holds (pi : Pipe) (q : List UInt8) : Prop :=
  RingBuffers.Holds (2 ^ 32) pi.data pi.nread.toNat pi.nwrite.toNat q

variable {pi : Pipe} {q : List UInt8}

theorem Pipe.Holds.empty_iff (h : pi.Holds q) : pi.empty = true ↔ q = [] := by
  rw [← RingBuffers.Holds.eq_iff h (by decide)]
  simp [Pipe.empty, UInt32.toNat_inj]

theorem Pipe.Holds.full_iff (h : pi.Holds q) : pi.full = true ↔ q.length = pipeSize := by
  rw [← RingBuffers.Holds.full_iff h (by decide)]
  simp [Pipe.full, ← UInt32.toNat_inj, UInt32.toNat_add, pipeSize]

theorem Pipe.Holds.sub_toNat (h : pi.Holds q) : (pi.nwrite - pi.nread).toNat = q.length := by
  rw [← RingBuffers.Holds.sub_mod h (by decide), UInt32.toNat_sub, Nat.add_comm]

theorem Pipe.Holds.put (h : pi.Holds q) (hfull : pi.full = false) (ch : UInt8) :
    (pi.put ch).Holds (q ++ [ch]) := by
  have hroom : q.length < pipeSize := by
    refine lt_of_le_of_ne h.length_le fun hlen => ?_
    rw [h.full_iff.mpr hlen] at hfull
    cases hfull
  simpa [Pipe.Holds, Pipe.put, UInt32.toNat_add] using
    RingBuffers.Holds.put h (by decide) hroom ch

theorem Pipe.Holds.drop {x : UInt8} (h : pi.Holds (x :: q)) : pi.drop.Holds q := by
  simpa [Pipe.Holds, Pipe.drop, UInt32.toNat_add] using RingBuffers.Holds.take h (by decide)

def Fifo (sh : Shared P) : Prop :=
  ∃ q, sh.pipe.Holds q ∧ sh.accepted = sh.removed ++ q

/-- What the lock's holder knows on the way to the result of `piperead`: a reader that has
copied nothing yet sees bytes or a closed write end. -/
def ReadAssertion (sh : Shared P) : Control → Prop
  | .readCopy _ _ i => i = 0 → sh.pipe.empty = true → sh.pipe.writeopen = false
  | .readDone addr n i => i = 0 → 0 < n → addr 0 = true →
      sh.pipe.empty = true ∧ sh.pipe.writeopen = false
  | _ => True

variable {sh : Shared P}

theorem Fifo.put (h : Fifo sh) (hfull : sh.pipe.full = false) (ch : UInt8) :
    Fifo { sh with pipe := sh.pipe.put ch, accepted := sh.accepted ++ [ch], stored := true } := by
  obtain ⟨q, hq, hacc⟩ := h
  exact ⟨q ++ [ch], hq.put hfull ch, by simp [hacc]⟩

theorem Fifo.drop (h : Fifo sh) (hempty : sh.pipe.empty = false) (taken : Bool) : Fifo { sh with
      pipe := sh.pipe.drop
      removed := sh.removed ++ [sh.pipe.front]
      taken := taken } := by
  obtain ⟨q, hq, hacc⟩ := h
  cases q with
  | nil =>
    rw [hq.empty_iff.mpr rfl] at hempty
    cases hempty
  | cons x q =>
    have hfront : sh.pipe.front = x := hq.head
    exact ⟨q, hq.drop, by simp [hacc, hfront]⟩

abbrev FifoOk (sh : Shared P) : Move Chan Control (Shared P) Empty → Prop :=
  MoveOk Fifo (fun l sh => Fifo sh ∧ ReadAssertion sh l) sh

theorem writeRound_fifo {addr : Source} {n : ℤ} {i : ℕ} {dead : Bool} (h : Fifo sh) :
    FifoOk sh (writeRound addr n i dead sh) := by
  unfold writeRound
  by_cases hi : i < n
  · rw [if_pos hi]
    by_cases hdead : sh.pipe.readopen = false ∨ dead
    · rw [if_pos hdead]
      exact h
    rw [if_neg hdead]
    by_cases hfull : sh.pipe.full
    · rw [if_pos hfull]
      exact ⟨h, trivial⟩
    rw [if_neg hfull]
    cases addr i with
    | none => exact ⟨h, trivial⟩
    | some ch => exact ⟨h.put (by simpa using hfull) ch, trivial⟩
  · rw [if_neg hi]
    exact ⟨h, trivial⟩

theorem readRound_fifo {addr : Target} {n : ℤ} {i : ℕ} (h : Fifo sh)
    (hat : ReadAssertion sh (.readCopy addr n i)) : FifoOk sh (readRound addr n i sh) := by
  unfold readRound
  by_cases hgo : i < n ∧ sh.pipe.empty = false
  · rw [if_pos hgo]
    by_cases haddr : addr i
    · simp only [haddr, if_true]
      exact ⟨h.drop hgo.2 true, fun h0 => absurd h0 (Nat.succ_ne_zero i)⟩
    · simp only [haddr]
      refine ⟨h.drop hgo.2 false, fun h0 _ hok => absurd ?_ haddr⟩
      rwa [h0]
  · rw [if_neg hgo]
    refine ⟨h, fun h0 hn _ => ?_⟩
    have hempty : sh.pipe.empty = true := by
      by_contra hne
      exact hgo ⟨by omega, by simpa using hne⟩
    exact ⟨hempty, hat h0 hempty⟩

theorem move_fifo {p : P} {l : Control} (h : Fifo sh) (hat : ReadAssertion sh l) :
    FifoOk sh (move p l sh) := by
  cases l with
  | write addr n i => exact writeRound_fifo h
  | writeSleep addr n i => exact ⟨h, fun _ h' => ⟨h', trivial⟩⟩
  | writeDone i => exact h
  | read addr n =>
    simp only [move]
    by_cases hwait : sh.pipe.empty ∧ sh.pipe.writeopen
    · rw [if_pos hwait]
      by_cases hdead : sh.killed p
      · rw [if_pos hdead]
        exact h
      · rw [if_neg hdead]
        exact ⟨h, trivial⟩
    · rw [if_neg hwait]
      refine ⟨h, fun _ hempty => ?_⟩
      by_contra hne
      exact hwait ⟨hempty, by simpa using hne⟩
  | readSleep addr n => exact ⟨h, fun _ h' => ⟨h', trivial⟩⟩
  | readCopy addr n i => exact readRound_fifo h hat
  | readDone addr n i => exact h
  | close writable => cases writable <;> exact ⟨h, trivial⟩
  | closeDone => exact h
  | idle => exact ⟨h, trivial⟩
  | wrote r => exact ⟨h, trivial⟩
  | didRead addr n r => exact ⟨h, trivial⟩

theorem enter_cases {l l' : Control} (h : enter l = some l') :
    (∃ addr n i, l' = .write addr n i) ∨ (∃ addr n, l' = .read addr n) ∨
      ∃ writable, l' = .close writable := by
  cases l <;> cases h <;> simp

theorem run_shared {k : Choice} {l l' : Control} {sh sh' : Shared P}
    (h : run k l sh = some (l', sh')) : sh' = sh := by
  cases l <;> cases k <;> cases h <;> rfl

theorem annotation_fifo (n : ℕ) : Annotation (monitor n) flags (fun _ _ _ => True)
    (fun _ l sh => Fifo sh ∧ ReadAssertion sh l) Fifo where
  enter p l l' sh hl h := by
    rcases enter_cases hl with ⟨_, _, _, rfl⟩ | ⟨_, _, rfl⟩ | ⟨_, rfl⟩ <;> exact ⟨h, trivial⟩
  move p l sh _ h := move_fifo h.1 h.2
  run p k l sh l' sh' hr := by
    obtain rfl := run_shared hr
    exact ⟨id, fun _ _ => id⟩
  kill q sh := ⟨id, fun _ _ => id⟩

theorem Initial.fifo {n : ℕ} {s : PipeUsers n} (h : Initial s) : Fifo s.shared := by
  refine ⟨[], ?_, by simp [h.accepted, h.removed]⟩
  rw [Pipe.Holds, h.nread, h.nwrite]
  exact .nil (by decide)

theorem annotated_fifo {n : ℕ} {s : PipeUsers n} (h : Reachable Initial Step s) :
    Annotated Fifo (fun _ l sh => Fifo sh ∧ ReadAssertion sh l) s :=
  h.invariant (fun _ hi => hi.annotated hi.fifo)
    fun _ _ _ hs hn => hs.next (annotation_fifo n) hn fun _ _ _ _ => trivial

theorem move_didRead {p : P} {l : Control} {sh sh' : Shared P} {addr : Target} {k r : ℤ}
    (h : move p l sh = .release (.didRead addr k r) sh') :
    sh' = sh ∧ (r = -1 ∨ ∃ i : ℕ, l = .readDone addr k i ∧ r = i) := by
  cases l with
  | write addr' n i =>
    simp only [move, writeRound] at h
    repeat' split at h
    all_goals cases h
  | readCopy addr' n i =>
    simp only [move, readRound] at h
    repeat' split at h
    all_goals cases h
  | read addr' n =>
    simp only [move] at h
    repeat' split at h
    all_goals cases h
    exact ⟨rfl, .inl rfl⟩
  | readDone addr' n i =>
    cases h
    exact ⟨rfl, .inr ⟨i, rfl, rfl⟩⟩
  | close writable => cases writable <;> cases h
  | _ => cases h

/-- In every run of any number of readers and writers of one pipe, the bytes removed are a
prefix of the bytes accepted; the counters, which wrap, tell how many bytes lie between;
these are at most `PIPESIZE`, and each of them is still in its cell. A `piperead` of at
least one byte into writable memory returns 0 only if everything accepted was removed and
the write end is closed. -/
theorem pipe_fifo {n : ℕ} {s : PipeUsers n} (h : Reachable Initial Step s) :
    s.shared.removed <+: s.shared.accepted ∧
      s.shared.accepted.length - s.shared.removed.length =
        (s.shared.pipe.nwrite - s.shared.pipe.nread).toNat ∧
      (s.shared.pipe.nwrite - s.shared.pipe.nread).toNat ≤ pipeSize ∧
      (∀ i < (s.shared.pipe.nwrite - s.shared.pipe.nread).toNat,
        s.shared.accepted[s.shared.removed.length + i]? =
          some (s.shared.pipe.data (Fin.ofNat pipeSize (s.shared.pipe.nread.toNat + i)))) ∧
      ∀ e t p l addr k, Step s e t → s.phase p = .inside l →
        t.phase p = .outside (.didRead addr k 0) → 0 < k → (∀ i : ℕ, i < k → addr i = true) →
        t.shared.accepted = t.shared.removed ∧ t.shared.pipe.writeopen = false := by
  have hann := annotated_fifo h
  obtain ⟨q, hq, hacc⟩ := hann.always fun _ _ _ h => h.1
  rw [hq.sub_toNat]
  refine ⟨⟨q, hacc.symm⟩, by simp [hacc], hq.length_le, fun i hi => ?_, ?_⟩
  · have hcell := RingBuffers.Holds.cell hq i hi
    rw [hacc, List.getElem?_append_right (Nat.le_add_right _ _), Nat.add_sub_cancel_left,
      List.getElem?_eq_getElem hi, hcell]
    rfl
  · intro e t p l addr k hstep hin hout hk haddr
    obtain ⟨hsame, hr | ⟨i, rfl, hi⟩⟩ := move_didRead (release_of_outside hstep hin hout)
    · cases hr
    obtain ⟨hempty, hclosed⟩ := (hann.inside hin).2 (by omega) hk (haddr 0 hk)
    rw [hsame, hacc, hq.empty_iff.mp hempty, List.append_nil]
    exact ⟨rfl, hclosed⟩

def emptyPipe (n : ℕ) : PipeUsers n where
  shared := ⟨⟨fun _ => 0, 0, 0, true, true⟩, fun _ => false, [], [], false, false⟩
  lock := none
  phase _ := .outside .idle
  panicked := none

theorem initial_emptyPipe (n : ℕ) : Initial (emptyPipe n) :=
  ⟨rfl, rfl, rfl, rfl, rfl, rfl, rfl, rfl, rfl, fun _ => rfl, rfl⟩

/-- The first process writes two bytes, and the second one reads a byte. -/
def writeAndRead : List (KEvent (Fin 2) Choice) :=
  [.step (.run 0 (.write (fun i => some (65 + UInt8.ofNat i)) 2)), .step (.acquire 0),
    .step (.move 0), .step (.move 0), .step (.move 0), .step (.visit 0), .step (.visit 0),
    .step (.move 0), .step (.run 1 (.read (fun _ => true) 1)), .step (.acquire 1), .step (.move 1),
    .step (.move 1), .step (.move 1), .step (.visit 1), .step (.visit 1), .step (.move 1)]

/-- The first byte was removed, and the second one is in its cell. -/
theorem pipe_fifo_writeAndRead : ∃ s : PipeUsers 2, Reachable Initial Step s ∧
    s.shared.accepted = [65, 66] ∧ s.shared.removed = [65] ∧
      s.shared.pipe.data (Fin.ofNat pipeSize s.shared.pipe.nread.toNat) = 66 := by
  have hrun : (exec (next (monitor 2) flags) (emptyPipe 2) writeAndRead).any
      (fun s => s.shared.accepted = [65, 66] ∧ s.shared.removed = [65]) = true := by
    decide +kernel
  obtain ⟨s, hs, hacc, hrem⟩ := exists_of_any hrun
  have hreach : Reachable Initial Step s := ⟨_, _, initial_emptyPipe 2, run_of_exec hs⟩
  obtain ⟨-, hcount, -, hcells, -⟩ := pipe_fifo hreach
  rw [hacc, hrem] at hcount hcells
  have hcell := hcells 0 (by rw [← hcount]; decide)
  exact ⟨s, hreach, hacc, hrem, (Option.some.inj hcell).symm⟩

end Xv6.Pipes
