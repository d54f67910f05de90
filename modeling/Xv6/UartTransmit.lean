import Xv6.MonitorAssertions
import Xv6.RingBuffers
import Mathlib.Data.List.FinRange
import Mathlib.Data.List.Infix

/-!
# Sending bytes through the UART

`uartputc`, `uartstart`, `uartintr` and `uartputc_sync` of `uart.c` as a monitor guarded by
`uart_tx_lock`, beside the UART. The UART sends the byte in its holding register, sets
`LSR_TX_IDLE` and requests an interrupt; a write of `THR` or a read of `ISR` withdraws the
request. An interrupt may also come for other reasons, so `uartintr` may run at any time.
The history keeps the bytes that `uartputc` stored and those that `uartstart` wrote to `THR`.
-/

namespace Xv6.Uart
open TransitionSystems SleepWakeupMonitors KillableMonitors MonitorAssertions RingBuffers

def uartTxBufSize : ℕ := 32

instance : NeZero uartTxBufSize := ⟨by decide⟩

/-- The transmit buffer, `LSR_TX_IDLE`, the request of the UART, the flag `panicked` of
`printf.c`, and the history. -/
structure Shared where
  buf : Fin uartTxBufSize → UInt8
  w : UInt64
  r : UInt64
  idle : Bool
  request : Bool
  panicked : Bool
  accepted : List UInt8
  sent : List UInt8

/-- Where a process or an interrupt handler is. -/
inductive Control where
  | idle
  /-- `uartputc` -/
  | putc (c : UInt8)
  /-- the head of the loop of `uartputc` -/
  | wait (c : UInt8)
  /-- the endless loop of `uartputc` after a panic -/
  | spin
  /-- in front of the `acquire` of `uartintr` -/
  | intr
  /-- the head of the loop of `uartstart` -/
  | start
  /-- in front of the write of `THR` in `uartstart` -/
  | send (c : UInt8)

/-- What happens outside the lock: calls, a byte of `uartputc_sync`, the end of a transmission,
and a panic elsewhere. -/
inductive Choice where
  | putc (c : UInt8)
  | intr
  | putcSync
  | transmitted
  | panic

def enter : Control → Option Control
  | .putc c => some (.putc c)
  | .intr => some .start
  | _ => none

def move (l : Control) (sh : Shared) : Move Unit Control Shared Empty :=
  match l with
  | .putc c => .stay (if sh.panicked then .spin else .wait c) sh
  | .wait c =>
    if sh.w = sh.r + UInt64.ofNat uartTxBufSize then
      .sleep () (.wait c)
    else
      .stay .start { sh with
        buf := Function.update sh.buf (Fin.ofNat uartTxBufSize sh.w.toNat) c
        w := sh.w + 1
        accepted := sh.accepted ++ [c] }
  | .start =>
    if sh.w = sh.r then
      -- `ReadReg(ISR)`
      .release .idle { sh with request := false }
    else if sh.idle = false then
      .release .idle sh
    else
      .wakeup () (.send (sh.buf (Fin.ofNat uartTxBufSize sh.r.toNat))) { sh with r := sh.r + 1 }
  | .send c => .stay .start { sh with idle := false, request := false, sent := sh.sent ++ [c] }
  | l => .stay l sh

def run : Choice → Control → Shared → Option (Control × Shared)
  | .putc c, .idle, sh => some (.putc c, sh)
  | .intr, .idle, sh => some (.intr, sh)
  | .putcSync, .idle, sh =>
    if sh.panicked = false ∧ sh.idle = true then
      some (.idle, { sh with idle := false, request := false })
    else none
  | .transmitted, l, sh =>
    if sh.idle then none else some (l, { sh with idle := true, request := true })
  | .panic, .idle, sh => some (.idle, { sh with panicked := true })
  | _, _, _ => none

/-- The UART as a monitor used by `n` processes and handlers. -/
def monitor (n : ℕ) : Monitor (Fin n) Unit Control Shared Empty Choice where
  procs := List.finRange n
  enter := enter
  move _ := move
  run _ := run

abbrev UartUsers (n : ℕ) := State (Fin n) Unit Control Shared Empty

def initial (n : ℕ) : UartUsers n :=
  ⟨⟨fun _ => 0, 0, 0, true, false, false, [], []⟩, none, fun _ => .outside .idle, none⟩

/-- One step. A `kill` makes a sleeping process run; `uartputc` does not look at its flag. -/
def next {n : ℕ} : UartUsers n → KEvent (Fin n) Choice → Option (UartUsers n) :=
  KillableMonitors.next (monitor n) ⟨fun _ _ => false, fun _ sh => sh⟩

/-- The buffer holds what was accepted, behind the bytes `pre`, and not yet sent. -/
def Queued (sh : Shared) (pre : List UInt8) : Prop :=
  ∃ q, Holds (2 ^ 64) sh.buf sh.r.toNat sh.w.toNat q ∧ sh.accepted = sh.sent ++ (pre ++ q)

/-- What holds while the lock is free: where bytes are left, the UART is busy or requests an
interrupt. -/
def Settled (sh : Shared) : Prop :=
  Queued sh [] ∧ (sh.w = sh.r ∨ sh.idle = false ∨ sh.request = true)

def Assertion (l : Control) (sh : Shared) : Prop :=
  match l with
  | .start => Queued sh []
  | .send c => Queued sh [c]
  | _ => Settled sh

variable {sh : Shared} {c : UInt8}

theorem Queued.put (h : Queued sh []) (hfull : sh.w ≠ sh.r + UInt64.ofNat uartTxBufSize) :
    Queued { sh with
      buf := Function.update sh.buf (Fin.ofNat uartTxBufSize sh.w.toNat) c
      w := sh.w + 1
      accepted := sh.accepted ++ [c] } [] := by
  obtain ⟨q, hq, hacc⟩ := h
  have hroom : q.length < uartTxBufSize := by
    refine lt_of_le_of_ne hq.length_le fun hlen => hfull ?_
    rw [← UInt64.toNat_inj, (hq.full_iff (by decide)).mpr hlen, UInt64.toNat_add]
    rfl
  refine ⟨q ++ [c], ?_, by simp [hacc]⟩
  simpa [UInt64.toNat_add] using hq.put (by decide) hroom c

theorem Queued.take (h : Queued sh []) (hne : sh.w ≠ sh.r) :
    Queued { sh with r := sh.r + 1 } [sh.buf (Fin.ofNat uartTxBufSize sh.r.toNat)] := by
  obtain ⟨q, hq, hacc⟩ := h
  cases q with
  | nil => exact absurd (UInt64.toNat_inj.mp ((hq.eq_iff (by decide)).mpr rfl)).symm hne
  | cons x q =>
    refine ⟨q, ?_, by rw [hq.head]; exact hacc⟩
    simpa [UInt64.toNat_add] using hq.take (by decide)

theorem move_settled (l : Control) (h : Assertion l sh) :
    MoveOk Settled Assertion sh (move l sh) := by
  cases l with
  | putc c =>
    simp only [move]
    split <;> exact h
  | wait c =>
    simp only [move]
    split
    · exact ⟨h, fun _ => id⟩
    · exact h.1.put ‹_›
  | start =>
    simp only [move]
    split
    · exact ⟨h, .inl ‹_›⟩
    split
    · exact ⟨h, .inr (.inl ‹_›)⟩
    · exact Queued.take h ‹_›
  | send c =>
    obtain ⟨q, hq, hacc⟩ := h
    exact ⟨q, hq, by simp [hacc]⟩
  | _ => exact h

theorem run_settled {k : Choice} {l l' : Control} {sh' : Shared}
    (hr : run k l sh = some (l', sh')) :
    (Settled sh → Settled sh') ∧ ∀ l, Assertion l sh → Assertion l sh' := by
  have hall (hq : ∀ pre, Queued sh pre → Queued sh' pre) (hs : Settled sh → Settled sh') :
      (Settled sh → Settled sh') ∧ ∀ l, Assertion l sh → Assertion l sh' :=
    ⟨hs, fun l hl => by cases l <;> first | exact hq _ hl | exact hs hl⟩
  unfold run at hr
  split at hr
  · cases hr
    exact hall (fun _ => id) id
  · cases hr
    exact hall (fun _ => id) id
  · split at hr <;> cases hr
    exact hall (fun _ => id) fun h => ⟨h.1, .inr (.inl rfl)⟩
  · split at hr <;> cases hr
    exact hall (fun _ => id) fun h => ⟨h.1, .inr (.inr rfl)⟩
  · cases hr
    exact hall (fun _ => id) id
  · cases hr

theorem annotation_settled (n : ℕ) : Annotation (monitor n) ⟨fun _ _ => false, fun _ sh => sh⟩
    (fun _ _ _ => True) (fun _ => Assertion) Settled where
  enter p l l' sh hl h := by
    cases l <;> cases hl
    · exact h
    · exact h.1
  move p l sh _ := move_settled l
  run p k l sh l' sh' hr := ⟨(run_settled hr).1, fun _ => (run_settled hr).2⟩
  kill q sh := ⟨id, fun _ _ => id⟩

/-- The callers of `uartputc` sleep while the buffer is full. -/
def Blocked (_ : Unit) (sh : Shared) : Prop := sh.w = sh.r + UInt64.ofNat uartTxBufSize

theorem wakesUp (n : ℕ) :
    WakesUp (monitor n) (Annotated Settled fun _ => Assertion) Blocked := by
  refine wakesUp_of_moves List.mem_finRange (fun s p l _ _ => ?_)
    fun p k l sh l' sh' hr c hb => ?_
  · simp only [monitor]
    cases l with
    | wait c =>
      simp only [move]
      split
      · exact ‹_›
      · exact fun _ hb => absurd hb ‹_›
    | start =>
      simp only [move]
      split
      · exact fun _ => id
      split
      · exact fun _ => id
      · exact fun d hd => absurd rfl hd
    | _ => exact fun _ => id
  · simp only [monitor, run] at hr
    split at hr <;> (try split at hr) <;> cases hr <;> exact hb

/-- In every run of callers and interrupts, while the lock is free: what was sent is a beginning
of what was accepted, the rest is in the buffer in order, and if there is a rest then the UART is
busy or requests an interrupt. A caller sleeps only while the buffer is full. -/
theorem uart_transmits {n : ℕ} {s : UartUsers n}
    (h : Reachable (fun s => s = initial n) (fun s e t => next s e = some t) s)
    (hfree : s.lock = none) :
    ∃ q, s.shared.accepted = s.shared.sent ++ q ∧ q.length ≤ uartTxBufSize ∧
      (∀ i < q.length,
        q[i]? = some (s.shared.buf (Fin.ofNat uartTxBufSize (s.shared.r.toNat + i)))) ∧
      (q ≠ [] → s.shared.idle = false ∨ s.shared.request = true) ∧
      ∀ p l, s.phase p = .asleep () l → q.length = uartTxBufSize := by
  obtain ⟨hann, hlost⟩ : Annotated Settled (fun _ => Assertion) s ∧ NoLostWakeup Blocked s := by
    refine h.invariant (I := fun s => Annotated Settled (fun _ => Assertion) s ∧
      NoLostWakeup Blocked s) ?_ ?_
    · rintro s rfl
      refine ⟨⟨fun p => by simp [initial, Phase.holds], fun _ => ?_, fun p => trivial⟩, ?_⟩
      · exact ⟨⟨[], .nil (UInt64.toNat_lt _), rfl⟩, .inl rfl⟩
      · intro p c hp
        simp [initial, Phase.waitsOn] at hp
    · rintro s e t ⟨hann, hlost⟩ hn
      exact ⟨hann.next (annotation_settled n) hn fun _ _ _ _ => trivial,
        noLostWakeup_next (wakesUp n) (fun _ _ _ => id) hann hlost hn⟩
  obtain ⟨⟨q, hq, hacc⟩, hbusy⟩ := hann.free hfree
  refine ⟨q, hacc, hq.length_le, fun i hi => ?_, fun hne => ?_, fun p l hp => ?_⟩
  · rw [hq.cell i hi]
    simp
  · refine hbusy.resolve_left fun heq => hne ?_
    exact (hq.eq_iff (by decide)).mp (UInt64.toNat_inj.mpr heq.symm)
  · have hblk : Blocked () s.shared := hlost.blocked hann.lock hfree (by rw [hp]; rfl)
    refine (hq.full_iff (by decide)).mp ?_
    rw [hblk, UInt64.toNat_add]
    rfl

/-- Two processes give a byte each to `uartputc`; the second byte waits in the buffer. -/
def twoBytes : List (KEvent (Fin 2) Choice) :=
  [.step (.run 0 (.putc 72)), .step (.acquire 0), .step (.move 0), .step (.move 0),
    .step (.move 0), .step (.visit 0), .step (.visit 0), .step (.move 0), .step (.move 0),
    .step (.run 1 (.putc 105)), .step (.acquire 1), .step (.move 1), .step (.move 1),
    .step (.move 1)]

theorem uart_transmits_second_byte : ∃ s : UartUsers 2, exec next (initial 2) twoBytes = some s ∧
    s.lock = none ∧ s.shared.accepted ≠ s.shared.sent ∧
    (s.shared.idle = false ∨ s.shared.request = true) := by
  have hrun : (exec next (initial 2) twoBytes).any
      (fun s => s.lock = none ∧ s.shared.accepted ≠ s.shared.sent) = true := by
    decide +kernel
  obtain ⟨s, hs, hlock, hne⟩ := exists_of_any hrun
  obtain ⟨q, hacc, -, -, hbusy, -⟩ := uart_transmits (reachable_of_exec hs) hlock
  refine ⟨s, hs, hlock, hne, hbusy ?_⟩
  rintro rfl
  simp [hacc] at hne

end Xv6.Uart
