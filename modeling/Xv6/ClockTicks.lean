import Xv6.MonitorAssertions
import Mathlib.Data.List.FinRange

/-!
# The clock

`sys_sleep` of `sysproc.c` and `clockintr` of `trap.c` as a monitor guarded by `tickslock`.
The timer interrupt of the first CPU is handled by a party of its own.
-/

namespace Xv6.Clock
open TransitionSystems SleepWakeupMonitors KillableMonitors

structure Shared (P : Type) where
  ticks : UInt32
  killed : P → Bool

inductive Chan where
  | ticks
  deriving DecidableEq, Repr

inductive Control where
  | idle
  /-- in front of `ticks0 = ticks` in `sys_sleep` -/
  | sleep (n : ℤ)
  /-- the head of the loop of `sys_sleep` -/
  | loop (n : ℤ) (ticks0 : UInt32)
  /-- in front of the `sleep` of `sys_sleep` -/
  | loopSleep (n : ℤ) (ticks0 : UInt32)
  | intr
  /-- in front of the `release` of `clockintr` -/
  | intrDone
  | slept (r : ℤ)
  deriving DecidableEq

inductive Choice where
  | sleep (n : ℤ)
  | intr

variable {P : Type}

def enter : Control → Option Control
  | .sleep n => some (.sleep n)
  | .intr => some .intr
  | _ => none

def move (p : P) (l : Control) (sh : Shared P) : Move Chan Control (Shared P) Empty :=
  match l with
  | .sleep n => .stay (.loop n sh.ticks) sh
  | .loop n ticks0 =>
    if sh.ticks - ticks0 < UInt32.ofInt n then
      if sh.killed p then .release (.slept (-1)) sh else .stay (.loopSleep n ticks0) sh
    else
      .release (.slept 0) sh
  | .loopSleep n ticks0 => .sleep .ticks (.loop n ticks0)
  | .intr => .wakeup .ticks .intrDone { sh with ticks := sh.ticks + 1 }
  | .intrDone => .release .idle sh
  | l => .stay l sh

/-- A process calls `sys_sleep`, or the timer of the first CPU fires. -/
def run : Choice → Control → Shared P → Option (Control × Shared P)
  | k, .idle, sh | k, .slept _, sh =>
    match k with
    | .sleep n => some (.sleep (if n < 0 then 0 else n), sh)
    | .intr => some (.intr, sh)
  | _, _, _ => none

def monitor (n : ℕ) : Monitor (Fin n) Chan Control (Shared (Fin n)) Empty Choice where
  procs := List.finRange n
  enter := enter
  move := move
  run _ := run

def flags [DecidableEq P] : Flags P (Shared P) where
  killed sh p := sh.killed p
  kill q sh := { sh with killed := Function.update sh.killed q true }

abbrev ClockUsers (n : ℕ) := State (Fin n) Chan Control (Shared (Fin n)) Empty

structure Initial {n : ℕ} (s : ClockUsers n) : Prop where
  ticks : s.shared.ticks = 0
  lock : s.lock = none
  phase : ∀ p, s.phase p = .outside .idle
  panicked : s.panicked = none

def Step {n : ℕ} (s : ClockUsers n) (e : KEvent (Fin n) Choice) (t : ClockUsers n) : Prop :=
  next (monitor n) flags s e = some t

end Xv6.Clock
