import Xv6.KernelParameters
import Xv6.MonitorAssertions
import Mathlib.Data.List.FinRange

/-!
# Console input

`consoleread` and `consoleintr` of `console.c` as a monitor guarded by `cons.lock`. An interrupt
is handled by a party of its own, so that it can come at any time; handlers never sleep. Echoing
goes to the UART and is left out.
-/

namespace Xv6.Console
open TransitionSystems SleepWakeupMonitors KillableMonitors

/-- The struct `cons` without its lock. -/
structure Cons where
  buf : Fin inputBufSize → UInt8
  r : UInt32
  w : UInt32
  e : UInt32

/-- `C(x)`. -/
def ctrl (x : Char) : UInt8 := UInt8.ofNat (x.toNat - '@'.toNat)

def newline : UInt8 := 10

namespace Cons

/-- The byte `cons.buf[i % INPUT_BUF_SIZE]`. -/
def byteAt (cons : Cons) (i : UInt32) : UInt8 := cons.buf (Fin.ofNat inputBufSize i.toNat)

/-- `cons.buf[cons.e++ % INPUT_BUF_SIZE] = c`. -/
def put (cons : Cons) (c : UInt8) : Cons :=
  { cons with
    buf := Function.update cons.buf (Fin.ofNat inputBufSize cons.e.toNat) c
    e := cons.e + 1 }

end Cons

structure Shared (P : Type) where
  cons : Cons
  killed : P → Bool
  committed : List UInt8
  taken : List UInt8
  received : List UInt8

inductive Chan where
  | r
  deriving DecidableEq, Repr

abbrev Target := ℕ → Bool

inductive Control where
  | idle
  /-- the head of the outer loop of `consoleread` -/
  | read (dst : Target) (target n : ℤ)
  /-- in front of the `sleep` of `consoleread` -/
  | readSleep (dst : Target) (target n : ℤ)
  | intr (c : UInt8)
  /-- the head of the loop for `C('U')` -/
  | killLine
  /-- in front of the `release` of `consoleintr` -/
  | intrDone
  | didRead (r : ℤ)

inductive Choice where
  | read (dst : Target) (n : ℤ)
  | intr (c : UInt8)

variable {P : Type}

def enter : Control → Option Control
  | .read dst target n => some (.read dst target n)
  | .intr c => some (.intr c)
  | _ => none

/-- One round of the outer loop of `consoleread` on a buffer with input. -/
def readRound (dst : Target) (target n : ℤ) (sh : Shared P) :
    Move Chan Control (Shared P) Empty :=
  let c := sh.cons.byteAt sh.cons.r
  let sh' := { sh with cons := { sh.cons with r := sh.cons.r + 1 }, taken := sh.taken ++ [c] }
  if c = ctrl 'D' then
    -- `cons.r--` gives the mark back for the next call
    if n < target then .release (.didRead (target - n)) sh
    else .release (.didRead (target - n)) sh'
  else if dst 0 = false then
    .release (.didRead (target - n)) sh'
  else
    let sh'' := { sh' with received := sh.received ++ [c] }
    if c = newline then .release (.didRead (target - (n - 1))) sh''
    else .stay (.read (fun i => dst (i + 1)) target (n - 1)) sh''

/-- `consoleintr` on a character that is stored. -/
def store (c : UInt8) (sh : Shared P) : Move Chan Control (Shared P) Empty :=
  let c := if c = 13 then newline else c
  let cons := sh.cons.put c
  if c = newline ∨ c = ctrl 'D' ∨ cons.e - cons.r = UInt32.ofNat inputBufSize then
    .wakeup .r .intrDone { sh with
      cons := { cons with w := cons.e }
      committed := sh.committed ++
        (List.range (cons.e - cons.w).toNat).map fun i => cons.byteAt (cons.w + UInt32.ofNat i) }
  else
    .release .idle { sh with cons := cons }

def move (p : P) (l : Control) (sh : Shared P) : Move Chan Control (Shared P) Empty :=
  match l with
  | .read dst target n =>
    if 0 < n then
      if sh.cons.r = sh.cons.w then
        if sh.killed p then .release (.didRead (-1)) sh else .stay (.readSleep dst target n) sh
      else
        readRound dst target n sh
    else
      .release (.didRead (target - n)) sh
  | .readSleep dst target n => .sleep .r (.read dst target n)
  | .intr c =>
    if c = ctrl 'P' then
      .stay .intrDone sh
    else if c = ctrl 'U' then
      .stay .killLine sh
    else if c = ctrl 'H' ∨ c = 0x7f then
      if sh.cons.e = sh.cons.w then .stay .intrDone sh
      else .stay .intrDone { sh with cons := { sh.cons with e := sh.cons.e - 1 } }
    else if c ≠ 0 ∧ sh.cons.e - sh.cons.r < UInt32.ofNat inputBufSize then
      store c sh
    else
      .stay .intrDone sh
  | .killLine =>
    if sh.cons.e ≠ sh.cons.w ∧ sh.cons.byteAt (sh.cons.e - 1) ≠ newline then
      .stay .killLine { sh with cons := { sh.cons with e := sh.cons.e - 1 } }
    else
      .stay .intrDone sh
  | .intrDone => .release .idle sh
  | l => .stay l sh

/-- A process calls `consoleread`, or an interrupt brings a character. -/
def run : Choice → Control → Shared P → Option (Control × Shared P)
  | k, .idle, sh | k, .didRead _, sh =>
    match k with
    | .read dst n => some (.read dst n n, sh)
    | .intr c => some (.intr c, sh)
  | _, _, _ => none

def monitor (n : ℕ) : Monitor (Fin n) Chan Control (Shared (Fin n)) Empty Choice where
  procs := List.finRange n
  enter := enter
  move := move
  run _ := run

def flags [DecidableEq P] : Flags P (Shared P) where
  killed sh p := sh.killed p
  kill q sh := { sh with killed := Function.update sh.killed q true }

abbrev ConsoleUsers (n : ℕ) := State (Fin n) Chan Control (Shared (Fin n)) Empty

structure Initial {n : ℕ} (s : ConsoleUsers n) : Prop where
  r : s.shared.cons.r = 0
  w : s.shared.cons.w = 0
  e : s.shared.cons.e = 0
  committed : s.shared.committed = []
  taken : s.shared.taken = []
  received : s.shared.received = []
  lock : s.lock = none
  phase : ∀ p, s.phase p = .outside .idle
  panicked : s.panicked = none

def Step {n : ℕ} (s : ConsoleUsers n) (e : KEvent (Fin n) Choice) (t : ConsoleUsers n) : Prop :=
  next (monitor n) flags s e = some t

end Xv6.Console
