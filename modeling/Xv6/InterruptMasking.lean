import Xv6.SchedulerExclusion

/-!
# Nested sections with interrupts off

`push_off` and `pop_off` of `spinlock.c` count in `noff` of the CPU how many sections with
interrupts off are open, and keep in `intena` whether interrupts were on before the first of them.
Here the CPUs of `Xv6.ContextSwitches` get these fields and the bit `SSTATUS_SIE`. Each
instruction that reads or writes one of them is a step, and while `SIE` is set an interrupt may
come before any step; its handler may take locks and yield. `noff` is a natural number here.
-/

namespace Xv6.Interrupts
open Scheduler Function

/-- `noff` and `intena` of `struct cpu`, and the bit `SSTATUS_SIE` of the CPU. -/
structure Cpu where
  noff : ℕ
  intena : Bool
  sie : Bool
  deriving DecidableEq, Repr

/-- A lock to be acquired: that of a process, for one of the uses of it, or any other. -/
inductive Lock (L : Type) (n : ℕ) where
  | proc (k : Choice n)
  | other (l : L)

/-- How far a thread is in the functions of `spinlock.c`. A `push_off` that `acquire` calls
has the lock with it. -/
inductive Phase (L : Type) (n : ℕ) where
  /-- in none of them -/
  | code
  /-- `intr_off()` in `push_off`, with the variable `old` -/
  | intrOff (lk : Option (Lock L n)) (old : Bool)
  /-- behind `intr_off()` in `push_off` -/
  | count (lk : Option (Lock L n)) (old : Bool)
  /-- behind `push_off()` in `acquire` -/
  | spin (lk : Lock L n)
  /-- `pop_off()` -/
  | popOff
  /-- behind `c->noff -= 1` in `pop_off` -/
  | restore

/-- Code that an interrupt has stopped: what it was doing, its open sections, and the bit
`SSTATUS_SPIE` that `kerneltrap` keeps for it. -/
structure Frame (L : Type) (n : ℕ) where
  phase : Phase L n
  depth : ℕ
  spie : Bool

/-- A kernel thread. Beside what the code knows, `left` records whether interrupts were on
when the `noff` of this thread last left 0. -/
structure Thread (L : Type) (n : ℕ) where
  phase : Phase L n
  /-- the sections that the running activation has opened and not closed, without that of
  the lock of a process -/
  depth : ℕ
  frames : List (Frame L n)
  /-- the variable `intena` of `sched` -/
  intena : Bool
  left : Option Bool

def Thread.fresh (L : Type) (n : ℕ) : Thread L n := ⟨.code, 0, [], false, none⟩

/-- The scheduler of a CPU, or the kernel thread of a process. -/
inductive Tid (C : Type) (n : ℕ) where
  | scheduler (c : C)
  | process (p : Fin n)
  deriving DecidableEq

/-- The panics of `spinlock.c`, and those of `sched` that read `noff` and `SIE`. -/
inductive Panic where
  | acquire
  | release
  | popOffInterruptible
  | popOff
  | schedLocks
  | schedInterruptible
  deriving DecidableEq, Repr

structure Machine (C L : Type) (n : ℕ) where
  base : System C n
  cpu : C → Cpu
  thread : Tid C n → Thread L n
  /-- the CPU that holds a lock other than those of processes -/
  holder : L → Option C
  panicked : Option Panic

inductive Action (L : Type) (n : ℕ) where
  /-- the next instruction of `spinlock.c` or `proc.c` -/
  | go
  /-- an interrupt -/
  | trap
  /-- the end of its handler -/
  | sret
  /-- a call of `push_off`, by itself or in `acquire` -/
  | pushOff (lk : Option (Lock L n))
  | popOff
  | release (l : L)
  /-- `intr_on`, `intr_off`, and the change of `SIE` on the way from and to user space -/
  | intr (bit : Bool)

/-- Whether code at a point calls the functions of `spinlock.c` as it likes: kernel code of a
process outside `swtch`, or a handler on top of the scheduler. -/
def calls (handler : Bool) : Pc n → Bool
  | .between (.scheduler _) | .inside (.scheduler _) .. | .release (.scheduler _) _ => handler
  | .between (.thread _) | .inside (.thread _) .. | .release (.thread _) _ | .change ..
  | .sched .. => true
  | .check _ | .picked _ | .swtchIn _ | .back _ | .unlock _ | .enter .. | .swtchOut ..
  | .swtchLoad _ | .resume .. => false

variable {C L : Type} [DecidableEq C] [DecidableEq L] {n : ℕ}

/-- Whether code acquires the lock of a process for some use. The loop of `scheduler` looks at
the next process with no section open. -/
def wants (th : Thread L n) : Pc n → Choice n → Bool
  | .between (.scheduler _), .go => th.frames.isEmpty && th.depth == 0
  | .between (.scheduler _), .touch .. => !th.frames.isEmpty
  | .between (.thread _), .touch .. | .between (.thread _), .leave _ => true
  | _, _ => false

/-- Whether code may call `push_off`, by itself or to acquire a lock. -/
def mayPush (th : Thread L n) (pc : Pc n) : Option (Lock L n) → Bool
  | some (.proc k) => wants th pc k
  | none | some (.other _) => calls (!th.frames.isEmpty) pc

/-- Whether code sets the bit `SIE` outside `push_off` and `pop_off`: kernel code of a process
on its way from and to user space, and the head of the loop of `scheduler`. -/
def maySet (th : Thread L n) (bit : Bool) : Pc n → Bool
  | .between (.thread _) => th.frames.isEmpty && th.depth == 0
  | .between (.scheduler i) => th.frames.isEmpty && th.depth == 0 && bit && i.val == 0
  | _ => false

namespace Machine

def current (m : Machine C L n) (c : C) : Tid C n :=
  match (m.base.pc c).executes with
  | none => .scheduler c
  | some p => .process p

def put (m : Machine C L n) (c : C) (cpu : Cpu) (th : Thread L n) : Machine C L n :=
  { m with
    cpu := update m.cpu c cpu
    thread := update m.thread (m.current c) th }

/-- The end of `acquire` of the lock of a process. `yield`, `sleep` and `exit` read `myproc()`
in front of it. -/
def take [NeZero n] (s : System C n) (c : C) : Choice n → Option (System C n)
  | .leave k => (s.next c (.leave k)).bind fun s' => s'.next c .go
  | k => s.next c k

/-- `mycpu()->intena = intena` behind `swtch` in `sched`, and nothing in `forkret`. -/
def resumed (cpu : Cpu) (th : Thread L n) : Context n → Bool
  | .forkret => cpu.intena
  | .sched .. => th.intena

/-- The instructions of `scheduler`, `sched` and the sections of a process's lock. -/
def instruction [NeZero n] (m : Machine C L n) (c : C) : Option (Machine C L n) :=
  let cpu := m.cpu c
  let th := m.thread (m.current c)
  match m.base.pc c with
  | .between _ | .enter .. => none
  | .inside .. | .check _ | .picked _ | .back _ | .change .. | .swtchOut .. | .swtchLoad _ =>
    (m.base.next c .go).map fun b => { m with base := b }
  | .release .. | .unlock _ =>
    (m.base.next c .go).map fun b => { m.put c cpu { th with phase := .popOff } with base := b }
  | .swtchIn i =>
    (m.base.next c .go).map fun b =>
      match m.base.context i with
      | .forkret =>
        { m with
          base := b
          thread := update m.thread (.process i) (Thread.fresh L n) }
      | .sched .. => { m with base := b }
  | .resume _ x =>
    (m.base.next c .go).map fun b =>
      { m.put c { cpu with intena := resumed cpu th x } { th with phase := .popOff } with
        base := b }
  | .sched .. =>
    (m.base.next c .go).map fun b =>
      if b.panicked = some .schedLock then { m with base := b }
      else if cpu.noff ≠ 1 then { m with panicked := some .schedLocks }
      else if b.panicked = some .schedRunning then { m with base := b }
      else if cpu.sie then { m with panicked := some .schedInterruptible }
      else { m.put c cpu { th with intena := cpu.intena } with base := b }

/-- The next instruction of the thread on a CPU; `none` while it spins, or where the thread
has to choose. -/
def go [NeZero n] (m : Machine C L n) (c : C) : Option (Machine C L n) :=
  let cpu := m.cpu c
  let th := m.thread (m.current c)
  match th.phase with
  | .code => m.instruction c
  | .intrOff lk old =>
    some (m.put c { cpu with sie := false }
      { th with
        phase := .count lk old
        left := if cpu.noff = 0 then some cpu.sie else th.left })
  | .count lk old =>
    let cpu' : Cpu :=
      { cpu with
        intena := if cpu.noff = 0 then old else cpu.intena
        noff := cpu.noff + 1 }
    match lk with
    | none => some (m.put c cpu' { th with phase := .code, depth := th.depth + 1 })
    | some lk => some (m.put c cpu' { th with phase := .spin lk })
  | .spin (.proc k) =>
    (take m.base c k).map fun b => { m.put c cpu { th with phase := .code } with base := b }
  | .spin (.other l) =>
    match m.holder l with
    | none =>
      some { m.put c cpu { th with phase := .code, depth := th.depth + 1 } with
        holder := update m.holder l (some c) }
    | some d => if d = c then some { m with panicked := some .acquire } else none
  | .popOff =>
    if cpu.sie then some { m with panicked := some .popOffInterruptible }
    else if cpu.noff < 1 then some { m with panicked := some .popOff }
    else some (m.put c { cpu with noff := cpu.noff - 1 } { th with phase := .restore })
  | .restore =>
    some (m.put c { cpu with sie := cpu.noff = 0 ∧ cpu.intena ∨ cpu.sie }
      { th with phase := .code })

def choose (m : Machine C L n) (c : C) : Action L n → Option (Machine C L n)
  | .go | .trap => none
  | .sret =>
    let cpu := m.cpu c
    let th := m.thread (m.current c)
    match m.base.pc c, th.frames with
    | .between _, f :: fs =>
      if th.depth = 0 then
        some (m.put c { cpu with sie := f.spie }
          { th with phase := f.phase, depth := f.depth, frames := fs })
      else none
    | _, _ => none
  | .pushOff lk =>
    let cpu := m.cpu c
    let th := m.thread (m.current c)
    if mayPush th (m.base.pc c) lk then
      some (m.put c cpu { th with phase := .intrOff lk cpu.sie })
    else none
  | .popOff =>
    let th := m.thread (m.current c)
    if calls (!th.frames.isEmpty) (m.base.pc c) ∧ 0 < th.depth then
      some (m.put c (m.cpu c) { th with phase := .popOff, depth := th.depth - 1 })
    else none
  | .release l =>
    let th := m.thread (m.current c)
    if calls (!th.frames.isEmpty) (m.base.pc c) ∧ 0 < th.depth then
      if m.holder l = some c then
        some { m.put c (m.cpu c) { th with phase := .popOff, depth := th.depth - 1 } with
          holder := update m.holder l none }
      else some { m with panicked := some .release }
    else none
  | .intr bit =>
    let th := m.thread (m.current c)
    if maySet th bit (m.base.pc c) then some (m.put c { m.cpu c with sie := bit } th) else none

def trap (m : Machine C L n) (c : C) : Option (Machine C L n) :=
  let cpu := m.cpu c
  let th := m.thread (m.current c)
  if cpu.sie then
    some (m.put c { cpu with sie := false }
      { th with phase := .code, depth := 0, frames := ⟨th.phase, th.depth, cpu.sie⟩ :: th.frames })
  else none

def next [NeZero n] (m : Machine C L n) (c : C) (x : Action L n) : Option (Machine C L n) :=
  if m.panicked.isSome ∨ m.base.panicked.isSome then none else
  match x with
  | .go => m.go c
  | .trap => m.trap c
  | x =>
    match (m.thread (m.current c)).phase with
    | .code => m.choose c x
    | _ => none

end Machine

/-- Every CPU enters `scheduler` with interrupts off and no section open. -/
def boot (C L : Type) (n : ℕ) [NeZero n] : Machine C L n where
  base := Scheduler.boot C n
  cpu _ := ⟨0, false, false⟩
  thread _ := Thread.fresh L n
  holder _ := none
  panicked := none

def Step [NeZero n] (m : Machine C L n) (e : C × Action L n) (m' : Machine C L n) : Prop :=
  m.next e.1 e.2 = some m'

abbrev Reached [NeZero n] (m : Machine C L n) : Prop :=
  TransitionSystems.Reachable (fun m => m = boot C L n) Step m

end Xv6.Interrupts
