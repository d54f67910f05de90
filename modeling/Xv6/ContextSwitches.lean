import Xv6.TransitionSystems
import Mathlib.Algebra.GroupWithZero.Nat
import Mathlib.Data.Fin.Basic
import Mathlib.Logic.Function.Basic

/-!
# CPUs, kernel threads and context switches

Any number of CPUs run `scheduler` of `proc.c` over a table of `n` processes. A CPU executes its
scheduler or the kernel thread of a process, instruction by instruction where `p->lock`,
`p->state`, `c->proc` or a saved context are concerned. Sections of another process's lock
(`wakeup`, `kill`, `wait`, `fork`) come at any time.
-/

namespace Xv6.Scheduler
open Function

/-- `enum procstate`. -/
inductive ProcState where
  | unused
  | used
  | sleeping
  | runnable
  | running
  | zombie
  deriving DecidableEq, Repr

inductive Leave where
  | yield
  | sleep (chan : ℕ)
  | exit
  deriving DecidableEq

def Leave.state : Leave → ProcState
  | .yield => .runnable
  | .sleep _ => .sleeping
  | .exit => .zombie

/-- What `p->context` returns to: `forkret`, or a caller of `sched` and its variable `p`. -/
inductive Context (n : ℕ) where
  | forkret
  | sched (p : Fin n) (k : Leave)
  deriving DecidableEq

/-- The critical sections of a process's lock in code that others run. -/
inductive Touch where
  /-- one round of the loop of `wakeup` -/
  | wakeup (chan : ℕ)
  /-- one round of the loop of `kill` -/
  | kill
  /-- `killed` and `setkilled` -/
  | look
  /-- one round of the loop of `allocproc` up to the release in `fork`; whether memory is found -/
  | alloc (memory : Bool)
  /-- `np->state = RUNNABLE` in `fork` -/
  | publish
  /-- one round of the inner loop of `wait`; whether `copyout` succeeds -/
  | wait (copied : Bool)
  deriving DecidableEq

/-- Whose code runs between critical sections: the scheduler, about to look at slot `i`, or
the kernel thread of a process. -/
inductive Party (n : ℕ) where
  | scheduler (i : Fin n)
  | thread (t : Fin n)
  deriving DecidableEq

inductive Pc (n : ℕ) where
  /-- between critical sections -/
  | between (w : Party n)
  /-- in a section of `q->lock` -/
  | inside (w : Party n) (q : Fin n) (x : Touch)
  /-- in front of `release(&q->lock)` of such a section -/
  | release (w : Party n) (q : Fin n)
  /-- `if(p->state == RUNNABLE)` in `scheduler` -/
  | check (i : Fin n)
  /-- `c->proc = p` in `scheduler` -/
  | picked (i : Fin n)
  /-- `swtch(&c->context, &p->context)` in `scheduler` -/
  | swtchIn (i : Fin n)
  /-- `c->proc = 0` in `scheduler` -/
  | back (i : Fin n)
  /-- `release(&p->lock)` in `scheduler` -/
  | unlock (i : Fin n)
  /-- `acquire(&p->lock)` in `yield`, `sleep` and `exit` -/
  | enter (t p : Fin n) (k : Leave)
  /-- the change of `p->state` in `yield`, `sleep` and `exit` -/
  | change (t p : Fin n) (k : Leave)
  /-- the checks in `sched` -/
  | sched (t p : Fin n) (k : Leave)
  /-- `swtch` in `sched`, before all registers are stored in `p->context` -/
  | swtchOut (t p : Fin n) (x : Context n)
  /-- `swtch` in `sched`, before the registers are loaded from `c->context` -/
  | swtchLoad (t : Fin n)
  /-- behind `swtch` in `sched`, or in `forkret` -/
  | resume (t : Fin n) (x : Context n)
  deriving DecidableEq

/-- The panics of `acquire`, `release`, `sched` and `exit`. -/
inductive Panic where
  | acquire
  | release
  | schedLock
  | schedRunning
  | zombieExit
  deriving DecidableEq, Repr

/-- The CPUs and the process table. Beside them, `saved` says whether `p->context` is the
complete context of a thread that no CPU executes, and `np` is the child of a `fork` in
progress. -/
structure System (C : Type) (n : ℕ) where
  pc : C → Pc n
  /-- `c->proc` -/
  cproc : C → Option (Fin n)
  /-- `c->context`: the variable `p` of the suspended `scheduler` -/
  ccontext : C → Fin n
  state : Fin n → ProcState
  chan : Fin n → ℕ
  /-- `p->lock`: the CPU that holds it -/
  lock : Fin n → Option C
  context : Fin n → Context n
  saved : Fin n → Bool
  np : Fin n → Option (Fin n)
  panicked : Option Panic

inductive Choice (n : ℕ) where
  | go
  | touch (q : Fin n) (x : Touch)
  | leave (k : Leave)

variable {C : Type} [DecidableEq C] {n : ℕ}

namespace System

def goto (s : System C n) (c : C) (pc : Pc n) : System C n :=
  { s with pc := update s.pc c pc }

/-- `acquire(&q->lock)`, which spins while another CPU holds the lock. -/
def acquire (s : System C n) (c : C) (q : Fin n) (pc : Pc n) : Option (System C n) :=
  match s.lock q with
  | none => some { s.goto c pc with lock := update s.lock q (some c) }
  | some d => if d = c then some { s with panicked := some .acquire } else none

/-- `release(&q->lock)`. -/
def release (s : System C n) (c : C) (q : Fin n) (pc : Pc n) : System C n :=
  if s.lock q = some c then { s.goto c pc with lock := update s.lock q none }
  else { s with panicked := some .release }

/-- Whether the code of a party contains a section. Interrupt handlers, which may run on top
of the scheduler, only call `wakeup`, and `wakeup` passes over `myproc()`. -/
def allowed (s : System C n) (c : C) (q : Fin n) : Party n → Touch → Bool
  | _, .wakeup _ => s.cproc c ≠ some q
  | .scheduler _, _ => false
  | .thread t, .alloc _ => s.np t = none
  | .thread t, .publish => s.np t = some q
  | .thread _, _ => true

/-- The effect of a section of `q->lock`. -/
def touch (s : System C n) (w : Party n) (q : Fin n) : Touch → System C n
  | .wakeup chan =>
    if s.state q = .sleeping ∧ s.chan q = chan then
      { s with state := update s.state q .runnable }
    else s
  | .kill =>
    if s.state q = .sleeping then { s with state := update s.state q .runnable } else s
  | .look => s
  | .alloc memory =>
    match w with
    | .thread t =>
      if s.state q = .unused ∧ memory then
        { s with
          state := update s.state q .used
          context := update s.context q .forkret
          saved := update s.saved q true
          np := update s.np t (some q) }
      else s
    | .scheduler _ => s
  | .publish =>
    match w with
    | .thread t =>
      { s with
        state := update s.state q .runnable
        np := update s.np t none }
    | .scheduler _ => s
  | .wait copied =>
    if s.state q = .zombie ∧ copied then
      { s with
        state := update s.state q .unused
        chan := update s.chan q 0 }
    else s

/-- One step of the CPU `c`; `none` while it spins. -/
def next [NeZero n] (s : System C n) (c : C) (k : Choice n) : Option (System C n) :=
  if s.panicked.isSome then none else
  match s.pc c with
  | .between w =>
    match k, w with
    | .touch q x, w => if s.allowed c q w x then s.acquire c q (.inside w q x) else none
    | .go, .scheduler i => s.acquire c i (.check i)
    | .leave k, .thread t =>
      if k = .exit ∧ s.np t ≠ none then none
      else (s.cproc c).map fun p => s.goto c (.enter t p k)
    | _, _ => none
  | .inside w q x => some ((s.touch w q x).goto c (.release w q))
  | .release w q => some (s.release c q (.between w))
  | .check i =>
    if s.state i = .runnable then
      some { s.goto c (.picked i) with state := update s.state i .running }
    else some (s.goto c (.unlock i))
  | .picked i => some { s.goto c (.swtchIn i) with cproc := update s.cproc c (some i) }
  | .swtchIn i =>
    some { s.goto c (.resume i (s.context i)) with
      ccontext := update s.ccontext c i
      saved := update s.saved i false }
  | .back i => some { s.goto c (.unlock i) with cproc := update s.cproc c none }
  | .unlock i => some (s.release c i (.between (.scheduler (i + 1))))
  | .enter t p k => s.acquire c p (.change t p k)
  | .change t p k =>
    let s' := match k with
      | .sleep chan => { s with chan := update s.chan p chan }
      | _ => s
    some { s'.goto c (.sched t p k) with state := update s.state p k.state }
  | .sched t p k =>
    (s.cproc c).map fun me =>
      if s.lock me ≠ some c then { s with panicked := some .schedLock }
      else if s.state me = .running then { s with panicked := some .schedRunning }
      else s.goto c (.swtchOut t me (.sched p k))
  | .swtchOut t p x =>
    some { s.goto c (.swtchLoad t) with
      context := update s.context p x
      saved := update s.saved p true }
  | .swtchLoad _ => some (s.goto c (.back (s.ccontext c)))
  | .resume t .forkret => (s.cproc c).map fun me => s.release c me (.between (.thread t))
  | .resume t (.sched p .yield) => some (s.release c p (.between (.thread t)))
  | .resume t (.sched p (.sleep _)) =>
    some ({ s with chan := update s.chan p 0 }.release c p (.between (.thread t)))
  | .resume _ (.sched _ .exit) => some { s with panicked := some .zombieExit }

end System

/-- After `userinit`: the first process is runnable, and every CPU enters `scheduler`. -/
def boot (C : Type) (n : ℕ) [NeZero n] : System C n where
  pc _ := .between (.scheduler 0)
  cproc _ := none
  ccontext _ := 0
  state p := if p = 0 then .runnable else .unused
  chan _ := 0
  lock _ := none
  context _ := .forkret
  saved p := p = 0
  np _ := none
  panicked := none

def Step [NeZero n] (s : System C n) (e : C × Choice n) (t : System C n) : Prop :=
  s.next e.1 e.2 = some t

abbrev Reached [NeZero n] (s : System C n) : Prop :=
  TransitionSystems.Reachable (fun s => s = boot C n) Step s

end Xv6.Scheduler
