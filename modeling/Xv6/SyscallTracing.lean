import Xv6.ProcessTable

/-!
# System call tracing

`syscall` of `syscall.c` and `sys_trace` on top of the process table. Every slot has its
`trace_mask`, which `freeproc` leaves alone, and a kernel thread with its trapframe. `fork`,
`exit` and `wait` run in the process table; the other handlers return any value, and `exec`
also replaces the registers and the name. Every call of `printf` is one step.

For the history each process has a number of its own, and a list records, the latest first, the
forks, the system calls entered, the runs of `sys_trace`, and what system calls return.
-/

namespace Xv6.Tracing
open TransitionSystems SleepWakeupMonitors KillableMonitors Process Function

/-- The system calls of `syscall.h`. -/
inductive Sys where
  | fork | exit | wait | pipe | read | kill | exec | fstat | chdir | dup | getpid | sbrk | sleep
  | uptime | open_ | write | mknod | unlink | link | mkdir | close | trace | sysinfo
  deriving DecidableEq, Repr

namespace Sys

/-- The numbers of `syscall.h`. -/
def num : Sys → ℕ
  | fork => 1 | exit => 2 | wait => 3 | pipe => 4 | read => 5 | kill => 6 | exec => 7
  | fstat => 8 | chdir => 9 | dup => 10 | getpid => 11 | sbrk => 12 | sleep => 13
  | uptime => 14 | open_ => 15 | write => 16 | mknod => 17 | unlink => 18 | link => 19
  | mkdir => 20 | close => 21 | trace => 22 | sysinfo => 23

/-- The table `syscalls`. -/
def table : List Sys :=
  [fork, exit, wait, pipe, read, kill, exec, fstat, chdir, dup, getpid, sbrk, sleep, uptime,
    open_, write, mknod, unlink, link, mkdir, close, trace, sysinfo]

/-- The table `syscall_names`. -/
def name : Sys → String
  | fork => "fork" | exit => "exit" | wait => "wait" | pipe => "pipe" | read => "read"
  | kill => "kill" | exec => "exec" | fstat => "fstat" | chdir => "chdir" | dup => "dup"
  | getpid => "getpid" | sbrk => "sbrk" | sleep => "sleep" | uptime => "uptime"
  | open_ => "open" | write => "write" | mknod => "mknod" | unlink => "unlink" | link => "link"
  | mkdir => "mkdir" | close => "close" | trace => "trace" | sysinfo => "sysinfo"

/-- The table `syscall_argc`. -/
def argc : Sys → ℕ
  | fork | getpid | uptime => 0
  | exit | wait | pipe | kill | chdir | dup | sbrk | sleep | unlink | mkdir | close => 1
  | trace | sysinfo => 1
  | exec | fstat | open_ | link => 2
  | read | write | mknod => 3

end Sys

def nelem : ℤ := 24

/-- The conversion of a register to an `int`. -/
def int (x : UInt64) : BitVec 32 := x.toBitVec.setWidth 32

def decimal (x : BitVec 32) : String := toString x.toInt

/-- The registers of a trapframe that `syscall` reads. -/
structure Regs where
  a0 : UInt64
  a1 : UInt64
  a2 : UInt64
  a3 : UInt64
  a4 : UInt64
  a5 : UInt64
  a7 : UInt64
  deriving DecidableEq

def Regs.args (tf : Regs) : List UInt64 := [tf.a0, tf.a1, tf.a2, tf.a3, tf.a4, tf.a5]

def lookup (tf : Regs) : Option Sys :=
  let num := (int tf.a7).toInt
  if 0 < num ∧ num < nelem then Sys.table.find? fun c => (c.num : ℤ) = num else none

/-- Where a thread is in `syscall`. -/
inductive Point where
  /-- outside of `syscall` -/
  | user
  /-- in front of `syscalls[num]()` -/
  | handler (c : Sys) (args : List UInt64)
  /-- in `fork`, `exit` or `wait` -/
  | table (c : Sys) (args : List UInt64)
  /-- in front of the test of `trace_mask` -/
  | test (c : Sys) (args : List UInt64)
  /-- the head of the loop that prints the arguments -/
  | arg (c : Sys) (args : List UInt64) (i : ℕ)
  /-- behind the argument `i` -/
  | sep (c : Sys) (args : List UInt64) (i : ℕ)
  /-- in front of the message about an unknown number -/
  | unknown
  deriving DecidableEq

structure Thread where
  trapframe : Regs
  name : String
  point : Point

/-- One call of `printf`: the process that made it, whether it is part of a trace line, and the
text. -/
structure Output where
  who : ℕ
  trace : Bool
  text : String

inductive Entry where
  | forked (child parent : ℕ) (pid : ℤ)
  | entered (who : ℕ) (c : Sys) (tf : Regs)
  | traced (who : ℕ)
  | returned (who : ℕ) (value : UInt64)

/-- The kernel: the process table, the masks, the threads, and the console, with its latest output
first. Beside them, `life` is the number of the process that a slot holds or held last, `lives`
is the next such number, and `history` is what happened, the latest first. -/
structure Kernel (n : ℕ) where
  procs : Processes n
  traceMask : Fin n → BitVec 32
  thread : Fin n → Thread
  console : List Output
  life : Fin n → ℕ
  lives : ℕ
  history : List Entry

namespace Kernel

variable {n : ℕ}

def setThread (s : Kernel n) (p : Fin n) (th : Thread) : Kernel n :=
  { s with thread := update s.thread p th }

def goto (s : Kernel n) (p : Fin n) (pt : Point) : Kernel n :=
  s.setThread p { s.thread p with point := pt }

def print (s : Kernel n) (p : Fin n) (trace : Bool) (text : String) : Kernel n :=
  { s with console := ⟨s.life p, trace, text⟩ :: s.console }

def record (s : Kernel n) (e : Entry) : Kernel n := { s with history := e :: s.history }

/-- The thread of the slot runs outside of `fork`, `exit` and `wait`. -/
def runs (s : Kernel n) (p : Fin n) : Bool :=
  match s.procs.phase p with
  | .outside l => l.inUser
  | _ => false

/-- What `fork` does to the slot `x` of the child: the copies of `trace_mask`, of the trapframe
and of the name, and the child's `a0`. -/
def birth (s : Kernel n) (p x : Fin n) : Kernel n :=
  { s with
    traceMask := update s.traceMask x (s.traceMask p)
    thread := update s.thread x
      ⟨{ (s.thread p).trapframe with a0 := 0 }, (s.thread p).name, .user⟩
    life := update s.life x s.lives
    lives := s.lives + 1
    history := .forked s.lives (s.life p) s.procs.shared.nextpid :: s.history }

end Kernel

variable {n : ℕ}

/-- A thread begins `fork`, `exit` or `wait` as a system call, exits since it was killed, faults,
or goes on. -/
def begins (th : Thread) : Choice → Option Point
  | .fork =>
    match th.point with
    | .handler .fork args => some (.table .fork args)
    | _ => none
  | .wait addr =>
    match th.point with
    | .handler .wait args =>
      if addr = none ↔ th.trapframe.a0 = 0 then some (.table .wait args) else none
    | _ => none
  | .exit status =>
    match th.point with
    | .handler .exit args =>
      if status = (int th.trapframe.a0).toInt then some (.table .exit args) else none
    | .user => if status = -1 then some .user else none
    | _ => none
  | .fault => if th.point = .user then some .user else none
  | .start | .next _ => some th.point

/-- The parent and the slot of the child if this step of the process table is the one in which
`fork` fills in the child. -/
def forkOf (s : Processes n) : KEvent (Fin n) Choice → Option (Fin n × Fin n)
  | .step (.run p (.next true)) =>
    match s.phase p with
    | .outside (.alloc (x :: _)) => if (s.shared.proc x).state = .unused then some (p, x) else none
    | _ => none
  | _ => none

inductive Act (n : ℕ) where
  /-- a step of the process table -/
  | table (e : KEvent (Fin n) Choice)
  /-- an `ecall` with these registers -/
  | ecall (p : Fin n) (tf : Regs)
  /-- another handler runs and returns; the registers and the name are those that `exec` sets -/
  | handle (p : Fin n) (value : UInt64) (tf : Regs) (name : String)
  /-- `fork` or `wait` returns -/
  | result (p : Fin n)
  /-- the rest of `syscall` goes on -/
  | go (p : Fin n)

def Kernel.advance (s : Kernel n) : KEvent (Fin n) Choice → Option (Kernel n)
  | .step (.run p k) => (begins (s.thread p) k).map (s.goto p)
  | _ => some s

/-- The copies that `fork` makes in this step of the process table. -/
def Kernel.copies (s : Kernel n) (e : KEvent (Fin n) Choice) : Kernel n :=
  match forkOf s.procs e with
  | some (p, x) => s.birth p x
  | none => s

def tableStep [NeZero n] (s : Kernel n) (e : KEvent (Fin n) Choice) : Option (Kernel n) :=
  (s.advance e).bind fun s₁ =>
    (KillableMonitors.next (monitor n) (flags n) s.procs e).map fun procs =>
      { s₁.copies e with procs := procs }

/-- The beginning of `syscall`. -/
def ecall (s : Kernel n) (p : Fin n) (tf : Regs) : Option (Kernel n) :=
  if s.runs p = true ∧ (s.thread p).point = .user then
    match lookup tf with
    | some c =>
      some ((s.setThread p ⟨tf, (s.thread p).name, .handler c tf.args⟩).record
        (.entered (s.life p) c tf))
    | none => some (s.setThread p ⟨tf, (s.thread p).name, .unknown⟩)
  else none

/-- `p->trapframe->a0 = syscalls[num]()` for the handlers other than `sys_fork`, `sys_exit` and
`sys_wait`. -/
def handle (s : Kernel n) (p : Fin n) (value : UInt64) (tf : Regs) (name : String) :
    Option (Kernel n) :=
  match (s.thread p).point with
  | .handler .fork _ | .handler .exit _ | .handler .wait _ => none
  | .handler .trace args =>
    let mask := int (s.thread p).trapframe.a0
    some ({ (s.setThread p { s.thread p with
        trapframe := { (s.thread p).trapframe with a0 := 0 }, point := .test .trace args }) with
      traceMask := update s.traceMask p mask }.record (.traced (s.life p)))
  | .handler .exec args =>
    some (s.setThread p ⟨{ tf with a0 := value }, name, .test .exec args⟩)
  | .handler c args =>
    some (s.setThread p { s.thread p with
      trapframe := { (s.thread p).trapframe with a0 := value }, point := .test c args })
  | _ => none

/-- The value that `fork` or `wait` has returned. -/
def resultOf : Control n → Option ℤ
  | .forked r => some r
  | .waited r _ => some r
  | _ => none

/-- `p->trapframe->a0 = syscalls[num]()` for `sys_fork` and `sys_wait`. -/
def result (s : Kernel n) (p : Fin n) : Option (Kernel n) :=
  match (s.thread p).point, s.procs.phase p with
  | .table c args, .outside l =>
    (resultOf l).map fun r => s.setThread p { s.thread p with
      trapframe := { (s.thread p).trapframe with a0 := UInt64.ofInt r }, point := .test c args }
  | _, _ => none

/-- `syscall` behind the handler. -/
def go (s : Kernel n) (p : Fin n) : Option (Kernel n) :=
  let th := s.thread p
  let pid := (s.procs.shared.proc p).pid
  match th.point with
  | .test c args =>
    let s := s.record (.returned (s.life p) th.trapframe.a0)
    if (s.traceMask p).sshiftRight c.num &&& 1 ≠ 0 then
      some ((s.print p true (toString pid ++ ": syscall " ++ c.name ++ "(")).goto p (.arg c args 0))
    else some (s.goto p .user)
  | .arg c args i =>
    if i < c.argc then
      some ((s.print p true (decimal (int (args.getD i 0)))).goto p (.sep c args i))
    else
      some ((s.print p true (") -> " ++ decimal (int th.trapframe.a0) ++ "\n")).goto p .user)
  | .sep c args i =>
    if i + 1 < c.argc then some ((s.print p true " ").goto p (.arg c args (i + 1)))
    else some (s.goto p (.arg c args (i + 1)))
  | .unknown =>
    some ((s.print p false (toString pid ++ " " ++ th.name ++ ": unknown sys call " ++
      decimal (int th.trapframe.a7) ++ "\n")).setThread p
      ⟨{ th.trapframe with a0 := UInt64.ofInt (-1) }, th.name, .user⟩)
  | _ => none

def next [NeZero n] (s : Kernel n) : Act n → Option (Kernel n)
  | .table e => tableStep s e
  | .ecall p tf => ecall s p tf
  | .handle p value tf name => handle s p value tf name
  | .result p => result s p
  | .go p => go s p

def Step [NeZero n] (s : Kernel n) (a : Act n) (t : Kernel n) : Prop := next s a = some t

/-- After `userinit`. The table is zero, and the first process is number 0. -/
def boot (n : ℕ) [NeZero n] : Kernel n where
  procs := Process.boot n
  traceMask _ := 0
  thread _ := ⟨⟨0, 0, 0, 0, 0, 0, 0⟩, "initcode", .user⟩
  console := []
  life p := p
  lives := n
  history := []

end Xv6.Tracing
