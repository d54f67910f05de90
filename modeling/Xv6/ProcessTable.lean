import Xv6.MonitorAssertions
import Mathlib.Algebra.GroupWithZero.Nat
import Mathlib.Data.List.FinRange

/-!
# The process table

`fork`, `exit`, `wait` and `kill` of `proc.c` on a table of `n` slots. Parents and zombies
are guarded by `wait_lock`, so that the code of `exit` and `wait` and the second critical
section of `fork` are a monitor; the critical sections of a single `p->lock` are steps. A
live process is `SLEEPING` while its phase says so, and `RUNNABLE` or `RUNNING` otherwise.
The first slot holds `initproc`.
-/

namespace Xv6.Process
open TransitionSystems SleepWakeupMonitors KillableMonitors

/-- `enum procstate`, where `live` stands for `RUNNABLE`, `RUNNING` and `SLEEPING`. -/
inductive ProcState where
  | unused
  | used
  | live
  | zombie
  deriving DecidableEq, Repr

/-- The fields of `struct proc` that other processes look at. Beside them, `marked` records
whether the process faulted or was the target of a `kill` since `allocproc` gave out the
slot. -/
structure Proc (n : ℕ) where
  state : ProcState
  pid : ℤ
  killed : Bool
  xstate : ℤ
  parent : Option (Fin n)
  marked : Bool
  deriving DecidableEq

def Proc.free (n : ℕ) : Proc n := ⟨.unused, 0, false, 0, none, false⟩

/-- The process table and `nextpid`. Beside them, `forks` counts the pids handed out since
boot, and `dying` is the process that has woken its parent in order to become a zombie. -/
structure Table (n : ℕ) where
  proc : Fin n → Proc n
  nextpid : ℤ
  forks : ℕ
  dying : Option (Fin n)

/-- The address for the exit status in a call of `wait`: none, or one at which `copyout`
succeeds or not. -/
abbrev StatusAddr := Option Bool

/-- Where a process is. The lists hold the slots that a loop over the table has yet to
visit. -/
inductive Control (n : ℕ) where
  /-- no thread runs in this slot -/
  | dead
  | user
  /-- the loop of `allocproc` -/
  | alloc (todo : List (Fin n))
  /-- in front of `acquire(&wait_lock)` in `fork` -/
  | adopt (np : Fin n) (pid : ℤ)
  /-- in front of the last `acquire(&np->lock)` in `fork` -/
  | publish (np : Fin n) (pid : ℤ)
  | forked (r : ℤ)
  /-- in front of `acquire(&wait_lock)` in `exit` -/
  | exit (status : ℤ)
  /-- the loop of `reparent` -/
  | reparent (status : ℤ) (todo : List (Fin n))
  /-- behind `wakeup(p->parent)` in `exit` -/
  | die (status : ℤ)
  /-- the head of the outer loop of `wait` -/
  | wait (addr : StatusAddr)
  /-- the inner loop of `wait` -/
  | waitScan (addr : StatusAddr) (havekids : Bool) (todo : List (Fin n))
  /-- in front of `killed(p)` in `wait` -/
  | waitKilled (addr : StatusAddr)
  /-- in front of `sleep` in `wait` -/
  | waitSleep (addr : StatusAddr)
  | waited (r : ℤ) (status : Option ℤ)
  deriving DecidableEq

/-- What a process does next where its code leaves it open. -/
inductive Choice where
  | start
  | fork
  | exit (status : ℤ)
  | wait (addr : StatusAddr)
  | fault
  /-- the next critical section of `fork`; whether memory for the child is found -/
  | next (memory : Bool)
  deriving DecidableEq

namespace Table

variable {n : ℕ}

def modify (t : Table n) (p : Fin n) (f : Proc n → Proc n) : Table n :=
  { t with proc := Function.update t.proc p (f (t.proc p)) }

@[simp] theorem modify_self (t : Table n) (p : Fin n) (f : Proc n → Proc n) :
    (t.modify p f).proc p = f (t.proc p) := by simp [modify]

theorem modify_ne (t : Table n) {p x : Fin n} (h : x ≠ p) (f : Proc n → Proc n) :
    (t.modify p f).proc x = t.proc x := by simp [modify, h]

/-- The critical section of `allocproc` and of what `fork` does before it releases the
child's lock, on an unused slot. -/
def allocproc (t : Table n) (np : Fin n) (memory : Bool) : Table n :=
  let t' := { t with nextpid := Int.bmod (t.nextpid + 1) (2 ^ 32), forks := t.forks + 1 }
  if memory then
    t'.modify np fun q => { q with pid := t.nextpid, state := .used, marked := false }
  else
    t'.modify np fun _ => .free n

end Table

variable {n : ℕ}

/-- The points at which a process waits for `wait_lock`. -/
def enter : Control n → Option (Control n)
  | .adopt np pid => some (.adopt np pid)
  | .exit status => some (.exit status)
  | .wait addr => some (.wait addr)
  | _ => none

/-- What the holder of `wait_lock` does. The channel of a `wait` is the waiting process. -/
def move [NeZero n] (p : Fin n) (l : Control n) (t : Table n) :
    Move (Option (Fin n)) (Control n) (Table n) Empty :=
  match l with
  | .adopt np pid => .release (.publish np pid) (t.modify np fun q => { q with parent := some p })
  | .exit status => .stay (.reparent status (List.finRange n)) t
  | .reparent status [] => .wakeup (t.proc p).parent (.die status) { t with dying := some p }
  | .reparent status (x :: todo) =>
    if (t.proc x).parent = some p then
      .wakeup (some 0) (.reparent status todo) (t.modify x fun q => { q with parent := some 0 })
    else
      .stay (.reparent status todo) t
  | .die status => .release .dead
      { t.modify p (fun q => { q with xstate := status, state := .zombie }) with dying := none }
  | .wait addr => .stay (.waitScan addr false (List.finRange n)) t
  | .waitScan _ false [] => .release (.waited (-1) none) t
  | .waitScan addr true [] => .stay (.waitKilled addr) t
  | .waitScan addr havekids (x :: todo) =>
    if (t.proc x).parent = some p then
      if (t.proc x).state = .zombie then
        if addr = some false then
          .release (.waited (-1) none) t
        else
          .release (.waited (t.proc x).pid (addr.map fun _ => (t.proc x).xstate))
            (t.modify x fun _ => .free n)
      else
        .stay (.waitScan addr true todo) t
    else
      .stay (.waitScan addr havekids todo) t
  | .waitKilled addr =>
    if (t.proc p).killed then .release (.waited (-1) none) t else .stay (.waitSleep addr) t
  | .waitSleep addr => .sleep (some p) (.wait addr)
  | l => .stay l t

/-- A process in user space makes a system call or faults. `exit` of `initproc` panics. -/
def call [NeZero n] (p : Fin n) (t : Table n) : Choice → Option (Control n × Table n)
  | .fork => some (.alloc (List.finRange n), t)
  | .exit status => if p = 0 then none else some (.exit status, t)
  | .wait addr => some (.wait addr, t)
  | .fault => some (.user, t.modify p fun q => { q with killed := true, marked := true })
  | _ => none

def run [NeZero n] (p : Fin n) (k : Choice) (l : Control n) (t : Table n) :
    Option (Control n × Table n) :=
  match l, k with
  | .dead, .start => if (t.proc p).state = .live then some (.user, t) else none
  | .user, k | .forked _, k | .waited _ _, k => call p t k
  | .alloc [], .next _ => some (.forked (-1), t)
  | .alloc (x :: todo), .next memory =>
    if (t.proc x).state = .unused then
      some (if memory then .adopt x t.nextpid else .forked (-1), t.allocproc x memory)
    else
      some (.alloc todo, t)
  | .publish np pid, .next _ => some (.forked pid, t.modify np fun q => { q with state := .live })
  | _, _ => none

def Control.inUser : Control n → Bool
  | .user | .forked _ | .waited _ _ => true
  | _ => false

/-- Everything a process can do without `wait_lock`. -/
inductive Ran [NeZero n] (p : Fin n) (t : Table n) : Control n → Control n → Table n → Prop where
  | start (live : (t.proc p).state = .live) : Ran p t .dead .user t
  | fork (l : Control n) (user : l.inUser = true) : Ran p t l (.alloc (List.finRange n)) t
  | exit (l : Control n) (user : l.inUser = true) (status : ℤ) (ne : p ≠ 0) :
      Ran p t l (.exit status) t
  | wait (l : Control n) (user : l.inUser = true) (addr : StatusAddr) : Ran p t l (.wait addr) t
  | fault (l : Control n) (user : l.inUser = true) :
      Ran p t l .user (t.modify p fun q => { q with killed := true, marked := true })
  | full : Ran p t (.alloc []) (.forked (-1)) t
  | skip (x : Fin n) (todo : List (Fin n)) : Ran p t (.alloc (x :: todo)) (.alloc todo) t
  | alloc (x : Fin n) (todo : List (Fin n)) (unused : (t.proc x).state = .unused) :
      Ran p t (.alloc (x :: todo)) (.adopt x t.nextpid) (t.allocproc x true)
  | fail (x : Fin n) (todo : List (Fin n)) (unused : (t.proc x).state = .unused) :
      Ran p t (.alloc (x :: todo)) (.forked (-1)) (t.allocproc x false)
  | publish (np : Fin n) (pid : ℤ) :
      Ran p t (.publish np pid) (.forked pid) (t.modify np fun q => { q with state := .live })

theorem ran_of_run [NeZero n] {p : Fin n} {k : Choice} {l l' : Control n} {t t' : Table n}
    (h : run p k l t = some (l', t')) : Ran p t l l' t' := by
  have hcall (hl : l.inUser = true) (h : call p t k = some (l', t')) : Ran p t l l' t' := by
    cases k with
    | fork =>
      cases h
      exact .fork l hl
    | exit status =>
      simp only [call] at h
      split at h <;> cases h
      exact .exit l hl status ‹_›
    | wait addr =>
      cases h
      exact .wait l hl addr
    | fault =>
      cases h
      exact .fault l hl
    | start => cases h
    | next memory => cases h
  cases l with
  | user => exact hcall rfl h
  | forked r => exact hcall rfl h
  | waited r status => exact hcall rfl h
  | dead =>
    cases k with
    | start =>
      simp only [run] at h
      split at h <;> cases h
      exact .start ‹_›
    | _ => cases h
  | alloc todo =>
    cases k with
    | next memory =>
      cases todo with
      | nil =>
        cases h
        exact .full
      | cons x todo =>
        simp only [run] at h
        split at h
        · cases memory <;> cases h
          · exact .fail x todo ‹_›
          · exact .alloc x todo ‹_›
        · cases h
          exact .skip x todo
    | _ => cases todo <;> cases h
  | publish np pid =>
    cases k with
    | next memory =>
      cases h
      exact .publish np pid
    | _ => cases h
  | _ => cases k <;> cases h

def monitor (n : ℕ) [NeZero n] :
    Monitor (Fin n) (Option (Fin n)) (Control n) (Table n) Empty Choice where
  procs := List.finRange n
  enter := enter
  move := move
  run := run

/-- The part of `kill` and `setkilled` that changes a slot. -/
def flags (n : ℕ) : Flags (Fin n) (Table n) where
  killed t p := (t.proc p).killed
  kill q t := t.modify q fun q => { q with killed := true, marked := true }

abbrev Processes (n : ℕ) := State (Fin n) (Option (Fin n)) (Control n) (Table n) Empty

/-- After `userinit`: `initproc` is runnable, and every other slot is free. -/
def boot (n : ℕ) [NeZero n] : Processes n where
  shared :=
    { proc := fun p => if p = 0 then { Proc.free n with state := .live, pid := 1 } else .free n
      nextpid := 2
      forks := 0
      dying := none }
  lock := none
  phase _ := .outside .dead
  panicked := none

def Step [NeZero n] (s : Processes n) (e : KEvent (Fin n) Choice) (t : Processes n) : Prop :=
  next (monitor n) (flags n) s e = some t

abbrev Reached [NeZero n] (s : Processes n) : Prop := Reachable (fun s => s = boot n) Step s

end Xv6.Process
