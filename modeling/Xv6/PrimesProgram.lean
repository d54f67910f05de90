import Xv6.KernelParameters
import Xv6.TransitionSystems
import Mathlib.Data.Finset.Basic

/-!
# The primes pipeline

The processes of `user/primes.c`. Every process forks once at most: process 0 runs `main`, process
`j + 1` is the child of process `j`, and pipe `j` is the pipe that process `j` creates. `read` and
`write` act in the critical sections of `piperead` and `pipewrite`: a reader takes what is there,
a writer adds what fits and sleeps on a full pipe.
-/

namespace Xv6.Primes
open TransitionSystems LittleEndianBlocks

inductive End where
  | read
  | write
  deriving DecidableEq, Repr

structure Pipe where
  accepted : List UInt8
  taken : ℕ
  deriving DecidableEq

def Pipe.buffer (pi : Pipe) : List UInt8 := pi.accepted.drop pi.taken

inductive Pc where
  /-- `pipe(p)` in `main` -/
  | mainPipe
  /-- `fork()` in `main` -/
  | mainFork
  /-- `close(p[1])` in the child of `main` -/
  | mainChild
  /-- `close(p[0])` in `main` -/
  | feedClose
  /-- the head of the loop in `main` -/
  | feed (i : ℕ)
  /-- `write(p[1], &i, 4)`, after `sent` bytes -/
  | feedWrite (i sent : ℕ)
  /-- `fprintf(2, "write error\n")` -/
  | complain (rest : List Char)
  /-- `close(p[1])` in `main` -/
  | feedEnd
  /-- the first `read` in `sieve` -/
  | first
  /-- `close(left_fd)` at the end of the input -/
  | eof
  /-- `printf("prime %d\n", prime)` -/
  | print (rest : List Char)
  /-- `pipe(p)` in `sieve` -/
  | pipe
  /-- `fork()` in `sieve` -/
  | fork
  /-- `close(p[1])` in the child -/
  | child
  /-- `close(left_fd)` in the child -/
  | childLeft
  /-- `close(p[0])` in the parent -/
  | closeRead
  /-- the `read` of the loop in `sieve` -/
  | next
  /-- the test of `n` -/
  | filter
  /-- `write(p[1], &n, 4)`, after `sent` bytes -/
  | write (sent : ℕ)
  /-- `close(left_fd)` behind the loop -/
  | closeLeft
  /-- `close(p[1])` behind the loop -/
  | closeRight
  /-- `wait(0)` -/
  | wait
  /-- `exit(0)` -/
  | quit
  | exited (status : ℕ)
  deriving DecidableEq

structure Proc where
  pc : Pc
  fds : Finset (ℕ × End)
  prime : Bytes 4
  n : Bytes 4

/-- The processes and pipes, what was printed, and what every `read` of an `int` returned. -/
structure State where
  count : ℕ
  proc : ℕ → Proc
  pipe : ℕ → Pipe
  output : List Char
  reads : List ℤ

/-- The memory of an `int` with value `v`. -/
def intVar (v : ℕ) : Bytes 4 := putWord (fun _ => 0) 0 v

/-- The text of `printf("prime %d\n", p)`. -/
def line (p : ℕ) : List Char := "prime ".toList ++ Nat.toDigits 10 p ++ ['\n']

namespace State

def set (s : State) (j : ℕ) (q : Proc) : State := { s with proc := Function.update s.proc j q }

def goto (s : State) (j : ℕ) (pc : Pc) : State := s.set j { s.proc j with pc := pc }

def newPipe (s : State) (j : ℕ) (pc : Pc) : State :=
  { s.set j { s.proc j with
      pc := pc
      fds := insert (j, .read) (insert (j, .write) (s.proc j).fds) } with
    pipe := Function.update s.pipe j ⟨[], 0⟩ }

def close (s : State) (j : ℕ) (fd : ℕ × End) (pc : Pc) : State :=
  s.set j { s.proc j with pc := pc, fds := (s.proc j).fds.erase fd }

def exit (s : State) (j status : ℕ) : State :=
  s.set j { s.proc j with pc := .exited status, fds := ∅ }

/-- `fork()`, where the parent goes on at `pc` and the child at `pc'`. The variables of the
child's own call of `sieve` hold anything. -/
def fork (s : State) (j : ℕ) (pc pc' : Pc) : State :=
  { (s.goto j pc).set (j + 1) { s.proc (j + 1) with pc := pc', fds := (s.proc j).fds } with
    count := j + 2 }

def isOpen (s : State) (fd : ℕ × End) : Bool :=
  (List.range s.count).any fun j => fd ∈ (s.proc j).fds

/-- `read(fd, &v, 4)` from pipe `k` by process `j`, which becomes `cont r bs` with the result `r`
and the bytes `bs`; `none` while it sleeps. -/
def read (s : State) (j k : ℕ) (cont : ℤ → List UInt8 → Proc) : Option State :=
  if (k, .read) ∉ (s.proc j).fds then
    some { s.set j (cont (-1) []) with reads := s.reads ++ [-1] }
  else if (s.pipe k).buffer = [] ∧ s.isOpen (k, .write) = true then
    none
  else
    let bs := (s.pipe k).buffer.take 4
    some { s.set j (cont bs.length bs) with
      pipe := Function.update s.pipe k
        { s.pipe k with taken := (s.pipe k).taken + bs.length }
      reads := s.reads ++ [(bs.length : ℤ)] }

/-- `write(fd, &v, 4)` to pipe `k` by process `j` after `sent` bytes; `none` while it sleeps. The
process goes on at `again m` after `m` bytes and at `done r` with the result `r`. -/
def write (s : State) (j k : ℕ) (v : Bytes 4) (sent : ℕ) (again : ℕ → Pc) (done : ℤ → Pc) :
    Option State :=
  if (k, .write) ∉ (s.proc j).fds ∨ s.isOpen (k, .read) = false then
    some (s.goto j (done (-1)))
  else if (s.pipe k).buffer.length = pipeSize then
    none
  else
    let bs := ((getBytes v 0 4).drop sent).take (pipeSize - (s.pipe k).buffer.length)
    some { s.goto j (if sent + bs.length = 4 then done 4 else again (sent + bs.length)) with
      pipe := Function.update s.pipe k
        { s.pipe k with accepted := (s.pipe k).accepted ++ bs } }

def putc (s : State) (j : ℕ) (c : Char) (pc : Pc) : State :=
  { s.goto j pc with output := s.output ++ [c] }

end State

def Pc.isExited : Pc → Bool
  | .exited _ => true
  | _ => false

/-- One step of process `j`, with `bound` in place of 280. -/
def step (bound : ℕ) (s : State) (j : ℕ) : Option State :=
  let q := s.proc j
  if j < s.count then
    match q.pc with
    | .mainPipe => some (s.newPipe j .mainFork)
    | .mainFork => some (s.fork j .feedClose .mainChild)
    | .mainChild => some (s.close j (j - 1, .write) .first)
    | .feedClose => some (s.close j (j, .read) (.feed 2))
    | .feed i => some (s.goto j (if i ≤ bound then .feedWrite i 0 else .feedEnd))
    | .feedWrite i sent =>
      s.write j j (intVar i) sent (.feedWrite i)
        fun r => if r = 4 then .feed (i + 1) else .complain "write error\n".toList
    | .complain (c :: rest) => some (s.putc j c (.complain rest))
    | .complain [] => some (s.exit j 1)
    | .feedEnd => some (s.close j (j, .write) .wait)
    | .first =>
      s.read j (j - 1) fun r bs =>
        let prime := putBytes q.prime 0 bs
        if r = 0 then { q with pc := .eof }
        else { q with prime := prime, pc := .print (line (getWord prime 0)) }
    | .eof => some (s.close j (j - 1, .read) .quit)
    | .print (c :: rest) => some (s.putc j c (.print rest))
    | .print [] => some (s.goto j .pipe)
    | .pipe => some (s.newPipe j .fork)
    | .fork => some (s.fork j .closeRead .child)
    | .child => some (s.close j (j - 1, .write) .childLeft)
    | .childLeft => some (s.close j (j - 2, .read) .first)
    | .closeRead => some (s.close j (j, .read) .next)
    | .next =>
      s.read j (j - 1) fun r bs =>
        if 0 < r then { q with n := putBytes q.n 0 bs, pc := .filter }
        else { q with pc := .closeLeft }
    | .filter =>
      some (s.goto j (if getWord q.n 0 % getWord q.prime 0 ≠ 0 then .write 0 else .next))
    | .write sent => s.write j j q.n sent .write fun _ => .next
    | .closeLeft => some (s.close j (j - 1, .read) .closeRight)
    | .closeRight => some (s.close j (j, .write) .wait)
    | .wait =>
      -- without a child, `wait` returns at once
      if j + 1 < s.count ∧ (s.proc (j + 1)).pc.isExited = false then none else some (s.goto j .quit)
    | .quit => some (s.exit j 0)
    | .exited _ => none
  else none

/-- `main` is about to start; nothing is known of the memory that will hold the variables. -/
structure Initial (s : State) : Prop where
  count : s.count = 1
  pc : (s.proc 0).pc = .mainPipe
  fds : (s.proc 0).fds = ∅
  pipe : ∀ k, s.pipe k = ⟨[], 0⟩
  output : s.output = []
  reads : s.reads = []

def Step (bound : ℕ) (s : State) (j : ℕ) (t : State) : Prop := step bound s j = some t

end Xv6.Primes
