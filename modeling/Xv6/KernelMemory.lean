import Xv6.KernelParameters
import Xv6.OperationPrograms
import Mathlib.Logic.Function.Basic

/-!
# The memory of the kernel

Physical memory by pages, the list of free pages that is threaded through them, and the
tables of processes and open files. The memory-management code of the kernel is written as
programs over single accesses to this state: `kalloc` and `kfree` of `kalloc.c` are one
access each, since `kmem.lock` is held in them. Any call of `kalloc` may be told to find no
memory.
-/

namespace Xv6.Vm
open Function

open OperationPrograms LittleEndianBlocks

/-! ### Sizes and addresses of `riscv.h` and `memlayout.h` -/

def pgSize : ℕ := 4096

/-- `KERNBASE`, as the number of a page. -/
def kernBase : ℕ := 0x80000

/-- `PHYSTOP`, as the number of a page. -/
def physTop : ℕ := 0x88000

def maxVa : ℕ := 2 ^ 38

def trampoline : ℕ := maxVa - pgSize

def trapframe : ℕ := trampoline - pgSize

/-- `PGROUNDUP`, in 64 bits. -/
def pgRoundUp (sz : ℕ) : ℕ := (sz + (pgSize - 1)) % 2 ^ 64 / pgSize * pgSize

def pgRoundDown (a : ℕ) : ℕ := a / pgSize * pgSize

/-- Where the kernel's image lies in memory: the page of the trampoline code is inside it,
and the first whole page behind `end` is the first one that can be allocated. -/
structure Machine where
  trampolinePage : ℕ
  first : ℕ
  image : kernBase ≤ trampolinePage
  behind : trampolinePage < first
  room : first ≤ physTop

def Machine.InPool (m : Machine) (p : ℕ) : Prop := m.first ≤ p ∧ p < physTop

/-! ### The tables -/

/-- `enum procstate`, where `runnable` stands for `SLEEPING`, `RUNNABLE` and `RUNNING`. -/
inductive ProcState where
  | unused
  | used
  | runnable
  | zombie
  deriving DecidableEq, Repr

inductive FileType where
  | none
  | pipe
  | inode
  | device
  deriving DecidableEq, Repr

/-- `struct file`, as far as memory and its reference count are concerned. -/
structure File where
  type : FileType
  ref : ℕ
  readable : Bool
  writable : Bool
  pipe : ℕ
  deriving DecidableEq

/-- `struct proc`. Addresses are numbers, and zero is the null pointer. -/
structure Proc where
  state : ProcState
  pid : ℤ
  xstate : ℤ
  parent : Option (Fin nProc)
  sz : ℕ
  pagetable : ℕ
  trapframe : ℕ
  ofile : Fin nOFile → Option (Fin nFile)
  name : List UInt8

/-- The process table with `nextpid`, and the file table. -/
structure Tables where
  proc : Fin nProc → Proc
  nextpid : ℤ
  file : Fin nFile → File

/-- What the kernel has in memory. Beside that, `calls` counts the calls of `kalloc`,
`taken` says which pages `kalloc` has handed out, and `stale` which bytes of them nothing has
been stored to since. -/
structure Kernel where
  page : ℕ → Bytes pgSize
  freelist : ℕ
  tables : Tables
  calls : ℕ
  taken : ℕ → Bool
  stale : ℕ → ℕ → Bool

/-- Why the kernel stops. The last four are not panics of the source: an access that is not
within one page of RAM, `kalloc` returning a page that is in use, `kfree` of a page that is
not, and a use of bytes in a kernel structure that were never stored. -/
inductive Panic where
  | kfree
  | walk
  | mappagesVa
  | mappagesSizeAligned
  | mappagesSize
  | mappagesRemap
  | uvmunmapAligned
  | uvmunmapWalk
  | uvmunmapNotMapped
  | uvmunmapNotLeaf
  | uvmfirst
  | freewalkLeaf
  | uvmcopyPte
  | uvmcopyPresent
  | uvmclear
  | loadseg
  | filedup
  | fileclose
  | initExiting
  | wild
  | reused
  | freedTwice
  | staleRead
  deriving DecidableEq, Repr

/-! ### Single accesses -/

inductive Op where
  | kalloc
  | kfree (pa : ℕ)
  /-- read a number of `k` bytes of a kernel structure -/
  | load (pa k : ℕ)
  /-- store a number of `k` bytes -/
  | store (pa v k : ℕ)
  /-- `memset(pa, 0, PGSIZE)` -/
  | memset (pa : ℕ)
  /-- `memmove(dst, src, PGSIZE)` -/
  | memmove (dst src : ℕ)
  /-- `memmove` into a page from elsewhere -/
  | put (pa : ℕ) (bs : List UInt8)
  /-- `memmove` out of a page of the kernel -/
  | take (pa n : ℕ)
  /-- `memmove` out of a page of a user -/
  | takeUser (pa n : ℕ)
  | tables
  | setTables (t : Tables)
  | panic (e : Panic)

abbrev Op.Res : Op → Type
  | kalloc => ℕ
  | load _ _ => ℕ
  | take _ _ => List UInt8
  | takeUser _ _ => List UInt8
  | tables => Tables
  | panic _ => Empty
  | _ => Unit

abbrev K := Prog Op Op.Res

def off (pa : ℕ) : ℕ := pa % pgSize

/-- `n` bytes from an address on are in one page of RAM. -/
def Fits (pa n : ℕ) : Prop := kernBase ≤ pa / pgSize ∧ pa / pgSize < physTop ∧ off pa + n ≤ pgSize

instance (pa n : ℕ) : Decidable (Fits pa n) := inferInstanceAs (Decidable (_ ∧ _ ∧ _))

namespace Kernel

/-- Store into a page; `w` says which bytes. -/
def write (s : Kernel) (p : ℕ) (b : Bytes pgSize) (w : ℕ → Bool) : Kernel :=
  { s with
    page := update s.page p b
    stale := update s.stale p fun i => s.stale p i && !w i }

/-- Nothing is known about one of the `n` bytes from an address on. -/
def anyStale (s : Kernel) (pa n : ℕ) : Bool :=
  (List.range n).any fun i => s.stale (pa / pgSize) (off pa + i)

/-- `kalloc`, when it is not told to fail. The first bytes of the page still hold the link of
the free list. -/
def kalloc (s : Kernel) : Except Panic (ℕ × Kernel) :=
  let p := s.freelist / pgSize
  if s.freelist = 0 then
    .ok (0, s)
  else if ¬Fits s.freelist 8 then
    .error .wild
  else if s.taken p then
    .error .reused
  else
    .ok (s.freelist,
      { s with
        freelist := getField (s.page p) 0 8
        taken := update s.taken p true
        stale := update s.stale p fun i => 8 ≤ i })

/-- `kfree`, in the configuration that does not fill the page with junk. -/
def kfree (m : Machine) (s : Kernel) (pa : ℕ) : Except Panic (Unit × Kernel) :=
  let p := pa / pgSize
  if pa % pgSize ≠ 0 ∨ p < m.first ∨ physTop ≤ p then
    .error .kfree
  else if ¬s.taken p then
    .error .freedTwice
  else
    .ok ((),
      { s with
        page := update s.page p (putField (s.page p) 0 s.freelist 8)
        freelist := pa
        taken := update s.taken p false })

end Kernel

/-- Perform one access; `deny n` tells the call of `kalloc` with number `n` to fail. -/
def perform (m : Machine) (deny : ℕ → Bool) :
    (op : Op) → Kernel → Except Panic (op.Res × Kernel)
  | .kalloc, s =>
    if deny s.calls then
      .ok ((0 : ℕ), { s with calls := s.calls + 1 })
    else
      Kernel.kalloc { s with calls := s.calls + 1 }
  | .kfree pa, s => Kernel.kfree m s pa
  | .load pa k, s =>
    if ¬Fits pa k then
      .error .wild
    else if s.anyStale pa k then
      .error .staleRead
    else
      .ok (getField (s.page (pa / pgSize)) (off pa) k, s)
  | .store pa v k, s =>
    if Fits pa k then
      .ok ((), s.write (pa / pgSize) (putField (s.page (pa / pgSize)) (off pa) v k)
        fun i => off pa ≤ i ∧ i < off pa + k)
    else
      .error .wild
  | .memset pa, s =>
    if Fits pa pgSize then
      .ok ((), s.write (pa / pgSize) (fun _ => 0) fun _ => true)
    else
      .error .wild
  | .memmove dst src, s =>
    if Fits dst pgSize ∧ Fits src pgSize then
      .ok ((),
        { s with
          page := update s.page (dst / pgSize) (s.page (src / pgSize))
          stale := update s.stale (dst / pgSize) (s.stale (src / pgSize)) })
    else
      .error .wild
  | .put pa bs, s =>
    if Fits pa bs.length then
      .ok ((), s.write (pa / pgSize) (putBytes (s.page (pa / pgSize)) (off pa) bs)
        fun i => off pa ≤ i ∧ i < off pa + bs.length)
    else
      .error .wild
  | .take pa n, s =>
    if ¬Fits pa n then
      .error .wild
    else if s.anyStale pa n then
      .error .staleRead
    else
      .ok (getBytes (s.page (pa / pgSize)) (off pa) n, s)
  | .takeUser pa n, s =>
    if Fits pa n then
      .ok (getBytes (s.page (pa / pgSize)) (off pa) n, s)
    else
      .error .wild
  | .tables, s => .ok (s.tables, s)
  | .setTables t, s => .ok ((), { s with tables := t })
  | .panic e, _ => .error e

/-! ### Single accesses as programs -/

def access (op : Op) : K op.Res := .perform op

def kalloc : K ℕ := access .kalloc
def kfree (pa : ℕ) : K Unit := access (.kfree pa)
def load (pa k : ℕ) : K ℕ := access (.load pa k)
def store (pa v k : ℕ) : K Unit := access (.store pa v k)
def memset (pa : ℕ) : K Unit := access (.memset pa)
def memmove (dst src : ℕ) : K Unit := access (.memmove dst src)
def put (pa : ℕ) (bs : List UInt8) : K Unit := access (.put pa bs)
def take (pa n : ℕ) : K (List UInt8) := access (.take pa n)
def takeUser (pa n : ℕ) : K (List UInt8) := access (.takeUser pa n)
def tables : K Tables := access .tables
def setTables (t : Tables) : K Unit := access (.setTables t)
def panic {α : Type} (e : Panic) : K α := .call (.panic e) fun r => nomatch (show Empty from r)

end Xv6.Vm
