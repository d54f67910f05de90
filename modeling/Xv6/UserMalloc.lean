import Xv6.AddressOrderedFreeLists
import Xv6.AddressSpaces

/-!
# The allocator of user programs

`malloc` and `free` of `umalloc.c` as programs that load and store the bytes of a process. A
header has the address of the next free block in its first eight bytes, and the size of its
block, in units of headers, in the four bytes behind them. The loops have fuel.
-/

namespace Xv6.Umalloc

open OperationPrograms LittleEndianBlocks
open Vm (npages pgSize maxVa kernBase physTop)

def headerSize : ℕ := 16

def memSize : ℕ := (physTop - kernBase) * pgSize

/-- A process: its memory, the size of it, the variable `freep`, how often `sbrk` was called,
and the amounts that it was called with and did not fail, the last one first. -/
structure User where
  mem : Bytes maxVa
  sz : ℕ
  freep : ℕ
  calls : ℕ
  granted : List ℤ

/-- Why a program does not go on: it was killed, or its fuel is used up. -/
inductive Trap where
  | fault
  | fuel
deriving DecidableEq

inductive Op where
  | load (a k : ℕ)
  | store (a v k : ℕ)
  | getFreep
  | setFreep (p : ℕ)
  | sbrk (n : Int32)
  | stop

def Op.Res : Op → Type
  | .load .. => ℕ
  | .store .. => Unit
  | .getFreep => ℕ
  | .setFreep _ => Unit
  | .sbrk _ => ℕ
  | .stop => Empty

/-- The program may touch the `k` bytes from `a` on. -/
def User.Fits (s : User) (a k : ℕ) : Prop := a + k ≤ npages s.sz * pgSize

instance (s : User) (a k : ℕ) : Decidable (s.Fits a k) := inferInstanceAs (Decidable (_ ≤ _))

/-- What the calls of `sbrk` find: which of them fail for want of memory, and the bytes that the
new pages have. `uvmalloc` does not clear them. -/
structure Ram where
  deny : ℕ → Bool
  bytes : ℕ → Bytes maxVa

def filled (mem new : Bytes maxVa) (lo hi : ℕ) : Bytes maxVa := fun i =>
  if lo ≤ i.val ∧ i.val < hi then new i else mem i

/-- `sbrk`, as `growproc` does it. If there is no memory left, then it returns -1. -/
def User.sbrk (ram : Ram) (s : User) (n : Int32) : ℕ × User :=
  let newsz := (((s.sz : ℤ) + n.toInt) % 2 ^ 64).toNat
  let done := { s with calls := s.calls + 1, granted := n.toInt :: s.granted }
  if 0 < n then
    if ram.deny s.calls ∨ memSize < newsz then (2 ^ 64 - 1, { s with calls := s.calls + 1 })
    else
      let mem := filled s.mem (ram.bytes s.calls) (npages s.sz * pgSize) (npages newsz * pgSize)
      (s.sz, { done with sz := newsz, mem })
  else if n < 0 then (s.sz, { done with sz := if newsz < s.sz then newsz else s.sz })
  else (s.sz, done)

def perform (ram : Ram) : (op : Op) → User → Except Trap (op.Res × User)
  | .load a k, s => if s.Fits a k then .ok (getField s.mem a k, s) else .error .fault
  | .store a v k, s =>
    if s.Fits a k then .ok ((), { s with mem := putField s.mem a v k }) else .error .fault
  | .getFreep, s => .ok (s.freep, s)
  | .setFreep p, s => .ok ((), { s with freep := p })
  | .sbrk n, s => .ok (s.sbrk ram n)
  | .stop, _ => .error .fuel

abbrev U := Prog Op Op.Res

def load (a k : ℕ) : U ℕ := Prog.perform (Op.load a k)
def store (a v k : ℕ) : U Unit := Prog.perform (Op.store a v k)
def getFreep : U ℕ := Prog.perform Op.getFreep
def setFreep (p : ℕ) : U Unit := Prog.perform (Op.setFreep p)
def sbrk (n : Int32) : U ℕ := Prog.perform (Op.sbrk n)
def stop {α : Type} : U α := .call .stop fun r => nomatch (show Empty from r)

def ptr (p : ℕ) : U ℕ := load p 8

def size (p : ℕ) : U ℕ := load (p + 8) 4

def setPtr (p v : ℕ) : U Unit := store p v 8

def setSize (p v : ℕ) : U Unit := store (p + 8) v 4

/-- `p + n` for a pointer to a header. -/
def after (p n : ℕ) : ℕ := (p + headerSize * n) % 2 ^ 64

def findPlace (bp : ℕ) : (fuel p : ℕ) → U ℕ
  | 0, _ => stop
  | fuel + 1, p => do
    let next ← ptr p
    if p < bp ∧ bp < next then
      return p
    else if next ≤ p ∧ (p < bp ∨ bp < next) then
      return p
    else
      findPlace bp fuel next

/-- The part of `free` that puts the block at `bp` in front of the next free block. -/
def linkNext (bp next : ℕ) : U Unit := do
  if after bp (← size bp) = next then
    setSize bp ((← size bp) + (← size next))
    setPtr bp (← ptr next)
  else
    setPtr bp next

def free (fuel ap : ℕ) : U Unit := do
  let bp := (ap + (2 ^ 64 - headerSize)) % 2 ^ 64
  let p ← findPlace bp fuel (← getFreep)
  linkNext bp (← ptr p)
  linkNext p bp
  setFreep p

def morecore (fuel nu : ℕ) : U ℕ := do
  let nu := if nu < 4096 then 4096 else nu
  let p ← sbrk (Int32.ofNat (nu * headerSize))
  if p = 2 ^ 64 - 1 then
    return 0
  else
    setSize p nu
    free fuel (after p 1)
    getFreep

/-- The part of `malloc` for a block that is large enough. -/
def takeBlock (nunits prevp p : ℕ) : U ℕ := do
  let n ← size p
  if n = nunits then
    setPtr prevp (← ptr p)
    setFreep prevp
    return after p 1
  else
    setSize p (n + (2 ^ 32 - nunits))
    let p := after p (← size p)
    setSize p nunits
    setFreep prevp
    return after p 1

def mallocLoop (nunits : ℕ) : (fuel prevp p : ℕ) → U ℕ
  | 0, _, _ => stop
  | fuel + 1, prevp, p => do
    if nunits ≤ (← size p) then
      takeBlock nunits prevp p
    else if p = (← getFreep) then
      let p ← morecore fuel nunits
      if p = 0 then
        return 0
      else
        mallocLoop nunits fuel p (← ptr p)
    else
      mallocLoop nunits fuel p (← ptr p)

/-- The number of units for a request, with the one for the header. -/
def nunits (nbytes : UInt32) : ℕ := ((nbytes.toNat + headerSize - 1) / headerSize + 1) % 2 ^ 32

/-- `malloc`, with the variable `base` at the address `base`. -/
def malloc (base fuel : ℕ) (nbytes : UInt32) : U ℕ := do
  let freep ← getFreep
  if freep = 0 then
    setFreep base
    setPtr base base
    setSize base 0
  let prevp ← getFreep
  mallocLoop (nunits nbytes) fuel prevp (← ptr prevp)

end Xv6.Umalloc
