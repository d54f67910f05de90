import Xv6.CountingProcesses
import Xv6.FileWrites
import Xv6.InodeTable

/-!
# The file system run by one system call after the other

The steps of the file-system programs on a disk of blocks, for processes that take turns between
system calls.
-/

namespace Xv6.Fs

open OperationPrograms LittleEndianBlocks

inductive Stop where
  | panic (e : Panic)
  | deadlock
  | nullPointer
  deriving DecidableEq

structure State (P : Type) where
  store : Store
  table : Table P
  cwd : P → Option Slot
  ofile : P → Fin nOFile → Option File

namespace State

variable {P : Type} [DecidableEq P]

/-- `myproc()->ofile[fd]`, with the bounds checked as by `argfd`. -/
def file (s : State P) (p : P) (fd : ℕ) : Option File :=
  if h : fd < nOFile then s.ofile p ⟨fd, h⟩ else none

def setCwd (s : State P) (p : P) (c : Option Slot) : State P :=
  { s with cwd := Function.update s.cwd p c }

def setFile (s : State P) (p : P) (fd : Fin nOFile) (f : Option File) : State P :=
  { s with ofile := Function.update s.ofile p (Function.update (s.ofile p) fd f) }

def modify (s : State P) (ip : Slot) (f : Inode P → Inode P) : State P :=
  { s with table := s.table.modify ip f }

def settle (s : State P) (ip : Slot) (st : Store) (copy : Dinode) : State P :=
  { s.modify ip fun x => { x with copy } with store := st }

/-- `filealloc` and `fdalloc`: the environment may have no free `struct file`. -/
def fdalloc (s : State P) (p : P) (ip : Slot) (readable writable : Bool) :
    Option ℕ × State P :=
  let s' := { s with store := { s.store with calls := s.store.calls + 1 } }
  if s.store.deny s.store.calls then (none, s')
  else
    match (List.finRange nOFile).find? fun fd => s.ofile p fd = none with
    | none => (none, s')
    | some fd =>
      (some fd, s'.setFile p fd
        (some ⟨ip, 0, readable, writable, (s.table ip).copy.type = tDevice⟩))

end State

variable {P : Type} [DecidableEq P]

def raise {α : Type} : Except Panic α → Except Stop α
  | .ok a => .ok a
  | .error e => .error (.panic e)

def perform (sb : Superblock) (p : P) :
    (op : FsOp) → State P → Except Stop (op.Res × State P)
  | .cwd, s =>
    match s.cwd p with
    | none => .error .nullPointer
    | some ip => .ok (ip, s)
  | .takeCwd, s =>
    match s.cwd p with
    | none => .error .nullPointer
    | some ip => .ok (ip, s.setCwd p none)
  | .setCwd ip, s => .ok ((), s.setCwd p (some ip))
  | .fdalloc ip readable writable, s => .ok (s.fdalloc p ip readable writable)
  | .argfd fd, s => .ok (s.file p fd, s)
  | .takeFile fd, s =>
    if h : fd < nOFile then
      match s.ofile p ⟨fd, h⟩ with
      | none => .error .nullPointer
      | some f => .ok (f.ip, s.setFile p ⟨fd, h⟩ none)
    else .error .nullPointer
  | .setOff fd off, s =>
    if h : fd < nOFile then
      .ok ((), s.setFile p ⟨fd, h⟩ ((s.ofile p ⟨fd, h⟩).map fun f => { f with off }))
    else .error .nullPointer
  | .beginOp, s => .ok ((), s)
  | .endOp, s => .ok ((), s)
  | .iget inum, s =>
    match s.table.iget inum with
    | none => .error (.panic .igetNoInodes)
    | some (ip, table) => .ok (ip, { s with table })
  | .idup ip, s => .ok ((), s.modify ip fun x => { x with ref := x.ref + 1 })
  | .inum ip, s => .ok ((s.table ip).inum, s)
  | .acquire ip, s =>
    if (s.table ip).ref < 1 then .error (.panic .ilock)
    else if (s.table ip).lock = none then .ok ((), s.modify ip fun x => { x with lock := some p })
    else .error .deadlock
  | .load ip, s =>
    if (s.table ip).valid then .ok ((), s)
    else
      let d := dinode sb s.store.disk (s.table ip).inum
      if d.type = 0 then .error (.panic .ilockNoType)
      else .ok ((), s.modify ip fun x => { x with valid := true, copy := d })
  | .iunlock ip, s =>
    if (s.table ip).lock = some p ∧ 1 ≤ (s.table ip).ref then
      .ok ((), s.modify ip fun x => { x with lock := none })
    else .error (.panic .iunlock)
  | .iputTest ip, s =>
    if Table.frees (s.table ip) then
      if (s.table ip).lock = none then
        .ok (true, s.modify ip fun x => { x with lock := some p })
      else .error .deadlock
    else .ok (false, s.modify ip fun x => { x with ref := x.ref - 1 })
  | .invalidate ip, s => .ok ((), s.modify ip fun x => { x with valid := false })
  | .releasesleep ip, s => .ok ((), s.modify ip fun x => { x with lock := none })
  | .iputDrop ip, s => .ok ((), s.modify ip fun x => { x with ref := x.ref - 1 })
  | .claim inum type, s =>
    let r := claimDinode sb s.store inum type
    .ok (r.1, { s with store := r.2 })
  | .fields ip, s => .ok ((s.table ip).copy, s)
  | .setType ip type, s =>
    .ok ((), s.modify ip fun x => { x with copy := { x.copy with type } })
  | .setDev ip major minor, s =>
    .ok ((), s.modify ip fun x => { x with copy := { x.copy with major, minor } })
  | .setNlink ip nlink, s =>
    .ok ((), s.modify ip fun x => { x with copy := { x.copy with nlink } })
  | .iupdate ip, s =>
    .ok ((), { s with store := s.store.iupdate sb (s.table ip).inum (s.table ip).copy })
  | .itrunc ip, s => do
    let r ← raise (itruncBlocks sb (s.table ip).inum (s.table ip).copy s.store)
    .ok ((), s.settle ip r.2 r.1)
  | .readDirent dp off, s => do
    let r ← raise (readiBlocks sb (s.table dp).inum (s.table dp).copy s.store (fun _ => true) off
      direntSize)
    .ok (if r.1.1 = direntSize then some (decodeDirent r.1.2) else none,
      s.settle dp r.2.2 r.2.1)
  | .writeDirent dp off de, s => do
    let r ← raise (writeiBlocks sb (s.table dp).inum (s.table dp).copy s.store (direntSrc de) off
      direntSize)
    .ok (decide (r.1 = direntSize), s.settle dp r.2.2 r.2.1)
  | .readi ip dst off n, s => do
    let r ← raise (readiBlocks sb (s.table ip).inum (s.table ip).copy s.store dst off n)
    .ok (r.1.1, s.settle ip r.2.2 r.2.1)
  | .writei ip src off n, s => do
    let r ← raise (writeiBlocks sb (s.table ip).inum (s.table ip).copy s.store src off n)
    .ok (r.1, s.settle ip r.2.2 r.2.1)
  | .panic e, _ => .error (.panic e)

end Xv6.Fs
