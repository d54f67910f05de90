import Xv6.DiskLayout

/-!
# Blocks of files: allocation, mapping, reading and writing

The lower half of `fs.c`: the block allocator, the map from a file's blocks to disk blocks,
truncation, and the loops of `readi` and `writei`. A locked in-memory inode is passed in and
out as its on-disk fields. The environment may refuse any call of `balloc`, as when
the disk is full, and user memory may be unmapped at any byte.
-/

namespace Xv6.Fs

open LittleEndianBlocks

/-- A call of `balloc` that handed out a block: the disk before the call, and the inode
that asked for the block as it then was in memory. -/
structure Grant where
  block : ℕ
  disk : Disk
  inum : ℕ
  ip : Dinode

/-- The disk as it is seen through the buffer cache, which calls of `balloc` the environment
refuses, and the history of the blocks handed out and of the blocks passed to `log_write`. -/
structure Store where
  disk : Disk
  deny : ℕ → Bool
  calls : ℕ
  grants : List Grant
  log : List ℕ

namespace Store

def setData (st : Store) (x : ℕ) (blk : Block) : Store :=
  { st with disk := Function.update st.disk x blk }

/-- Change a block and pass it to `log_write`. -/
def put (st : Store) (x : ℕ) (blk : Block) : Store :=
  { st with disk := Function.update st.disk x blk, log := x :: st.log }

def iupdate (sb : Superblock) (st : Store) (i : ℕ) (ip : Dinode) : Store :=
  { st with disk := putDinode sb st.disk i ip, log := sb.iblock i :: st.log }

end Store

/-! ### The block allocator -/

def bzero (st : Store) (b : ℕ) : Store := st.put b fun _ => 0

/-- `balloc`: the two loops visit the bits in the order of their blocks. -/
def balloc (sb : Superblock) (st : Store) : ℕ × Store :=
  let st := { st with calls := st.calls + 1 }
  if st.deny (st.calls - 1) then (0, st)
  else
    match (List.range sb.size).find? fun b => !bit sb st.disk b with
    | none => (0, st)
    | some b =>
      let st := st.put (sb.bblock b) (setBit (st.disk (sb.bblock b)) (b % bpb))
      (b, bzero st b)

def bfree (sb : Superblock) (st : Store) (b : ℕ) : Except Panic Store :=
  if bit sb st.disk b then
    .ok (st.put (sb.bblock b) (clearBit (st.disk (sb.bblock b)) (b % bpb)))
  else
    .error .freeingFreeBlock

/-- The call of `balloc` by `bmap`, with its record in the history. -/
def ballocFor (sb : Superblock) (inum : ℕ) (ip : Dinode) (st : Store) : ℕ × Store :=
  let r := balloc sb st
  if r.1 = 0 then r
  else (r.1, { r.2 with grants := ⟨r.1, st.disk, inum, ip⟩ :: r.2.grants })

/-! ### The blocks of an inode -/

/-- Read `ip->addrs[k]`, allocating a block for it if there is none; zero if that fails. -/
def addrSlot (sb : Superblock) (inum : ℕ) (k : Fin (nDirect + 1)) (ip : Dinode) (st : Store) :
    ℕ × Dinode × Store :=
  if ip.addrs k = 0 then
    let r := ballocFor sb inum ip st
    if r.1 = 0 then (0, ip, r.2)
    else (r.1, { ip with addrs := Function.update ip.addrs k r.1 }, r.2)
  else
    (ip.addrs k, ip, st)

/-- Entry `j` of the indirect block `ind`, allocating a block for it if there is none. -/
def indirectSlot (sb : Superblock) (inum : ℕ) (ind j : ℕ) (ip : Dinode) (st : Store) :
    ℕ × Store :=
  if getWord (st.disk ind) (4 * j) = 0 then
    let r := ballocFor sb inum ip st
    if r.1 = 0 then (0, r.2)
    else (r.1, r.2.put ind (putWord (r.2.disk ind) (4 * j) r.1))
  else
    (getWord (st.disk ind) (4 * j), st)

def bmap (sb : Superblock) (inum : ℕ) (ip : Dinode) (st : Store) (bn : ℕ) :
    Except Panic (ℕ × Dinode × Store) :=
  if bn < nDirect then
    .ok (addrSlot sb inum (Fin.ofNat (nDirect + 1) bn) ip st)
  else if bn - nDirect < nIndirect then
    let r := addrSlot sb inum (Fin.last nDirect) ip st
    if r.1 = 0 then .ok r
    else
      let q := indirectSlot sb inum r.1 (bn - nDirect) r.2.1 r.2.2
      .ok (q.1, r.2.1, q.2)
  else
    .error .bmapOutOfRange

/-- The loops of `itrunc` over a list of block numbers. -/
def bfreeAll (sb : Superblock) (st : Store) : List ℕ → Except Panic Store
  | [] => .ok st
  | b :: bs =>
    if b = 0 then bfreeAll sb st bs
    else do
      let st ← bfree sb st b
      bfreeAll sb st bs

/-- The block numbers in `ip->addrs` before the indirect block. -/
def Dinode.direct (ip : Dinode) : List ℕ := List.ofFn fun k : Fin nDirect => ip.addrs k.castSucc

def Dinode.indirect (ip : Dinode) : ℕ := ip.addrs (Fin.last nDirect)

/-- The part of `itrunc` that frees the blocks. -/
def freeBlocks (sb : Superblock) (ip : Dinode) (st : Store) : Except Panic Store := do
  let st ← bfreeAll sb st ip.direct
  if ip.indirect = 0 then .ok st
  else bfreeAll sb st (getWords (st.disk ip.indirect) 0 nIndirect ++ [ip.indirect])

def itruncBlocks (sb : Superblock) (inum : ℕ) (ip : Dinode) (st : Store) :
    Except Panic (Dinode × Store) := do
  let st ← freeBlocks sb ip st
  let ip := { ip with addrs := fun _ => 0, size := 0 }
  .ok (ip, st.iupdate sb inum ip)

/-! ### Reading and writing -/

/-- Bytes from `off` on that the block holding `off` and the request both have. -/
def chunk (left off : ℕ) : ℕ := min left (bSize - off % bSize)

/-- `either_copyout` of `m` bytes from byte `k` of the destination on: how many bytes it stores
before the first one that is not mapped. -/
def copyout (dst : ℕ → Bool) : (m k : ℕ) → ℕ
  | 0, _ => 0
  | m + 1, k => if dst k then copyout dst m (k + 1) + 1 else 0

/-- The loop of `readi`: the bytes it stores at `dst`, and how it ends. The result is `-1` if the
copy to `dst` fails. -/
def readLoop (sb : Superblock) (inum : ℕ) (dst : ℕ → Bool) (n : ℕ) :
    (fuel tot off : ℕ) → Dinode → Store → List UInt8 × Except Panic (ℤ × Dinode × Store)
  | 0, tot, _, ip, st => ([], .ok (tot, ip, st))
  | fuel + 1, tot, off, ip, st =>
    if tot < n then
      match bmap sb inum ip st (off / bSize) with
      | .error e => ([], .error e)
      | .ok r =>
        if r.1 = 0 then ([], .ok (tot, r.2))
        else
          let m := chunk (n - tot) off
          let k := copyout dst m tot
          let bs := getBytes (r.2.2.disk r.1) (off % bSize) k
          if k < m then (bs, .ok (-1, r.2))
          else
            let q := readLoop sb inum dst n fuel (tot + m) (off + m) r.2.1 r.2.2
            (bs ++ q.1, q.2)
    else ([], .ok (tot, ip, st))

/-- `readi`: the bytes it stores at `dst`, its result and what is left behind. -/
def readiBytes (sb : Superblock) (inum : ℕ) (ip : Dinode) (st : Store) (dst : ℕ → Bool)
    (off n : ℕ) : List UInt8 × Except Panic (ℤ × Dinode × Store) :=
  if ip.size < off ∨ (off + n) % 2 ^ 32 < off then ([], .ok (0, ip, st))
  else
    let n := if ip.size < off + n then ip.size - off else n
    readLoop sb inum dst n n 0 off ip st

/-- `readi` where it returns: its result, the bytes it stored, and what is left behind. -/
def readiBlocks (sb : Superblock) (inum : ℕ) (ip : Dinode) (st : Store) (dst : ℕ → Bool)
    (off n : ℕ) : Except Panic ((ℤ × List UInt8) × Dinode × Store) :=
  let q := readiBytes sb inum ip st dst off n
  q.2.map fun r => ((r.1, q.1), r.2)

/-- `either_copyin` of `m` bytes from `src` to byte `o` of a block, up to the first one that
is not mapped: the block, and whether all bytes were copied. -/
def copyin (src : ℕ → Option UInt8) : (m o k : ℕ) → Block → Block × Bool
  | 0, _, _, blk => (blk, true)
  | m + 1, o, k, blk =>
    match src k with
    | none => (blk, false)
    | some c => copyin src m (o + 1) (k + 1) (putByte blk o c)

def direntSrc (de : Dirent) (k : ℕ) : Option UInt8 := (encodeDirent de)[k]?

/-- The loop of `writei`: how much was written, the offset behind it, and the inode. A block to
which not all bytes could be copied is not logged. -/
def writeLoop (sb : Superblock) (inum : ℕ) (src : ℕ → Option UInt8) (n : ℕ) :
    (fuel tot off : ℕ) → Dinode → Store → Except Panic (ℕ × ℕ × Dinode × Store)
  | 0, tot, off, ip, st => .ok (tot, off, ip, st)
  | fuel + 1, tot, off, ip, st =>
    if tot < n then do
      let r ← bmap sb inum ip st (off / bSize)
      if r.1 = 0 then .ok (tot, off, r.2.1, r.2.2)
      else
        let m := chunk (n - tot) off
        let c := copyin src m (off % bSize) tot (r.2.2.disk r.1)
        if c.2 then
          writeLoop sb inum src n fuel (tot + m) (off + m) r.2.1 (r.2.2.put r.1 c.1)
        else .ok (tot, off, r.2.1, r.2.2.setData r.1 c.1)
    else .ok (tot, off, ip, st)

/-- `writei`: its result, and the inode and the disk it leaves behind. -/
def writeiBlocks (sb : Superblock) (inum : ℕ) (ip : Dinode) (st : Store)
    (src : ℕ → Option UInt8) (off n : ℕ) : Except Panic (ℤ × Dinode × Store) :=
  if ip.size < off ∨ (off + n) % 2 ^ 32 < off then .ok (-1, ip, st)
  else if maxFile * bSize < (off + n) % 2 ^ 32 then .ok (-1, ip, st)
  else do
    let r ← writeLoop sb inum src n n 0 off ip st
    let ip := { r.2.2.1 with size := max r.2.2.1.size r.2.1 }
    .ok (r.1, ip, r.2.2.2.iupdate sb inum ip)

/-! ### Inode allocation -/

/-- One round of the loop of `ialloc`: take the dinode if its type says that it is free. -/
def claimDinode (sb : Superblock) (st : Store) (inum : ℕ) (type : Int16) : Bool × Store :=
  if (dinode sb st.disk inum).type = 0 then
    (true, st.iupdate sb inum { Dinode.zero with type })
  else (false, st)

end Xv6.Fs
