import Xv6.InodeBlocks

/-!
# The program that makes the initial file system

`mkfs.c` runs on the build host: it writes an image with a root directory that holds the files
named on its command line.
-/

namespace Xv6.Mkfs

open LittleEndianBlocks Fs

def fsSize : ℕ := 2000

def nInodes : ℕ := 200

def fsMagic : ℕ := 0x10203040

def nbitmap : ℕ := fsSize / bpb + 1

def ninodeblocks : ℕ := nInodes / ipb + 1

def nmeta : ℕ := 2 + nlog + ninodeblocks + nbitmap

def nblocks : ℕ := fsSize - nmeta

/-- `sb`, with the fields that the running kernel uses. -/
def sb : Superblock where
  size := fsSize
  nblocks := nblocks
  ninodes := nInodes
  inodestart := 2 + nlog
  bmapstart := 2 + nlog + ninodeblocks
  inodes_fit := by decide
  bitmap_fits := by decide
  root_lt := by decide
  boot_lt := by decide
  size_lt := by decide

def sbWords : List ℕ :=
  [fsMagic, sb.size, sb.nblocks, sb.ninodes, nlog, 2, sb.inodestart, sb.bmapstart]

inductive Failure where
  | usage
  | die
  | assertion
  deriving DecidableEq, Repr

structure State where
  image : Disk
  length : ℕ
  freeinode : ℕ
  freeblock : ℕ

/-! ### Blocks and inodes of the image -/

/-- The block at the offset `sec * BSIZE`, which is a product of 32 bits. -/
@[irreducible] def sector (sec : ℕ) : ℕ := sec * bSize % 2 ^ 32 / bSize

def wsect (s : State) (sec : ℕ) (buf : Block) : State :=
  { s with
    image := Function.update s.image (sector sec) buf
    length := max s.length (sector sec + 1) }

/-- Reading past the end finds fewer than `BSIZE` bytes. -/
def rsect (s : State) (sec : ℕ) : Except Failure Block :=
  if sector sec < s.length then .ok (s.image (sector sec)) else .error .die

def winode (s : State) (inum : ℕ) (ip : Dinode) : Except Failure State := do
  let bn := sb.iblock inum
  let buf ← rsect s bn
  .ok (wsect s bn (encodeDinode buf (inum % ipb * dinodeSize) ip))

def rinode (s : State) (inum : ℕ) : Except Failure Dinode := do
  let buf ← rsect s (sb.iblock inum)
  .ok (decodeDinode buf (inum % ipb * dinodeSize))

def ialloc (s : State) (type : Int16) : Except Failure (ℕ × State) := do
  let inum := s.freeinode
  let s := { s with freeinode := s.freeinode + 1 }
  let s ← winode s inum { Dinode.zero with type, nlink := 1, size := 0 }
  .ok (inum, s)

/-- The first `used` blocks are marked in the one bitmap block. -/
def balloc (s : State) (used : ℕ) : Except Failure State :=
  if used < bpb then
    let buf : Block := (List.range used).foldl setBit fun _ => 0
    .ok (wsect s sb.bmapstart buf)
  else .error .assertion

/-! ### Appending to a file -/

def takeBlock (s : State) : ℕ × State := (s.freeblock, { s with freeblock := s.freeblock + 1 })

/-- `din.addrs[k]`, set to the next block if it is zero. -/
def addrFor (s : State) (din : Dinode) (k : Fin (nDirect + 1)) : Dinode × State :=
  if din.addrs k = 0 then
    let r := takeBlock s
    ({ din with addrs := Function.update din.addrs k r.1 }, r.2)
  else (din, s)

/-- Entry `j` of the indirect block, set to the next block if it is zero. -/
def entryFor (s : State) (ind j : ℕ) : Except Failure (ℕ × State) := do
  let indirect ← rsect s ind
  if getWord indirect (4 * j) = 0 then
    let r := takeBlock s
    let indirect := putWord indirect (4 * j) r.1
    .ok (getWord indirect (4 * j), wsect r.2 ind indirect)
  else
    .ok (getWord indirect (4 * j), s)

/-- The block of the image that holds block `fbn` of the file. -/
def blockFor (s : State) (din : Dinode) (fbn : ℕ) : Except Failure (ℕ × Dinode × State) :=
  if fbn < nDirect then
    let r := addrFor s din (Fin.ofNat (nDirect + 1) fbn)
    .ok (r.1.addrs (Fin.ofNat (nDirect + 1) fbn), r)
  else do
    let r := addrFor s din (Fin.last nDirect)
    let q ← entryFor r.2 r.1.indirect (fbn - nDirect)
    .ok (q.1, r.1, q.2)

/-- One round of the loop of `iappend`: how many bytes it copied, and what it left. -/
def appendRound (s : State) (din : Dinode) (off : ℕ) (p : List UInt8) :
    Except Failure (ℕ × Dinode × State) :=
  let fbn := off / bSize
  if fbn < maxFile then do
    let r ← blockFor s din fbn
    let n1 := min p.length ((fbn + 1) * bSize - off)
    let buf ← rsect r.2.2 r.1
    let buf := putBytes buf (off - fbn * bSize) (p.take n1)
    .ok (n1, r.2.1, wsect r.2.2 r.1 buf)
  else .error .assertion

/-- The loop of `iappend`, with the offset it ends at. -/
def appendLoop : (fuel : ℕ) → State → Dinode → ℕ → List UInt8 →
    Except Failure (ℕ × Dinode × State)
  | 0, s, din, off, _ => .ok (off, din, s)
  | fuel + 1, s, din, off, p =>
    if 0 < p.length then do
      let r ← appendRound s din off p
      appendLoop fuel r.2.2 r.2.1 (off + r.1) (p.drop r.1)
    else .ok (off, din, s)

def iappend (s : State) (inum : ℕ) (p : List UInt8) : Except Failure State := do
  let din ← rinode s inum
  let r ← appendLoop p.length s din din.size p
  winode r.2.2 inum { r.2.1 with size := r.1 }

/-! ### The main program -/

abbrev Arg := { bytes : List UInt8 // 0 ∉ bytes }

/-- What one `read` of the host returns before the end of a file. -/
abbrev Chunk := { bytes : List UInt8 // bytes ≠ [] ∧ bytes.length ≤ bSize }

/-- An argument, and what the host gives for it: nothing if `open` fails, or else the bytes of
each `read` up to the one that returns no more. -/
structure Input where
  path : Arg
  chunks : Option (List Chunk)

def userDir : List UInt8 := [117, 115, 101, 114, 47]

def shortname (path : List UInt8) : List UInt8 :=
  if userDir.isPrefixOf path then path.drop 5 else path

def skipUnderscore (name : List UInt8) : List UInt8 :=
  if name.head? = some 95 then name.tail else name

def addFile (s : State) (f : Input) : Except Failure State :=
  if 47 ∈ shortname f.path.1 then .error .assertion
  else
    match f.chunks with
    | none => .error .die
    | some chunks =>
      let name := skipUnderscore (shortname f.path.1)
      if name.length ≤ dirSiz then do
        let r ← ialloc s tFile
        let s ← iappend r.2 rootIno (encodeDirent ⟨r.1, name⟩)
        chunks.foldlM (fun s c => iappend s r.1 c.1) s
      else .error .assertion

/-- All blocks zero, as the first loop of `main` leaves them. -/
@[irreducible] def zeroImage : State :=
  (List.range fsSize).foldl (fun s i => wsect s i fun _ => 0)
    { image := fun _ _ => 0, length := 0, freeinode := 1, freeblock := nmeta }

/-- `main` up to the loop over the files. -/
def start : Except Failure State := do
  let s := wsect zeroImage 1 (putWords (fun _ => 0) 0 sbWords)
  let r ← ialloc s tDir
  if r.1 = rootIno then do
    let s ← iappend r.2 r.1 (encodeDirent ⟨r.1, [46]⟩)
    iappend s r.1 (encodeDirent ⟨r.1, [46, 46]⟩)
  else .error .assertion

/-- The end of `main`: the size of the root directory, and the bitmap. -/
def finish (s : State) : Except Failure State := do
  let din ← rinode s rootIno
  let off := (din.size / bSize + 1) * bSize
  let s ← winode s rootIno { din with size := off }
  balloc s s.freeblock

/-- `main` with the arguments behind the program's name, the image and the files, if there are
any; `created` says whether the host opens the image for writing. The result is what the
image holds after exit status zero. -/
def main (created : Arg → Bool) : Option (Arg × List Input) → Except Failure State
  | none => .error .usage
  | some (image, files) =>
    if created image then do
      let s ← start
      let s ← files.foldlM addFile s
      finish s
    else .error .die

end Xv6.Mkfs
