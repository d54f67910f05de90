import Mathlib.Data.Fintype.Basic
import Xv6.KernelParameters
import Xv6.OperationPrograms

/-!
# The file-system code as programs

The functions of `fs.c`, `file.c` and `sysfile.c` that work on inodes, directories and path names,
written as programs over the steps that touch shared state: a critical section of the inode table,
one access to a locked inode, one pass through the log.
-/

namespace Xv6.Fs

open OperationPrograms

/-- An entry of the inode table: a `struct inode *`. -/
abbrev Slot := Fin nInode

/-- A file name: at most `dirSiz` bytes, none of them zero. -/
abbrev Name := List UInt8

abbrev Path := List UInt8

def tDir : Int16 := 1

def tFile : Int16 := 2

def tDevice : Int16 := 3

/-- The fields of an inode that live on disk, as in `struct dinode`. -/
structure Dinode where
  type : Int16
  major : Int16
  minor : Int16
  nlink : Int16
  size : ℕ
  addrs : Fin (nDirect + 1) → ℕ
  deriving DecidableEq

/-- What `memset` leaves of a dinode. -/
def Dinode.zero : Dinode := ⟨0, 0, 0, 0, 0, fun _ => 0⟩

/-- `struct dirent`: inode number zero marks an entry that is not in use. -/
structure Dirent where
  inum : ℕ
  name : Name
  deriving DecidableEq, Repr

/-- What the source's panics say, as far as the file system raises them. -/
inductive Panic where
  | freeingFreeBlock
  | bmapOutOfRange
  | igetNoInodes
  | ilock
  | ilockNoType
  | iunlock
  | dirlookupNotDir
  | dirlookupRead
  | dirlinkRead
  | isdiremptyReadi
  | unlinkNlink
  | unlinkWritei
  deriving DecidableEq, Repr

/-- An open file of a process: `struct file`, where it refers to an inode. -/
structure File where
  ip : Slot
  off : ℕ
  readable : Bool
  writable : Bool
  device : Bool
  deriving DecidableEq

inductive FsOp where
  /-- read `p->cwd` -/
  | cwd
  /-- read `p->cwd` in order to give up its reference -/
  | takeCwd
  | setCwd (ip : Slot)
  /-- `filealloc` and `fdalloc`, and the fields `sys_open` gives the new file -/
  | fdalloc (ip : Slot) (readable writable : Bool)
  /-- `argfd` -/
  | argfd (fd : ℕ)
  /-- `ofile[fd] = 0`, and the inode that `fileclose` is left with -/
  | takeFile (fd : ℕ)
  | setOff (fd : ℕ) (off : ℕ)
  | beginOp
  | endOp
  | iget (inum : ℕ)
  | idup (ip : Slot)
  /-- read `ip->inum` -/
  | inum (ip : Slot)
  /-- the `acquiresleep` of `ilock` -/
  | acquire (ip : Slot)
  /-- the part of `ilock` that reads the inode from the disk if necessary -/
  | load (ip : Slot)
  | iunlock (ip : Slot)
  /-- the first critical section of `iput`: whether the inode is to be freed -/
  | iputTest (ip : Slot)
  /-- `ip->valid = 0` -/
  | invalidate (ip : Slot)
  /-- the `releasesleep` of `iput` -/
  | releasesleep (ip : Slot)
  /-- the last critical section of an `iput` that freed the inode -/
  | iputDrop (ip : Slot)
  /-- one round of the loop of `ialloc` -/
  | claim (inum : ℕ) (type : Int16)
  /-- read the fields of a locked inode -/
  | fields (ip : Slot)
  | setType (ip : Slot) (type : Int16)
  | setDev (ip : Slot) (major minor : Int16)
  | setNlink (ip : Slot) (nlink : Int16)
  | iupdate (ip : Slot)
  | itrunc (ip : Slot)
  /-- `readi` of one directory entry; `none` if it is shorter than an entry -/
  | readDirent (dp : Slot) (off : ℕ)
  /-- `writei` of one directory entry; whether all of it was written -/
  | writeDirent (dp : Slot) (off : ℕ) (de : Dirent)
  /-- `readi` into user memory, where `dst k` says whether byte `k` is mapped -/
  | readi (ip : Slot) (dst : ℕ → Bool) (off n : ℕ)
  /-- `writei` from user memory, where `src k` is byte `k` if it is mapped -/
  | writei (ip : Slot) (src : ℕ → Option UInt8) (off n : ℕ)
  | panic (e : Panic)

def FsOp.Res : FsOp → Type
  | cwd => Slot
  | takeCwd => Slot
  | fdalloc _ _ _ => Option ℕ
  | argfd _ => Option File
  | takeFile _ => Slot
  | iget _ => Slot
  | inum _ => ℕ
  | iputTest _ => Bool
  | claim _ _ => Bool
  | fields _ => Dinode
  | readDirent _ _ => Option Dirent
  | writeDirent _ _ _ => Bool
  | readi _ _ _ _ => ℤ
  | writei _ _ _ _ => ℤ
  | panic _ => Empty
  | _ => Unit

abbrev FsProg := Prog FsOp FsOp.Res

/-! ### Single steps as programs -/

def step (op : FsOp) : FsProg op.Res := .perform op

def cwd : FsProg Slot := step .cwd
def takeCwd : FsProg Slot := step .takeCwd
def setCwd (ip : Slot) : FsProg Unit := step (.setCwd ip)
def fdalloc (ip : Slot) (readable writable : Bool) : FsProg (Option ℕ) :=
  step (.fdalloc ip readable writable)
def argfd (fd : ℕ) : FsProg (Option File) := step (.argfd fd)
def takeFile (fd : ℕ) : FsProg Slot := step (.takeFile fd)
def setOff (fd off : ℕ) : FsProg Unit := step (.setOff fd off)
def beginOp : FsProg Unit := step .beginOp
def endOp : FsProg Unit := step .endOp
def iget (inum : ℕ) : FsProg Slot := step (.iget inum)
def idup (ip : Slot) : FsProg Unit := step (.idup ip)
def inumOf (ip : Slot) : FsProg ℕ := step (.inum ip)
def iunlock (ip : Slot) : FsProg Unit := step (.iunlock ip)
def iputTest (ip : Slot) : FsProg Bool := step (.iputTest ip)
def claim (inum : ℕ) (type : Int16) : FsProg Bool := step (.claim inum type)
def fields (ip : Slot) : FsProg Dinode := step (.fields ip)
def setNlink (ip : Slot) (nlink : Int16) : FsProg Unit := step (.setNlink ip nlink)
def iupdate (ip : Slot) : FsProg Unit := step (.iupdate ip)
def itrunc (ip : Slot) : FsProg Unit := step (.itrunc ip)
def readDirent (dp : Slot) (off : ℕ) : FsProg (Option Dirent) := step (.readDirent dp off)
def writeDirent (dp : Slot) (off : ℕ) (de : Dirent) : FsProg Bool :=
  step (.writeDirent dp off de)
def readi (ip : Slot) (dst : ℕ → Bool) (off n : ℕ) : FsProg ℤ := step (.readi ip dst off n)
def writei (ip : Slot) (src : ℕ → Option UInt8) (off n : ℕ) : FsProg ℤ :=
  step (.writei ip src off n)
def panic {α : Type} (e : Panic) : FsProg α := .call (.panic e) fun r => nomatch (show Empty from r)

/-! ### Inodes -/

def ilock (ip : Slot) : FsProg Unit := do
  step (.acquire ip)
  step (.load ip)

def iput (ip : Slot) : FsProg Unit := do
  if ← iputTest ip then
    itrunc ip
    step (.setType ip 0)
    iupdate ip
    step (.invalidate ip)
    step (.releasesleep ip)
    step (.iputDrop ip)

def iunlockput (ip : Slot) : FsProg Unit := do
  iunlock ip
  iput ip

/-- The loop of `ialloc` with `k` inodes left from `inum` on. -/
def iallocFrom (type : Int16) : (k inum : ℕ) → FsProg (Option Slot)
  | 0, _ => pure none
  | k + 1, inum => do
    if ← claim inum type then
      let ip ← iget inum
      return some ip
    else
      iallocFrom type k (inum + 1)

/-- `ialloc`: inode numbers from 1 to below `ninodes` are tried. -/
def ialloc (ninodes : ℕ) (type : Int16) : FsProg (Option Slot) := iallocFrom type (ninodes - 1) 1

/-! ### Directories -/

/-- How many entries a loop from entry `start` to below a directory's size looks at. -/
def entriesFrom (size start : ℕ) : ℕ := (size + (direntSize - 1)) / direntSize - start

/-- The loop of `dirlookup` with `k` entries left from the entry with index `n` on. -/
def dirFind (dp : Slot) (name : Name) : (k n : ℕ) → FsProg (Option (ℕ × ℕ))
  | 0, _ => pure none
  | k + 1, n => do
    match ← readDirent dp (n * direntSize) with
    | none => panic .dirlookupRead
    | some de =>
      if de.inum ≠ 0 ∧ de.name = name then
        return some (de.inum, n * direntSize)
      else
        dirFind dp name k (n + 1)

/-- `dirlookup`: the inode with this name in the directory and the offset of its entry. -/
def dirlookup (dp : Slot) (name : Name) : FsProg (Option (Slot × ℕ)) := do
  let d ← fields dp
  if d.type ≠ tDir then
    panic .dirlookupNotDir
  else
    match ← dirFind dp name (entriesFrom d.size 0) 0 with
    | none => return none
    | some (inum, off) =>
      let ip ← iget inum
      return some (ip, off)

/-- The second loop of `dirlink`: the index of an unused entry, or the end of the directory. -/
def dirFree (dp : Slot) : (k n : ℕ) → FsProg ℕ
  | 0, n => pure n
  | k + 1, n => do
    match ← readDirent dp (n * direntSize) with
    | none => panic .dirlinkRead
    | some de => if de.inum = 0 then return n else dirFree dp k (n + 1)

/-- `dirlink`: whether the new entry was written. -/
def dirlink (dp : Slot) (name : Name) (inum : ℕ) : FsProg Bool := do
  match ← dirlookup dp name with
  | some (ip, _) =>
    iput ip
    return false
  | none =>
    let d ← fields dp
    let n ← dirFree dp (entriesFrom d.size 0) 0
    writeDirent dp (n * direntSize) ⟨inum % 2 ^ 16, name⟩

/-- The loop of `isdirempty` with `k` entries left from the entry with index `n` on. -/
def dirEmptyFrom (dp : Slot) : (k n : ℕ) → FsProg Bool
  | 0, _ => pure true
  | k + 1, n => do
    match ← readDirent dp (n * direntSize) with
    | none => panic .isdiremptyReadi
    | some de => if de.inum ≠ 0 then return false else dirEmptyFrom dp k (n + 1)

/-- `isdirempty`: the first two entries are not looked at. -/
def isdirempty (dp : Slot) : FsProg Bool := do
  let d ← fields dp
  dirEmptyFrom dp (entriesFrom d.size 2) 2

/-! ### Paths -/

def slash : UInt8 := 47

def dot : Name := [46]

def dotdot : Name := [46, 46]

/-- `skipelem`: the next path element and the path behind it and its slashes. -/
def skipelem (path : Path) : Option (Name × Path) :=
  match path.dropWhile (· = slash) with
  | [] => none
  | s => some ((s.takeWhile (· ≠ slash)).take dirSiz,
      (s.dropWhile (· ≠ slash)).dropWhile (· = slash))

/-- What repeated calls of `skipelem` yield, for at most `k` calls. -/
def elements : (k : ℕ) → Path → List Name
  | 0, _ => []
  | k + 1, path =>
    match skipelem path with
    | none => []
    | some (name, rest) => name :: elements k rest

/-- The loop of `namex` over the elements of the path: the inode, and with `nameiparent` the
final element. -/
def namexFrom (nameiparent : Bool) : (ip : Slot) → List Name → FsProg (Option (Slot × Name))
  | ip, [] =>
    if nameiparent then do
      iput ip
      return none
    else
      return some (ip, [])
  | ip, name :: rest => do
    ilock ip
    let d ← fields ip
    if d.type ≠ tDir then
      iunlockput ip
      return none
    else if nameiparent ∧ rest = [] then
      iunlock ip
      return some (ip, name)
    else
      match ← dirlookup ip name with
      | none =>
        iunlockput ip
        return none
      | some (next, _) =>
        iunlockput ip
        namexFrom nameiparent next rest

def namex (path : Path) (nameiparent : Bool) : FsProg (Option (Slot × Name)) := do
  if path.head? = some slash then
    let ip ← iget rootIno
    namexFrom nameiparent ip (elements path.length path)
  else
    let ip ← cwd
    idup ip
    namexFrom nameiparent ip (elements path.length path)

def namei (path : Path) : FsProg (Option Slot) := do
  match ← namex path false with
  | none => return none
  | some (ip, _) => return some ip

def nameiparent (path : Path) : FsProg (Option (Slot × Name)) := namex path true

/-! ### System calls

A path argument that `argstr` cannot fetch is `none`. The results are those of the source:
`-1` for an error. -/

/-- `ip->nlink += n; iupdate(ip)`. -/
def addNlink (ip : Slot) (n : Int16) : FsProg Unit := do
  let i ← fields ip
  setNlink ip (i.nlink + n)
  iupdate ip

def whenDir (type : Int16) (m : FsProg Unit) : FsProg Unit :=
  if type = tDir then m else pure ()

def linkBad (ip : Slot) : FsProg ℤ := do
  ilock ip
  addNlink ip (-1)
  iunlockput ip
  endOp
  return -1

def sysLink (old new : Option Path) : FsProg ℤ :=
  match old, new with
  | some old, some new => do
    beginOp
    match ← namei old with
    | none =>
      endOp
      return -1
    | some ip =>
      ilock ip
      let i ← fields ip
      if i.type = tDir then
        iunlockput ip
        endOp
        return -1
      else
        addNlink ip 1
        iunlock ip
        match ← nameiparent new with
        | none => linkBad ip
        | some (dp, name) =>
          ilock dp
          let inum ← inumOf ip
          if ← dirlink dp name inum then
            iunlockput dp
            iput ip
            endOp
            return 0
          else
            iunlockput dp
            linkBad ip
  | _, _ => return -1

def unlinkBad (dp : Slot) : FsProg ℤ := do
  iunlockput dp
  endOp
  return -1

/-- `sys_unlink` once the entry is known to be removable. -/
def unlinkEntry (dp ip : Slot) (off : ℕ) (i : Dinode) : FsProg ℤ := do
  if ← writeDirent dp off ⟨0, []⟩ then
    whenDir i.type (addNlink dp (-1))
    iunlockput dp
    addNlink ip (-1)
    iunlockput ip
    endOp
    return 0
  else
    panic .unlinkWritei

def sysUnlink (path : Option Path) : FsProg ℤ :=
  match path with
  | none => return -1
  | some path => do
    beginOp
    match ← nameiparent path with
    | none =>
      endOp
      return -1
    | some (dp, name) =>
      ilock dp
      if name = dot ∨ name = dotdot then
        unlinkBad dp
      else
        match ← dirlookup dp name with
        | none => unlinkBad dp
        | some (ip, off) =>
          ilock ip
          let i ← fields ip
          if i.nlink < 1 then
            panic .unlinkNlink
          else if i.type = tDir then
            if ← isdirempty ip then
              unlinkEntry dp ip off i
            else
              iunlockput ip
              unlinkBad dp
          else
            unlinkEntry dp ip off i

def createFail (dp ip : Slot) : FsProg (Option Slot) := do
  setNlink ip 0
  iupdate ip
  iunlockput ip
  iunlockput dp
  return none

/-- The `.` and `..` entries of a new inode, if it is a directory. -/
def linkDots (dp ip : Slot) (type : Int16) : FsProg Bool :=
  if type = tDir then do
    let inum ← inumOf ip
    if ← dirlink ip dot inum then
      let parent ← inumOf dp
      dirlink ip dotdot parent
    else
      return false
  else
    return true

/-- `create` once the inode is allocated. -/
def createIn (dp ip : Slot) (name : Name) (type major minor : Int16) : FsProg (Option Slot) := do
  ilock ip
  step (.setDev ip major minor)
  setNlink ip 1
  iupdate ip
  if ← linkDots dp ip type then
    let inum ← inumOf ip
    if ← dirlink dp name inum then
      whenDir type (addNlink dp 1)
      iunlockput dp
      return some ip
    else
      createFail dp ip
  else
    createFail dp ip

/-- `create`: the inode it returns is locked. -/
def create (ninodes : ℕ) (path : Path) (type major minor : Int16) : FsProg (Option Slot) := do
  match ← nameiparent path with
  | none => return none
  | some (dp, name) =>
    ilock dp
    match ← dirlookup dp name with
    | some (ip, _) =>
      iunlockput dp
      ilock ip
      let i ← fields ip
      if type = tFile ∧ (i.type = tFile ∨ i.type = tDevice) then
        return some ip
      else
        iunlockput ip
        return none
    | none =>
      match ← ialloc ninodes type with
      | none =>
        iunlockput dp
        return none
      | some ip => createIn dp ip name type major minor

def oRdonly : ℕ := 0x000

def oWronly : ℕ := 0x001

def oRdwr : ℕ := 0x002

def oCreate : ℕ := 0x200

def oTrunc : ℕ := 0x400

/-- Whether `omode & flag` is not zero. -/
def hasFlag (omode flag : ℕ) : Bool := omode &&& flag ≠ 0

/-- `O_TRUNC` in `sys_open`. -/
def truncate (ip : Slot) (omode : ℕ) (type : Int16) : FsProg Unit :=
  if hasFlag omode oTrunc ∧ type = tFile then itrunc ip else pure ()

/-- `sys_open` once the inode is found and locked. -/
def openInode (ip : Slot) (omode : ℕ) : FsProg ℤ := do
  let i ← fields ip
  if i.type = tDevice ∧ (i.major < 0 ∨ Int16.ofNat nDev ≤ i.major) then
    iunlockput ip
    endOp
    return -1
  else
    match ← fdalloc ip (!hasFlag omode oWronly) (hasFlag omode oWronly || hasFlag omode oRdwr) with
    | none =>
      iunlockput ip
      endOp
      return -1
    | some fd =>
      truncate ip omode i.type
      iunlock ip
      endOp
      return fd

def sysOpen (ninodes : ℕ) (path : Option Path) (omode : ℕ) : FsProg ℤ :=
  match path with
  | none => return -1
  | some path => do
    beginOp
    if hasFlag omode oCreate then
      match ← create ninodes path tFile 0 0 with
      | none =>
        endOp
        return -1
      | some ip => openInode ip omode
    else
      match ← namei path with
      | none =>
        endOp
        return -1
      | some ip =>
        ilock ip
        let i ← fields ip
        if i.type = tDir ∧ omode ≠ oRdonly then
          iunlockput ip
          endOp
          return -1
        else
          openInode ip omode

/-- What `sys_mkdir` and `sys_mknod` do with the inode `create` returns. -/
def sysCreate (ninodes : ℕ) (path : Option Path) (type major minor : Int16) : FsProg ℤ := do
  beginOp
  match path with
  | none =>
    endOp
    return -1
  | some path =>
    match ← create ninodes path type major minor with
    | none =>
      endOp
      return -1
    | some ip =>
      iunlockput ip
      endOp
      return 0

def sysMkdir (ninodes : ℕ) (path : Option Path) : FsProg ℤ := sysCreate ninodes path tDir 0 0

def sysMknod (ninodes : ℕ) (path : Option Path) (major minor : Int16) : FsProg ℤ :=
  sysCreate ninodes path tDevice major minor

def sysChdir (path : Option Path) : FsProg ℤ := do
  beginOp
  match path with
  | none =>
    endOp
    return -1
  | some path =>
    match ← namei path with
    | none =>
      endOp
      return -1
    | some ip =>
      ilock ip
      let i ← fields ip
      if i.type ≠ tDir then
        iunlockput ip
        endOp
        return -1
      else
        iunlock ip
        let old ← takeCwd
        iput old
        endOp
        setCwd ip
        return 0

/-- `fileclose` of a file with one descriptor. -/
def fileclose (fd : ℕ) : FsProg Unit := do
  let ip ← takeFile fd
  beginOp
  iput ip
  endOp

def sysClose (fd : ℕ) : FsProg ℤ := do
  match ← argfd fd with
  | none => return -1
  | some _ =>
    fileclose fd
    return 0

/-- `if(r > 0) f->off += r`. -/
def advance (fd off : ℕ) (r : ℤ) : FsProg Unit :=
  if 0 < r then setOff fd (off + r.toNat) else pure ()

/-- `sys_read` and `fileread`. Devices do not touch the file system. -/
def sysRead (fd : ℕ) (dst : ℕ → Bool) (n : ℤ) : FsProg ℤ := do
  match ← argfd fd with
  | none => return -1
  | some f =>
    if ¬f.readable then
      return -1
    else if f.device then
      return 0
    else
      ilock f.ip
      let r ← readi f.ip dst f.off (n % 2 ^ 32).toNat
      advance fd f.off r
      iunlock f.ip
      return r

/-- The `max` of `filewrite`. -/
def maxWrite : ℕ := (maxOpBlocks - 1 - 1 - 2) / 2 * bSize

/-- The loop of `filewrite` with `left` bytes to go from byte `i` on, in at most `k` rounds:
whether all of them were written. -/
def writeChunks (fd : ℕ) (ip : Slot) (src : ℕ → Option UInt8) :
    (k i off left : ℕ) → FsProg Bool
  | 0, _, _, _ => return true
  | k + 1, i, off, left =>
    if left = 0 then return true
    else do
      beginOp
      ilock ip
      let r ← writei ip (fun j => src (i + j)) off (min left maxWrite)
      advance fd off r
      iunlock ip
      endOp
      if r ≠ min left maxWrite then
        return false
      else
        writeChunks fd ip src k (i + r.toNat) (off + r.toNat) (left - r.toNat)

/-- `sys_write` and `filewrite`. Devices do not touch the file system. -/
def sysWrite (fd : ℕ) (src : ℕ → Option UInt8) (n : ℤ) : FsProg ℤ := do
  match ← argfd fd with
  | none => return -1
  | some f =>
    if ¬f.writable then
      return -1
    else if f.device then
      return 0
    else
      let done ← writeChunks fd f.ip src (n.toNat / maxWrite + 1) 0 f.off n.toNat
      if done ∧ 0 ≤ n then return n else return -1

/-- The loop of `exit` over the open files, with `k` descriptors left from `fd` on. -/
def closeFiles : (k fd : ℕ) → FsProg Unit
  | 0, _ => pure ()
  | k + 1, fd => do
    match ← argfd fd with
    | none => closeFiles k (fd + 1)
    | some _ =>
      fileclose fd
      closeFiles k (fd + 1)

/-- The part of `exit` that gives up a process's files and its current directory. -/
def exit : FsProg Unit := do
  closeFiles nOFile 0
  beginOp
  let ip ← takeCwd
  iput ip
  endOp

inductive Syscall where
  | openPath (path : Option Path) (omode : ℕ)
  | mkdir (path : Option Path)
  | mknod (path : Option Path) (major minor : Int16)
  | link (old new : Option Path)
  | unlink (path : Option Path)
  | chdir (path : Option Path)
  | close (fd : ℕ)
  | read (fd : ℕ) (dst : ℕ → Bool) (n : ℤ)
  | write (fd : ℕ) (src : ℕ → Option UInt8) (n : ℤ)
  | exit

/-- The code of a system call on a file system with `ninodes` inodes. -/
def Syscall.code (ninodes : ℕ) : Syscall → FsProg ℤ
  | openPath path omode => sysOpen ninodes path omode
  | mkdir path => sysMkdir ninodes path
  | mknod path major minor => sysMknod ninodes path major minor
  | link old new => sysLink old new
  | unlink path => sysUnlink path
  | chdir path => sysChdir path
  | close fd => sysClose fd
  | read fd dst n => sysRead fd dst n
  | write fd src n => sysWrite fd src n
  | exit => do
    Fs.exit
    return 0

end Xv6.Fs
