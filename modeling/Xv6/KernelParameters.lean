import Xv6.LittleEndianBlocks
import Mathlib.Algebra.GroupWithZero.Nat

/-! # Sizes and numbers fixed by `param.h`, `fs.h` and `mkfs.c` -/

namespace Xv6

/-- `MAXOPBLOCKS`: the most blocks one file-system operation may write. -/
def maxOpBlocks : ℕ := 10

/-- `LOGSIZE`: the most data blocks the on-disk log is meant to hold. -/
def logSize : ℕ := maxOpBlocks * 3

/-- `nlog` of `mkfs.c`: blocks of the on-disk log area, its header block included. -/
def nlog : ℕ := logSize

def nBuf : ℕ := maxOpBlocks * 3

instance : NeZero nBuf := ⟨by decide⟩

def bSize : ℕ := 1024

abbrev Block := LittleEndianBlocks.Bytes bSize

def nInode : ℕ := 50

instance : NeZero nInode := ⟨by decide⟩

def nProc : ℕ := 64

instance : NeZero nProc := ⟨by decide⟩

def nOFile : ℕ := 16

def nFile : ℕ := 100

def maxArg : ℕ := 32

/-- `MAXPATH`: bytes of a path, the terminating zero included. -/
def maxPath : ℕ := 128

def userStack : ℕ := 1

def nDev : ℕ := 10

def rootIno : ℕ := 1

def nDirect : ℕ := 12

-- indices into `addrs`
instance (priority := high) neZero_nDirect : NeZero (nDirect + 1) := ⟨Nat.succ_ne_zero nDirect⟩

/-- `NINDIRECT`: block numbers held in the indirect block. -/
def nIndirect : ℕ := bSize / 4

def maxFile : ℕ := nDirect + nIndirect

def dirSiz : ℕ := 14

def direntSize : ℕ := 16

def pipeSize : ℕ := 512

instance : NeZero pipeSize := ⟨by decide⟩

def inputBufSize : ℕ := 128

instance : NeZero inputBufSize := ⟨by decide⟩

end Xv6
