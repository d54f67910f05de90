import Xv6.PageTables

/-!
# System calls and the memory of processes

The code of `proc.c`, `exec.c`, `pipe.c`, `file.c` and `sysfile.c` by which a process changes its
memory and opens files, as programs: `exec`, `growproc`, and the calls that create pipes and other
open files. What the file system has to say is part of a call's arguments: the contents of the
file that `exec` is given a path of, and the kind of inode that `open` found.
-/

namespace Xv6.Vm

open OperationPrograms LittleEndianBlocks

/-! ### Access to the tables -/

abbrev Pid := Fin nProc

def getProc (i : Pid) : K Proc := do return (← tables).proc i

def setProc (i : Pid) (g : Proc → Proc) : K Unit := do
  let t ← tables
  setTables { t with proc := Function.update t.proc i (g (t.proc i)) }

def getFile (f : Fin nFile) : K File := do return (← tables).file f

def setFile (f : Fin nFile) (g : File → File) : K Unit := do
  let t ← tables
  setTables { t with file := Function.update t.file f (g (t.file f)) }

/-- The bytes of a number, as `memmove` sees them. -/
def bytesOf (v : ℕ) : (k : ℕ) → List UInt8
  | 0 => []
  | k + 1 => UInt8.ofNat v :: bytesOf (v / 256) k

/-! ### Processes -/

def procPagetable (m : Machine) (tf : ℕ) : K ℕ := do
  let pagetable ← uvmcreate
  if pagetable = 0 then
    return 0
  else if ← mappages pagetable trampoline pgSize (m.trampolinePage * pgSize) (pteR ||| pteX) then
    if ← mappages pagetable trapframe pgSize tf (pteR ||| pteW) then
      return pagetable
    else
      uvmunmap pagetable trampoline 1 false
      uvmfree pagetable 0
      return 0
  else
    uvmfree pagetable 0
    return 0

def procFreepagetable (pagetable sz : ℕ) : K Unit := do
  uvmunmap pagetable trampoline 1 false
  uvmunmap pagetable trapframe 1 false
  uvmfree pagetable sz

def initcode : List UInt8 :=
  [0x17, 0x05, 0x00, 0x00, 0x13, 0x05, 0x45, 0x02,
    0x97, 0x05, 0x00, 0x00, 0x93, 0x85, 0x35, 0x02,
    0x93, 0x08, 0x70, 0x00, 0x73, 0x00, 0x00, 0x00,
    0x93, 0x08, 0x20, 0x00, 0x73, 0x00, 0x00, 0x00,
    0xef, 0xf0, 0x9f, 0xff, 0x2f, 0x69, 0x6e, 0x69,
    0x74, 0x00, 0x00, 0x24, 0x00, 0x00, 0x00, 0x00,
    0x00, 0x00, 0x00, 0x00]

/-- `safestrcpy` into an array of 16 bytes. -/
def safestrcpy (t : List UInt8) : List UInt8 := (t.takeWhile (· ≠ 0)).take 15

def growproc (i : Pid) (n : Int32) : K ℤ := do
  let p ← getProc i
  let newsz := (((p.sz : ℤ) + n.toInt) % 2 ^ 64).toNat
  if 0 < n then
    let sz ← uvmalloc p.pagetable p.sz newsz pteW
    if sz = 0 then
      return -1
    else
      setProc i fun p => { p with sz }
      return 0
  else if n < 0 then
    let sz ← uvmdealloc p.pagetable p.sz newsz
    setProc i fun p => { p with sz }
    return 0
  else
    setProc i fun p => { p with sz := p.sz }
    return 0

/-! ### Open files -/

def filealloc : K (Option (Fin nFile)) := do
  let t ← tables
  match (List.finRange nFile).find? fun f => (t.file f).ref = 0 with
  | none => return none
  | some f =>
    setFile f fun x => { x with ref := 1 }
    return some f

def filedup (f : Fin nFile) : K Unit := do
  let x ← getFile f
  if x.ref < 1 then
    panic .filedup
  else
    setFile f fun x => { x with ref := x.ref + 1 }

def nreadOff : ℕ := 536

def nwriteOff : ℕ := 540

def readopenOff : ℕ := 544

def writeopenOff : ℕ := 548

def pipeclose (pi : ℕ) (writable : Bool) : K Unit := do
  store (pi + if writable then writeopenOff else readopenOff) 0 4
  let readopen ← load (pi + readopenOff) 4
  let writeopen ← load (pi + writeopenOff) 4
  if readopen = 0 ∧ writeopen = 0 then
    kfree pi
  else
    pure ()

/-- `fileclose`. What `iput` does is not about memory. -/
def fileclose (f : Fin nFile) : K Unit := do
  let x ← getFile f
  if x.ref < 1 then
    panic .fileclose
  else if 1 < x.ref then
    setFile f fun x => { x with ref := x.ref - 1 }
  else
    setFile f fun x => { x with ref := 0, type := .none }
    if x.type = .pipe then
      pipeclose x.pipe x.writable
    else
      pure ()

def pipealloc : K (Option (Fin nFile × Fin nFile)) := do
  match ← filealloc with
  | none => return none
  | some f0 =>
    match ← filealloc with
    | none =>
      fileclose f0
      return none
    | some f1 =>
      let pi ← kalloc
      if pi = 0 then
        fileclose f0
        fileclose f1
        return none
      else
        store (pi + readopenOff) 1 4
        store (pi + writeopenOff) 1 4
        store (pi + nwriteOff) 0 4
        store (pi + nreadOff) 0 4
        setFile f0 fun x =>
          { x with type := .pipe, readable := true, writable := false, pipe := pi }
        setFile f1 fun x =>
          { x with type := .pipe, readable := false, writable := true, pipe := pi }
        return some (f0, f1)

def freeFd (p : Proc) : Option (Fin nOFile) :=
  (List.finRange nOFile).find? fun fd => p.ofile fd = none

/-- `p->ofile[fd] = f`. -/
def setOfile (i : Pid) (fd : Fin nOFile) (f : Option (Fin nFile)) : K Unit :=
  setProc i fun p => { p with ofile := Function.update p.ofile fd f }

def fdalloc (i : Pid) (f : Fin nFile) : K (Option (Fin nOFile)) := do
  let p ← getProc i
  match freeFd p with
  | none => return none
  | some fd =>
    setOfile i fd (some f)
    return some fd

def sysDup (i : Pid) (fd : Fin nOFile) : K ℤ := do
  let p ← getProc i
  match p.ofile fd with
  | none => return -1
  | some f =>
    match ← fdalloc i f with
    | none => return -1
    | some fd' =>
      filedup f
      return fd'

/-- The part of `sys_open` behind the search for the inode. -/
def sysOpen (i : Pid) (device readable writable : Bool) : K ℤ := do
  match ← filealloc with
  | none => return -1
  | some f =>
    match ← fdalloc i f with
    | none =>
      fileclose f
      return -1
    | some fd =>
      setFile f fun x =>
        { x with type := if device then .device else .inode, readable, writable }
      return fd

def sysPipe (i : Pid) (fdarray : ℕ) : K ℤ := do
  match ← pipealloc with
  | none => return -1
  | some (rf, wf) =>
    match ← fdalloc i rf with
    | none =>
      fileclose rf
      fileclose wf
      return -1
    | some fd0 =>
      match ← fdalloc i wf with
      | none =>
        setOfile i fd0 none
        fileclose rf
        fileclose wf
        return -1
      | some fd1 =>
        let p ← getProc i
        let ok ← copyout p.pagetable fdarray (bytesOf fd0 4)
        let ok ← if ok then copyout p.pagetable ((fdarray + 4) % 2 ^ 64) (bytesOf fd1 4)
          else pure false
        if ok then
          return 0
        else
          setOfile i fd0 none
          setOfile i fd1 none
          fileclose rf
          fileclose wf
          return -1

/-! ### `exec` -/

def flags2perm (flags : ℕ) : ℕ :=
  (if flags &&& 1 ≠ 0 then pteX else 0) ||| if flags &&& 2 ≠ 0 then pteW else 0

/-- `readi`: the bytes of a file from an offset on, in 32 bits. -/
def readi (file : List UInt8) (off n : ℕ) : List UInt8 :=
  if file.length < off ∨ (off + n) % 2 ^ 32 < off then []
  else (file.drop off).take (min n (file.length - off))

def numAt (bs : List UInt8) (off k : ℕ) : ℕ :=
  getField (fun i : Fin 64 => bs.getD i 0) off k

def elfMagic : ℕ := 0x464C457F

structure Elfhdr where
  magic : ℕ
  entry : ℕ
  phoff : ℕ
  phnum : ℕ

def elfhdrSize : ℕ := 64

def Elfhdr.read (bs : List UInt8) : Elfhdr :=
  ⟨numAt bs 0 4, numAt bs 24 8, numAt bs 32 8, numAt bs 56 2⟩

structure Proghdr where
  type : ℕ
  flags : ℕ
  off : ℕ
  vaddr : ℕ
  filesz : ℕ
  memsz : ℕ

def proghdrSize : ℕ := 56

def Proghdr.read (bs : List UInt8) : Proghdr :=
  ⟨numAt bs 0 4, numAt bs 4 4, numAt bs 8 8, numAt bs 16 8, numAt bs 32 8, numAt bs 40 8⟩

/-- The loop of `loadseg` with `k` pages left. -/
def loadFrom (pagetable va : ℕ) (file : List UInt8) (offset sz : ℕ) : (k i : ℕ) → K Bool
  | 0, _ => pure true
  | k + 1, i => do
    let pa ← walkaddr pagetable ((va + i) % 2 ^ 64)
    if pa = 0 then
      panic .loadseg
    else
      let n := if sz - i < pgSize then sz - i else pgSize
      let bs := readi file ((offset + i) % 2 ^ 32) n
      put pa bs
      if bs.length ≠ n then
        return false
      else
        loadFrom pagetable va file offset sz k (i + pgSize)

def loadseg (pagetable va : ℕ) (file : List UInt8) (offset sz : ℕ) : K Bool :=
  loadFrom pagetable va file offset sz ((sz + (pgSize - 1)) / pgSize) 0

/-- The loop of `exec` over `k` program headers: whether all went well, and the size of the
memory. -/
def loadSegments (pagetable : ℕ) (file : List UInt8) : (k off sz : ℕ) → K (Bool × ℕ)
  | 0, _, sz => pure (true, sz)
  | k + 1, off, sz =>
    let bs := readi file off proghdrSize
    let ph := Proghdr.read bs
    if bs.length ≠ proghdrSize then
      return (false, sz)
    else if ph.type ≠ 1 then
      loadSegments pagetable file k ((off + proghdrSize) % 2 ^ 32) sz
    else if ph.memsz < ph.filesz then
      return (false, sz)
    else if (ph.vaddr + ph.memsz) % 2 ^ 64 < ph.vaddr then
      return (false, sz)
    else if ph.vaddr % pgSize ≠ 0 then
      return (false, sz)
    else do
      let sz1 ← uvmalloc pagetable sz ((ph.vaddr + ph.memsz) % 2 ^ 64) (flags2perm ph.flags)
      if sz1 = 0 then
        return (false, sz)
      else if ← loadseg pagetable ph.vaddr file (ph.off % 2 ^ 32) (ph.filesz % 2 ^ 32) then
        loadSegments pagetable file k ((off + proghdrSize) % 2 ^ 32) sz1
      else
        return (false, sz1)

/-- `strlen` of a string in a page of the kernel, for at most `fuel` bytes. -/
def strlen : (fuel a : ℕ) → K ℕ
  | 0, _ => panic .wild
  | fuel + 1, a => do
    let c ← load a 1
    if c = 0 then
      return 0
    else
      return (← strlen fuel (a + 1)) + 1

/-- Move the stack pointer down by `n` bytes, and further down to a multiple of 16. -/
def pushDown (sp n : ℕ) : ℕ :=
  let sp := (sp + (2 ^ 64 - n)) % 2 ^ 64
  sp - sp % 16

/-- The loop of `exec` that pushes the argument strings: the stack pointer, and the pointers
to the strings. -/
def pushArgs (pagetable stackbase : ℕ) :
    (argv : List ℕ) → (argc sp : ℕ) → (ustack : List ℕ) → K (Option (ℕ × List ℕ))
  | [], _, sp, ustack => pure (some (sp, ustack))
  | a :: argv, argc, sp, ustack => do
    if maxArg ≤ argc then
      return none
    else
      let len ← strlen pgSize a
      let sp := pushDown sp (len + 1)
      if sp < stackbase then
        return none
      else
        let s ← take a (len + 1)
        if ← copyout pagetable sp s then
          pushArgs pagetable stackbase argv (argc + 1) sp (ustack ++ [sp])
        else
          return none

/-- The part of `exec` that allocates the stack and pushes the arguments: whether all went
well, the size of the memory, and the stack pointer. -/
def execStack (pagetable sz : ℕ) (argv : List ℕ) : K (Bool × ℕ × ℕ) := do
  let sz := pgRoundUp sz
  let sz1 ← uvmalloc pagetable sz ((sz + (userStack + 1) * pgSize) % 2 ^ 64) pteW
  if sz1 = 0 then
    return (false, sz, 0)
  else
    uvmclear pagetable (sz1 - (userStack + 1) * pgSize)
    let stackbase := sz1 - userStack * pgSize
    match ← pushArgs pagetable stackbase argv 0 sz1 [] with
    | none => return (false, sz1, 0)
    | some (sp, ustack) =>
      let sp := pushDown sp ((argv.length + 1) * 8)
      if sp < stackbase then
        return (false, sz1, 0)
      else if ← copyout pagetable sp ((ustack ++ [0]).flatMap fun a => bytesOf a 8) then
        return (true, sz1, sp)
      else
        return (false, sz1, 0)

def lastElement (path : List UInt8) : List UInt8 :=
  (path.reverse.takeWhile (· ≠ 47)).reverse

/-- The part of `exec` that loads the program: whether all went well, and the size of the
memory. -/
def execLoad (pagetable : ℕ) (file : List UInt8) (elf : Elfhdr) : K (Bool × ℕ) :=
  loadSegments pagetable file elf.phnum (elf.phoff % 2 ^ 32) 0

/-- The part of `exec` behind the point of no return. -/
def execCommit (i : Pid) (path : List UInt8) (entry pagetable sz sp : ℕ) : K Unit := do
  let p ← getProc i
  store (p.trapframe + 120) sp 8
  setProc i fun p => { p with name := safestrcpy (lastElement path), pagetable, sz }
  store (p.trapframe + 24) entry 8
  store (p.trapframe + 48) sp 8
  procFreepagetable p.pagetable p.sz

/-- `exec`, where `file` is what the path leads to, and `argv` the addresses of the
arguments. -/
def exec (m : Machine) (i : Pid) (path : List UInt8) (argv : List ℕ) (file : Option (List UInt8)) :
    K ℤ :=
  match file with
  | none => return -1
  | some file =>
    let hdr := readi file 0 elfhdrSize
    let elf := Elfhdr.read hdr
    if hdr.length ≠ elfhdrSize then
      return -1
    else if elf.magic ≠ elfMagic then
      return -1
    else do
      let p ← getProc i
      let pagetable ← procPagetable m p.trapframe
      if pagetable = 0 then
        return -1
      else
        let (ok, sz) ← execLoad pagetable file elf
        if !ok then
          procFreepagetable pagetable sz
          return -1
        else
          let (ok, sz, sp) ← execStack pagetable sz argv
          if !ok then
            procFreepagetable pagetable sz
            return -1
          else
            execCommit i path elf.entry pagetable sz sp
            return argv.length

def fetchaddr (i : Pid) (addr : ℕ) : K (Option ℕ) := do
  let p ← getProc i
  if p.sz ≤ addr ∨ p.sz < (addr + 8) % 2 ^ 64 then
    return none
  else
    let r ← copyin p.pagetable addr 8
    return if r.2 then some (numAt r.1 0 8) else none

/-- The loop of `sys_exec` that fetches the arguments, at most `k` more: whether all went
well, and the pages of the arguments. -/
def fetchArgs (i : Pid) (uargv : ℕ) : (k n : ℕ) → (argv : List ℕ) → K (Bool × List ℕ)
  | 0, _, argv => pure (false, argv)
  | k + 1, n, argv => do
    match ← fetchaddr i ((uargv + 8 * n) % 2 ^ 64) with
    | none => return (false, argv)
    | some uarg =>
      if uarg = 0 then
        return (true, argv)
      else
        let a ← kalloc
        if a = 0 then
          return (false, argv)
        else
          let p ← getProc i
          let (s, ok) ← copyinstr p.pagetable uarg pgSize
          put a s
          if ok then
            fetchArgs i uargv k (n + 1) (argv ++ [a])
          else
            return (false, argv ++ [a])

end Xv6.Vm
