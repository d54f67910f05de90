import Xv6.KernelMemory
import Mathlib.Data.List.FinRange

/-!
# Page tables and user memory

The functions of `vm.c` that work on page tables and on the memory of a process, as
programs. A loop over pages is a recursion on the number of pages it has left.
-/

namespace Xv6.Vm

open OperationPrograms LittleEndianBlocks

/-! ### Page-table entries, as in `riscv.h` -/

def pteV : ℕ := 1 <<< 0

def pteR : ℕ := 1 <<< 1

def pteW : ℕ := 1 <<< 2

def pteX : ℕ := 1 <<< 3

def pteU : ℕ := 1 <<< 4

def pa2pte (pa : ℕ) : ℕ := (pa >>> 12) <<< 10

/-- `PTE2PA`, in 64 bits. -/
def pte2pa (pte : ℕ) : ℕ := ((pte >>> 10) <<< 12) % 2 ^ 64

def pteFlags (pte : ℕ) : ℕ := pte &&& 0x3FF

/-- `PX`: the index of an address at a level of the page table. -/
def px (level va : ℕ) : ℕ := (va >>> (12 + 9 * level)) &&& 0x1FF

def entry (pagetable i : ℕ) : ℕ := pagetable + 8 * i

/-! ### Walking and changing a table -/

/-- The loop of `walk`, at a level and a page-table page of that level. -/
def walkFrom (va : ℕ) (alloc : Bool) : (level pagetable : ℕ) → K ℕ
  | 0, pagetable => pure (entry pagetable (px 0 va))
  | level + 1, pagetable => do
    let pte ← load (entry pagetable (px (level + 1) va)) 8
    if pte &&& pteV ≠ 0 then
      walkFrom va alloc level (pte2pa pte)
    else if !alloc then
      return 0
    else
      let child ← kalloc
      if child = 0 then
        return 0
      else
        memset child
        store (entry pagetable (px (level + 1) va)) (pa2pte child ||| pteV) 8
        walkFrom va alloc level child

/-- `walk`: the address of the entry for a virtual address, or 0. -/
def walk (pagetable va : ℕ) (alloc : Bool) : K ℕ :=
  if maxVa ≤ va then panic .walk else walkFrom va alloc 2 pagetable

def walkaddr (pagetable va : ℕ) : K ℕ :=
  if maxVa ≤ va then
    return 0
  else do
    let pte ← walk pagetable va false
    if pte = 0 then
      return 0
    else
      let e ← load pte 8
      if e &&& pteV = 0 then
        return 0
      else if e &&& pteU = 0 then
        return 0
      else
        return pte2pa e

/-- The loop of `mappages` with `k` pages left: whether all of them were mapped. -/
def mapFrom (pagetable perm : ℕ) : (k a pa : ℕ) → K Bool
  | 0, _, _ => pure true
  | k + 1, a, pa => do
    let pte ← walk pagetable a true
    if pte = 0 then
      return false
    else
      let e ← load pte 8
      if e &&& pteV ≠ 0 then
        panic .mappagesRemap
      else
        store pte (pa2pte pa ||| perm ||| pteV) 8
        mapFrom pagetable perm k ((a + pgSize) % 2 ^ 64) ((pa + pgSize) % 2 ^ 64)

def mappages (pagetable va size pa perm : ℕ) : K Bool :=
  if va % pgSize ≠ 0 then
    panic .mappagesVa
  else if size % pgSize ≠ 0 then
    panic .mappagesSizeAligned
  else if size = 0 then
    panic .mappagesSize
  else
    mapFrom pagetable perm (size / pgSize) va pa

/-- The loop of `uvmunmap` with `k` pages left. -/
def unmapFrom (pagetable : ℕ) (doFree : Bool) : (k a : ℕ) → K Unit
  | 0, _ => pure ()
  | k + 1, a => do
    let pte ← walk pagetable a false
    if pte = 0 then
      panic .uvmunmapWalk
    else
      let e ← load pte 8
      if e &&& pteV = 0 then
        panic .uvmunmapNotMapped
      else if pteFlags e = pteV then
        panic .uvmunmapNotLeaf
      else
        if doFree then
          kfree (pte2pa e)
        store pte 0 8
        unmapFrom pagetable doFree k ((a + pgSize) % 2 ^ 64)

def uvmunmap (pagetable va npages : ℕ) (doFree : Bool) : K Unit :=
  if va % pgSize ≠ 0 then
    panic .uvmunmapAligned
  else
    unmapFrom pagetable doFree (((va + npages * pgSize) % 2 ^ 64 - va) / pgSize) va

def uvmcreate : K ℕ := do
  let pagetable ← kalloc
  if pagetable = 0 then
    return 0
  else
    memset pagetable
    return pagetable

/-- One round of the loop of `freewalk`; `free` is its call for the next level. -/
def freewalkEntry (free : ℕ → K Unit) (pagetable : ℕ) (i : Fin 512) : K Unit := do
  let pte ← load (entry pagetable i) 8
  if pte &&& pteV ≠ 0 ∧ pte &&& (pteR ||| pteW ||| pteX) = 0 then
    free (pte2pa pte)
    store (entry pagetable i) 0 8
  else if pte &&& pteV ≠ 0 then
    panic .freewalkLeaf
  else
    pure ()

/-- `freewalk`, down to a number of levels. -/
def freewalk : (levels pagetable : ℕ) → K Unit
  | 0, _ => panic .freewalkLeaf
  | levels + 1, pagetable => do
    (List.finRange 512).forM (freewalkEntry (freewalk levels) pagetable)
    kfree pagetable

/-! ### User memory -/

/-- `uvmdealloc`. The number of pages is an `int`. -/
def uvmdealloc (pagetable oldsz newsz : ℕ) : K ℕ :=
  if oldsz ≤ newsz then
    return oldsz
  else do
    if pgRoundUp newsz < pgRoundUp oldsz then
      let npages := Int.bmod ((pgRoundUp oldsz - pgRoundUp newsz) / pgSize : ℕ) (2 ^ 32)
      uvmunmap pagetable (pgRoundUp newsz) (npages % 2 ^ 64).toNat true
    return newsz

/-- The loop of `uvmalloc` with `k` pages left, in the configuration that does not clear
them. -/
def allocFrom (pagetable oldsz newsz xperm : ℕ) : (k a : ℕ) → K ℕ
  | 0, _ => pure newsz
  | k + 1, a => do
    let mem ← kalloc
    if mem = 0 then
      let _ ← uvmdealloc pagetable a oldsz
      return 0
    else
      if ← mappages pagetable a pgSize mem (pteR ||| pteU ||| xperm) then
        allocFrom pagetable oldsz newsz xperm k ((a + pgSize) % 2 ^ 64)
      else
        kfree mem
        let _ ← uvmdealloc pagetable a oldsz
        return 0

def uvmalloc (pagetable oldsz newsz xperm : ℕ) : K ℕ :=
  if newsz < oldsz then
    return oldsz
  else
    let old := pgRoundUp oldsz
    allocFrom pagetable old newsz xperm ((newsz - old + (pgSize - 1)) / pgSize) old

def uvmfree (pagetable sz : ℕ) : K Unit := do
  if 0 < sz then
    uvmunmap pagetable 0 (pgRoundUp sz / pgSize) true
  freewalk 3 pagetable

/-- The loop of `uvmcopy` with `k` pages left. -/
def copyFrom (old new : ℕ) : (k i : ℕ) → K Bool
  | 0, _ => pure true
  | k + 1, i => do
    let pte ← walk old i false
    if pte = 0 then
      panic .uvmcopyPte
    else
      let e ← load pte 8
      if e &&& pteV = 0 then
        panic .uvmcopyPresent
      else
        let mem ← kalloc
        if mem = 0 then
          uvmunmap new 0 (i / pgSize) true
          return false
        else
          memmove mem (pte2pa e)
          if ← mappages new i pgSize mem (pteFlags e) then
            copyFrom old new k ((i + pgSize) % 2 ^ 64)
          else
            kfree mem
            uvmunmap new 0 (i / pgSize) true
            return false

/-- `uvmcopy`: whether the child got all the pages. -/
def uvmcopy (old new sz : ℕ) : K Bool := copyFrom old new ((sz + (pgSize - 1)) / pgSize) 0

def uvmclear (pagetable va : ℕ) : K Unit := do
  let pte ← walk pagetable va false
  if pte = 0 then
    panic .uvmclear
  else
    let e ← load pte 8
    store pte (e &&& (2 ^ 64 - 1 - pteU)) 8

/-! ### Copies between the kernel and a user -/

/-- The loop of `copyout`, for at most `fuel` pages: whether all bytes were stored. Every
round stores at least one byte. -/
def copyoutFrom (pagetable : ℕ) : (fuel dstva : ℕ) → List UInt8 → K Bool
  | 0, _, src => pure src.isEmpty
  | fuel + 1, dstva, src =>
    if src.isEmpty then
      return true
    else
      let va0 := pgRoundDown dstva
      if maxVa ≤ va0 then
        return false
      else do
        let pte ← walk pagetable va0 false
        if pte = 0 then
          return false
        else
          let e ← load pte 8
          if e &&& pteW = 0 then
            return false
          else
            let pa0 ← walkaddr pagetable va0
            if pa0 = 0 then
              return false
            else
              let n := min (pgSize - (dstva - va0)) src.length
              put (pa0 + (dstva - va0)) (src.take n)
              copyoutFrom pagetable fuel ((va0 + pgSize) % 2 ^ 64) (src.drop n)

def copyout (pagetable dstva : ℕ) (src : List UInt8) : K Bool :=
  copyoutFrom pagetable src.length dstva src

/-- The loop of `copyin`, for at most `fuel` pages: the bytes stored at `dst`, and whether they
are all. Every round reads at least one byte. -/
def copyinFrom (pagetable : ℕ) : (fuel srcva len : ℕ) → K (List UInt8 × Bool)
  | 0, _, len => pure ([], len = 0)
  | fuel + 1, srcva, len =>
    if len = 0 then
      return ([], true)
    else do
      let va0 := pgRoundDown srcva
      let pa0 ← walkaddr pagetable va0
      if pa0 = 0 then
        return ([], false)
      else
        let n := min (pgSize - (srcva - va0)) len
        let bs ← takeUser (pa0 + (srcva - va0)) n
        let rest ← copyinFrom pagetable fuel ((va0 + pgSize) % 2 ^ 64) (len - n)
        return (bs ++ rest.1, rest.2)

/-- `copyin`: the bytes stored at `dst`, and whether it returns 0. -/
def copyin (pagetable srcva len : ℕ) : K (List UInt8 × Bool) :=
  copyinFrom pagetable len srcva len

/-- The loop of `copyinstr`, for at most `fuel` pages: the bytes stored at `dst`, and whether
the terminating zero is among them. -/
def copyinstrFrom (pagetable : ℕ) : (fuel srcva max : ℕ) → K (List UInt8 × Bool)
  | 0, _, _ => pure ([], false)
  | fuel + 1, srcva, max =>
    if max = 0 then
      return ([], false)
    else do
      let va0 := pgRoundDown srcva
      let pa0 ← walkaddr pagetable va0
      if pa0 = 0 then
        return ([], false)
      else
        let n := min (pgSize - (srcva - va0)) max
        let bs ← takeUser (pa0 + (srcva - va0)) n
        if 0 ∈ bs then
          return (bs.takeWhile (· ≠ 0) ++ [0], true)
        else
          let rest ← copyinstrFrom pagetable fuel ((va0 + pgSize) % 2 ^ 64) (max - n)
          return (bs ++ rest.1, rest.2)

def copyinstr (pagetable srcva max : ℕ) : K (List UInt8 × Bool) :=
  copyinstrFrom pagetable max srcva max

end Xv6.Vm
