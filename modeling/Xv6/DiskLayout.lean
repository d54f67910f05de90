import Xv6.FileSystemPrograms

/-!
# The layout of a file system on the disk

Where the superblock puts the inodes and the free bitmap, and how a `struct dinode` and a
`struct dirent` lie in the bytes of a block. A store to one bit, to one dinode or to a data
block leaves every other bit and dinode as it was.
-/

namespace Xv6.Fs
open Function

open LittleEndianBlocks

def dinodeSize : ℕ := 64

def ipb : ℕ := bSize / dinodeSize

/-- `BPB`: bitmap bits per block. -/
def bpb : ℕ := bSize * 8

/-- The fields of `struct superblock` that the running file system uses, of a disk whose
areas do not overlap: the inode blocks, then the bitmap, then the `nblocks` data blocks. -/
structure Superblock where
  size : ℕ
  nblocks : ℕ
  ninodes : ℕ
  inodestart : ℕ
  bmapstart : ℕ
  inodes_fit : inodestart * ipb + ninodes ≤ bmapstart * ipb
  bitmap_fits : bmapstart * bpb + size ≤ (size - nblocks) * bpb
  root_lt : rootIno < ninodes
  boot_lt : 0 < inodestart
  size_lt : size < 2 ^ 32

namespace Superblock

variable (sb : Superblock)

def nmeta : ℕ := sb.size - sb.nblocks

def iblock (i : ℕ) : ℕ := i / ipb + sb.inodestart

def bblock (b : ℕ) : ℕ := b / bpb + sb.bmapstart

variable {sb}

theorem iblock_lt {i : ℕ} (hi : i < sb.ninodes) : sb.iblock i < sb.bmapstart := by
  have h := sb.inodes_fit
  simp only [iblock, ipb, bSize, dinodeSize] at *
  omega

theorem bblock_lt {b : ℕ} (hb : b < sb.size) : sb.bblock b < sb.nmeta := by
  have h := sb.bitmap_fits
  simp only [bblock, nmeta, bpb, bSize] at *
  omega

theorem bmapstart_le_bblock (b : ℕ) : sb.bmapstart ≤ sb.bblock b := Nat.le_add_left _ _

theorem nmeta_le : sb.nmeta ≤ sb.size := Nat.sub_le _ _

theorem bmapstart_le_nmeta : sb.bmapstart ≤ sb.nmeta := by
  have h := sb.bitmap_fits
  simp only [nmeta, bpb, bSize] at *
  omega

theorem nmeta_pos : 0 < sb.nmeta := by
  have h := sb.iblock_lt sb.root_lt
  have h' := sb.bmapstart_le_nmeta
  omega

end Superblock

/-! ### The free bitmap -/

abbrev Disk := ℕ → Block

def bit (sb : Superblock) (disk : Disk) (b : ℕ) : Bool :=
  getBit (disk (sb.bblock b)) (b % bpb)

theorem bit_update_of_ne {sb : Superblock} (disk : Disk) {x b : ℕ} (blk : Block)
    (h : sb.bblock b ≠ x) : bit sb (update disk x blk) b = bit sb disk b := by
  rw [bit, bit, update_of_ne h]

theorem bit_update_bblock {sb : Superblock} (disk : Disk) (b : ℕ) {blk : Block} {v : Bool}
    (hself : getBit blk (b % bpb) = v)
    (hother : ∀ j, j ≠ b % bpb → getBit blk j = getBit (disk (sb.bblock b)) j) (c : ℕ) :
    bit sb (update disk (sb.bblock b) blk) c = update (bit sb disk) b v c := by
  by_cases hcb : c = b
  · subst hcb
    simpa [bit] using hself
  · rw [update_of_ne hcb]
    by_cases hblk : sb.bblock c = sb.bblock b
    · have hne : c % bpb ≠ b % bpb := by
        simp only [Superblock.bblock, bpb, bSize] at *
        omega
      rw [bit, bit, hblk, update_self, hother _ hne]
    · exact bit_update_of_ne disk blk hblk

theorem bit_set {sb : Superblock} (disk : Disk) (b c : ℕ) :
    bit sb (update disk (sb.bblock b) (setBit (disk (sb.bblock b)) (b % bpb))) c =
      update (bit sb disk) b true c := by
  have hroom : b % bpb / 8 < bSize := by
    simp only [bpb, bSize]
    omega
  refine bit_update_bblock disk b ?_ ?_ c
  · simp [getBit_setBit _ hroom]
  · intro j hj
    simp [getBit_setBit _ hroom, hj]

theorem bit_clear {sb : Superblock} (disk : Disk) (b c : ℕ) :
    bit sb (update disk (sb.bblock b) (clearBit (disk (sb.bblock b)) (b % bpb))) c =
      update (bit sb disk) b false c := by
  have hroom : b % bpb / 8 < bSize := by
    simp only [bpb, bSize]
    omega
  refine bit_update_bblock disk b ?_ ?_ c
  · simp [getBit_clearBit _ hroom]
  · intro j hj
    simp [getBit_clearBit _ hroom, hj]

/-! ### Dinodes -/

/-- The `struct dinode` at byte `o` of a block. -/
def decodeDinode (b : Block) (o : ℕ) : Dinode where
  type := getShort b o
  major := getShort b (o + 2)
  minor := getShort b (o + 4)
  nlink := getShort b (o + 6)
  size := getWord b (o + 8)
  addrs k := getWord b (o + 12 + 4 * k)

def encodeDinode (b : Block) (o : ℕ) (d : Dinode) : Block :=
  let b := putShort b o d.type
  let b := putShort b (o + 2) d.major
  let b := putShort b (o + 4) d.minor
  let b := putShort b (o + 6) d.nlink
  let b := putWord b (o + 8) d.size
  putWords b (o + 12) (List.ofFn d.addrs)

structure Dinode.Fits (d : Dinode) : Prop where
  size_lt : d.size < 2 ^ 32
  addrs_lt : ∀ k, d.addrs k < 2 ^ 32

theorem Dinode.length_addrs (d : Dinode) : (List.ofFn d.addrs).length = 13 := List.length_ofFn

theorem getByte_encodeDinode_outside (b : Block) {o i : ℕ} (d : Dinode)
    (h : i < o ∨ o + dinodeSize ≤ i) : getByte (encodeDinode b o d) i = getByte b i := by
  simp only [dinodeSize] at h
  have hlen := d.length_addrs
  simp only [encodeDinode, putShort, putWord]
  rw [getByte_putWords_outside _ _ _ (by omega)]
  repeat rw [getByte_putField_outside _ _ _ _ (by omega)]

theorem decodeDinode_congr {b c : Block} {o : ℕ}
    (h : ∀ i, o ≤ i → i < o + dinodeSize → getByte b i = getByte c i) :
    decodeDinode b o = decodeDinode c o := by
  have hfield (p k : ℕ) (hp : p + k ≤ dinodeSize) :
      getField b (o + p) k = getField c (o + p) k :=
    getField_congr _ k fun i h₁ h₂ => h i (by omega) (by omega)
  have haddr (k : Fin (nDirect + 1)) : getWord b (o + 12 + 4 * k) = getWord c (o + 12 + 4 * k) := by
    have hk := k.isLt
    simp only [nDirect] at hk
    rw [Nat.add_assoc]
    exact hfield _ 4 (by simp only [dinodeSize]; omega)
  simp only [decodeDinode, getShort, Dinode.mk.injEq]
  refine ⟨?_, ?_, ?_, ?_, hfield 8 4 (by decide), funext haddr⟩
  · exact congrArg (fun v => (UInt16.ofNat v).toInt16) (hfield 0 2 (by decide))
  · rw [hfield 2 2 (by decide)]
  · rw [hfield 4 2 (by decide)]
  · rw [hfield 6 2 (by decide)]

theorem decodeDinode_encodeDinode_disjoint (b : Block) {o o' : ℕ} (d : Dinode)
    (h : o' + dinodeSize ≤ o ∨ o + dinodeSize ≤ o') :
    decodeDinode (encodeDinode b o d) o' = decodeDinode b o' :=
  decodeDinode_congr fun _ _ _ => getByte_encodeDinode_outside b d (by omega)

theorem decodeDinode_encodeDinode_self (b : Block) {o : ℕ} {d : Dinode} (hd : d.Fits)
    (h : o + dinodeSize ≤ bSize) : decodeDinode (encodeDinode b o d) o = d := by
  simp only [dinodeSize] at h
  have hlen := d.length_addrs
  have hwords (c : Block) {p : ℕ} (k : ℕ) (hp : p + k ≤ o + 12) :
      getField (putWords c (o + 12) (List.ofFn d.addrs)) p k = getField c p k :=
    getField_congr p k fun i _ _ => getByte_putWords_outside _ _ _ (by omega)
  have hshort (c : Block) {p q : ℕ} (v : Int16) (hpq : q + 2 ≤ p ∨ p + 2 ≤ q) :
      getField (putShort c p v) q 2 = getField c q 2 :=
    getField_putField_disjoint c p _ 2 hpq
  have hword (c : Block) {q : ℕ} (hq : q + 2 ≤ o + 8) :
      getField (putWord c (o + 8) d.size) q 2 = getField c q 2 :=
    getField_putField_disjoint c (o + 8) _ 4 (.inl hq)
  have hself (c : Block) {p : ℕ} (v : Int16) (hp : p + 2 ≤ bSize) :
      (UInt16.ofNat (getField (putShort c p v) p 2)).toInt16 = v :=
    getShort_putShort_self c v hp
  cases d with
  | mk type major minor nlink size addrs =>
    simp only [decodeDinode, encodeDinode, Dinode.mk.injEq]
    refine ⟨?_, ?_, ?_, ?_, ?_, ?_⟩
    · rw [getShort, hwords _ 2 (by omega), hword _ (by omega), hshort _ _ (by omega),
        hshort _ _ (by omega), hshort _ _ (by omega), hself _ _ (by omega)]
    · rw [getShort, hwords _ 2 (by omega), hword _ (by omega), hshort _ _ (by omega),
        hshort _ _ (by omega), hself _ _ (by omega)]
    · rw [getShort, hwords _ 2 (by omega), hword _ (by omega), hshort _ _ (by omega),
        hself _ _ (by omega)]
    · rw [getShort, hwords _ 2 (by omega), hword _ (by omega), hself _ _ (by omega)]
    · rw [getWord, hwords _ 4 (by omega)]
      exact getWord_putWord_self _ (by omega) hd.size_lt
    · funext k
      have hk : k.val < (List.ofFn addrs).length := List.length_ofFn ▸ k.isLt
      have hroom : o + 12 + 4 * (List.ofFn addrs).length ≤ bSize := by
        replace hlen : (List.ofFn addrs).length = 13 := hlen
        omega
      rw [getWord_putWords_get _ _ _ hroom (List.forall_mem_ofFn_iff.mpr hd.addrs_lt) hk]
      exact List.getElem_ofFn hk

def dinode (sb : Superblock) (disk : Disk) (i : ℕ) : Dinode :=
  decodeDinode (disk (sb.iblock i)) (i % ipb * dinodeSize)

/-- The disk after dinode `i` was overwritten. -/
def putDinode (sb : Superblock) (disk : Disk) (i : ℕ) (d : Dinode) : Disk :=
  update disk (sb.iblock i)
    (encodeDinode (disk (sb.iblock i)) (i % ipb * dinodeSize) d)

theorem dinode_update_of_ne {sb : Superblock} (disk : Disk) {x i : ℕ} (blk : Block)
    (h : sb.iblock i ≠ x) : dinode sb (update disk x blk) i = dinode sb disk i := by
  rw [dinode, dinode, update_of_ne h]

theorem dinode_putDinode {sb : Superblock} (disk : Disk) (i : ℕ) {d : Dinode} (hd : d.Fits) :
    dinode sb (putDinode sb disk i d) = update (dinode sb disk) i d := by
  funext j
  by_cases hji : j = i
  · subst hji
    rw [update_self, dinode, putDinode, update_self]
    refine decodeDinode_encodeDinode_self _ hd ?_
    simp only [ipb, bSize, dinodeSize]
    omega
  · rw [update_of_ne hji]
    by_cases hblk : sb.iblock j = sb.iblock i
    · rw [dinode, dinode, putDinode, hblk, update_self]
      refine decodeDinode_encodeDinode_disjoint _ d ?_
      simp only [Superblock.iblock, ipb, bSize, dinodeSize] at *
      omega
    · exact dinode_update_of_ne disk _ hblk

theorem bit_putDinode {sb : Superblock} (disk : Disk) {i : ℕ} (hi : i < sb.ninodes)
    (d : Dinode) (b : ℕ) : bit sb (putDinode sb disk i d) b = bit sb disk b := by
  refine bit_update_of_ne disk _ ?_
  have h := sb.iblock_lt hi
  have h' := sb.bmapstart_le_bblock b
  omega

theorem putDinode_of_le {sb : Superblock} (disk : Disk) {i : ℕ} (hi : i < sb.ninodes)
    (d : Dinode) {x : ℕ} (hx : sb.bmapstart ≤ x) : putDinode sb disk i d x = disk x := by
  have h := sb.iblock_lt hi
  exact update_of_ne (by omega) _ _

theorem dinode_update_of_le {sb : Superblock} (disk : Disk) {x i : ℕ} (blk : Block)
    (hi : i < sb.ninodes) (hx : sb.bmapstart ≤ x) :
    dinode sb (update disk x blk) i = dinode sb disk i := by
  have h := sb.iblock_lt hi
  exact dinode_update_of_ne disk blk (by omega)

theorem bit_update_of_le {sb : Superblock} (disk : Disk) {x b : ℕ} (blk : Block)
    (hb : b < sb.size) (hx : sb.nmeta ≤ x) :
    bit sb (update disk x blk) b = bit sb disk b := by
  have h := sb.bblock_lt hb
  exact bit_update_of_ne disk blk (by omega)

/-! ### Directory entries -/

/-- The `struct dirent` in a run of bytes. -/
def decodeDirent (bytes : List UInt8) : Dirent :=
  ⟨(bytes.getD 0 0).toNat + 256 * (bytes.getD 1 0).toNat,
    ((bytes.drop 2).take dirSiz).takeWhile (· ≠ 0)⟩

/-- The bytes of a `struct dirent`: `strncpy` pads the name with zeros. -/
def encodeDirent (de : Dirent) : List UInt8 :=
  UInt8.ofNat de.inum :: UInt8.ofNat (de.inum / 256) ::
    (de.name ++ List.replicate dirSiz 0).take dirSiz

/-- A disk of six blocks: one block of inodes, one bitmap block and three data blocks. -/
def smallSuperblock : Superblock where
  size := 6
  nblocks := 3
  ninodes := 3
  inodestart := 1
  bmapstart := 2
  inodes_fit := by decide
  bitmap_fits := by decide
  root_lt := by decide
  boot_lt := by decide
  size_lt := by decide

end Xv6.Fs
