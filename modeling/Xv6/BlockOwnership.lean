import Xv6.ExactOwnership
import Xv6.InodeBlocks

/-!
# Who owns which block of the file system

Every data block of the disk belongs to at most one place of one allocated inode: one of its block
numbers or one entry of its indirect block. The bitmap marks exactly the blocks before the data
area and the owned blocks. An inode that is being changed in memory counts with its in-memory
fields.
-/

namespace Xv6.Fs
open Function

open LittleEndianBlocks ExactOwnership

inductive Pos where
  | addr (k : Fin (nDirect + 1))
  | entry (j : ℕ)
  deriving DecidableEq

/-- Entry `j` of the indirect block `ind`; zero if there is no such block or entry. -/
def entryAt (disk : Disk) (ind j : ℕ) : ℕ :=
  if ind = 0 ∨ nIndirect ≤ j then 0 else getWord (disk ind) (4 * j)

def ptr (disk : Disk) (d : Dinode) : Pos → ℕ
  | .addr k => d.addrs k
  | .entry j => entryAt disk d.indirect j

/-- The place of the `bn`th block of a file. -/
def dataPos (bn : ℕ) : Pos :=
  if bn < nDirect then .addr (Fin.ofNat (nDirect + 1) bn) else .entry (bn - nDirect)

theorem dataPos_ne_indirect (bn : ℕ) : dataPos bn ≠ .addr (Fin.last nDirect) := by
  rw [dataPos]
  split
  · rename_i h
    simp only [ne_eq, Pos.addr.injEq, Fin.ext_iff, Fin.val_ofNat, Fin.val_last]
    simp only [nDirect] at *
    omega
  · simp

theorem dataPos_injective {bn bn' : ℕ} (h : dataPos bn = dataPos bn') : bn = bn' := by
  by_cases h₁ : bn < nDirect <;> by_cases h₂ : bn' < nDirect <;>
    simp only [dataPos, h₁, h₂, if_true, if_false, Pos.addr.injEq, Pos.entry.injEq, reduceCtorEq,
      Fin.ext_iff, Fin.val_ofNat] at h <;> simp only [nDirect] at * <;> omega

def toBlock (n : ℕ) : Option ℕ := if n = 0 then none else some n

theorem toBlock_eq_some {n b : ℕ} : toBlock n = some b ↔ n = b ∧ b ≠ 0 := by
  rw [toBlock]
  split
  · simp_all
  · simp only [Option.some.injEq]
    constructor
    · rintro rfl
      exact ⟨rfl, ‹_›⟩
    · exact And.left

def owns (sb : Superblock) (disk : Disk) (ino : ℕ → Dinode) (o : ℕ × Pos) : Option ℕ :=
  if o.1 < sb.ninodes ∧ (ino o.1).type ≠ 0 then toBlock (ptr disk (ino o.1) o.2) else none

theorem owns_eq_some {sb : Superblock} {disk : Disk} {ino : ℕ → Dinode} {i : ℕ} {q : Pos}
    {b : ℕ} : owns sb disk ino (i, q) = some b ↔
      (i < sb.ninodes ∧ (ino i).type ≠ 0) ∧ ptr disk (ino i) q = b ∧ b ≠ 0 := by
  rw [owns]
  split
  · rename_i h
    rw [toBlock_eq_some]
    exact (and_iff_right h).symm
  · rename_i h
    simp [h]

/-- The inode number in the directory entry at byte `o` of a block. -/
def entryInum (blk : Block) (o : ℕ) : ℕ := (decodeDirent (getBytes blk o direntSize)).inum

/-- The blocks of an inode cover its size, and as a directory it consists of whole entries. -/
structure Filled (disk : Disk) (d : Dinode) : Prop where
  size_le : d.size ≤ maxFile * bSize
  mapped : ∀ bn, bn * bSize < d.size → ptr disk d (dataPos bn) ≠ 0
  dir_size : d.type = tDir → direntSize ∣ d.size

/-- Beside that, the entries of a directory name inodes of this file system. -/
structure WellFormed (sb : Superblock) (disk : Disk) (d : Dinode) : Prop
    extends Filled disk d where
  entries : d.type = tDir → ∀ n, n * direntSize < d.size →
    entryInum (disk (ptr disk d (dataPos (n * direntSize / bSize)))) (n * direntSize % bSize) <
      sb.ninodes

def dataBlocks (sb : Superblock) : Set ℕ := { b | sb.nmeta ≤ b ∧ b < sb.size }

/-- The bitmap is exact, no block has two owners, and the blocks of every allocated inode cover its
size. -/
structure Accounted (sb : Superblock) (disk : Disk) (ino : ℕ → Dinode) : Prop where
  owned : Exact (dataBlocks sb) (bit sb disk) (owns sb disk ino)
  meta_used : ∀ b < sb.nmeta, bit sb disk b = true
  filled : ∀ i < sb.ninodes, (ino i).type ≠ 0 → Filled disk (ino i)

/-- The bitmap is exact, no block has two owners, and every allocated inode is well formed. -/
structure Consistent (sb : Superblock) (disk : Disk) (ino : ℕ → Dinode) : Prop where
  owned : Exact (dataBlocks sb) (bit sb disk) (owns sb disk ino)
  meta_used : ∀ b < sb.nmeta, bit sb disk b = true
  inodes : ∀ i < sb.ninodes, (ino i).type ≠ 0 → WellFormed sb disk (ino i)

variable {sb : Superblock} {disk disk' : Disk} {ino ino' : ℕ → Dinode}

theorem pos_of_mem_dataBlocks {b : ℕ} (h : b ∈ dataBlocks sb) : b ≠ 0 := by
  have hpos := sb.nmeta_pos
  have hle := h.1
  omega

theorem entryAt_congr {ind : ℕ} (h : ind ≠ 0 → disk' ind = disk ind) (j : ℕ) :
    entryAt disk' ind j = entryAt disk ind j := by
  by_cases h0 : ind = 0
  · simp [entryAt, h0]
  · rw [entryAt, entryAt, h h0]

theorem ptr_congr {d d' : Dinode} (haddrs : d'.addrs = d.addrs)
    (h : d.indirect ≠ 0 → disk' d.indirect = disk d.indirect) (q : Pos) :
    ptr disk' d' q = ptr disk d q := by
  have hind : d'.indirect = d.indirect := congrFun haddrs _
  cases q with
  | addr k => exact congrFun haddrs k
  | entry j =>
    rw [ptr, ptr, hind]
    exact entryAt_congr h j

section Owned

variable {used : ℕ → Bool}

theorem ptr_mem_of_owned (h : Exact (dataBlocks sb) used (owns sb disk ino)) {i : ℕ}
    (hi : i < sb.ninodes) (ht : (ino i).type ≠ 0) {q : Pos} (hq : ptr disk (ino i) q ≠ 0) :
    ptr disk (ino i) q ∈ dataBlocks sb :=
  h.inPool (o := (i, q)) (owns_eq_some.mpr ⟨⟨hi, ht⟩, rfl, hq⟩)

theorem ptr_inj_of_owned (h : Exact (dataBlocks sb) used (owns sb disk ino)) {i j : ℕ}
    (hi : i < sb.ninodes) (hti : (ino i).type ≠ 0) (hj : j < sb.ninodes) (htj : (ino j).type ≠ 0)
    {q r : Pos} (hq : ptr disk (ino i) q ≠ 0) (heq : ptr disk (ino i) q = ptr disk (ino j) r) :
    i = j ∧ q = r := by
  have h₁ : owns sb disk ino (i, q) = some (ptr disk (ino i) q) :=
    owns_eq_some.mpr ⟨⟨hi, hti⟩, rfl, hq⟩
  have h₂ : owns sb disk ino (j, r) = some (ptr disk (ino i) q) :=
    owns_eq_some.mpr ⟨⟨hj, htj⟩, heq.symm, hq⟩
  exact Prod.mk.inj (h.inj h₁ h₂)

theorem ptr_ne_of_owned (h : Exact (dataBlocks sb) used (owns sb disk ino)) {b : ℕ}
    (hfree : used b = false) {i : ℕ} (hi : i < sb.ninodes) (ht : (ino i).type ≠ 0) {q : Pos}
    (hq : ptr disk (ino i) q ≠ 0) : ptr disk (ino i) q ≠ b := by
  intro heq
  exact h.own_ne hfree (i, q) (owns_eq_some.mpr ⟨⟨hi, ht⟩, heq, heq ▸ hq⟩)

theorem owned_grow (h : Exact (dataBlocks sb) used (owns sb disk ino)) {i : ℕ} {ip' : Dinode}
    (hi : i < sb.ninodes) (ht : (ino i).type ≠ 0) {pos : Pos} {b : ℕ}
    (hzero : ptr disk (ino i) pos = 0) (hb : b ∈ dataBlocks sb) (hfree : used b = false)
    (hptr : ∀ q, ptr disk' ip' q = update (ptr disk (ino i)) pos b q)
    (htype : ip'.type = (ino i).type)
    (hframe : ∀ x, sb.nmeta ≤ x → x ≠ b → x ≠ (ino i).indirect → disk' x = disk x) :
    Exact (dataBlocks sb) (update used b true)
      (owns sb disk' (update ino i ip')) := by
  have hnone : owns sb disk ino (i, pos) = none := by
    simp only [owns, hi, ht, hzero, toBlock, true_and, ne_eq, not_false_eq_true, if_true]
  refine (h.assign hnone hb hfree).congr (fun _ _ => rfl) ?_
  rintro ⟨j, q⟩
  by_cases hji : j = i
  · subst hji
    by_cases hq : q = pos
    · subst hq
      rw [update_self]
      refine owns_eq_some.mpr ⟨?_, ?_, pos_of_mem_dataBlocks hb⟩
      · rw [update_self, htype]
        exact ⟨hi, ht⟩
      · rw [update_self, hptr, update_self]
    · have hne : (j, q) ≠ (j, pos) := fun hp => hq (Prod.mk.inj hp).2
      rw [update_of_ne hne]
      simp only [owns, update_self, htype, hptr, update_of_ne hq]
  · have hne : (j, q) ≠ (i, pos) := fun hp => hji (Prod.mk.inj hp).1
    rw [update_of_ne hne]
    by_cases hjt : j < sb.ninodes ∧ (ino j).type ≠ 0
    · simp only [owns, update_of_ne hji, if_pos hjt]
      rw [ptr_congr rfl]
      intro hind
      refine hframe _ (ptr_mem_of_owned h hjt.1 hjt.2 (q := .addr (Fin.last nDirect)) hind).1
        (ptr_ne_of_owned h hfree hjt.1 hjt.2 (q := .addr (Fin.last nDirect)) hind) fun heq => hji ?_
      exact (ptr_inj_of_owned h hjt.1 hjt.2 hi ht (q := .addr (Fin.last nDirect))
        (r := .addr (Fin.last nDirect)) hind heq).1
    · simp only [owns, update_of_ne hji, if_neg hjt]

theorem ptr_write (h : Exact (dataBlocks sb) used (owns sb disk ino)) {i : ℕ}
    (hi : i < sb.ninodes) (ht : (ino i).type ≠ 0) (bn : ℕ) (blk : Block) {j : ℕ}
    (hj : j < sb.ninodes) (htj : (ino j).type ≠ 0) (q : Pos) :
    ptr (update disk (ptr disk (ino i) (dataPos bn)) blk) (ino j) q =
      ptr disk (ino j) q := by
  refine ptr_congr rfl (fun hind => update_of_ne (fun heq => ?_) _ _) q
  have hpos := (ptr_inj_of_owned h hj htj hi ht (q := .addr (Fin.last nDirect)) hind heq).2
  exact dataPos_ne_indirect bn hpos.symm

end Owned

theorem WellFormed.frame {d : Dinode} (hd : WellFormed sb disk d)
    (hind : d.indirect ≠ 0 → disk' d.indirect = disk d.indirect)
    (hdata : ∀ bn, ptr disk d (dataPos bn) ≠ 0 →
      disk' (ptr disk d (dataPos bn)) = disk (ptr disk d (dataPos bn))) :
    WellFormed sb disk' d where
  size_le := hd.size_le
  mapped bn hbn := by
    rw [ptr_congr rfl hind]
    exact hd.mapped bn hbn
  dir_size := hd.dir_size
  entries ht n hn := by
    have hbn : n * direntSize / bSize * bSize < d.size :=
      lt_of_le_of_lt (Nat.div_mul_le_self _ _) hn
    rw [ptr_congr rfl hind, hdata _ (hd.mapped _ hbn)]
    exact hd.entries ht n hn

theorem Consistent.ptr_mem (h : Consistent sb disk ino) {i : ℕ} (hi : i < sb.ninodes)
    (ht : (ino i).type ≠ 0) {q : Pos} (hq : ptr disk (ino i) q ≠ 0) :
    ptr disk (ino i) q ∈ dataBlocks sb := ptr_mem_of_owned h.owned hi ht hq

theorem Consistent.frame (h : Consistent sb disk ino)
    (hbits : ∀ b < sb.size, bit sb disk' b = bit sb disk b)
    (howned : ∀ o b, owns sb disk ino o = some b → disk' b = disk b) :
    Consistent sb disk' ino := by
  have hsame (i : ℕ) (hi : i < sb.ninodes) (ht : (ino i).type ≠ 0) (q : Pos)
      (hq : ptr disk (ino i) q ≠ 0) :
      disk' (ptr disk (ino i) q) = disk (ptr disk (ino i) q) :=
    howned (i, q) _ (owns_eq_some.mpr ⟨⟨hi, ht⟩, rfl, hq⟩)
  refine ⟨h.owned.congr (fun b hb => hbits b hb.2) ?_, ?_, ?_⟩
  · rintro ⟨i, q⟩
    by_cases hit : i < sb.ninodes ∧ (ino i).type ≠ 0
    · simp only [owns, if_pos hit]
      rw [ptr_congr rfl (hsame i hit.1 hit.2 (.addr (Fin.last nDirect)))]
    · simp only [owns, hit, if_false]
  · intro b hb
    rw [hbits b (lt_of_lt_of_le hb sb.nmeta_le)]
    exact h.meta_used b hb
  · intro i hi ht
    exact (h.inodes i hi ht).frame (hsame i hi ht (.addr (Fin.last nDirect)))
      fun bn hbn => hsame i hi ht _ hbn

variable {i : ℕ} {ip' : Dinode}

theorem Consistent.of_update (howned : Exact (dataBlocks sb) (bit sb disk)
      (owns sb disk (update ino i ip'))) (hmeta : ∀ b < sb.nmeta, bit sb disk b = true)
    (hself : ip'.type ≠ 0 → WellFormed sb disk ip')
    (hothers : ∀ j < sb.ninodes, j ≠ i → (ino j).type ≠ 0 → WellFormed sb disk (ino j)) :
    Consistent sb disk (update ino i ip') := by
  refine ⟨howned, hmeta, fun j hj htj => ?_⟩
  by_cases hji : j = i
  · subst hji
    rw [update_self] at htj ⊢
    exact hself htj
  · rw [update_of_ne hji] at htj ⊢
    exact hothers j hj hji htj

/-- An inode is replaced by one with the same blocks. -/
theorem Consistent.replace (h : Consistent sb disk ino) (ht : ip'.type = (ino i).type)
    (ha : ip'.addrs = (ino i).addrs) (hwf : ip'.type ≠ 0 → WellFormed sb disk ip') :
    Consistent sb disk (update ino i ip') := by
  have hptr (q : Pos) : ptr disk ip' q = ptr disk (ino i) q := ptr_congr ha (fun _ => rfl) q
  refine .of_update (h.owned.congr (fun _ _ => rfl) ?_) h.meta_used hwf
    fun j hj _ => h.inodes j hj
  rintro ⟨j, q⟩
  by_cases hji : j = i
  · subst hji
    simp only [owns, update_self, ht, hptr]
  · simp only [owns, update_of_ne hji]

theorem WellFormed.same_blocks {d d' : Dinode} (h : WellFormed sb disk d) (ht : d'.type = d.type)
    (hs : d'.size = d.size) (ha : d'.addrs = d.addrs) : WellFormed sb disk d' := by
  have hptr (q : Pos) : ptr disk d' q = ptr disk d q := ptr_congr ha (fun _ => rfl) q
  exact ⟨⟨hs ▸ h.size_le, fun bn hbn => hptr _ ▸ h.mapped bn (hs ▸ hbn),
    fun hd => hs ▸ h.dir_size (ht ▸ hd)⟩,
    fun hd n hn => by rw [hptr]; exact h.entries (ht ▸ hd) n (hs ▸ hn)⟩

theorem Consistent.emptied {own : ℕ × Pos → Option ℕ}
    (howned : Exact (dataBlocks sb) (bit sb disk) own)
    (hmeta : ∀ b < sb.nmeta, bit sb disk b = true)
    (hself : ∀ q, own (i, q) = none)
    (hother : ∀ j ≠ i, ∀ q, own (j, q) = owns sb disk ino (j, q))
    (hwf : ∀ j < sb.ninodes, j ≠ i → (ino j).type ≠ 0 → WellFormed sb disk (ino j))
    (haddrs : ∀ k, ip'.addrs k = 0) (hsize : ip'.size = 0) :
    Consistent sb disk (update ino i ip') := by
  have hptr (q : Pos) : ptr disk ip' q = 0 := by
    cases q with
    | addr k => exact haddrs k
    | entry j => simp [ptr, entryAt, Dinode.indirect, haddrs]
  refine .of_update (howned.congr (fun _ _ => rfl) ?_) hmeta (fun _ => ?_) hwf
  · rintro ⟨j, q⟩
    by_cases hji : j = i
    · subst hji
      rw [hself]
      simp [owns, hptr, toBlock]
    · rw [hother j hji]
      simp only [owns, update_of_ne hji]
  · refine ⟨⟨by rw [hsize]; exact Nat.zero_le _, fun bn hbn => ?_, fun _ => ?_⟩, fun _ n hn => ?_⟩
    · rw [hsize] at hbn
      omega
    · rw [hsize]
      exact dvd_zero _
    · rw [hsize] at hn
      omega

theorem Consistent.fits (h : Consistent sb disk ino) (hi : i < sb.ninodes)
    (ht : (ino i).type ≠ 0) : (ino i).Fits where
  size_lt := by
    have hle := (h.inodes i hi ht).size_le
    have hmax : maxFile * bSize < 2 ^ 32 := by decide
    omega
  addrs_lt k := by
    by_cases hk : (ino i).addrs k = 0
    · rw [hk]
      decide
    · have hmem := h.ptr_mem hi ht (q := .addr k) hk
      have hlt := sb.size_lt
      exact lt_trans hmem.2 hlt

theorem Consistent.iupdate {ip : Dinode}
    (h : Consistent sb disk (update (dinode sb disk) i ip)) (hi : i < sb.ninodes)
    (hfits : ip.Fits) :
    Consistent sb (putDinode sb disk i ip) (dinode sb (putDinode sb disk i ip)) := by
  rw [dinode_putDinode disk i hfits]
  refine h.frame (fun b _ => bit_putDinode disk hi ip b) ?_
  rintro o b hb
  have hmem := h.owned.inPool hb
  exact putDinode_of_le disk hi ip (le_trans sb.bmapstart_le_nmeta hmem.1)

end Xv6.Fs
