import Xv6.FileContents
import Xv6.LoggedWrites

/-!
# Files as arrays of bytes

The contents of a file whose blocks cover its size are a list of bytes. When the blocks that a
write needs are free, `writei` replaces a part of the list and does nothing else to the files of
the disk; `readi` returns a part of it.
-/

namespace Xv6.Fs
open Function

open LittleEndianBlocks OperationPrograms

variable {sb : Superblock} {st st' : Store} {i : ℕ} {ip ip' : Dinode}

/-! ### Free blocks -/

/-- The number of blocks that `balloc` can hand out. -/
def numFree (sb : Superblock) (disk : Disk) : ℕ :=
  ((Finset.range sb.size).filter fun b => bit sb disk b = false).card

theorem numFree_congr {disk disk' : Disk} (h : ∀ b < sb.size, bit sb disk' b = bit sb disk b) :
    numFree sb disk' = numFree sb disk := by
  refine congrArg Finset.card (Finset.filter_congr fun b hb => ?_)
  rw [h b (Finset.mem_range.mp hb)]

theorem numFree_put {a : ℕ} (ha : a ∈ dataBlocks sb) (blk : Block) :
    numFree sb (st.put a blk).disk = numFree sb st.disk :=
  numFree_congr fun _ hb => bit_update_of_le _ _ hb ha.1

theorem Grows.numFree_add_one {pos : Pos} {b : ℕ} (h : Grows sb st ip pos b st' ip') :
    numFree sb st'.disk + 1 = numFree sb st.disk := by
  have hmem : b ∈ (Finset.range sb.size).filter fun c => bit sb st.disk c = false :=
    Finset.mem_filter.mpr ⟨Finset.mem_range.mpr h.mem.2, h.free⟩
  have herase : ((Finset.range sb.size).filter fun c => bit sb st'.disk c = false) =
      ((Finset.range sb.size).filter fun c => bit sb st.disk c = false).erase b := by
    ext c
    simp only [Finset.mem_filter, Finset.mem_range, Finset.mem_erase]
    by_cases hc : c < sb.size
    · rw [h.bits c hc]
      by_cases hcb : c = b <;> simp [hcb, hc]
    · simp [hc]
  rw [numFree, herase]
  exact Finset.card_erase_add_one hmem

theorem ballocFor_ne_zero (h : Owned sb st i ip) (hdeny : st.deny st.calls = false)
    (hfree : 0 < numFree sb st.disk) : (ballocFor sb i ip st).1 ≠ 0 := by
  obtain ⟨b, hb⟩ := Finset.card_pos.mp hfree
  obtain ⟨hlt, hbit⟩ := Finset.mem_filter.mp hb
  rw [ballocFor_fst]
  simp only [balloc, Nat.add_sub_cancel, hdeny, Bool.false_eq_true, if_false]
  cases hfind : (List.range sb.size).find? fun b => !bit sb st.disk b with
  | none =>
    have hused := List.find?_eq_none.mp hfind b (List.mem_range.mpr (Finset.mem_range.mp hlt))
    simp [hbit] at hused
  | some c =>
    have hc : bit sb st.disk c = false := by simpa using List.find?_some hfind
    rintro rfl
    rw [h.meta_used 0 sb.nmeta_pos] at hc
    cases hc

/-! ### Calls that the environment refuses -/

/-- The next `k` calls of `balloc` succeed. -/
def Granted (sb : Superblock) (st : Store) (k : ℕ) : Prop :=
  (∀ j < k, st.deny (st.calls + j) = false) ∧ k ≤ numFree sb st.disk

theorem Granted.mono {k l : ℕ} (h : Granted sb st l) (hle : k ≤ l) : Granted sb st k :=
  ⟨fun j hj => h.1 j (by omega), hle.trans h.2⟩

/-- `k` calls of `balloc` were made from `st` to `st'`, which all succeeded. -/
structure Takes (sb : Superblock) (st st' : Store) (k : ℕ) : Prop where
  deny : st'.deny = st.deny
  calls : st'.calls = st.calls + k
  granted : ∀ j < k, st.deny (st.calls + j) = false
  free : numFree sb st'.disk + k = numFree sb st.disk

theorem Takes.refl (sb : Superblock) (st : Store) : Takes sb st st 0 :=
  ⟨rfl, rfl, nofun, rfl⟩

theorem Takes.granted_iff {k l : ℕ} (h : Takes sb st st' k) :
    Granted sb st (k + l) ↔ Granted sb st' l := by
  have hfree := h.free
  rw [Granted, Granted, h.deny, h.calls]
  refine and_congr ⟨fun hd j hj => ?_, fun hd j hj => ?_⟩ (by omega)
  · rw [Nat.add_assoc]
    exact hd (k + j) (by omega)
  · by_cases hjk : j < k
    · exact h.granted j hjk
    · have hj' := hd (j - k) (by omega)
      rwa [show st.calls + k + (j - k) = st.calls + j by omega] at hj'

theorem Takes.trans {st'' : Store} {k l : ℕ} (h : Takes sb st st' k)
    (h' : Takes sb st' st'' l) : Takes sb st st'' (k + l) where
  deny := h'.deny.trans h.deny
  calls := by rw [h'.calls, h.calls, Nat.add_assoc]
  granted := by
    refine (h.granted_iff.mpr ⟨h'.granted, ?_⟩).1
    have hfree := h'.free
    omega
  free := by
    have hfree := h.free
    have hfree' := h'.free
    omega

theorem ballocFor_granted (sb : Superblock) (i : ℕ) (ip : Dinode) (st : Store) :
    (ballocFor sb i ip st).2.deny = st.deny ∧
      (ballocFor sb i ip st).2.calls = st.calls + 1 ∧
      ((ballocFor sb i ip st).1 ≠ 0 → st.deny st.calls = false) := by
  have hballoc : (balloc sb st).2.deny = st.deny ∧ (balloc sb st).2.calls = st.calls + 1 ∧
      ((balloc sb st).1 ≠ 0 → st.deny st.calls = false) := by
    simp only [balloc, Nat.add_sub_cancel]
    split_ifs with hdeny
    · exact ⟨rfl, rfl, fun h => absurd rfl h⟩
    · split <;> exact ⟨rfl, rfl, fun _ => Bool.not_eq_true _ ▸ hdeny⟩
  simp only [ballocFor]
  split_ifs
  · exact hballoc
  · exact hballoc

theorem granted_put {a k : ℕ} (ha : a ∈ dataBlocks sb) (blk : Block) :
    Granted sb (st.put a blk) k ↔ Granted sb st k := by
  rw [Granted, Granted, numFree_put ha]
  rfl

/-! ### The blocks that a write needs -/

/-- Places of an inode that must get a block before it can be reached at block `bn`. -/
def lacking (disk : Disk) (ip : Dinode) (bn : ℕ) : ℕ :=
  (if ptr disk ip (dataPos bn) = 0 then 1 else 0) +
    if ip.indirect = 0 ∧ nDirect ≤ bn then 1 else 0

variable {q : Pos} {r : ℕ × Dinode × Store} {bn : ℕ}

theorem Resolves.ne_zero (hs : Resolves sb i st ip q r) (h : Owned sb st i ip)
    (hg : Granted sb st (if ptr st.disk ip q = 0 then 1 else 0)) : r.1 ≠ 0 := by
  cases hs with
  | found hq => exact hq
  | refused hq hb =>
    rw [if_pos hq] at hg
    exact absurd hb (ballocFor_ne_zero h (hg.1 0 Nat.one_pos) hg.2)
  | addr _ hb => exact hb
  | entry _ _ _ hb => exact hb

theorem Resolves.takes (hs : Resolves sb i st ip q r) (h : Owned sb st i ip) (hne : r.1 ≠ 0) :
    Takes sb st r.2.2 (if ptr st.disk ip q = 0 then 1 else 0) := by
  by_cases hq : ptr st.disk ip q = 0
  · have hfree : numFree sb r.2.2.disk + 1 = numFree sb st.disk := by
      rcases hs.outcome h with ⟨-, -, hres⟩ | hg
      · exact absurd (hres.trans hq) hne
      · exact hg.numFree_add_one
    obtain ⟨hdeny, hcalls, hgranted⟩ := ballocFor_granted sb i ip st
    have hone (hb : (ballocFor sb i ip st).1 ≠ 0) (j : ℕ) (hj : j < 1) :
        st.deny (st.calls + j) = false := by
      rw [Nat.lt_one_iff.mp hj]
      exact hgranted hb
    rw [if_pos hq]
    cases hs with
    | found h0 => exact absurd hq h0
    | refused => exact absurd rfl hne
    | addr _ hb => exact ⟨hdeny, hcalls, hone hb, hfree⟩
    | entry _ _ _ hb => exact ⟨hdeny, hcalls, hone hb, hfree⟩
  · rw [hs.eq_of_ne hq, if_neg hq]
    exact .refl sb st

theorem lacking_of_ge {disk : Disk} (hge : nDirect ≤ bn) :
    lacking disk ip bn = (if ptr disk ip (.addr (Fin.last nDirect)) = 0 then 1 else 0) +
      if ptr disk ip (dataPos bn) = 0 then 1 else 0 := by
  rw [lacking, Nat.add_comm]
  exact congrArg (· + _) (if_congr (and_iff_left hge) rfl rfl)

/-- `bmap` finds or makes the block if the calls of `balloc` that it takes succeed. -/
theorem bmap_ne_zero (h : Owned sb st i ip) (hr : bmap sb i ip st bn = .ok r)
    (hg : Granted sb st (lacking st.disk ip bn)) : r.1 ≠ 0 := by
  obtain ⟨-, hs⟩ | ⟨hge, r₁, hs₁, hrest⟩ := bmap_resolves hr
  · exact hs.ne_zero h (hg.mono (Nat.le_add_right _ _))
  · rw [lacking_of_ge hge] at hg
    have hne := hs₁.ne_zero h (hg.mono (Nat.le_add_right _ _))
    obtain ⟨h0, -⟩ | ⟨-, -, hs⟩ := hrest
    · exact absurd h0 hne
    · obtain ⟨howned, -, -, hsame⟩ := hs₁.maps h
      refine hs.ne_zero howned ?_
      rw [hsame _ (dataPos_ne_indirect bn)]
      exact (hs₁.takes h hne).granted_iff.mp hg

theorem bmap_takes (h : Owned sb st i ip) (hr : bmap sb i ip st bn = .ok r) (hne : r.1 ≠ 0) :
    Takes sb st r.2.2 (lacking st.disk ip bn) ∧ (nDirect ≤ bn → r.2.1.indirect ≠ 0) ∧
      (bn < nDirect → r.2.1.indirect = ip.indirect) := by
  obtain ⟨hlt, hs⟩ | ⟨hge, r₁, hs₁, ⟨h0, rfl⟩ | ⟨h0, hind, hs⟩⟩ := bmap_resolves hr
  · have hnot : ¬(ip.indirect = 0 ∧ nDirect ≤ bn) := fun h => absurd hlt (Nat.not_lt.mpr h.2)
    refine ⟨?_, fun hle => absurd hlt (by omega), fun _ => ?_⟩
    · rw [lacking, if_neg hnot]
      exact hs.takes h hne
    · exact (hs.maps h).2.2.2 (.addr (Fin.last nDirect)) (dataPos_ne_indirect bn).symm
  · exact absurd h0 hne
  · obtain ⟨howned, -, -, hsame⟩ := hs₁.maps h
    have hsecond := hs.takes howned hne
    rw [hsame _ (dataPos_ne_indirect bn)] at hsecond
    rw [lacking_of_ge hge]
    refine ⟨(hs₁.takes h h0).trans hsecond, fun _ => ?_, fun hlt => absurd hlt (by omega)⟩
    have hlast := (hs.maps howned).2.2.2 (.addr (Fin.last nDirect)) (dataPos_ne_indirect bn).symm
    rw [show r.2.1.indirect = r₁.2.1.indirect from hlast, hind]
    exact h0

/-- The blocks of a file from which `left` bytes from `off` on are taken. -/
def blocksAt (left off : ℕ) : List ℕ := List.range' (off / bSize) (spans left off)

def missing (disk : Disk) (ip : Dinode) (bns : List ℕ) : ℕ :=
  (bns.countP fun bn => ptr disk ip (dataPos bn) = 0) +
    if ip.indirect = 0 ∧ ∃ bn ∈ bns, nDirect ≤ bn then 1 else 0

theorem missing_congr {disk disk' : Disk}
    (h : ∀ bn, ptr disk' ip (dataPos bn) = ptr disk ip (dataPos bn)) (bns : List ℕ) :
    missing disk' ip bns = missing disk ip bns := by
  simp only [missing, h]

theorem lacking_le_missing (disk : Disk) (ip : Dinode) (bn : ℕ) (bns : List ℕ) :
    lacking disk ip bn ≤ missing disk ip (bn :: bns) := by
  rw [lacking, missing, List.countP_cons]
  refine Nat.add_le_add ?_ ?_
  · simp
  · split
    · rw [if_pos ⟨(‹_ ∧ _› : ip.indirect = 0 ∧ nDirect ≤ bn).1, bn, by simp, ‹_ ∧ _›.2⟩]
    · exact Nat.zero_le _

theorem missing_cons {disk disk' : Disk} {bn : ℕ} {bns : List ℕ}
    (hlater : ∀ bn' ∈ bns, bn < bn' ∧ ptr disk' ip' (dataPos bn') = ptr disk ip (dataPos bn'))
    (hind : nDirect ≤ bn → ip'.indirect ≠ 0) (hdirect : bn < nDirect → ip'.indirect = ip.indirect) :
    missing disk ip (bn :: bns) = lacking disk ip bn + missing disk' ip' bns := by
  have hcount : (bns.countP fun b => ptr disk ip (dataPos b) = 0) =
      bns.countP fun b => ptr disk' ip' (dataPos b) = 0 :=
    List.countP_congr fun b hb => by rw [(hlater b hb).2]
  rw [missing, missing, lacking, List.countP_cons, hcount]
  by_cases hle : nDirect ≤ bn
  · simp [hle, hind hle]
    omega
  · simp [hle, hdirect (by omega)]
    omega

theorem blocksAt_chunk {left off : ℕ} (h : 0 < left) :
    blocksAt left off = off / bSize ::
      blocksAt (left - chunk left off) (off + chunk left off) := by
  have hspans : spans left off = spans (left - chunk left off) (off + chunk left off) + 1 :=
    spans_chunk h
  rw [blocksAt, blocksAt, hspans, List.range'_succ]
  by_cases hle : left ≤ bSize - off % bSize
  · have hzero : left - chunk left off = 0 := by rw [chunk, min_eq_left hle, Nat.sub_self]
    rw [hzero]
    rfl
  · have hnext : (off + chunk left off) / bSize = off / bSize + 1 := by
      rw [chunk, min_eq_right (by omega)]
      simp only [bSize] at *
      omega
    rw [hnext]

theorem lt_of_mem_blocksAt {left off bn : ℕ} (h : 0 < left)
    (hbn : bn ∈ blocksAt (left - chunk left off) (off + chunk left off)) : off / bSize < bn := by
  have hsorted : (blocksAt left off).Pairwise (· < ·) := List.pairwise_lt_range'
  rw [blocksAt_chunk h] at hsorted
  exact (List.pairwise_cons.mp hsorted).1 bn hbn

/-! ### Writing -/

section Round

variable {n tot off a : ℕ} {ip₁ : Dinode} {st₁ : Store} {bns : List ℕ}

theorem Round.ne_zero (hr : Round sb i n tot off ip st a ip₁ st₁) (h : Owned sb st i ip)
    (hg : Granted sb st (missing st.disk ip (off / bSize :: bns))) : a ≠ 0 :=
  bmap_ne_zero h hr.found (hg.mono (lacking_le_missing ..))

/-- A round takes the calls of `balloc` for its own block, and leaves those for the later ones. -/
theorem Round.granted_iff (hr : Round sb i n tot off ip st a ip₁ st₁) (h : Owned sb st i ip)
    (ha : a ≠ 0) (blk : Block) (hlater : ∀ bn ∈ bns, off / bSize < bn) :
    Granted sb st (missing st.disk ip (off / bSize :: bns)) ↔
      Granted sb (st₁.put a blk) (missing (st₁.put a blk).disk ip₁ bns) := by
  obtain ⟨h₁, -, hres, honly⟩ := hr.spec h
  obtain ⟨htakes, hind, hdirect⟩ := bmap_takes h hr.found ha
  have hmem : a ∈ dataBlocks sb := hres ha ▸ h₁.ptr_mem (by rw [hres ha]; exact ha)
  rw [granted_put hmem, missing_congr (fun _ => h₁.ptr_put (hres ha) blk _),
    ← htakes.granted_iff, missing_cons (fun bn hbn => ?_) hind hdirect]
  exact ⟨hlater bn hbn, honly bn (hlater bn hbn).ne'⟩

end Round

theorem writeLoop_full (h : Owned sb st i ip) (src : ℕ → Option UInt8) {n : ℕ} (fuel tot off : ℕ)
    (hfuel : n - tot ≤ fuel) (hend : off + (n - tot) ≤ maxFile * bSize) (htot : tot ≤ n)
    (hsrc : ∀ t < n, (src t).isSome)
    (hg : Granted sb st (missing st.disk ip (blocksAt (n - tot) off))) :
    Ends (fun _ => False) (fun r => r.1 = n) (writeLoop sb i src n fuel tot off ip st) := by
  refine (writeLoop_rule sb i src (P := fun tot off ip st r => Owned sb st i ip → tot ≤ n →
    Granted sb st (missing st.disk ip (blocksAt (n - tot) off)) → r.1 = n)
    ?_ ?_ ?_ ?_ fuel tot off hfuel hend).mono fun r hr => hr h htot hg
  · intro tot off ip st hge _ hle _
    exact le_antisymm hle hge
  · intro tot off ip st ip₁ st₁ hr h _ hg
    have hlt := hr.lt
    rw [blocksAt_chunk (by omega)] at hg
    exact absurd rfl (hr.ne_zero h hg)
  · intro tot off ip st a ip₁ st₁ hr _ hfail
    rw [copied_of_source hsrc hr.lt] at hfail
    cases hfail
  · intro tot off ip st a ip₁ st₁ r hr ha _ ih h _ hg
    have hlt := hr.lt
    have hle := (chunk_bounds (n - tot) off).1
    obtain ⟨h₁, -, hres, -⟩ := hr.spec h
    refine ih (h₁.put (hres ha) ha _).1 (by omega) ?_
    rw [blocksAt_chunk (by omega)] at hg
    rw [Nat.sub_add_eq]
    exact (hr.granted_iff h ha _ fun bn hbn => lt_of_mem_blocksAt (by omega) hbn).mp hg

/-! ### Contents -/

def contents (disk : Disk) (d : Dinode) : List UInt8 :=
  (List.range d.size).map fun x => fileByte disk d x

@[simp] theorem length_contents (disk : Disk) (d : Dinode) :
    (contents disk d).length = d.size := by simp [contents]

theorem HoleFree.byte_mapped {disk : Disk} (h : HoleFree disk ip) {x : ℕ} (hx : x < ip.size) :
    Mapped disk ip x := h.mapped _ (lt_of_le_of_lt (Nat.div_mul_le_self _ _) hx)

theorem HoleFree.holds {disk : Disk} (h : HoleFree disk ip) :
    Holds disk ip (contents disk ip) where
  length_le := by
    rw [length_contents]
    exact h.size_le
  mapped bn hbn := h.mapped bn (by rwa [length_contents] at hbn)
  bytes k hk := by
    simp [contents, fileByte]

/-- `bs` in place of the part of `cs` from `off` on. -/
def splice (cs : List UInt8) (off : ℕ) (bs : List UInt8) : List UInt8 :=
  cs.take off ++ bs ++ cs.drop (off + bs.length)

variable {bs : List UInt8}

theorem contents_eq_splice {disk disk' : Disk} {off : ℕ} (hoff : off ≤ ip.size)
    (hsize : ip'.size = max ip.size (off + bs.length))
    (hbytes : ∀ t (ht : t < bs.length), fileByte disk' ip' (off + t) = bs[t])
    (hrest : ∀ x < ip.size, x < off ∨ off + bs.length ≤ x →
      fileByte disk' ip' x = fileByte disk ip x) :
    contents disk' ip' = splice (contents disk ip) off bs := by
  refine List.ext_getElem ?_ fun x hx hx' => ?_
  · simp only [length_contents, splice, List.length_append, List.length_take, List.length_drop,
      hsize]
    omega
  · rw [length_contents, hsize] at hx
    simp only [splice, contents, List.getElem_map, List.getElem_range, List.getElem_append,
      List.length_append, List.length_take, List.length_map, List.length_range, List.getElem_take,
      List.getElem_drop]
    split_ifs with h₁ h₂
    · exact hrest x (by omega) (by omega)
    · have hb := hbytes (x - off) (by omega)
      rw [show off + (x - off) = x by omega] at hb
      simp only [hb]
      congr 1
      omega
    · rw [hrest x (by omega) (by omega)]
      congr 1
      omega

structure SameFile (sb : Superblock) (disk disk' : Disk) (j : ℕ) : Prop where
  dinode_eq : dinode sb disk' j = dinode sb disk j
  mapped_iff : ∀ x, Mapped disk' (dinode sb disk j) x ↔ Mapped disk (dinode sb disk j) x
  bytes : ∀ x, Mapped disk (dinode sb disk j) x →
    fileByte disk' (dinode sb disk j) x = fileByte disk (dinode sb disk j) x

structure SameInode (sb : Superblock) (disk disk' : Disk) (j : ℕ) : Prop where
  dinode_eq : dinode sb disk' j = dinode sb disk j
  blocks : (dinode sb disk j).type ≠ 0 → ∀ q, ptr disk (dinode sb disk j) q ≠ 0 →
    disk' (ptr disk (dinode sb disk j) q) = disk (ptr disk (dinode sb disk j) q)

namespace SameInode

variable {disk disk' disk'' : Disk} {j : ℕ}

theorem refl (sb : Superblock) (disk : Disk) (j : ℕ) : SameInode sb disk disk j :=
  ⟨rfl, fun _ _ _ => rfl⟩

theorem ptr_eq (h : SameInode sb disk disk' j) (ht : (dinode sb disk j).type ≠ 0) (q : Pos) :
    ptr disk' (dinode sb disk j) q = ptr disk (dinode sb disk j) q :=
  ptr_congr rfl (fun hind => h.blocks ht (.addr (Fin.last nDirect)) hind) q

theorem sameFile (h : SameInode sb disk disk' j) (ht : (dinode sb disk j).type ≠ 0) :
    SameFile sb disk disk' j where
  dinode_eq := h.dinode_eq
  mapped_iff x := by rw [Mapped, Mapped, h.ptr_eq ht]
  bytes x hx := by rw [fileByte, fileByte, h.ptr_eq ht, h.blocks ht _ hx]

end SameInode

theorem Rewrites.sameInode (h : Owned sb st i ip) (hrw : Rewrites sb st ip st' ip') {d : Dinode}
    (hfits : d.Fits) {j : ℕ} (hj : j < sb.ninodes) (hji : j ≠ i) :
    SameInode sb st.disk (st'.iupdate sb i d).disk j where
  dinode_eq := by
    change dinode sb (putDinode sb st'.disk i d) j = _
    rw [dinode_putDinode _ i hfits, update_of_ne hji, hrw.ext.dinodes j hj]
  blocks ht q hq := by
    obtain ⟨hmem, hused, hne⟩ := h.other_block hj hji ht hq
    rw [← (hrw.others _ hmem hused hne).1]
    exact putDinode_of_le _ h.alloc.1 _ (le_trans sb.bmapstart_le_nmeta hmem.1)

theorem Owned.addrs_fit (h : Owned sb st i ip) {size : ℕ} (hsize : size ≤ maxFile * bSize) :
    Dinode.Fits { ip with size } where
  size_lt := lt_of_le_of_lt hsize (by decide)
  addrs_lt k := lt_trans (h.ptr_lt (.addr k)) sb.size_lt

theorem Owned.ptr_iupdate (h : Owned sb st i ip) (size : ℕ) (q : Pos) :
    ptr (st.iupdate sb i { ip with size }).disk { ip with size } q = ptr st.disk ip q :=
  ptr_congr rfl (fun hind => putDinode_of_le _ h.alloc.1 _ (le_trans sb.bmapstart_le_nmeta
    (h.ptr_mem (q := .addr (Fin.last nDirect)) hind).1)) q

theorem Owned.iupdate (h : Owned sb st i ip) {size : ℕ} (hfits : Dinode.Fits { ip with size }) :
    Owned sb (st.iupdate sb i { ip with size }) i { ip with size } := by
  have hput : dinode sb (st.iupdate sb i { ip with size }).disk =
      update (dinode sb st.disk) i { ip with size } := dinode_putDinode st.disk i hfits
  have hbits (b : ℕ) : bit sb (st.iupdate sb i { ip with size }).disk b = bit sb st.disk b :=
    bit_putDinode _ h.alloc.1 _ b
  refine ⟨h.exact.congr (fun b _ => hbits b) ?_, fun b hb => by rw [hbits]; exact h.meta_used b hb,
    h.alloc⟩
  rintro ⟨j, q⟩
  rw [hput, update_idem]
  by_cases hji : j = i
  · subst hji
    simp only [owns, update_self, h.ptr_iupdate]
  · simp only [owns, update_of_ne hji]
    by_cases hjt : j < sb.ninodes ∧ (dinode sb st.disk j).type ≠ 0
    · have hself : update (dinode sb st.disk) i ip j = dinode sb st.disk j :=
        update_of_ne hji _ _
      have hmem := ptr_mem_of_owned h.exact hjt.1 (by rw [hself]; exact hjt.2)
        (q := .addr (Fin.last nDirect))
      rw [hself] at hmem
      rw [if_pos hjt, if_pos hjt]
      generalize dinode sb st.disk j = d at hmem ⊢
      exact congrArg toBlock (ptr_congr rfl (fun hind => putDinode_of_le st.disk h.alloc.1 _
        (le_trans sb.bmapstart_le_nmeta (hmem hind).1)) q)
    · rw [if_neg hjt, if_neg hjt]

/-- `writei` wrote the first `k` bytes of `bs` at `off`. -/
structure Wrote (sb : Superblock) (st : Store) (i : ℕ) (ip : Dinode) (off : ℕ)
    (bs : List UInt8) (k : ℕ) (ip' : Dinode) (st' : Store) : Prop where
  owned : Owned sb st' i ip'
  holeFree : HoleFree st'.disk ip'
  on_disk : dinode sb st'.disk i = ip'
  others : ∀ j < sb.ninodes, j ≠ i → SameInode sb st.disk st'.disk j
  fields : ip' = { ip with addrs := ip'.addrs, size := ip'.size }
  size : ip'.size = max ip.size (off + k)
  contents_eq : contents st'.disk ip' = splice (contents st.disk ip) off (bs.take k)

theorem LoopWrites.wrote {src : ℕ → Option UInt8} {off k off' : ℕ}
    (hl : LoopWrites sb i src bs.length st ip 0 off (k, off', ip', st')) (h : Owned sb st i ip)
    (hfree : HoleFree st.disk ip) (hoff : off ≤ ip.size) (hend : off + bs.length ≤ maxFile * bSize)
    (hsrc : ∀ t < bs.length, src t = bs[t]?) :
    Wrote sb st i ip off bs k { ip' with size := max ip'.size off' }
      (st'.iupdate sb i { ip' with size := max ip'.size off' }) := by
  have hle := hfree.size_le
  have hcov : Covered st ip off := fun bn hbn => hfree.mapped bn (by omega)
  obtain ⟨h', hrw, -, hcov', hoff', -, hnew, hw, hkept⟩ := hl
  dsimp only at h' hrw hcov' hoff' hnew hw hkept
  have hk := hw.le_left
  have hsize : max ip'.size off' = max ip.size (off + k) := by
    rw [hrw.ext.size_eq, hoff', Nat.sub_zero]
  have hfits : Dinode.Fits { ip' with size := max ip'.size off' } := h'.addrs_fit (by omega)
  have hlen : (bs.take k).length = k := List.length_take_of_le (by omega)
  refine ⟨h'.iupdate hfits, ⟨by dsimp only; omega, fun bn hbn => ?_⟩, ?_,
    fun j hj hji => hrw.sameInode h hfits hj hji, by rw [hrw.ext.fields], hsize,
    contents_eq_splice hoff (by rw [hlen]; exact hsize) (fun t ht => ?_) fun x hx hout => ?_⟩
  · rw [h'.ptr_iupdate]
    rcases lt_max_iff.mp hbn with hlt | hlt
    · rw [hrw.ext.size_eq] at hlt
      exact hrw.ext.mapped (hfree.mapped bn hlt)
    · exact hcov' hcov bn hlt
  · change dinode sb (putDinode sb st'.disk i _) i = _
    rw [dinode_putDinode _ i hfits, update_self]
  · rw [hlen] at ht
    have hb := hw.bytes t (by omega)
    rw [Nat.zero_add, hsrc t (by omega), List.getElem?_eq_getElem (by omega)] at hb
    rw [fileByte_iupdate h' _ (hnew _ (by omega) (by omega)), List.getElem_take]
    exact Option.some.inj hb
  · have hm := hfree.byte_mapped hx
    rw [fileByte_iupdate h' _ (hw.mapped x hm)]
    rcases hout with hlt | hge
    · exact hw.frame x hm (.inl hlt)
    · exact hkept (fun t ht => by rw [hsrc t ht]; simp [ht]) x hm (by omega)

theorem writei_array (h : Owned sb st i ip) (hfree : HoleFree st.disk ip) {src : ℕ → Option UInt8}
    {off : ℕ} (hoff : off ≤ ip.size) (hmax : off + bs.length ≤ maxFile * bSize)
    (hdeny : ∀ k, st.deny k = false)
    (hroom : missing st.disk ip (blocksAt bs.length off) ≤ numFree sb st.disk)
    (hsrc : ∀ t < bs.length, src t = bs[t]?) :
    ∃ ip' st', writeiBlocks sb i ip st src off bs.length = .ok (bs.length, ip', st') ∧
      Wrote sb st i ip off bs bs.length ip' st' := by
  have hbound : maxFile * bSize = 274432 := by decide
  have hloop := (writeLoop_full h src (n := bs.length) bs.length 0 off (by omega) (by omega)
    (Nat.zero_le _) (fun t ht => by rw [hsrc t ht]; simp [ht]) ⟨fun _ _ => hdeny _, hroom⟩).and
    (writeLoop_writes h src bs.length 0 off (by omega) (by omega))
  obtain ⟨⟨tot, off', ip', st'⟩, hr, htot, hl⟩ := hloop.exists_ok
  dsimp only at htot
  subst htot
  refine ⟨_, _, ?_, hl.wrote h hfree hoff hmax hsrc⟩
  have hmod : (off + bs.length) % 2 ^ 32 = off + bs.length := Nat.mod_eq_of_lt (by omega)
  rw [writeiBlocks, if_neg (by omega), if_neg (by omega), hr]
  rfl

theorem readi_array (h : HoleFree st.disk ip) (i : ℕ) {off n : ℕ} (hoff : off < 2 ^ 32)
    (hn : n < 2 ^ 32)
    (hbs : bs = if ip.size < off ∨ 2 ^ 32 ≤ off + n then []
      else ((contents st.disk ip).drop off).take n) :
    readiBlocks sb i ip st (fun _ => true) off n = .ok ((bs.length, bs), ip, st) := by
  have hwrap : (off + n) % 2 ^ 32 < off ↔ 2 ^ 32 ≤ off + n := by omega
  have hlen : (contents st.disk ip).length = ip.size := length_contents _ _
  have hbytes : bs = fileBytes st.disk ip off (readCount ip off n) := by
    rw [hbs, readCount]
    simp only [hwrap]
    split_ifs with hout hend
    · rfl
    · rw [h.holds.fileBytes (by omega), List.take_of_length_le (by rw [List.length_drop]; omega),
        List.take_of_length_le (by rw [List.length_drop]; omega)]
    · exact (h.holds.fileBytes (by omega)).symm
  rw [h.readi_eq i _ rfl, copyout_true, if_neg (lt_irrefl _), hbytes, length_fileBytes]

/-- `readi` and `writei` treat a file whose blocks cover its size as an array of bytes. -/
theorem file_is_array (h : Owned sb st i ip) (hfree : HoleFree st.disk ip) :
    (∀ (src : ℕ → Option UInt8) (bs : List UInt8) (off : ℕ), off ≤ ip.size →
      off + bs.length ≤ maxFile * bSize → (∀ k, st.deny k = false) →
      missing st.disk ip (blocksAt bs.length off) ≤ numFree sb st.disk →
      (∀ t < bs.length, src t = bs[t]?) →
      ∃ ip' st', writeiBlocks sb i ip st src off bs.length = .ok (bs.length, ip', st') ∧
        dinode sb st'.disk i = ip' ∧ ip'.size = max ip.size (off + bs.length) ∧
        contents st'.disk ip' = splice (contents st.disk ip) off bs ∧ HoleFree st'.disk ip' ∧
        ∀ j < sb.ninodes, j ≠ i → (dinode sb st.disk j).type ≠ 0 →
          SameFile sb st.disk st'.disk j) ∧
    ∀ off < 2 ^ 32, ∀ n < 2 ^ 32, ∀ bs : List UInt8,
      (bs = if ip.size < off ∨ 2 ^ 32 ≤ off + n then []
        else ((contents st.disk ip).drop off).take n) →
      readiBlocks sb i ip st (fun _ => true) off n = .ok ((bs.length, bs), ip, st) :=
  ⟨fun src bs off hoff hmax hdeny hroom hsrc => by
    obtain ⟨ip', st', hrun, hw⟩ := writei_array h hfree hoff hmax hdeny hroom hsrc
    have hcontents := hw.contents_eq
    rw [List.take_length] at hcontents
    exact ⟨ip', st', hrun, hw.on_disk, hw.size, hcontents, hw.holeFree,
      fun j hj hji ht => (hw.others j hj hji).sameFile ht⟩,
    fun _ hoff _ hn _ hbs => readi_array hfree i hoff hn hbs⟩

theorem file_is_array_fourBytes :
    ∃ ip' st', writeiBlocks smallSuperblock 2 fourBytes fourBytesStore (fun _ => some 7) 3 2 =
        .ok (2, ip', st') ∧
      contents st'.disk ip' = splice (contents fourBytesStore.disk fourBytes) 3 [7, 7] := by
  obtain ⟨ip', st', hrun, -, -, hcontents, -⟩ :=
    (file_is_array fourBytes_owned fourBytes_holeFree).1 (fun _ => some 7) [7, 7] 3 (by decide)
      (by decide) (fun _ => rfl) (by decide +kernel) (by decide)
  exact ⟨ip', st', hrun, hcontents⟩

end Xv6.Fs
