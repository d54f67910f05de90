import Xv6.FileContents
import Xv6.Mkfs

/-!
# Appending to the files of a new file system

The blocks below `freeblock` are exactly the blocks before the data area and those of the
files, each with one owner, and the blocks from `freeblock` on are zero. Every round of
`iappend` keeps this and appends its bytes to one file.
-/

namespace Xv6.Mkfs
open Function

open LittleEndianBlocks Fs ExactOwnership OperationPrograms

def area : Superblock :=
  { sb with ninodes := ninodeblocks * ipb, inodes_fit := by decide, root_lt := by decide }

/-- The blocks in use are those below `freeblock`. The inodes count as `ino` has them. -/
structure Pool (s : State) (ino : ℕ → Dinode) : Prop where
  length_eq : s.length = fsSize
  nmeta_le : nmeta ≤ s.freeblock
  le_fsSize : s.freeblock ≤ fsSize
  owned : Exact (dataBlocks area) (fun b => decide (b < s.freeblock)) (owns area s.image ino)
  fresh : ∀ b, s.freeblock ≤ b → b < fsSize → s.image b = fun _ => 0

variable {s s' : State} {ino : ℕ → Dinode} {i : ℕ}

theorem sector_eq {x : ℕ} (hx : x ≤ fsSize) : sector x = x := by
  unfold sector bSize
  unfold fsSize at hx
  omega

theorem rsect_of_lt {x : ℕ} (hs : s.length = fsSize) (hx : x < fsSize) :
    rsect s x = .ok (s.image x) := by
  rw [rsect, sector_eq hx.le, if_pos (hs ▸ hx)]

theorem rsect_of_full (hs : s.length = fsSize) : rsect s fsSize = .error .die := by
  rw [rsect, sector_eq le_rfl, if_neg (by omega)]

theorem wsect_of_lt {x : ℕ} (hs : s.length = fsSize) (hx : x < fsSize) (blk : Block) :
    wsect s x blk = { s with image := update s.image x blk } := by
  rw [wsect, sector_eq hx.le, max_eq_left (by omega)]

theorem mem_dataBlocks {b : ℕ} : b ∈ dataBlocks area ↔ nmeta ≤ b ∧ b < fsSize := Iff.rfl

theorem Pool.ptr_lt (h : Pool s ino) (hi : i < area.ninodes) (ht : (ino i).type ≠ 0) {q : Pos}
    (hq : ptr s.image (ino i) q ≠ 0) :
    nmeta ≤ ptr s.image (ino i) q ∧ ptr s.image (ino i) q < s.freeblock := by
  have hmem := ptr_mem_of_owned h.owned hi ht hq
  have hused := (h.owned.used_iff hmem).mpr ⟨(i, q), owns_eq_some.mpr ⟨⟨hi, ht⟩, rfl, hq⟩⟩
  exact ⟨(mem_dataBlocks.mp hmem).1, of_decide_eq_true hused⟩

theorem Pool.ptr_lt_fsSize (h : Pool s ino) (hi : i < area.ninodes) (ht : (ino i).type ≠ 0)
    {q : Pos} (hq : ptr s.image (ino i) q ≠ 0) : ptr s.image (ino i) q < fsSize :=
  (h.ptr_lt hi ht hq).2.trans_le h.le_fsSize

theorem Pool.grow (h : Pool s ino) (hi : i < area.ninodes) (ht : (ino i).type ≠ 0) {pos : Pos}
    {ip' : Dinode} (hzero : ptr s.image (ino i) pos = 0) (hroom : s.freeblock < fsSize)
    (hlength : s'.length = s.length) (hfree : s'.freeblock = s.freeblock + 1)
    (hptr : ∀ q, ptr s'.image ip' q = update (ptr s.image (ino i)) pos s.freeblock q)
    (htype : ip'.type = (ino i).type)
    (hframe : ∀ x, nmeta ≤ x → x ≠ (ino i).indirect → s'.image x = s.image x) :
    Pool s' (update ino i ip') where
  length_eq := hlength.trans h.length_eq
  nmeta_le := by
    have := h.nmeta_le
    omega
  le_fsSize := by omega
  owned := by
    refine (owned_grow h.owned hi ht hzero (mem_dataBlocks.mpr ⟨h.nmeta_le, hroom⟩) (by simp) hptr
      htype fun x hx _ hne => hframe x hx hne).congr (fun b _ => ?_) fun _ => rfl
    rw [update_apply]
    split
    · subst_vars
      simp [hfree]
    · simp only [hfree, decide_eq_decide]
      omega
  fresh b hb hlt := by
    have hmeta := h.nmeta_le
    rw [hframe b (by omega), h.fresh b (by omega) hlt]
    intro heq
    have hne : (ino i).indirect ≠ 0 := by
      have : 0 < nmeta := by decide
      omega
    have hlt' := (h.ptr_lt hi ht (q := .addr (Fin.last nDirect)) hne).2
    simp only [ptr, Dinode.indirect] at *
    omega

variable {bn : ℕ}

theorem Pool.write (h : Pool s ino) (hi : i < area.ninodes) (ht : (ino i).type ≠ 0)
    (hbn : ptr s.image (ino i) (dataPos bn) ≠ 0) (blk : Block) :
    Pool (wsect s (ptr s.image (ino i) (dataPos bn)) blk) ino := by
  rw [wsect_of_lt h.length_eq (h.ptr_lt_fsSize hi ht hbn)]
  refine ⟨h.length_eq, h.nmeta_le, h.le_fsSize,
    h.owned.congr (fun _ _ => rfl) fun ⟨j, q⟩ => ?_, fun b hb hlt => ?_⟩
  · by_cases hjt : j < area.ninodes ∧ (ino j).type ≠ 0
    · simp only [owns, if_pos hjt]
      rw [ptr_write h.owned hi ht bn blk hjt.1 hjt.2]
    · simp only [owns, if_neg hjt]
  · have hlt' := (h.ptr_lt hi ht hbn).2
    exact (update_of_ne (by dsimp only at hb; omega) _ _).trans (h.fresh b hb hlt)

theorem Pool.congr (h : Pool s ino) {ino' : ℕ → Dinode} (hlength : s'.length = s.length)
    (hfree : s'.freeblock = s.freeblock) (himage : ∀ x, nmeta ≤ x → s'.image x = s.image x)
    (hown : ∀ j < area.ninodes, ∀ q,
      owns area s'.image ino' (j, q) = owns area s.image ino (j, q)) : Pool s' ino' where
  length_eq := hlength.trans h.length_eq
  nmeta_le := hfree ▸ h.nmeta_le
  le_fsSize := hfree ▸ h.le_fsSize
  owned := by
    refine h.owned.congr (fun b _ => by rw [hfree]) fun ⟨j, q⟩ => ?_
    by_cases hj : j < area.ninodes
    · exact hown j hj q
    · simp [owns, hj]
  fresh b hb hlt := by
    have hmeta := h.nmeta_le
    rw [himage b (by omega)]
    exact h.fresh b (by omega) hlt

theorem Pool.owns_eq (h : Pool s ino) {ino' : ℕ → Dinode} {image : Disk}
    (himage : ∀ x, nmeta ≤ x → image x = s.image x) (hi : i < area.ninodes)
    (htype : (ino' i).type = (ino i).type) (haddrs : (ino' i).addrs = (ino i).addrs) (q : Pos) :
    owns area image ino' (i, q) = owns area s.image ino (i, q) := by
  by_cases ht : (ino i).type ≠ 0
  · simp only [owns, hi, htype, ht, true_and, ne_eq, not_false_eq_true, if_true]
    rw [ptr_congr haddrs]
    intro hind
    exact himage _ (h.ptr_lt hi ht (q := .addr (Fin.last nDirect)) hind).1
  · simp [owns, htype, not_not.mp ht]

structure Reserved (s : State) (ino : ℕ → Dinode) (i bn : ℕ) (r : ℕ × Dinode × State) :
    Prop where
  pool : Pool r.2.2 (update ino i r.2.1)
  addrs : ∃ a, r.2.1 = { ino i with addrs := a }
  kept : ∀ x < s.freeblock, x = 0 ∨ x ≠ (ino i).indirect → r.2.2.image x = s.image x
  ptr_eq : ∀ bn', ptr r.2.2.image r.2.1 (dataPos bn') =
    update (fun bn' => ptr s.image (ino i) (dataPos bn')) bn r.1 bn'
  ne_zero : r.1 ≠ 0
  same : ptr s.image (ino i) (dataPos bn) ≠ 0 → r.1 = ptr s.image (ino i) (dataPos bn)
  indirect_iff : r.2.1.indirect ≠ 0 ↔ (ino i).indirect ≠ 0 ∨ nDirect ≤ bn
  freeinode : r.2.2.freeinode = s.freeinode
  freeblock : r.2.2.freeblock = s.freeblock +
    (if ptr s.image (ino i) (dataPos bn) = 0 then 1 else 0) +
    (if nDirect ≤ bn ∧ (ino i).indirect = 0 then 1 else 0)

theorem addrFor_spec (h : Pool s ino) (hi : i < area.ninodes) (ht : (ino i).type ≠ 0)
    (k : Fin (nDirect + 1)) (hroom : (ino i).addrs k = 0 → s.freeblock < fsSize) :
    let r := addrFor s (ino i) k
    Pool r.2 (update ino i r.1) ∧ (∃ a, r.1 = { ino i with addrs := a }) ∧
      r.1.addrs k ≠ 0 ∧
      r.1.addrs k = (if (ino i).addrs k = 0 then s.freeblock else (ino i).addrs k) ∧
      (∀ q, ptr s.image r.1 q =
        update (ptr s.image (ino i)) (.addr k) (r.1.addrs k) q) ∧
      r.2.image = s.image ∧ r.2.freeinode = s.freeinode ∧
      r.2.freeblock = s.freeblock + if (ino i).addrs k = 0 then 1 else 0 := by
  by_cases h0 : (ino i).addrs k = 0
  · have hr := hroom h0
    have hpos : s.freeblock ≠ 0 := by
      have hmeta := h.nmeta_le
      have : 0 < nmeta := by decide
      omega
    have hptr (q : Pos) : ptr s.image
        { ino i with addrs := update (ino i).addrs k s.freeblock } q =
        update (ptr s.image (ino i)) (.addr k) s.freeblock q := by
      cases q with
      | addr k' =>
        by_cases hk : k' = k
        · subst hk
          simp [ptr]
        · simp [ptr, hk]
      | entry j =>
        rw [update_of_ne (by simp)]
        by_cases hk : Fin.last nDirect = k
        · -- a new indirect block is all zero, as was the missing one
          subst hk
          have hz : getWord (s.image s.freeblock) (4 * j) = 0 := by
            rw [h.fresh _ le_rfl hr]
            exact getField_zero _ _
          simp only [ptr, Dinode.indirect, update_self, entryAt, hz, h0, true_or, if_true,
            ite_self]
        · simp only [ptr, Dinode.indirect, update_of_ne hk]
    simp only [addrFor, if_pos h0, takeBlock, update_self]
    refine ⟨?_, ⟨_, rfl⟩, hpos, trivial, hptr, trivial, trivial, trivial⟩
    have hnone : ptr s.image (ino i) (.addr k) = 0 := h0
    exact h.grow hi ht hnone hr rfl rfl hptr rfl fun _ _ _ => rfl
  · simp only [addrFor, if_neg h0, update_eq_self, Nat.add_zero]
    refine ⟨h, ⟨_, rfl⟩, h0, trivial, fun q => ?_, trivial, trivial, trivial⟩
    rw [show (ino i).addrs k = ptr s.image (ino i) (.addr k) from rfl, update_eq_self]

theorem Pool.rsect_ptr (h : Pool s ino) (hi : i < area.ninodes) (ht : (ino i).type ≠ 0) {q : Pos}
    (hq : ptr s.image (ino i) q ≠ 0) :
    rsect s (ptr s.image (ino i) q) = .ok (s.image (ptr s.image (ino i) q)) :=
  rsect_of_lt h.length_eq (h.ptr_lt_fsSize hi ht hq)

theorem entryAt_eq {disk : Disk} {ind j : ℕ} (hind : ind ≠ 0) (hj : j < nIndirect) :
    entryAt disk ind j = getWord (disk ind) (4 * j) := if_neg (by omega)

theorem getWord_putWord_entry {j v : ℕ} (blk : Block) (hj : j < nIndirect) (hv : v ≤ fsSize) :
    getWord (putWord blk (4 * j) v) (4 * j) = v := by
  refine getWord_putWord_self blk ?_ ?_
  · simp only [nIndirect, bSize] at *
    omega
  · simp only [fsSize] at hv
    omega

/-- The state after `entryFor` took a block for an entry. -/
def entryTaken (s : State) (ind j : ℕ) : State :=
  { (takeBlock s).2 with image := update s.image ind (putWord (s.image ind) (4 * j) s.freeblock) }

theorem entryFor_of_zero (h : Pool s ino) (hi : i < area.ninodes) (ht : (ino i).type ≠ 0)
    (hind : (ino i).indirect ≠ 0) {j : ℕ} (hj : j < nIndirect)
    (h0 : ptr s.image (ino i) (.entry j) = 0) :
    entryFor s (ino i).indirect j = .ok (s.freeblock, entryTaken s (ino i).indirect j) := by
  have hread := h.rsect_ptr hi ht (q := .addr (Fin.last nDirect)) hind
  have hwrite (blk : Block) := wsect_of_lt (s := (takeBlock s).2) h.length_eq
    (h.ptr_lt_fsSize hi ht (q := .addr (Fin.last nDirect)) hind) blk
  rw [ptr, entryAt_eq hind hj] at h0
  have hv := getWord_putWord_entry (s.image (ino i).indirect) hj h.le_fsSize
  simp only [ptr, Dinode.indirect] at *
  simp only [takeBlock] at hwrite
  simp only [entryFor, hread, bind, Except.bind, h0, if_true, takeBlock, hv, entryTaken, hwrite]

theorem entryFor_spec (h : Pool s ino) (hi : i < area.ninodes) (ht : (ino i).type ≠ 0)
    (hind : (ino i).indirect ≠ 0) {j : ℕ} (hj : j < nIndirect)
    (hroom : ptr s.image (ino i) (.entry j) = 0 → s.freeblock < fsSize) :
    ∃ r, entryFor s (ino i).indirect j = .ok r ∧ Pool r.2 ino ∧ r.1 ≠ 0 ∧
      (ptr s.image (ino i) (.entry j) ≠ 0 → r.1 = ptr s.image (ino i) (.entry j)) ∧
      (∀ q, ptr r.2.image (ino i) q =
        update (ptr s.image (ino i)) (.entry j) r.1 q) ∧
      (∀ x ≠ (ino i).indirect, r.2.image x = s.image x) ∧ r.2.freeinode = s.freeinode ∧
      r.2.freeblock = s.freeblock + if ptr s.image (ino i) (.entry j) = 0 then 1 else 0 := by
  by_cases h0 : ptr s.image (ino i) (.entry j) = 0
  · refine ⟨_, entryFor_of_zero h hi ht hind hj h0, ?_⟩
    have hframe (x : ℕ) (hx : x ≠ (ino i).indirect) :
        (entryTaken s (ino i).indirect j).image x = s.image x :=
      update_of_ne hx _ _
    have hptr (q : Pos) : ptr (entryTaken s (ino i).indirect j).image (ino i) q =
        update (ptr s.image (ino i)) (.entry j) s.freeblock q := by
      cases q with
      | addr k => rw [update_of_ne (by simp), ptr, ptr]
      | entry j' =>
        by_cases hlt : j' < nIndirect
        · rw [ptr, entryAt_eq hind hlt]
          simp only [entryTaken, update_self]
          by_cases hjj : j' = j
          · subst hjj
            rw [getWord_putWord_entry _ hj h.le_fsSize, update_self]
          · rw [getWord_putWord_disjoint _ _ (by omega), update_of_ne (by simp [hjj]), ptr,
              entryAt_eq hind hlt]
        · rw [update_of_ne (by simp only [ne_eq, Pos.entry.injEq]; omega), ptr, ptr, entryAt,
            entryAt, if_pos (by omega), if_pos (by omega)]
    have hpool : Pool (entryTaken s (ino i).indirect j) (update ino i (ino i)) :=
      h.grow hi ht h0 (hroom h0) rfl rfl hptr rfl fun x _ hx => hframe x hx
    rw [update_eq_self] at hpool
    have hmeta := h.nmeta_le
    have hpos : 0 < nmeta := by decide
    exact ⟨hpool, by dsimp only; omega, fun hne => absurd h0 hne, hptr, hframe, rfl,
      by rw [if_pos h0]; rfl⟩
  · have hread := h.rsect_ptr hi ht (q := .addr (Fin.last nDirect)) hind
    have hentry : entryAt s.image (ino i).indirect j = _ := entryAt_eq hind hj
    refine ⟨(ptr s.image (ino i) (.entry j), s), ?_, h, h0, fun _ => rfl, fun q => ?_,
      fun _ _ => rfl, rfl, by rw [if_neg h0, Nat.add_zero]⟩
    · rw [ptr, hentry] at h0 ⊢
      simp only [ptr, Dinode.indirect] at *
      simp only [entryFor, hread, bind, Except.bind, h0, if_false]
    · rw [update_eq_self]

theorem dataPos_of_lt (h : bn < nDirect) : dataPos bn = .addr (Fin.ofNat (nDirect + 1) bn) :=
  if_pos h

theorem dataPos_of_le (h : nDirect ≤ bn) : dataPos bn = .entry (bn - nDirect) :=
  if_neg (by omega)

theorem update_dataPos (f : Pos → ℕ) (bn v bn' : ℕ) :
    update f (dataPos bn) v (dataPos bn') =
      update (fun bn' => f (dataPos bn')) bn v bn' := by
  by_cases h : bn' = bn
  · subst h
    simp
  · rw [update_of_ne fun heq => h (dataPos_injective heq), update_of_ne h]

/-- `iappend` finds or takes the block for the next byte, as long as there is room. -/
theorem blockFor_spec (h : Pool s ino) (hi : i < area.ninodes) (ht : (ino i).type ≠ 0)
    (hbn : bn < maxFile)
    (hroom : s.freeblock + (if ptr s.image (ino i) (dataPos bn) = 0 then 1 else 0) +
      (if nDirect ≤ bn ∧ (ino i).indirect = 0 then 1 else 0) ≤ fsSize) :
    ∃ r, blockFor s (ino i) bn = .ok r ∧ Reserved s ino i bn r := by
  by_cases hdir : bn < nDirect
  · have hpos := dataPos_of_lt hdir
    have hroom' : (ino i).addrs (Fin.ofNat (nDirect + 1) bn) = 0 → s.freeblock < fsSize := by
      intro h0
      rw [hpos, ptr, if_pos h0] at hroom
      omega
    obtain ⟨hpool, haddrs, hne, hsame, hptr, himage, hino, hfree⟩ :=
      addrFor_spec h hi ht (Fin.ofNat (nDirect + 1) bn) hroom'
    refine ⟨_, if_pos hdir, hpool, haddrs, fun _ _ _ => congrFun himage _, fun bn' => ?_, hne, ?_,
      ?_, hino, ?_⟩
    · rw [← update_dataPos, hpos]
      dsimp only
      rw [himage, hptr]
    · rw [hpos]
      exact fun h0 => hsame.trans (if_neg h0)
    · have hlast := hptr (.addr (Fin.last nDirect))
      rw [update_of_ne (hpos ▸ (dataPos_ne_indirect bn).symm)] at hlast
      simp only [ptr] at hlast
      simp only [Dinode.indirect, hlast]
      omega
    · rw [hpos, if_neg (c := _ ∧ _) (by omega)]
      exact hfree
  · have hpos := dataPos_of_le (not_lt.mp hdir)
    have hj : bn - nDirect < nIndirect := by
      simp only [maxFile] at hbn
      omega
    rw [if_congr (and_iff_right (not_lt.mp hdir)) rfl rfl] at hroom
    have hroom' : (ino i).indirect = 0 → s.freeblock < fsSize := by
      intro h0
      rw [if_pos h0] at hroom
      omega
    obtain ⟨hpool, haddrs, hne, hsame, hptr, himage, hino, hfree⟩ :=
      addrFor_spec h hi ht (Fin.last nDirect) hroom'
    generalize hr : addrFor s (ino i) (Fin.last nDirect) = r at *
    replace hsame : r.1.indirect = if (ino i).indirect = 0 then s.freeblock else (ino i).indirect :=
      hsame
    replace hfree : r.2.freeblock = s.freeblock + if (ino i).indirect = 0 then 1 else 0 := hfree
    have hself : update ino i r.1 i = r.1 := update_self ..
    have htype : r.1.type = (ino i).type := by
      obtain ⟨a, ha⟩ := haddrs
      rw [ha]
    have hentry : ptr r.2.image r.1 (.entry (bn - nDirect)) = ptr s.image (ino i) (dataPos bn) := by
      rw [himage, hptr, update_of_ne (by simp), hpos]
    have hspec := entryFor_spec hpool hi (by rw [hself, htype]; exact ht)
      (by rw [hself]; exact hne) hj
    rw [hself, hentry] at hspec
    obtain ⟨q, hq, hpool', hne', hsame', hptr', hframe, hino', hfree'⟩ := hspec (by
      intro h0
      rw [if_pos h0] at hroom
      omega)
    refine ⟨(q.1, r.1, q.2), ?_, hpool', haddrs, ?_, ?_, hne', hsame', ?_, hino'.trans hino, ?_⟩
    · simp only [blockFor, if_neg hdir, hr, hq, bind, Except.bind]
    · intro x hx hxind
      have hmeta := h.nmeta_le
      have hpos : 0 < nmeta := by decide
      rw [← himage]
      refine hframe x fun heq => ?_
      rw [hsame] at heq
      split at heq <;> omega
    · intro bn'
      rw [hptr', himage, ← update_dataPos, hpos]
      by_cases hbb : dataPos bn' = .entry (bn - nDirect)
      · rw [hbb, update_self, update_self]
      · rw [update_of_ne hbb, update_of_ne hbb, hptr,
          update_of_ne (dataPos_ne_indirect bn')]
    · exact iff_of_true hne (.inr (not_lt.mp hdir))
    · rw [hfree', hfree, if_congr (and_iff_right (not_lt.mp hdir)) rfl rfl]
      omega

theorem blockFor_full (h : Pool s ino) (hi : i < area.ninodes) (ht : (ino i).type ≠ 0)
    (hbn : bn < maxFile)
    (hfull : fsSize < s.freeblock + (if ptr s.image (ino i) (dataPos bn) = 0 then 1 else 0) +
      (if nDirect ≤ bn ∧ (ino i).indirect = 0 then 1 else 0)) :
    Ends (fun _ => True) (fun r => r.2.2.length = fsSize ∧ r.1 = fsSize)
      (blockFor s (ino i) bn) := by
  have hle := h.le_fsSize
  have hlen := h.length_eq
  by_cases hdir : bn < nDirect
  · rw [dataPos_of_lt hdir, if_neg (c := _ ∧ _) (by omega), ptr] at hfull
    have h0 : (ino i).addrs (Fin.ofNat (nDirect + 1) bn) = 0 := by
      by_contra h0
      rw [if_neg h0] at hfull
      omega
    rw [if_pos h0] at hfull
    rw [blockFor, if_pos hdir]
    simp only [addrFor, if_pos h0, takeBlock, ends_ok, update_self]
    omega
  · have hpos := dataPos_of_le (not_lt.mp hdir)
    have hj : bn - nDirect < nIndirect := by
      simp only [maxFile] at hbn
      omega
    rw [if_congr (and_iff_right (not_lt.mp hdir)) rfl rfl] at hfull
    rw [blockFor, if_neg hdir]
    refine Ends.bind ?_
    by_cases hroom : (ino i).indirect = 0 → s.freeblock < fsSize
    · obtain ⟨hpool, haddrs, hne, -, hptr, himage, -, hfree⟩ :=
        addrFor_spec h hi ht (Fin.last nDirect) hroom
      generalize hr : addrFor s (ino i) (Fin.last nDirect) = r at *
      replace hfree : r.2.freeblock = s.freeblock + if (ino i).indirect = 0 then 1 else 0 := hfree
      have hself : update ino i r.1 i = r.1 := update_self ..
      have htype : r.1.type ≠ 0 := by
        obtain ⟨a, ha⟩ := haddrs
        rw [ha]
        exact ht
      have hle' := hpool.le_fsSize
      have hentry : ptr s.image (ino i) (dataPos bn) = 0 := by
        by_contra h0
        rw [if_neg h0] at hfull
        omega
      have h0 : ptr r.2.image r.1 (.entry (bn - nDirect)) = 0 := by
        rw [himage, hptr, update_of_ne (by simp), ← hpos, hentry]
      rw [if_pos hentry] at hfull
      have htake := entryFor_of_zero hpool hi (by rwa [hself]) (by rw [hself]; exact hne) hj
        (by rwa [hself])
      rw [hself] at htake
      rw [htake]
      exact ⟨hpool.length_eq, by dsimp only; omega⟩
    · simp only [Classical.not_imp, not_lt] at hroom
      have hdie : rsect (takeBlock s).2 s.freeblock = .error .die := by
        rw [show s.freeblock = fsSize by omega]
        exact rsect_of_full hlen
      have h0 : (ino i).addrs (Fin.last nDirect) = 0 := hroom.1
      simp only [entryFor, addrFor, if_pos h0, Dinode.indirect, update_self]
      rw [show (takeBlock s).1 = s.freeblock from rfl, hdie]
      exact trivial

/-- The file holds the bytes `cs` and has exactly the blocks it needs for them. -/
structure IsFile (disk : Disk) (d : Dinode) (cs : List UInt8) : Prop where
  length_le : cs.length ≤ maxFile * bSize
  data_iff : ∀ bn, ptr disk d (dataPos bn) ≠ 0 ↔ bn * bSize < cs.length
  indirect_iff : d.indirect ≠ 0 ↔ nDirect * bSize < cs.length
  bytes : ∀ k (h : k < cs.length),
    getByte (disk (ptr disk d (dataPos (k / bSize)))) (k % bSize) = cs[k]

variable {disk disk' : Disk} {d d' : Dinode} {c p : List UInt8}

theorem IsFile.holds (h : IsFile disk d c) : Holds disk d c :=
  ⟨h.length_le, fun bn => (h.data_iff bn).mpr, h.bytes⟩

theorem div_mul_lt {k n : ℕ} (h : k < n) : k / bSize * bSize < n :=
  lt_of_le_of_lt (Nat.div_mul_le_self _ _) h

theorem IsFile.frame (h : IsFile disk d c) (haddrs : d'.addrs = d.addrs)
    (hind : d.indirect ≠ 0 → disk' d.indirect = disk d.indirect)
    (hdata : ∀ bn, ptr disk d (dataPos bn) ≠ 0 →
      disk' (ptr disk d (dataPos bn)) = disk (ptr disk d (dataPos bn))) : IsFile disk' d' c where
  length_le := h.length_le
  data_iff bn := by
    rw [ptr_congr haddrs hind]
    exact h.data_iff bn
  indirect_iff := by
    rw [Dinode.indirect, haddrs]
    exact h.indirect_iff
  bytes k hk := by
    rw [ptr_congr haddrs hind, hdata _ ((h.data_iff _).mpr (div_mul_lt hk))]
    exact h.bytes k hk

theorem isFile_nil (disk : Disk) (h : ∀ k, d.addrs k = 0) : IsFile disk d [] where
  length_le := Nat.zero_le _
  data_iff bn := by
    have hptr : ptr disk d (dataPos bn) = 0 := by
      rw [dataPos]
      split
      · exact h _
      · simp [ptr, entryAt, Dinode.indirect, h]
    simp [hptr]
  indirect_iff := by simp [Dinode.indirect, h]
  bytes k hk := absurd hk (Nat.not_lt_zero k)

/-- The blocks of a file with `n` bytes, its indirect block included. -/
def blocksOf (n : ℕ) : ℕ := (n + bSize - 1) / bSize + if nDirect * bSize < n then 1 else 0

theorem blocksOf_mono {m n : ℕ} (h : m ≤ n) : blocksOf m ≤ blocksOf n := by
  rw [blocksOf, blocksOf]
  split_ifs <;> simp only [bSize, nDirect] at * <;> omega

theorem IsFile.blocksOf_add (h : IsFile disk d c) {n : ℕ} (hpos : 0 < n)
    (hn : n ≤ (c.length / bSize + 1) * bSize - c.length) :
    blocksOf (c.length + n) = blocksOf c.length +
      (if ptr disk d (dataPos (c.length / bSize)) = 0 then 1 else 0) +
      (if nDirect ≤ c.length / bSize ∧ d.indirect = 0 then 1 else 0) := by
  have hdata : ptr disk d (dataPos (c.length / bSize)) = 0 ↔
      ¬c.length / bSize * bSize < c.length := by
    rw [← h.data_iff, not_not]
  have hind : d.indirect = 0 ↔ ¬nDirect * bSize < c.length := by
    rw [← h.indirect_iff, not_not]
  rw [if_congr hdata rfl rfl, if_congr (and_congr_right fun _ => hind) rfl rfl]
  rw [blocksOf, blocksOf]
  clear hdata hind
  split_ifs <;> simp only [bSize, nDirect] at * <;> omega

structure Appended (s : State) (ino : ℕ → Dinode) (i : ℕ) (c p : List UInt8) (din : Dinode)
    (s' : State) : Prop where
  pool : Pool s' (update ino i din)
  addrs : ∃ a, din = { ino i with addrs := a }
  file : IsFile s'.image din (c ++ p)
  low : ∀ x < nmeta, s'.image x = s.image x
  others : ∀ j < area.ninodes, j ≠ i → (ino j).type ≠ 0 → ∀ c', IsFile s.image (ino j) c' →
    IsFile s'.image (ino j) c'
  freeinode : s'.freeinode = s.freeinode
  freeblock : s'.freeblock + blocksOf c.length = s.freeblock + blocksOf (c.length + p.length)

theorem Pool.kept (h : Pool s ino) (hi : i < area.ninodes) (ht : (ino i).type ≠ 0)
    {r : ℕ × Dinode × State} (hres : Reserved s ino i bn r) {j : ℕ} (hj : j < area.ninodes)
    (htj : (ino j).type ≠ 0) {q : Pos} (hq : ptr s.image (ino j) q ≠ 0)
    (hne : j ≠ i ∨ q ≠ .addr (Fin.last nDirect)) :
    r.2.2.image (ptr s.image (ino j) q) = s.image (ptr s.image (ino j) q) := by
  refine hres.kept _ (h.ptr_lt hj htj hq).2 (.inr fun heq => ?_)
  have hplace := ptr_inj_of_owned h.owned hj htj hi ht (r := .addr (Fin.last nDirect)) hq heq
  exact hne.elim (fun hji => hji hplace.1) fun hqi => hqi hplace.2

section Round

variable {r : ℕ × Dinode × State} {w : List UInt8} (h : Pool s ino) (hi : i < area.ninodes)
  (ht : (ino i).type ≠ 0) (hc : IsFile s.image (ino i) c)
  (hres : Reserved s ino i (c.length / bSize) r)

include hres in
theorem Reserved.block_eq :
    ptr r.2.2.image (update ino i r.2.1 i) (dataPos (c.length / bSize)) = r.1 := by
  rw [update_self, hres.ptr_eq, update_self]

include ht hres in
theorem Reserved.type_ne : (update ino i r.2.1 i).type ≠ 0 := by
  obtain ⟨a, ha⟩ := hres.addrs
  rw [update_self, ha]
  exact ht

include hi ht hres in
theorem Reserved.wsect_eq (blk : Block) :
    wsect r.2.2 r.1 blk = { r.2.2 with image := update r.2.2.image r.1 blk } := by
  have hlt := hres.pool.ptr_lt_fsSize hi (hres.type_ne ht) (q := dataPos (c.length / bSize))
  rw [hres.block_eq] at hlt
  exact wsect_of_lt hres.pool.length_eq (hlt hres.ne_zero) blk

include h hi ht hres in
theorem Reserved.others {j : ℕ} (hj : j < area.ninodes) (hji : j ≠ i) (htj : (ino j).type ≠ 0)
    {q : Pos} (hq : ptr s.image (ino j) q ≠ 0) (blk : Block) :
    (wsect r.2.2 r.1 blk).image (ptr s.image (ino j) q) = s.image (ptr s.image (ino j) q) := by
  have hkept := h.kept hi ht hres hj htj hq (.inl hji)
  have hptr : ptr r.2.2.image (ino j) q = ptr s.image (ino j) q :=
    ptr_congr rfl (fun hind => h.kept hi ht hres hj htj (q := .addr (Fin.last nDirect)) hind
      (.inl hji)) q
  have hne : ptr s.image (ino j) q ≠ r.1 := by
    intro heq
    have hother : update ino i r.2.1 j = ino j := update_of_ne hji ..
    refine hji (ptr_inj_of_owned hres.pool.owned (q := q) (r := dataPos (c.length / bSize)) hj
      (by rwa [hother]) hi (hres.type_ne ht) ?_ ?_).1
    · rw [hother, hptr]
      exact hq
    · rw [hother, hptr, hres.block_eq]
      exact heq
  rw [hres.wsect_eq hi ht]
  exact (update_of_ne hne _ _).trans hkept

include h hi ht hc hres in
theorem Reserved.file (hw : 0 < w.length)
    (hroom : w.length ≤ (c.length / bSize + 1) * bSize - c.length)
    (hbn : c.length / bSize < maxFile) :
    IsFile (wsect r.2.2 r.1 (putBytes (r.2.2.image r.1) (c.length - c.length / bSize * bSize)
      w)).image r.2.1 (c ++ w) := by
  have hself : update ino i r.2.1 i = r.2.1 := update_self ..
  have hptr (blk : Block) (q : Pos) :
      ptr (update r.2.2.image r.1 blk) r.2.1 q = ptr r.2.2.image r.2.1 q := by
    have hw := ptr_write hres.pool.owned hi (hres.type_ne ht)
      (c.length / bSize) blk hi (hres.type_ne ht) q
    rwa [hres.block_eq, hself] at hw
  have hend : (c.length / bSize + 1) * bSize ≤ maxFile * bSize := Nat.mul_le_mul_right _ hbn
  rw [hres.wsect_eq hi ht]
  refine ⟨?_, fun bn => ?_, ?_, fun k hk => ?_⟩
  · rw [List.length_append]
    omega
  · rw [hptr, hres.ptr_eq, List.length_append]
    by_cases hbb : bn = c.length / bSize
    · subst hbb
      rw [update_self]
      refine iff_of_true hres.ne_zero ?_
      have := Nat.div_mul_le_self c.length bSize
      omega
    · rw [update_of_ne hbb, hc.data_iff]
      simp only [bSize] at *
      omega
  · rw [hres.indirect_iff, hc.indirect_iff, List.length_append]
    simp only [bSize, nDirect] at *
    omega
  · rw [List.length_append] at hk
    have hpast (hlt : k < c.length) : r.2.2.image (ptr s.image (ino i) (dataPos (k / bSize))) =
        s.image (ptr s.image (ino i) (dataPos (k / bSize))) :=
      h.kept hi ht hres hi ht ((hc.data_iff _).mpr (div_mul_lt hlt)) (.inr (dataPos_ne_indirect _))
    have hoff : c.length - c.length / bSize * bSize = c.length % bSize := by
      simp only [bSize]
      omega
    rw [hptr, hres.ptr_eq, hoff]
    by_cases hkb : k / bSize = c.length / bSize
    · rw [hkb, update_self]
      simp only [update_self]
      by_cases hlt : k < c.length
      · have hm := (hc.data_iff _).mpr (div_mul_lt hlt)
        rw [getByte_putBytes_outside _ _ _ (by simp only [bSize] at *; omega),
          List.getElem_append_left hlt, ← hc.bytes k hlt, ← hpast hlt, hres.same (hkb ▸ hm), hkb]
      · have hmod : k % bSize = c.length % bSize + (k - c.length) := by
          simp only [bSize] at *
          omega
        rw [hmod, getByte_putBytes_inside _ _ _ (by simp only [bSize] at *; omega) (by omega),
          List.getElem_append_right (by omega)]
    · have hlt : k < c.length := by
        simp only [bSize] at *
        omega
      have hm := (hc.data_iff _).mpr (div_mul_lt hlt)
      rw [update_of_ne hkb, List.getElem_append_left hlt, ← hc.bytes k hlt, ← hpast hlt]
      refine congrArg (getByte · _) (update_of_ne (fun heq => hkb ?_) _ _)
      have hold := hres.ptr_eq (k / bSize)
      rw [update_of_ne hkb] at hold
      have hplace := ptr_inj_of_owned hres.pool.owned (q := dataPos (k / bSize))
        (r := dataPos (c.length / bSize)) hi (hres.type_ne ht) hi
        (hres.type_ne ht) (by rw [hself, hold]; exact hm)
        (by rw [hres.block_eq, hself, hold]; exact heq)
      exact dataPos_injective hplace.2

include h hi ht hc hres in
theorem Reserved.append (hw : 0 < w.length)
    (hroom : w.length ≤ (c.length / bSize + 1) * bSize - c.length)
    (hbn : c.length / bSize < maxFile) :
    Appended s ino i c w r.2.1 (wsect r.2.2 r.1 (putBytes (r.2.2.image r.1)
      (c.length - c.length / bSize * bSize) w)) where
  pool := by
    have hne : ptr r.2.2.image (update ino i r.2.1 i) (dataPos (c.length / bSize)) ≠ 0 := by
      rw [hres.block_eq]
      exact hres.ne_zero
    have hpool := hres.pool.write hi (hres.type_ne ht) hne (putBytes
      (r.2.2.image r.1) (c.length - c.length / bSize * bSize) w)
    rwa [hres.block_eq] at hpool
  addrs := hres.addrs
  file := hres.file h hi ht hc hw hroom hbn
  low x hx := by
    have hlow := hres.pool.ptr_lt hi (hres.type_ne ht) (q := dataPos (c.length / bSize))
    rw [hres.block_eq] at hlow
    have hmeta := h.nmeta_le
    rw [hres.wsect_eq hi ht]
    refine (update_of_ne (by have := (hlow hres.ne_zero).1; omega) _ _).trans
      (hres.kept x (by omega) ?_)
    by_cases h0 : (ino i).indirect = 0
    · omega
    · have hle := (h.ptr_lt hi ht (q := .addr (Fin.last nDirect)) h0).1
      simp only [ptr, Dinode.indirect] at *
      omega
  others j hj hji htj c' hc' :=
    hc'.frame rfl
      (fun hind => hres.others h hi ht hj hji htj (q := .addr (Fin.last nDirect)) hind _)
      fun _ hq => hres.others h hi ht hj hji htj hq _
  freeinode := hres.freeinode
  freeblock := by
    have hblocks := hc.blocksOf_add hw hroom
    have hfree := hres.freeblock
    simp only [wsect]
    omega

end Round

def Room (s : State) (a b : ℕ) : Prop :=
  a + b ≤ maxFile * bSize ∧ s.freeblock + blocksOf (a + b) ≤ fsSize + blocksOf a

theorem appendRound_spec (h : Pool s ino) (hi : i < area.ninodes) (ht : (ino i).type ≠ 0)
    (hc : IsFile s.image (ino i) c) (hp : 0 < p.length) :
    Ends (fun _ => ¬Room s c.length p.length)
      (fun r => 0 < r.1 ∧ r.1 ≤ p.length ∧ Appended s ino i c (p.take r.1) r.2.1 r.2.2)
      (appendRound s (ino i) c.length p) := by
  rw [appendRound]
  have hn : 0 < min p.length ((c.length / bSize + 1) * bSize - c.length) := by
    simp only [bSize]
    omega
  have hblocks := hc.blocksOf_add hn (Nat.min_le_right _ _)
  have hmono := blocksOf_mono (Nat.add_le_add_left (Nat.min_le_left p.length
    ((c.length / bSize + 1) * bSize - c.length)) c.length)
  generalize hn1 : min p.length ((c.length / bSize + 1) * bSize - c.length) = n1 at *
  by_cases hbn : c.length / bSize < maxFile
  · dsimp only
    rw [if_pos hbn]
    refine Ends.bind ?_
    by_cases hroom : s.freeblock + (if ptr s.image (ino i) (dataPos (c.length / bSize)) = 0 then 1
        else 0) + (if nDirect ≤ c.length / bSize ∧ (ino i).indirect = 0 then 1 else 0) ≤ fsSize
    · obtain ⟨r, hr, hres⟩ := blockFor_spec h hi ht hbn hroom
      have hread := hres.pool.rsect_ptr hi (hres.type_ne ht) (q := dataPos (c.length / bSize))
      rw [hres.block_eq] at hread
      have hlen : (p.take n1).length = n1 := by
        rw [List.length_take]
        omega
      rw [hr, ends_ok, hread hres.ne_zero]
      have happ := hres.append h hi ht hc (w := p.take n1) (by omega) (by omega) hbn
      exact ⟨hn, by dsimp only; omega, happ⟩
    · refine ((blockFor_full h hi ht hbn (not_le.mp hroom)).imp fun e _ => ?_).mono fun r hr => ?_
      · rintro ⟨-, hfit⟩
        omega
      · refine Ends.bind ?_
        rw [hr.2, rsect_of_full hr.1]
        rintro ⟨-, hfit⟩
        omega
  · dsimp only
    rw [if_neg hbn]
    rintro ⟨hle, -⟩
    have hmax : maxFile * bSize ≤ c.length := le_trans (Nat.mul_le_mul_right _ (not_lt.mp hbn))
      (Nat.div_mul_le_self _ _)
    omega

theorem Appended.refl (h : Pool s ino) (hc : IsFile s.image (ino i) c) :
    Appended s ino i c [] (ino i) s :=
  ⟨by rwa [update_eq_self], ⟨_, rfl⟩, by rwa [List.append_nil], fun _ _ => rfl,
    fun _ _ _ _ _ hc' => hc', rfl, rfl⟩

theorem Appended.trans {s'' : State} {w : List UInt8} (h : Appended s ino i c p d s')
    (h' : Appended s' (update ino i d) i (c ++ p) w d' s'') :
    Appended s ino i c (p ++ w) d' s'' where
  pool := by
    have hpool := h'.pool
    rwa [update_idem] at hpool
  addrs := by
    obtain ⟨a, ha⟩ := h.addrs
    obtain ⟨a', ha'⟩ := h'.addrs
    exact ⟨a', by rw [ha', update_self, ha]⟩
  file := by
    rw [← List.append_assoc]
    exact h'.file
  low x hx := (h'.low x hx).trans (h.low x hx)
  others j hj hji htj c' hc' := by
    have hother := h'.others j hj hji
    rw [update_of_ne hji] at hother
    exact hother htj c' (h.others j hj hji htj c' hc')
  freeinode := h'.freeinode.trans h.freeinode
  freeblock := by
    have hfree := h.freeblock
    have hfree' := h'.freeblock
    simp only [List.length_append, ← Nat.add_assoc] at *
    omega

theorem Appended.room (h : Appended s ino i c p d s') {n : ℕ}
    (hroom : Room s c.length (p.length + n)) : Room s' (c ++ p).length n := by
  obtain ⟨hle, hfit⟩ := hroom
  have hfree := h.freeblock
  rw [← Nat.add_assoc] at hle hfit
  rw [List.length_append]
  exact ⟨hle, by omega⟩

theorem appendLoop_spec (fuel : ℕ) (h : Pool s ino) (hi : i < area.ninodes)
    (ht : (ino i).type ≠ 0) (hc : IsFile s.image (ino i) c) (hfuel : p.length ≤ fuel) :
    Ends (fun _ => ¬Room s c.length p.length)
      (fun r => r.1 = c.length + p.length ∧ Appended s ino i c p r.2.1 r.2.2)
      (appendLoop fuel s (ino i) c.length p) := by
  induction fuel generalizing s ino c p with
  | zero =>
    obtain rfl : p = [] := List.length_eq_zero_iff.mp (by omega)
    exact ⟨rfl, .refl h hc⟩
  | succ fuel ih =>
    rw [appendLoop]
    split
    · rename_i hp
      refine Ends.bind ((appendRound_spec h hi ht hc hp).mono ?_)
      rintro ⟨n, din, s'⟩ ⟨hpos, hn, happ⟩
      dsimp only at hpos hn happ ⊢
      have hself : update ino i din i = din := update_self ..
      have htype : din.type = (ino i).type := by
        obtain ⟨a, ha⟩ := happ.addrs
        rw [ha]
      have hlen : (p.take n).length = n := by
        rw [List.length_take]
        omega
      have hrest := ih (p := p.drop n) (c := c ++ p.take n) happ.pool
        (by rw [hself, htype]; exact ht) (by rw [hself]; exact happ.file)
        (by rw [List.length_drop]; omega)
      rw [hself, List.length_append, hlen] at hrest
      refine (hrest.imp ?_).mono ?_
      · intro _ hno hroom
        have hleft := happ.room (n := (p.drop n).length)
          (by rwa [hlen, List.length_drop, Nat.add_sub_cancel' hn])
        rw [List.length_append, hlen] at hleft
        exact hno hleft
      · rintro r ⟨hoff, hrest⟩
        refine ⟨?_, ?_⟩
        · rw [hoff, List.length_drop]
          omega
        · have hall := happ.trans hrest
          rwa [List.take_append_drop] at hall
    · obtain rfl : p = [] := List.length_eq_zero_iff.mp (by omega)
      exact ⟨rfl, .refl h hc⟩

/-- The inodes with numbers from 1 to `freeinode` hold the files with these contents. -/
structure Laid (s : State) (content : ℕ → List UInt8) : Prop where
  pool : Pool s (dinode area s.image)
  root_le : rootIno ≤ s.freeinode
  freeinode_le : s.freeinode ≤ area.ninodes
  free : ∀ i < area.ninodes, i = 0 ∨ s.freeinode ≤ i → (dinode area s.image i).type = 0
  kind : ∀ i, 1 ≤ i → i < s.freeinode →
    (dinode area s.image i).type = if i = rootIno then tDir else tFile
  size : ∀ i, 1 ≤ i → i < s.freeinode → (dinode area s.image i).size = (content i).length
  file : ∀ i, 1 ≤ i → i < s.freeinode → IsFile s.image (dinode area s.image i) (content i)
  super : getWords (s.image 1) 0 sbWords.length = sbWords

variable {content : ℕ → List UInt8}

theorem iblock_lt_fsSize (hi : i < area.ninodes) : sb.iblock i < fsSize :=
  (area.iblock_lt hi).trans (by decide)

theorem rinode_eq (hs : s.length = fsSize) (hi : i < area.ninodes) :
    rinode s i = .ok (dinode area s.image i) := by
  rw [rinode, rsect_of_lt hs (iblock_lt_fsSize hi)]
  rfl

theorem winode_eq (hs : s.length = fsSize) (hi : i < area.ninodes) (d : Dinode) :
    winode s i d = .ok { s with image := putDinode area s.image i d } := by
  rw [winode, rsect_of_lt hs (iblock_lt_fsSize hi)]
  simp only [bind, Except.bind, wsect_of_lt hs (iblock_lt_fsSize hi)]
  rfl

theorem Laid.type_ne (h : Laid s content) (hpos : 1 ≤ i) (hi : i < s.freeinode) :
    (dinode area s.image i).type ≠ 0 := by
  rw [h.kind i hpos hi]
  split <;> decide

theorem putDinode_data (image : Disk) (hi : i < area.ninodes) (d : Dinode) {x : ℕ}
    (hx : nmeta ≤ x) :
    putDinode area image i d x = image x :=
  putDinode_of_le image hi d (le_trans area.bmapstart_le_nmeta hx)

theorem Pool.isFile_congr (h : Pool s ino) (hi : i < area.ninodes) (ht : (ino i).type ≠ 0)
    (hc : IsFile s.image (ino i) c) {image : Disk} (himage : ∀ x, nmeta ≤ x → image x = s.image x)
    (haddrs : d.addrs = (ino i).addrs) : IsFile image d c :=
  hc.frame haddrs (fun hind => himage _ (h.ptr_lt hi ht (q := .addr (Fin.last nDirect)) hind).1)
    fun _ hq => himage _ (h.ptr_lt hi ht hq).1

theorem Pool.fits (h : Pool s ino) (hi : i < area.ninodes) (ht : (ino i).type ≠ 0)
    (haddrs : d.addrs = (ino i).addrs) (hsize : d.size ≤ maxFile * bSize) : d.Fits where
  size_lt := lt_of_le_of_lt hsize (by decide)
  addrs_lt k := by
    rw [haddrs]
    by_cases h0 : (ino i).addrs k = 0
    · rw [h0]
      decide
    · have hlt := (h.ptr_lt hi ht (q := .addr k) h0).2
      have hle := h.le_fsSize
      simp only [ptr, fsSize] at *
      omega

theorem sb_block_lt (i : ℕ) : 1 < area.iblock i := by
  have h : 1 < area.inodestart := by decide
  exact lt_of_lt_of_le h (Nat.le_add_left _ _)

/-- `iappend` appends the bytes to the one file, or there is no room for them. -/
theorem iappend_spec (h : Laid s content) (hpos : 1 ≤ i) (hi : i < s.freeinode) (p : List UInt8) :
    Ends (fun _ => ¬Room s (content i).length p.length)
      (fun s' => Laid s' (update content i (content i ++ p)) ∧
        s'.freeinode = s.freeinode ∧ s'.freeblock + blocksOf (content i).length =
          s.freeblock + blocksOf ((content i).length + p.length)) (iappend s i p) := by
  have hlt : i < area.ninodes := lt_of_lt_of_le hi h.freeinode_le
  have ht := h.type_ne hpos hi
  rw [iappend, rinode_eq h.pool.length_eq hlt]
  refine Ends.bind ?_
  rw [ends_ok, h.size i hpos hi]
  refine Ends.bind ((appendLoop_spec _ h.pool hlt ht (h.file i hpos hi) le_rfl).mono ?_)
  rintro ⟨off, din, s'⟩ ⟨hoff, happ⟩
  dsimp only at hoff happ ⊢
  obtain ⟨a, ha⟩ := happ.addrs
  have hself : update (dinode area s.image) i din i = din := update_self ..
  have htype : din.type = (dinode area s.image i).type := by rw [ha]
  have htd : (update (dinode area s.image) i din i).type ≠ 0 := by rwa [hself, htype]
  have hlen : (content i).length + p.length = (content i ++ p).length := List.length_append.symm
  have hfits : ({ din with size := off } : Dinode).Fits :=
    happ.pool.fits hlt htd (by rw [hself]) (by rw [hoff, hlen]; exact happ.file.length_le)
  have hdinode : ∀ j < area.ninodes, dinode area (putDinode area s'.image i
      { din with size := off }) j =
      update (dinode area s.image) i { din with size := off } j := by
    intro j hj
    rw [dinode_putDinode _ i hfits]
    by_cases hji : j = i
    · rw [hji, update_self, update_self]
    · rw [update_of_ne hji, update_of_ne hji, dinode, dinode, happ.low]
      exact lt_of_lt_of_le (area.iblock_lt hj) area.bmapstart_le_nmeta
  have hdata (x : ℕ) (hx : nmeta ≤ x) :
      putDinode area s'.image i { din with size := off } x = s'.image x :=
    putDinode_data s'.image hlt _ hx
  rw [winode_eq happ.pool.length_eq hlt, ends_ok]
  refine ⟨⟨?_, ?_, ?_, ?_, ?_, ?_, ?_, ?_⟩, happ.freeinode, happ.freeblock⟩
  · refine happ.pool.congr rfl rfl hdata fun j hj q => ?_
    refine happ.pool.owns_eq hdata hj ?_ ?_ q <;> rw [hdinode j hj] <;>
      by_cases hji : j = i <;> simp [hji]
  · rw [happ.freeinode]
    exact h.root_le
  · rw [happ.freeinode]
    exact h.freeinode_le
  · intro j hj hfree
    rw [happ.freeinode] at hfree
    rw [hdinode j hj, update_of_ne (by omega)]
    exact h.free j hj hfree
  · intro j hj1 hj
    rw [happ.freeinode] at hj
    rw [hdinode j (lt_of_lt_of_le hj h.freeinode_le), ← h.kind j hj1 hj]
    by_cases hji : j = i
    · subst hji
      rw [update_self, ← htype]
    · rw [update_of_ne hji]
  · intro j hj1 hj
    rw [happ.freeinode] at hj
    rw [hdinode j (lt_of_lt_of_le hj h.freeinode_le)]
    by_cases hji : j = i
    · subst hji
      rw [update_self, update_self, ← hlen]
      exact hoff
    · rw [update_of_ne hji, update_of_ne hji]
      exact h.size j hj1 hj
  · intro j hj1 hj
    rw [happ.freeinode] at hj
    have hjn : j < area.ninodes := lt_of_lt_of_le hj h.freeinode_le
    rw [hdinode j hjn]
    by_cases hji : j = i
    · subst hji
      rw [update_self, update_self]
      exact happ.pool.isFile_congr hlt htd (by rw [hself]; exact happ.file) hdata (by rw [hself])
    · rw [update_of_ne hji, update_of_ne hji]
      have htj := h.type_ne hj1 hj
      have hother : update (dinode area s.image) i din j = dinode area s.image j :=
        update_of_ne hji ..
      refine happ.pool.isFile_congr hjn (by rwa [hother]) ?_ hdata (by rw [hother])
      rw [hother]
      exact happ.others j hjn hji htj _ (h.file j hj1 hj)
  · have hne := sb_block_lt i
    dsimp only
    rw [putDinode, update_of_ne (by omega), happ.low 1 (by decide)]
    exact h.super

theorem ialloc_spec (h : Laid s content) (hroom : s.freeinode < area.ninodes)
    (hempty : content s.freeinode = []) {type : Int16}
    (htype : type = if s.freeinode = rootIno then tDir else tFile) :
    Ends (fun _ => False) (fun r => r.1 = s.freeinode ∧ Laid r.2 content ∧
      r.2.freeinode = s.freeinode + 1 ∧ r.2.freeblock = s.freeblock) (ialloc s type) := by
  have hne : type ≠ 0 := by
    rw [htype]
    split <;> decide
  generalize hd : ({ Dinode.zero with type, nlink := 1, size := 0 } : Dinode) = d
  have haddrs : ∀ k, d.addrs k = 0 := by
    subst hd
    exact fun _ => rfl
  have hfits : d.Fits := fits_empty haddrs (by subst hd; rfl)
  have hold : (dinode area s.image s.freeinode).type = 0 := h.free _ hroom (.inr le_rfl)
  have hdata (x : ℕ) (hx : nmeta ≤ x) : putDinode area s.image s.freeinode d x = s.image x :=
    putDinode_data s.image hroom d hx
  have hfile (image : Disk) : IsFile image d [] := isFile_nil image haddrs
  rw [ialloc, hd, winode_eq (s := { s with freeinode := s.freeinode + 1 }) h.pool.length_eq hroom]
  refine Ends.bind ?_
  simp only [ends_ok]
  refine ⟨trivial, ⟨?_, ?_, hroom, ?_, ?_, ?_, ?_, ?_⟩, trivial, trivial⟩ <;> dsimp only <;>
    try rw [dinode_putDinode _ _ hfits]
  · refine h.pool.congr rfl rfl hdata fun j hj q => ?_
    by_cases hji : j = s.freeinode
    · -- neither the free inode nor the new one has a block
      have hptr : ptr (putDinode area s.image s.freeinode d) d q = 0 := by
        cases q with
        | addr k => exact haddrs k
        | entry _ => simp [ptr, entryAt, Dinode.indirect, haddrs]
      subst hji
      simp [owns, hold, hptr, toBlock]
    · refine h.pool.owns_eq hdata hj ?_ ?_ q <;> rw [update_of_ne hji]
  · have := h.root_le
    omega
  · intro j hj hfree
    rw [update_of_ne (by have := h.root_le; simp only [rootIno] at *; omega)]
    exact h.free j hj (by omega)
  · intro j hj1 hj
    by_cases hji : j = s.freeinode
    · subst hji
      rw [update_self, ← hd]
      exact htype
    · rw [update_of_ne hji]
      exact h.kind j hj1 (by omega)
  · intro j hj1 hj
    by_cases hji : j = s.freeinode
    · subst hji
      rw [update_self, hempty, ← hd]
      rfl
    · rw [update_of_ne hji]
      exact h.size j hj1 (by omega)
  · intro j hj1 hj
    by_cases hji : j = s.freeinode
    · subst hji
      rw [update_self, hempty]
      exact hfile _
    · rw [update_of_ne hji]
      have hlt : j < s.freeinode := by omega
      exact h.pool.isFile_congr (lt_trans hlt hroom) (h.type_ne hj1 hlt) (h.file j hj1 hlt) hdata
        rfl
  · have hne := sb_block_lt s.freeinode
    rw [putDinode, update_of_ne (by omega)]
    exact h.super

def Input.bytes (f : Input) : List UInt8 := ((f.chunks.getD []).map Subtype.val).flatten

def Input.name (f : Input) : List UInt8 := skipUnderscore (shortname f.path.1)

theorem appendChunks_spec (chunks : List Chunk) (h : Laid s content) (hpos : 1 ≤ i)
    (hi : i < s.freeinode) :
    Ends (fun _ => ¬Room s (content i).length (chunks.map Subtype.val).flatten.length)
      (fun s' => Laid s' (update content i
          (content i ++ (chunks.map Subtype.val).flatten)) ∧
        s'.freeinode = s.freeinode ∧ s'.freeblock + blocksOf (content i).length =
          s.freeblock + blocksOf ((content i).length + (chunks.map Subtype.val).flatten.length))
      (chunks.foldlM (fun s c => iappend s i c.1) s) := by
  induction chunks generalizing s content with
  | nil =>
    rw [List.foldlM_nil]
    refine ⟨?_, rfl, rfl⟩
    simpa using h
  | cons a chunks ih =>
    rw [List.foldlM_cons]
    refine Ends.bind (((iappend_spec h hpos hi a.1).imp ?_).mono ?_)
    · rintro _ hno ⟨hle, hfit⟩
      simp only [List.map_cons, List.flatten_cons, List.length_append] at hle hfit
      have hmono := blocksOf_mono (show (content i).length + a.1.length ≤ (content i).length +
        (a.1.length + (chunks.map Subtype.val).flatten.length) by omega)
      exact hno ⟨by omega, by omega⟩
    · rintro s' ⟨hlaid, hino, hfree⟩
      have hrest := ih hlaid (hino.symm ▸ hi)
      simp only [update_self, update_idem, List.length_append,
        List.append_assoc] at hrest
      simp only [List.map_cons, List.flatten_cons, List.length_append, ← Nat.add_assoc] at *
      refine (hrest.imp ?_).mono ?_
      · rintro _ hno ⟨hle, hfit⟩
        simp only [Room, ← Nat.add_assoc] at *
        exact hno ⟨hle, by omega⟩
      · rintro s'' ⟨hlaid', hino', hfree'⟩
        exact ⟨hlaid', hino'.trans hino, by omega⟩

end Xv6.Mkfs
