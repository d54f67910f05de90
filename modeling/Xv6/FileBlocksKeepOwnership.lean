import Xv6.BlockOwnership

/-!
# The file code keeps every block owned

What `balloc`, `bmap`, `itrunc`, `readi` and `ialloc` do to the ownership of blocks: none of them
loses a block, gives a block to two places or runs into one of its panics, whatever the
environment refuses and wherever user memory ends.
-/

namespace Xv6.Fs
open Function

open LittleEndianBlocks ExactOwnership OperationPrograms

variable {sb : Superblock} {st st' : Store} {i : ℕ} {ip ip' : Dinode}

def Grant.Sound (sb : Superblock) (g : Grant) : Prop :=
  g.block ∈ dataBlocks sb ∧
    ∀ o, owns sb g.disk (update (dinode sb g.disk) g.inum g.ip) o ≠ some g.block

/-- The picture of ownership with inode `i` as it is held in memory. -/
structure Held (sb : Superblock) (st : Store) (i : ℕ) (ip : Dinode) : Prop where
  view : Consistent sb st.disk (update (dinode sb st.disk) i ip)
  grants : ∀ g ∈ st.grants, g.Sound sb
  alloc : i < sb.ninodes ∧ ip.type ≠ 0

theorem Held.wellFormed (h : Held sb st i ip) : WellFormed sb st.disk ip := by
  have hw := h.view.inodes i h.alloc.1
  rw [update_self] at hw
  exact hw h.alloc.2

/-- Every block has one owner, with inode `i` as it is held in memory. Nothing is said about
what the blocks hold. -/
structure Owned (sb : Superblock) (st : Store) (i : ℕ) (ip : Dinode) : Prop where
  exact : Exact (dataBlocks sb) (bit sb st.disk)
    (owns sb st.disk (update (dinode sb st.disk) i ip))
  meta_used : ∀ b < sb.nmeta, bit sb st.disk b = true
  alloc : i < sb.ninodes ∧ ip.type ≠ 0

theorem Held.owned (h : Held sb st i ip) : Owned sb st i ip :=
  ⟨h.view.owned, h.view.meta_used, h.alloc⟩

theorem Owned.of_disk_eq (h : Owned sb st i ip) (hdisk : st'.disk = st.disk) :
    Owned sb st' i ip :=
  ⟨by rw [hdisk]; exact h.exact, by rw [hdisk]; exact h.meta_used, h.alloc⟩

theorem Owned.type_self (h : Owned sb st i ip) :
    (update (dinode sb st.disk) i ip i).type ≠ 0 := by
  rw [update_self]
  exact h.alloc.2

theorem Owned.ptr_mem (h : Owned sb st i ip) {q : Pos} (hq : ptr st.disk ip q ≠ 0) :
    ptr st.disk ip q ∈ dataBlocks sb := by
  have hm := ptr_mem_of_owned h.exact h.alloc.1 h.type_self (q := q)
  rw [update_self] at hm
  exact hm hq

theorem Owned.ptr_lt (h : Owned sb st i ip) (q : Pos) : ptr st.disk ip q < sb.size := by
  by_cases hq : ptr st.disk ip q = 0
  · rw [hq]
    exact lt_of_lt_of_le sb.nmeta_pos sb.nmeta_le
  · exact (h.ptr_mem hq).2

theorem Owned.ptr_inj (h : Owned sb st i ip) {q r : Pos} (hq : ptr st.disk ip q ≠ 0)
    (heq : ptr st.disk ip q = ptr st.disk ip r) : q = r := by
  have hinj := ptr_inj_of_owned h.exact h.alloc.1 h.type_self h.alloc.1 h.type_self
    (q := q) (r := r)
  rw [update_self] at hinj
  exact (hinj hq heq).2

theorem Owned.data_ne_indirect (h : Owned sb st i ip) {bn : ℕ}
    (hbn : ptr st.disk ip (dataPos bn) ≠ 0) : ptr st.disk ip (dataPos bn) ≠ ip.indirect :=
  fun heq => dataPos_ne_indirect bn (h.ptr_inj (r := .addr (Fin.last nDirect)) hbn heq)

theorem Owned.bit_ptr (h : Owned sb st i ip) {q : Pos} (hq : ptr st.disk ip q ≠ 0) :
    bit sb st.disk (ptr st.disk ip q) = true :=
  (h.exact.used_iff (h.ptr_mem hq)).mpr ⟨(i, q), owns_eq_some.mpr
    ⟨⟨h.alloc.1, h.type_self⟩, by rw [Function.update_self], hq⟩⟩

/-- A block of another inode is in use, and is not one of inode `i`. -/
theorem Owned.other_block (h : Owned sb st i ip) {j : ℕ} (hj : j < sb.ninodes) (hji : j ≠ i)
    (ht : (dinode sb st.disk j).type ≠ 0) {q : Pos}
    (hq : ptr st.disk (dinode sb st.disk j) q ≠ 0) :
    ptr st.disk (dinode sb st.disk j) q ∈ dataBlocks sb ∧
      bit sb st.disk (ptr st.disk (dinode sb st.disk j) q) = true ∧
      ∀ p, ptr st.disk ip p ≠ ptr st.disk (dinode sb st.disk j) q := by
  have hown : owns sb st.disk (update (dinode sb st.disk) i ip) (j, q) =
      some (ptr st.disk (dinode sb st.disk j) q) := by
    refine owns_eq_some.mpr ⟨⟨hj, ?_⟩, ?_, hq⟩
    · rwa [update_of_ne hji]
    · rw [update_of_ne hji]
  have hmem := h.exact.inPool hown
  refine ⟨hmem, (h.exact.used_iff hmem).mpr ⟨_, hown⟩, fun p heq => ?_⟩
  have hself : owns sb st.disk (update (dinode sb st.disk) i ip) (i, p) =
      some (ptr st.disk (dinode sb st.disk j) q) := by
    refine owns_eq_some.mpr ⟨⟨h.alloc.1, h.type_self⟩, ?_, hq⟩
    rw [update_self, heq]
  exact hji (Prod.mk.inj (h.exact.inj hown hself)).1

theorem Held.ptr_mem (h : Held sb st i ip) {q : Pos} (hq : ptr st.disk ip q ≠ 0) :
    ptr st.disk ip q ∈ dataBlocks sb := h.owned.ptr_mem hq

/-! ### Allocating a block -/

structure Allocated (sb : Superblock) (st : Store) (b : ℕ) (st' : Store) : Prop where
  mem : b ∈ dataBlocks sb
  free : bit sb st.disk b = false
  bits : ∀ c < sb.size, bit sb st'.disk c = update (bit sb st.disk) b true c
  zero : st'.disk b = fun _ => 0
  frame : ∀ x, sb.nmeta ≤ x → x ≠ b → st'.disk x = st.disk x
  dinodes : ∀ j < sb.ninodes, dinode sb st'.disk j = dinode sb st.disk j

theorem balloc_spec (hmeta : ∀ b < sb.nmeta, bit sb st.disk b = true) :
    (balloc sb st).2.grants = st.grants ∧
      ((balloc sb st).1 = 0 ∧ (balloc sb st).2.disk = st.disk ∨
        Allocated sb st (balloc sb st).1 (balloc sb st).2) := by
  simp only [balloc]
  split
  · exact ⟨rfl, .inl ⟨rfl, rfl⟩⟩
  · split
    · exact ⟨rfl, .inl ⟨rfl, rfl⟩⟩
    · rename_i b hfind
      have hlt : b < sb.size := List.mem_range.mp (List.mem_of_find?_eq_some hfind)
      have hfree : bit sb st.disk b = false := by simpa using List.find?_some hfind
      have hmem : b ∈ dataBlocks sb := by
        refine ⟨?_, hlt⟩
        by_contra hb
        have hused := hmeta b (by omega)
        rw [hfree] at hused
        cases hused
      have hbb := sb.bblock_lt hlt
      refine ⟨rfl, .inr ⟨hmem, hfree, ?_, ?_, ?_, ?_⟩⟩
      · intro c hc
        simp only [bzero, Store.put]
        rw [bit_update_of_le _ _ hc hmem.1, bit_set]
      · simp [bzero, Store.put]
      · intro x hx hxb
        simp only [bzero, Store.put]
        rw [update_of_ne hxb, update_of_ne (by omega)]
      · intro j hj
        simp only [bzero, Store.put]
        rw [dinode_update_of_le _ _ hj (le_trans sb.bmapstart_le_nmeta hmem.1),
          dinode_update_of_le _ _ hj (sb.bmapstart_le_bblock b)]

variable {b : ℕ}

theorem Allocated.ne_zero (h : Allocated sb st b st') : b ≠ 0 :=
  pos_of_mem_dataBlocks h.mem

theorem ballocFor_cases (h : Owned sb st i ip) :
    (ballocFor sb i ip st).1 = 0 ∧ (ballocFor sb i ip st).2.disk = st.disk ∨
      Allocated sb st (ballocFor sb i ip st).1 (ballocFor sb i ip st).2 := by
  obtain ⟨-, hr⟩ := balloc_spec h.meta_used
  simp only [ballocFor]
  split
  · exact hr
  · rename_i hne
    have hal := hr.resolve_left fun h0 => hne h0.1
    exact .inr ⟨hal.mem, hal.free, hal.bits, hal.zero, hal.frame, hal.dinodes⟩

theorem ballocFor_grants (h : Owned sb st i ip) (hsound : ∀ g ∈ st.grants, g.Sound sb) :
    ∀ g ∈ (ballocFor sb i ip st).2.grants, g.Sound sb := by
  obtain ⟨hgrants, hr⟩ := balloc_spec h.meta_used
  simp only [ballocFor]
  split
  · rw [hgrants]
    exact hsound
  · rename_i hne
    have hal : Allocated sb st (balloc sb st).1 (balloc sb st).2 :=
      hr.resolve_left fun h0 => hne h0.1
    intro g hg
    rcases List.mem_cons.mp hg with rfl | hg
    · exact ⟨hal.mem, fun o => h.exact.own_ne hal.free o⟩
    · exact hsound g (hgrants ▸ hg)

/-! ### Mapping a block of a file -/

structure Extends (sb : Superblock) (st : Store) (ip : Dinode) (st' : Store) (ip' : Dinode) :
    Prop where
  fields : ip' = { ip with addrs := ip'.addrs }
  kept : ∀ q, ptr st.disk ip q ≠ 0 → ptr st'.disk ip' q = ptr st.disk ip q
  dinodes : ∀ j < sb.ninodes, dinode sb st'.disk j = dinode sb st.disk j

theorem Extends.of_disk_eq (h : st'.disk = st.disk) : Extends sb st ip st' ip :=
  ⟨rfl, fun _ _ => by rw [h], fun _ _ => by rw [h]⟩

theorem Extends.trans {st'' : Store} {ip'' : Dinode} (h : Extends sb st ip st' ip')
    (h' : Extends sb st' ip' st'' ip'') : Extends sb st ip st'' ip'' where
  fields := by
    rw [h'.fields, h.fields]
  kept q hq := by
    have hk := h.kept q hq
    rw [h'.kept q (by rw [hk]; exact hq), hk]
  dinodes j hj := by rw [h'.dinodes j hj, h.dinodes j hj]

theorem Extends.type_eq (h : Extends sb st ip st' ip') : ip'.type = ip.type := by
  rw [h.fields]

theorem Extends.size_eq (h : Extends sb st ip st' ip') : ip'.size = ip.size := by
  rw [h.fields]

theorem Extends.mapped (h : Extends sb st ip st' ip') {q : Pos} (hq : ptr st.disk ip q ≠ 0) :
    ptr st'.disk ip' q ≠ 0 := by
  rw [h.kept q hq]
  exact hq

theorem Extends.indirect (h : Extends sb st ip st' ip') (hne : ip.indirect ≠ 0) :
    ip'.indirect = ip.indirect := h.kept (.addr (Fin.last nDirect)) hne

/-- A free block `b` was handed out, cleared, and put at a place of the inode that had none. -/
structure Grows (sb : Superblock) (st : Store) (ip : Dinode) (pos : Pos) (b : ℕ) (st' : Store)
    (ip' : Dinode) : Prop where
  zero : ptr st.disk ip pos = 0
  mem : b ∈ dataBlocks sb
  free : bit sb st.disk b = false
  bits : ∀ c < sb.size, bit sb st'.disk c = update (bit sb st.disk) b true c
  fields : ip' = { ip with addrs := ip'.addrs }
  ptr_eq : ∀ q, ptr st'.disk ip' q = update (ptr st.disk ip) pos b q
  cleared : st'.disk b = fun _ => 0
  frame : ∀ x, sb.nmeta ≤ x → x ≠ b → x ≠ ip.indirect → st'.disk x = st.disk x
  dinodes : ∀ j < sb.ninodes, dinode sb st'.disk j = dinode sb st.disk j

theorem Grows.extends {pos : Pos} (h : Grows sb st ip pos b st' ip') :
    Extends sb st ip st' ip' where
  fields := h.fields
  kept q hq := by
    rw [h.ptr_eq, update_of_ne]
    rintro rfl
    exact hq h.zero
  dinodes := h.dinodes

theorem Grows.dinode_update {pos : Pos} (h : Grows sb st ip pos b st' ip') (i : ℕ) {j : ℕ}
    (hj : j < sb.ninodes) : update (dinode sb st'.disk) i ip' j =
      update (update (dinode sb st.disk) i ip) i ip' j := by
  rw [update_idem]
  by_cases hji : j = i
  · subst hji
    rw [update_self, update_self]
  · rw [update_of_ne hji, update_of_ne hji, h.dinodes j hj]

theorem Owned.grow {pos : Pos} (h : Owned sb st i ip) (hg : Grows sb st ip pos b st' ip') :
    Owned sb st' i ip' := by
  have hself : update (dinode sb st.disk) i ip i = ip := update_self _ _ _
  have htype : ip'.type = ip.type := by rw [hg.fields]
  refine ⟨?_, fun c hc => ?_, h.alloc.1, htype ▸ h.alloc.2⟩
  · have hgrown : Exact (dataBlocks sb) (update (bit sb st.disk) b true)
        (owns sb st'.disk (update (update (dinode sb st.disk) i ip) i ip')) :=
      owned_grow h.exact h.alloc.1 h.type_self (by rw [hself]; exact hg.zero) hg.mem hg.free
        (fun q => by rw [hself]; exact hg.ptr_eq q) (by rw [hself]; exact htype)
        (fun x hx hxb hxi => by rw [hself] at hxi; exact hg.frame x hx hxb hxi)
    refine hgrown.congr (fun c hc => hg.bits c hc.2) fun o => ?_
    by_cases ho : o.1 < sb.ninodes
    · simp only [owns, hg.dinode_update i ho]
    · simp only [owns, ho, false_and, if_false]
  · have hcb : c ≠ b := fun heq => absurd hg.mem.1 (by omega)
    rw [hg.bits c (lt_of_lt_of_le hc sb.nmeta_le), update_of_ne hcb]
    exact h.meta_used c hc

theorem Owned.ptr_ne_alloc (h : Owned sb st i ip) (hal : Allocated sb st b st') {q : Pos}
    (hq : ptr st.disk ip q ≠ 0) : ptr st.disk ip q ≠ b := by
  have hne := ptr_ne_of_owned h.exact hal.free h.alloc.1 h.type_self (q := q)
  rw [update_self] at hne
  exact hne hq

theorem Owned.indirect_kept (h : Owned sb st i ip) (hal : Allocated sb st b st')
    (hne : ip.indirect ≠ 0) : st'.disk ip.indirect = st.disk ip.indirect :=
  hal.frame _ (h.ptr_mem (q := .addr (Fin.last nDirect)) hne).1
    (h.ptr_ne_alloc hal (q := .addr (Fin.last nDirect)) hne)

theorem Allocated.grows_addr (hal : Allocated sb st b st') (h : Owned sb st i ip)
    {k : Fin (nDirect + 1)} (hk : ip.addrs k = 0) :
    Grows sb st ip (.addr k) b st' { ip with addrs := update ip.addrs k b } := by
  refine ⟨hk, hal.mem, hal.free, hal.bits, rfl, fun q => ?_, hal.zero,
    fun x hx hxb _ => hal.frame x hx hxb, hal.dinodes⟩
  cases q with
  | addr k' =>
    by_cases hkk : k' = k
    · subst hkk
      simp [ptr]
    · simp [ptr, hkk]
  | entry j =>
    rw [update_of_ne (by simp)]
    by_cases hkk : Fin.last nDirect = k
    · subst hkk
      simp [ptr, entryAt, Dinode.indirect, hk, hal.zero, getWord, getField, getByte]
    · have hind : Dinode.indirect { ip with addrs := update ip.addrs k b } = ip.indirect :=
        update_of_ne hkk _ _
      rw [ptr, hind]
      exact entryAt_congr (h.indirect_kept hal) j

theorem ptr_entry {disk : Disk} (hind : ip.indirect ≠ 0) {j : ℕ} (hj : j < nIndirect) :
    ptr disk ip (.entry j) = getWord (disk ip.indirect) (4 * j) := by
  rw [ptr, entryAt, if_neg (by omega)]

theorem Allocated.grows_entry (hal : Allocated sb st b st') (h : Owned sb st i ip)
    (hind : ip.indirect ≠ 0) {j : ℕ} (hj : j < nIndirect) (hzero : ptr st.disk ip (.entry j) = 0) :
    Grows sb st ip (.entry j) b
      (st'.put ip.indirect (putWord (st'.disk ip.indirect) (4 * j) b)) ip := by
  have hmem : ip.indirect ∈ dataBlocks sb := h.ptr_mem (q := .addr (Fin.last nDirect)) hind
  have hne : b ≠ ip.indirect := (h.ptr_ne_alloc hal (q := .addr (Fin.last nDirect)) hind).symm
  have hroom (j' : ℕ) (hj' : j' < nIndirect) : 4 * j' + 4 ≤ bSize := by
    simp only [nIndirect, bSize] at *
    omega
  refine ⟨hzero, hal.mem, hal.free, fun c hc => ?_, rfl, fun q => ?_, ?_,
    fun x hx hxb hxi => ?_, fun j' hj' => ?_⟩
  · exact (bit_update_of_le _ _ hc hmem.1).trans (hal.bits c hc)
  · cases q with
    | addr k => rfl
    | entry j' =>
      by_cases hj' : j' < nIndirect
      · rw [ptr_entry hind hj']
        simp only [Store.put, update_self]
        by_cases hjj : j' = j
        · subst hjj
          rw [getWord_putWord_self _ (hroom j' hj') (lt_trans hal.mem.2 sb.size_lt), update_self]
        · rw [getWord_putWord_disjoint _ _ (by omega), h.indirect_kept hal hind,
            update_of_ne (by simpa using hjj), ptr_entry hind hj']
      · have hjj : Pos.entry j' ≠ Pos.entry j := fun hp => hj' (Pos.entry.inj hp ▸ hj)
        rw [update_of_ne hjj]
        simp [ptr, entryAt, Nat.le_of_not_lt hj']
  · simp only [Store.put, update_of_ne hne]
    exact hal.zero
  · simp only [Store.put, update_of_ne hxi]
    exact hal.frame x hx hxb
  · exact (dinode_update_of_le _ _ hj' (le_trans sb.bmapstart_le_nmeta hmem.1)).trans
      (hal.dinodes j' hj')

/-- The pointer at a place of the inode is read, and a block is allocated for it if there is
none: what `addrSlot` and `indirectSlot` do. -/
inductive Resolves (sb : Superblock) (i : ℕ) (st : Store) (ip : Dinode) :
    Pos → ℕ × Dinode × Store → Prop where
  | found {q : Pos} (h : ptr st.disk ip q ≠ 0) :
      Resolves sb i st ip q (ptr st.disk ip q, ip, st)
  | refused {q : Pos} (h : ptr st.disk ip q = 0) (hb : (ballocFor sb i ip st).1 = 0) :
      Resolves sb i st ip q (0, ip, (ballocFor sb i ip st).2)
  | addr {k : Fin (nDirect + 1)} (h : ip.addrs k = 0) (hb : (ballocFor sb i ip st).1 ≠ 0) :
      Resolves sb i st ip (.addr k) ((ballocFor sb i ip st).1,
        { ip with addrs := update ip.addrs k (ballocFor sb i ip st).1 }, (ballocFor sb i ip st).2)
  | entry {j : ℕ} (hind : ip.indirect ≠ 0) (hj : j < nIndirect)
      (h : ptr st.disk ip (.entry j) = 0) (hb : (ballocFor sb i ip st).1 ≠ 0) :
      Resolves sb i st ip (.entry j) ((ballocFor sb i ip st).1, ip,
        (ballocFor sb i ip st).2.put ip.indirect
          (putWord ((ballocFor sb i ip st).2.disk ip.indirect) (4 * j) (ballocFor sb i ip st).1))

theorem addrSlot_resolves (sb : Superblock) (i : ℕ) (k : Fin (nDirect + 1)) (ip : Dinode)
    (st : Store) : Resolves sb i st ip (.addr k) (addrSlot sb i k ip st) := by
  simp only [addrSlot]
  split_ifs with hk hb
  · exact .refused hk hb
  · exact .addr hk hb
  · exact .found hk

theorem indirectSlot_resolves (hind : ip.indirect ≠ 0) {j : ℕ} (hj : j < nIndirect) :
    Resolves sb i st ip (.entry j) ((indirectSlot sb i ip.indirect j ip st).1, ip,
      (indirectSlot sb i ip.indirect j ip st).2) := by
  simp only [indirectSlot, ← ptr_entry hind hj]
  split_ifs with hk hb
  · exact .refused hk hb
  · exact .entry hind hj hk hb
  · exact .found hk

variable {q : Pos} {r : ℕ × Dinode × Store}

theorem Resolves.eq_of_ne (hs : Resolves sb i st ip q r) (hq : ptr st.disk ip q ≠ 0) :
    r = (ptr st.disk ip q, ip, st) := by
  cases hs with
  | found => rfl
  | refused h => exact absurd h hq
  | addr h => exact absurd h hq
  | entry _ _ h => exact absurd h hq

theorem Resolves.addrs_eq {k : Fin (nDirect + 1)} (hs : Resolves sb i st ip (.addr k) r) :
    r.2.1.addrs k = r.1 := by
  cases hs with
  | found => rfl
  | refused h => exact h
  | addr => exact update_self ..

/-- A resolved pointer leaves the inode and the disk alone, or takes a new block. -/
theorem Resolves.outcome (hs : Resolves sb i st ip q r) (h : Owned sb st i ip) :
    r.2.1 = ip ∧ r.2.2.disk = st.disk ∧ r.1 = ptr st.disk ip q ∨
      Grows sb st ip q r.1 r.2.2 r.2.1 := by
  have hr := ballocFor_cases h
  cases hs with
  | found => exact .inl ⟨rfl, rfl, rfl⟩
  | refused hq hb => exact .inl ⟨rfl, hr.elim And.right fun hal => absurd hb hal.ne_zero, hq.symm⟩
  | addr hk hb => exact .inr ((hr.resolve_left fun h' => hb h'.1).grows_addr h hk)
  | entry hind hj hq hb =>
    exact .inr ((hr.resolve_left fun h' => hb h'.1).grows_entry h hind hj hq)

theorem Resolves.grants (hs : Resolves sb i st ip q r) (h : Owned sb st i ip)
    (hsound : ∀ g ∈ st.grants, g.Sound sb) : ∀ g ∈ r.2.2.grants, g.Sound sb := by
  have hgrants := ballocFor_grants h hsound
  cases hs with
  | found => exact hsound
  | refused => exact hgrants
  | addr => exact hgrants
  | entry => exact hgrants

/-- The inode got blocks that were free, and no block that was in use changed but its indirect
block. -/
structure Maps (sb : Superblock) (st : Store) (ip : Dinode) (st' : Store) (ip' : Dinode) :
    Prop where
  ext : Extends sb st ip st' ip'
  fresh : ∀ q, ptr st.disk ip q = 0 → ptr st'.disk ip' q ≠ 0 →
    bit sb st.disk (ptr st'.disk ip' q) = false
  used : ∀ c < sb.size, bit sb st.disk c = true → bit sb st'.disk c = true
  frame : ∀ x ∈ dataBlocks sb, bit sb st.disk x = true → x ≠ ip'.indirect →
    st'.disk x = st.disk x

theorem Maps.of_disk_eq (h : st'.disk = st.disk) : Maps sb st ip st' ip :=
  ⟨.of_disk_eq h, fun _ hz hne => absurd (h ▸ hz) hne, fun _ _ hc => by rw [h]; exact hc,
    fun _ _ _ _ => by rw [h]⟩

theorem Maps.ptr_ne (h : Maps sb st ip st' ip') {x : ℕ} (hx : x ≠ 0)
    (hbit : bit sb st.disk x = true) (hne : ∀ q, ptr st.disk ip q ≠ x) (q : Pos) :
    ptr st'.disk ip' q ≠ x := by
  intro heq
  by_cases hq : ptr st.disk ip q = 0
  · have hfree := h.fresh q hq (heq ▸ hx)
    rw [heq, hbit] at hfree
    cases hfree
  · exact hne q ((h.ext.kept q hq).symm.trans heq)

theorem Maps.trans {st'' : Store} {ip'' : Dinode} (h : Maps sb st ip st' ip')
    (h' : Maps sb st' ip' st'' ip'') (hsize : ∀ q, ptr st''.disk ip'' q < sb.size) :
    Maps sb st ip st'' ip'' where
  ext := h.ext.trans h'.ext
  fresh q hz hne := by
    by_cases hq : ptr st'.disk ip' q = 0
    · have hfree := h'.fresh q hq hne
      cases hbit : bit sb st.disk (ptr st''.disk ip'' q) with
      | false => rfl
      | true =>
        rw [h.used _ (hsize q) hbit] at hfree
        cases hfree
    · have hkept := h'.ext.kept q hq
      rw [hkept]
      exact h.fresh q hz hq
  used c hc hbit := h'.used c hc (h.used c hc hbit)
  frame x hx hbit hne := by
    rw [h'.frame x hx (h.used x hx.2 hbit) hne]
    exact h.frame x hx hbit fun heq =>
      hne (heq.trans (h'.ext.indirect (heq ▸ pos_of_mem_dataBlocks hx)).symm)

theorem Grows.maps {pos : Pos} (h : Grows sb st ip pos b st' ip') : Maps sb st ip st' ip' where
  ext := h.extends
  fresh q hz hne := by
    by_cases hq : q = pos
    · rw [h.ptr_eq, hq, update_self]
      exact h.free
    · rw [h.ptr_eq, update_of_ne hq] at hne
      exact absurd hz hne
  used c hc hbit := by
    rw [h.bits c hc]
    by_cases hcb : c = b
    · rw [hcb, update_self]
    · rwa [update_of_ne hcb]
  frame x hx hbit hne := by
    refine h.frame x hx.1 (fun hxb => ?_) fun heq => ?_
    · rw [hxb, h.free] at hbit
      cases hbit
    · exact hne (heq.trans (h.extends.indirect (heq ▸ pos_of_mem_dataBlocks hx)).symm)

theorem Resolves.maps (hs : Resolves sb i st ip q r) (h : Owned sb st i ip) :
    Owned sb r.2.2 i r.2.1 ∧ Maps sb st ip r.2.2 r.2.1 ∧ ptr r.2.2.disk r.2.1 q = r.1 ∧
      ∀ p, p ≠ q → ptr r.2.2.disk r.2.1 p = ptr st.disk ip p := by
  rcases hs.outcome h with ⟨hip, hdisk, hres⟩ | hg
  · rw [hip, hres, hdisk]
    exact ⟨h.of_disk_eq hdisk, .of_disk_eq hdisk, rfl, fun _ _ => rfl⟩
  · refine ⟨h.grow hg, hg.maps, ?_, fun p hp => by rw [hg.ptr_eq, update_of_ne hp]⟩
    rw [hg.ptr_eq, update_self]

variable {bn : ℕ}

/-- `bmap` resolves the pointer to the block, and the one to the indirect block before it. -/
theorem bmap_resolves (hr : bmap sb i ip st bn = .ok r) :
    bn < nDirect ∧ Resolves sb i st ip (dataPos bn) r ∨
      nDirect ≤ bn ∧ ∃ r₁, Resolves sb i st ip (.addr (Fin.last nDirect)) r₁ ∧
        (r₁.1 = 0 ∧ r = r₁ ∨
          r₁.1 ≠ 0 ∧ r₁.2.1.indirect = r₁.1 ∧ Resolves sb i r₁.2.2 r₁.2.1 (dataPos bn) r) := by
  rw [bmap] at hr
  by_cases hlt : bn < nDirect
  · rw [if_pos hlt] at hr
    rw [dataPos, if_pos hlt, ← Except.ok.inj hr]
    exact .inl ⟨hlt, addrSlot_resolves ..⟩
  rw [if_neg hlt] at hr
  by_cases hj : bn - nDirect < nIndirect
  · have hfirst := addrSlot_resolves sb i (Fin.last nDirect) ip st
    rw [if_pos hj] at hr
    generalize addrSlot sb i (Fin.last nDirect) ip st = r₁ at hr hfirst
    refine .inr ⟨Nat.le_of_not_lt hlt, r₁, hfirst, ?_⟩
    dsimp only at hr
    by_cases h0 : r₁.1 = 0
    · rw [if_pos h0] at hr
      exact .inl ⟨h0, (Except.ok.inj hr).symm⟩
    · have hind : r₁.2.1.indirect = r₁.1 := hfirst.addrs_eq
      rw [if_neg h0, ← hind] at hr
      rw [dataPos, if_neg hlt, ← Except.ok.inj hr]
      exact .inr ⟨h0, hind, indirectSlot_resolves (by rwa [hind]) hj⟩
  · rw [if_neg hj] at hr
    cases hr

/-- `bmap` keeps every block owned, and returns the block that is then at the place, if it does
not run out of blocks. -/
theorem bmap_maps (h : Owned sb st i ip) (hr : bmap sb i ip st bn = .ok r) :
    Owned sb r.2.2 i r.2.1 ∧ Maps sb st ip r.2.2 r.2.1 ∧
      (r.1 ≠ 0 → ptr r.2.2.disk r.2.1 (dataPos bn) = r.1) ∧
      ∀ bn', bn' ≠ bn → ptr r.2.2.disk r.2.1 (dataPos bn') = ptr st.disk ip (dataPos bn') := by
  have hpos {bn' : ℕ} (hne : bn' ≠ bn) : dataPos bn' ≠ dataPos bn :=
    fun heq => hne (dataPos_injective heq)
  obtain ⟨-, hs⟩ | ⟨-, r₁, hs₁, hrest⟩ := bmap_resolves hr
  · obtain ⟨howned, hmaps, hres, hsame⟩ := hs.maps h
    exact ⟨howned, hmaps, fun _ => hres, fun bn' hne => hsame _ (hpos hne)⟩
  · obtain ⟨howned₁, hmaps₁, -, hsame₁⟩ := hs₁.maps h
    have hdata (bn' : ℕ) := hsame₁ (dataPos bn') (dataPos_ne_indirect bn')
    obtain ⟨h0, rfl⟩ | ⟨-, -, hs⟩ := hrest
    · exact ⟨howned₁, hmaps₁, fun hne => absurd h0 hne, fun bn' _ => hdata bn'⟩
    · obtain ⟨howned, hmaps, hres, hsame⟩ := hs.maps howned₁
      exact ⟨howned, hmaps₁.trans hmaps howned.ptr_lt, fun _ => hres,
        fun bn' hne => (hsame _ (hpos hne)).trans (hdata bn')⟩

theorem bmap_grants (h : Owned sb st i ip) (hsound : ∀ g ∈ st.grants, g.Sound sb)
    (hr : bmap sb i ip st bn = .ok r) : ∀ g ∈ r.2.2.grants, g.Sound sb := by
  obtain ⟨-, hs⟩ | ⟨-, r₁, hs₁, ⟨-, rfl⟩ | ⟨-, -, hs⟩⟩ := bmap_resolves hr
  · exact hs.grants h hsound
  · exact hs₁.grants h hsound
  · exact hs.grants (hs₁.maps h).1 (hs₁.grants h hsound)

theorem bmap_ok (sb : Superblock) (i : ℕ) (ip : Dinode) (st : Store) (hbn : bn < maxFile) :
    ∃ r, bmap sb i ip st bn = .ok r := by
  have hj : bn - nDirect < nIndirect := by
    simp only [maxFile, nIndirect, nDirect, bSize] at *
    omega
  rw [bmap]
  split_ifs
  · exact ⟨_, rfl⟩
  · dsimp only
    split_ifs
    · exact ⟨_, rfl⟩
    · exact ⟨_, rfl⟩

theorem bmap_mapped (st : Store) (i : ℕ) {ip : Dinode} (hbn : bn < maxFile)
    (hm : ptr st.disk ip (dataPos bn) ≠ 0) :
    bmap sb i ip st bn = .ok (ptr st.disk ip (dataPos bn), ip, st) := by
  obtain ⟨r, hr⟩ := bmap_ok sb i ip st hbn
  rw [hr]
  obtain ⟨-, hs⟩ | ⟨hge, r₁, hs₁, hrest⟩ := bmap_resolves hr
  · rw [hs.eq_of_ne hm]
  · have hind : ptr st.disk ip (.addr (Fin.last nDirect)) ≠ 0 := fun h0 => hm (by
      rw [dataPos, if_neg (by omega), ptr, entryAt, if_pos (.inl h0)])
    obtain rfl := hs₁.eq_of_ne hind
    obtain ⟨h0, -⟩ | ⟨-, -, hs⟩ := hrest
    · exact absurd h0 hind
    · rw [hs.eq_of_ne hm]

/-- An operation on inode `i` that keeps every block owned keeps the picture, if it changes no
block of another inode and leaves only entries in a directory that name inodes. -/
theorem Held.follow (h : Held sb st i ip) (h' : Owned sb st' i ip')
    (hext : Extends sb st ip st' ip') (hgrants : ∀ g ∈ st'.grants, g.Sound sb)
    (hothers : ∀ x ∈ dataBlocks sb, bit sb st.disk x = true → (∀ q, ptr st.disk ip q ≠ x) →
      st'.disk x = st.disk x)
    (hdir : ip.type = tDir → ∀ n, n * direntSize < ip.size →
      ptr st.disk ip (dataPos (n * direntSize / bSize)) ≠ 0 →
      entryInum (st'.disk (ptr st.disk ip (dataPos (n * direntSize / bSize))))
        (n * direntSize % bSize) < sb.ninodes) : Held sb st' i ip' := by
  refine ⟨.of_update h'.exact h'.meta_used (fun _ => ?_) fun j hj hji htj => ?_, hgrants, h'.alloc⟩
  · have hwf := h.wellFormed
    refine ⟨⟨hext.size_eq ▸ hwf.size_le,
      fun bn hbn => hext.mapped (hwf.mapped bn (hext.size_eq ▸ hbn)),
      fun hd => hext.size_eq ▸ hwf.dir_size (hext.type_eq ▸ hd)⟩, fun hd n hn => ?_⟩
    rw [hext.size_eq] at hn
    have hm := hwf.mapped _ (lt_of_le_of_lt (Nat.div_mul_le_self _ _) hn)
    rw [hext.kept _ hm]
    exact hdir (hext.type_eq ▸ hd) n hn hm
  · rw [hext.dinodes j hj] at htj ⊢
    have hwf := h.view.inodes j hj
    rw [update_of_ne hji] at hwf
    have hsame (q : Pos) (hq : ptr st.disk (dinode sb st.disk j) q ≠ 0) :
        st'.disk (ptr st.disk (dinode sb st.disk j) q) =
          st.disk (ptr st.disk (dinode sb st.disk j) q) := by
      obtain ⟨hmem, hused, hne⟩ := h.owned.other_block hj hji htj hq
      exact hothers _ hmem hused hne
    exact (hwf htj).frame (hsame (.addr (Fin.last nDirect))) fun bn hbn => hsame _ hbn

/-! ### Between operations -/

def SameBlocks (d d' : Dinode) : Prop := d.type = d'.type ∧ d.size = d'.size ∧ d.addrs = d'.addrs

/-- The picture of ownership when every inode is as on the disk. -/
structure Clean (sb : Superblock) (st : Store) : Prop where
  view : Consistent sb st.disk (dinode sb st.disk)
  grants : ∀ g ∈ st.grants, g.Sound sb

theorem Clean.held (h : Clean sb st) (hi : i < sb.ninodes)
    (hsame : SameBlocks ip (dinode sb st.disk i)) (ht : ip.type ≠ 0) : Held sb st i ip :=
  ⟨h.view.replace hsame.1 hsame.2.2 fun _ =>
    (h.view.inodes i hi (hsame.1 ▸ ht)).same_blocks hsame.1 hsame.2.1 hsame.2.2, h.grants, hi, ht⟩

/-- What an operation on inode `i` leaves behind: the inode is as on the disk again, and no
other dinode was touched. -/
structure Settled (sb : Superblock) (st : Store) (i : ℕ) (st' : Store) (ip' : Dinode) : Prop where
  clean : Clean sb st'
  same : SameBlocks ip' (dinode sb st'.disk i)
  dinodes : ∀ j < sb.ninodes, j ≠ i → dinode sb st'.disk j = dinode sb st.disk j

theorem Settled.refl (h : Clean sb st) (hsame : SameBlocks ip (dinode sb st.disk i)) :
    Settled sb st i st ip := ⟨h, hsame, fun _ _ _ => rfl⟩

theorem settled_of_iupdate {st₀ : Store}
    (hview : Consistent sb st.disk (update (dinode sb st.disk) i ip))
    (hgrants : ∀ g ∈ st.grants, g.Sound sb) (hi : i < sb.ninodes) (hfits : ip.Fits)
    (hdinodes : ∀ j < sb.ninodes, dinode sb st.disk j = dinode sb st₀.disk j) :
    Settled sb st₀ i (st.iupdate sb i ip) ip := by
  have hput : dinode sb (st.iupdate sb i ip).disk = update (dinode sb st.disk) i ip :=
    dinode_putDinode st.disk i hfits
  refine ⟨⟨hview.iupdate hi hfits, hgrants⟩, ?_, ?_⟩
  · rw [hput, update_self]
    exact ⟨rfl, rfl, rfl⟩
  · intro j hj hji
    rw [hput, update_of_ne hji, hdinodes j hj]

theorem Held.fits (h : Held sb st i ip) : ip.Fits := by
  have hf := h.view.fits h.alloc.1
  rw [update_self] at hf
  exact hf h.alloc.2

/-! ### Reading -/

theorem block_lt_maxFile {size off : ℕ} (hsize : size ≤ maxFile * bSize) (hoff : off < size) :
    off / bSize < maxFile ∧ off / bSize * bSize < size := by
  simp only [maxFile, nDirect, nIndirect, bSize] at *
  omega

structure HoleFree (disk : Disk) (d : Dinode) : Prop where
  size_le : d.size ≤ maxFile * bSize
  mapped : ∀ bn, bn * bSize < d.size → ptr disk d (dataPos bn) ≠ 0

theorem WellFormed.holeFree {disk : Disk} (h : WellFormed sb disk ip) : HoleFree disk ip :=
  ⟨h.size_le, h.mapped⟩

def fileByte (disk : Disk) (d : Dinode) (x : ℕ) : UInt8 :=
  getByte (disk (ptr disk d (dataPos (x / bSize)))) (x % bSize)

def fileBytes (disk : Disk) (d : Dinode) (off k : ℕ) : List UInt8 :=
  (List.range k).map fun t => fileByte disk d (off + t)

@[simp] theorem length_fileBytes (disk : Disk) (d : Dinode) (off k : ℕ) :
    (fileBytes disk d off k).length = k := by simp [fileBytes]

theorem fileBytes_add (disk : Disk) (d : Dinode) (off a b : ℕ) :
    fileBytes disk d off (a + b) = fileBytes disk d off a ++ fileBytes disk d (off + a) b := by
  simp [fileBytes, List.range_add, Function.comp_def, Nat.add_assoc]

theorem getBytes_eq_fileBytes (disk : Disk) (d : Dinode) {off m : ℕ}
    (hm : m ≤ bSize - off % bSize) :
    getBytes (disk (ptr disk d (dataPos (off / bSize)))) (off % bSize) m =
      fileBytes disk d off m := by
  conv_lhs => rw [← length_fileBytes disk d off m]
  refine getBytes_eq _ _ _ fun k hk => ?_
  rw [length_fileBytes] at hk
  have hdiv : (off + k) / bSize = off / bSize := by
    simp only [bSize] at *
    omega
  have hmod : (off + k) % bSize = off % bSize + k := by
    simp only [bSize] at *
    omega
  simp [fileBytes, fileByte, hdiv, hmod]

theorem copyout_le (dst : ℕ → Bool) (m k : ℕ) : copyout dst m k ≤ m := by
  induction m generalizing k with
  | zero => exact le_rfl
  | succ m ih =>
    rw [copyout]
    split
    · exact Nat.succ_le_succ (ih (k + 1))
    · exact Nat.zero_le _

theorem copyout_add (dst : ℕ → Bool) (a b k : ℕ) :
    copyout dst (a + b) k =
      if copyout dst a k < a then copyout dst a k else a + copyout dst b (k + a) := by
  induction a generalizing k with
  | zero => simp [copyout]
  | succ a ih =>
    rw [show a + 1 + b = a + b + 1 by omega, copyout, copyout, ih (k + 1),
      show k + 1 + a = k + (a + 1) by omega]
    split_ifs <;> omega

@[simp] theorem copyout_true (m k : ℕ) : copyout (fun _ => true) m k = m := by
  induction m generalizing k with
  | zero => rfl
  | succ m ih => rw [copyout, if_pos rfl, ih]

theorem chunk_pos {left off : ℕ} (h : 0 < left) : 0 < chunk left off := by
  simp only [chunk, bSize]
  omega

/-- Where the first `len` bytes of a file have blocks, the loop of `readi` stores them up to the
first byte of the destination that is not mapped, and changes nothing. -/
theorem readLoop_eq {len : ℕ} (hlen : len ≤ maxFile * bSize)
    (hmapped : ∀ bn, bn * bSize < len → ptr st.disk ip (dataPos bn) ≠ 0) (i : ℕ) (dst : ℕ → Bool)
    {n : ℕ} (fuel tot off : ℕ) (hn : tot ≤ n) (hfuel : n - tot ≤ fuel)
    (hend : tot < n → off + (n - tot) ≤ len) :
    readLoop sb i dst n fuel tot off ip st =
      (fileBytes st.disk ip off (copyout dst (n - tot) tot),
        .ok (if copyout dst (n - tot) tot < n - tot then -1 else n, ip, st)) := by
  induction fuel generalizing tot off with
  | zero =>
    obtain rfl : tot = n := by omega
    simp [readLoop, copyout, fileBytes]
  | succ fuel ih =>
    rw [readLoop]
    by_cases hlt : tot < n
    · have hstart := hend hlt
      obtain ⟨hbn, hoff⟩ := block_lt_maxFile hlen (show off < len by omega)
      have hm := hmapped _ hoff
      have hpos : 0 < chunk (n - tot) off := chunk_pos (by omega)
      have hle : chunk (n - tot) off ≤ n - tot := Nat.min_le_left _ _
      have hroom : chunk (n - tot) off ≤ bSize - off % bSize := Nat.min_le_right _ _
      rw [if_pos hlt, bmap_mapped st i hbn hm]
      dsimp only
      rw [if_neg hm]
      generalize chunk (n - tot) off = m at hpos hle hroom
      have hcopy := copyout_le dst m tot
      have hall := copyout_add dst m (n - (tot + m)) tot
      rw [show m + (n - (tot + m)) = n - tot by omega] at hall
      rw [getBytes_eq_fileBytes st.disk ip (by omega)]
      by_cases hshort : copyout dst m tot < m
      · rw [if_pos hshort] at hall ⊢
        rw [hall, if_pos (by omega)]
      · rw [if_neg hshort] at hall ⊢
        have hiff : copyout dst (n - (tot + m)) (tot + m) < n - (tot + m) ↔
            m + copyout dst (n - (tot + m)) (tot + m) < n - tot := by omega
        rw [ih (tot + m) (off + m) (by omega) (by omega) (by omega), hall, fileBytes_add,
          show copyout dst m tot = m by omega]
        simp only [hiff]
    · obtain rfl : tot = n := by omega
      simp [copyout, fileBytes]

def readCount (d : Dinode) (off n : ℕ) : ℕ :=
  if d.size < off ∨ (off + n) % 2 ^ 32 < off then 0
  else if d.size < off + n then d.size - off else n

theorem readi_eq {len : ℕ} (hlen : len ≤ maxFile * bSize)
    (hmapped : ∀ bn, bn * bSize < len → ptr st.disk ip (dataPos bn) ≠ 0) (i : ℕ) (dst : ℕ → Bool)
    {off n k : ℕ} (hk : readCount ip off n = k) (hend : 0 < k → off + k ≤ len) :
    readiBlocks sb i ip st dst off n =
      .ok ((if copyout dst k 0 < k then -1 else k, fileBytes st.disk ip off (copyout dst k 0)),
        ip, st) := by
  rw [readiBlocks, readiBytes]
  rw [readCount] at hk
  by_cases hout : ip.size < off ∨ (off + n) % 2 ^ 32 < off
  · rw [if_pos hout] at hk ⊢
    subst hk
    simp [Except.map, copyout, fileBytes]
  · rw [if_neg hout] at hk ⊢
    rw [hk]
    simp only [readLoop_eq hlen hmapped i dst k 0 off (Nat.zero_le k) le_rfl hend]
    rfl

theorem HoleFree.readi_eq (h : HoleFree st.disk ip) (i : ℕ) (dst : ℕ → Bool) {off n k : ℕ}
    (hk : readCount ip off n = k) :
    readiBlocks sb i ip st dst off n =
      .ok ((if copyout dst k 0 < k then -1 else k, fileBytes st.disk ip off (copyout dst k 0)),
        ip, st) := by
  refine Fs.readi_eq h.size_le h.mapped i dst hk fun hpos => ?_
  rw [readCount] at hk
  split_ifs at hk <;> omega

theorem readi_dirent (h : WellFormed sb st.disk ip) (ht : ip.type = tDir) (i : ℕ) {k : ℕ}
    (hk : k * direntSize < ip.size) :
    readiBlocks sb i ip st (fun _ => true) (k * direntSize) direntSize =
      .ok ((direntSize, getBytes (st.disk (ptr st.disk ip (dataPos (k * direntSize / bSize))))
        (k * direntSize % bSize) direntSize), ip, st) := by
  obtain ⟨c, hc⟩ := h.dir_size ht
  have hle := h.size_le
  have hmax : maxFile * bSize = 274432 := by decide
  have hroom : k * direntSize + direntSize ≤ ip.size := by
    rw [hc] at hk ⊢
    simp only [direntSize] at *
    omega
  have hcount : readCount ip (k * direntSize) direntSize = direntSize := by
    rw [readCount, if_neg (by omega), if_neg (by omega)]
  have hblock : direntSize ≤ bSize - k * direntSize % bSize := by
    simp only [direntSize, bSize]
    omega
  rw [h.holeFree.readi_eq i _ hcount, copyout_true, if_neg (lt_irrefl _),
    getBytes_eq_fileBytes st.disk ip hblock]

/-! ### Writing -/

theorem Owned.ptr_put (h : Owned sb st i ip) {bn x : ℕ} (hx : ptr st.disk ip (dataPos bn) = x)
    (blk : Block) (q : Pos) : ptr (st.put x blk).disk ip q = ptr st.disk ip q := by
  subst hx
  have hself : update (dinode sb st.disk) i ip i = ip := update_self _ _ _
  have hw := ptr_write h.exact h.alloc.1 h.type_self bn blk h.alloc.1 h.type_self q
  rwa [hself] at hw

theorem Owned.put (h : Owned sb st i ip) {bn x : ℕ} (hx : ptr st.disk ip (dataPos bn) = x)
    (hx0 : x ≠ 0) (blk : Block) :
    Owned sb (st.put x blk) i ip ∧ Extends sb st ip (st.put x blk) ip := by
  subst hx
  have hself : update (dinode sb st.disk) i ip i = ip := update_self _ _ _
  have hmem := h.ptr_mem hx0
  have hdinodes (j : ℕ) (hj : j < sb.ninodes) :
      dinode sb (st.put (ptr st.disk ip (dataPos bn)) blk).disk j = dinode sb st.disk j :=
    dinode_update_of_le _ _ hj (le_trans sb.bmapstart_le_nmeta hmem.1)
  have hptr {j : ℕ} (hj : j < sb.ninodes)
      (htj : (update (dinode sb st.disk) i ip j).type ≠ 0) (q : Pos) :
      ptr (st.put (ptr st.disk ip (dataPos bn)) blk).disk
          (update (dinode sb st.disk) i ip j) q =
        ptr st.disk (update (dinode sb st.disk) i ip j) q := by
    have hw := ptr_write h.exact h.alloc.1 h.type_self bn blk hj htj q
    rwa [hself] at hw
  have hupdate {j : ℕ} (hj : j < sb.ninodes) :
      update (dinode sb (st.put (ptr st.disk ip (dataPos bn)) blk).disk) i ip j =
        update (dinode sb st.disk) i ip j := by
    by_cases hji : j = i
    · subst hji
      rw [update_self, update_self]
    · rw [update_of_ne hji, update_of_ne hji, hdinodes j hj]
  refine ⟨⟨h.exact.congr (fun c hc => bit_update_of_le _ _ hc.2 hmem.1) ?_, fun c hc => ?_,
    h.alloc⟩, rfl, fun q _ => h.ptr_put rfl blk q, hdinodes⟩
  · rintro ⟨j, q⟩
    by_cases hj : j < sb.ninodes
    · simp only [owns, hupdate hj]
      split_ifs with hjt
      · rw [hptr hj hjt.2]
      · rfl
    · simp only [owns, hj, false_and, if_false]
  · rw [← h.meta_used c hc]
    exact bit_update_of_le _ _ (lt_of_lt_of_le hc sb.nmeta_le) hmem.1

/-! ### Truncation -/

structure BitsOnly (sb : Superblock) (st st' : Store) : Prop where
  meta_kept : ∀ b < sb.nmeta, bit sb st'.disk b = bit sb st.disk b
  frame : ∀ x, sb.nmeta ≤ x → st'.disk x = st.disk x
  dinodes : ∀ j < sb.ninodes, dinode sb st'.disk j = dinode sb st.disk j
  grants : st'.grants = st.grants

theorem BitsOnly.refl (sb : Superblock) (st : Store) : BitsOnly sb st st :=
  ⟨fun _ _ => rfl, fun _ _ => rfl, fun _ _ => rfl, rfl⟩

theorem BitsOnly.trans {st'' : Store} (h : BitsOnly sb st st') (h' : BitsOnly sb st' st'') :
    BitsOnly sb st st'' :=
  ⟨fun b hb => (h'.meta_kept b hb).trans (h.meta_kept b hb),
    fun x hx => (h'.frame x hx).trans (h.frame x hx),
    fun j hj => (h'.dinodes j hj).trans (h.dinodes j hj), h'.grants.trans h.grants⟩

theorem bfree_spec (hb : b ∈ dataBlocks sb) (hused : bit sb st.disk b = true) :
    ∃ st', bfree sb st b = .ok st' ∧ BitsOnly sb st st' ∧
      ∀ c, bit sb st'.disk c = update (bit sb st.disk) b false c := by
  refine ⟨st.put (sb.bblock b) (clearBit (st.disk (sb.bblock b)) (b % bpb)), if_pos hused,
    ⟨?_, ?_, ?_, rfl⟩, fun c => bit_clear st.disk b c⟩
  · intro c hc
    have hcb : c ≠ b := fun h => absurd hb.1 (by omega)
    exact (bit_clear st.disk b c).trans (update_of_ne hcb _ _)
  · intro x hx
    have hlt := sb.bblock_lt hb.2
    exact update_of_ne (by omega) _ _
  · intro j hj
    exact dinode_update_of_le _ _ hj (sb.bmapstart_le_bblock b)

theorem bfreeAll_release {own : ℕ × Pos → Option ℕ} (os : List (ℕ × Pos)) (hnodup : os.Nodup)
    (h : Exact (dataBlocks sb) (bit sb st.disk) own) :
    Ends (fun _ => False)
      (fun st' => BitsOnly sb st st' ∧
        Exact (dataBlocks sb) (bit sb st'.disk) fun o => if o ∈ os then none else own o)
      (bfreeAll sb st (os.map fun o => (own o).getD 0)) := by
  induction os generalizing st own with
  | nil => exact ⟨.refl sb st, by simpa using h⟩
  | cons o os ih =>
    obtain ⟨ho, hnodup'⟩ := List.nodup_cons.mp hnodup
    rw [List.map_cons, bfreeAll]
    cases hown : own o with
    | none =>
      simp only [Option.getD_none, if_true]
      refine (ih hnodup' h).mono ?_
      rintro st' ⟨hbits, hex⟩
      refine ⟨hbits, hex.congr (fun _ _ => rfl) fun o' => ?_⟩
      by_cases hoo : o' = o
      · subst hoo
        simp [ho, hown]
      · simp [hoo]
    | some b =>
      have hb := h.inPool hown
      obtain ⟨st₁, hfree, hbits₁, hbit⟩ := bfree_spec hb ((h.used_iff hb).mpr ⟨o, hown⟩)
      rw [if_neg (show (some b).getD 0 ≠ 0 from pos_of_mem_dataBlocks hb)]
      refine Ends.bind ?_
      rw [Option.getD_some, hfree, ends_ok]
      have hrest : (os.map fun o => (own o).getD 0) =
          os.map fun o' => (update own o none o').getD 0 :=
        List.map_congr_left fun o' ho' => by
          rw [update_of_ne fun hoo : o' = o => ho (hoo ▸ ho')]
      rw [hrest]
      have hreleased : Exact (dataBlocks sb) (bit sb st₁.disk) (update own o none) :=
        (h.release hown).congr (fun c _ => hbit c) fun _ => rfl
      refine (ih hnodup' hreleased).mono ?_
      rintro st' ⟨hbits, hex⟩
      refine ⟨hbits₁.trans hbits, hex.congr (fun _ _ => rfl) fun o' => ?_⟩
      by_cases hoo : o' = o
      · subst hoo
        simp
      · simp [hoo]

/-- The places of an inode whose block numbers stand in the inode itself. -/
def directPlaces (i : ℕ) : List (ℕ × Pos) :=
  (List.finRange nDirect).map fun k => (i, .addr k.castSucc)

/-- The places in the indirect block of an inode, and that of the indirect block itself. -/
def indirectPlaces (i : ℕ) : List (ℕ × Pos) :=
  ((List.range nIndirect).map fun j => (i, .entry j)) ++ [(i, .addr (Fin.last nDirect))]

theorem nodup_directPlaces (i : ℕ) : (directPlaces i).Nodup := by
  refine (List.nodup_finRange nDirect).map ?_
  intro k k' h
  simpa using h

theorem nodup_indirectPlaces (i : ℕ) : (indirectPlaces i).Nodup := by
  refine List.nodup_append'.mpr ⟨List.nodup_range.map ?_, by simp, by simp⟩
  intro j j' h
  simpa using h

theorem mem_directPlaces {i : ℕ} {o : ℕ × Pos} :
    o ∈ directPlaces i ↔ ∃ k : Fin nDirect, o = (i, .addr k.castSucc) := by
  simp [directPlaces, eq_comm]

theorem mem_indirectPlaces {i : ℕ} {o : ℕ × Pos} :
    o ∈ indirectPlaces i ↔
      (∃ j < nIndirect, o = (i, .entry j)) ∨ o = (i, .addr (Fin.last nDirect)) := by
  simp [indirectPlaces, eq_comm]

theorem getD_toBlock (n : ℕ) : (toBlock n).getD 0 = n := by
  rw [toBlock]
  split
  · exact Eq.symm ‹_›
  · rfl

theorem getWords_eq_map (blk : Block) (off k : ℕ) :
    getWords blk off k = (List.range k).map fun j => getWord blk (off + 4 * j) := by
  induction k generalizing off with
  | zero => rfl
  | succ k ih =>
    rw [getWords, ih, List.range_succ_eq_map, List.map_cons, List.map_map]
    congr 1
    refine List.map_congr_left fun j _ => ?_
    simp only [Function.comp]
    congr 1
    omega

/-- `itrunc` frees every block of the inode, each of them once. -/
theorem freeBlocks_release (h : Held sb st i ip) :
    Ends (fun _ => False)
      (fun st' => BitsOnly sb st st' ∧ Exact (dataBlocks sb) (bit sb st'.disk)
        fun o => if o ∈ directPlaces i ∨ o ∈ indirectPlaces i then none
          else owns sb st.disk (update (dinode sb st.disk) i ip) o)
      (freeBlocks sb ip st) := by
  have howns (q : Pos) : owns sb st.disk (update (dinode sb st.disk) i ip) (i, q) =
      toBlock (ptr st.disk ip q) := by
    rw [owns, update_self, if_pos h.alloc]
  have hexact := h.view.owned
  generalize owns sb st.disk (update (dinode sb st.disk) i ip) = own at hexact howns ⊢
  have hdirect : ip.direct = (directPlaces i).map fun o => (own o).getD 0 := by
    rw [Dinode.direct, List.ofFn_eq_map, directPlaces, List.map_map]
    refine List.map_congr_left fun k _ => ?_
    rw [Function.comp, howns, getD_toBlock]
    rfl
  rw [freeBlocks, hdirect]
  refine Ends.bind ((bfreeAll_release _ (nodup_directPlaces i) hexact).mono ?_)
  rintro st₁ ⟨hbits₁, hex₁⟩
  split
  · rename_i h0
    refine ⟨hbits₁, hex₁.congr (fun _ _ => rfl) ?_⟩
    rintro ⟨j, q⟩
    by_cases hq : (j, q) ∈ indirectPlaces i
    · have hnone : own (j, q) = none := by
        rcases mem_indirectPlaces.mp hq with ⟨k, -, hk⟩ | hk
        · rw [hk, howns, ptr, entryAt, if_pos (.inl h0)]
          rfl
        · rw [hk, howns, ptr, show ip.addrs (Fin.last nDirect) = 0 from h0]
          rfl
      simp [hq, hnone]
    · simp [hq]
  · rename_i h0
    have hmem : ip.indirect ∈ dataBlocks sb := h.ptr_mem (q := .addr (Fin.last nDirect)) h0
    have hnot (o : ℕ × Pos) (ho : o ∈ indirectPlaces i) : o ∉ directPlaces i := by
      intro hd
      obtain ⟨k, rfl⟩ := mem_directPlaces.mp hd
      rcases mem_indirectPlaces.mp ho with ⟨j, -, hj⟩ | hj
      · cases (Prod.mk.inj hj).2
      · exact absurd (Pos.addr.inj (Prod.mk.inj hj).2) (Fin.castSucc_lt_last k).ne
    have hwords : getWords (st₁.disk ip.indirect) 0 nIndirect ++ [ip.indirect] =
        (indirectPlaces i).map fun o => (if o ∈ directPlaces i then none else own o).getD 0 := by
      have hsimp : (indirectPlaces i).map (fun o =>
          (if o ∈ directPlaces i then none else own o).getD 0) =
          (indirectPlaces i).map fun o => (own o).getD 0 :=
        List.map_congr_left fun o ho => by rw [if_neg (hnot o ho)]
      rw [hsimp, hbits₁.frame _ hmem.1, getWords_eq_map, indirectPlaces, List.map_append,
        List.map_map]
      congr 1
      · refine List.map_congr_left fun j hj => ?_
        have hlt := List.mem_range.mp hj
        rw [Function.comp, howns, getD_toBlock, ptr, entryAt, if_neg (by omega), Nat.zero_add]
      · rw [List.map_singleton, howns, getD_toBlock]
        rfl
    rw [hwords]
    refine (bfreeAll_release _ (nodup_indirectPlaces i) hex₁).mono ?_
    rintro st₂ ⟨hbits₂, hex₂⟩
    refine ⟨hbits₁.trans hbits₂, hex₂.congr (fun _ _ => rfl) fun o => ?_⟩
    by_cases ho₁ : o ∈ indirectPlaces i <;> by_cases ho₂ : o ∈ directPlaces i <;>
      simp [ho₁, ho₂]

theorem fits_empty {d : Dinode} (ha : ∀ k, d.addrs k = 0) (hs : d.size = 0) : d.Fits :=
  ⟨by rw [hs]; decide, fun k => by rw [ha k]; decide⟩

/-- `itrunc` leaves an empty inode and a consistent disk. -/
theorem itrunc_keeps (h : Clean sb st) (hi : i < sb.ninodes)
    (hsame : SameBlocks ip (dinode sb st.disk i)) (ht : ip.type ≠ 0) :
    Ends (fun _ => False)
      (fun r => Settled sb st i r.2 r.1 ∧ r.1 = { ip with addrs := fun _ => 0, size := 0 })
      (itruncBlocks sb i ip st) := by
  have hheld := h.held hi hsame ht
  rw [itruncBlocks]
  refine Ends.bind ((freeBlocks_release hheld).mono ?_)
  rintro st' ⟨hbits, hex⟩
  refine ⟨settled_of_iupdate ?_ (by rw [hbits.grants]; exact h.grants) hi
    (fits_empty (fun _ => rfl) rfl) hbits.dinodes, rfl⟩
  have hwf (j : ℕ) (hj : j < sb.ninodes) (htj : (dinode sb st'.disk j).type ≠ 0) :
      WellFormed sb st'.disk (dinode sb st'.disk j) := by
    rw [hbits.dinodes j hj] at htj ⊢
    have hown (q : Pos) (hq : ptr st.disk (dinode sb st.disk j) q ≠ 0) :
        st'.disk (ptr st.disk (dinode sb st.disk j) q) =
          st.disk (ptr st.disk (dinode sb st.disk j) q) :=
      hbits.frame _ (h.view.ptr_mem hj htj hq).1
    exact (h.view.inodes j hj htj).frame (hown (.addr (Fin.last nDirect)))
      fun bn hbn => hown _ hbn
  refine Consistent.emptied hex ?_ ?_ ?_ (fun j hj _ htj => hwf j hj htj) (fun _ => rfl) rfl
  · intro b hb
    rw [hbits.meta_kept b hb]
    exact h.view.meta_used b hb
  · intro q
    cases q with
    | addr k =>
      rw [if_pos]
      cases k using Fin.lastCases with
      | last => exact .inr (mem_indirectPlaces.mpr (.inr rfl))
      | cast k => exact .inl (mem_directPlaces.mpr ⟨k, rfl⟩)
    | entry j =>
      by_cases hj : j < nIndirect
      · rw [if_pos (.inr (mem_indirectPlaces.mpr (.inl ⟨j, hj, rfl⟩)))]
      · rw [ite_eq_left_iff]
        intro _
        rw [owns, update_self, if_pos hheld.alloc, ptr, entryAt, if_pos (.inr (by omega))]
        rfl
  · intro j hji q
    rw [if_neg]
    · simp only [owns, update_of_ne hji]
      by_cases hjt : j < sb.ninodes ∧ (dinode sb st.disk j).type ≠ 0
      · have hd := hbits.dinodes j hjt.1
        have hp : ptr st'.disk (dinode sb st.disk j) q = ptr st.disk (dinode sb st.disk j) q :=
          ptr_congr rfl (fun hne => hbits.frame _
            (h.view.ptr_mem hjt.1 hjt.2 (q := .addr (Fin.last nDirect)) hne).1) q
        rw [if_pos hjt, hd, if_pos hjt, hp]
      · rw [if_neg hjt, if_neg]
        rintro ⟨hj, htj⟩
        exact hjt ⟨hj, by rw [← hbits.dinodes j hj]; exact htj⟩
    · rintro (hd | hd)
      · obtain ⟨k, hk⟩ := mem_directPlaces.mp hd
        exact hji (Prod.mk.inj hk).1
      · rcases mem_indirectPlaces.mp hd with ⟨k, -, hk⟩ | hk
        · exact hji (Prod.mk.inj hk).1
        · exact hji (Prod.mk.inj hk).1

theorem Clean.overwrite (h : Clean sb st) (hi : i < sb.ninodes)
    (hnone : ∀ q, owns sb st.disk (dinode sb st.disk) (i, q) = none)
    (ha : ∀ k, ip.addrs k = 0) (hs : ip.size = 0) : Settled sb st i (st.iupdate sb i ip) ip :=
  settled_of_iupdate (Consistent.emptied h.view.owned h.view.meta_used hnone (fun _ _ _ => rfl)
    (fun j hj _ => h.view.inodes j hj) ha hs) h.grants hi (fits_empty ha hs) fun _ _ => rfl

/-! ### Inode allocation -/

theorem claim_keeps (h : Clean sb st) (hi : i < sb.ninodes) (type : Int16) :
    Clean sb (claimDinode sb st i type).2 ∧
      (∀ j < sb.ninodes, j ≠ i → dinode sb (claimDinode sb st i type).2.disk j =
        dinode sb st.disk j) ∧
      ((dinode sb st.disk i).type ≠ 0 → claimDinode sb st i type = (false, st)) := by
  rw [claimDinode]
  split
  · rename_i h0
    have hs : Settled sb st i (st.iupdate sb i { Dinode.zero with type })
        { Dinode.zero with type } :=
      h.overwrite hi (fun q => by simp [owns, h0]) (fun _ => rfl) rfl
    exact ⟨hs.clean, hs.dinodes, fun hne => absurd h0 hne⟩
  · exact ⟨h, fun _ _ _ => rfl, fun _ => rfl⟩

end Xv6.Fs
