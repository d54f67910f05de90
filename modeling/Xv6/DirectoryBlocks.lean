import Xv6.FileArrays
import Xv6.SlotMaps

/-!
# Directory entries in the blocks of a directory

A write within one block of a file is done as a whole or not at all. A directory is the list of
the entries in its bytes, and `readi` and `writei` of one entry read and write an element of that
list.
-/

namespace Xv6.Fs
open Function

open LittleEndianBlocks OperationPrograms SlotMaps

variable {sb : Superblock} {st st' : Store} {i : ℕ} {ip ip' : Dinode}

theorem Grows.of_disk_eq {st₁ : Store} {pos : Pos} {b : ℕ} (h : Grows sb st ip pos b st₁ ip')
    (hdisk : st'.disk = st₁.disk) : Grows sb st ip pos b st' ip' where
  zero := h.zero
  mem := h.mem
  free := h.free
  bits c hc := by rw [hdisk, h.bits c hc]
  fields := h.fields
  ptr_eq q := by rw [hdisk, h.ptr_eq q]
  cleared := by rw [hdisk, h.cleared]
  frame x hx hxb hxi := by rw [hdisk, h.frame x hx hxb hxi]
  dinodes j hj := by rw [hdisk, h.dinodes j hj]

theorem Resolves.of_zero {q : Pos} (hs : Resolves sb i st ip q (0, ip', st'))
    (h : Owned sb st i ip) : ip' = ip ∧ st'.disk = st.disk := by
  rcases hs.outcome h with ⟨hip, hdisk, -⟩ | hg
  · exact ⟨hip, hdisk⟩
  · exact absurd rfl (pos_of_mem_dataBlocks hg.mem)

theorem bmap_zero (h : Owned sb st i ip) {bn : ℕ} (hr : bmap sb i ip st bn = .ok (0, ip', st')) :
    ip' = ip ∧ st'.disk = st.disk ∨
      ∃ b, Grows sb st ip (.addr (Fin.last nDirect)) b st' ip' := by
  obtain ⟨-, hs⟩ | ⟨-, r₁, hs₁, hrest⟩ := bmap_resolves hr
  · exact .inl (hs.of_zero h)
  · have hfirst : r₁.2.1 = ip ∧ r₁.2.2.disk = st.disk ∨
        ∃ b, Grows sb st ip (.addr (Fin.last nDirect)) b r₁.2.2 r₁.2.1 :=
      (hs₁.outcome h).imp (fun h => ⟨h.1, h.2.1⟩) fun hg => ⟨_, hg⟩
    obtain ⟨-, rfl⟩ | ⟨-, -, hs⟩ := hrest
    · exact hfirst
    · obtain ⟨rfl, hdisk⟩ := hs.of_zero (hs₁.maps h).1
      exact hfirst.imp (fun h => ⟨h.1, hdisk.trans h.2⟩) fun ⟨b, hg⟩ => ⟨b, hg.of_disk_eq hdisk⟩

variable {off : ℕ}

theorem writeLoop_inBlock {src : ℕ → Option UInt8} {bs : List UInt8}
    (hin : off % bSize + bs.length ≤ bSize) (hpos : 0 < bs.length)
    (hsrc : ∀ t < bs.length, src t = bs[t]?) {a : ℕ} {ip₁ : Dinode} {st₁ : Store}
    (hmap : bmap sb i ip st (off / bSize) = .ok (a, ip₁, st₁)) :
    writeLoop sb i src bs.length bs.length 0 off ip st =
      if a = 0 then .ok (0, off, ip₁, st₁)
      else .ok (bs.length, off + bs.length, ip₁,
        st₁.put a (copyin src bs.length (off % bSize) 0 (st₁.disk a)).1) := by
  have hchunk : chunk bs.length off = bs.length := min_eq_left (by omega)
  have hok := (copyin_inside src bs.length (off % bSize) 0 (st₁.disk a) hin
    fun t ht => by rw [Nat.zero_add, hsrc t ht]; simp [ht]).1
  obtain ⟨k, hk⟩ := Nat.exists_eq_add_one.mpr hpos
  have hlast (tot off' : ℕ) (ip' : Dinode) (st' : Store) (htot : bs.length ≤ tot) :
      writeLoop sb i src bs.length k tot off' ip' st' = .ok (tot, off', ip', st') := by
    cases k with
    | zero => rfl
    | succ k => rw [writeLoop, if_neg (by omega)]
  have hstart : writeLoop sb i src bs.length bs.length 0 off ip st =
      writeLoop sb i src bs.length (k + 1) 0 off ip st := by rw [← hk]
  rw [hstart, writeLoop, if_pos hpos, hmap]
  simp only [bind, Except.bind, Nat.sub_zero, hchunk, hok, if_true, Nat.zero_add]
  rw [hlast _ _ _ _ le_rfl]

structure Attached (disk : Disk) (ip : Dinode) (disk' : Disk) (ip' : Dinode) : Prop where
  fields : ip' = { ip with addrs := ip'.addrs }
  kept : ∀ q, ptr disk ip q ≠ 0 → ptr disk' ip' q = ptr disk ip q
  rest : ∀ q, q ≠ .addr (Fin.last nDirect) → ptr disk' ip' q = ptr disk ip q
  contents_eq : contents disk' ip' = contents disk ip

/-- What a write of `bs` at `off` did: everything, or nothing but perhaps getting an indirect
block. -/
structure BlockWrite (sb : Superblock) (st : Store) (i : ℕ) (ip : Dinode) (off : ℕ)
    (bs : List UInt8) (r : ℤ) (ip' : Dinode) (st' : Store) : Prop where
  owned : Owned sb st' i ip'
  holeFree : HoleFree st'.disk ip'
  on_disk : dinode sb st'.disk i = ip'
  others : ∀ j < sb.ninodes, j ≠ i → SameInode sb st.disk st'.disk j
  fields : ip' = { ip with addrs := ip'.addrs, size := ip'.size }
  done : r = bs.length → ip'.size = max ip.size (off + bs.length) ∧
    contents st'.disk ip' = splice (contents st.disk ip) off bs
  failed : r ≠ bs.length → Attached st.disk ip st'.disk ip'

def NoRoom (sb : Superblock) (st : Store) (i : ℕ) (ip : Dinode) (off n : ℕ) : Prop :=
  maxFile * bSize < off + n ∨ ∃ ip' st', bmap sb i ip st (off / bSize) = .ok (0, ip', st')

theorem Attached.refl (disk : Disk) (ip : Dinode) : Attached disk ip disk ip :=
  ⟨rfl, fun _ _ => rfl, fun _ _ => rfl, rfl⟩

theorem Wrote.done {bs : List UInt8} (h : Wrote sb st i ip off bs bs.length ip' st') :
    BlockWrite sb st i ip off bs bs.length ip' st' := by
  have hcontents := h.contents_eq
  rw [List.take_length] at hcontents
  exact ⟨h.owned, h.holeFree, h.on_disk, h.others, h.fields, fun _ => ⟨h.size, hcontents⟩,
    fun hr => absurd rfl hr⟩

theorem Wrote.failed {bs : List UInt8} {ip₁ : Dinode} {st₁ : Store}
    (hw : Wrote sb st i ip off bs 0 { ip₁ with size := max ip₁.size off }
      (st₁.iupdate sb i { ip₁ with size := max ip₁.size off }))
    (h : Owned sb st i ip) (h₁ : Owned sb st₁ i ip₁) (hext : Extends sb st ip st₁ ip₁)
    (hoff : off ≤ ip.size) (hpos : 0 < bs.length)
    (hmap : bmap sb i ip st (off / bSize) = .ok (0, ip₁, st₁)) :
    BlockWrite sb st i ip off bs 0 { ip₁ with size := max ip₁.size off }
      (st₁.iupdate sb i { ip₁ with size := max ip₁.size off }) := by
  refine ⟨hw.owned, hw.holeFree, hw.on_disk, hw.others, hw.fields, fun hr => ?_, fun _ =>
    ⟨?_, fun q hq => ?_, fun q hq => ?_, ?_⟩⟩
  · exact absurd hr (by omega)
  · rw [hext.fields]
    simp [hoff]
  · rw [h₁.ptr_iupdate, hext.kept q hq]
  · rw [h₁.ptr_iupdate]
    rcases bmap_zero h hmap with ⟨rfl, hdisk⟩ | ⟨b, hg⟩
    · rw [hdisk]
    · rw [hg.ptr_eq, update_of_ne hq]
  · rw [hw.contents_eq]
    simp [splice]

theorem writei_inBlock (h : Owned sb st i ip) (hfree : HoleFree st.disk ip)
    (hdisk : dinode sb st.disk i = ip) {src : ℕ → Option UInt8} {bs : List UInt8}
    (hoff : off ≤ ip.size) (hin : off % bSize + bs.length ≤ bSize) (hpos : 0 < bs.length)
    (hsrc : ∀ t < bs.length, src t = bs[t]?) :
    ∃ r ip' st', writeiBlocks sb i ip st src off bs.length = .ok (r, ip', st') ∧
      BlockWrite sb st i ip off bs r ip' st' ∧
      (r = bs.length ↔ ¬NoRoom sb st i ip off bs.length) := by
  have hmax : maxFile * bSize = 274432 := by decide
  have hle := hfree.size_le
  have hblock : bSize = 1024 := rfl
  have hmod : (off + bs.length) % 2 ^ 32 = off + bs.length := Nat.mod_eq_of_lt (by omega)
  rw [writeiBlocks, if_neg (by omega), hmod]
  by_cases hbig : maxFile * bSize < off + bs.length
  · rw [if_pos hbig]
    refine ⟨-1, ip, st, rfl, ⟨h, hfree, hdisk, fun j _ _ => .refl sb st.disk j, rfl, ?_,
      fun _ => .refl _ _⟩, ?_⟩
    · intro hr
      exact absurd hr (by omega)
    · simp only [NoRoom, hbig, true_or, not_true_eq_false, iff_false]
      omega
  · rw [if_neg hbig]
    have hbn : off / bSize < maxFile := by
      have hmf : maxFile = 268 := by decide
      rw [hblock]
      omega
    obtain ⟨⟨a, ip₁, st₁⟩, hmap⟩ := bmap_ok sb i ip st hbn
    obtain ⟨h₁, hmaps, -⟩ := bmap_maps h hmap
    have hloop := writeLoop_inBlock hin hpos hsrc hmap
    have hwrites := writeLoop_writes h src (n := bs.length) bs.length 0 off (by omega) (by omega)
    rw [hloop] at hwrites ⊢
    split_ifs at hwrites ⊢ with ha
    · subst ha
      refine ⟨0, _, _, rfl, Wrote.failed ?_ h h₁ hmaps.ext hoff hpos hmap, ?_⟩
      · exact LoopWrites.wrote hwrites h hfree hoff (by omega) hsrc
      · have hno : NoRoom sb st i ip off bs.length := .inr ⟨ip₁, st₁, hmap⟩
        simp only [hno, not_true_eq_false, iff_false]
        omega
    · refine ⟨bs.length, _, _, rfl, Wrote.done ?_, ?_⟩
      · exact LoopWrites.wrote hwrites h hfree hoff (by omega) hsrc
      · simp only [true_iff]
        rintro (hno | ⟨ip₂, st₂, hno⟩)
        · exact hbig hno
        · rw [hmap] at hno
          cases hno
          exact ha rfl

/-- The entry with index `n` in the bytes of a directory. -/
def direntAt (cs : List UInt8) (n : ℕ) : Dirent :=
  decodeDirent ((cs.drop (n * direntSize)).take direntSize)

def dirents (cs : List UInt8) : List Dirent :=
  (List.range (cs.length / direntSize)).map (direntAt cs)

def Dirent.slot (de : Dirent) : Option (Name × ℕ) :=
  if de.inum = 0 then none else some (de.name, de.inum)

def slots (cs : List UInt8) : Slots Name ℕ := (dirents cs).map Dirent.slot

@[simp] theorem length_dirents (cs : List UInt8) :
    (dirents cs).length = cs.length / direntSize := by simp [dirents]

@[simp] theorem length_slots (cs : List UInt8) : (slots cs).length = cs.length / direntSize := by
  simp [slots]

theorem getElem?_dirents (cs : List UInt8) (n : ℕ) :
    (dirents cs)[n]? = if n < cs.length / direntSize then some (direntAt cs n) else none := by
  rw [dirents, List.getElem?_map]
  split
  · rw [List.getElem?_range ‹_›]
    rfl
  · rw [List.getElem?_eq_none (by simpa using Nat.le_of_not_lt ‹_›)]
    rfl

variable {cs bs : List UInt8}

theorem getElem?_splice (hoff : off ≤ cs.length) (x : ℕ) : (splice cs off bs)[x]? =
      if off ≤ x ∧ x < off + bs.length then bs[x - off]? else cs[x]? := by
  rw [splice, List.append_assoc, List.getElem?_append, List.getElem?_append]
  simp only [List.length_take, Nat.min_eq_left hoff, List.getElem?_take, List.getElem?_drop]
  by_cases hlt : x < off
  · rw [if_pos hlt, if_pos hlt, if_neg (by omega)]
  · rw [if_neg hlt]
    split_ifs with h₁ h₂ h₂
    · rfl
    · omega
    · omega
    · congr 1
      omega

theorem length_splice (hoff : off ≤ cs.length) :
    (splice cs off bs).length = max cs.length (off + bs.length) := by
  simp only [splice, List.length_append, List.length_take, List.length_drop]
  omega

theorem direntAt_splice {n : ℕ} (hn : n * direntSize ≤ cs.length) (hbs : bs.length = direntSize)
    (m : ℕ) : direntAt (splice cs (n * direntSize) bs) m =
      if m = n then decodeDirent bs else direntAt cs m := by
  have hget (k : ℕ) (hk : k < direntSize) : (splice cs (n * direntSize) bs)[m * direntSize + k]? =
      if m = n then bs[k]? else cs[m * direntSize + k]? := by
    have hinside : n * direntSize ≤ m * direntSize + k ∧
        m * direntSize + k < n * direntSize + direntSize ↔ m = n := by
      simp only [direntSize] at *
      omega
    rw [getElem?_splice hn, hbs]
    by_cases hmn : m = n
    · rw [if_pos hmn, if_pos (hinside.mpr hmn), hmn, Nat.add_sub_cancel_left]
    · rw [if_neg hmn, if_neg (mt hinside.mp hmn)]
  split
  · rw [direntAt]
    congr 1
    refine List.ext_getElem? fun k => ?_
    rw [List.getElem?_take, List.getElem?_drop]
    split
    · rw [hget k ‹_›, if_pos ‹_›]
    · rw [List.getElem?_eq_none (by omega)]
  · rw [direntAt, direntAt]
    congr 1
    refine List.ext_getElem? fun k => ?_
    rw [List.getElem?_take, List.getElem?_take, List.getElem?_drop, List.getElem?_drop]
    split
    · rw [hget k ‹_›, if_neg ‹_›]
    · rfl

theorem slots_splice (hcs : direntSize ∣ cs.length) {n : ℕ} (hn : n * direntSize ≤ cs.length)
    (hbs : bs.length = direntSize) :
    slots (splice cs (n * direntSize) bs) = fill (slots cs) n (decodeDirent bs).slot := by
  obtain ⟨k, hk⟩ := hcs
  have hlen : cs.length / direntSize = k := by rw [hk, Nat.mul_div_cancel_left _ (by decide)]
  have hnk : n ≤ k := by
    simp only [direntSize] at *
    omega
  have hlen' : max cs.length (n * direntSize + direntSize) / direntSize = max k (n + 1) := by
    simp only [direntSize] at *
    omega
  refine List.ext_getElem? fun m => ?_
  rw [getElem?_fill (by rw [length_slots, hlen]; exact hnk), slots, slots, List.getElem?_map,
    List.getElem?_map, getElem?_dirents, getElem?_dirents, direntAt_splice hn hbs,
    length_splice hn, hbs, hlen, hlen']
  by_cases hmn : m = n
  · rw [if_pos hmn, if_pos hmn, if_pos (by omega)]
    rfl
  · rw [if_neg hmn, if_neg hmn]
    congr 1
    by_cases hmk : m < k
    · rw [if_pos hmk, if_pos (by omega)]
    · rw [if_neg hmk, if_neg (by omega)]

end Xv6.Fs
