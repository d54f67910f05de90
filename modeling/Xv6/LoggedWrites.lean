import Mathlib.Data.Finset.Card
import Xv6.FileWrites

/-!
# The blocks that a write passes to `log_write`

Every block that `bmap` changes is passed to `log_write`. When the blocks of a file cover its size,
the blocks that one chunk of `filewrite` logs are few enough for one operation.
-/

namespace Xv6.Fs
open Function

open LittleEndianBlocks OperationPrograms

variable {sb : Superblock} {st st' : Store} {i : ℕ} {ip ip' : Dinode}

/-- The blocks `new` were passed to `log_write`, the last one first, and no others changed. -/
structure Logged (st st' : Store) (new : List ℕ) : Prop where
  log : st'.log = new ++ st.log
  frame : ∀ x ∉ new, st'.disk x = st.disk x

namespace Logged

variable {new new' : List ℕ}

theorem of_eq (hlog : st'.log = st.log) (hdisk : st'.disk = st.disk) : Logged st st' [] :=
  ⟨hlog, fun _ _ => congrFun hdisk _⟩

theorem trans {st'' : Store} (h : Logged st st' new) (h' : Logged st' st'' new') :
    Logged st st'' (new' ++ new) where
  log := by rw [h'.log, h.log, List.append_assoc]
  frame x hx := by
    rw [List.mem_append, not_or] at hx
    rw [h'.frame x hx.1, h.frame x hx.2]

theorem put (st : Store) (x : ℕ) (blk : Block) : Logged st (st.put x blk) [x] :=
  ⟨rfl, fun _ hy => update_of_ne (List.ne_of_not_mem_cons hy) _ _⟩

theorem iupdate (sb : Superblock) (st : Store) (i : ℕ) (ip : Dinode) :
    Logged st (st.iupdate sb i ip) [sb.iblock i] :=
  ⟨rfl, fun _ hy => update_of_ne (List.ne_of_not_mem_cons hy) _ _⟩

end Logged

/-- `writei` returns before it does anything. -/
def Refused (ip : Dinode) (off n : ℕ) : Prop :=
  (ip.size < off ∨ (off + n) % 2 ^ 32 < off) ∨ maxFile * bSize < (off + n) % 2 ^ 32

instance (ip : Dinode) (off n : ℕ) : Decidable (Refused ip off n) :=
  inferInstanceAs (Decidable (_ ∨ _))

theorem writeiBlocks_refused {src : ℕ → Option UInt8} {off n : ℕ} (h : Refused ip off n) :
    writeiBlocks sb i ip st src off n = .ok (-1, ip, st) := by
  rw [writeiBlocks]
  rcases h with h | h
  · rw [if_pos h]
  · split_ifs <;> rfl

def WithBit (sb : Superblock) (b x : ℕ) : Prop := x = b ∨ x = sb.bblock b

/-- The blocks that `balloc` logs are the new block, which is cleared, and that of its bit. -/
theorem balloc_logged (sb : Superblock) (st : Store) :
    ∃ new, Logged st (balloc sb st).2 new ∧ (∀ x ∈ new, WithBit sb (balloc sb st).1 x) ∧
      ((balloc sb st).1 ≠ 0 → (balloc sb st).1 ∈ new ∧
        (balloc sb st).2.disk (balloc sb st).1 = fun _ => 0) := by
  simp only [balloc]
  split_ifs
  · exact ⟨[], .of_eq rfl rfl, List.forall_mem_nil _, fun h => absurd rfl h⟩
  · split
    · exact ⟨[], .of_eq rfl rfl, List.forall_mem_nil _, fun h => absurd rfl h⟩
    · next b _ =>
      have hlogged : Logged { st with calls := st.calls + 1 } _ ([b] ++ [sb.bblock b]) :=
        (Logged.put _ _ (setBit (st.disk (sb.bblock b)) (b % bpb))).trans (.put _ b fun _ => 0)
      refine ⟨[b, sb.bblock b], ⟨hlogged.log, hlogged.frame⟩, fun x hx => ?_,
        fun _ => ⟨List.mem_cons_self, update_self ..⟩⟩
      simpa [WithBit] using hx

theorem ballocFor_fst (sb : Superblock) (inum : ℕ) (ip : Dinode) (st : Store) :
    (ballocFor sb inum ip st).1 = (balloc sb st).1 := by
  simp only [ballocFor]
  split <;> rfl

theorem ballocFor_logged (sb : Superblock) (i : ℕ) (ip : Dinode) (st : Store) :
    ∃ new, Logged st (ballocFor sb i ip st).2 new ∧
      (∀ x ∈ new, WithBit sb (ballocFor sb i ip st).1 x) ∧
      ((ballocFor sb i ip st).1 ≠ 0 → (ballocFor sb i ip st).1 ∈ new ∧
        (ballocFor sb i ip st).2.disk (ballocFor sb i ip st).1 = fun _ => 0) := by
  obtain ⟨new, hlogged, hmem, hclear⟩ := balloc_logged sb st
  simp only [ballocFor]
  split_ifs
  · exact ⟨new, hlogged, hmem, hclear⟩
  · exact ⟨new, ⟨hlogged.log, hlogged.frame⟩, hmem, hclear⟩

variable {q : Pos} {r : ℕ × Dinode × Store} {bn : ℕ}

theorem Resolves.logged (hs : Resolves sb i st ip q r) :
    ∃ new, Logged st r.2.2 new ∧
      (∀ x ∈ new, WithBit sb r.1 x ∨ ip.indirect ≠ 0 ∧ x = ip.indirect) ∧
      (ptr st.disk ip q = 0 → r.1 ≠ 0 → r.1 ∈ new) := by
  obtain ⟨new, hlogged, hmem, hclear⟩ := ballocFor_logged sb i ip st
  cases hs with
  | found hq => exact ⟨[], .of_eq rfl rfl, nofun, fun h => absurd h hq⟩
  | refused _ hb => exact ⟨new, hlogged, fun x hx => .inl (hb ▸ hmem x hx), fun _ h => absurd rfl h⟩
  | addr _ hb => exact ⟨new, hlogged, fun x hx => .inl (hmem x hx), fun _ _ => (hclear hb).1⟩
  | entry hind _ _ hb =>
    refine ⟨ip.indirect :: new, hlogged.trans (.put _ ip.indirect _), fun x hx => ?_, fun _ _ => ?_⟩
    · exact (List.mem_cons.mp hx).elim (fun hx => .inr ⟨hind, hx⟩) fun hx => .inl (hmem x hx)
    · exact List.mem_cons_of_mem _ (hclear hb).1

theorem Resolves.indirect (hs : Resolves sb i st ip q r) (hne : ip.indirect ≠ 0) :
    r.2.1.indirect = ip.indirect := by
  cases hs with
  | found => rfl
  | refused => rfl
  | entry => rfl
  | addr hk =>
    refine update_of_ne ?_ _ _
    rintro rfl
    exact hne hk

/-- A new indirect block has no entry. -/
theorem Resolves.entry_eq_zero (hs : Resolves sb i st ip (.addr (Fin.last nDirect)) r) {j : ℕ}
    (hz : ptr st.disk ip (.entry j) = 0) : ptr r.2.2.disk r.2.1 (.entry j) = 0 := by
  cases hs with
  | found => exact hz
  | refused h => exact if_pos (.inl h)
  | addr _ hb =>
    obtain ⟨new, -, -, hclear⟩ := ballocFor_logged sb i ip st
    simp only [ptr, entryAt, Dinode.indirect, update_self, (hclear hb).2]
    split
    · rfl
    · exact getField_zero _ _

/-- The blocks that `bmap` logs: the block that it returns and the indirect block, each with the
block of its bit. If the file had no block there, then the block that it returns is one of them. -/
theorem bmap_logged (hr : bmap sb i ip st bn = .ok r) :
    ∃ new, Logged st r.2.2 new ∧
      (∀ x ∈ new, WithBit sb r.1 x ∨ r.2.1.indirect ≠ 0 ∧ WithBit sb r.2.1.indirect x) ∧
      (ptr st.disk ip (dataPos bn) = 0 → r.1 ≠ 0 → r.1 ∈ new) := by
  have hkept {st₁ : Store} {ip₁ : Dinode} {q : Pos} (hs : Resolves sb i st₁ ip₁ q r) {x : ℕ}
      (hx : WithBit sb r.1 x ∨ ip₁.indirect ≠ 0 ∧ x = ip₁.indirect) :
      WithBit sb r.1 x ∨ r.2.1.indirect ≠ 0 ∧ WithBit sb r.2.1.indirect x :=
    hx.imp_right fun ⟨hne, hx⟩ => by
      rw [hs.indirect hne]
      exact ⟨hne, .inl hx⟩
  obtain ⟨-, hs⟩ | ⟨hge, r₁, hs₁, hrest⟩ := bmap_resolves hr
  · obtain ⟨new, hlogged, hmem, hnew⟩ := hs.logged
    exact ⟨new, hlogged, fun x hx => hkept hs (hmem x hx), hnew⟩
  · obtain ⟨new₁, hlogged₁, hmem₁, -⟩ := hs₁.logged
    obtain ⟨h0, rfl⟩ | ⟨h0, hind, hs⟩ := hrest
    · exact ⟨new₁, hlogged₁, fun x hx => hkept hs₁ (hmem₁ x hx), fun _ hne => absurd h0 hne⟩
    · obtain ⟨new, hlogged, hmem, hnew⟩ := hs.logged
      have hlast : r.2.1.indirect = r₁.1 := (hs.indirect (hind ▸ h0)).trans hind
      refine ⟨new ++ new₁, hlogged₁.trans hlogged, fun x hx => ?_, fun hzero hne =>
        List.mem_append_left _ (hnew ?_ hne)⟩
      · rcases List.mem_append.mp hx with hx | hx
        · exact hkept hs (hmem x hx)
        · rw [hlast]
          refine .inr ⟨h0, (hmem₁ x hx).elim id fun ⟨hne, hx⟩ => .inl ?_⟩
          rw [hx, ← hs₁.indirect hne, hind]
      · rw [dataPos, if_neg (by omega)] at hzero ⊢
        exact hs₁.entry_eq_zero hzero

theorem bmap_indirect (hr : bmap sb i ip st bn = .ok r) (hne : ip.indirect ≠ 0) :
    r.2.1.indirect = ip.indirect := by
  obtain ⟨-, hs⟩ | ⟨-, r₁, hs₁, ⟨-, rfl⟩ | ⟨-, -, hs⟩⟩ := bmap_resolves hr
  · exact hs.indirect hne
  · exact hs₁.indirect hne
  · have hind := hs₁.indirect hne
    exact (hs.indirect (hind ▸ hne)).trans hind

/-- The number of blocks that `left` bytes from `off` on touch. -/
def spans (left off : ℕ) : ℕ := if left = 0 then 0 else (off % bSize + left - 1) / bSize + 1

theorem spans_chunk {left off : ℕ} (h : 0 < left) :
    spans left off = spans (left - chunk left off) (off + chunk left off) + 1 := by
  by_cases hle : left ≤ bSize - off % bSize
  · rw [chunk, min_eq_left hle, spans, spans, if_neg (by omega), if_pos (by omega)]
    simp only [bSize] at *
    omega
  · rw [chunk, min_eq_right (by omega), spans, spans, if_neg (by omega), if_neg (by omega)]
    simp only [bSize] at *
    omega

/-- What the loop of `writei` may log for `left` bytes from `off` on: two blocks for each block
that it writes, but only one for a first block that the file had, and two for the indirect
block. -/
def LogsFor (sb : Superblock) (st : Store) (ip : Dinode) (left off : ℕ) (st' : Store) : Prop :=
  ∃ (new : List ℕ) (ind : ℕ) (S : Finset ℕ), st'.log = new ++ st.log ∧
    (ip.indirect ≠ 0 → ind = ip.indirect) ∧ S.card ≤ 2 * spans left off ∧
    (0 < left → ptr st.disk ip (dataPos (off / bSize)) ≠ 0 → S.card < 2 * spans left off) ∧
    ∀ x ∈ new, x ∈ S ∨ WithBit sb ind x

theorem LogsFor.of_log_eq {left off : ℕ} (h : st'.log = st.log) :
    LogsFor sb st ip left off st' := by
  refine ⟨[], ip.indirect, ∅, h, fun _ => rfl, Nat.zero_le _, fun hpos _ => ?_, nofun⟩
  rw [spans_chunk hpos, Finset.card_empty]
  omega

theorem Round.found_of_mapped {n tot off a : ℕ} {ip₁ : Dinode} {st₁ : Store}
    (hr : Round sb i n tot off ip st a ip₁ st₁)
    (hm : ptr st.disk ip (dataPos (off / bSize)) ≠ 0) :
    ptr st.disk ip (dataPos (off / bSize)) = a ∧ ip = ip₁ ∧ st = st₁ := by
  have hfound := hr.found
  rw [bmap_mapped st i hr.bn_lt hm] at hfound
  simpa using hfound

/-- The loop ends in this round. -/
theorem Round.logsFor {n tot off a : ℕ} {ip₁ : Dinode} {st₁ : Store}
    (hr : Round sb i n tot off ip st a ip₁ st₁) (hlog : st'.log = st₁.log) :
    LogsFor sb st ip (n - tot) off st' := by
  have hlt := hr.lt
  by_cases hm : ptr st.disk ip (dataPos (off / bSize)) = 0
  · obtain ⟨new, hlogged, hmem, -⟩ := bmap_logged hr.found
    refine ⟨new, ip₁.indirect, {a, sb.bblock a}, hlog.trans hlogged.log,
      bmap_indirect hr.found, ?_, fun _ hne => absurd hm hne, fun x hx => ?_⟩
    · rw [spans_chunk (by omega)]
      exact Finset.card_le_two.trans (by omega)
    · exact (hmem x hx).imp (fun hw => by simpa [WithBit] using hw) And.right
  · obtain ⟨-, -, rfl⟩ := hr.found_of_mapped hm
    exact .of_log_eq hlog

theorem Round.logsFor_next {n tot off a m : ℕ} {ip₁ : Dinode} {st₁ : Store} {blk : Block}
    (hr : Round sb i n tot off ip st a ip₁ st₁) (hm : chunk (n - tot) off = m)
    (h : LogsFor sb (st₁.put a blk) ip₁ (n - (tot + m)) (off + m) st') :
    LogsFor sb st ip (n - tot) off st' := by
  have hlt := hr.lt
  have hspans : spans (n - tot) off = spans (n - (tot + m)) (off + m) + 1 := by
    rw [spans_chunk (by omega), hm, Nat.sub_add_eq]
  obtain ⟨new', ind, S, hlog, hsame, hcard, -, hsub⟩ := h
  by_cases hzero : ptr st.disk ip (dataPos (off / bSize)) = 0
  · obtain ⟨new, hlogged, hmem, -⟩ := bmap_logged hr.found
    have hind (hne : ip.indirect ≠ 0) := bmap_indirect hr.found hne
    dsimp only at hlogged hmem hind
    refine ⟨new' ++ (a :: new), ind, {a, sb.bblock a} ∪ S, ?_, fun hne => ?_, ?_,
      fun _ hne => absurd hzero hne, fun x hx => ?_⟩
    · rw [hlog, (hlogged.trans (.put _ a _)).log]
      simp
    · rw [hsame (by rw [hind hne]; exact hne), hind hne]
    · have hunion := Finset.card_union_le {a, sb.bblock a} S
      have hpair : ({a, sb.bblock a} : Finset ℕ).card ≤ 2 := Finset.card_le_two
      omega
    · rcases List.mem_append.mp hx with hx | hx
      · exact (hsub x hx).imp_left fun h => Finset.mem_union_right _ h
      · rcases List.mem_cons.mp hx with rfl | hx
        · exact .inl (Finset.mem_union_left _ (by simp))
        · rcases hmem x hx with hw | ⟨hne, hw⟩
          · exact .inl (Finset.mem_union_left _ (by simpa [WithBit] using hw))
          · exact .inr (hsame hne ▸ hw)
  · obtain ⟨-, rfl, rfl⟩ := hr.found_of_mapped hzero
    have hinsert := Finset.card_insert_le a S
    refine ⟨new' ++ [a], ind, insert a S, by simp [hlog, Store.put], hsame, by omega,
      fun _ _ => by omega, fun x hx => ?_⟩
    rcases List.mem_append.mp hx with hx | hx
    · exact (hsub x hx).imp_left (Finset.mem_insert_of_mem ·)
    · exact .inl (by simp [List.mem_singleton.mp hx])

theorem writeLoop_logs (src : ℕ → Option UInt8) {n : ℕ} (fuel tot off : ℕ)
    (hfuel : n - tot ≤ fuel) (hend : off + (n - tot) ≤ maxFile * bSize) :
    Ends (fun _ => False) (fun r => LogsFor sb st ip (n - tot) off r.2.2.2)
      (writeLoop sb i src n fuel tot off ip st) := by
  refine writeLoop_rule sb i src
    (P := fun tot off ip st r => LogsFor sb st ip (n - tot) off r.2.2.2)
    ?_ ?_ ?_ ?_ fuel tot off hfuel hend
  · intro tot off ip st _
    exact .of_log_eq rfl
  · intro tot off ip st ip₁ st₁ hr
    exact hr.logsFor rfl
  · intro tot off ip st a ip₁ st₁ hr _ _
    exact hr.logsFor rfl
  · intro tot off ip st a ip₁ st₁ r hr _ _ ih
    exact hr.logsFor_next rfl ih

theorem LogsFor.card_le {left off : ℕ} (h : LogsFor sb st ip left off st') :
    ∃ new : List ℕ, st'.log = new ++ st.log ∧ new.toFinset.card ≤ 2 * spans left off + 2 ∧
      (0 < left → ptr st.disk ip (dataPos (off / bSize)) ≠ 0 →
        new.toFinset.card ≤ 2 * spans left off + 1) := by
  obtain ⟨new, ind, S, hlog, -, hcard, hfirst, hsub⟩ := h
  have hle : new.toFinset.card ≤ S.card + 2 := by
    have hsubset : new.toFinset ⊆ S ∪ {ind, sb.bblock ind} := by
      intro x hx
      rw [Finset.mem_union]
      exact (hsub x (List.mem_toFinset.mp hx)).imp_right fun hw => by simpa [WithBit] using hw
    calc _ ≤ (S ∪ {ind, sb.bblock ind}).card := Finset.card_le_card hsubset
      _ ≤ S.card + ({ind, sb.bblock ind} : Finset ℕ).card := Finset.card_union_le _ _
      _ ≤ S.card + 2 := Nat.add_le_add_left Finset.card_le_two _
  refine ⟨new, hlog, by omega, fun hpos hm => ?_⟩
  have hlt := hfirst hpos hm
  omega

/-- One chunk of `filewrite` fits in the log space of one operation. -/
theorem card_filewrite_log_le (h : HoleFree st.disk ip) (src : ℕ → Option UInt8) (off : ℕ)
    {n : ℕ} (hn : n ≤ maxWrite) :
    ∃ r new, writeiBlocks sb i ip st src off n = .ok r ∧ r.2.2.log = new ++ st.log ∧
      new.toFinset.card ≤ maxOpBlocks := by
  by_cases hrefused : Refused ip off n
  · refine ⟨_, [], writeiBlocks_refused hrefused, rfl, by simp⟩
  · have hok := hrefused
    simp only [Refused, not_or, not_lt] at hok
    have hsize := h.size_le
    have hmax : maxFile * bSize = 274432 := by decide
    have hmaxWrite : maxWrite = 3072 := by decide
    have hend : off + n ≤ maxFile * bSize := by omega
    have hops : maxOpBlocks = 10 := rfl
    have hlogs : Ends (fun _ => False) (fun r => LogsFor sb st ip n off r.2.2.2)
        (writeLoop sb i src n n 0 off ip st) := writeLoop_logs src n 0 off le_rfl hend
    obtain ⟨r, hr, hlogs⟩ := hlogs.exists_ok
    obtain ⟨new, hlog, hle, hfirst⟩ := hlogs.card_le
    have hcard : new.toFinset.card ≤ 9 := by
      by_cases hfew : spans n off ≤ 3
      · omega
      · have hpos : 0 < n := by
          rw [Nat.pos_iff_ne_zero]
          rintro rfl
          simp [spans] at hfew
        have hmany : off % bSize ≠ 0 ∧ spans n off ≤ 4 := by
          rw [spans, if_neg (by omega)] at hfew ⊢
          simp only [bSize] at *
          omega
        -- a write that begins in the middle of a block finds that block in the file
        have hm : ptr st.disk ip (dataPos (off / bSize)) ≠ 0 := by
          refine h.mapped _ ?_
          simp only [bSize] at *
          omega
        have hle' := hfirst hpos hm
        omega
    have hrun : writeiBlocks sb i ip st src off n =
        .ok (r.1, { r.2.2.1 with size := max r.2.2.1.size r.2.1 },
          r.2.2.2.iupdate sb i { r.2.2.1 with size := max r.2.2.1.size r.2.1 }) := by
      rw [writeiBlocks, if_neg (by omega), if_neg (by omega), hr]
      rfl
    refine ⟨_, sb.iblock i :: new, hrun, ?_, ?_⟩
    · simp [Store.iupdate, hlog]
    · have hinsert := Finset.card_insert_le (sb.iblock i) new.toFinset
      rw [List.toFinset_cons]
      omega

def fourBytes : Dinode := ⟨tFile, 0, 0, 1, 4, fun k => if k = 0 then 3 else 0⟩

def fourBytesStore : Store where
  disk
    | 1 => encodeDinode (fun _ => 0) (2 * dinodeSize) fourBytes
    | 2 => putByte (fun _ => 0) 0 0b1111
    | _ => fun _ => 0
  deny _ := false
  calls := 0
  grants := []
  log := []

theorem fourBytes_holeFree : HoleFree fourBytesStore.disk fourBytes := by
  refine ⟨by decide, fun bn hbn => ?_⟩
  obtain rfl : bn = 0 := by
    simp only [fourBytes, bSize] at hbn
    omega
  decide

/-- A write of 3000 bytes needs three new blocks, of which the disk has two. Beside the block of the
bitmap and that of the inode, four blocks are logged. -/
theorem card_filewrite_log_le_fourBytes :
    ∃ r new, writeiBlocks smallSuperblock 2 fourBytes fourBytesStore (fun _ => some 7) 3 3000 =
        .ok r ∧ r.2.2.log = new ++ fourBytesStore.log ∧ new.toFinset.card ≤ maxOpBlocks :=
  card_filewrite_log_le fourBytes_holeFree _ _ (by decide)

theorem fourBytes_dinode : dinode smallSuperblock fourBytesStore.disk 2 = fourBytes := by
  have hfits : fourBytes.Fits := ⟨by decide, by decide⟩
  have hblock : smallSuperblock.iblock 2 = 1 := by decide
  have hoff : 2 % ipb * dinodeSize = 2 * dinodeSize := by decide
  rw [dinode, hblock, hoff]
  exact decodeDinode_encodeDinode_self _ hfits (by decide)

theorem fourBytes_owns {o : ℕ × Pos} {b : ℕ}
    (h : owns smallSuperblock fourBytesStore.disk
      (update (dinode smallSuperblock fourBytesStore.disk) 2 fourBytes) o = some b) :
    o = (2, .addr 0) ∧ b = 3 := by
  have hused : ∀ i < smallSuperblock.ninodes,
      (dinode smallSuperblock fourBytesStore.disk i).type ≠ 0 → i = 2 := by
    decide +kernel
  obtain ⟨i, q⟩ := o
  rw [← fourBytes_dinode, update_eq_self] at h
  obtain ⟨⟨hi, ht⟩, rfl, hb⟩ := owns_eq_some.mp h
  obtain rfl := hused i hi ht
  rw [fourBytes_dinode] at hb ⊢
  cases q with
  | addr k =>
    have hk : k = 0 := by
      by_contra hk
      exact hb (if_neg hk)
    exact ⟨by rw [hk], if_pos hk⟩
  | entry j => exact absurd (if_pos (Or.inl rfl) : entryAt fourBytesStore.disk 0 j = 0) hb

theorem fourBytes_owned : Owned smallSuperblock fourBytesStore 2 fourBytes where
  exact :=
    { inPool := fun h => (fourBytes_owns h).2 ▸ ⟨by decide, by decide⟩
      inj := fun h h' => (fourBytes_owns h).1.trans (fourBytes_owns h').1.symm
      used_iff := fun {b} hb => by
        have hbits : ∀ b < 6, 3 ≤ b →
            (bit smallSuperblock fourBytesStore.disk b = true ↔ b = 3) := by
          decide +kernel
        rw [hbits b hb.2 hb.1]
        constructor
        · rintro rfl
          refine ⟨(2, .addr 0), owns_eq_some.mpr ?_⟩
          rw [update_self]
          decide
        · rintro ⟨o, ho⟩
          exact (fourBytes_owns ho).2 }
  meta_used := by decide +kernel
  alloc := by decide

end Xv6.Fs
