import Xv6.FileArrays

/-!
# What a short write leaves behind

The blocks that `writei` passes to `log_write` are all blocks that it changed, and the bytes that
it reports are all bytes of the file that it changed, unless the copy from user memory that ends its
loop has changed a block before it failed.
-/

namespace Xv6.Fs
open Function

open LittleEndianBlocks OperationPrograms

variable {sb : Superblock} {st st' : Store} {i : ℕ} {ip ip' : Dinode}

/-- A write at `off` reaches byte `k`, the first one of its source that is not mapped, in a block
that the file had before, after it has changed an earlier byte of the block. -/
structure TornAt (sb : Superblock) (ip : Dinode) (st : Store) (src : ℕ → Option UInt8)
    (off n k : ℕ) : Prop where
  lt : k < n
  unmapped : src k = none
  before : ∀ j < k, (src j).isSome
  old : Mapped st.disk ip (off + k)
  differs : ∃ j < k, (off + j) / bSize = (off + k) / bSize ∧
    src j ≠ some (fileByte st.disk ip (off + j))
  granted : Granted sb st (missing st.disk ip
    (List.range' (off / bSize) ((off + k) / bSize - off / bSize)))

/-- The loop of `writei`, which has copied `tot` bytes and goes on at `off`, will be torn. -/
def TornFrom (sb : Superblock) (src : ℕ → Option UInt8) (n tot off : ℕ) (ip : Dinode)
    (st : Store) : Prop := ∃ k, TornAt sb ip st (fun j => src (tot + j)) off (n - tot) k

theorem copyin_stops {src : ℕ → Option UInt8} {m o t : ℕ} {blk : Block}
    (h : (copyin src m o t blk).2 = false) :
    ∃ k < m, src (t + k) = none ∧ (∀ j < k, (src (t + j)).isSome) ∧
      (copyin src m o t blk).1 = (copyin src k o t blk).1 := by
  induction m generalizing o t blk with
  | zero => cases h
  | succ m ih =>
    rw [copyin] at h ⊢
    cases hc : src t with
    | none => exact ⟨0, Nat.succ_pos m, hc, fun j hj => absurd hj (Nat.not_lt_zero j), rfl⟩
    | some c =>
      rw [hc] at h
      obtain ⟨k, hk, hnone, hsome, heq⟩ := ih h
      refine ⟨k + 1, Nat.succ_lt_succ hk, ?_, fun j hj => ?_, ?_⟩
      · rwa [Nat.add_right_comm] at hnone
      · cases j with
        | zero => simp [hc]
        | succ j =>
          rw [← Nat.add_assoc, Nat.add_right_comm]
          exact hsome j (by omega)
      · simp only [copyin, hc]
        exact heq

theorem exists_getByte_ne {n : ℕ} {b b' : Bytes n} (h : b ≠ b') :
    ∃ o < n, getByte b o ≠ getByte b' o := by
  by_contra hnot
  push Not at hnot
  refine h (funext fun k => ?_)
  have hk := hnot k k.isLt
  simpa [getByte] using hk

section Round

variable {src : ℕ → Option UInt8} {n tot off a k m : ℕ} {ip₁ : Dinode} {st₁ : Store} {blk : Block}

theorem TornFrom.lt (h : TornFrom sb src n tot off ip st) : tot < n := by
  obtain ⟨k, hk⟩ := h
  have hlt := hk.lt
  omega

/-- The blocks from that of `off` to that of byte `k`, which lies in a later one. -/
theorem range'_blocks (hk : off / bSize < (off + k) / bSize) :
    List.range' (off / bSize) ((off + k) / bSize - off / bSize) =
      off / bSize :: List.range' (off / bSize + 1) ((off + k) / bSize - (off / bSize + 1)) := by
  rw [← List.range'_succ]
  congr 1
  omega

theorem Round.not_torn (hr : Round sb i n tot off ip st 0 ip₁ st₁) (h : Owned sb st i ip) :
    ¬TornFrom sb src n tot off ip st := by
  rintro ⟨k, hk⟩
  by_cases hblock : (off + k) / bSize = off / bSize
  · have hold := hk.old
    rw [Mapped, hblock] at hold
    exact hold (hr.found_of_mapped hold).1
  · have hle : off / bSize ≤ (off + k) / bSize := Nat.div_le_div_right (Nat.le_add_right _ _)
    have hgranted := hk.granted
    rw [range'_blocks (lt_of_le_of_ne hle (Ne.symm hblock))] at hgranted
    exact hr.ne_zero h hgranted rfl

/-- A round whose copy fails is torn if its block is an old one that the copy has changed. -/
theorem Round.torn_iff (hr : Round sb i n tot off ip st a ip₁ st₁)
    (hfail : (copied src n tot off (st₁.disk a)).2 = false) :
    TornFrom sb src n tot off ip st ↔ ptr st.disk ip (dataPos (off / bSize)) ≠ 0 ∧
      (copied src n tot off (st₁.disk a)).1 ≠ st₁.disk a := by
  obtain ⟨k, hk, hnone, hsome, hcopied⟩ := copyin_stops hfail
  obtain ⟨hle, hm, -⟩ := chunk_bounds (n - tot) off
  have hblock (j : ℕ) (hj : j ≤ k) :
      (off + j) / bSize = off / bSize ∧ (off + j) % bSize = off % bSize + j := by
    simp only [bSize] at *
    omega
  have hbytes := (copyin_inside src k (off % bSize) tot (st₁.disk a) (by omega) hsome).2
  rw [hcopied]
  constructor
  · rintro ⟨k', hk'⟩
    have heq : k' = k := by
      rcases Nat.lt_trichotomy k' k with hlt | heq | hlt
      · have hk'' := hsome k' hlt
        rw [show src (tot + k') = none from hk'.unmapped] at hk''
        cases hk''
      · exact heq
      · have hk'' := hk'.before k hlt
        rw [hnone] at hk''
        cases hk''
    subst heq
    have hold := hk'.old
    rw [Mapped, (hblock k' le_rfl).1] at hold
    obtain ⟨rfl, rfl, rfl⟩ := hr.found_of_mapped hold
    refine ⟨hold, fun hsame => ?_⟩
    obtain ⟨j, hj, -, hne⟩ := hk'.differs
    have hbyte := hbytes j hj
    rw [hsame] at hbyte
    refine hne (hbyte.symm.trans ?_)
    rw [fileByte, (hblock j hj.le).1, (hblock j hj.le).2]
  · rintro ⟨hold, hne⟩
    obtain ⟨rfl, rfl, rfl⟩ := hr.found_of_mapped hold
    obtain ⟨o, ho, hdiff⟩ := exists_getByte_ne hne
    have hin : off % bSize ≤ o ∧ o < off % bSize + k := by
      by_contra hout
      exact hdiff (copyin_outside _ _ _ _ _ (by omega))
    obtain ⟨j, rfl⟩ := Nat.exists_eq_add_of_le hin.1
    have hj : j < k := by omega
    refine ⟨k, by omega, hnone, hsome, ?_, ⟨j, hj, ?_, ?_⟩, ?_⟩
    · rwa [Mapped, (hblock k le_rfl).1]
    · rw [(hblock j hj.le).1, (hblock k le_rfl).1]
    · rw [← hbytes j hj, fileByte, (hblock j hj.le).1, (hblock j hj.le).2]
      exact fun heq => hdiff (Option.some.inj heq)
    · have hnone : missing st.disk ip [] = 0 := by simp [missing]
      rw [(hblock k le_rfl).1, Nat.sub_self, List.range'_zero, hnone]
      exact ⟨fun j hj => absurd hj (Nat.not_lt_zero j), Nat.zero_le _⟩

/-- The blocks behind a round are as they were. -/
theorem Round.later (hr : Round sb i n tot off ip st a ip₁ st₁) (h : Owned sb st i ip)
    (ha : a ≠ 0) {x : ℕ} (hx : x / bSize ≠ off / bSize) :
    (Mapped (st₁.put a blk).disk ip₁ x ↔ Mapped st.disk ip x) ∧
      (Mapped st.disk ip x → fileByte (st₁.put a blk).disk ip₁ x = fileByte st.disk ip x) := by
  obtain ⟨h₁, hmaps, hres, honly⟩ := hr.spec h
  refine ⟨by rw [Mapped, Mapped, h₁.ptr_put (hres ha), honly _ hx], fun hmapped => ?_⟩
  have hput := fileByte_put h₁ (off / bSize) blk (hmaps.ext.mapped hmapped)
  rw [hres ha, if_neg hx] at hput
  rw [hput, hmaps.fileByte h h₁ hmapped]

/-- Behind a round whose copy succeeds, the write is torn at the same byte. -/
theorem Round.tornAt_iff (hr : Round sb i n tot off ip st a ip₁ st₁) (h : Owned sb st i ip)
    (ha : a ≠ 0) (hm : chunk (n - tot) off = m) (hcopied : ∀ j < m, (src (tot + j)).isSome)
    (hk : m + k < n - tot) :
    TornAt sb ip st (fun j => src (tot + j)) off (n - tot) (m + k) ↔
      TornAt sb ip₁ (st₁.put a blk) (fun j => src (tot + m + j)) (off + m) (n - (tot + m)) k := by
  have hnext : (off + m) / bSize = off / bSize + 1 ∧ off / bSize < (off + (m + k)) / bSize ∧
      ∀ j, (off + j) / bSize = (off + (m + k)) / bSize → m ≤ j := by
    have hcut := (chunk_bounds (n - tot) off).2.2
    have hpos : 0 < chunk (n - tot) off := chunk_pos (by omega)
    have hroom := (chunk_bounds (n - tot) off).2.1
    rw [hm] at hcut hpos hroom
    simp only [bSize] at *
    exact ⟨by omega, by omega, fun j hj => by omega⟩
  obtain ⟨hnext, hbig, hsame⟩ := hnext
  have hgranted : Granted sb st (missing st.disk ip
        (List.range' (off / bSize) ((off + (m + k)) / bSize - off / bSize))) ↔
      Granted sb (st₁.put a blk) (missing (st₁.put a blk).disk ip₁
        (List.range' ((off + m) / bSize) ((off + (m + k)) / bSize - (off + m) / bSize))) := by
    rw [range'_blocks hbig, hnext]
    refine hr.granted_iff h ha blk fun bn hbn => ?_
    rw [List.mem_range'_1] at hbn
    omega
  have hold : Mapped (st₁.put a blk).disk ip₁ (off + (m + k)) ↔ Mapped st.disk ip (off + (m + k)) :=
    (hr.later h ha hbig.ne').1
  have hdiffers (hmapped : Mapped st.disk ip (off + (m + k))) (j : ℕ)
      (hj : (off + (m + j)) / bSize = (off + (m + k)) / bSize) :
      fileByte (st₁.put a blk).disk ip₁ (off + (m + j)) = fileByte st.disk ip (off + (m + j)) :=
    (hr.later h ha (hj ▸ hbig.ne')).2 (by rwa [Mapped, hj])
  constructor
  · intro ht
    obtain ⟨j, hj, hblock, hne⟩ := ht.differs
    obtain ⟨j, rfl⟩ := Nat.exists_eq_add_of_le (hsame j hblock)
    refine ⟨by omega, ?_, fun j hj => ?_, ?_, ⟨j, by omega, ?_, ?_⟩, ?_⟩ <;>
      simp only [Nat.add_assoc]
    · exact ht.unmapped
    · exact ht.before (m + j) (by omega)
    · exact hold.mpr ht.old
    · exact hblock
    · rw [hdiffers ht.old j hblock]
      exact hne
    · exact hgranted.mp ht.granted
  · rintro ⟨-, hnone, hsome, hmapped, ⟨j, hj, hblock, hne⟩, hg⟩
    simp only [Nat.add_assoc] at hnone hsome hmapped hblock hne hg
    have hmapped' := hold.mp hmapped
    refine ⟨hk, hnone, fun j hj => ?_, hmapped', ⟨m + j, by omega, hblock, ?_⟩, hgranted.mpr hg⟩
    · by_cases hjm : j < m
      · exact hcopied j hjm
      · have hsome := hsome (j - m) (by omega)
        rwa [show m + (j - m) = j by omega] at hsome
    · rw [← hdiffers hmapped' j hblock]
      exact hne

theorem Round.torn_next (hr : Round sb i n tot off ip st a ip₁ st₁) (h : Owned sb st i ip)
    (ha : a ≠ 0) (hok : (copied src n tot off (st₁.disk a)).2 = true) (blk : Block) :
    TornFrom sb src n tot off ip st ↔ TornFrom sb src n (tot + chunk (n - tot) off)
      (off + chunk (n - tot) off) ip₁ (st₁.put a blk) := by
  have hcopied := copyin_mapped hok
  constructor
  · rintro ⟨k, hk⟩
    have hmk : chunk (n - tot) off ≤ k := by
      by_contra hlt
      have hsome := hcopied k (by omega)
      rw [show src (tot + k) = none from hk.unmapped] at hsome
      cases hsome
    obtain ⟨k, rfl⟩ := Nat.exists_eq_add_of_le hmk
    exact ⟨k, (hr.tornAt_iff h ha rfl hcopied hk.lt).mp hk⟩
  · rintro ⟨k, hk⟩
    have hlt := hk.lt
    exact ⟨_, (hr.tornAt_iff h ha rfl hcopied (by omega)).mpr hk⟩

end Round

/-- What the loop of `writei` has done behind the bytes that it has written: the old bytes are kept
and the blocks that it has changed are logged, or the loop was torn and an old byte has changed. -/
structure Tears (sb : Superblock) (src : ℕ → Option UInt8) (n tot off : ℕ) (ip : Dinode)
    (st : Store) (r : ℕ × ℕ × Dinode × Store) : Prop where
  le : tot ≤ r.1
  logged : ¬TornFrom sb src n tot off ip st → ∃ new, Logged st r.2.2.2 new
  kept : ¬TornFrom sb src n tot off ip st → ∀ x, Mapped st.disk ip x → off + (r.1 - tot) ≤ x →
    fileByte r.2.2.2.disk r.2.2.1 x = fileByte st.disk ip x
  torn : TornFrom sb src n tot off ip st → ∃ x, Mapped st.disk ip x ∧ off + (r.1 - tot) ≤ x ∧
    fileByte r.2.2.2.disk r.2.2.1 x ≠ fileByte st.disk ip x

section Round

variable {src : ℕ → Option UInt8} {n tot off a : ℕ} {ip₁ : Dinode} {st₁ : Store}

theorem Round.tears_fail (hr : Round sb i n tot off ip st a ip₁ st₁) (h : Owned sb st i ip)
    (ha : a ≠ 0) (hfail : (copied src n tot off (st₁.disk a)).2 = false) :
    Tears sb src n tot off ip st
      (tot, off, ip₁, st₁.setData a (copied src n tot off (st₁.disk a)).1) := by
  obtain ⟨h₁, hmaps, hres, -⟩ := hr.spec h
  obtain ⟨new, hlogged, -, hnew⟩ := bmap_logged hr.found
  have hiff := hr.torn_iff hfail
  have hbyte (x : ℕ) (hx : Mapped st.disk ip x) := fileByte_put h₁ (off / bSize)
    (copied src n tot off (st₁.disk a)).1 (hmaps.ext.mapped hx)
  rw [hres ha] at hbyte
  refine ⟨le_rfl, fun hT => ⟨new, hlogged.log, fun x hx => ?_⟩, fun hT x hx _ => ?_, fun hT => ?_⟩
  · rw [hiff, not_and, not_not] at hT
    rw [← hlogged.frame x hx]
    by_cases hxa : x = a
    · subst hxa
      exact (update_self ..).trans (hT fun h0 => hx (hnew h0 ha))
    · exact update_of_ne hxa _ _
  · rw [hiff, not_and, not_not] at hT
    refine (hbyte x hx).trans ?_
    rw [← hmaps.fileByte h h₁ hx]
    split_ifs with heq
    · rw [hT (heq ▸ hx), fileByte, heq, hres ha]
    · rfl
  · obtain ⟨hold, hne⟩ := hiff.mp hT
    obtain ⟨o, ho, hne⟩ := exists_getByte_ne hne
    have hin : off % bSize ≤ o := by
      by_contra hlt
      exact hne (copyin_outside _ _ _ _ _ (.inl (by omega)))
    have hdiv : (off / bSize * bSize + o) / bSize = off / bSize ∧
        (off / bSize * bSize + o) % bSize = o ∧ off ≤ off / bSize * bSize + o := by
      simp only [bSize] at *
      omega
    have hx : Mapped st.disk ip (off / bSize * bSize + o) := by
      rw [Mapped, hdiv.1]
      exact hold
    refine ⟨off / bSize * bSize + o, hx, by omega, ?_⟩
    refine ne_of_eq_of_ne (hbyte _ hx) ?_
    rw [← hmaps.fileByte h h₁ hx, if_pos hdiv.1, fileByte, hdiv.1, hdiv.2.1, hres ha]
    exact hne

theorem Round.tears_next {r : ℕ × ℕ × Dinode × Store}
    (hr : Round sb i n tot off ip st a ip₁ st₁) (h : Owned sb st i ip) (ha : a ≠ 0)
    (hok : (copied src n tot off (st₁.disk a)).2 = true)
    (hl : Tears sb src n (tot + chunk (n - tot) off) (off + chunk (n - tot) off) ip₁
      (st₁.put a (copied src n tot off (st₁.disk a)).1) r) :
    Tears sb src n tot off ip st r := by
  obtain ⟨h₁, hmaps, hres, -⟩ := hr.spec h
  obtain ⟨new, hlogged, -, -⟩ := bmap_logged hr.found
  obtain ⟨-, hext₂⟩ := h₁.put (hres ha) ha (copied src n tot off (st₁.disk a)).1
  obtain ⟨hframe, -⟩ := put_copied h₁ (hres ha) ha src n tot
  have hiff := hr.torn_next h ha hok (copied src n tot off (st₁.disk a)).1
  have htot := hl.le
  refine ⟨by omega, fun hT => ?_, fun hT x hx hout => ?_, fun hT => ?_⟩
  · obtain ⟨new', hlogged'⟩ := hl.logged (hiff.not.mp hT)
    exact ⟨_, (hlogged.trans (.put _ _ _)).trans hlogged'⟩
  · have hx₁ := hmaps.ext.mapped hx
    rw [hl.kept (hiff.not.mp hT) x (hext₂.mapped hx₁) (by omega), hframe x hx₁ (by omega),
      hmaps.fileByte h h₁ hx]
  · -- the torn block lies behind this one, so that it is an old one
    obtain ⟨x, hx, hout, hne⟩ := hl.torn (hiff.mp hT)
    have hlt := (hiff.mp hT).lt
    have hblock : x / bSize ≠ off / bSize := by
      simp only [chunk, bSize] at *
      omega
    obtain ⟨hmapped, hbyte⟩ := hr.later h ha hblock
    rw [hbyte (hmapped.mp hx)] at hne
    exact ⟨x, hmapped.mp hx, by omega, hne⟩

end Round

/-- The old bytes behind what was written change just if the write is torn. -/
theorem writeLoop_torn (h : Owned sb st i ip) (src : ℕ → Option UInt8) {n : ℕ}
    (fuel tot off : ℕ) (hfuel : n - tot ≤ fuel) (hend : off + (n - tot) ≤ maxFile * bSize) :
    Ends (fun _ => False) (Tears sb src n tot off ip st)
      (writeLoop sb i src n fuel tot off ip st) := by
  refine (writeLoop_rule sb i src
    (P := fun tot off ip st r => Owned sb st i ip → Tears sb src n tot off ip st r)
    ?_ ?_ ?_ ?_ fuel tot off hfuel hend).mono fun r hr => hr h
  · intro tot off ip st hge _
    exact ⟨le_rfl, fun _ => ⟨[], .of_eq rfl rfl⟩, fun _ _ _ _ => rfl,
      fun hT => absurd hT.lt (Nat.not_lt.mpr hge)⟩
  · intro tot off ip st ip₁ st₁ hr h
    obtain ⟨h₁, hmaps, -⟩ := hr.spec h
    obtain ⟨new, hlogged, -⟩ := bmap_logged hr.found
    exact ⟨le_rfl, fun _ => ⟨new, hlogged⟩, fun _ x hx _ => hmaps.fileByte h h₁ hx,
      fun hT => absurd hT (hr.not_torn h)⟩
  · intro tot off ip st a ip₁ st₁ hr ha hfail h
    exact hr.tears_fail h ha hfail
  · intro tot off ip st a ip₁ st₁ r hr ha hok ih h
    obtain ⟨h₁, -, hres, -⟩ := hr.spec h
    exact hr.tears_next h ha hok (ih (h₁.put (hres ha) ha _).1)

/-- `writei` returned `r.1`, and the file has the first so many bytes of the source at `off`; the
other bytes of its old blocks and its size are as that says; and every block that changed was
logged. -/
structure Reported (ip : Dinode) (st : Store) (src : ℕ → Option UInt8) (off : ℕ)
    (r : ℤ × Dinode × Store) : Prop where
  bytes : ∀ t < r.1.toNat, some (fileByte r.2.2.disk r.2.1 (off + t)) = src t
  rest : ∀ x, Mapped st.disk ip x → x < off ∨ off + r.1.toNat ≤ x →
    fileByte r.2.2.disk r.2.1 x = fileByte st.disk ip x
  size : r.2.1.size = max ip.size (off + r.1.toNat)
  logged : ∃ new, Logged st r.2.2 new

/-- The source of the write ends in the middle of a block. -/
def TornWrite (sb : Superblock) (ip : Dinode) (st : Store) (src : ℕ → Option UInt8)
    (off n : ℕ) : Prop := ¬Refused ip off n ∧ ∃ k, TornAt sb ip st src off n k

theorem reported_refused {src : ℕ → Option UInt8} {off : ℕ} :
    Reported ip st src off (-1, ip, st) ↔ off ≤ ip.size := by
  constructor
  · intro h
    have hsize : ip.size = max ip.size (off + 0) := h.size
    omega
  · intro h
    exact ⟨fun t ht => absurd ht (Nat.not_lt_zero t), fun _ _ _ => rfl,
      (max_eq_left h).symm, [], .of_eq rfl rfl⟩

/-- A write changes nothing beyond what it reports, and logs what it changes, if and only if it
does not begin behind the end of the file and does not stop in the middle of a copy to one of the
file's blocks. -/
theorem writei_reported_iff (h : Owned sb st i ip) (src : ℕ → Option UInt8) (off : ℕ) {n : ℕ}
    (hn : n < 2 ^ 32) :
    ∃ r, writeiBlocks sb i ip st src off n = .ok r ∧
      (Reported ip st src off r ↔ off ≤ ip.size ∧ ¬TornWrite sb ip st src off n) := by
  by_cases hrefused : Refused ip off n
  · refine ⟨_, writeiBlocks_refused hrefused, reported_refused.trans ?_⟩
    exact (and_iff_left fun htorn => htorn.1 hrefused).symm
  · have hok := hrefused
    simp only [Refused, not_or, not_lt] at hok
    have hend : off + n ≤ maxFile * bSize := by
      have hmax : maxFile * bSize = 274432 := by decide
      omega
    obtain ⟨⟨tot, off', ip', st'⟩, hr, hl, ht⟩ := ((writeLoop_writes h src n 0 off le_rfl hend).and
      (writeLoop_torn h src n 0 off le_rfl hend)).exists_ok
    obtain ⟨h', hrw, -, -, hoff, -, hnew, hw, -⟩ := hl
    obtain ⟨-, hlogged, hrest, htorn⟩ := ht
    dsimp only at h' hrw hoff hnew hw hlogged hrest htorn
    simp only [TornFrom, Nat.sub_zero, Nat.zero_add] at hoff hlogged hrest htorn
    have hkept {x : ℕ} (hx : Mapped st.disk ip x) :=
      fileByte_iupdate h' (max ip'.size off') (hw.mapped x hx)
    refine ⟨(tot, { ip' with size := max ip'.size off' },
      st'.iupdate sb i { ip' with size := max ip'.size off' }), ?_,
      fun hrep => ⟨hok.1.1, fun hT => ?_⟩, fun h => ?_⟩
    · rw [writeiBlocks, if_neg (by omega), if_neg (by omega), hr]
      rfl
    · obtain ⟨x, hx, hout, hne⟩ := htorn hT.2
      have hsame := hrep.rest x hx (.inr hout)
      dsimp only at hsame
      exact hne ((hkept hx).symm.trans hsame)
    · have hT : ¬∃ k, TornAt sb ip st src off n k := fun hT => h.2 ⟨hrefused, hT⟩
      obtain ⟨new, hlogged⟩ := hlogged hT
      refine ⟨fun t ht => ?_, fun x hx hout => ?_, ?_, _, hlogged.trans (.iupdate sb _ i _)⟩ <;>
        dsimp only [Int.toNat_natCast] at *
      · rw [fileByte_iupdate h' _ (hnew _ (by omega) (by omega)), hw.bytes t (by omega),
          Nat.zero_add]
      · rw [hkept hx]
        rcases hout with hlt | hge
        · exact hw.frame x hx (.inl hlt)
        · exact hrest hT x hx hge
      · rw [hrw.ext.size_eq, hoff]

/-- A write of four mapped bytes is as it reports. If only the first one is mapped, it is torn. -/
theorem writei_reported_iff_fourBytes :
    (∃ r, writeiBlocks smallSuperblock 2 fourBytes fourBytesStore (fun _ => some 7) 0 4 = .ok r ∧
      r.1 = 4 ∧ Reported fourBytes fourBytesStore (fun _ => some 7) 0 r) ∧
    ∃ r, writeiBlocks smallSuperblock 2 fourBytes fourBytesStore
        (fun k => if k = 0 then some 7 else none) 0 4 = .ok r ∧
      ¬Reported fourBytes fourBytesStore (fun k => if k = 0 then some 7 else none) 0 r := by
  constructor
  · obtain ⟨r, hr, hiff⟩ :=
      @writei_reported_iff _ _ _ _ fourBytes_owned (fun _ => some 7) 0 4 (by decide)
    obtain ⟨r', hr', hfour⟩ := exists_ok_of_any (p := fun r => decide (r.1 = 4))
      (x := writeiBlocks smallSuperblock 2 fourBytes fourBytesStore (fun _ => some 7) 0 4)
      (by decide +kernel)
    obtain rfl : r' = r := Except.ok.inj (hr'.symm.trans hr)
    refine ⟨r', hr, of_decide_eq_true hfour, hiff.mpr ⟨Nat.zero_le _, ?_⟩⟩
    rintro ⟨-, k, hk⟩
    cases hk.unmapped
  · obtain ⟨r, hr, hiff⟩ := @writei_reported_iff _ _ _ _ fourBytes_owned
      (fun k => if k = 0 then some 7 else none) 0 4 (by decide)
    refine ⟨r, hr, fun hrep => (hiff.mp hrep).2 ⟨by decide, 1, ?_⟩⟩
    refine ⟨by decide, rfl, by decide, show ptr _ _ _ ≠ 0 by decide, ⟨0, by decide, by decide, ?_⟩,
      nofun, by simp [missing, bSize]⟩
    decide +kernel

/-- A write of four bytes of which only the first is mapped returns 0. The first byte of the file
has changed, and its block was not logged. -/
theorem writei_not_reported :
    ∃ r, writeiBlocks smallSuperblock 2 fourBytes fourBytesStore
        (fun k => if k = 0 then some 7 else none) 0 4 = .ok r ∧ r.1 = 0 ∧
      fileByte fourBytesStore.disk fourBytes 0 = 0 ∧ fileByte r.2.2.disk r.2.1 0 = 7 ∧
      3 ∉ r.2.2.log ∧
      ¬Reported fourBytes fourBytesStore (fun k => if k = 0 then some 7 else none) 0 r := by
  have hzero : fileByte fourBytesStore.disk fourBytes 0 = 0 := by decide +kernel
  obtain ⟨r, hr, htest⟩ := exists_ok_of_any
    (p := fun r => decide (r.1 = 0 ∧ fileByte r.2.2.disk r.2.1 0 = 7 ∧ 3 ∉ r.2.2.log))
    (x := writeiBlocks smallSuperblock 2 fourBytes fourBytesStore
      (fun k => if k = 0 then some 7 else none) 0 4) (by decide +kernel)
  obtain ⟨hres, hbyte, hlog⟩ := of_decide_eq_true htest
  refine ⟨r, hr, hres, hzero, hbyte, hlog, fun hrep => ?_⟩
  have hsame := hrep.rest 0 (show ptr _ _ _ ≠ 0 by decide) (.inr (by rw [hres]; decide))
  rw [hbyte, hzero] at hsame
  exact absurd hsame (by decide)

end Xv6.Fs
