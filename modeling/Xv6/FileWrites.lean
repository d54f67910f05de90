import Xv6.FileBlocksKeepOwnership

/-!
# What `readi` and `writei` do to the bytes of a file

A byte of a file lies in the block that is mapped at its position. The loop of `writei` puts the
bytes of its source one after the other, stops where it runs out of blocks or of user memory,
keeps all bytes outside the part of the file that it was asked to write, and keeps every block
owned.
-/

namespace Xv6.Fs
open Function

open LittleEndianBlocks ExactOwnership OperationPrograms

variable {sb : Superblock} {st st' : Store} {i : ℕ} {ip ip' : Dinode}

def Mapped (disk : Disk) (d : Dinode) (x : ℕ) : Prop := ptr disk d (dataPos (x / bSize)) ≠ 0

/-! ### Mapping keeps the bytes -/

theorem Maps.fileByte (h : Maps sb st ip st' ip') (howned : Owned sb st i ip)
    (howned' : Owned sb st' i ip') {x : ℕ} (hx : Mapped st.disk ip x) :
    fileByte st'.disk ip' x = fileByte st.disk ip x := by
  have hkept := h.ext.kept _ hx
  have hne : ptr st.disk ip (dataPos (x / bSize)) ≠ ip'.indirect := by
    rw [← hkept]
    exact howned'.data_ne_indirect (by rw [hkept]; exact hx)
  rw [Fs.fileByte, hkept, h.frame _ (howned.ptr_mem hx) (howned.bit_ptr hx) hne, Fs.fileByte]

/-! ### Copying into a block -/

theorem copyin_outside (src : ℕ → Option UInt8) (m o k : ℕ) (blk : Block) {x : ℕ}
    (h : x < o ∨ o + m ≤ x) : getByte (copyin src m o k blk).1 x = getByte blk x := by
  induction m generalizing o k blk with
  | zero => rfl
  | succ m ih =>
    rw [copyin]
    split
    · rfl
    · rw [ih _ _ _ (by omega), getByte_putByte_ne _ _ (by omega)]

theorem copyin_inside (src : ℕ → Option UInt8) (m o k : ℕ) (blk : Block)
    (hroom : o + m ≤ bSize) (hsrc : ∀ t < m, (src (k + t)).isSome) :
    (copyin src m o k blk).2 = true ∧
      ∀ t < m, some (getByte (copyin src m o k blk).1 (o + t)) = src (k + t) := by
  induction m generalizing o k blk with
  | zero => exact ⟨rfl, fun t ht => absurd ht (Nat.not_lt_zero t)⟩
  | succ m ih =>
    obtain ⟨c, hc⟩ := Option.isSome_iff_exists.mp (hsrc 0 (by omega))
    rw [Nat.add_zero] at hc
    have hrest : ∀ t < m, (src (k + 1 + t)).isSome := by
      intro t ht
      rw [Nat.add_right_comm, Nat.add_assoc]
      exact hsrc (t + 1) (by omega)
    obtain ⟨hok, hbytes⟩ := ih (o + 1) (k + 1) (putByte blk o c) (by omega) hrest
    simp only [copyin, hc]
    refine ⟨hok, ?_⟩
    intro t ht
    cases t with
    | zero =>
      simp only [Nat.add_zero]
      rw [hc, copyin_outside _ _ _ _ _ (by omega), getByte_putByte_self _ _ (by omega)]
    | succ t =>
      have hb := hbytes t (by omega)
      rw [show o + 1 + t = o + (t + 1) by omega, show k + 1 + t = k + (t + 1) by omega] at hb
      exact hb

theorem copyin_mapped {src : ℕ → Option UInt8} {m o k : ℕ} {blk : Block}
    (h : (copyin src m o k blk).2 = true) : ∀ t < m, (src (k + t)).isSome := by
  induction m generalizing o k blk with
  | zero => exact fun t ht => absurd ht (Nat.not_lt_zero t)
  | succ m ih =>
    intro t ht
    rw [copyin] at h
    split at h
    · cases h
    · rename_i c hc
      cases t with
      | zero => simp [hc]
      | succ t =>
        have hrest := ih h t (by omega)
        rwa [show k + 1 + t = k + (t + 1) by omega] at hrest

theorem fileByte_put (h : Owned sb st i ip) (bn : ℕ) (blk : Block) {x : ℕ}
    (hx : Mapped st.disk ip x) :
    fileByte (st.put (ptr st.disk ip (dataPos bn)) blk).disk ip x =
      if x / bSize = bn then getByte blk (x % bSize) else fileByte st.disk ip x := by
  have hptr : ptr (st.put (ptr st.disk ip (dataPos bn)) blk).disk ip (dataPos (x / bSize)) =
      ptr st.disk ip (dataPos (x / bSize)) := h.ptr_put rfl blk _
  rw [fileByte, hptr, fileByte]
  simp only [Store.put]
  split_ifs with heq
  · rw [heq, update_self]
  · rw [update_of_ne]
    exact fun hsame => heq (dataPos_injective (h.ptr_inj hx hsame))

theorem chunk_bounds (left off : ℕ) :
    chunk left off ≤ left ∧ chunk left off ≤ bSize - off % bSize ∧
      (chunk left off = left ∨ (off + chunk left off) % bSize = 0) := by
  simp only [chunk, bSize]
  omega

/-- What a round of the loop of `writei` makes of its block, and whether it could copy all bytes. -/
abbrev copied (src : ℕ → Option UInt8) (n tot off : ℕ) (blk : Block) : Block × Bool :=
  copyin src (chunk (n - tot) off) (off % bSize) tot blk

section Round

variable {src : ℕ → Option UInt8} {n tot off a : ℕ} {ip₁ : Dinode} {st₁ : Store}

theorem copied_of_source (hsrc : ∀ t < n, (src t).isSome) (hlt : tot < n) (blk : Block) :
    (copied src n tot off blk).2 = true := by
  obtain ⟨hle, hm, -⟩ := chunk_bounds (n - tot) off
  refine (copyin_inside src _ _ tot blk ?_ fun t ht => hsrc _ (by omega)).1
  simp only [bSize] at *
  omega

/-- The bytes of the file outside a round are kept, and those inside are the bytes of the source
if the copy succeeds. -/
theorem put_copied (h : Owned sb st i ip) (ha : ptr st.disk ip (dataPos (off / bSize)) = a)
    (ha0 : a ≠ 0) (src : ℕ → Option UInt8) (n tot : ℕ) :
    (∀ x, Mapped st.disk ip x → x < off ∨ off + chunk (n - tot) off ≤ x →
      fileByte (st.put a (copied src n tot off (st.disk a)).1).disk ip x =
        fileByte st.disk ip x) ∧
    ((copied src n tot off (st.disk a)).2 = true → ∀ t < chunk (n - tot) off,
      some (fileByte (st.put a (copied src n tot off (st.disk a)).1).disk ip (off + t)) =
        src (tot + t)) := by
  subst ha
  obtain ⟨-, hm, -⟩ := chunk_bounds (n - tot) off
  simp only [copied]
  generalize chunk (n - tot) off = m at hm ⊢
  have hroom : off % bSize + m ≤ bSize := by
    simp only [bSize] at *
    omega
  refine ⟨fun x hx hout => ?_, fun hok t ht => ?_⟩
  · rw [fileByte_put h _ _ hx]
    split_ifs with heq
    · have hmod : x % bSize < off % bSize ∨ off % bSize + m ≤ x % bSize := by
        simp only [bSize] at *
        omega
      rw [copyin_outside _ _ _ _ _ hmod, fileByte, heq]
    · rfl
  · have hdiv : (off + t) / bSize = off / bSize ∧ (off + t) % bSize = off % bSize + t := by
      simp only [bSize] at *
      omega
    rw [fileByte_put h _ _ (by rw [Mapped, hdiv.1]; exact ha0), if_pos hdiv.1, hdiv.2]
    exact (copyin_inside src m _ tot _ hroom (copyin_mapped hok)).2 t ht

/-! ### The loop of `writei` -/

/-- A round of the loop, in which `bmap` returned `a`. -/
structure Round (sb : Superblock) (i n tot off : ℕ) (ip : Dinode) (st : Store) (a : ℕ)
    (ip₁ : Dinode) (st₁ : Store) : Prop where
  lt : tot < n
  bn_lt : off / bSize < maxFile
  found : bmap sb i ip st (off / bSize) = .ok (a, ip₁, st₁)

theorem Round.spec (hr : Round sb i n tot off ip st a ip₁ st₁) (h : Owned sb st i ip) :
    Owned sb st₁ i ip₁ ∧ Maps sb st ip st₁ ip₁ ∧
      (a ≠ 0 → ptr st₁.disk ip₁ (dataPos (off / bSize)) = a) ∧
      ∀ bn', bn' ≠ off / bSize →
        ptr st₁.disk ip₁ (dataPos bn') = ptr st.disk ip (dataPos bn') :=
  bmap_maps h hr.found

/-- The rule for the loop of `writei`. It ends when all is written, when there is no block, or when
a copy fails; otherwise it goes on behind what the round has written. -/
theorem writeLoop_rule (sb : Superblock) (i : ℕ) (src : ℕ → Option UInt8)
    {P : ℕ → ℕ → Dinode → Store → ℕ × ℕ × Dinode × Store → Prop}
    (hdone : ∀ tot off ip st, n ≤ tot → P tot off ip st (tot, off, ip, st))
    (hfull : ∀ tot off ip st ip₁ st₁, Round sb i n tot off ip st 0 ip₁ st₁ →
      P tot off ip st (tot, off, ip₁, st₁))
    (hfail : ∀ tot off ip st a ip₁ st₁, Round sb i n tot off ip st a ip₁ st₁ → a ≠ 0 →
      (copied src n tot off (st₁.disk a)).2 = false →
      P tot off ip st (tot, off, ip₁, st₁.setData a (copied src n tot off (st₁.disk a)).1))
    (hnext : ∀ tot off ip st a ip₁ st₁ r, Round sb i n tot off ip st a ip₁ st₁ → a ≠ 0 →
      (copied src n tot off (st₁.disk a)).2 = true →
      P (tot + chunk (n - tot) off) (off + chunk (n - tot) off) ip₁
        (st₁.put a (copied src n tot off (st₁.disk a)).1) r → P tot off ip st r)
    (fuel tot off : ℕ) (hfuel : n - tot ≤ fuel) (hend : off + (n - tot) ≤ maxFile * bSize) :
    Ends (fun _ => False) (P tot off ip st) (writeLoop sb i src n fuel tot off ip st) := by
  induction fuel generalizing tot off ip st with
  | zero => exact hdone _ _ _ _ (by omega)
  | succ fuel ih =>
    rw [writeLoop]
    by_cases hlt : tot < n
    · have hbn : off / bSize < maxFile := by
        simp only [bSize] at *
        omega
      have hpos : 0 < chunk (n - tot) off := chunk_pos (by omega)
      have hle := (chunk_bounds (n - tot) off).1
      obtain ⟨⟨a, ip₁, st₁⟩, hbmap⟩ := bmap_ok sb i ip st hbn
      have hround : Round sb i n tot off ip st a ip₁ st₁ := ⟨hlt, hbn, hbmap⟩
      rw [if_pos hlt, hbmap]
      refine Ends.bind ?_
      rw [ends_ok]
      dsimp only
      split_ifs with ha hok
      · subst ha
        exact hfull _ _ _ _ _ _ hround
      · exact (ih _ _ (by omega) (by omega)).mono fun r => hnext _ _ _ _ _ _ _ r hround ha hok
      · exact hfail _ _ _ _ _ _ _ hround ha (Bool.not_eq_true _ ▸ hok)
    · rw [if_neg hlt]
      exact hdone _ _ _ _ (by omega)

end Round

/-- What the loop of `writei` did from `off` on: it wrote the bytes of the source from `tot` to
`tot'`, and kept every byte outside the `left` bytes from `off` on. -/
structure Written (src : ℕ → Option UInt8) (st : Store) (ip : Dinode) (tot off left tot' : ℕ)
    (st' : Store) (ip' : Dinode) : Prop where
  le : tot ≤ tot'
  le_left : tot' ≤ tot + left
  bytes : ∀ t < tot' - tot, some (fileByte st'.disk ip' (off + t)) = src (tot + t)
  mapped : ∀ x, Mapped st.disk ip x → Mapped st'.disk ip' x
  frame : ∀ x, Mapped st.disk ip x → x < off ∨ off + left ≤ x →
    fileByte st'.disk ip' x = fileByte st.disk ip x

theorem Written.of_kept {src : ℕ → Option UInt8} {tot off left : ℕ}
    (hmapped : ∀ x, Mapped st.disk ip x → Mapped st'.disk ip' x)
    (hframe : ∀ x, Mapped st.disk ip x → x < off ∨ off + left ≤ x →
      fileByte st'.disk ip' x = fileByte st.disk ip x) :
    Written src st ip tot off left tot st' ip' :=
  ⟨le_rfl, by omega, fun t ht => by omega, hmapped, hframe⟩

theorem Written.cons {src : ℕ → Option UInt8} {tot off left tot' m : ℕ} {st₁ : Store}
    {ip₁ : Dinode} (hm : m ≤ left) (hmapped : ∀ x, Mapped st.disk ip x → Mapped st₁.disk ip₁ x)
    (hnew : ∀ t < m, Mapped st₁.disk ip₁ (off + t))
    (hframe : ∀ x, Mapped st.disk ip x → x < off ∨ off + m ≤ x →
      fileByte st₁.disk ip₁ x = fileByte st.disk ip x)
    (hbytes : ∀ t < m, some (fileByte st₁.disk ip₁ (off + t)) = src (tot + t))
    (h : Written src st₁ ip₁ (tot + m) (off + m) (left - m) tot' st' ip') :
    Written src st ip tot off left tot' st' ip' where
  le := (Nat.le_add_right _ _).trans h.le
  le_left := by
    have hle := h.le_left
    omega
  bytes t ht := by
    by_cases htm : t < m
    · rw [h.frame _ (hnew t htm) (by omega)]
      exact hbytes t htm
    · have hb := h.bytes (t - m) (by omega)
      rwa [show off + m + (t - m) = off + t by omega,
        show tot + m + (t - m) = tot + t by omega] at hb
  mapped x hx := h.mapped x (hmapped x hx)
  frame x hx hout := by
    rw [h.frame x (hmapped x hx) (by omega), hframe x hx (by omega)]

/-- What a loop that writes from `off` on has mapped behind itself. -/
def Covered (st : Store) (ip : Dinode) (off : ℕ) : Prop :=
  ∀ bn, bn * bSize < off → ptr st.disk ip (dataPos bn) ≠ 0

theorem Covered.extends {off : ℕ} (h : Covered st ip off) (hext : Extends sb st ip st' ip') :
    Covered st' ip' off := fun bn hbn => hext.mapped (h bn hbn)

theorem Covered.advance {off m : ℕ} (h : Covered st ip off)
    (hbn : ptr st.disk ip (dataPos (off / bSize)) ≠ 0) (hm : m ≤ bSize - off % bSize) :
    Covered st ip (off + m) := by
  intro bn hlt
  by_cases hold : bn * bSize < off
  · exact h bn hold
  · have hb : bn = off / bSize := by
      simp only [bSize] at *
      omega
    rw [hb]
    exact hbn

structure Rewrites (sb : Superblock) (st : Store) (ip : Dinode) (st' : Store) (ip' : Dinode) :
    Prop where
  ext : Extends sb st ip st' ip'
  used : ∀ c < sb.size, bit sb st.disk c = true → bit sb st'.disk c = true
  others : ∀ x ∈ dataBlocks sb, bit sb st.disk x = true → (∀ q, ptr st.disk ip q ≠ x) →
    st'.disk x = st.disk x ∧ ∀ q, ptr st'.disk ip' q ≠ x

theorem Rewrites.of_disk_eq (h : st'.disk = st.disk) : Rewrites sb st ip st' ip :=
  ⟨.of_disk_eq h, fun _ _ hc => by rwa [h], fun x _ _ hx => ⟨congrFun h x, by rwa [h]⟩⟩

theorem Rewrites.trans {st'' : Store} {ip'' : Dinode} (h : Rewrites sb st ip st' ip')
    (h' : Rewrites sb st' ip' st'' ip'') : Rewrites sb st ip st'' ip'' where
  ext := h.ext.trans h'.ext
  used c hc hbit := h'.used c hc (h.used c hc hbit)
  others x hx hbit hne := by
    obtain ⟨hsame, hne'⟩ := h.others x hx hbit hne
    obtain ⟨hsame', hne''⟩ := h'.others x hx (h.used x hx.2 hbit) hne'
    exact ⟨hsame'.trans hsame, hne''⟩

theorem Maps.rewrites (h : Maps sb st ip st' ip') : Rewrites sb st ip st' ip' where
  ext := h.ext
  used := h.used
  others x hx hbit hne := by
    have hne' := h.ptr_ne (pos_of_mem_dataBlocks hx) hbit hne
    exact ⟨h.frame x hx hbit (hne' (.addr (Fin.last nDirect))).symm, hne'⟩

theorem Owned.rewrites_put (h : Owned sb st i ip) {bn x : ℕ}
    (hx : ptr st.disk ip (dataPos bn) = x) (hx0 : x ≠ 0) (blk : Block) :
    Rewrites sb st ip (st.put x blk) ip := by
  have hmem : x ∈ dataBlocks sb := hx ▸ h.ptr_mem (hx ▸ hx0)
  refine ⟨(h.put hx hx0 blk).2, fun c hc hbit => ?_, fun y hy hbit hne => ⟨?_, fun q => ?_⟩⟩
  · rw [← hbit]
    exact bit_update_of_le _ _ hc hmem.1
  · exact update_of_ne (fun hyx => hne _ (hx.trans hyx.symm)) _ _
  · rw [h.ptr_put hx]
    exact hne q

structure LoopWrites (sb : Superblock) (i : ℕ) (src : ℕ → Option UInt8) (n : ℕ) (st : Store)
    (ip : Dinode) (tot off : ℕ) (r : ℕ × ℕ × Dinode × Store) : Prop where
  owned : Owned sb r.2.2.2 i r.2.2.1
  rewrites : Rewrites sb st ip r.2.2.2 r.2.2.1
  grants : (∀ g ∈ st.grants, g.Sound sb) → ∀ g ∈ r.2.2.2.grants, g.Sound sb
  covered : Covered st ip off → Covered r.2.2.2 r.2.2.1 r.2.1
  off_eq : r.2.1 = off + (r.1 - tot)
  aligned : r.1 = tot ∨ r.1 = n ∨ r.2.1 % bSize = 0
  new : ∀ x, off ≤ x → x < r.2.1 → Mapped r.2.2.2.disk r.2.2.1 x
  written : Written src st ip tot off (n - tot) r.1 r.2.2.2 r.2.2.1
  kept : (∀ t < n, (src t).isSome) → ∀ x, Mapped st.disk ip x → r.2.1 ≤ x →
    fileByte r.2.2.2.disk r.2.2.1 x = fileByte st.disk ip x

/-- A round that ends the loop has written nothing. -/
theorem LoopWrites.ended {src : ℕ → Option UInt8} {n tot off : ℕ} (h : Owned sb st' i ip')
    (hrw : Rewrites sb st ip st' ip')
    (hgrants : (∀ g ∈ st.grants, g.Sound sb) → ∀ g ∈ st'.grants, g.Sound sb)
    (hframe : ∀ x, Mapped st.disk ip x → x < off ∨ off + (n - tot) ≤ x →
      fileByte st'.disk ip' x = fileByte st.disk ip x)
    (hkept : (∀ t < n, (src t).isSome) → ∀ x, Mapped st.disk ip x → off ≤ x →
      fileByte st'.disk ip' x = fileByte st.disk ip x) :
    LoopWrites sb i src n st ip tot off (tot, off, ip', st') :=
  ⟨h, hrw, hgrants, fun hcov => hcov.extends hrw.ext, by simp, .inl rfl,
    fun x hx hlt => absurd hx (Nat.not_le_of_lt hlt),
    .of_kept (fun x hx => hrw.ext.mapped hx) hframe, hkept⟩

/-- The loop rule for what the loop has written, kept and allocated. -/
theorem writeLoop_writes (h : Owned sb st i ip) (src : ℕ → Option UInt8) {n : ℕ}
    (fuel tot off : ℕ) (hfuel : n - tot ≤ fuel) (hend : off + (n - tot) ≤ maxFile * bSize) :
    Ends (fun _ => False) (LoopWrites sb i src n st ip tot off)
      (writeLoop sb i src n fuel tot off ip st) := by
  refine (writeLoop_rule sb i src
    (P := fun tot off ip st r => Owned sb st i ip → LoopWrites sb i src n st ip tot off r)
    ?_ ?_ ?_ ?_ fuel tot off hfuel hend).mono fun r hr => hr h
  · intro tot off ip st _ h
    exact .ended h (.of_disk_eq rfl) id (fun _ _ _ => rfl) fun _ _ _ _ => rfl
  · intro tot off ip st ip₁ st₁ hr h
    obtain ⟨h₁, hmaps, -⟩ := hr.spec h
    exact .ended h₁ hmaps.rewrites (bmap_grants h · hr.found)
      (fun x hx _ => hmaps.fileByte h h₁ hx) fun _ x hx _ => hmaps.fileByte h h₁ hx
  · intro tot off ip st a ip₁ st₁ hr ha hfail h
    obtain ⟨h₁, hmaps, hres, -⟩ := hr.spec h
    obtain ⟨h₂, hext₂⟩ := h₁.put (hres ha) ha (copied src n tot off (st₁.disk a)).1
    have hrw := hmaps.rewrites.trans (h₁.rewrites_put (hres ha) ha
      (copied src n tot off (st₁.disk a)).1)
    obtain ⟨hframe, -⟩ := put_copied h₁ (hres ha) ha src n tot
    have hle := (chunk_bounds (n - tot) off).1
    refine .ended (h₂.of_disk_eq rfl) (hrw.trans (.of_disk_eq rfl)) (bmap_grants h · hr.found)
      (fun x hx hout => ?_) fun hsrc => ?_
    · exact (hframe x (hmaps.ext.mapped hx) (by omega)).trans (hmaps.fileByte h h₁ hx)
    · rw [copied_of_source hsrc hr.lt] at hfail
      cases hfail
  · intro tot off ip st a ip₁ st₁ r hr ha hok ih h
    obtain ⟨h₁, hmaps, hres, -⟩ := hr.spec h
    have hbn₁ : ptr st₁.disk ip₁ (dataPos (off / bSize)) ≠ 0 := by rw [hres ha]; exact ha
    obtain ⟨h₂, hext₂⟩ := h₁.put (hres ha) ha (copied src n tot off (st₁.disk a)).1
    have hrw := hmaps.rewrites.trans (h₁.rewrites_put (hres ha) ha
      (copied src n tot off (st₁.disk a)).1)
    obtain ⟨hframe, hbytes⟩ := put_copied h₁ (hres ha) ha src n tot
    have hbytes := hbytes hok
    have hgrants (hsound : ∀ g ∈ st.grants, g.Sound sb) :=
      (ih h₂).grants (bmap_grants h hsound hr.found)
    obtain ⟨hle, hm, hcut⟩ := chunk_bounds (n - tot) off
    have hlt := hr.lt
    generalize st₁.put a (copied src n tot off (st₁.disk a)).1 = st₂ at *
    generalize chunk (n - tot) off = m at *
    have hl := ih h₂
    have hoff := hl.off_eq
    have htot := hl.written.le
    have hframe' (x : ℕ) (hx : Mapped st.disk ip x) (hout : x < off ∨ off + m ≤ x) :
        fileByte st₂.disk ip₁ x = fileByte st.disk ip x :=
      (hframe x (hmaps.ext.mapped hx) hout).trans (hmaps.fileByte h h₁ hx)
    have hround (x : ℕ) (hx : off ≤ x) (hlt : x < off + m) : Mapped st₂.disk ip₁ x := by
      have hdiv : x / bSize = off / bSize := by
        simp only [bSize] at *
        omega
      rw [Mapped, hdiv]
      exact hext₂.mapped hbn₁
    refine ⟨hl.owned, hrw.trans hl.rewrites, hgrants,
      fun hcov => hl.covered ((hcov.extends hrw.ext).advance (hext₂.mapped hbn₁) hm), by omega,
      ?_, fun x hx hlt => ?_,
      .cons hle (fun x hx => hrw.ext.mapped hx) (fun t ht => hround _ (by omega) (by omega))
        hframe' hbytes (Nat.sub_add_eq n tot m ▸ hl.written), fun hsrc x hx hout => ?_⟩
    · rcases hl.aligned with heq | hrest
      · rcases hcut with hcut | hcut
        · exact .inr (.inl (by omega))
        · rw [hoff, heq, Nat.sub_self]
          exact .inr (.inr hcut)
      · exact .inr hrest
    · by_cases hxm : x < off + m
      · exact hl.rewrites.ext.mapped (hround x hx hxm)
      · exact hl.new x (by omega) hlt
    · rw [hl.kept hsrc x (hrw.ext.mapped hx) hout, hframe' x hx (by omega)]

/-! ### What `writei` keeps -/

theorem Held.settle {st₀ : Store} {ip₀ : Dinode} (h : Held sb st i ip)
    (hext : Extends sb st₀ ip₀ st ip) {off : ℕ} (hcov : Covered st ip off)
    (hoff : off ≤ maxFile * bSize)
    (hsize : ip.type = tDir → direntSize ∣ max ip.size off)
    (hentries : ip.type = tDir → ∀ n, n * direntSize < max ip.size off →
      entryInum (st.disk (ptr st.disk ip (dataPos (n * direntSize / bSize))))
        (n * direntSize % bSize) < sb.ninodes) :
    Settled sb st₀ i (st.iupdate sb i { ip with size := max ip.size off })
      { ip with size := max ip.size off } := by
  have hwf := h.wellFormed
  have hptr (q : Pos) : ptr st.disk { ip with size := max ip.size off } q = ptr st.disk ip q :=
    ptr_congr rfl (fun _ => rfl) q
  have hsized : Consistent sb st.disk (update (dinode sb st.disk) i
      { ip with size := max ip.size off }) := by
    rw [← update_idem]
    refine h.view.replace (by rw [update_self]) (by rw [update_self]) fun _ =>
      ⟨⟨max_le hwf.size_le hoff, fun bn hbn => ?_, hsize⟩,
        fun hd n hn => by rw [hptr]; exact hentries hd n hn⟩
    rw [hptr]
    rcases lt_max_iff.mp hbn with hlt | hlt
    · exact hwf.mapped bn hlt
    · exact hcov bn hlt
  have hfits := hsized.fits h.alloc.1
  rw [update_self] at hfits
  exact settled_of_iupdate hsized h.grants h.alloc.1 (hfits h.alloc.2) hext.dinodes

variable {r : ℕ × ℕ × Dinode × Store}

/-- The loop of `writei` on a file, or on a directory if its entries name inodes then, too. -/
theorem LoopWrites.held {src : ℕ → Option UInt8} {n tot off : ℕ}
    (hl : LoopWrites sb i src n st ip tot off r) (h : Held sb st i ip)
    (hdir : ip.type = tDir → ∀ n, n * direntSize < ip.size →
      entryInum (r.2.2.2.disk (ptr r.2.2.2.disk r.2.2.1 (dataPos (n * direntSize / bSize))))
        (n * direntSize % bSize) < sb.ninodes) :
    Held sb r.2.2.2 i r.2.2.1 := by
  refine h.follow hl.owned hl.rewrites.ext (hl.grants h.grants)
    (fun x hx hused hne => (hl.rewrites.others x hx hused hne).1) fun hd n hn hm => ?_
  rw [← hl.rewrites.ext.kept _ hm]
  exact hdir hd n hn

theorem writei_keeps (h : Clean sb st) (hi : i < sb.ninodes)
    (hsame : SameBlocks ip (dinode sb st.disk i)) (ht : ip.type ≠ 0) (hdir : ip.type ≠ tDir)
    (src : ℕ → Option UInt8) (off : ℕ) {n : ℕ} (hn : n < 2 ^ 32) :
    Ends (fun _ => False) (fun r => Settled sb st i r.2.2 r.2.1 ∧ r.2.1.type = ip.type)
      (writeiBlocks sb i ip st src off n) := by
  rw [writeiBlocks]
  split
  · exact ⟨.refl h hsame, rfl⟩
  · split
    · exact ⟨.refl h hsame, rfl⟩
    · rename_i hoff hmax
      have hheld := h.held hi hsame ht
      have hwf := hheld.wellFormed
      have hle := hwf.size_le
      have hcov : Covered st ip off := fun bn hbn => hwf.mapped bn (by omega)
      have hend : off + n ≤ maxFile * bSize := by
        have hlt : maxFile * bSize < 2 ^ 31 := by decide
        omega
      refine Ends.bind ((writeLoop_writes hheld.owned src n 0 off (by omega) (by omega)).mono ?_)
      intro r hl
      have hoff' := hl.off_eq
      have htot := hl.written.le_left
      have htype := hl.rewrites.ext.type_eq
      have hdir' : r.2.2.1.type ≠ tDir := by rwa [htype]
      exact ⟨(hl.held hheld fun hd => absurd hd hdir).settle hl.rewrites.ext (hl.covered hcov)
        (by omega) (fun hd => absurd hd hdir') (fun hd => absurd hd hdir'), htype⟩

/-! ### Directory entries -/

theorem length_encodeDirent (de : Dirent) : (encodeDirent de).length = direntSize := by
  simp [encodeDirent, direntSize, dirSiz]

theorem entryInum_eq (disk : Disk) (d : Dinode) (n : ℕ) :
    entryInum (disk (ptr disk d (dataPos (n * direntSize / bSize)))) (n * direntSize % bSize) =
      (fileByte disk d (n * direntSize)).toNat +
        256 * (fileByte disk d (n * direntSize + 1)).toNat := by
  have hdiv : (n * direntSize + 1) / bSize = n * direntSize / bSize ∧
      (n * direntSize + 1) % bSize = n * direntSize % bSize + 1 := by
    simp only [direntSize, bSize]
    omega
  rw [fileByte, fileByte, hdiv.1, hdiv.2]
  simp [entryInum, decodeDirent, getBytes, direntSize]

/-- A directory entry is written as a whole or not at all. -/
theorem LoopWrites.dirent {de : Dirent} {k : ℕ}
    (hl : LoopWrites sb i (direntSrc de) direntSize st ip 0 (k * direntSize) r) :
    r.1 = 0 ∨ r.1 = direntSize := by
  have hoff := hl.off_eq
  have hle := hl.written.le_left
  rcases hl.aligned with h0 | hall | hcut
  · exact .inl h0
  · exact .inr hall
  · simp only [direntSize, bSize] at *
    omega

theorem direntSrc_isSome (de : Dirent) : ∀ t < direntSize, (direntSrc de t).isSome := by
  intro t ht
  have hlen := length_encodeDirent de
  simp only [direntSrc, isSome_getElem?]
  omega

/-- An entry of a directory behind the write of an entry is an old one or the new one. -/
theorem LoopWrites.entries (h : WellFormed sb st.disk ip) (ht : ip.type = tDir) {k : ℕ}
    (hk : k * direntSize ≤ ip.size) {de : Dirent} (hde : de.inum < 2 ^ 16)
    (hino : de.inum < sb.ninodes)
    (hl : LoopWrites sb i (direntSrc de) direntSize st ip 0 (k * direntSize) r) {n : ℕ}
    (hn : n * direntSize < max ip.size r.2.1) :
    entryInum (r.2.2.2.disk (ptr r.2.2.2.disk r.2.2.1 (dataPos (n * direntSize / bSize))))
      (n * direntSize % bSize) < sb.ninodes := by
  have hoff := hl.off_eq
  rw [entryInum_eq]
  by_cases hnew : n = k ∧ r.1 = direntSize
  · obtain ⟨rfl, hr⟩ := hnew
    have h0 := hl.written.bytes 0 (by rw [hr]; decide)
    have h1 := hl.written.bytes 1 (by rw [hr]; decide)
    simp only [Nat.add_zero, direntSrc, encodeDirent, Nat.zero_add, List.getElem?_cons_zero,
      List.getElem?_cons_succ, Option.some.injEq] at h0 h1
    rw [h0, h1, UInt8.toNat_ofNat', UInt8.toNat_ofNat']
    omega
  · obtain ⟨c, hc⟩ := h.dir_size ht
    have hold : n * direntSize + 1 < ip.size ∧ (n * direntSize + 1 < k * direntSize ∨
        r.2.1 ≤ n * direntSize) := by
      have hall := hl.dirent
      simp only [direntSize] at *
      omega
    have hkept (x : ℕ) (hx : x = n * direntSize ∨ x = n * direntSize + 1) :
        fileByte r.2.2.2.disk r.2.2.1 x = fileByte st.disk ip x := by
      have hmapped : Mapped st.disk ip x := by
        refine h.mapped _ (lt_of_le_of_lt (Nat.div_mul_le_self _ _) ?_)
        omega
      by_cases hx' : x < k * direntSize
      · exact hl.written.frame x hmapped (.inl hx')
      · exact hl.kept (direntSrc_isSome de) x hmapped (by omega)
    rw [hkept _ (.inl rfl), hkept _ (.inr rfl), ← entryInum_eq]
    exact h.entries ht n (by omega)

theorem writei_dirent (h : Clean sb st) (hi : i < sb.ninodes)
    (hsame : SameBlocks ip (dinode sb st.disk i)) (ht : ip.type = tDir) {k : ℕ}
    (hk : k * direntSize ≤ ip.size) (de : Dirent) (hde : de.inum < 2 ^ 16)
    (hino : de.inum < sb.ninodes) :
    Ends (fun _ => False) (fun r => Settled sb st i r.2.2 r.2.1 ∧ r.2.1.type = ip.type)
      (writeiBlocks sb i ip st (direntSrc de) (k * direntSize) direntSize) := by
  have hheld := h.held hi hsame (by rw [ht]; decide)
  have hwf := hheld.wellFormed
  have hsize := hwf.size_le
  have hmax : maxFile * bSize = 274432 := by decide
  have hcov : Covered st ip (k * direntSize) := fun bn hbn => hwf.mapped bn (by omega)
  rw [writeiBlocks]
  split
  · exact ⟨.refl h hsame, rfl⟩
  split
  · exact ⟨.refl h hsame, rfl⟩
  rename_i hend
  have hroom : k * direntSize + direntSize ≤ maxFile * bSize := by
    simp only [direntSize] at *
    omega
  refine Ends.bind ((writeLoop_writes hheld.owned (direntSrc de) direntSize 0 (k * direntSize)
    le_rfl hroom).mono fun r hl => ?_)
  have hall := hl.dirent
  have hoff := hl.off_eq
  have hext := hl.rewrites.ext
  refine ⟨(hl.held hheld fun _ n hn => hl.entries hwf ht hk hde hino (lt_max_of_lt_left hn)).settle
    hext (hl.covered hcov) (by omega) (fun _ => ?_) (fun _ n hn => ?_), hext.type_eq⟩
  · obtain ⟨c, hc⟩ := hwf.dir_size ht
    rw [hext.size_eq]
    rcases max_choice ip.size r.2.1 with hm | hm
    · exact ⟨c, by rw [hm, hc]⟩
    · rcases hall with h0 | hall
      · exact ⟨k, by rw [hm, hoff, h0]; simp only [direntSize]; omega⟩
      · exact ⟨k + 1, by rw [hm, hoff, hall]; simp only [direntSize]; omega⟩
  · rw [hext.size_eq] at hn
    exact hl.entries hwf ht hk hde hino hn

/-! ### What `writei` writes -/

theorem fileByte_iupdate (h : Owned sb st i ip) (size : ℕ) {x : ℕ} (hx : Mapped st.disk ip x) :
    fileByte (st.iupdate sb i { ip with size }).disk { ip with size } x =
      fileByte st.disk ip x := by
  have hdata {q : Pos} (hq : ptr st.disk ip q ≠ 0) :
      (st.iupdate sb i { ip with size }).disk (ptr st.disk ip q) = st.disk (ptr st.disk ip q) :=
    putDinode_of_le _ h.alloc.1 _ (le_trans sb.bmapstart_le_nmeta (h.ptr_mem hq).1)
  have hptr : ptr (st.iupdate sb i { ip with size }).disk { ip with size } (dataPos (x / bSize)) =
      ptr st.disk ip (dataPos (x / bSize)) :=
    ptr_congr rfl (fun hind => hdata (q := .addr (Fin.last nDirect)) hind) _
  rw [fileByte, hptr, hdata hx, fileByte]

/-- `writei` refuses, or it writes the first bytes of its source from `off` on and keeps what is
outside the part it was asked to write. -/
theorem writei_writes (h : Clean sb st) (hi : i < sb.ninodes)
    (hsame : SameBlocks ip (dinode sb st.disk i)) (ht : ip.type ≠ 0) (src : ℕ → Option UInt8)
    (off : ℕ) {n : ℕ} (hn : n < 2 ^ 32) :
    Ends (fun _ => False)
      (fun r => r.1 = -1 ∧ r.2 = (ip, st) ∨ ∃ k : ℕ, r.1 = (k : ℤ) ∧ k ≤ n ∧ off ≤ ip.size ∧
        off + n ≤ maxFile * bSize ∧ r.2.1.size = max ip.size (off + k) ∧
        (∀ t < k, some (fileByte r.2.2.disk r.2.1 (off + t)) = src t) ∧
        ∀ x < ip.size, x < off ∨ off + n ≤ x →
          fileByte r.2.2.disk r.2.1 x = fileByte st.disk ip x)
      (writeiBlocks sb i ip st src off n) := by
  rw [writeiBlocks]
  split_ifs with hoff hmax
  · exact .inl ⟨rfl, rfl⟩
  · exact .inl ⟨rfl, rfl⟩
  · have hheld := h.held hi hsame ht
    have hwf := hheld.wellFormed
    have hle := hwf.size_le
    have hcov : Covered st ip off := fun bn hbn => hwf.mapped bn (by omega)
    have hend : off + n ≤ maxFile * bSize := by
      have hlt : maxFile * bSize < 2 ^ 31 := by decide
      omega
    refine Ends.bind ((writeLoop_writes hheld.owned src n 0 off (by omega) (by omega)).mono ?_)
    rintro ⟨tot, off', ip', st'⟩ ⟨h', hrw, -, -, heq, -, hnew, hw, -⟩
    dsimp only at h' hrw heq hnew hw ⊢
    have htot := hw.le_left
    refine .inr ⟨tot, rfl, by omega, by omega, hend, ?_, fun t hlt => ?_, fun x hx hout => ?_⟩
    · rw [hrw.ext.size_eq, heq, Nat.sub_zero]
    · rw [fileByte_iupdate h' _ (hnew _ (by omega) (by omega)), hw.bytes t (by omega), Nat.zero_add]
    · have hmapped : Mapped st.disk ip x :=
        hwf.mapped _ (lt_of_le_of_lt (Nat.div_mul_le_self _ _) hx)
      rw [fileByte_iupdate h' _ (hw.mapped x hmapped), hw.frame x hmapped (by omega)]

end Xv6.Fs
