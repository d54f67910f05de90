import Xv6.MallocFreeList

/-!
# Calls of `malloc`

What a call of `malloc` does to the free list: it takes a block of the right size, from the free
blocks or from memory that `sbrk` gives, or it returns 0 since `sbrk` failed.
-/

namespace Xv6.Umalloc

open OperationPrograms LittleEndianBlocks AddressOrderedFreeLists
open Vm (npages pgSize maxVa kernBase physTop le_npages)

variable {ram : Ram} {F : Trap → Prop} {s s' : User} {base n fuel : ℕ}
  {L L' : List Extent} {b c : Extent}

/-- The number of units that `morecore` asks for. -/
def coreUnits (n : ℕ) : ℕ := if n < 4096 then 4096 else n

theorem coreUnits_pos (n : ℕ) : 0 < coreUnits n := by
  unfold coreUnits
  split <;> omega

theorem le_coreUnits (n : ℕ) : n ≤ coreUnits n := by
  unfold coreUnits
  split <;> omega

/-- The state after `sbrk` has grown the memory by `k` bytes. -/
def User.grown (ram : Ram) (s : User) (k : ℕ) : User :=
  { s with
    calls := s.calls + 1, granted := (k : ℤ) :: s.granted, sz := s.sz + k
    mem := filled s.mem (ram.bytes s.calls) (npages s.sz * pgSize) (npages (s.sz + k) * pgSize) }

theorem sbrk_ofNat (ram : Ram) {k : ℕ} (hpos : 0 < k) (hk : k < 2 ^ 31) (hsz : s.sz ≤ memSize) :
    s.sbrk ram (Int32.ofNat k) =
      if ram.deny s.calls ∨ memSize < s.sz + k then (2 ^ 64 - 1, { s with calls := s.calls + 1 })
      else (s.sz, s.grown ram k) := by
  have hint : (Int32.ofNat k).toInt = k := Int32.toInt_ofNat_of_lt hk
  have hlt : 0 < Int32.ofNat k := by
    rw [Int32.lt_iff_toInt_lt, Int32.toInt_zero, hint]
    exact_mod_cast hpos
  have hnew : (((s.sz : ℤ) + (k : ℤ)) % 2 ^ 64).toNat = s.sz + k := by
    unfold memSize kernBase physTop pgSize at hsz
    omega
  rw [User.sbrk]
  simp only [hint, hnew, if_pos hlt]
  rfl

def KeepsOthers (base : ℕ) (s s' : User) (L : List Extent) : Prop :=
  ∀ c, Inside base s.sz c → (∀ x ∈ L, Apart headerSize c x) →
    ∀ i, c.addr ≤ i → i < c.stop headerSize → getByte s'.mem i = getByte s.mem i

theorem Keeps.others {M : List Extent} {hi : ℕ} (h : Keeps s s' (b :: ⟨base, 0⟩ :: L))
    (hL : ∀ x ∈ L, Inside base hi x) (hsub : ∀ x ∈ L, x ∈ M)
    (hb : ∃ y ∈ M, y.addr ≤ b.addr ∧ b.addr + headerSize ≤ y.stop headerSize) :
    KeepsOthers base s s' M := by
  intro c hc hapart i hi hi'
  refine h i (List.forall_mem_cons.mpr ⟨?_, List.forall_mem_cons.mpr ⟨?_, fun x hx => ?_⟩⟩)
  · obtain ⟨y, hy, hle, hstop⟩ := hb
    have hcy := hapart y hy
    unfold Apart at hcy
    omega
  · exact .inr (hc.low.trans hi)
  · have hx' := (hL x hx).header_le
    have hcx := hapart x (hsub x hx)
    unfold Apart at hcx
    omega

theorem getByte_filled {mem new : Bytes maxVa} {lo hi i : ℕ} (h : i < lo) :
    getByte (filled mem new lo hi) i = getByte mem i := by
  unfold getByte filled
  split
  · rw [if_neg (by dsimp only; omega)]
  · rfl

theorem getByte_filled_inside {mem new : Bytes maxVa} {lo hi i : ℕ} (hlo : lo ≤ i) (hhi : i < hi) :
    getByte (filled mem new lo hi) i = getByte new i := by
  unfold getByte filled
  split
  · rw [if_pos ⟨hlo, hhi⟩]
  · rfl

theorem RingAt.freep_ne (h : RingAt base s L) : s.freep ≠ 0 := by
  obtain ⟨c, hc, hfreep⟩ := h.freep
  have hle := h.base_le hc
  have hpos := h.pos
  omega

theorem RingAt.grown (ram : Ram) (h : RingAt base s L) {k : ℕ} (hk : s.sz + k ≤ memSize) :
    RingAt base (s.grown ram k) L := by
  have hsz := le_npages s.sz
  have hbytes (p : ℕ) (hp : p + headerSize ≤ s.sz) (i : ℕ) (_ : p ≤ i) (hi : i < p + headerSize) :
      getByte (s.grown ram k).mem i = getByte s.mem i := getByte_filled (by omega)
  have hhead (x : Extent) (hx : x ∈ ⟨base, 0⟩ :: L) : x.addr + headerSize ≤ s.sz := by
    rcases List.mem_cons.mp hx with rfl | hx
    · exact h.room
    · exact (h.inside x hx).header_le.trans (h.inside x hx).high
  refine ⟨h.pos, h.room.trans (Nat.le_add_right _ _), hk, ?_, h.gapped,
    fun x hx => (h.inside x hx).mono (Nat.le_add_right _ _), h.freep⟩
  exact h.stored.congr (fun x hx => ptrAt_congr (hbytes _ (hhead x hx)))
    fun x hx => sizeAt_congr (hbytes _ (hhead x hx))

theorem RingAt.of_sets {p v m : ℕ} (h : RingAt base s L) (hset : Sets s s' p v m)
    (hp : ∀ x ∈ ⟨base, 0⟩ :: L, x.addr + headerSize ≤ p) : RingAt base s' L := by
  have hsz : s'.sz = s.sz := by rw [hset.rest]
  have hfreep : s'.freep = s.freep := by rw [hset.rest]
  exact ⟨h.pos, hsz ▸ h.room, hsz ▸ h.memory,
    h.stored.congr (fun x hx => hset.ptr_other (.inl (hp x hx)))
      fun x hx => hset.size_other (.inl (hp x hx)),
    h.gapped, hsz ▸ h.inside, hfreep ▸ h.freep⟩

theorem morecore_eq (fuel n : ℕ) : morecore fuel n = (do
    let p ← sbrk (Int32.ofNat (coreUnits n * headerSize))
    if p = 2 ^ 64 - 1 then
      return 0
    else
      setSize p (coreUnits n)
      free fuel (after p 1)
      getFreep) := rfl

variable {Q : ℕ → User → Prop}

/-- `morecore` puts the new memory into the ring, or fails for want of it. -/
theorem morecore_spec (h : RingAt base s L) (hn : coreUnits n * headerSize < 2 ^ 31)
    (hfuel : L.length < fuel)
    (hfail : ram.deny s.calls = true ∨ memSize < s.sz + coreUnits n * headerSize →
      Q 0 { s with calls := s.calls + 1 })
    (hok : ∀ s' L', RingAt base s' L' → Inserted headerSize L ⟨s.sz, coreUnits n⟩ L' →
      KeepsOthers base s s' L → s'.sz = s.sz + coreUnits n * headerSize →
      s'.granted = ((coreUnits n * headerSize : ℕ) : ℤ) :: s.granted → Q s'.freep s') :
    Ensures ram F (morecore fuel n) Q s := by
  have hmem : s.sz ≤ 2 ^ 27 := h.memory
  have hunit : headerSize = 16 := rfl
  have hpos := coreUnits_pos n
  have hk : 0 < coreUnits n * headerSize := Nat.mul_pos hpos (by omega)
  have hsbrk := sbrk_ofNat ram hk hn h.memory
  rw [morecore_eq, ensures_bind, ensures_sbrk, hsbrk]
  by_cases hdeny : ram.deny s.calls = true ∨ memSize < s.sz + coreUnits n * headerSize
  · rw [if_pos hdeny, if_pos rfl, ensures_pure]
    exact hfail hdeny
  rw [if_neg hdeny, if_neg (by omega), ensures_bind]
  have hroom : s.sz + coreUnits n * headerSize ≤ memSize := by omega
  have hring := h.grown ram hroom
  have hle := le_npages (s.sz + coreUnits n * headerSize)
  refine ensures_setSize ⟨hroom, ?_⟩ fun s₁ hset => ?_
  · exact (Nat.add_le_add_left (Nat.le_mul_of_pos_left headerSize hpos) _).trans hle
  have hsz : s₁.sz = s.sz + coreUnits n * headerSize := by
    rw [hset.rest]
    rfl
  have hhead (x : Extent) (hx : x ∈ ⟨base, 0⟩ :: L) : x.addr + headerSize ≤ s.sz := by
    rcases List.mem_cons.mp hx with rfl | hx
    · exact h.room
    · exact (h.inside x hx).header_le.trans (h.inside x hx).high
  have hring₁ := hring.of_sets hset hhead
  have hmemSize : memSize = 2 ^ 27 := rfl
  have hn32 : coreUnits n % 2 ^ 32 = coreUnits n := by
    have := Nat.le_mul_of_pos_right (coreUnits n) (show 0 < headerSize by omega)
    exact Nat.mod_eq_of_lt (by omega)
  rw [ensures_bind]
  have hin : Inside base s₁.sz ⟨s.sz, coreUnits n⟩ := by
    refine ⟨h.room, ?_, hpos⟩
    rw [hsz, Extent.stop, Nat.mul_comm]
  refine free_spec (b := ⟨s.sz, coreUnits n⟩) hring₁ hin ?_ (fun x hx => ?_) hfuel
    fun s₂ L₂ hring₂ hinserted hkeeps hrest => ?_
  · rw [hset.size, hn32]
  · exact .inr (h.inside x hx).high
  · rw [ensures_getFreep]
    refine hok s₂ L₂ hring₂ hinserted (fun c hc hapart i hi hi' => ?_) ?_ ?_
    · have hsub : ∀ x ∈ L, x ∈ (⟨s.sz, coreUnits n⟩ : Extent) :: L :=
        fun x hx => List.mem_cons_of_mem _ hx
      have hothers := hkeeps.others h.inside hsub ⟨_, List.mem_cons_self, le_rfl, hin.header_le⟩
      have hsz' := le_npages s.sz
      have hlt := hi'.trans_le hc.high
      rw [hothers c (hc.mono (hsz ▸ Nat.le_add_right _ _))
        (List.forall_mem_cons.mpr ⟨.inl hc.high, hapart⟩) i hi hi', hset.bytes i (.inl hlt)]
      exact getByte_filled (by omega)
    · rw [hrest]
      exact hsz
    · rw [hrest, hset.rest]
      rfl

/-- No free block had `n` units, and `sbrk` was called and failed. -/
structure Refused (ram : Ram) (base n : ℕ) (s s' : User) (L : List Extent) : Prop where
  ring : RingAt base s' L
  small : ∀ x ∈ L, x.size < n
  failed : ram.deny s.calls = true ∨ memSize < s.sz + coreUnits n * headerSize
  calls : s'.calls = s.calls + 1
  granted : s'.granted = s.granted
  sz : s'.sz = s.sz
  others : KeepsOthers base s s' L

/-- The blocks from which `malloc` takes one: the free ones, or those with the memory that
`morecore` has got. -/
inductive Supply (n : ℕ) (s s' : User) (L : List Extent) : List Extent → Prop
  | same (hgranted : s'.granted = s.granted) (hsz : s'.sz = s.sz) : Supply n s s' L L
  | more {L₁ : List Extent} (hL : Inserted headerSize L ⟨s.sz, coreUnits n⟩ L₁)
      (hgranted : s'.granted = ((coreUnits n * headerSize : ℕ) : ℤ) :: s.granted)
      (hsz : s'.sz = s.sz + coreUnits n * headerSize) : Supply n s s' L L₁

structure Taken (base n : ℕ) (s s' : User) (L : List Extent) (b : Extent) (L' : List Extent) :
    Prop where
  ring : RingAt base s' L'
  carved : ∃ L₁, Supply n s s' L L₁ ∧ Carved headerSize n L₁ b L'
  size : sizeAt s'.mem b.addr = n
  inside : Inside base s'.sz b
  others : KeepsOthers base s s' L

theorem inside_of_carved {hi : ℕ} (h : Carved headerSize n L b L') (hn : 0 < n)
    (hL : ∀ x ∈ L, Inside base hi x) : Inside base hi b := by
  obtain ⟨p, hp, hle, hstop⟩ := h.part
  have hp' := hL p hp
  exact ⟨hp'.low.trans hle, hstop.trans hp'.high, h.size ▸ hn⟩

theorem search_found (h : RingAt base s L) (hn : 0 < n) (hsome : ∃ x ∈ L, n ≤ x.size)
    (hQ : ∀ s' b L', RingAt base s' L' → Carved headerSize n L b L' → sizeAt s'.mem b.addr = n →
      Keeps s s' (b :: ⟨base, 0⟩ :: L) → s' = { s with mem := s'.mem, freep := s'.freep } →
      Q (after b.addr 1) s')
    (hfuel : L.length < fuel) :
    Ensures ram F (do mallocLoop n fuel s.freep (← ptr s.freep)) Q s := by
  obtain ⟨k, rfl⟩ : ∃ k, fuel = k + L.length + 1 := ⟨fuel - L.length - 1, by omega⟩
  refine search_spec h hn (fun A e d B hN hle => takeBlock_spec h hN hn hle hQ) fun hsmall => ?_
  obtain ⟨x, hx, hle⟩ := hsome
  exact absurd (hsmall x hx) (by omega)

theorem mallocLoop_spec (h : RingAt base s L) (hn : 0 < n)
    (hint : coreUnits n * headerSize < 2 ^ 31) (hfuel : 2 * L.length + 3 ≤ fuel)
    (hrefused : ∀ s', Refused ram base n s s' L → Q 0 s')
    (htaken : ∀ s' b L', Taken base n s s' L b L' → Q (after b.addr 1) s') :
    Ensures ram F (do mallocLoop n fuel s.freep (← ptr s.freep)) Q s := by
  obtain ⟨k, rfl⟩ : ∃ k, fuel = k + L.length + 1 := ⟨fuel - L.length - 1, by omega⟩
  have hunit : headerSize = 16 := rfl
  refine search_spec h hn (fun A e d B hN hle => ?_) fun hsmall => ?_
  · refine takeBlock_spec h hN hn hle fun s' b L' hring hcarved hsize hkeeps hrest => ?_
    have hin := inside_of_carved hcarved hn h.inside
    obtain ⟨p, hp, hpb, hstop⟩ := hcarved.part
    refine htaken s' b L' ⟨hring, ⟨L, .same ?_ ?_, hcarved⟩, hsize, ?_, ?_⟩
    · rw [hrest]
    · rw [hrest]
    · rw [hrest]
      exact hin
    · exact hkeeps.others h.inside (fun _ hx => hx) ⟨p, hp, hpb, hin.header_le.trans hstop⟩
  · rw [grow, ensures_bind]
    refine morecore_spec h hint (by omega) (fun hfailed => ?_)
      fun s₁ L₁ hring₁ hL₁ hothers hsz hgranted => ?_
    · rw [if_pos rfl, ensures_pure]
      have hring : RingAt base { s with calls := s.calls + 1 } L :=
        ⟨h.pos, h.room, h.memory, h.stored, h.gapped, h.inside, h.freep⟩
      exact hrefused _ ⟨hring, hsmall, hfailed, rfl, rfl, rfl, fun _ _ _ _ _ _ => rfl⟩
    · rw [if_neg hring₁.freep_ne]
      obtain ⟨x, hx, hle⟩ := hL₁.large
      have hlen := hL₁.length
      refine search_found hring₁ hn ⟨x, hx, (le_coreUnits n).trans hle⟩
        (fun s₂ b L₂ hring₂ hcarved hsize hkeeps hrest => ?_) (by omega)
      have hin := inside_of_carved hcarved hn hring₁.inside
      obtain ⟨p, hp, hpb, hstop⟩ := hcarved.part
      refine htaken s₂ b L₂ ⟨hring₂, ⟨L₁, .more hL₁ ?_ ?_, hcarved⟩, hsize, ?_, ?_⟩
      · rw [hrest]
        exact hgranted
      · rw [hrest]
        exact hsz
      · rw [hrest]
        exact hin
      · intro c hc hapart i hi hi'
        have hothers₂ := hkeeps.others hring₁.inside (fun _ hx => hx)
          ⟨p, hp, hpb, hin.header_le.trans hstop⟩
        have hapart₁ := hL₁.apart (by omega) hc.pos hapart (.inl hc.high)
        rw [hothers₂ c (hc.mono (hsz ▸ Nat.le_add_right _ _)) hapart₁ i hi hi',
          hothers c hc hapart i hi hi']

section First

-- a state that differs only in the header of `base` and in `freep`
variable {s₀ : User} (hrest : s = { s₀ with mem := s.mem, freep := s.freep })
  (hbytes : ∀ i, base + headerSize ≤ i → getByte s.mem i = getByte s₀.mem i)

include hrest hbytes

theorem KeepsOthers.of_first (h : KeepsOthers base s s' L) : KeepsOthers base s₀ s' L := by
  have hsz : s.sz = s₀.sz := by rw [hrest]
  intro c hc hapart i hi hi'
  rw [h c (hsz ▸ hc) hapart i hi hi', hbytes i (hc.low.trans hi)]

theorem Refused.of_first (h : Refused ram base n s s' L) : Refused ram base n s₀ s' L := by
  have hsz : s.sz = s₀.sz := by rw [hrest]
  have hcalls : s.calls = s₀.calls := by rw [hrest]
  have hgranted : s.granted = s₀.granted := by rw [hrest]
  exact ⟨h.ring, h.small, hsz ▸ hcalls ▸ h.failed, hcalls ▸ h.calls, hgranted ▸ h.granted,
    hsz ▸ h.sz, h.others.of_first hrest hbytes⟩

theorem Taken.of_first (h : Taken base n s s' L b L') : Taken base n s₀ s' L b L' := by
  have hsz : s.sz = s₀.sz := by rw [hrest]
  have hgranted : s.granted = s₀.granted := by rw [hrest]
  refine ⟨h.ring, ?_, h.size, h.inside, h.others.of_first hrest hbytes⟩
  obtain ⟨L₁, hsupply, hcarved⟩ := h.carved
  refine ⟨L₁, ?_, hcarved⟩
  cases hsupply with
  | same hg hs => exact .same (hg.trans hgranted) (hs.trans hsz)
  | more hL hg hs =>
    rw [hsz] at hL hs
    rw [hgranted] at hg
    exact .more hL hg hs

end First

structure Fresh (base : ℕ) (s : User) : Prop where
  pos : 0 < base
  room : base + headerSize ≤ s.sz
  memory : s.sz ≤ memSize
  freep : s.freep = 0

/-- The free blocks are `L`. -/
def FreeList (base : ℕ) (s : User) (L : List Extent) : Prop :=
  Fresh base s ∧ L = [] ∨ RingAt base s L

theorem FreeList.memory (h : FreeList base s L) : s.sz ≤ memSize := by
  rcases h with hfresh | hring
  · exact hfresh.1.memory
  · exact hring.memory

theorem nunits_eq (nbytes : UInt32) : nunits nbytes = (nbytes.toNat + 15) / 16 + 1 := by
  have hlt := nbytes.toNat_lt
  unfold nunits headerSize
  omega

theorem le_nunits (nbytes : UInt32) : nbytes.toNat + headerSize ≤ headerSize * nunits nbytes := by
  rw [nunits_eq]
  unfold headerSize
  omega

theorem coreUnits_int {nbytes : UInt32} (h : nunits nbytes * headerSize < 2 ^ 31) :
    coreUnits (nunits nbytes) * headerSize < 2 ^ 31 := by
  unfold coreUnits headerSize at *
  split <;> omega

theorem malloc_enter {nbytes : UInt32} (h : FreeList base s L)
    (hQ : ∀ s', RingAt base s' L → s' = { s with mem := s'.mem, freep := s'.freep } →
      (∀ i, base + headerSize ≤ i → getByte s'.mem i = getByte s.mem i) →
      Ensures ram F (do mallocLoop (nunits nbytes) fuel s'.freep (← ptr s'.freep)) Q s') :
    Ensures ram F (malloc base fuel nbytes) Q s := by
  rw [malloc, ensures_bind, ensures_getFreep]
  rcases h with ⟨hfresh, rfl⟩ | hring
  · have hmem : s.sz ≤ 2 ^ 27 := hfresh.memory
    have hunit : headerSize = 16 := rfl
    have hroom := hfresh.room
    have hsz := le_npages s.sz
    have hheader : Header s base := ⟨hfresh.memory, by omega⟩
    rw [if_pos hfresh.freep, ensures_bind, ensures_setFreep, ensures_bind]
    refine ensures_setPtr hheader (by omega) fun s₁ hset₁ => ?_
    have hsz₁ : s₁.sz = s.sz := by rw [hset₁.rest]
    rw [ensures_bind]
    refine ensures_setSize (hheader.of_sz hsz₁) fun s₂ hset₂ => ?_
    have hset := hset₁.trans hset₂
    have hrest : s₂ = { s with mem := s₂.mem, freep := base } := hset.rest
    have hsz₂ : s₂.sz = s.sz := by rw [hrest]
    have hfreep : s₂.freep = base := by rw [hrest]
    rw [ensures_bind, ensures_getFreep]
    refine hQ s₂ ⟨hfresh.pos, hsz₂ ▸ hroom, hsz₂ ▸ hfresh.memory, ⟨hset.size, ?_, trivial⟩,
      List.pairwise_singleton _ _, nofun, ⟨⟨base, 0⟩, List.mem_cons_self, hfreep.symm⟩⟩
      (by rw [hrest]) fun i hi => hset.bytes i (.inr hi)
    rw [hset₂.ptr, hset₁.ptr]
    rfl
  · rw [if_neg hring.freep_ne, ensures_bind, ensures_getFreep]
    exact hQ s hring rfl fun _ _ => rfl

theorem nunits_pos (nbytes : UInt32) : 0 < nunits nbytes := by
  rw [nunits_eq]
  omega

/-- `malloc` takes a block out of the ring, or fails for want of memory. -/
theorem malloc_spec {nbytes : UInt32} (h : FreeList base s L)
    (hint : nunits nbytes * headerSize < 2 ^ 31) (hfuel : 2 * L.length + 3 ≤ fuel)
    (hrefused : ∀ s', Refused ram base (nunits nbytes) s s' L → Q 0 s')
    (htaken : ∀ s' b L', Taken base (nunits nbytes) s s' L b L' → Q (after b.addr 1) s') :
    Ensures ram F (malloc base fuel nbytes) Q s := by
  refine malloc_enter h fun s₀ hring hrest hbytes => ?_
  exact mallocLoop_spec hring (nunits_pos nbytes) (coreUnits_int hint) hfuel
    (fun s' hs' => hrefused s' (hs'.of_first hrest hbytes))
    fun s' b L' hs' => htaken s' b L' (hs'.of_first hrest hbytes)

end Xv6.Umalloc
