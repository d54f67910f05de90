import Xv6.MallocRuns

/-!
# Huge requests to `malloc`

`morecore` multiplies a number of units by the size of a header, and `sbrk` takes an `int`. A
request whose product is not an `int` makes `sbrk` give other memory than `malloc` hands out.
-/

namespace Xv6.Umalloc

open OperationPrograms LittleEndianBlocks AddressOrderedFreeLists
open Vm (npages pgSize maxVa)

variable {ram : Ram} {F : Trap → Prop} {base fuel : ℕ} {s : User} {L : List Extent}

/-- What a call of `malloc` that returns `r` promises. If `sbrk` gave memory, then it was asked
for what `morecore` wants. The block in front of `r` has room for the bytes, and it is in the
memory of the process. A request that is not an `int` gets 0. -/
structure Honest (nbytes : UInt32) (s : User) (r : ℕ) (u : User) : Prop where
  asked : u.granted = s.granted ∨
    u.granted = ((coreUnits (nunits nbytes) * headerSize : ℕ) : ℤ) :: s.granted
  room : r ≠ 0 → ∃ b : Extent, r = b.addr + headerSize ∧ sizeAt u.mem b.addr = b.size ∧
    nbytes.toNat + headerSize ≤ headerSize * b.size ∧ b.stop headerSize ≤ u.sz
  refused : 2 ^ 31 ≤ nunits nbytes * headerSize → r = 0

theorem honest_of_int {nbytes : UInt32} {r : ℕ} {u : User} (h : FreeList base s L)
    (hint : nunits nbytes * headerSize < 2 ^ 31)
    (hrun : Prog.run (perform ram) (malloc base fuel nbytes) s = .ok (r, u)) :
    Honest nbytes s r u := by
  refine Ensures.of_run (Q := Honest nbytes s) (fun k => malloc_succ base k nbytes)
    (fun k hk => malloc_spec h hint hk ?_ ?_) hrun
  · exact fun u hu => ⟨.inl hu.granted, fun hr => absurd rfl hr, fun hle => absurd hint (by omega)⟩
  · intro u b L' hu
    obtain ⟨L₁, hsupply, hcarved⟩ := hu.carved
    have hr := after_one (hu.inside.lt hu.ring.memory)
    refine ⟨?_, fun _ => ⟨b, hr, hu.size.trans hcarved.size.symm, ?_, hu.inside.high⟩,
      fun hle => absurd hint (by omega)⟩
    · cases hsupply with
      | same hgranted _ => exact .inl hgranted
      | more _ hgranted _ => exact .inr hgranted
    · rw [hcarved.size]
      exact le_nunits nbytes

structure SamePage (s s' : User) : Prop where
  bytes : ∀ i, i < pgSize → getByte s'.mem i = getByte s.mem i
  freep : s'.freep = s.freep
  pages : npages s'.sz = 1
  memory : s'.sz ≤ memSize

theorem npages_eq_one {k : ℕ} (hpos : 0 < k) (hk : k ≤ pgSize) : npages k = 1 := by
  unfold npages pgSize at *
  omega

theorem sbrk_huge {v : ℕ} (hsz : s.sz = 40) (hlow : 2 ^ 31 ≤ v) (hhigh : v ≤ 2 ^ 32 + 16)
    (hdvd : 16 ∣ v) :
    ∃ u, s.sbrk ample (Int32.ofNat v) = (40, u) ∧ SamePage s u := by
  have hint : (Int32.ofNat v).toInt = v - 2 ^ 32 := by
    rw [Int32.toInt_ofNat', Int.bmod_def, show Int32.size = 2 ^ 32 from rfl]
    omega
  have hpos : 0 < Int32.ofNat v ↔ 2 ^ 32 < v := by
    rw [Int32.lt_iff_toInt_lt, hint, Int32.toInt_zero]
    omega
  have hneg : Int32.ofNat v < 0 ↔ v < 2 ^ 32 := by
    rw [Int32.lt_iff_toInt_lt, hint, Int32.toInt_zero]
    omega
  have hpage : (40 : ℕ) ≤ pgSize := by decide
  have hmem : pgSize ≤ memSize := by decide
  rw [User.sbrk]
  simp only [hint, hsz, hpos, hneg]
  by_cases hlarge : 2 ^ 32 < v
  · have hnew : (((40 : ℕ) + ((v : ℤ) - 2 ^ 32)) % 2 ^ 64).toNat ≤ 56 := by omega
    have hnew' : 0 < (((40 : ℕ) + ((v : ℤ) - 2 ^ 32)) % 2 ^ 64).toNat := by omega
    generalize (((40 : ℕ) + ((v : ℤ) - 2 ^ 32)) % 2 ^ 64).toNat = newsz at hnew hnew'
    have hroom : newsz ≤ pgSize := hnew.trans (by decide)
    have hdeny : ¬ (ample.deny s.calls = true ∨ memSize < newsz) :=
      fun h => h.elim Bool.false_ne_true (hroom.trans hmem).not_gt
    rw [if_pos hlarge, if_neg hdeny]
    refine ⟨_, rfl, fun i hi => getByte_filled ?_, rfl, npages_eq_one hnew' hroom, hroom.trans hmem⟩
    rw [npages_eq_one (by omega) hpage]
    omega
  · rw [if_neg hlarge]
    by_cases hsmall : v < 2 ^ 32
    · rw [if_pos hsmall]
      -- a process that would be left with less than nothing stays as it is
      have hnew : 0 < (((40 : ℕ) + ((v : ℤ) - 2 ^ 32)) % 2 ^ 64).toNat := by
        omega
      generalize (((40 : ℕ) + ((v : ℤ) - 2 ^ 32)) % 2 ^ 64).toNat = newsz at hnew
      have hsz' : 0 < (if newsz < 40 then newsz else 40) ∧
          (if newsz < 40 then newsz else 40) ≤ 40 := by
        split <;> omega
      have hle := hsz'.2.trans hpage
      exact ⟨_, rfl, fun i hi => rfl, rfl, npages_eq_one hsz'.1 hle, hle.trans hmem⟩
    · rw [if_neg hsmall]
      exact ⟨_, rfl, fun i hi => rfl, rfl, npages_eq_one Nat.succ_pos' hpage, hpage.trans hmem⟩

/-- A small process, with `base` behind its first bytes. -/
def tinyUser : User := ⟨fun _ => 0, 40, 0, 0, []⟩

theorem tinyUser_fresh : Fresh 16 tinyUser := ⟨by decide, by decide, by decide, rfl⟩

structure TinyList (s : User) (L : List Extent) : Prop where
  stored : Stored (ptrAt s.mem) (sizeAt s.mem) 16 (⟨16, 0⟩ :: L)
  freep : s.freep = 16
  pages : npages s.sz = 1
  memory : s.sz ≤ memSize

theorem TinyList.header (h : TinyList s L) {p : ℕ} (hp : p ≤ 40) : Header s p := by
  refine ⟨h.memory, ?_⟩
  rw [h.pages]
  unfold pgSize headerSize
  omega

theorem TinyList.free_spec {n : ℕ} {Q : Unit → User → Prop} (h : TinyList s [])
    (hn : 0 < n ∧ n < 2 ^ 32) (hsize : sizeAt s.mem 40 = n)
    (hQ : ∀ s', TinyList s' [⟨40, n⟩] → Q () s') :
    Ensures ram F (free (fuel + 1) (after 40 1)) Q s := by
  obtain ⟨hbase, hptr, -⟩ := h.stored
  rw [free, after_sub (by decide), ensures_bind, ensures_getFreep, h.freep, ensures_bind]
  have hstops : Stops (ptrAt s.mem) 40 16 := by
    rw [Stops, hptr, first]
    decide
  refine findPlace_spec (z := 16) (C := [⟨16, 0⟩]) h.stored ?_ ⟨_, List.mem_cons_self, hstops⟩
    (Nat.le_add_left _ _) (List.forall_mem_singleton.mpr fun _ => ?_)
  · exact List.forall_mem_singleton.mpr (h.header (by decide))
  rw [ensures_bind]
  refine ensures_ptr (h.header (by decide)) ?_
  rw [hptr, first, ensures_bind]
  have hstop : (⟨40, n⟩ : Extent).stop headerSize = 40 + 16 * n := rfl
  have hfar : 16 + headerSize ≤ 40 := by decide
  refine linkNext_spec (b := ⟨40, n⟩) (h.header le_rfl) hsize (by omega) (by decide)
    (fun htouch => by omega) fun s₁ _ hset₁ => ?_
  replace hset₁ := hset₁ (by omega)
  have hsz₁ : s₁.sz = s.sz := by rw [hset₁.rest]
  rw [ensures_bind]
  refine linkNext_spec (b := ⟨16, 0⟩) ((h.header (by decide)).of_sz hsz₁) ?_ (by decide) (by decide)
    (fun htouch => absurd htouch (by decide)) fun s₂ _ hset₂ => ?_
  · rw [hset₁.size_other (.inl hfar)]
    exact hbase
  replace hset₂ := hset₂ (by decide)
  have hsz₂ : s₂.sz = s.sz := by rw [hset₂.rest, hsz₁]
  rw [ensures_setFreep]
  refine hQ _ ⟨⟨hset₂.size, hset₂.ptr, ?_, ?_, trivial⟩, rfl, hsz₂ ▸ h.pages, hsz₂ ▸ h.memory⟩
  · rw [hset₂.size_other (.inr hfar), hset₁.size]
  · rw [hset₂.ptr_other (.inr hfar), hset₁.ptr]
    rfl

theorem TinyList.mallocLoop_spec {n : ℕ} {Q : ℕ → User → Prop} (h : TinyList s [⟨40, n⟩])
    (hQ : ∀ s', Q 56 s') : Ensures ram F (mallocLoop n (fuel + 1) 16 40) Q s := by
  obtain ⟨-, -, hsize, hptr, -⟩ := h.stored
  rw [mallocLoop, ensures_bind]
  refine ensures_size (h.header le_rfl) ?_
  rw [hsize, if_pos le_rfl, takeBlock, ensures_bind]
  refine ensures_size (h.header le_rfl) ?_
  rw [hsize, if_pos rfl, ensures_bind]
  refine ensures_ptr (h.header le_rfl) ?_
  rw [ensures_bind]
  refine ensures_setPtr (h.header (by decide)) (getField_lt _ _ _) fun s₁ _ => ?_
  rw [ensures_bind, ensures_setFreep, ensures_pure]
  exact hQ _

theorem grow_huge {n : ℕ} {Q : ℕ → User → Prop} (h : RingAt 16 s []) (hsz : s.sz = 40)
    (hlow : 2 ^ 31 ≤ n * headerSize) (hhigh : n * headerSize ≤ 2 ^ 32 + 16) (hQ : ∀ s', Q 56 s') :
    Ensures ample F (grow n (fuel + 1)) Q s := by
  obtain ⟨u, hsbrk, hpage⟩ := sbrk_huge hsz hlow hhigh ⟨n, Nat.mul_comm _ _⟩
  unfold headerSize at hlow hhigh
  have hcore : coreUnits n = n := if_neg (by omega)
  have hheader : Header u 40 := by
    refine ⟨hpage.memory, ?_⟩
    rw [hpage.pages]
    decide
  rw [grow, ensures_bind, morecore_eq, ensures_bind, ensures_sbrk, hcore, hsbrk,
    if_neg (show ¬ 40 = 2 ^ 64 - 1 by decide), ensures_bind]
  refine ensures_setSize hheader fun s₁ hset => ?_
  have hlist : TinyList s₁ [] := by
    obtain ⟨hsize, hptr, -⟩ := h.stored
    have hsz₁ : s₁.sz = u.sz := by rw [hset.rest]
    have hfar : 16 + headerSize ≤ 40 := by decide
    have hbytes (i : ℕ) (_ : 16 ≤ i) (hi : i < 16 + headerSize) :
        getByte u.mem i = getByte s.mem i :=
      hpage.bytes i (hi.trans (by decide))
    refine ⟨⟨?_, ?_, trivial⟩, ?_, hsz₁ ▸ hpage.pages, hsz₁ ▸ hpage.memory⟩
    · exact ((hset.size_other (.inl hfar)).trans (sizeAt_congr hbytes)).trans hsize
    · exact ((hset.ptr_other (.inl hfar)).trans (ptrAt_congr hbytes)).trans hptr
    · obtain ⟨c, hc, hfreep⟩ := h.freep
      rw [hset.rest]
      dsimp only
      rw [hpage.freep, ← hfreep, List.mem_singleton.mp hc]
  rw [ensures_bind]
  refine hlist.free_spec ⟨by omega, by omega⟩ (hset.size.trans (Nat.mod_eq_of_lt (by omega)))
    fun s₂ hlist₂ => ?_
  rw [ensures_getFreep, hlist₂.freep, if_neg (by decide), ensures_bind]
  refine ensures_ptr (hlist₂.header (by decide)) ?_
  rw [hlist₂.stored.2.1]
  exact hlist₂.mallocLoop_spec hQ

theorem malloc_huge {nbytes : UInt32} (hlow : 2 ^ 31 ≤ nunits nbytes * headerSize) :
    ∃ fuel u, Prog.run (perform ample) (malloc 16 fuel nbytes) tinyUser = .ok (56, u) := by
  have hhigh : nunits nbytes * headerSize ≤ 2 ^ 32 + 16 := by
    have hlt := nbytes.toNat_lt
    rw [nunits_eq]
    unfold headerSize
    omega
  have hmalloc : Ensures ample (fun _ => False)
      (malloc 16 (2 + ([] : List Extent).length + 1) nbytes) (fun r _ => r = 56) tinyUser := by
    refine malloc_enter (.inl ⟨tinyUser_fresh, rfl⟩) fun s hring hrest _ => ?_
    refine search_spec hring (nunits_pos nbytes) (fun A e d B hN => ?_) fun _ => ?_
    · have hlen := congrArg List.length hN
      simp at hlen
      omega
    · refine grow_huge hring ?_ hlow hhigh fun _ => rfl
      rw [hrest]
      rfl
  obtain ⟨r, u, hrun, rfl⟩ := hmalloc.run
  exact ⟨_, u, hrun⟩

/-- `malloc` keeps its promise for a number of bytes, in all states of the free list, if and only
if the number of bytes for `sbrk` is an `int`. -/
theorem malloc_honest_iff (nbytes : UInt32) :
    (∀ ram base s L, FreeList base s L → ∀ fuel r u,
      Prog.run (perform ram) (malloc base fuel nbytes) s = .ok (r, u) → Honest nbytes s r u) ↔
    nunits nbytes * headerSize < 2 ^ 31 := by
  refine ⟨fun h => ?_, fun hint ram base s L hlist fuel r u => honest_of_int hlist hint⟩
  by_contra hlow
  rw [Nat.not_lt] at hlow
  obtain ⟨fuel, u, hrun⟩ := malloc_huge hlow
  have hhonest := h _ 16 tinyUser [] (.inl ⟨tinyUser_fresh, rfl⟩) fuel 56 u hrun
  exact absurd (hhonest.refused hlow) (by decide)

/-- A request for `2 ^ 32 - 1` bytes gets 16 bytes from `sbrk`, and does not fail. -/
theorem malloc_overpromises :
    ∃ u, Prog.run (perform ample) (malloc 0x1000 3 0xFFFFFFFF) freshUser = .ok (18448, u) ∧
      u.granted = [16] ∧ u.sz = 18448 ∧ ¬ Honest 0xFFFFFFFF freshUser 18448 u := by
  have hrun : (Prog.run (perform ample) (malloc 0x1000 3 0xFFFFFFFF) freshUser).map
      (fun r => (r.1, r.2.granted, r.2.sz)) = .ok (18448, [16], 18448) := by
    decide +kernel
  cases hu : Prog.run (perform ample) (malloc 0x1000 3 0xFFFFFFFF) freshUser with
  | error e =>
    rw [hu] at hrun
    cases hrun
  | ok r =>
    rw [hu] at hrun
    obtain ⟨r, u⟩ := r
    obtain ⟨hr, hrest⟩ := Prod.mk.inj (Except.ok.inj hrun)
    obtain ⟨hgranted, hsz⟩ := Prod.mk.inj hrest
    dsimp only at hr hgranted hsz
    subst hr
    refine ⟨u, rfl, hgranted, hsz, fun hhonest => ?_⟩
    exact absurd (hhonest.refused (by decide)) (by decide)

end Xv6.Umalloc
