import Xv6.MallocCalls
import Xv6.TransitionSystems

/-!
# Runs of `malloc` and `free`

A program calls `malloc` and `free`, writes to the blocks that it has, and may get memory from
`sbrk` by itself. In every state that it reaches the free list is sound, and the next call
returns.
-/

namespace Xv6.Umalloc

open OperationPrograms LittleEndianBlocks AddressOrderedFreeLists TransitionSystems
open Vm (npages pgSize maxVa le_npages)

variable {α : Type} {ram : Ram} {base fuel : ℕ} {L L' : List Extent}

theorem stop_extends (m : U α) : Prog.Extends (perform ram) stop m := by
  intro s r h
  cases h

theorem findPlace_succ (bp fuel p : ℕ) :
    Prog.Extends (perform ram) (findPlace bp fuel p) (findPlace bp (fuel + 1) p) := by
  induction fuel generalizing p with
  | zero => exact stop_extends _
  | succ fuel ih =>
    exact .bind (.refl _) fun next => .ite (.refl _) (.ite (.refl _) (ih next))

theorem free_succ (fuel ap : ℕ) :
    Prog.Extends (perform ram) (free fuel ap) (free (fuel + 1) ap) :=
  .bind (.refl _) fun p => .bind (findPlace_succ _ fuel p) fun _ => .refl _

theorem morecore_succ (fuel nu : ℕ) :
    Prog.Extends (perform ram) (morecore fuel nu) (morecore (fuel + 1) nu) :=
  .bind (.refl _) fun _ => .ite (.refl _) <|
    .bind (.refl _) fun _ => .bind (free_succ fuel _) fun _ => .refl _

theorem mallocLoop_succ (n fuel prevp p : ℕ) :
    Prog.Extends (perform ram) (mallocLoop n fuel prevp p) (mallocLoop n (fuel + 1) prevp p) := by
  induction fuel generalizing prevp p with
  | zero => exact stop_extends _
  | succ fuel ih =>
    refine .bind (.refl _) fun _ => .ite (.refl _) (.bind (.refl _) fun _ => .ite ?_ ?_)
    · exact .bind (morecore_succ fuel n) fun _ => .ite (.refl _) (.bind (.refl _) fun _ => ih _ _)
    · exact .bind (.refl _) fun _ => ih _ _

theorem malloc_succ (base fuel : ℕ) (nbytes : UInt32) :
    Prog.Extends (perform ram) (malloc base fuel nbytes) (malloc base (fuel + 1) nbytes) := by
  have hloop : Prog.Extends (perform ram)
      (do let prevp ← getFreep; mallocLoop (nunits nbytes) fuel prevp (← ptr prevp))
      (do let prevp ← getFreep; mallocLoop (nunits nbytes) (fuel + 1) prevp (← ptr prevp)) :=
    .bind (.refl _) fun _ => .bind (.refl _) fun _ => mallocLoop_succ _ _ _ _
  refine .bind (.refl _) fun _ => .ite ?_ hloop
  exact .bind (.refl _) fun _ => .bind (.refl _) fun _ => .bind (.refl _) fun _ => hloop

theorem Ensures.of_run {m : ℕ → U α} {Q : α → User → Prop} {s s' : User} {a : α} {N : ℕ}
    (hm : ∀ k, Prog.Extends (perform ram) (m k) (m (k + 1)))
    (h : ∀ k, N ≤ k → Ensures ram (fun _ => False) (m k) Q s)
    (hrun : Prog.run (perform ram) (m fuel) s = .ok (a, s')) : Q a s' := by
  obtain ⟨a', s'', hrun', hQ⟩ := (h (max fuel N) (Nat.le_max_right _ _)).run
  rw [Prog.extends_of_le hm (Nat.le_max_left fuel N) s _ hrun] at hrun'
  cases hrun'
  exact hQ

/-- A block that the program has got from `malloc`, and the bytes that it has asked for. -/
structure Given where
  block : Extent
  bytes : UInt32

def Given.ptr (g : Given) : ℕ := g.block.addr + headerSize

/-- The process, the blocks that its program has, and the memory that `malloc` has got from
`sbrk`. -/
structure State where
  user : User
  live : List Given
  heap : List Extent

inductive Call where
  | malloc (nbytes : UInt32)
  | free (ap : ℕ)
  | write
  | sbrk (k : ℕ)

/-- The heap after a call of `malloc` that ends in `u`. -/
def State.heapAfter (s : State) (u : User) : List Extent :=
  if u.sz = s.user.sz then s.heap
  else ⟨s.user.sz, (u.sz - s.user.sz) / headerSize⟩ :: s.heap

/-- The blocks of the program after a call of `malloc` that returns `r`. -/
def State.liveAfter (s : State) (nbytes : UInt32) (r : ℕ) (u : User) : List Given :=
  if r = 0 then s.live
  else ⟨⟨r - headerSize, sizeAt u.mem (r - headerSize)⟩, nbytes⟩ :: s.live

/-- The memory of `malloc`: the header `base`, and what it has got from `sbrk`. -/
def State.Reserved (base : ℕ) (s : State) (i : ℕ) : Prop :=
  base ≤ i ∧ i < base + headerSize ∨ ∃ c ∈ s.heap, c.addr ≤ i ∧ i < c.stop headerSize

def State.Usable (s : State) (i : ℕ) : Prop :=
  ∃ g ∈ s.live, g.ptr ≤ i ∧ i < g.block.stop headerSize

/-- Steps of a program that frees only what it has, does not ask for too much, and writes to the
memory of `malloc` only in its blocks. -/
inductive Step (ram : Ram) (base : ℕ) : State → Call → State → Prop
  | malloc {s : State} {fuel r : ℕ} {u : User} {nbytes : UInt32}
      (hint : nunits nbytes * headerSize < 2 ^ 31)
      (hrun : Prog.run (perform ram) (malloc base fuel nbytes) s.user = .ok (r, u)) :
      Step ram base s (.malloc nbytes) ⟨u, s.liveAfter nbytes r u, s.heapAfter u⟩
  | free {s : State} {fuel : ℕ} {u : User} {g : Given} {A B : List Given}
      (hg : s.live = A ++ g :: B)
      (hrun : Prog.run (perform ram) (free fuel g.ptr) s.user = .ok ((), u)) :
      Step ram base s (.free g.ptr) ⟨u, A ++ B, s.heap⟩
  | write {s : State} {mem : Bytes maxVa}
      (hmem : ∀ i, s.Reserved base i → ¬ s.Usable i → getByte mem i = getByte s.user.mem i) :
      Step ram base s .write { s with user := { s.user with mem } }
  | sbrk {s : State} {k : ℕ} (hpos : 0 < k) (hk : k < 2 ^ 31) :
      Step ram base s (.sbrk k) { s with user := (s.user.sbrk ram (Int32.ofNat k)).2 }

/-- A program that has not called `malloc` yet. -/
def Init (base : ℕ) (s : State) : Prop := Fresh base s.user ∧ s.live = [] ∧ s.heap = []

def Covered (heap : List Extent) (b : Extent) : Prop :=
  ∀ i, b.addr ≤ i → i < b.stop headerSize → ∃ c ∈ heap, c.addr ≤ i ∧ i < c.stop headerSize

/-- The free blocks `L` and the blocks of the program share out the heap. -/
structure Sound (base : ℕ) (s : State) (L : List Extent) : Prop where
  list : FreeList base s.user L
  first : s.live ≠ [] → s.user.freep ≠ 0
  apart : ∀ g ∈ s.live, ∀ x ∈ L, Apart headerSize g.block x
  live : s.live.Pairwise fun g h => Apart headerSize g.block h.block
  inside : ∀ g ∈ s.live, Inside base s.user.sz g.block
  size : ∀ g ∈ s.live, sizeAt s.user.mem g.block.addr = g.block.size
  room : ∀ g ∈ s.live, g.bytes.toNat + headerSize ≤ headerSize * g.block.size
  free_covered : ∀ x ∈ L, Covered s.heap x
  live_covered : ∀ g ∈ s.live, Covered s.heap g.block
  counted : units L + units (s.live.map Given.block) = units s.heap

variable {s s' : State} {u : User} {b c : Extent}

theorem Init.sound (h : Init base s) : Sound base s [] := by
  obtain ⟨hfresh, hlive, hheap⟩ := h
  refine ⟨.inl ⟨hfresh, rfl⟩, fun hne => absurd hlive hne, ?_, ?_, ?_, ?_, ?_, nofun, ?_, ?_⟩
  all_goals simp [hlive, hheap]

theorem Covered.mono {heap heap' : List Extent} (h : Covered heap b)
    (hsub : ∀ c ∈ heap, c ∈ heap') :
    Covered heap' b := by
  intro i hi hi'
  obtain ⟨c, hc, hci⟩ := h i hi hi'
  exact ⟨c, hsub c hc, hci⟩

theorem Covered.join {heap : List Extent} (hb : Covered heap b) (hc : Covered heap c)
    (htouch : b.stop headerSize = c.addr) : Covered heap ⟨b.addr, b.size + c.size⟩ := by
  intro i hi hi'
  rw [stop_join htouch] at hi'
  by_cases h : i < b.stop headerSize
  · exact hb i hi h
  · exact hc i (by omega) hi'

theorem Sound.size_of_others {g : Given} (h : Sound base s L) (hg : g ∈ s.live)
    (hothers : KeepsOthers base s.user u L') (hapart : ∀ x ∈ L', Apart headerSize g.block x) :
    sizeAt u.mem g.block.addr = g.block.size := by
  have hin := h.inside g hg
  rw [← h.size g hg]
  exact sizeAt_congr fun i hi hi' => hothers _ hin hapart i hi (hi'.trans_le hin.header_le)

theorem Covered.part {heap : List Extent} (h : Covered heap c) (hle : c.addr ≤ b.addr)
    (hstop : b.stop headerSize ≤ c.stop headerSize) : Covered heap b :=
  fun i hi hi' => h i (hle.trans hi) (hi'.trans_le hstop)

theorem Sound.refused {n : ℕ} (h : Sound base s L) (hu : Refused ram base n s.user u L) :
    Sound base ⟨u, s.live, s.heap⟩ L where
  list := .inr hu.ring
  first _ := hu.ring.freep_ne
  apart := h.apart
  live := h.live
  inside g hg := (h.inside g hg).mono hu.sz.ge
  size g hg := h.size_of_others hg hu.others (h.apart g hg)
  room := h.room
  free_covered := h.free_covered
  live_covered := h.live_covered
  counted := h.counted

structure Supplied (s : State) (heap L : List Extent) : Prop where
  apart : ∀ g ∈ s.live, ∀ x ∈ L, Apart headerSize g.block x
  old : ∀ c ∈ s.heap, c ∈ heap
  covered : ∀ x ∈ L, Covered heap x
  counted : units L + units (s.live.map Given.block) = units heap

theorem Sound.supplied {n : ℕ} {L₁ : List Extent} (h : Sound base s L)
    (hsupply : Supply n s.user u L L₁) : Supplied s (s.heapAfter u) L₁ := by
  have hunit : 0 < headerSize := by decide
  rw [State.heapAfter]
  cases hsupply with
  | same _ hsz =>
    rw [if_pos hsz]
    exact ⟨h.apart, fun _ hc => hc, h.free_covered, h.counted⟩
  | more hL _ hsz =>
    have hpos := Nat.mul_pos (coreUnits_pos n) hunit
    rw [if_neg (by omega), hsz, Nat.add_sub_cancel_left, Nat.mul_div_cancel _ hunit]
    have hsub : ∀ c ∈ s.heap, c ∈ ⟨s.user.sz, coreUnits n⟩ :: s.heap :=
      fun c hc => List.mem_cons_of_mem _ hc
    refine ⟨fun g hg => ?_, hsub, ?_, ?_⟩
    · exact hL.apart hunit (h.inside g hg).pos (h.apart g hg) (.inl (h.inside g hg).high)
    · refine hL.forall_mem _ (fun x hx => (h.free_covered x hx).mono hsub)
        (fun i hi hi' => ⟨_, List.mem_cons_self, hi, hi'⟩) fun x y => Covered.join
    · have hcounted := h.counted
      rw [hL.units, units_cons]
      dsimp only
      omega

theorem Sound.taken {nbytes : UInt32} (h : Sound base s L)
    (hu : Taken base (nunits nbytes) s.user u L b L') :
    Sound base ⟨u, ⟨b, nbytes⟩ :: s.live, s.heapAfter u⟩ L' := by
  obtain ⟨L₁, hsupply, hcarved⟩ := hu.carved
  have hle : s.user.sz ≤ u.sz := by
    cases hsupply with
    | same _ hsz => exact hsz.ge
    | more _ _ hsz => exact hsz ▸ Nat.le_add_right _ _
  obtain ⟨hapart, hheap, hcovered, hcounted⟩ := h.supplied hsupply
  have hsize (g : Given) (hg : g ∈ s.live) := h.size_of_others hg hu.others (h.apart g hg)
  refine ⟨.inr hu.ring, fun _ => hu.ring.freep_ne, ?_, ?_, ?_, ?_, ?_, fun x hx => ?_, ?_, ?_⟩
  · exact List.forall_mem_cons.mpr ⟨hcarved.self, fun g hg => (hcarved.apart (hapart g hg)).2⟩
  · refine List.pairwise_cons.mpr ⟨fun g hg => ?_, h.live⟩
    exact apart_comm.mp (hcarved.apart (hapart g hg)).1
  · exact List.forall_mem_cons.mpr ⟨hu.inside, fun g hg => (h.inside g hg).mono hle⟩
  · exact List.forall_mem_cons.mpr ⟨hu.size.trans hcarved.size.symm, hsize⟩
  · refine List.forall_mem_cons.mpr ⟨?_, h.room⟩
    rw [hcarved.size]
    exact le_nunits nbytes
  · obtain ⟨p, hp, haddr, hstop, -⟩ := hcarved.parts x hx
    exact (hcovered p hp).part haddr.le hstop
  · obtain ⟨p, hp, haddr, hstop⟩ := hcarved.part
    exact List.forall_mem_cons.mpr ⟨(hcovered p hp).part haddr hstop,
      fun g hg => (h.live_covered g hg).mono hheap⟩
  · have hunits := hcarved.units
    have hn := hcarved.size
    rw [List.map_cons, units_cons]
    dsimp only at hcounted ⊢
    omega

theorem after_one {p : ℕ} (h : p < memSize) : after p 1 = p + headerSize := by
  have hmem : memSize = 2 ^ 27 := rfl
  unfold after headerSize
  omega

theorem Inside.lt {hi : ℕ} (h : Inside base hi b) (hhi : hi ≤ memSize) : b.addr < memSize := by
  have hle := h.header_le
  have hhigh := h.high
  have hunit : headerSize = 16 := rfl
  omega

theorem Sound.malloc {nbytes : UInt32} {r : ℕ} (h : Sound base s L)
    (hint : nunits nbytes * headerSize < 2 ^ 31)
    (hrun : Prog.run (perform ram) (malloc base fuel nbytes) s.user = .ok (r, u)) :
    ∃ L', Sound base ⟨u, s.liveAfter nbytes r u, s.heapAfter u⟩ L' := by
  refine Ensures.of_run
    (Q := fun r u => ∃ L', Sound base ⟨u, s.liveAfter nbytes r u, s.heapAfter u⟩ L')
    (fun k => malloc_succ base k nbytes) (fun k hk => malloc_spec h.list hint hk ?_ ?_) hrun
  · intro u hu
    refine ⟨L, ?_⟩
    rw [State.liveAfter, if_pos rfl, State.heapAfter, if_pos hu.sz]
    exact h.refused hu
  · intro u b L' hu
    have hr := after_one (hu.inside.lt hu.ring.memory)
    obtain ⟨_, _, hcarved⟩ := hu.carved
    have hb : (⟨b.addr, sizeAt u.mem b.addr⟩ : Extent) = b :=
      Extent.ext rfl (hu.size.trans hcarved.size.symm)
    refine ⟨L', ?_⟩
    rw [State.liveAfter, hr, if_neg (by unfold headerSize; omega), Nat.add_sub_cancel, hb]
    exact h.taken hu

theorem Sound.ring (h : Sound base s L) (hlive : s.live ≠ []) : RingAt base s.user L := by
  rcases h.list with ⟨hfresh, -⟩ | hring
  · exact absurd hfresh.freep (h.first hlive)
  · exact hring

theorem Sound.free_spec {g : Given} {Q : Unit → User → Prop} {F : Trap → Prop} (h : Sound base s L)
    (hg : g ∈ s.live) (hfuel : L.length < fuel)
    (hQ : ∀ u L', RingAt base u L' → Inserted headerSize L g.block L' →
      KeepsOthers base s.user u (g.block :: L) → u.sz = s.user.sz → Q () u) :
    Ensures ram F (free fuel g.ptr) Q s.user := by
  have hring := h.ring (List.ne_nil_of_mem hg)
  have hin := h.inside g hg
  have hptr : g.ptr = after g.block.addr 1 := (after_one (hin.lt hring.memory)).symm
  rw [hptr]
  refine Umalloc.free_spec hring hin (h.size g hg) (h.apart g hg) hfuel
    fun u L' hring' hinserted hkeeps hrest => hQ u L' hring' hinserted ?_ ?_
  · exact hkeeps.others hring.inside (fun _ hx => List.mem_cons_of_mem _ hx)
      ⟨_, List.mem_cons_self, le_rfl, hin.header_le⟩
  · rw [hrest]

theorem Sound.free {g : Given} {A B : List Given} (h : Sound base s L)
    (hlive : s.live = A ++ g :: B)
    (hrun : Prog.run (perform ram) (free fuel g.ptr) s.user = .ok ((), u)) :
    ∃ L', Sound base ⟨u, A ++ B, s.heap⟩ L' := by
  have hg : g ∈ s.live := by simp [hlive]
  have hsub : ∀ x ∈ A ++ B, x ∈ s.live := by
    intro x hx
    rw [hlive, List.mem_append, List.mem_cons]
    exact (List.mem_append.mp hx).imp_right .inr
  have hpair : (g :: (A ++ B)).Pairwise fun g h => Apart headerSize g.block h.block := by
    refine (List.pairwise_middle ?_).mp (hlive ▸ h.live)
    exact apart_comm.mp
  obtain ⟨hgapart, hlive'⟩ := List.pairwise_cons.mp hpair
  refine Ensures.of_run (Q := fun _ u => ∃ L', Sound base ⟨u, A ++ B, s.heap⟩ L')
    (fun k => free_succ k g.ptr) (fun k hk => h.free_spec hg hk ?_) hrun
  intro u L' hring hinserted hothers hsz
  have hunit : 0 < headerSize := by decide
  refine ⟨L', .inr hring, fun _ => hring.freep_ne, fun x hx => ?_, hlive', fun x hx => ?_,
    fun x hx => ?_, fun x hx => h.room x (hsub x hx), ?_,
    fun x hx => h.live_covered x (hsub x hx), ?_⟩
  · exact hinserted.apart hunit (h.inside x (hsub x hx)).pos (h.apart x (hsub x hx))
      (apart_comm.mp (hgapart x hx))
  · exact (h.inside x (hsub x hx)).mono hsz.ge
  · refine h.size_of_others (hsub x hx) hothers
      (List.forall_mem_cons.mpr ⟨?_, h.apart x (hsub x hx)⟩)
    exact apart_comm.mp (hgapart x hx)
  · exact hinserted.forall_mem _ h.free_covered (h.live_covered g hg) fun x y => Covered.join
  · have hcounted := h.counted
    rw [hlive] at hcounted
    simp only [List.map_append, List.map_cons, units_append, units_cons] at hcounted ⊢
    rw [hinserted.units]
    omega

theorem Sound.free_not_usable {x : Extent} {i : ℕ} (h : Sound base s L) (hx : x ∈ L)
    (hi : x.addr ≤ i) (hi' : i < x.stop headerSize) : ¬ s.Usable i := by
  rintro ⟨g, hg, hptr, hstop⟩
  have hapart := h.apart g hg x hx
  unfold Apart at hapart
  unfold Given.ptr at hptr
  omega

theorem Sound.header_not_usable {g : Given} {i : ℕ} (h : Sound base s L) (hg : g ∈ s.live)
    (hi : g.block.addr ≤ i) (hi' : i < g.ptr) : ¬ s.Usable i := by
  rintro ⟨g', hg', hptr, hstop⟩
  by_cases hne : g = g'
  · rw [hne] at hi'
    omega
  · have : Std.Symm fun g h : Given => Apart headerSize g.block h.block :=
      ⟨fun _ _ => apart_comm.mp⟩
    have hapart := h.live.forall hg hg' hne
    have hle := (h.inside g hg).header_le
    unfold Apart at hapart
    unfold Given.ptr at hi' hptr
    omega

theorem Sound.write {mem : Bytes maxVa} (h : Sound base s L)
    (hmem : ∀ i, s.Reserved base i → ¬ s.Usable i → getByte mem i = getByte s.user.mem i) :
    Sound base { s with user := { s.user with mem } } L := by
  refine ⟨?_, h.first, h.apart, h.live, h.inside, fun g hg => ?_, h.room, h.free_covered,
    h.live_covered, h.counted⟩
  · rcases h.list with hfresh | hring
    · exact .inl ⟨⟨hfresh.1.pos, hfresh.1.room, hfresh.1.memory, hfresh.1.freep⟩, hfresh.2⟩
    have hheader (x : Extent) (hx : x ∈ ⟨base, 0⟩ :: L) (i : ℕ) (hi : x.addr ≤ i)
        (hi' : i < x.addr + headerSize) : getByte mem i = getByte s.user.mem i := by
      rcases List.mem_cons.mp hx with rfl | hx
      · refine hmem i (.inl ⟨hi, hi'⟩) ?_
        rintro ⟨g, hg, hptr, -⟩
        have hlow := (h.inside g hg).low
        unfold Given.ptr at hptr
        dsimp only at hi'
        omega
      · have hstop := hi'.trans_le (hring.inside x hx).header_le
        exact hmem i (.inr (h.free_covered x hx i hi hstop)) (h.free_not_usable hx hi hstop)
    refine .inr ⟨hring.pos, hring.room, hring.memory, ?_, hring.gapped, hring.inside, hring.freep⟩
    exact hring.stored.congr (fun x hx => ptrAt_congr (hheader x hx))
      fun x hx => sizeAt_congr (hheader x hx)
  · rw [← h.size g hg]
    refine sizeAt_congr fun i hi hi' => hmem i (.inr ?_) (h.header_not_usable hg hi hi')
    exact h.live_covered g hg i hi (hi'.trans_le (h.inside g hg).header_le)

theorem Sound.sbrk {k : ℕ} (h : Sound base s L) (hpos : 0 < k) (hk : k < 2 ^ 31) :
    Sound base { s with user := (s.user.sbrk ram (Int32.ofNat k)).2 } L := by
  rw [sbrk_ofNat ram hpos hk h.list.memory]
  by_cases hdeny : ram.deny s.user.calls = true ∨ memSize < s.user.sz + k
  · rw [if_pos hdeny]
    refine ⟨?_, h.first, h.apart, h.live, h.inside, h.size, h.room, h.free_covered, h.live_covered,
      h.counted⟩
    rcases h.list with hfresh | hring
    · exact .inl ⟨⟨hfresh.1.pos, hfresh.1.room, hfresh.1.memory, hfresh.1.freep⟩, hfresh.2⟩
    · exact .inr ⟨hring.pos, hring.room, hring.memory, hring.stored, hring.gapped, hring.inside,
        hring.freep⟩
  · rw [if_neg hdeny]
    have hroom : s.user.sz + k ≤ memSize := by omega
    refine ⟨?_, h.first, h.apart, h.live,
      fun g hg => (h.inside g hg).mono (Nat.le_add_right _ _), fun g hg => ?_, h.room,
      h.free_covered, h.live_covered, h.counted⟩
    · rcases h.list with hfresh | hring
      · exact .inl ⟨⟨hfresh.1.pos, hfresh.1.room.trans (Nat.le_add_right _ _), hroom,
          hfresh.1.freep⟩, hfresh.2⟩
      · exact .inr (hring.grown ram hroom)
    · rw [← h.size g hg]
      refine sizeAt_congr fun i _ hi' => getByte_filled ?_
      have hin := h.inside g hg
      have hsz := le_npages s.user.sz
      have hheader := hin.header_le
      have hhigh := hin.high
      omega

/-- Calls of `malloc`, `free` and `sbrk` and stores of the program keep the picture. -/
theorem Sound.step {e : Call} (h : Sound base s L) (hs : Step ram base s e s') :
    ∃ L', Sound base s' L' := by
  cases hs with
  | malloc hint hrun => exact h.malloc hint hrun
  | free hlive hrun => exact h.free hlive hrun
  | write hmem => exact ⟨L, h.write hmem⟩
  | sbrk hpos hk => exact ⟨L, h.sbrk hpos hk⟩

theorem exists_sound (h : Reachable (Init base) (Step ram base) s) : ∃ L, Sound base s L :=
  h.invariant (I := fun s => ∃ L, Sound base s L) (fun _ hs => ⟨[], hs.sound⟩)
    fun _ _ _ ⟨_, hs⟩ hstep => hs.step hstep

/-- The list from `freep` on is a ring. It has `base` and the free blocks, in the order of their
addresses with one wrap, and there are gaps between them. -/
def Circular (base : ℕ) (s : User) (L : List Extent) : Prop :=
  ∃ A B, ⟨base, 0⟩ :: L = A ++ B ∧ first 0 (B ++ A) = s.freep ∧
    Looped (ptrAt s.mem) (sizeAt s.mem) (B ++ A) ∧ Gapped headerSize (A ++ B)

theorem RingAt.circular {u : User} (h : RingAt base u L) : Circular base u L := by
  obtain ⟨A, B, c, hN, hfreep, hring⟩ := h.from_freep
  exact ⟨A, c :: B, hN, hfreep, hring, hN ▸ h.gapped⟩

def SbrkFailed (s u : User) : Prop := u.calls = s.calls + 1 ∧ u.granted = s.granted

/-- In every state that a program reaches the free blocks and its own ones share out the heap,
the free list is a ring from the first call of `malloc` on, and all calls return. -/
theorem free_list_sound {ram : Ram} {base : ℕ} {s : State}
    (h : Reachable (Init base) (Step ram base) s) :
    ∃ L, Sound base s L ∧ (s.user.freep ≠ 0 → Circular base s.user L) ∧
      (∀ nbytes, nunits nbytes * headerSize < 2 ^ 31 → ∃ fuel r u,
        Prog.run (perform ram) (malloc base fuel nbytes) s.user = .ok (r, u) ∧
        (r = 0 → SbrkFailed s.user u ∧ ∀ x ∈ L, x.size < nunits nbytes)) ∧
      ∀ g ∈ s.live, ∃ fuel u, Prog.run (perform ram) (free fuel g.ptr) s.user = .ok ((), u) := by
  obtain ⟨L, hsound⟩ := exists_sound h
  refine ⟨L, hsound, fun hfreep => ?_, fun nbytes hint => ?_, fun g hg => ?_⟩
  · rcases hsound.list with hfresh | hring
    · exact absurd hfresh.1.freep hfreep
    · exact hring.circular
  · have hmalloc : Ensures ram (fun _ => False) (malloc base (2 * L.length + 3) nbytes)
        (fun r u => r = 0 → SbrkFailed s.user u ∧ ∀ x ∈ L, x.size < nunits nbytes) s.user := by
      refine malloc_spec hsound.list hint le_rfl (fun u hu _ => ?_) fun u b L' hu hr => ?_
      · exact ⟨⟨hu.calls, hu.granted⟩, hu.small⟩
      · rw [after_one (hu.inside.lt hu.ring.memory)] at hr
        exact absurd hr (Nat.add_pos_right _ (by decide)).ne'
    obtain ⟨r, u, hrun, hr⟩ := hmalloc.run
    exact ⟨_, r, u, hrun, hr⟩
  · have hfree :
        Ensures ram (fun _ => False) (free (L.length + 1) g.ptr) (fun _ _ => True) s.user :=
      hsound.free_spec hg (Nat.lt_succ_self _) fun _ _ _ _ _ _ => trivial
    obtain ⟨⟨⟩, u, hrun, -⟩ := hfree.run
    exact ⟨_, u, hrun⟩

def ample : Ram := ⟨fun _ => false, fun _ _ => 0⟩

/-- A process of eighteen kilobytes, with `base` behind its first page. -/
def freshUser : User := ⟨fun _ => 0, 0x4800, 0, 0, []⟩

theorem freshUser_init : Init 0x1000 ⟨freshUser, [], []⟩ :=
  ⟨⟨by decide, by decide, by decide, rfl⟩, rfl, rfl⟩

theorem free_list_sound_first_block :
    ∃ s : State, s.live ≠ [] ∧ ∃ L, Sound 0x1000 s L ∧ Circular 0x1000 s.user L := by
  have hrun : (Prog.run (perform ample) (malloc 0x1000 3 100) freshUser).map (·.1) =
      .ok 83856 := by
    decide +kernel
  cases hu : Prog.run (perform ample) (malloc 0x1000 3 100) freshUser with
  | error e =>
    rw [hu] at hrun
    cases hrun
  | ok r =>
    rw [hu] at hrun
    obtain ⟨r, u⟩ := r
    obtain rfl : r = 83856 := Except.ok.inj hrun
    have hstep := Step.malloc (s := ⟨freshUser, [], []⟩) (by decide) hu
    obtain ⟨L, hsound, hring, -⟩ := free_list_sound ((Reachable.of_init freshUser_init).step hstep)
    have hlive := List.cons_ne_nil (⟨⟨83840, sizeAt u.mem 83840⟩, 100⟩ : Given) []
    exact ⟨_, hlive, L, hsound, hring (hsound.first hlive)⟩

end Xv6.Umalloc
