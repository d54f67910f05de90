import Xv6.UserMalloc

/-!
# The free list of `malloc`

What `free` and `malloc` do to the ring of free blocks. It starts with `base`, and the blocks
follow in the order of their addresses.
-/

namespace Xv6.Umalloc

open OperationPrograms LittleEndianBlocks AddressOrderedFreeLists
open Vm (npages pgSize maxVa kernBase physTop le_npages)

/-- A program run from a state ends with `Q`, or stops with a trap in `F`. -/
def Ensures {α : Type} (ram : Ram) (F : Trap → Prop) (prog : U α) (Q : α → User → Prop)
    (s : User) : Prop := Prog.wp (Prog.guarantee (perform ram) F) prog Q s

variable {α β : Type} {ram : Ram} {F : Trap → Prop} {s s' s'' : User}

theorem ensures_pure (a : α) (Q : α → User → Prop) : Ensures ram F (pure a) Q s ↔ Q a s :=
  Iff.rfl

theorem ensures_bind (x : U α) (f : α → U β) (Q : β → User → Prop) :
    Ensures ram F (x >>= f) Q s ↔ Ensures ram F x (fun a => Ensures ram F (f a) Q) s := by
  unfold Ensures
  rw [Prog.wp_bind]

theorem ensures_load {a k : ℕ} {Q : ℕ → User → Prop} (hfits : s.Fits a k)
    (hQ : Q (getField s.mem a k) s) : Ensures ram F (load a k) Q s := by
  have hends : Ends F (fun r => Q r.1 r.2) (perform ram (.load a k) s) := by
    rw [perform, if_pos hfits]
    exact hQ
  exact hends

variable {Q : Unit → User → Prop}

theorem ensures_store {a v k : ℕ} (hfits : s.Fits a k)
    (hQ : Q () { s with mem := putField s.mem a v k }) : Ensures ram F (store a v k) Q s := by
  have hends : Ends F (fun r => Q r.1 r.2) (perform ram (.store a v k) s) := by
    rw [perform, if_pos hfits]
    exact hQ
  exact hends

theorem ensures_getFreep (Q : ℕ → User → Prop) : Ensures ram F getFreep Q s ↔ Q s.freep s :=
  Iff.rfl

theorem ensures_setFreep (p : ℕ) (Q : Unit → User → Prop) :
    Ensures ram F (setFreep p) Q s ↔ Q () { s with freep := p } := Iff.rfl

theorem ensures_sbrk (n : Int32) (Q : ℕ → User → Prop) :
    Ensures ram F (sbrk n) Q s ↔ Q (s.sbrk ram n).1 (s.sbrk ram n).2 := Iff.rfl

-- Otherwise the program would be run whenever a statement about it is looked at.
attribute [irreducible] Ensures

theorem Ensures.run {prog : U α} {Q : α → User → Prop}
    (h : Ensures ram (fun _ => False) prog Q s) :
    ∃ a s', Prog.run (perform ram) prog s = .ok (a, s') ∧ Q a s' := by
  unfold Ensures at h
  exact Prog.exists_run_of_wp h

def ptrAt (mem : Bytes maxVa) (p : ℕ) : ℕ := getField mem p 8

def sizeAt (mem : Bytes maxVa) (p : ℕ) : ℕ := getField mem (p + 8) 4

/-- The header at `p` has become one with address `v` and size `n`, and nothing else has
changed. -/
structure Sets (s s' : User) (p v n : ℕ) : Prop where
  ptr : ptrAt s'.mem p = v
  size : sizeAt s'.mem p = n
  bytes : ∀ i, i < p ∨ p + headerSize ≤ i → getByte s'.mem i = getByte s.mem i
  rest : s' = { s with mem := s'.mem }

theorem Sets.trans {p v n v' n' : ℕ} (h : Sets s s' p v n) (h' : Sets s' s'' p v' n') :
    Sets s s'' p v' n' where
  ptr := h'.ptr
  size := h'.size
  bytes i hi := (h'.bytes i hi).trans (h.bytes i hi)
  rest := by
    rw [h'.rest, h.rest]

theorem ptrAt_congr {mem mem' : Bytes maxVa} {p : ℕ}
    (h : ∀ i, p ≤ i → i < p + headerSize → getByte mem' i = getByte mem i) :
    ptrAt mem' p = ptrAt mem p :=
  getField_congr p 8 fun i hi hi' => h i hi (by unfold headerSize; omega)

theorem sizeAt_congr {mem mem' : Bytes maxVa} {p : ℕ}
    (h : ∀ i, p ≤ i → i < p + headerSize → getByte mem' i = getByte mem i) :
    sizeAt mem' p = sizeAt mem p :=
  getField_congr (p + 8) 4 fun i hi hi' => h i (by omega) (by unfold headerSize; omega)

theorem Sets.ptr_other {p v n q : ℕ} (h : Sets s s' p v n)
    (hq : q + headerSize ≤ p ∨ p + headerSize ≤ q) : ptrAt s'.mem q = ptrAt s.mem q :=
  ptrAt_congr fun i hi hi' => h.bytes i (by omega)

theorem Sets.size_other {p v n q : ℕ} (h : Sets s s' p v n)
    (hq : q + headerSize ≤ p ∨ p + headerSize ≤ q) : sizeAt s'.mem q = sizeAt s.mem q :=
  sizeAt_congr fun i hi hi' => h.bytes i (by omega)

theorem Sets.stored {p v n z : ℕ} {C : List Extent} (h : Sets s s' p v n)
    (hC : Stored (ptrAt s.mem) (sizeAt s.mem) z C)
    (hfar : ∀ x ∈ C, x.addr + headerSize ≤ p ∨ p + headerSize ≤ x.addr) :
    Stored (ptrAt s'.mem) (sizeAt s'.mem) z C :=
  hC.congr (fun x hx => h.ptr_other (hfar x hx)) fun x hx => h.size_other (hfar x hx)

def Header (s : User) (p : ℕ) : Prop := s.sz ≤ memSize ∧ p + headerSize ≤ npages s.sz * pgSize

theorem Header.lt (h : Header s p) : p + headerSize ≤ maxVa := by
  obtain ⟨hsz, hp⟩ := h
  have hle : npages s.sz * pgSize ≤ maxVa := by
    unfold memSize kernBase physTop pgSize at hsz
    unfold npages pgSize maxVa
    omega
  exact hp.trans hle

theorem Header.of_sz (h : Header s p) (hsz : s'.sz = s.sz) : Header s' p := by
  rwa [Header, hsz]

theorem ensures_ptr {p : ℕ} {Q : ℕ → User → Prop} (h : Header s p) (hQ : Q (ptrAt s.mem p) s) :
    Ensures ram F (ptr p) Q s :=
  ensures_load (by have := h.2; unfold headerSize at this; unfold User.Fits; omega) hQ

theorem ensures_size {p : ℕ} {Q : ℕ → User → Prop} (h : Header s p)
    (hQ : Q (sizeAt s.mem p) s) : Ensures ram F (size p) Q s :=
  ensures_load (by have := h.2; unfold headerSize at this; unfold User.Fits; omega) hQ

theorem ensures_setPtr {p v : ℕ} (h : Header s p) (hv : v < 2 ^ 64)
    (hQ : ∀ s', Sets s s' p v (sizeAt s.mem p) → Q () s') : Ensures ram F (setPtr p v) Q s := by
  have hlt := h.lt
  have hfits := h.2
  unfold headerSize at hlt hfits
  refine ensures_store (by unfold User.Fits; omega) (hQ _ ⟨?_, ?_, fun i hi => ?_, rfl⟩)
  · rw [ptrAt, getField_putField_self _ _ _ _ (by omega)]
    exact Nat.mod_eq_of_lt hv
  · exact getField_putField_disjoint _ _ _ _ (by omega)
  · exact getByte_putField_outside _ _ _ _ (by unfold headerSize at hi; omega)

theorem ensures_setSize {p n : ℕ} (h : Header s p)
    (hQ : ∀ s', Sets s s' p (ptrAt s.mem p) (n % 2 ^ 32) → Q () s') :
    Ensures ram F (setSize p n) Q s := by
  have hlt := h.lt
  have hfits := h.2
  unfold headerSize at hlt hfits
  refine ensures_store (by unfold User.Fits; omega) (hQ _ ⟨?_, ?_, fun i hi => ?_, rfl⟩)
  · exact getField_putField_disjoint _ _ _ _ (by omega)
  · exact getField_putField_self _ _ _ _ (by omega)
  · exact getByte_putField_outside _ _ _ _ (by unfold headerSize at hi; omega)

theorem after_eq {b : Extent} (h : b.stop headerSize < 2 ^ 64) :
    after b.addr b.size = b.stop headerSize := Nat.mod_eq_of_lt h

theorem after_sub {p : ℕ} (h : p < 2 ^ 63) :
    (after p 1 + (2 ^ 64 - headerSize)) % 2 ^ 64 = p := by
  unfold after headerSize
  omega

theorem linkNext_spec {b : Extent} {y : ℕ} (hb : Header s b.addr)
    (hsize : sizeAt s.mem b.addr = b.size) (hstop : b.stop headerSize < 2 ^ 64) (hy : y < 2 ^ 64)
    (htouch : b.stop headerSize = y → Header s y ∧ b.size + sizeAt s.mem y < 2 ^ 32 ∧
      b.addr + headerSize ≤ y)
    (hQ : ∀ s', (b.stop headerSize = y →
        Sets s s' b.addr (ptrAt s.mem y) (b.size + sizeAt s.mem y)) →
      (b.stop headerSize ≠ y → Sets s s' b.addr y b.size) → Q () s') :
    Ensures ram F (linkNext b.addr y) Q s := by
  rw [linkNext, ensures_bind]
  refine ensures_size hb ?_
  rw [hsize, after_eq hstop]
  by_cases h : b.stop headerSize = y
  · obtain ⟨hy', hlt, hfar⟩ := htouch h
    rw [if_pos h, ensures_bind]
    refine ensures_size hb ?_
    rw [ensures_bind]
    refine ensures_size hy' ?_
    rw [hsize, ensures_bind]
    refine ensures_setSize hb fun s₁ hset₁ => ?_
    have hsz : s₁.sz = s.sz := by rw [hset₁.rest]
    rw [ensures_bind]
    refine ensures_ptr (hy'.of_sz hsz) ?_
    rw [hset₁.ptr_other (.inr hfar)]
    refine ensures_setPtr (hb.of_sz hsz) (getField_lt _ _ _) fun s₂ hset₂ => ?_
    refine hQ s₂ (fun _ => ?_) fun hne => absurd h hne
    rw [hset₁.size, Nat.mod_eq_of_lt hlt] at hset₂
    exact hset₁.trans hset₂
  · rw [if_neg h]
    refine ensures_setPtr hb hy fun s₁ hset => hQ s₁ (fun heq => absurd heq h) fun _ => ?_
    rwa [hsize] at hset

theorem linkNext_join {z : ℕ} {b : Extent} {B : List Extent}
    (hB : Stored (ptrAt s.mem) (sizeAt s.mem) z B) (hsize : sizeAt s.mem b.addr = b.size)
    (hb : Header s b.addr) (hmem : s.sz ≤ memSize) (hstop : b.stop headerSize ≤ s.sz)
    (hz : B = [] → b.stop headerSize ≠ z) (hz' : z < 2 ^ 64)
    (hbehind : ∀ c ∈ B, b.addr + headerSize ≤ c.addr ∧ c.stop headerSize ≤ s.sz ∧ Header s c.addr)
    (hQ : ∀ s' v n, Sets s s' b.addr v n →
      Stored (ptrAt s'.mem) (sizeAt s'.mem) z (join headerSize b B) → Q () s') :
    Ensures ram F (linkNext b.addr (first z B)) Q s := by
  have hsmall : s.sz ≤ 2 ^ 27 := hmem
  have hfirst : first z B < 2 ^ 64 := by
    cases B with
    | nil => exact hz'
    | cons c B =>
      obtain ⟨-, hc, -⟩ := hbehind c List.mem_cons_self
      have := addr_le_stop headerSize c
      rw [first]
      omega
  refine linkNext_spec hb hsize (by omega) hfirst (fun htouch => ?_) fun s₁ htouch hgap => ?_
  · cases B with
    | nil => exact absurd htouch (hz rfl)
    | cons c B =>
      obtain ⟨hfar, hc, hheader⟩ := hbehind c List.mem_cons_self
      rw [first] at htouch ⊢
      rw [hB.1]
      refine ⟨hheader, ?_, hfar⟩
      unfold Extent.stop headerSize at *
      omega
  · have hset : ∃ v n, Sets s s₁ b.addr v n := by
      by_cases h : b.stop headerSize = first z B
      · exact ⟨_, _, htouch h⟩
      · exact ⟨_, _, hgap h⟩
    obtain ⟨v, n, hset⟩ := hset
    refine hQ s₁ v n hset (hB.join hz (fun c hc => ?_) (fun c hc => ?_) (fun h => ?_) fun h => ?_)
    · exact hset.ptr_other (.inr (hbehind c hc).1)
    · exact hset.size_other (.inr (hbehind c hc).1)
    · exact ⟨(htouch h).size, (htouch h).ptr⟩
    · exact ⟨(hgap h).size, (hgap h).ptr⟩

/-- The search of `free` stops at a block behind which the address belongs. -/
theorem findPlace_spec {bp z fuel : ℕ} {C : List Extent} {Q : ℕ → User → Prop}
    (hC : Stored (ptrAt s.mem) (sizeAt s.mem) z C) (hheader : ∀ c ∈ C, Header s c.addr)
    (hstop : ∃ c ∈ C, Stops (ptrAt s.mem) bp c.addr) (hfuel : C.length ≤ fuel)
    (hQ : ∀ c ∈ C, Stops (ptrAt s.mem) bp c.addr → Q c.addr s) :
    Ensures ram F (findPlace bp fuel (first z C)) Q s := by
  induction C generalizing fuel with
  | nil =>
    obtain ⟨c, hc, -⟩ := hstop
    exact absurd hc List.not_mem_nil
  | cons c C ih =>
    obtain ⟨hc, hheader'⟩ := List.forall_mem_cons.mp hheader
    obtain ⟨hQc, hQ'⟩ := List.forall_mem_cons.mp hQ
    obtain ⟨fuel, rfl⟩ : ∃ k, fuel = k + 1 := ⟨fuel - 1, by rw [List.length_cons] at hfuel; omega⟩
    rw [List.length_cons] at hfuel
    rw [first, findPlace, ensures_bind]
    refine ensures_ptr hc ?_
    by_cases h : Stops (ptrAt s.mem) bp c.addr
    · have hdone : Ensures ram F (pure c.addr) Q s := (ensures_pure ..).mpr (hQc h)
      by_cases h₁ : c.addr < bp ∧ bp < ptrAt s.mem c.addr
      · rwa [if_pos h₁]
      · rw [if_neg h₁, if_pos (h.resolve_left h₁)]
        exact hdone
    · have hnot := not_or.mp h
      rw [if_neg hnot.1, if_neg hnot.2, hC.2.1]
      refine ih hC.2.2 hheader' ?_ (by omega) hQ'
      obtain ⟨d, hd, hstop⟩ := hstop
      rcases List.mem_cons.mp hd with rfl | hd
      · exact absurd hstop h
      · exact ⟨d, hd, hstop⟩

structure Inside (base hi : ℕ) (b : Extent) : Prop where
  low : base + headerSize ≤ b.addr
  high : b.stop headerSize ≤ hi
  pos : 0 < b.size

/-- The header at `base` and the free blocks `L` form a ring, in the order of their addresses;
`freep` points to one of them. -/
structure RingAt (base : ℕ) (s : User) (L : List Extent) : Prop where
  pos : 0 < base
  room : base + headerSize ≤ s.sz
  memory : s.sz ≤ memSize
  stored : Stored (ptrAt s.mem) (sizeAt s.mem) base (⟨base, 0⟩ :: L)
  gapped : Gapped headerSize (⟨base, 0⟩ :: L)
  inside : ∀ b ∈ L, Inside base s.sz b
  freep : ∃ c ∈ ⟨base, 0⟩ :: L, c.addr = s.freep

variable {base : ℕ} {L L' A B : List Extent} {a b c : Extent}

theorem Inside.header_le (h : Inside base hi b) : b.addr + headerSize ≤ b.stop headerSize := by
  have hpos := h.pos
  unfold Extent.stop headerSize
  omega

theorem Inside.mono {hi hi' : ℕ} (h : Inside base hi b) (hle : hi ≤ hi') : Inside base hi' b :=
  ⟨h.low, h.high.trans hle, h.pos⟩

namespace RingAt

theorem header (h : RingAt base s L) (hc : c ∈ ⟨base, 0⟩ :: L) : Header s c.addr := by
  have hsz := le_npages s.sz
  rcases List.mem_cons.mp hc with rfl | hc
  · exact ⟨h.memory, h.room.trans hsz⟩
  · have hin := h.inside c hc
    exact ⟨h.memory, (hin.header_le.trans hin.high).trans hsz⟩

theorem base_le (h : RingAt base s L) (hc : c ∈ ⟨base, 0⟩ :: L) : base ≤ c.addr := by
  rcases List.mem_cons.mp hc with rfl | hc
  · exact le_rfl
  · have := (h.inside c hc).low
    omega

theorem spaced (h : RingAt base s L) :
    (⟨base, 0⟩ :: L).Pairwise fun a b => a.addr + headerSize ≤ b.addr := by
  obtain ⟨-, hL⟩ := List.pairwise_cons.mp h.gapped
  refine List.pairwise_cons.mpr ⟨fun b hb => (h.inside b hb).low, ?_⟩
  refine hL.imp_of_mem fun {a b} ha hb hab => ?_
  have := (h.inside a ha).header_le
  omega

theorem stored_split (h : RingAt base s L) (hN : ⟨base, 0⟩ :: L = A ++ a :: B) :
    Stored (ptrAt s.mem) (sizeAt s.mem) (first base (a :: B)) A ∧
      Stored (ptrAt s.mem) (sizeAt s.mem) base (a :: B) :=
  stored_append.mp (hN ▸ h.stored)

theorem spaced_split (h : RingAt base s L) (hN : ⟨base, 0⟩ :: L = A ++ a :: B) :
    (∀ x ∈ A, x.addr + headerSize ≤ a.addr) ∧ ∀ x ∈ B, a.addr + headerSize ≤ x.addr := by
  have hspaced := h.spaced
  rw [hN] at hspaced
  obtain ⟨-, hB, hA⟩ := List.pairwise_append.mp hspaced
  exact ⟨fun x hx => hA x hx a List.mem_cons_self, (List.pairwise_cons.mp hB).1⟩

theorem from_freep (h : RingAt base s L) :
    ∃ A B c, ⟨base, 0⟩ :: L = A ++ c :: B ∧ c.addr = s.freep ∧
      Looped (ptrAt s.mem) (sizeAt s.mem) (c :: B ++ A) := by
  obtain ⟨c, hc, hfreep⟩ := h.freep
  obtain ⟨A, B, hN⟩ := List.append_of_mem hc
  have hring : Looped (ptrAt s.mem) (sizeAt s.mem) (⟨base, 0⟩ :: L) := h.stored
  rw [hN] at hring
  exact ⟨A, B, c, hN, hfreep, hring.rotate⟩

end RingAt

/-- Only headers of the blocks `N` have changed. -/
def Keeps (s s' : User) (N : List Extent) : Prop :=
  ∀ i, (∀ x ∈ N, i < x.addr ∨ x.addr + headerSize ≤ i) → getByte s'.mem i = getByte s.mem i

/-- The block `b` belongs between the block `a` of the ring and the blocks `B`. -/
structure Place (base : ℕ) (s : User) (L A B : List Extent) (a b : Extent) : Prop where
  ring : RingAt base s L
  inside : Inside base s.sz b
  apart : ∀ x ∈ L, Apart headerSize b x
  split : ⟨base, 0⟩ :: L = A ++ a :: B
  before : a.addr < b.addr
  behind : ∀ c ∈ B, b.addr < c.addr

namespace Place

theorem mem_of_behind (h : Place base s L A B a b) (hc : c ∈ B) : c ∈ L := by
  have hcN : c ∈ ⟨base, 0⟩ :: L := by simp [h.split, hc]
  rcases List.mem_cons.mp hcN with rfl | hcL
  · have hlow := h.inside.low
    have hlt := h.behind _ hc
    dsimp only at hlt
    omega
  · exact hcL

theorem stop_le (h : Place base s L A B a b) (hc : c ∈ B) : b.stop headerSize ≤ c.addr := by
  have hcL := h.mem_of_behind hc
  have hlt := h.behind c hc
  have hhead := (h.ring.inside c hcL).header_le
  have hap := h.apart c hcL
  unfold Apart at hap
  omega

theorem before_le (h : Place base s L A B a b) :
    a.stop headerSize ≤ b.addr ∧ a.addr + headerSize ≤ b.addr := by
  have haN : a ∈ ⟨base, 0⟩ :: L := by simp [h.split]
  have hlow := h.inside.low
  rcases List.mem_cons.mp haN with rfl | haL
  · exact ⟨le_trans (Nat.le_add_right base headerSize) hlow, hlow⟩
  · have hlt := h.before
    have hhead := (h.ring.inside a haL).header_le
    have hbhead := h.inside.header_le
    have hap := h.apart a haL
    unfold Apart at hap
    omega

theorem inside_join (h : Place base s L A B a b) :
    ∀ c ∈ join headerSize b B, b.addr ≤ c.addr ∧ Inside base s.sz c := by
  refine forall_mem_join (fun c hc => ⟨(h.behind c hc).le, h.ring.inside c (h.mem_of_behind hc)⟩)
    ⟨le_rfl, h.inside⟩ fun c hc htouch =>
      ⟨le_rfl, h.inside.low, ?_, Nat.add_pos_left h.inside.pos _⟩
  rw [stop_join htouch]
  exact (h.ring.inside c (h.mem_of_behind hc)).high

/-- The ring into which the block was put. -/
theorem linked (h : Place base s L A B a b) (hrest : s' = { s with mem := s'.mem })
    (hstored : Stored (ptrAt s'.mem) (sizeAt s'.mem) base
      (A ++ join headerSize a (join headerSize b B))) :
    ∃ L', RingAt base { s' with freep := a.addr } L' ∧ Inserted headerSize L b L' := by
  have hlow := h.inside.low
  have hsz : s'.sz = s.sz := by rw [hrest]
  have hgap := h.ring.gapped
  rw [h.split] at hgap
  have hgap' := gapped_insert hgap h.before_le.1 fun c hc => h.stop_le hc
  obtain ⟨L', hL', hinserted⟩ := inserted h.split (u := headerSize) (b := b)
    (lt_of_lt_of_le (Nat.lt_add_of_pos_right (by decide)) hlow)
  rw [hL'] at hstored hgap'
  refine ⟨L', ⟨h.ring.pos, hsz ▸ h.ring.room, hsz ▸ h.ring.memory, hstored, hgap', ?_, ?_⟩,
    hinserted⟩
  · rw [show ({ s' with freep := a.addr } : User).sz = s.sz from hsz]
    refine hinserted.forall_mem _ h.ring.inside h.inside fun x y hx hy htouch => ⟨hx.low, ?_, ?_⟩
    · rw [stop_join htouch]
      exact hy.high
    · exact Nat.add_pos_left hx.pos _
  · rw [← hL']
    obtain ⟨x, hx, hxa⟩ := exists_addr_join headerSize a (join headerSize b B)
    exact ⟨x, List.mem_append_right _ hx, hxa⟩

end Place

/-- The end of `free`, behind the search for the place of the block. -/
theorem insert_spec (h : Place base s L A B a b) (hsize : sizeAt s.mem b.addr = b.size)
    (hQ : ∀ s' L', RingAt base s' L' → Inserted headerSize L b L' →
      Keeps s s' (b :: ⟨base, 0⟩ :: L) → s' = { s with mem := s'.mem, freep := s'.freep } →
      Q () s') :
    Ensures ram F (do
      linkNext b.addr (← ptr a.addr)
      linkNext a.addr b.addr
      setFreep a.addr) Q s := by
  have hmem : s.sz ≤ 2 ^ 27 := h.ring.memory
  have hunit : headerSize = 16 := rfl
  have hlow := h.inside.low
  have hhigh := h.inside.high
  have hbstop := h.inside.header_le
  have hsz := le_npages s.sz
  have ha := h.before_le
  obtain ⟨hstoredA, hstoreda, hptra, hstoredB⟩ := h.ring.stored_split h.split
  obtain ⟨hbefore, -⟩ := h.ring.spaced_split h.split
  have hheader (x : Extent) (hx : x ∈ A ++ a :: B) : Header s x.addr :=
    h.ring.header (h.split ▸ hx)
  rw [ensures_bind]
  refine ensures_ptr (hheader a (by simp)) ?_
  rw [hptra, ensures_bind]
  refine linkNext_join hstoredB hsize ⟨h.ring.memory, by omega⟩ h.ring.memory hhigh
    (fun _ => by omega) (by omega) (fun c hc => ⟨hbstop.trans (h.stop_le hc),
      (h.ring.inside c (h.mem_of_behind hc)).high, hheader c (by simp [hc])⟩)
    fun s₁ v₁ n₁ hset₁ hstored₁ => ?_
  have hsz₁ : s₁.sz = s.sz := by rw [hset₁.rest]
  have hfirst : first base (join headerSize b B) = b.addr := first_join
  rw [ensures_bind, ← hfirst]
  refine linkNext_join hstored₁ ?_ ((hheader a (by simp)).of_sz hsz₁) (hsz₁ ▸ h.ring.memory)
    (by omega) (fun hnil => ?_) (by omega) (fun c hc => ?_) fun s₂ v₂ n₂ hset₂ hstored₂ => ?_
  · rw [hset₁.size_other (.inl ha.2)]
    exact hstoreda
  · rw [hnil, first] at hfirst
    omega
  · obtain ⟨hle, hin⟩ := h.inside_join c hc
    have hhead := hin.header_le
    have hhi := hin.high
    exact ⟨by omega, by omega, ⟨hsz₁ ▸ h.ring.memory, by rw [hsz₁]; omega⟩⟩
  have hrest : s₂ = { s with mem := s₂.mem } := by
    rw [hset₂.rest, hset₁.rest]
  obtain ⟨L', hring, hinserted⟩ := h.linked hrest (by
    refine stored_append.mpr ⟨?_, hstored₂⟩
    rw [first_join]
    refine hset₂.stored (hset₁.stored hstoredA fun x hx => .inl ?_) fun x hx => .inl (hbefore x hx)
    exact (hbefore x hx).trans (by omega))
  rw [ensures_setFreep]
  refine hQ _ L' hring hinserted (fun i hi => ?_) (by rw [hrest])
  obtain ⟨hib, hiN⟩ := List.forall_mem_cons.mp hi
  rw [h.split] at hiN
  exact (hset₂.bytes i (hiN a (by simp))).trans (hset₁.bytes i hib)

/-- `free` puts the block back into the ring. -/
theorem free_spec {fuel : ℕ} (h : RingAt base s L) (hb : Inside base s.sz b)
    (hsize : sizeAt s.mem b.addr = b.size) (hapart : ∀ x ∈ L, Apart headerSize b x)
    (hfuel : L.length < fuel)
    (hQ : ∀ s' L', RingAt base s' L' → Inserted headerSize L b L' →
      Keeps s s' (b :: ⟨base, 0⟩ :: L) → s' = { s with mem := s'.mem, freep := s'.freep } →
      Q () s') :
    Ensures ram F (free fuel (after b.addr 1)) Q s := by
  have hmem : s.sz ≤ 2 ^ 27 := h.memory
  have hunit : headerSize = 16 := rfl
  have hlow := hb.low
  have hhigh := hb.high
  have hbstop := hb.header_le
  have hbp := after_sub (p := b.addr) (by omega)
  have hne (c : Extent) (hc : c ∈ L) : c.addr ≠ b.addr := by
    have hc' := (h.inside c hc).header_le
    have hap := hapart c hc
    unfold Apart at hap
    omega
  obtain ⟨A, B, c, hN, hfreep, hring⟩ := h.from_freep
  have hmemN {x : Extent} : x ∈ c :: B ++ A ↔ x ∈ ⟨base, 0⟩ :: L := by
    rw [hN, List.mem_append, List.mem_append, or_comm]
  rw [free, hbp, ensures_bind, ensures_getFreep, ensures_bind, ← hfreep]
  refine findPlace_spec hring (fun x hx => h.header (hmemN.mp hx)) ?_ ?_ fun x hx hstops => ?_
  · obtain ⟨x, hx, hstops⟩ := exists_stops h.stored h.gapped le_rfl (x := b.addr)
      (show base < b.addr by omega) hne
    exact ⟨x, hmemN.mpr hx, hstops⟩
  · have hlen := congrArg List.length hN
    simp only [List.length_cons, List.length_append] at hlen ⊢
    omega
  · obtain ⟨A', B', hN'⟩ := List.append_of_mem (hmemN.mp hx)
    have hstored := h.stored
    have hgapped := h.gapped
    rw [hN'] at hstored hgapped
    obtain ⟨hxb, hB'⟩ := split_of_stops hstored hgapped
      (fun y hy => h.base_le (hN' ▸ hy)) (by omega) hstops
    exact insert_spec ⟨h, hb, hapart, hN', hxb, hB'⟩ hsize hQ

/-- The ring behind a block `d` from which `n` units were taken. -/
theorem RingAt.carve {n : ℕ} {e d : Extent} (h : RingAt base s L)
    (hN : ⟨base, 0⟩ :: L = A ++ e :: d :: B) (hle : n ≤ d.size)
    (hrest : s' = { s with mem := s'.mem })
    (hstored : Stored (ptrAt s'.mem) (sizeAt s'.mem) base (A ++ e :: (rest n d ++ B))) :
    ∃ L', RingAt base { s' with freep := e.addr } L' ∧
      Carved headerSize n L (tail headerSize n d) L' := by
  -- the blocks without `base`
  obtain ⟨X, hX, hL⟩ : ∃ X, A ++ [e] = ⟨base, 0⟩ :: X ∧ L = X ++ d :: B := by
    cases A with
    | nil =>
      obtain ⟨rfl, rfl⟩ := List.cons.inj hN
      exact ⟨[], rfl, rfl⟩
    | cons a A =>
      rw [List.cons_append] at hN
      obtain ⟨rfl, rfl⟩ := List.cons.inj hN
      exact ⟨A ++ [e], rfl, by simp⟩
  have hgap := h.gapped
  have hcarved : Carved headerSize n L (tail headerSize n d) (X ++ (rest n d ++ B)) := by
    rw [hL]
    refine carved ?_ hle
    rw [← hL]
    exact (List.pairwise_cons.mp hgap).2
  have hsz : s'.sz = s.sz := by rw [hrest]
  have hN' : ⟨base, 0⟩ :: (X ++ (rest n d ++ B)) = A ++ e :: (rest n d ++ B) := by
    rw [← List.cons_append, ← hX, List.append_assoc]
    rfl
  refine ⟨_, ⟨h.pos, hsz ▸ h.room, hsz ▸ h.memory, ?_, ?_, fun x hx => ?_, ?_⟩, hcarved⟩
  · rwa [hN']
  · rw [hL, ← List.cons_append] at hgap
    exact gapped_rest hgap
  · obtain ⟨p, hp, hpx, hstop, hpos⟩ := hcarved.parts x hx
    have hp' := h.inside p hp
    exact ⟨hpx ▸ hp'.low, hsz ▸ hstop.trans hp'.high, hpos hp'.pos⟩
  · rw [hN']
    exact ⟨e, by simp, rfl⟩

theorem unlink_spec {e d : Extent} {k : U α} {Q : α → User → Prop} (h : RingAt base s L)
    (hN : ⟨base, 0⟩ :: L = A ++ e :: d :: B)
    (hQ : ∀ s' v m, Sets s s' e.addr v m →
      Stored (ptrAt s'.mem) (sizeAt s'.mem) base (A ++ e :: B) → Ensures ram F k Q s') :
    Ensures ram F (do setPtr e.addr (← ptr d.addr); k) Q s := by
  have hheader (x : Extent) (hx : x ∈ A ++ e :: d :: B) : Header s x.addr := h.header (hN ▸ hx)
  obtain ⟨hA, hsizee, -, -, hptrd, hB⟩ := h.stored_split hN
  obtain ⟨hbefore, hbehind⟩ := h.spaced_split hN
  rw [ensures_bind]
  refine ensures_ptr (hheader d (by simp)) ?_
  rw [ensures_bind]
  refine ensures_setPtr (hheader e (by simp)) (getField_lt _ _ _) fun s₁ hset => ?_
  refine hQ s₁ _ _ hset (stored_append.mpr ⟨?_, hset.size.trans hsizee, hset.ptr.trans hptrd, ?_⟩)
  · exact hset.stored hA fun x hx => .inl (hbefore x hx)
  · exact hset.stored hB fun x hx => .inr (hbehind x (List.mem_cons_of_mem d hx))

/-- A block `d` that is larger than `n` units is cut into what stays in the ring and its tail. -/
theorem split_spec {n : ℕ} {e d : Extent} {k : ℕ → U α} {Q : α → User → Prop}
    (h : RingAt base s L) (hN : ⟨base, 0⟩ :: L = A ++ e :: d :: B) (hn : 0 < n) (hlt : n < d.size)
    (hQ : ∀ s', Stored (ptrAt s'.mem) (sizeAt s'.mem) base (A ++ e :: ⟨d.addr, d.size - n⟩ :: B) →
      sizeAt s'.mem (tail headerSize n d).addr = n → Keeps s s' [tail headerSize n d, d] →
      s' = { s with mem := s'.mem } → Ensures ram F (k (tail headerSize n d).addr) Q s') :
    Ensures ram F (do
      setSize d.addr (d.size + (2 ^ 32 - n))
      let p := after d.addr (← size d.addr)
      setSize p n
      k p) Q s := by
  have hmem : s.sz ≤ 2 ^ 27 := h.memory
  have hunit : headerSize = 16 := rfl
  have hd : d ∈ ⟨base, 0⟩ :: L := by simp [hN]
  have hhigh : d.stop headerSize ≤ s.sz := by
    rcases List.mem_cons.mp hd with rfl | hdL
    · cases hlt
    · exact (h.inside d hdL).high
  have hsize : n < 2 ^ 32 ∧ (d.size + (2 ^ 32 - n)) % 2 ^ 32 = d.size - n := by
    unfold Extent.stop headerSize at hhigh
    omega
  have hstop := stop_tail (u := headerSize) hlt.le
  have htail : (tail headerSize n d).addr = d.addr + headerSize * (d.size - n) := rfl
  have hstart : d.addr + headerSize ≤ (tail headerSize n d).addr := by
    rw [htail, hunit]
    omega
  have hend : (tail headerSize n d).addr + headerSize ≤ d.stop headerSize := by
    rw [← hstop, Extent.stop, hunit]
    exact Nat.add_le_add_left (Nat.le_mul_of_pos_right 16 hn) _
  have hafter : after d.addr (d.size - n) = (tail headerSize n d).addr :=
    Nat.mod_eq_of_lt (by omega)
  have hN' := hN.trans (List.append_cons A e _)
  have hgap := h.gapped
  rw [hN'] at hgap
  obtain ⟨hA, -, hptrd, hB⟩ := h.stored_split hN'
  obtain ⟨hbefore, -⟩ := h.spaced_split hN'
  have hgapB := (List.pairwise_cons.mp (List.pairwise_append.mp hgap).2.1).1
  have hheader : Header s d.addr := h.header hd
  rw [ensures_bind]
  refine ensures_setSize hheader fun s₁ hset₁ => ?_
  have hsz : s₁.sz = s.sz := by rw [hset₁.rest]
  have hsznp := le_npages s.sz
  rw [hsize.2] at hset₁
  rw [ensures_bind]
  refine ensures_size (hheader.of_sz hsz) ?_
  rw [hset₁.size, hafter, ensures_bind]
  refine ensures_setSize (Header.of_sz (s := s) ⟨h.memory, by omega⟩ hsz) fun s₂ hset₂ => ?_
  rw [Nat.mod_eq_of_lt hsize.1] at hset₂
  refine hQ s₂ ?_ hset₂.size (fun i hi => ?_) (by rw [hset₂.rest, hset₁.rest])
  · rw [List.append_cons]
    refine stored_append.mpr ⟨?_, ?_, ?_, ?_⟩
    · refine hset₂.stored (hset₁.stored hA fun x hx => .inl (hbefore x hx)) fun x hx => .inl ?_
      have hx' := hbefore x hx
      omega
    · rw [hset₂.size_other (.inl hstart), hset₁.size]
    · rw [hset₂.ptr_other (.inl hstart), hset₁.ptr, hptrd]
    · refine hset₂.stored (hset₁.stored hB fun x hx => .inr ?_) fun x hx => .inr ?_ <;>
      · have hx' := hgapB x hx
        omega
  · rw [hset₂.bytes i (hi _ (by simp)), hset₁.bytes i (hi d (by simp))]

/-- `malloc` takes the whole of a block that fits exactly, or its tail. -/
theorem takeBlock_spec {n : ℕ} {e d : Extent} {Q : ℕ → User → Prop} (h : RingAt base s L)
    (hN : ⟨base, 0⟩ :: L = A ++ e :: d :: B) (hn : 0 < n) (hle : n ≤ d.size)
    (hQ : ∀ s' b L', RingAt base s' L' → Carved headerSize n L b L' → sizeAt s'.mem b.addr = n →
      Keeps s s' (b :: ⟨base, 0⟩ :: L) → s' = { s with mem := s'.mem, freep := s'.freep } →
      Q (after b.addr 1) s') :
    Ensures ram F (takeBlock n e.addr d.addr) Q s := by
  have hd : d ∈ ⟨base, 0⟩ :: L := by simp [hN]
  have hsized : sizeAt s.mem d.addr = d.size := h.stored.size_of_mem hd
  rw [takeBlock, ensures_bind]
  refine ensures_size (h.header hd) ?_
  rw [hsized]
  by_cases hexact : d.size = n
  · have htail : (tail headerSize n d).addr = d.addr := by simp [tail, hexact]
    have hed := (h.spaced_split hN).2 d List.mem_cons_self
    rw [if_pos hexact]
    refine unlink_spec h hN fun s₁ v m hset hstored => ?_
    obtain ⟨L', hring, hcarved⟩ := h.carve hN hle hset.rest (by rwa [rest, if_pos hexact])
    rw [ensures_bind, ensures_setFreep, ensures_pure, ← htail]
    refine hQ _ _ L' hring hcarved ?_ (fun i hi => ?_) (by rw [hset.rest])
    · rw [htail, hset.size_other (.inr hed), hsized, hexact]
    · exact hset.bytes i ((List.forall_mem_cons.mp hi).2 e (by simp [hN]))
  · rw [if_neg hexact]
    refine split_spec (k := fun p => do setFreep e.addr; return after p 1) h hN hn (by omega)
      fun s₂ hstored hsize hkeeps hrest => ?_
    obtain ⟨L', hring, hcarved⟩ := h.carve hN hle hrest (by rwa [rest, if_neg hexact])
    rw [ensures_bind, ensures_setFreep, ensures_pure]
    refine hQ _ _ L' hring hcarved hsize (fun i hi => hkeeps i fun x hx => hi x ?_) (by rw [hrest])
    rcases List.mem_cons.mp hx with rfl | hx
    · exact List.mem_cons_self
    · rw [List.mem_singleton.mp hx]
      exact List.mem_cons_of_mem _ hd

/-- The part of the loop of `malloc` for the block at which it started. -/
def grow (n fuel : ℕ) : U ℕ := do
  let p ← morecore fuel n
  if p = 0 then
    return 0
  else
    mallocLoop n fuel p (← ptr p)

theorem mallocLoop_search {n fuel z : ℕ} {D : List Extent} {e : Extent} {Q : ℕ → User → Prop}
    (h : RingAt base s L) (hD : Stored (ptrAt s.mem) (sizeAt s.mem) z (D ++ [c]))
    (hsub : ∀ x ∈ D ++ [c], x ∈ ⟨base, 0⟩ :: L) (hc : c.addr = s.freep)
    (hne : ∀ x ∈ D, x.addr ≠ s.freep) (he : e ∈ ⟨base, 0⟩ :: L)
    (hptr : ptrAt s.mem e.addr = first z (D ++ [c]))
    (hfound : ∀ e d, e ∈ ⟨base, 0⟩ :: L → d ∈ ⟨base, 0⟩ :: L → ptrAt s.mem e.addr = d.addr →
      n ≤ d.size → Ensures ram F (takeBlock n e.addr d.addr) Q s)
    (hnone : (∀ x ∈ D ++ [c], x.size < n) → Ensures ram F (grow n fuel) Q s) :
    Ensures ram F (mallocLoop n (fuel + D.length + 1) e.addr (first z (D ++ [c]))) Q s := by
  induction D generalizing e with
  | nil =>
    rw [List.nil_append] at hD hsub hptr hnone ⊢
    have hcN := hsub c List.mem_cons_self
    rw [List.length_nil, Nat.add_zero, first, mallocLoop, ensures_bind]
    refine ensures_size (h.header hcN) ?_
    rw [hD.1]
    by_cases hle : n ≤ c.size
    · rw [if_pos hle]
      exact hfound e c he hcN hptr hle
    · rw [if_neg hle, ensures_bind, ensures_getFreep, if_pos hc]
      exact hnone fun x hx => by
        rw [List.mem_singleton.mp hx]
        omega
  | cons d D ih =>
    rw [List.cons_append] at hD hsub hptr hnone ⊢
    obtain ⟨hd, hsub'⟩ := List.forall_mem_cons.mp hsub
    obtain ⟨hdne, hne'⟩ := List.forall_mem_cons.mp hne
    rw [List.length_cons, ← Nat.add_assoc, first, mallocLoop, ensures_bind]
    refine ensures_size (h.header hd) ?_
    rw [hD.1]
    by_cases hle : n ≤ d.size
    · rw [if_pos hle]
      exact hfound e d he hd hptr hle
    · rw [if_neg hle, ensures_bind, ensures_getFreep, if_neg hdne, ensures_bind]
      refine ensures_ptr (h.header hd) ?_
      rw [hD.2.1]
      refine ih hD.2.2 hsub' hne' hd hD.2.1 fun hsmall => hnone ?_
      exact List.forall_mem_cons.mpr ⟨by omega, hsmall⟩

/-- `malloc` takes from the first block that is large enough, or asks for more memory. -/
theorem search_spec {n fuel : ℕ} {Q : ℕ → User → Prop} (h : RingAt base s L) (hn : 0 < n)
    (hfound : ∀ A e d B, ⟨base, 0⟩ :: L = A ++ e :: d :: B → n ≤ d.size →
      Ensures ram F (takeBlock n e.addr d.addr) Q s)
    (hnone : (∀ x ∈ L, x.size < n) → Ensures ram F (grow n fuel) Q s) :
    Ensures ram F (do mallocLoop n (fuel + L.length + 1) s.freep (← ptr s.freep)) Q s := by
  obtain ⟨A, B, c, hN, hfreep, hring⟩ := h.from_freep
  have hcN : c ∈ ⟨base, 0⟩ :: L := by simp [hN]
  have hrotated : Looped (ptrAt s.mem) (sizeAt s.mem) (B ++ A ++ [c]) :=
    Looped.rotate (A := [c]) (by simpa using hring)
  have hptr : ptrAt s.mem c.addr = first (first 0 (B ++ A ++ [c])) (B ++ A ++ [c]) := by
    rw [first_append]
    exact hring.2.1
  have hlen : (B ++ A).length = L.length := by
    have := congrArg List.length hN
    simp only [List.length_cons, List.length_append] at this ⊢
    omega
  have hmemN {x : Extent} : x ∈ B ++ A ++ [c] ↔ x ∈ ⟨base, 0⟩ :: L := by
    rw [hN, List.mem_append, List.mem_append, List.mem_append, List.mem_singleton, List.mem_cons,
      or_assoc, or_comm, or_assoc]
  rw [ensures_bind, ← hfreep]
  refine ensures_ptr (h.header hcN) ?_
  rw [hptr, ← hlen]
  refine mallocLoop_search h hrotated (fun x hx => ?_) hfreep (fun x hx => ?_) hcN hptr
    (fun e d he hd hnext hle => ?_) fun hsmall => hnone fun x hx => ?_
  · exact hmemN.mp hx
  · obtain ⟨hA, hB⟩ := h.spaced_split hN
    have hunit : headerSize = 16 := rfl
    rcases List.mem_append.mp hx with hx | hx
    · have := hB x hx
      omega
    · have := hA x hx
      omega
  · obtain ⟨A', B', hN'⟩ := List.append_of_mem he
    obtain ⟨-, -, hptre, -⟩ := h.stored_split hN'
    rw [hptre] at hnext
    cases B' with
    | nil =>
      -- only `base` follows on the last block, and it has no units
      rw [first] at hnext
      rw [h.stored.eq_of_addr hd List.mem_cons_self hnext.symm] at hle
      exact absurd hle (by dsimp only; omega)
    | cons d' B' =>
      have hd' : d' ∈ ⟨base, 0⟩ :: L := by simp [hN']
      obtain rfl := h.stored.eq_of_addr hd' hd hnext
      exact hfound A' e d' B' hN' hle
  · exact hsmall x (hmemN.mpr (List.mem_cons_of_mem _ hx))

end Xv6.Umalloc
