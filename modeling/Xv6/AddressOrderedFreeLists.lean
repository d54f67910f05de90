import Mathlib.Algebra.BigOperators.Group.List.Basic
import Mathlib.Algebra.GroupWithZero.Nat
import Mathlib.Data.Nat.Basic
import Mathlib.Tactic.Common

/-!
# Free lists in the order of addresses

A free list as a list of blocks, each with an address and a size in units of `u` bytes. The blocks
lie in the order of their addresses, and there is a gap between any two of them. A block that is
put back is joined with a neighbour that it touches.
-/

namespace Xv6.AddressOrderedFreeLists

/-- A block of memory: where it starts, and how many units it has. -/
@[ext] structure Extent where
  addr : ℕ
  size : ℕ
deriving DecidableEq, Repr

def Extent.stop (u : ℕ) (b : Extent) : ℕ := b.addr + u * b.size

def Apart (u : ℕ) (a b : Extent) : Prop := a.stop u ≤ b.addr ∨ b.stop u ≤ a.addr

def Gapped (u : ℕ) (L : List Extent) : Prop := L.Pairwise fun a b => a.stop u < b.addr

def units (L : List Extent) : ℕ := (L.map Extent.size).sum

def join (u : ℕ) (b : Extent) : List Extent → List Extent
  | [] => [b]
  | c :: L => if b.stop u = c.addr then ⟨b.addr, b.size + c.size⟩ :: L else b :: c :: L

variable {u : ℕ} {a b c : Extent} {A B L L' : List Extent}

theorem addr_le_stop (u : ℕ) (b : Extent) : b.addr ≤ b.stop u := Nat.le_add_right _ _

theorem addr_lt_stop (hu : 0 < u) (hb : 0 < b.size) : b.addr < b.stop u :=
  Nat.lt_add_of_pos_right (Nat.mul_pos hu hb)

theorem apart_comm : Apart u a b ↔ Apart u b a := Or.comm

theorem stop_join (h : b.stop u = c.addr) :
    (⟨b.addr, b.size + c.size⟩ : Extent).stop u = c.stop u := by
  simp only [Extent.stop] at *
  rw [← h, Nat.mul_add]
  omega

@[simp] theorem units_nil : units [] = 0 := rfl

@[simp] theorem units_cons : units (b :: L) = b.size + units L := by
  rw [units, List.map_cons, List.sum_cons, units]

@[simp] theorem units_append : units (A ++ B) = units A + units B := by
  rw [units, List.map_append, List.sum_append, units, units]

@[simp] theorem units_join : units (join u b L) = b.size + units L := by
  cases L with
  | nil => simp [join]
  | cons c L =>
    rw [join]
    split
    · simp only [units_cons]
      omega
    · simp only [units_cons]

theorem forall_mem_join {P : Extent → Prop} (hL : ∀ x ∈ L, P x) (hb : P b)
    (htouch : ∀ c ∈ L, b.stop u = c.addr → P ⟨b.addr, b.size + c.size⟩) :
    ∀ x ∈ join u b L, P x := by
  cases L with
  | nil => simpa [join] using hb
  | cons c L =>
    rw [join]
    obtain ⟨hc, hL⟩ := List.forall_mem_cons.mp hL
    split
    · next h => exact List.forall_mem_cons.mpr ⟨htouch c List.mem_cons_self h, hL⟩
    · exact List.forall_mem_cons.mpr ⟨hb, List.forall_mem_cons.mpr ⟨hc, hL⟩⟩

theorem gapped_join (hL : Gapped u L) (hb : ∀ c ∈ L, b.stop u ≤ c.addr) :
    Gapped u (join u b L) := by
  cases L with
  | nil => exact List.pairwise_singleton _ _
  | cons c L =>
    obtain ⟨hc, hL'⟩ := List.pairwise_cons.mp hL
    have hbc := hb c List.mem_cons_self
    rw [join]
    split
    · next h =>
      refine List.pairwise_cons.mpr ⟨fun d hd => ?_, hL'⟩
      rw [stop_join h]
      exact hc d hd
    · next h =>
      refine List.pairwise_cons.mpr ⟨List.forall_mem_cons.mpr ⟨by omega, fun d hd => ?_⟩, hL⟩
      have hd' := hc d hd
      have hle := addr_le_stop u c
      omega

theorem addr_lt_of_gapped (h : Gapped u (a :: L)) (hb : b ∈ L) : a.addr < b.addr :=
  Nat.lt_of_le_of_lt (addr_le_stop u a) ((List.pairwise_cons.mp h).1 b hb)

theorem gapped_insert (h : Gapped u (A ++ a :: B)) (hab : a.stop u ≤ b.addr)
    (hB : ∀ c ∈ B, b.stop u ≤ c.addr) : Gapped u (A ++ join u a (join u b B)) := by
  obtain ⟨hA, haB, hcross⟩ := List.pairwise_append.mp h
  obtain ⟨ha, hB'⟩ := List.pairwise_cons.mp haB
  have hbB := gapped_join hB' hB
  have hle := addr_le_stop u b
  have hstart : ∀ c ∈ join u b B, b.addr ≤ c.addr :=
    forall_mem_join (fun c hc => Nat.le_trans hle (hB c hc)) (Nat.le_refl _)
      fun _ _ _ => Nat.le_refl _
  refine List.pairwise_append.mpr ⟨hA, gapped_join hbB fun c hc => hab.trans (hstart c hc),
    fun d hd => ?_⟩
  have hda := hcross d hd a List.mem_cons_self
  have hale := addr_le_stop u a
  exact forall_mem_join (fun c hc => by have := hstart c hc; omega) hda fun _ _ _ => hda

/-- The block `b` was put back among the blocks `L`: the units are counted, and what holds of
the blocks, and of blocks that touch if it holds of both, holds of the new ones. -/
structure Inserted (u : ℕ) (L : List Extent) (b : Extent) (L' : List Extent) : Prop where
  units : units L' = units L + b.size
  forall_mem : ∀ P : Extent → Prop, (∀ x ∈ L, P x) → P b →
    (∀ x y, P x → P y → x.stop u = y.addr → P ⟨x.addr, x.size + y.size⟩) → ∀ x ∈ L', P x
  large : ∃ x ∈ L', b.size ≤ x.size
  length : L'.length ≤ L.length + 1

theorem length_join_le : (join u b L).length ≤ L.length + 1 := by
  cases L with
  | nil => exact le_rfl
  | cons c L =>
    rw [join]
    split
    · exact Nat.le_succ _
    · exact le_rfl

theorem exists_large_join (u : ℕ) (b : Extent) (L : List Extent) :
    ∃ x ∈ join u b L, b.size ≤ x.size := by
  cases L with
  | nil => exact ⟨b, by simp [join], le_rfl⟩
  | cons c L =>
    rw [join]
    split
    · exact ⟨_, List.mem_cons_self, Nat.le_add_right _ _⟩
    · exact ⟨b, List.mem_cons_self, le_rfl⟩

theorem exists_large_join_of_mem (u : ℕ) (hc : c ∈ L) : ∃ x ∈ join u b L, c.size ≤ x.size := by
  cases L with
  | nil => exact absurd hc List.not_mem_nil
  | cons d L =>
    rw [join]
    split
    · rcases List.mem_cons.mp hc with rfl | hc
      · exact ⟨_, List.mem_cons_self, Nat.le_add_left _ _⟩
      · exact ⟨c, List.mem_cons_of_mem _ hc, le_rfl⟩
    · exact ⟨c, List.mem_cons_of_mem _ hc, le_rfl⟩

theorem exists_addr_join (u : ℕ) (b : Extent) (L : List Extent) :
    ∃ x ∈ join u b L, x.addr = b.addr := by
  cases L with
  | nil => exact ⟨b, by simp [join], rfl⟩
  | cons c L =>
    rw [join]
    split
    · exact ⟨_, List.mem_cons_self, rfl⟩
    · exact ⟨b, List.mem_cons_self, rfl⟩

theorem join_of_lt (h : a.stop u < b.addr) : join u a (join u b L) = a :: join u b L := by
  cases L with
  | nil => simp [join, h.ne]
  | cons c L =>
    rw [join.eq_def u b]
    dsimp only
    split
    · simp [join, h.ne]
    · simp [join, h.ne]

theorem inserted {z : Extent} (hL : z :: L = A ++ a :: B) (hz : z.stop u < b.addr) :
    ∃ L', A ++ join u a (join u b B) = z :: L' ∧ Inserted u L b L' := by
  cases A with
  | nil =>
    obtain ⟨rfl, rfl⟩ := List.cons.inj hL
    refine ⟨join u b L, join_of_lt hz, by rw [units_join, Nat.add_comm], fun P h hb htouch => ?_,
      exists_large_join u b L, length_join_le⟩
    exact forall_mem_join h hb fun c hc => htouch b c hb (h c hc)
  | cons z' A =>
    rw [List.cons_append] at hL
    obtain ⟨rfl, rfl⟩ := List.cons.inj hL
    refine ⟨A ++ join u a (join u b B), rfl, ?_, fun P h hb htouch => ?_, ?_, ?_⟩
    · simp only [units_append, units_join, units_cons]
      omega
    · obtain ⟨hA, haB⟩ := List.forall_mem_append.mp h
      obtain ⟨ha, hB⟩ := List.forall_mem_cons.mp haB
      have hjoin := forall_mem_join hB hb fun c hc => htouch b c hb (hB c hc)
      refine List.forall_mem_append.mpr ⟨hA, forall_mem_join hjoin ha fun c hc => ?_⟩
      exact htouch a c ha (hjoin c hc)
    · obtain ⟨x, hx, hle⟩ := exists_large_join u b B
      obtain ⟨y, hy, hle'⟩ := exists_large_join_of_mem (b := a) u hx
      exact ⟨y, List.mem_append_right _ hy, hle.trans hle'⟩
    · have h₁ := length_join_le (u := u) (b := a) (L := join u b B)
      have h₂ := length_join_le (u := u) (b := b) (L := B)
      simp only [List.length_append, List.length_cons]
      omega

theorem Inserted.apart (h : Inserted u L b L') (hu : 0 < u) (hc : 0 < c.size)
    (hL : ∀ x ∈ L, Apart u c x) (hb : Apart u c b) : ∀ x ∈ L', Apart u c x := by
  refine h.forall_mem _ hL hb fun x y hx hy htouch => ?_
  have hlt := addr_lt_stop hu hc
  rw [Apart, stop_join htouch]
  unfold Apart at hx hy
  dsimp only
  omega

/-- What is left of a block if `n` units are taken from its end. -/
def rest (n : ℕ) (p : Extent) : List Extent :=
  if p.size = n then [] else [⟨p.addr, p.size - n⟩]

def tail (u n : ℕ) (p : Extent) : Extent := ⟨p.addr + u * (p.size - n), n⟩

/-- The block `b` of `n` units was taken from the blocks `L`. -/
structure Carved (u n : ℕ) (L : List Extent) (b : Extent) (L' : List Extent) : Prop where
  size : b.size = n
  units : units L = units L' + n
  part : ∃ p ∈ L, p.addr ≤ b.addr ∧ b.stop u ≤ p.stop u
  parts : ∀ x ∈ L', ∃ p ∈ L, p.addr = x.addr ∧ x.stop u ≤ p.stop u ∧ (0 < p.size → 0 < x.size)
  self : ∀ x ∈ L', Apart u b x

theorem stop_tail {n : ℕ} {p : Extent} (h : n ≤ p.size) : (tail u n p).stop u = p.stop u := by
  have hsum : u * (p.size - n) + u * n = u * p.size := by
    rw [← Nat.mul_add]
    congr 1
    omega
  unfold Extent.stop tail
  dsimp only
  omega

theorem gapped_rest {n : ℕ} (h : Gapped u (A ++ a :: B)) : Gapped u (A ++ (rest n a ++ B)) := by
  rw [rest]
  split
  · exact h.sublist (by simp)
  · obtain ⟨hA, haB, hcross⟩ := List.pairwise_append.mp h
    obtain ⟨ha, hB⟩ := List.pairwise_cons.mp haB
    have hle : (⟨a.addr, a.size - n⟩ : Extent).stop u ≤ a.stop u :=
      Nat.add_le_add_left (Nat.mul_le_mul_left u (Nat.sub_le _ _)) _
    refine List.pairwise_append.mpr
      ⟨hA, List.pairwise_cons.mpr ⟨fun c hc => hle.trans_lt (ha c hc), hB⟩, fun d hd => ?_⟩
    obtain ⟨hda, hdB⟩ := List.forall_mem_cons.mp (hcross d hd)
    exact List.forall_mem_cons.mpr ⟨hda, hdB⟩

theorem carved {n : ℕ} (hgap : Gapped u (A ++ a :: B)) (hn : n ≤ a.size) :
    Carved u n (A ++ a :: B) (tail u n a) (A ++ (rest n a ++ B)) := by
  obtain ⟨-, haB, hcross⟩ := List.pairwise_append.mp hgap
  have ha := (List.pairwise_cons.mp haB).1
  have hstop := stop_tail (u := u) hn
  have haddr : a.addr ≤ (tail u n a).addr := Nat.le_add_right _ _
  refine ⟨rfl, ?_, ⟨a, by simp, haddr, hstop.le⟩, fun x hx => ?_, fun x hx => ?_⟩
  · rw [rest]
    split
    · simp only [units_append, units_cons, units_nil]
      omega
    · simp only [units_append, units_cons, units_nil]
      omega
  · rcases List.mem_append.mp hx with hx | hx
    · exact ⟨x, by simp [hx], rfl, le_rfl, id⟩
    rcases List.mem_append.mp hx with hx | hx
    · rw [rest] at hx
      split at hx
      · exact absurd hx List.not_mem_nil
      · next hne =>
        rw [List.mem_singleton.mp hx]
        refine ⟨a, by simp, rfl, ?_, fun _ => ?_⟩
        · exact Nat.add_le_add_left (Nat.mul_le_mul_left u (Nat.sub_le _ _)) _
        · dsimp only
          omega
    · exact ⟨x, by simp [hx], rfl, le_rfl, id⟩
  · rcases List.mem_append.mp hx with hx | hx
    · have := hcross x hx a List.mem_cons_self
      exact .inr (by omega)
    rcases List.mem_append.mp hx with hx | hx
    · rw [rest] at hx
      split at hx
      · exact absurd hx List.not_mem_nil
      · rw [List.mem_singleton.mp hx]
        exact .inr le_rfl
    · have := ha x hx
      exact .inl (by omega)

theorem Carved.apart {n : ℕ} (h : Carved u n L b L') (hL : ∀ x ∈ L, Apart u c x) :
    Apart u c b ∧ ∀ x ∈ L', Apart u c x := by
  refine ⟨?_, fun x hx => ?_⟩
  · obtain ⟨p, hp, hle, hstop⟩ := h.part
    have := hL p hp
    unfold Apart at *
    omega
  · obtain ⟨p, hp, hle, hstop, -⟩ := h.parts x hx
    have := hL p hp
    unfold Apart at *
    omega

/-- The address behind which a list begins; `z` stands behind its end. -/
def first (z : ℕ) : List Extent → ℕ
  | [] => z
  | b :: _ => b.addr

/-- The blocks have their headers: each has its size, and the address of the next one. -/
def Stored (ptr size : ℕ → ℕ) (z : ℕ) : List Extent → Prop
  | [] => True
  | b :: L => size b.addr = b.size ∧ ptr b.addr = first z L ∧ Stored ptr size z L

def Looped (ptr size : ℕ → ℕ) (L : List Extent) : Prop := Stored ptr size (first 0 L) L

variable {ptr ptr' size size' : ℕ → ℕ} {z : ℕ}

theorem first_append : first z (A ++ B) = first (first z B) A := by
  cases A <;> rfl

theorem first_join : first z (join u b L) = b.addr := by
  cases L with
  | nil => rfl
  | cons c L =>
    rw [join]
    split <;> rfl

theorem stored_append :
    Stored ptr size z (A ++ B) ↔ Stored ptr size (first z B) A ∧ Stored ptr size z B := by
  induction A with
  | nil => simp [Stored]
  | cons a A ih => simp only [List.cons_append, Stored, ih, first_append, and_assoc]

theorem Stored.congr (h : Stored ptr size z L)
    (hptr : ∀ b ∈ L, ptr' b.addr = ptr b.addr) (hsize : ∀ b ∈ L, size' b.addr = size b.addr) :
    Stored ptr' size' z L := by
  induction L with
  | nil => exact trivial
  | cons b L ih =>
    obtain ⟨hs, hp, hL⟩ := h
    obtain ⟨hptr₁, hptr₂⟩ := List.forall_mem_cons.mp hptr
    obtain ⟨hsize₁, hsize₂⟩ := List.forall_mem_cons.mp hsize
    exact ⟨hsize₁.trans hs, hptr₁.trans hp, ih hL hptr₂ hsize₂⟩

theorem Stored.size_of_mem (h : Stored ptr size z L) (hb : b ∈ L) : size b.addr = b.size := by
  obtain ⟨A, B, rfl⟩ := List.append_of_mem hb
  exact (stored_append.mp h).2.1

theorem Stored.eq_of_addr (h : Stored ptr size z L) (ha : a ∈ L) (hb : b ∈ L)
    (hab : a.addr = b.addr) : a = b :=
  Extent.ext hab (by rw [← h.size_of_mem ha, ← h.size_of_mem hb, hab])

theorem Looped.rotate (h : Looped ptr size (A ++ B)) : Looped ptr size (B ++ A) := by
  cases A with
  | nil => rwa [List.append_nil]
  | cons a A =>
    cases B with
    | nil => rwa [List.append_nil] at h
    | cons b B =>
      obtain ⟨hA, hB⟩ := stored_append.mp h
      exact stored_append.mpr ⟨hB, hA⟩

theorem Stored.join (h : Stored ptr size z L) (hz : L = [] → b.stop u ≠ z)
    (hptr : ∀ c ∈ L, ptr' c.addr = ptr c.addr) (hsize : ∀ c ∈ L, size' c.addr = size c.addr)
    (htouch : b.stop u = first z L →
      size' b.addr = b.size + size (first z L) ∧ ptr' b.addr = ptr (first z L))
    (hgap : b.stop u ≠ first z L → size' b.addr = b.size ∧ ptr' b.addr = first z L) :
    Stored ptr' size' z (join u b L) := by
  have hL := h.congr hptr hsize
  cases L with
  | nil =>
    obtain ⟨hs, hp⟩ := hgap (hz rfl)
    exact ⟨hs, hp, trivial⟩
  | cons c L =>
    rw [AddressOrderedFreeLists.join]
    split
    · next hc =>
      obtain ⟨hs, hp⟩ := htouch hc
      exact ⟨hs.trans (congrArg _ h.1), hp.trans h.2.1, hL.2.2⟩
    · next hc =>
      obtain ⟨hs, hp⟩ := hgap hc
      exact ⟨hs, hp, hL⟩

/-- The block at `p` is where the search for the place of address `a` stops: `a` lies between
it and the next one, or it is the last one and `a` lies outside. -/
def Stops (ptr : ℕ → ℕ) (a p : ℕ) : Prop :=
  p < a ∧ a < ptr p ∨ ptr p ≤ p ∧ (p < a ∨ a < ptr p)

instance (ptr : ℕ → ℕ) (a p : ℕ) : Decidable (Stops ptr a p) :=
  inferInstanceAs (Decidable (_ ∨ _))

theorem exists_stops {x : ℕ} (h : Stored ptr size z (a :: L)) (hgap : Gapped u (a :: L))
    (hz : z ≤ a.addr) (ha : a.addr < x) (hne : ∀ c ∈ L, c.addr ≠ x) :
    ∃ c ∈ a :: L, Stops ptr x c.addr := by
  induction L generalizing a with
  | nil =>
    refine ⟨a, List.mem_cons_self, .inr ⟨?_, .inl ha⟩⟩
    rw [h.2.1]
    exact hz
  | cons c L ih =>
    obtain ⟨hc, hL⟩ := List.forall_mem_cons.mp hne
    have hlt := addr_lt_of_gapped hgap (b := c) List.mem_cons_self
    by_cases hx : x < c.addr
    · refine ⟨a, List.mem_cons_self, .inl ⟨ha, ?_⟩⟩
      rw [h.2.1]
      exact hx
    · obtain ⟨d, hd, hstop⟩ := ih h.2.2 (List.pairwise_cons.mp hgap).2 (by omega) (by omega) hL
      exact ⟨d, List.mem_cons_of_mem _ hd, hstop⟩

theorem split_of_stops {x : ℕ} (h : Stored ptr size z (A ++ a :: B)) (hgap : Gapped u (A ++ a :: B))
    (hz : ∀ c ∈ A ++ a :: B, z ≤ c.addr) (hx : z < x) (hstop : Stops ptr x a.addr) :
    a.addr < x ∧ ∀ c ∈ B, x < c.addr := by
  obtain ⟨-, haB, -⟩ := List.pairwise_append.mp hgap
  obtain ⟨-, hptr, -⟩ := (stored_append.mp h).2
  have hza := hz a (by simp)
  unfold Stops at hstop
  rw [hptr] at hstop
  cases B with
  | nil =>
    rw [first] at hstop
    exact ⟨by omega, nofun⟩
  | cons c B =>
    have hlt := addr_lt_of_gapped haB (b := c) List.mem_cons_self
    rw [first] at hstop
    refine ⟨by omega, List.forall_mem_cons.mpr ⟨by omega, fun d hd => ?_⟩⟩
    have hcd := addr_lt_of_gapped (List.pairwise_cons.mp haB).2 hd
    omega

end Xv6.AddressOrderedFreeLists
