import Mathlib.Data.List.Chain
import Mathlib.Data.List.Nodup
import Mathlib.Logic.Function.Basic

/-!
# Circular doubly linked lists through a head node

Nodes carry a `next` and a `prev` pointer. A ring through `head` visits the nodes of a
list once each, forwards by `next` and backwards by `prev`, and returns to `head`.
-/

namespace Xv6.DoublyLinkedRings
open Function

variable {N : Type*} [DecidableEq N]

structure Links (N : Type*) where
  next : N → N
  prev : N → N

def Links.Adjacent (lk : Links N) (a b : N) : Prop := lk.next a = b ∧ lk.prev b = a

/-- The pointers reachable from `head` form one ring through exactly the nodes of `l`. -/
structure Ring (lk : Links N) (head : N) (l : List N) : Prop where
  nodup : (head :: l).Nodup
  chain : (head :: (l ++ [head])).IsChain lk.Adjacent

def Links.unlink (lk : Links N) (b : N) : Links N :=
  let prev := update lk.prev (lk.next b) (lk.prev b)
  { next := update lk.next (prev b) (lk.next b), prev := prev }

def Links.insertFront (lk : Links N) (head b : N) : Links N :=
  let next := update lk.next b (lk.next head)
  let prev := update lk.prev b head
  { next := update next head b, prev := update prev (next head) b }

/-- Follow a pointer field from `b` until the head, looking for a node that passes the test. -/
def scan (step : N → N) (head : N) (test : N → Bool) : ℕ → N → Option N
  | 0, _ => none
  | fuel + 1, b => if b = head then none else if test b then some b
      else scan step head test fuel (step b)

omit [DecidableEq N] in
theorem ring_nil {lk : Links N} {head : N} (hn : lk.next head = head) (hp : lk.prev head = head) :
    Ring lk head [] :=
  ⟨by simp, by simp [Links.Adjacent, hn, hp]⟩

omit [DecidableEq N] in
theorem Ring.reverse {lk : Links N} {head : N} {l : List N} (h : Ring lk head l) :
    Ring ⟨lk.prev, lk.next⟩ head l.reverse := by
  refine ⟨?_, ?_⟩
  · have := h.nodup
    simp only [List.nodup_cons, List.mem_reverse, List.nodup_reverse] at this ⊢
    exact this
  · have hc := List.isChain_reverse.mpr h.chain
    simp only [List.reverse_cons, List.reverse_append, List.reverse_nil, List.nil_append,
      List.singleton_append] at hc
    refine hc.imp ?_
    intro a b hab
    exact ⟨hab.2, hab.1⟩

omit [DecidableEq N] in
theorem isChain_congr {lk lk' : Links N} {l : List N} (h : l.IsChain lk.Adjacent)
    (hn : ∀ x ∈ l.dropLast, lk'.next x = lk.next x) (hp : ∀ x ∈ l.tail, lk'.prev x = lk.prev x) :
    l.IsChain lk'.Adjacent := by
  induction l with
  | nil => exact .nil
  | cons a l ih =>
    cases l with
    | nil => exact .singleton a
    | cons b l =>
      rw [List.isChain_cons_cons] at h ⊢
      refine ⟨⟨?_, ?_⟩, ih h.2 ?_ ?_⟩
      · rw [hn a (by simp), h.1.1]
      · rw [hp b (by simp), h.1.2]
      · exact fun x hx => hn x (by simp [hx])
      · exact fun x hx => hp x (by simpa using .inr hx)

theorem Ring.insertFront {lk : Links N} {head b : N} {l : List N} (h : Ring lk head l)
    (hb : b ∉ head :: l) : Ring (lk.insertFront head b) head (b :: l) := by
  have hnd := h.nodup
  have hch := h.chain
  simp only [List.mem_cons, not_or] at hb
  obtain ⟨q, rest, hq⟩ : ∃ q rest, l ++ [head] = q :: rest :=
    List.exists_cons_of_ne_nil (by simp)
  have hnd' : (q :: rest).Nodup := by
    rw [← hq]
    exact List.nodup_append_comm.mp hnd
  have hmem : ∀ x ∈ q :: rest, x ≠ b := by
    rw [← hq]
    intro x hx hxb
    subst hxb
    simp [hb] at hx
  rw [hq, List.isChain_cons_cons] at hch
  have hnext : lk.next head = q := hch.1.1
  refine ⟨?_, ?_⟩
  · have : (b :: head :: l).Nodup := List.nodup_cons.mpr ⟨by simp [hb], hnd⟩
    exact (List.Perm.swap head b l).nodup_iff.mp this
  · rw [List.cons_append, hq, List.isChain_cons_cons, List.isChain_cons_cons]
    refine ⟨⟨?_, ?_⟩, ⟨?_, ?_⟩, isChain_congr hch.2 ?_ ?_⟩
    · simp [Links.insertFront]
    · simp [Links.insertFront, hnext, Ne.symm hb.1, Ne.symm (hmem q (by simp))]
    · simp [Links.insertFront, hb.1, hnext]
    · simp [Links.insertFront, Ne.symm hb.1, hnext]
    · intro x hx
      rw [← hq, List.dropLast_concat] at hx
      have hxb : x ≠ b := fun e => hb.2 (e ▸ hx)
      have hxh : x ≠ head := fun e => (List.nodup_cons.mp hnd).1 (e ▸ hx)
      simp [Links.insertFront, hxb, hxh]
    · intro x hx
      have hx : x ∈ rest := hx
      have hxq : x ≠ q := fun e => (List.nodup_cons.mp hnd').1 (e ▸ hx)
      have hxb := hmem x (by simp [hx])
      simp [Links.insertFront, hxb, Ne.symm hb.1, hnext, hxq]

theorem Ring.unlink {lk : Links N} {head b : N} {l₁ l₂ : List N}
    (h : Ring lk head (l₁ ++ b :: l₂)) : Ring (lk.unlink b) head (l₁ ++ l₂) := by
  have hnd := h.nodup
  have hch := h.chain
  obtain ⟨q, rest, hq⟩ : ∃ q rest, l₂ ++ [head] = q :: rest :=
    List.exists_cons_of_ne_nil (by simp)
  obtain ⟨front, p, hp⟩ : ∃ front p, head :: l₁ = front ++ [p] :=
    ⟨_, _, (List.dropLast_append_getLast (by simp)).symm⟩
  have hsplit : head :: (l₁ ++ b :: l₂ ++ [head]) = (head :: l₁) ++ b :: (l₂ ++ [head]) := by simp
  rw [hsplit, hp, hq, List.append_assoc, List.singleton_append,
    List.isChain_append_cons_cons, List.isChain_cons_cons] at hch
  obtain ⟨hfront, ⟨hpb, hbp⟩, ⟨hbq, hqb⟩, hrest⟩ := hch
  have hnd₁ : (front ++ [p]).Nodup := by
    rw [← hp]
    exact hnd.sublist (by simp)
  have hnd₂ : (q :: rest).Nodup := by
    rw [← hq]
    apply List.nodup_append_comm.mp
    exact hnd.sublist (by simp)
  have hsep : ∀ x ∈ head :: l₁, ∀ y ∈ b :: l₂, x ≠ y := by
    have : ((head :: l₁) ++ b :: l₂).Nodup := by simpa using hnd
    exact (List.nodup_append.mp this).2.2
  have hpmem : p ∈ head :: l₁ := by simp [hp]
  have hqmem : q ∈ l₂ ++ [head] := by simp [hq]
  have hbl₂ : b ∉ l₂ := by
    have : (b :: l₂).Nodup := hnd.sublist (by simp)
    exact (List.nodup_cons.mp this).1
  have hbq' : b ≠ q := by
    rintro rfl
    rcases List.mem_append.mp hqmem with hm | hm
    · exact hbl₂ hm
    · exact hsep head (by simp) b (by simp) (List.mem_singleton.mp hm).symm
  have hprev : (lk.unlink b).prev = update lk.prev q p := by
    simp [Links.unlink, hbq, hbp]
  have hnext : (lk.unlink b).next = update lk.next p q := by
    simp [Links.unlink, hbq, hbq', hbp]
  refine ⟨hnd.sublist (by simp), ?_⟩
  rw [show head :: (l₁ ++ l₂ ++ [head]) = front ++ p :: q :: rest by
    rw [List.append_assoc, hq, ← List.cons_append, hp]
    simp, List.isChain_append_cons_cons]
  refine ⟨isChain_congr hfront ?_ ?_, ⟨by simp [hnext], by simp [hprev]⟩, isChain_congr hrest ?_ ?_⟩
  · intro x hx
    rw [List.dropLast_concat] at hx
    rw [hnext, update_of_ne]
    exact fun e => (List.nodup_append.mp hnd₁).2.2 x hx p (by simp) e
  · intro x hx
    rw [← hp, List.tail_cons] at hx
    rw [hprev, update_of_ne]
    rintro rfl
    rcases List.mem_append.mp hqmem with hm | hm
    · exact hsep x (by simp [hx]) x (by simp [hm]) rfl
    · rw [List.mem_singleton.mp hm] at hx
      exact (List.nodup_cons.mp hnd).1 (by simp [hx])
  · intro x hx
    rw [← hq, List.dropLast_concat] at hx
    rw [hnext, update_of_ne]
    exact fun e => hsep p hpmem x (by simp [hx]) e.symm
  · intro x hx
    rw [hprev, update_of_ne]
    exact fun e => (List.nodup_cons.mp hnd₂).1 (e ▸ hx)

theorem Ring.moveToFront {lk : Links N} {head b : N} {l₁ l₂ : List N}
    (h : Ring lk head (l₁ ++ b :: l₂)) :
    Ring ((lk.unlink b).insertFront head b) head (b :: (l₁ ++ l₂)) := by
  apply h.unlink.insertFront
  have hnd : (b :: (head :: (l₁ ++ l₂))).Nodup := by
    have := h.nodup
    rw [← List.cons_append] at this
    simpa using List.nodup_middle.mp this
  exact (List.nodup_cons.mp hnd).1

theorem scan_eq_find {lk : Links N} {head : N} (test : N → Bool) {l : List N} {fuel : ℕ}
    (hfuel : l.length < fuel) {b : N} (hhead : head ∉ l)
    (hch : (b :: (l ++ [head])).IsChain lk.Adjacent) :
    scan lk.next head test fuel (lk.next b) = l.find? test := by
  induction l generalizing b fuel with
  | nil =>
    obtain ⟨fuel, rfl⟩ := Nat.exists_eq_add_of_lt hfuel
    have hadj : lk.Adjacent b head := by simpa using hch
    simp [scan, hadj.1]
  | cons a l ih =>
    obtain ⟨fuel, rfl⟩ := Nat.exists_eq_add_of_lt hfuel
    rw [List.cons_append, List.isChain_cons_cons] at hch
    simp only [List.mem_cons, not_or] at hhead
    rw [hch.1.1, scan, if_neg (Ne.symm hhead.1)]
    cases ht : test a with
    | true => simp [ht]
    | false =>
      rw [if_neg (by simp), List.find?_cons_of_neg (by simp [ht])]
      exact ih (by simp at hfuel ⊢; omega) hhead.2 hch.2

theorem Ring.scan_next {lk : Links N} {head : N} {l : List N} (h : Ring lk head l)
    (test : N → Bool) {fuel : ℕ} (hfuel : l.length < fuel) :
    scan lk.next head test fuel (lk.next head) = l.find? test :=
  scan_eq_find test hfuel (List.nodup_cons.mp h.nodup).1 h.chain

theorem Ring.scan_prev {lk : Links N} {head : N} {l : List N} (h : Ring lk head l)
    (test : N → Bool) {fuel : ℕ} (hfuel : l.length < fuel) :
    scan lk.prev head test fuel (lk.prev head) = l.reverse.find? test := by
  have := h.reverse.scan_next test (by simpa using hfuel)
  exact this

end Xv6.DoublyLinkedRings
