import Xv6.KernelMemory
import Mathlib.Algebra.Order.BigOperators.Group.Multiset
import Mathlib.Data.Finset.Card
import Mathlib.Order.Interval.Finset.Nat
import Mathlib.Data.Multiset.UnionInter

/-!
# Free pages and pages in use

What a program does to memory is stated about the free list and the pages of the structures
it works on. The two together are the same pages before and after, and every other page is
left as it is, so that a statement about few pages holds among any others.
-/

namespace Xv6.Vm
open Function

open OperationPrograms LittleEndianBlocks

/-- A program run from a state ends with `Q`, or stops with an error in `F`. -/
def Ensures {α : Type} (m : Machine) (deny : ℕ → Bool) (F : Panic → Prop) (prog : K α)
    (Q : α → Kernel → Prop) (s : Kernel) : Prop :=
  Prog.wp (Prog.guarantee (perform m deny) F) prog Q s

section Ensures

variable {α β : Type} {m : Machine} {deny : ℕ → Bool} {F : Panic → Prop} {s : Kernel}

@[simp] theorem ensures_ret (a : α) (Q : α → Kernel → Prop) :
    Ensures m deny F (.ret a) Q s ↔ Q a s := Iff.rfl

theorem ensures_pure (a : α) (Q : α → Kernel → Prop) :
    Ensures m deny F (pure a) Q s ↔ Q a s := Iff.rfl

@[simp] theorem ensures_bind (x : K α) (f : α → K β) (Q : β → Kernel → Prop) :
    Ensures m deny F (x >>= f) Q s ↔
      Ensures m deny F x (fun a => Ensures m deny F (f a) Q) s := by
  unfold Ensures
  rw [Prog.wp_bind]

theorem ensures_access (op : Op) (Q : op.Res → Kernel → Prop) :
    Ensures m deny F (access op) Q s ↔ Ends F (fun r => Q r.1 r.2) (perform m deny op s) := Iff.rfl

theorem ensures_panic {e : Panic} (Q : α → Kernel → Prop) (h : F e) :
    Ensures m deny F (panic e) Q s := h

theorem Ensures.mono {x : K α} {Q Q' : α → Kernel → Prop} (h : Ensures m deny F x Q s)
    (hQ : ∀ a s', Q a s' → Q' a s') : Ensures m deny F x Q' s :=
  Prog.wp_mono (Prog.guarantee_monotone _ _) hQ h

theorem ensures_forM {ι : Type} {is : List ι} {f : ι → K Unit} (J : List ι → Kernel → Prop)
    (hstep : ∀ i is s, J (i :: is) s → Ensures m deny F (f i) (fun _ => J is) s) (h : J is s) :
    Ensures m deny F (is.forM f) (fun _ => J []) s := by
  induction is generalizing s with
  | nil => exact h
  | cons i is ih =>
    rw [List.forM_eq_forM, List.forM_cons, ensures_bind]
    exact (hstep i is s h).mono fun _ s' hs' => ih hs'

-- Otherwise the program would be run whenever a statement about it is looked at.
attribute [irreducible] Ensures

end Ensures

/-- The free list: from the address `a` on, each page holds the address of the next. -/
def Chain (page : ℕ → Bytes pgSize) : (a : ℕ) → List ℕ → Prop
  | a, [] => a = 0
  | a, p :: ps => a = p * pgSize ∧ Chain page (getField (page p) 0 8) ps

/-- `l` is the list of free pages, and the pages `A` are in use. -/
structure Heap (m : Machine) (s : Kernel) (l : List ℕ) (A : Multiset ℕ) : Prop where
  chain : Chain s.page s.freelist l
  nodup : (↑l + A).Nodup
  pool : ∀ p ∈ ↑l + A, m.InPool p
  free : ∀ p ∈ l, s.taken p = false
  taken : ∀ p ∈ A, s.taken p = true

structure SamePage (s s' : Kernel) (p : ℕ) : Prop where
  page : s'.page p = s.page p
  taken : s'.taken p = s.taken p
  stale : s'.stale p = s.stale p

/-- The free pages `l` and the pages `A` in use became `l'` and `A'`, and nothing else
happened. The list of free pages got shorter by calls of `kalloc` only. -/
structure Moves (m : Machine) (s : Kernel) (l : List ℕ) (A : Multiset ℕ) (s' : Kernel)
    (l' : List ℕ) (A' : Multiset ℕ) : Prop where
  heap : Heap m s' l' A'
  pages : ↑l' + A' = ↑l + A
  same : ∀ p, p ∉ ↑l + A → SamePage s s' p
  tables : s'.tables = s.tables
  calls : s.calls ≤ s'.calls ∧ s.calls + l.length ≤ s'.calls + l'.length

/-- Between two states, of which the first had the free pages `l`, `kalloc` refused a page: a call
was denied, or there were more calls than pages. -/
def Refused (deny : ℕ → Bool) (s : Kernel) (l : List ℕ) (s' : Kernel) : Prop :=
  (∃ k, s.calls ≤ k ∧ k < s'.calls ∧ deny k = true) ∨ s.calls + l.length < s'.calls

variable {m : Machine} {deny : ℕ → Bool} {F : Panic → Prop} {s s' s'' : Kernel}
  {l l' l'' : List ℕ} {A A' A'' R : Multiset ℕ}

theorem chain_congr {page page' : ℕ → Bytes pgSize} {a : ℕ} {l : List ℕ} (h : Chain page a l)
    (hpage : ∀ p ∈ l, page' p = page p) : Chain page' a l := by
  induction l generalizing a with
  | nil => exact h
  | cons p ps ih =>
    refine ⟨h.1, ?_⟩
    rw [hpage p (by simp)]
    exact ih h.2 fun q hq => hpage q (by simp [hq])

theorem SamePage.refl (s : Kernel) (p : ℕ) : SamePage s s p := ⟨rfl, rfl, rfl⟩

variable {p : ℕ}

theorem SamePage.trans (h : SamePage s s' p) (h' : SamePage s' s'' p) : SamePage s s'' p :=
  ⟨h'.page.trans h.page, h'.taken.trans h.taken, h'.stale.trans h.stale⟩

theorem Machine.inPool_ram (h : m.InPool p) : kernBase ≤ p ∧ p < physTop :=
  ⟨(m.image.trans m.behind.le).trans h.1, h.2⟩

theorem Machine.inPool_pos (h : m.InPool p) : 0 < p :=
  Nat.lt_of_lt_of_le (by decide) (Machine.inPool_ram h).1

theorem Machine.InPool.addr_ne_zero (h : m.InPool p) : p * pgSize ≠ 0 :=
  Nat.mul_ne_zero (Machine.inPool_pos h).ne' (by decide)

theorem addr_div (p : ℕ) {i : ℕ} (hi : i < pgSize) : (p * pgSize + i) / pgSize = p := by
  unfold pgSize at *
  omega

theorem addr_off (p : ℕ) {i : ℕ} (hi : i < pgSize) : off (p * pgSize + i) = i := by
  unfold off pgSize at *
  omega

@[simp] theorem page_div (p : ℕ) : p * pgSize / pgSize = p := Nat.mul_div_cancel p (by decide)

theorem fits {p i n : ℕ} (hp : m.InPool p) (hi : i < pgSize) (hn : i + n ≤ pgSize) :
    Fits (p * pgSize + i) n := by
  have hram := Machine.inPool_ram hp
  rw [Fits, addr_div p hi, addr_off p hi]
  exact ⟨hram.1, hram.2, hn⟩

theorem fits_page {p n : ℕ} (hp : m.InPool p) (hn : n ≤ pgSize) : Fits (p * pgSize) n := by
  simpa using fits (i := 0) hp (by decide) (by omega)

theorem Heap.of_le (h : Heap m s l A) (hle : A' ≤ A) : Heap m s l A' := by
  have hle' : ↑l + A' ≤ ↑l + A := add_le_add_right hle ↑l
  exact ⟨h.chain, Multiset.nodup_of_le hle' h.nodup,
    fun p hp => h.pool p (Multiset.mem_of_le hle' hp), h.free,
    fun p hp => h.taken p (Multiset.mem_of_le hle hp)⟩

theorem Heap.mono (h : Heap m s l (A + R)) : Heap m s l A := h.of_le (Multiset.le_add_right A R)

theorem Heap.zero (h : Heap m s l A) : Heap m s l 0 := h.of_le (Multiset.zero_le A)

theorem Heap.card_le (h : Heap m s l A) : l.length + A.card ≤ 0x8000 := by
  have hsub : (↑l + A).toFinset ⊆ Finset.Ico kernBase physTop := by
    intro p hp
    have hram := Machine.inPool_ram (h.pool p (Multiset.mem_toFinset.mp hp))
    exact Finset.mem_Ico.mpr hram
  have hcard := Finset.card_le_card hsub
  rw [Multiset.toFinset_card_of_nodup h.nodup, Multiset.card_add, Multiset.coe_card,
    Nat.card_Ico] at hcard
  exact hcard.trans (by decide)

theorem Heap.freelist_lt (h : Heap m s l A) : s.freelist < 256 ^ 8 := by
  match l, h.chain with
  | [], hchain =>
    rw [show s.freelist = 0 from hchain]
    decide
  | p :: ps, hchain =>
    have hp := (h.pool p (by simp)).2
    rw [hchain.1]
    calc p * pgSize < physTop * pgSize := Nat.mul_lt_mul_of_pos_right hp (by decide)
      _ < 256 ^ 8 := by decide

theorem Heap.notMem_of_mem (h : Heap m s l (A + R)) (hp : p ∈ R) : p ∉ ↑l + A := by
  have hnodup := h.nodup
  rw [← add_assoc, Multiset.nodup_add] at hnodup
  exact fun hpl => Multiset.disjoint_left.mp hnodup.2.2 hpl hp

theorem Moves.refl (h : Heap m s l A) : Moves m s l A s l A :=
  ⟨h, rfl, fun p _ => SamePage.refl s p, rfl, le_rfl, le_rfl⟩

theorem Moves.trans (h : Moves m s l A s' l' A') (h' : Moves m s' l' A' s'' l'' A'') :
    Moves m s l A s'' l'' A'' where
  heap := h'.heap
  pages := h'.pages.trans h.pages
  same p hp := (h.same p hp).trans (h'.same p (h.pages ▸ hp))
  tables := h'.tables.trans h.tables
  calls := ⟨h.calls.1.trans h'.calls.1, h.calls.2.trans h'.calls.2⟩

theorem Refused.of_moves (h : Moves m s l A s' l' A') (h' : Refused deny s' l' s'') :
    Refused deny s l s'' := by
  obtain ⟨k, hk, hlt, hdeny⟩ | hlt := h'
  · exact .inl ⟨k, h.calls.1.trans hk, hlt, hdeny⟩
  · exact .inr (h.calls.2.trans_lt hlt)

theorem Refused.moves (h : Refused deny s l s') (h' : Moves m s' l' A' s'' l'' A'') :
    Refused deny s l s'' := by
  obtain ⟨k, hk, hlt, hdeny⟩ | hlt := h
  · exact .inl ⟨k, hk, hlt.trans_le h'.calls.1, hdeny⟩
  · exact .inr (hlt.trans_le h'.calls.1)

theorem Moves.keeps (h : Moves m s l A s' l' A') (hheap : Heap m s l (A + R)) :
    ∀ p ∈ R, SamePage s s' p := fun p hp => h.same p (hheap.notMem_of_mem hp)

theorem Moves.add (h : Moves m s l A s' l' A') (hheap : Heap m s l (A + R)) :
    Moves m s l (A + R) s' l' (A' + R) := by
  have hpages : ↑l' + (A' + R) = ↑l + (A + R) := by rw [← add_assoc, ← add_assoc, h.pages]
  refine ⟨⟨h.heap.chain, hpages ▸ hheap.nodup, fun p hp => hheap.pool p (hpages ▸ hp),
    h.heap.free, fun p hp => ?_⟩, hpages, fun p hp => ?_, h.tables, h.calls⟩
  · obtain hp | hp := Multiset.mem_add.mp hp
    · exact h.heap.taken p hp
    · rw [(h.keeps hheap p hp).taken]
      exact hheap.taken p (Multiset.mem_add.mpr (.inr hp))
  · refine h.same p fun hp' => hp ?_
    rw [← add_assoc]
    exact Multiset.mem_add.mpr (.inl hp')

theorem Moves.beside (h : Moves m s l 0 s' l' A') (hheap : Heap m s l R) :
    Moves m s l R s' l' (A' + R) := by
  simpa using h.add (R := R) (by rwa [zero_add])

theorem Moves.spared (h : Moves m s l 0 s' l' 0) (hheap : Heap m s l R) :
    Moves m s l R s' l' R := by
  simpa using h.beside hheap

theorem Moves.keeps_beside (h : Moves m s l 0 s' l' A') (hheap : Heap m s l R) :
    ∀ p ∈ R, SamePage s s' p := h.keeps (by rwa [zero_add])

theorem Heap.touch (h : Heap m s l A) (hp : p ∈ A) (hfreelist : s'.freelist = s.freelist)
    (htaken : s'.taken = s.taken) (htables : s'.tables = s.tables) (hcalls : s'.calls = s.calls)
    (hsame : ∀ q, q ≠ p → SamePage s s' q) : Moves m s l A s' l A := by
  have hne (q : ℕ) (hq : q ∈ l) : q ≠ p := by
    rintro rfl
    exact Multiset.disjoint_left.mp (Multiset.nodup_add.mp h.nodup).2.2 hq hp
  refine ⟨⟨?_, h.nodup, h.pool, ?_, ?_⟩, rfl, fun q hq => hsame q ?_, htables,
    hcalls ▸ ⟨le_rfl, le_rfl⟩⟩
  · rw [hfreelist]
    exact chain_congr h.chain fun q hq => (hsame q (hne q hq)).page
  · rw [htaken]
    exact h.free
  · rw [htaken]
    exact h.taken
  · rintro rfl
    exact hq (Multiset.mem_add.mpr (.inr hp))

theorem Heap.write (h : Heap m s l A) (hp : p ∈ A) (b : Bytes pgSize) (w : ℕ → Bool) :
    Moves m s l A (s.write p b w) l A :=
  h.touch hp rfl rfl rfl rfl fun _ hq =>
    ⟨update_of_ne hq _ _, rfl, update_of_ne hq _ _⟩

theorem Heap.kalloc_nil (h : Heap m s [] A) : s.kalloc = .ok (0, s) :=
  if_pos (show s.freelist = 0 from h.chain)

theorem Heap.kalloc_cons (h : Heap m s (p :: l) 0) :
    ∃ s', s.kalloc = .ok (p * pgSize, s') ∧ Heap m s' l {p} ∧
      (∀ q, q ≠ p → SamePage s s' q) ∧ s'.tables = s.tables ∧ s'.calls = s.calls := by
  have hp : m.InPool p := h.pool p (by simp)
  have hnodup : p ∉ l ∧ l.Nodup := by simpa using h.nodup
  have hdiv : s.freelist / pgSize = p := by rw [h.chain.1, page_div]
  have hfits : Fits s.freelist 8 := h.chain.1 ▸ fits_page hp (by decide)
  have hfree : s.taken p = false := h.free p (by simp)
  have hne : s.freelist ≠ 0 := by
    rw [h.chain.1]
    exact hp.addr_ne_zero
  refine ⟨{ s with
    freelist := getField (s.page p) 0 8
    taken := update s.taken p true
    stale := update s.stale p fun i => 8 ≤ i }, ?_, ⟨h.chain.2, ?_, ?_, ?_, ?_⟩, ?_, rfl, rfl⟩
  · rw [Kernel.kalloc, if_neg hne, hdiv, if_neg (not_not_intro hfits), if_neg (by simp [hfree]),
      ← h.chain.1]
  · simpa [and_comm, Multiset.nodup_add] using hnodup
  · intro q hq
    refine h.pool q ?_
    simpa [or_comm] using hq
  · intro q hq
    have hqp : q ≠ p := fun heq => hnodup.1 (heq ▸ hq)
    simp only [update_of_ne hqp]
    exact h.free q (by simp [hq])
  · intro q hq
    rw [Multiset.mem_singleton.mp hq]
    exact update_self ..
  · exact fun q hqp => ⟨rfl, update_of_ne hqp _ _, update_of_ne hqp _ _⟩

theorem kalloc_spec {Q : ℕ → Kernel → Prop} (h : Heap m s l 0)
    (hnone : ∀ s', Moves m s l 0 s' l 0 → Refused deny s l s' → Q 0 s')
    (hsome : ∀ p l' s', m.InPool p → Moves m s l 0 s' l' {p} → Q (p * pgSize) s') :
    Ensures m deny F kalloc Q s := by
  have hcalls : Moves m s l 0 { s with calls := s.calls + 1 } l 0 :=
    ⟨⟨h.chain, h.nodup, h.pool, h.free, h.taken⟩, rfl, fun p _ => ⟨rfl, rfl, rfl⟩, rfl,
      Nat.le_succ _, Nat.add_le_add_right (Nat.le_succ _) _⟩
  rw [kalloc, ensures_access, perform]
  split
  · next hdeny => exact hnone _ hcalls (.inl ⟨s.calls, le_rfl, Nat.lt_succ_self _, hdeny⟩)
  · cases l with
    | nil =>
      rw [hcalls.heap.kalloc_nil, ends_ok]
      exact hnone _ hcalls (.inr (Nat.lt_succ_self _))
    | cons p ps =>
      obtain ⟨s', hk, hheap, hsame, htables, hcalls'⟩ := hcalls.heap.kalloc_cons
      rw [hk, ends_ok]
      refine hsome p ps s' (h.pool p (by simp)) ⟨hheap, ?_, fun q hq => ?_, htables, ?_⟩
      · rw [← Multiset.cons_coe, ← Multiset.singleton_add, add_comm, add_zero]
      · exact (hcalls.same q hq).trans (hsame q fun heq => hq (by simp [heq]))
      · rw [hcalls', List.length_cons]
        exact ⟨Nat.le_succ _, by dsimp only; omega⟩

theorem Heap.kfree (h : Heap m s l {p}) :
    ∃ s', s.kfree m (p * pgSize) = .ok ((), s') ∧ Moves m s l {p} s' (p :: l) 0 := by
  have hp : m.InPool p := h.pool p (by simp)
  have htaken : s.taken p = true := h.taken p (by simp)
  have hnodup : p ∉ l ∧ l.Nodup := by
    have := h.nodup
    simpa [Multiset.nodup_add, and_comm] using this
  refine ⟨{ s with
    page := update s.page p (putField (s.page p) 0 s.freelist 8)
    freelist := p * pgSize
    taken := update s.taken p false }, ?_, ⟨⟨rfl, ?_⟩, ?_, ?_, ?_, by simp⟩, ?_, ?_, rfl, le_rfl,
    Nat.add_le_add_left (Nat.le_succ _) _⟩
  · rw [Kernel.kfree, page_div, if_neg (by simp [hp.1, hp.2]), if_neg (by simp [htaken])]
  · dsimp only
    rw [update_self, getField_putField_self _ _ _ _ (by decide),
      Nat.mod_eq_of_lt h.freelist_lt]
    refine chain_congr h.chain fun q hq => update_of_ne ?_ _ _
    rintro rfl
    exact hnodup.1 hq
  · simpa using hnodup
  · intro q hq
    refine h.pool q ?_
    simpa [or_comm] using hq
  · intro q hq
    obtain rfl | hq := List.mem_cons.mp hq
    · exact update_self ..
    · have hqp : q ≠ p := fun heq => hnodup.1 (heq ▸ hq)
      simp only [update_of_ne hqp]
      exact h.free q hq
  · rw [add_zero, ← Multiset.cons_coe, ← Multiset.singleton_add, add_comm]
  · intro q hq
    have hqp : q ≠ p := fun heq => hq (by simp [heq])
    exact ⟨update_of_ne hqp _ _, update_of_ne hqp _ _, rfl⟩

theorem kfree_spec {Q : Unit → Kernel → Prop} (h : Heap m s l {p})
    (hQ : ∀ s', Moves m s l {p} s' (p :: l) 0 → Q () s') :
    Ensures m deny F (kfree (p * pgSize)) Q s := by
  obtain ⟨s', hk, hmoves⟩ := h.kfree
  rw [kfree, ensures_access, perform, hk, ends_ok]
  exact hQ s' hmoves

def Init (s : Kernel) (p : ℕ) : Prop := ∀ i, s.stale p i = false

theorem Init.write {p q : ℕ} {b : Bytes pgSize} {w : ℕ → Bool} (h : Init s q) :
    Init (s.write p b w) q := by
  intro i
  by_cases hq : q = p
  · subst hq
    simp [Kernel.write, h i]
  · simp [Kernel.write, hq, h i]

theorem anyStale_eq_false {p i n : ℕ} (hi : i < pgSize)
    (h : ∀ j, i ≤ j → j < i + n → s.stale p j = false) :
    s.anyStale (p * pgSize + i) n = false := by
  simp only [Kernel.anyStale, addr_div p hi, addr_off p hi, List.any_eq_false, List.mem_range]
  intro j hj
  simp [h (i + j) (by omega) (by omega)]

theorem load_spec {Q : ℕ → Kernel → Prop} {p i k : ℕ} (hp : m.InPool p)
    (hinit : ∀ j, i ≤ j → j < i + k → s.stale p j = false) (hi : i < pgSize) (hk : i + k ≤ pgSize)
    (hQ : Q (getField (s.page p) i k) s) :
    Ensures m deny F (load (p * pgSize + i) k) Q s := by
  have hfits := fits hp hi hk
  have hstale := anyStale_eq_false hi hinit
  rw [load, ensures_access]
  simp only [perform, hfits, hstale, not_true_eq_false, Bool.false_eq_true, if_false, ends_ok,
    addr_div p hi, addr_off p hi]
  exact hQ

theorem take_spec {Q : List UInt8 → Kernel → Prop} {p i n : ℕ} (hp : m.InPool p)
    (hinit : ∀ j, i ≤ j → j < i + n → s.stale p j = false) (hi : i < pgSize) (hn : i + n ≤ pgSize)
    (hQ : Q (getBytes (s.page p) i n) s) :
    Ensures m deny F (take (p * pgSize + i) n) Q s := by
  have hfits := fits hp hi hn
  have hstale := anyStale_eq_false hi hinit
  rw [take, ensures_access]
  simp only [perform, hfits, hstale, not_true_eq_false, Bool.false_eq_true, if_false, ends_ok,
    addr_div p hi, addr_off p hi]
  exact hQ

theorem store_spec {Q : Unit → Kernel → Prop} {p i v k : ℕ} (hp : m.InPool p) (hi : i < pgSize)
    (hk : i + k ≤ pgSize)
    (hQ : Q () (s.write p (putField (s.page p) i v k) fun j => i ≤ j ∧ j < i + k)) :
    Ensures m deny F (store (p * pgSize + i) v k) Q s := by
  have hfits := fits hp hi hk
  rw [store, ensures_access]
  simp only [perform, hfits, if_true, ends_ok, addr_div p hi, addr_off p hi]
  exact hQ

theorem memset_spec {Q : Unit → Kernel → Prop} (hp : m.InPool p)
    (hQ : Q () (s.write p (fun _ => 0) fun _ => true)) :
    Ensures m deny F (memset (p * pgSize)) Q s := by
  have hfits := fits_page hp le_rfl
  rw [memset, ensures_access]
  simp only [perform, hfits, if_true, ends_ok, page_div]
  exact hQ

theorem memmove_spec {Q : Unit → Kernel → Prop} {p q : ℕ} (hp : m.InPool p) (hq : m.InPool q)
    (hQ : Q () { s with
      page := update s.page p (s.page q)
      stale := update s.stale p (s.stale q) }) :
    Ensures m deny F (memmove (p * pgSize) (q * pgSize)) Q s := by
  have hfits := fits_page hp le_rfl
  have hfits' := fits_page hq le_rfl
  rw [memmove, ensures_access]
  simp only [perform, hfits, hfits', and_true, if_true, ends_ok, page_div]
  exact hQ

theorem put_spec {Q : Unit → Kernel → Prop} {p i : ℕ} {bs : List UInt8} (hp : m.InPool p)
    (hi : i < pgSize) (hn : i + bs.length ≤ pgSize)
    (hQ : Q () (s.write p (putBytes (s.page p) i bs) fun j => i ≤ j ∧ j < i + bs.length)) :
    Ensures m deny F (put (p * pgSize + i) bs) Q s := by
  have hfits := fits hp hi hn
  rw [put, ensures_access]
  simp only [perform, hfits, if_true, ends_ok, addr_div p hi, addr_off p hi]
  exact hQ

theorem put_page_spec {Q : Unit → Kernel → Prop} {bs : List UInt8} (hp : m.InPool p)
    (hn : bs.length ≤ pgSize)
    (hQ : Q () (s.write p (putBytes (s.page p) 0 bs) fun j => 0 ≤ j ∧ j < 0 + bs.length)) :
    Ensures m deny F (put (p * pgSize) bs) Q s := by
  have hspec : Ensures m deny F (put (p * pgSize + 0) bs) Q s :=
    put_spec hp (by decide) (by omega) hQ
  rwa [Nat.add_zero] at hspec

theorem takeUser_spec {Q : List UInt8 → Kernel → Prop} {p i n : ℕ} (hp : m.InPool p)
    (hi : i < pgSize) (hn : i + n ≤ pgSize) (hQ : Q (getBytes (s.page p) i n) s) :
    Ensures m deny F (takeUser (p * pgSize + i) n) Q s := by
  have hfits := fits hp hi hn
  rw [takeUser, ensures_access]
  simp only [perform, hfits, if_true, ends_ok, addr_div p hi, addr_off p hi]
  exact hQ

theorem store_field {Q : Unit → Kernel → Prop} {p off v k : ℕ} (hheap : Heap m s l {p})
    (hk : 0 < k) (hoff : off + k ≤ pgSize)
    (hQ : ∀ s', Moves m s l {p} s' l {p} → s'.page p = putField (s.page p) off v k →
      (∀ j, s'.stale p j = (s.stale p j && !decide (off ≤ j ∧ j < off + k))) → Q () s') :
    Ensures m deny F (store (p * pgSize + off) v k) Q s := by
  refine store_spec (hheap.pool p (by simp)) (by omega) hoff ?_
  refine hQ _ (hheap.write (by simp) _ _) (update_self ..) fun j => ?_
  simp [Kernel.write]

end Xv6.Vm
