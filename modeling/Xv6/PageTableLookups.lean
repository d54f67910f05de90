import Xv6.AddressSpaces

/-!
# Lookups in a page table

A page table seen through `walk` alone: the entry that is found for an address. The functions
that change a table are described by the entries that are found afterwards.
-/

namespace Xv6.Vm

open OperationPrograms LittleEndianBlocks RadixTables

variable {m : Machine} {deny : ℕ → Bool} {F : Panic → Prop} {s s' : Kernel} {l l' : List ℕ}
  {root : ℕ} {f f' : ℕ → ℕ} {I I' : Multiset ℕ}

/-- The entry that `walk` finds without allocating, or 0. -/
def lookup (pagetable va : ℕ) : K ℕ := do
  let pte ← walk pagetable va false
  if pte = 0 then
    return 0
  else
    load pte 8

def leaf (m : Machine) (s : Kernel) (pagetable va : ℕ) : Except Panic ℕ :=
  (Prog.run (perform m fun _ => false) (lookup pagetable va) s).map Prod.fst

theorem lookup_spec {Q : ℕ → Kernel → Prop} {va : ℕ} (hheap : Heap m s l I)
    (h : Table s root f I) (hva : va < maxVa) (hQ : Q (f (va / pgSize)) s) :
    Ensures m deny F (lookup (root * pgSize) va) Q s := by
  have hv : va / pgSize < 2 ^ 27 := by
    unfold maxVa at hva
    unfold pgSize
    omega
  rw [lookup, ensures_bind]
  refine walk_lookup hheap h hva (fun hzero => ?_) fun pa hpa hentry => ?_
  · rw [if_pos rfl, ensures_pure]
    rwa [hzero] at hQ
  · rw [if_neg hpa]
    exact hentry.load hheap hv hQ

theorem Ensures.run {α : Type} {prog : K α} {Q : α → Kernel → Prop}
    (h : Ensures m deny (fun _ => False) prog Q s) :
    ∃ a s', Prog.run (perform m deny) prog s = .ok (a, s') ∧ Q a s' := by
  unfold Ensures at h
  exact Prog.exists_run_of_wp h

theorem leaf_eq {va : ℕ} (hheap : Heap m s l I) (h : Table s root f I) (hva : va < maxVa) :
    leaf m s (root * pgSize) va = .ok (f (va / pgSize)) := by
  have hlookup : Ensures m (fun _ => false) (fun _ => False) (lookup (root * pgSize) va)
      (fun e _ => e = f (va / pgSize)) s := lookup_spec hheap h hva rfl
  obtain ⟨e, s', hrun, he⟩ := Ensures.run hlookup
  rw [leaf, hrun, ← he]
  rfl

/-- From `s` to `s'`, the lookups in a range are changed to entries that satisfy `P`, and no
others. -/
def Relooks (m : Machine) (s s' : Kernel) (pagetable va size : ℕ) (P : ℕ → ℕ → Prop) : Prop :=
  ∀ a < maxVa, a % pgSize = 0 →
    if va ≤ a ∧ a < va + size then ∃ e, leaf m s' pagetable a = .ok e ∧ P a e
    else leaf m s' pagetable a = leaf m s pagetable a

/-- An entry with flags that refers to the page of `a` when `va` is mapped to `pa`. -/
def Decodes (va pa flags a e : ℕ) : Prop := pte2pa e = pa + (a - va) ∧ pteFlags e = flags

theorem relooks_of_tables {v k : ℕ} {P : ℕ → ℕ → Prop} (hheap : Heap m s l I)
    (h : Table s root f I) (hheap' : Heap m s' l' I') (h' : Table s' root f' I')
    (hin : ∀ w, v ≤ w → w < v + k → P (w * pgSize) (f' w))
    (hout : ∀ w, ¬(v ≤ w ∧ w < v + k) → f' w = f w) :
    Relooks m s s' (root * pgSize) (v * pgSize) (k * pgSize) P := by
  intro a ha hmod
  have hpage : a = a / pgSize * pgSize := (Nat.div_mul_cancel (Nat.dvd_of_mod_eq_zero hmod)).symm
  have hrange : v * pgSize ≤ a ∧ a < v * pgSize + k * pgSize ↔
      v ≤ a / pgSize ∧ a / pgSize < v + k := by
    unfold pgSize at hpage ⊢
    omega
  rw [leaf_eq hheap' h' ha, leaf_eq hheap h ha]
  by_cases hw : v ≤ a / pgSize ∧ a / pgSize < v + k
  · rw [if_pos (hrange.mpr hw)]
    refine ⟨_, rfl, ?_⟩
    have hP := hin _ hw.1 hw.2
    rwa [← hpage] at hP
  · rw [if_neg (mt hrange.mp hw), hout _ hw]

theorem decodes_mapped {v p perm w : ℕ} (hp : p + (w - v) < 2 ^ 52) (hperm : perm < 1024) :
    Decodes (v * pgSize) (p * pgSize) (perm ||| pteV) (w * pgSize)
      (pte (p + (w - v)) (perm ||| pteV)) := by
  have hflags : perm ||| pteV < 1024 := Nat.or_lt_two_pow (n := 10) hperm (by decide)
  refine ⟨?_, pteFlags_pte hflags⟩
  rw [pte2pa_pte hp hflags, Nat.add_mul, Nat.sub_mul]

def UnmapPanic (e : Panic) : Prop :=
  e = .uvmunmapWalk ∨ e = .uvmunmapNotMapped ∨ e = .uvmunmapNotLeaf

theorem unmapFrom_stops {Q : Unit → Kernel → Prop} {v k : ℕ} (hheap : Heap m s l I)
    (h : Table s root f I) (hv : v < 2 ^ 26) (hleaf : ¬IsLeaf (f v)) {doFree : Bool} :
    Ensures m deny UnmapPanic (unmapFrom (root * pgSize) doFree (k + 1) (v * pgSize)) Q s := by
  rw [unmapFrom, ensures_bind]
  refine walk_lookup hheap h (page_lt_maxVa hv) (fun _ => ?_) fun pa hpa hentry => ?_
  · rw [if_pos rfl]
    exact ensures_panic _ (.inl rfl)
  · rw [page_div] at hentry
    rw [if_neg hpa, ensures_bind]
    refine hentry.load hheap (by omega) ?_
    by_cases hvalid : f v &&& pteV = 0
    · rw [if_pos hvalid]
      exact ensures_panic _ (.inr (.inl rfl))
    · have hflags : pteFlags (f v) = pteV := by
        by_contra hflags
        exact hleaf ⟨hvalid, hflags⟩
      rw [if_neg hvalid, if_pos hflags]
      exact ensures_panic _ (.inr (.inr rfl))

/-- Page `root` is the root of a table that maps page numbers by `f`. The pages `I` of the
table are distinct, and none of them is free. -/
structure IsTable (m : Machine) (s : Kernel) (l : List ℕ) (root : ℕ) (f : ℕ → ℕ)
    (I : Multiset ℕ) : Prop where
  heap : Heap m s l I
  table : Table s root f I

theorem mappages_relooks {v k p perm : ℕ} (h : IsTable m s l root f I) (hk : 0 < k)
    (hv : v + k ≤ 2 ^ 26) (hp : p + k ≤ 2 ^ 44) (hperm : perm < 1024)
    (hfree : ∀ w, v ≤ w → w < v + k → f w &&& pteV = 0) :
    Ensures m deny (fun _ => False)
      (mappages (root * pgSize) (v * pgSize) (k * pgSize) (p * pgSize) perm)
      (fun ok s' => (∃ l' f' I', IsTable m s' l' root f' I') ∧ ∃ j ≤ k, (ok = true ↔ j = k) ∧
        Relooks m s s' (root * pgSize) (v * pgSize) (j * pgSize)
          (Decodes (v * pgSize) (p * pgSize) (perm ||| pteV))) s := by
  refine mappages_spec h.heap h.table hfree hk hv (by omega) hperm
    fun ok s' l' I' j hmove htable hj hok _ => ?_
  refine ⟨⟨l', _, I', hmove.heap, htable⟩, j, hj, hok, ?_⟩
  refine relooks_of_tables h.heap h.table hmove.heap htable (fun w hvw hw => ?_) fun w hw => ?_
  · rw [mapped, if_pos ⟨hvw, hw⟩]
    exact decodes_mapped (by omega) hperm
  · rw [mapped, if_neg hw]

theorem uvmunmap_relooks {v k : ℕ} {doFree : Bool} (h : Table s root f I)
    (hheap : Heap m s l (I + freed doFree f v k)) (hv : v + k ≤ 2 ^ 26)
    (hleaf : ∀ w, v ≤ w → w < v + k → IsLeaf (f w)) :
    Ensures m deny (fun _ => False) (uvmunmap (root * pgSize) (v * pgSize) k doFree)
      (fun _ s' => (∃ l' f' I', IsTable m s' l' root f' I') ∧
        Relooks m s s' (root * pgSize) (v * pgSize) (k * pgSize) fun _ e => e = 0) s := by
  refine uvmunmap_spec hheap h hleaf hv fun s' l' hmove htable => ?_
  refine ⟨⟨l', _, I, hmove.heap, htable⟩, ?_⟩
  refine relooks_of_tables hheap.mono h hmove.heap htable (fun w hvw hw => ?_) fun w hw => ?_
  · rw [unmapped, if_pos ⟨hvw, hw⟩]
  · rw [unmapped, if_neg hw]

theorem uvmunmap_stops {v j k : ℕ} {doFree : Bool} (h : Table s root f I)
    (hheap : Heap m s l (I + freed doFree f v j)) (hv : v + k ≤ 2 ^ 26)
    (hleaf : ∀ w, v ≤ w → w < v + j → IsLeaf (f w)) (hj : j < k) (hstop : ¬IsLeaf (f (v + j))) :
    Ensures m deny UnmapPanic (uvmunmap (root * pgSize) (v * pgSize) k doFree)
      (fun _ _ => False) s := by
  obtain ⟨n, rfl⟩ : ∃ n, k = n + 1 + j := ⟨k - j - 1, by omega⟩
  have hk : ((v * pgSize + (n + 1 + j) * pgSize) % 2 ^ 64 - v * pgSize) / pgSize = n + 1 + j := by
    unfold pgSize
    omega
  rw [uvmunmap, if_neg (by simp), hk]
  refine unmapFrom_append hheap h hleaf (by omega) fun s' l' hmove htable => ?_
  refine unmapFrom_stops hmove.heap htable (by omega) ?_
  rwa [unmapped, if_neg (by omega)]

/-- Page tables are finite maps: `mappages` and `uvmunmap` change the lookups in their ranges
and no others, and `walkaddr` returns the page of a valid user leaf. -/
theorem pagetable_is_map (h : IsTable m s l root f I) :
    (∀ va < maxVa, leaf m s (root * pgSize) va = .ok (f (va / pgSize))) ∧
    (∀ va size pa perm, va % pgSize = 0 → size % pgSize = 0 → 0 < size → va + size ≤ maxVa →
      pa % pgSize = 0 → 0 < pa → pa + size ≤ 2 ^ 56 → perm < 1024 →
      (∀ a, va ≤ a → a < va + size → f (a / pgSize) &&& pteV = 0) →
      Ensures m deny (fun _ => False) (mappages (root * pgSize) va size pa perm)
        (fun ok s' => (∃ l' f' I', IsTable m s' l' root f' I') ∧
          ∃ j, j % pgSize = 0 ∧ j ≤ size ∧ (ok = true ↔ j = size) ∧
            Relooks m s s' (root * pgSize) va j (Decodes va pa (perm ||| pteV))) s) ∧
    (∀ va npages doFree, va % pgSize = 0 → va + npages * pgSize ≤ maxVa →
      (∀ a, va ≤ a → a < va + npages * pgSize → IsLeaf (f (a / pgSize))) →
      Heap m s l (I + freed doFree f (va / pgSize) npages) →
      Ensures m deny (fun _ => False) (uvmunmap (root * pgSize) va npages doFree)
        (fun _ s' => (∃ l' f' I', IsTable m s' l' root f' I') ∧
          Relooks m s s' (root * pgSize) va (npages * pgSize) fun _ e => e = 0) s) ∧
    (∀ va npages doFree j, va % pgSize = 0 → va + npages * pgSize ≤ maxVa → j < npages →
      (∀ a, va ≤ a → a < va + j * pgSize → IsLeaf (f (a / pgSize))) →
      ¬IsLeaf (f (va / pgSize + j)) → Heap m s l (I + freed doFree f (va / pgSize) j) →
      Ensures m deny UnmapPanic (uvmunmap (root * pgSize) va npages doFree)
        (fun _ _ => False) s) ∧
    (∀ va < 2 ^ 64, Ensures m deny (fun _ => False) (walkaddr (root * pgSize) va)
      (fun pa s' => s' = s ∧
        if va < maxVa ∧ f (va / pgSize) &&& pteV ≠ 0 ∧ f (va / pgSize) &&& pteU ≠ 0 then
          pa = pte2pa (f (va / pgSize))
        else
          pa = 0) s) := by
  have hpages {va : ℕ} (hva : va % pgSize = 0) : ∃ v, va = v * pgSize :=
    ⟨va / pgSize, (Nat.div_mul_cancel (Nat.dvd_of_mod_eq_zero hva)).symm⟩
  have hbound {v k : ℕ} (hv : v * pgSize + k * pgSize ≤ maxVa) : v + k ≤ 2 ^ 26 := by
    unfold maxVa pgSize at hv
    omega
  -- a page of a range, by one of its addresses
  have hrange {v k : ℕ} {P : ℕ → Prop}
      (hP : ∀ a, v * pgSize ≤ a → a < v * pgSize + k * pgSize → P (f (a / pgSize))) (w : ℕ)
      (hvw : v ≤ w) (hw : w < v + k) : P (f w) := by
    have hPw := hP (w * pgSize) (Nat.mul_le_mul_right _ hvw)
      (by rw [← Nat.add_mul]; exact Nat.mul_lt_mul_of_pos_right hw (by decide))
    rwa [page_div] at hPw
  refine ⟨fun va hva => leaf_eq h.heap h.table hva, ?_, ?_, ?_, ?_⟩
  · intro va size pa perm hva hsize hpos hmax hpa _ htop hperm hfree
    obtain ⟨v, rfl⟩ := hpages hva
    obtain ⟨k, rfl⟩ := hpages hsize
    obtain ⟨p, rfl⟩ := hpages hpa
    have hk : 0 < k := Nat.pos_of_mul_pos_right hpos
    have hp : p + k ≤ 2 ^ 44 := by
      unfold pgSize at htop
      omega
    refine (mappages_relooks h hk (hbound hmax) hp hperm
      (hrange (P := fun e => e &&& pteV = 0) hfree)).mono ?_
    rintro ok s' ⟨htable, j, hj, hok, hlook⟩
    refine ⟨htable, j * pgSize, Nat.mul_mod_left j pgSize, Nat.mul_le_mul_right _ hj, ?_, hlook⟩
    rw [hok]
    exact (Nat.mul_left_inj (by decide)).symm
  · intro va npages doFree hva hmax hleaf hheap
    obtain ⟨v, rfl⟩ := hpages hva
    rw [page_div] at hheap
    exact uvmunmap_relooks h.table hheap (hbound hmax) (hrange hleaf)
  · intro va npages doFree j hva hmax hj hleaf hstop hheap
    obtain ⟨v, rfl⟩ := hpages hva
    rw [page_div] at hheap hstop
    exact uvmunmap_stops h.table hheap (hbound hmax) (hrange hleaf) hj hstop
  · intro va _
    refine walkaddr_spec h.heap h.table ⟨rfl, ?_⟩
    rw [userAddr]
    split_ifs <;> rfl

/-- A table that maps nothing, in the last page of memory, with two pages free. -/
def blankTable : Kernel where
  page p := if p = 0x87ffe then putField (fun _ => 0) 0 (0x87ffd * pgSize) 8 else fun _ => 0
  freelist := 0x87ffe * pgSize
  tables :=
    { proc := fun _ => ⟨.unused, 0, 0, none, 0, 0, 0, fun _ => none, []⟩
      nextpid := 1
      file := fun _ => ⟨.none, 0, false, false, 0⟩ }
  calls := 0
  taken p := p = 0x87fff
  stale _ _ := false

def smallKernel : Machine := ⟨0x80001, 0x80002, by decide, by decide, by decide⟩

theorem blankTable_isTable :
    IsTable smallKernel blankTable [0x87ffe, 0x87ffd] 0x87fff (fun _ => 0) {0x87fff} where
  heap := by
    refine ⟨⟨rfl, ?_, getField_zero _ _⟩, by decide, fun p hp => ?_, by decide, by decide⟩
    · exact getField_putField_self _ 0 (0x87ffd * pgSize) 8 (by decide)
    · have hp' : p = 0x87ffe ∨ p = 0x87ffd ∨ p = 0x87fff := by simpa [or_assoc] using hp
      obtain rfl | rfl | rfl := hp' <;> exact ⟨by decide, by decide⟩
  table := by
    refine ⟨fun _ => Tree.blank coding 2, ⟨⟨rfl, fun i => ?_⟩, fun p _ i => rfl⟩, ?_, fun v _ => ?_⟩
    · have hzero : view blankTable.page 0x87fff i = 0 := getField_zero _ _
      rw [hzero]
      exact Tree.rep_blank _
    · exact Tree.pages_node_blank _
    · exact Tree.get_node_blank _ _

/-- `mappages` maps a page of the blank table, and then `walkaddr` finds it. -/
theorem pagetable_is_map_onePage :
    ∃ s', Prog.run (perform smallKernel fun _ => false)
        (mappages (0x87fff * pgSize) 0x5000 pgSize 0x80005000 (pteR ||| pteU)) blankTable =
          .ok (true, s') ∧
      leaf smallKernel s' (0x87fff * pgSize) 0x5000 = .ok 0x20001413 ∧
      leaf smallKernel s' (0x87fff * pgSize) 0x6000 =
        leaf smallKernel blankTable (0x87fff * pgSize) 0x6000 ∧
      Ensures smallKernel (fun _ => false) (fun _ => False) (walkaddr (0x87fff * pgSize) 0x5123)
        (fun pa s'' => s'' = s' ∧ pa = 0x80005000) s' := by
  obtain ⟨-, hmap, -⟩ :=
    @pagetable_is_map smallKernel (fun _ => false) _ _ _ _ _ blankTable_isTable
  obtain ⟨ok, s', hrun, ⟨l', f', I', htable⟩, j, -, -, hok, hlooks⟩ :=
    (hmap 0x5000 pgSize 0x80005000 (pteR ||| pteU) (by decide) (by decide) (by decide) (by decide)
      (by decide) (by decide) (by decide) (by decide) fun _ _ _ => rfl).run
  obtain ⟨r, hrun', htest⟩ := exists_ok_of_any
    (x := Prog.run (perform smallKernel fun _ => false)
      (mappages (0x87fff * pgSize) 0x5000 pgSize 0x80005000 (pteR ||| pteU)) blankTable)
    (p := fun r => r.1 = true ∧
      (leaf smallKernel r.2 (0x87fff * pgSize) 0x5000).toOption = some 0x20001413)
    (by decide +kernel)
  obtain rfl : r = (ok, s') := Except.ok.inj (hrun'.symm.trans hrun)
  obtain ⟨rfl, hentry⟩ := of_decide_eq_true htest
  obtain rfl := hok.mp rfl
  obtain ⟨hleaf, -, -, -, hwalk⟩ := @pagetable_is_map smallKernel (fun _ => false) _ _ _ _ _ htable
  have hfive := hleaf 0x5000 (by decide)
  have heq : f' (0x5000 / pgSize) = 0x20001413 := by
    rw [hfive] at hentry
    exact Option.some.inj hentry
  refine ⟨s', hrun, by rw [hfive, heq], ?_, (hwalk 0x5123 (by decide)).mono fun pa s'' h => ?_⟩
  · have hsame := hlooks 0x6000 (by decide) (by decide)
    rwa [if_neg (by decide)] at hsame
  · rw [show 0x5123 / pgSize = 0x5000 / pgSize by decide, heq, if_pos (by decide)] at h
    exact h

end Xv6.Vm
