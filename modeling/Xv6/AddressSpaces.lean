import Xv6.PageTableMaps
import Mathlib.Data.List.TakeWhile

/-!
# User address spaces

What the functions of `vm.c` do to the memory of a process: `uvmalloc`, `uvmdealloc`,
`uvmcopy` and `uvmfree` move pages between the free list and the lowest page numbers of a
page table, and `copyout`, `copyin` and `copyinstr` touch pages that the user may touch.
-/

namespace Xv6.Vm
open Function

open OperationPrograms LittleEndianBlocks

variable {m : Machine} {deny : ℕ → Bool} {F : Panic → Prop} {s s' s'' : Kernel}
  {l l' l'' : List ℕ} {A A' R : Multiset ℕ} {root v k : ℕ} {f f' : ℕ → ℕ} {I : Multiset ℕ}

def npages (sz : ℕ) : ℕ := (sz + (pgSize - 1)) / pgSize

theorem pgRoundUp_eq {sz : ℕ} (h : sz ≤ 2 ^ 63) : pgRoundUp sz = npages sz * pgSize := by
  unfold pgRoundUp npages pgSize
  omega

@[simp] theorem npages_page (v : ℕ) : npages (v * pgSize) = v := by
  unfold npages pgSize
  omega

theorem le_npages (sz : ℕ) : sz ≤ npages sz * pgSize := by
  unfold npages pgSize
  omega

theorem npages_mono {a b : ℕ} (h : a ≤ b) : npages a ≤ npages b := by
  unfold npages pgSize
  omega

structure UserLeaf (e : ℕ) : Prop where
  valid : e &&& pteV ≠ 0
  readable : e &&& pteR ≠ 0

theorem UserLeaf.flags_ne {e : ℕ} (h : UserLeaf e) : pteFlags e ≠ pteV := by
  intro heq
  have hr : pteFlags e &&& pteR = e &&& pteR := by
    rw [pteFlags, Nat.and_assoc]
    rfl
  rw [heq] at hr
  exact h.readable (hr.symm.trans (by decide))

theorem userLeaf_pte {p flags : ℕ} (hflags : flags < 1024) (hv : flags &&& pteV ≠ 0)
    (hr : flags &&& pteR ≠ 0) : UserLeaf (pte p flags) where
  valid := by rwa [pte_and hflags (by decide)]
  readable := by rwa [pte_and hflags (by decide)]

def Flagged (flags e : ℕ) : Prop := ∃ p < 2 ^ 52, e = pte p flags

theorem Flagged.userLeaf {flags e : ℕ} (h : Flagged flags e) (hflags : flags < 1024)
    (hv : flags &&& pteV ≠ 0) (hr : flags &&& pteR ≠ 0) : UserLeaf e := by
  obtain ⟨p, -, rfl⟩ := h
  exact userLeaf_pte hflags hv hr

/-- The entries of `f'` from `v` to below `v + k` have the property `P`, and elsewhere `f'` is
`f`. -/
structure Extends (P : ℕ → ℕ → Prop) (f : ℕ → ℕ) (v k : ℕ) (f' : ℕ → ℕ) : Prop where
  leaf : ∀ w, v ≤ w → w < v + k → P w (f' w)
  other : ∀ w, ¬(v ≤ w ∧ w < v + k) → f' w = f w

variable {P : ℕ → ℕ → Prop}

theorem Extends.refl (f : ℕ → ℕ) (v : ℕ) : Extends P f v 0 f :=
  ⟨fun w h₁ h₂ => absurd h₁ (by omega), fun _ _ => rfl⟩

theorem Extends.snoc {e : ℕ} (h : Extends P f v k f') (he : P (v + k) e) :
    Extends P f v (k + 1) (update f' (v + k) e) where
  leaf w h₁ h₂ := by
    by_cases hw : w = v + k
    · rwa [hw, update_self]
    · rw [update_of_ne hw]
      exact h.leaf w h₁ (by omega)
  other w hw := by
    rw [update_of_ne (by omega)]
    exact h.other w (by omega)

theorem unmapped_extends (h : Extends P f v k f') (hzero : ∀ w, v ≤ w → w < v + k → f w = 0) :
    unmapped f' v k = f := by
  funext w
  rw [unmapped]
  split
  · next hw => exact (hzero w hw.1 hw.2).symm
  · next hw => exact h.other w hw

abbrev userPages (f : ℕ → ℕ) (v k : ℕ) : Multiset ℕ := freed true f v k

theorem userPages_snoc (f : ℕ → ℕ) (v k : ℕ) :
    userPages f v (k + 1) = userPages f v k + {ppn (f (v + k))} := by
  simp only [userPages, freed, if_true, List.range'_concat, List.map_append, one_mul,
    List.map_cons, List.map_nil, ← Multiset.coe_add, Multiset.coe_singleton]

theorem userPages_update (f : ℕ → ℕ) (v k e : ℕ) :
    userPages (update f (v + k) e) v (k + 1) = userPages f v k + {ppn e} := by
  have hcongr : userPages (update f (v + k) e) v k = userPages f v k :=
    freed_congr fun w _ _ => update_of_ne (by omega) _ _
  rw [userPages_snoc, hcongr, update_self]

theorem userPages_append (f : ℕ → ℕ) (v a b : ℕ) :
    userPages f v (a + b) = userPages f v a + userPages f (v + a) b := by
  simp only [userPages, freed, if_true, ← List.range'_append_1, List.map_append,
    Multiset.coe_add]

theorem mem_userPages {w : ℕ} (h₁ : v ≤ w) (h₂ : w < v + k) : ppn (f w) ∈ userPages f v k := by
  simp only [userPages, freed, if_true, Multiset.mem_coe, List.mem_map]
  exact ⟨w, List.mem_range'_1.mpr ⟨h₁, h₂⟩, rfl⟩

@[simp] theorem userPages_zero (f : ℕ → ℕ) (v : ℕ) : userPages f v 0 = 0 := by
  simp [userPages, freed]

theorem card_userPages (f : ℕ → ℕ) (v k : ℕ) : (userPages f v k).card = k := by
  simp [userPages, freed]

/-- `uvmdealloc` frees the pages between the two sizes and keeps the others. -/
theorem uvmdealloc_spec {Q : ℕ → Kernel → Prop} {oldsz newsz : ℕ}
    (hheap : Heap m s l (I + userPages f (npages newsz) (npages oldsz - npages newsz)))
    (h : Table s root f I) (hle : newsz ≤ oldsz) (hold : npages oldsz ≤ 2 ^ 26)
    (hleaf : ∀ w, npages newsz ≤ w → w < npages oldsz → UserLeaf (f w))
    (hQ : ∀ s' l',
      Moves m s l (I + userPages f (npages newsz) (npages oldsz - npages newsz)) s' l' I →
      Table s' root (unmapped f (npages newsz) (npages oldsz - npages newsz)) I → Q newsz s') :
    Ensures m deny F (uvmdealloc (root * pgSize) oldsz newsz) Q s := by
  have hmono := npages_mono hle
  have hlt : oldsz ≤ 2 ^ 63 := by
    have := le_npages oldsz
    unfold pgSize at this
    omega
  rw [uvmdealloc]
  by_cases heq : oldsz = newsz
  · subst heq
    rw [if_pos le_rfl, ensures_pure]
    rw [Nat.sub_self, userPages_zero, add_zero] at hheap
    rw [Nat.sub_self, userPages_zero, add_zero] at hQ
    refine hQ s l (.refl hheap) ?_
    rwa [unmapped_zero]
  · rw [if_neg (by omega), pgRoundUp_eq hlt, pgRoundUp_eq (hle.trans hlt)]
    by_cases hpages : npages newsz < npages oldsz
    · have hdiff : (npages oldsz * pgSize - npages newsz * pgSize) / pgSize =
          npages oldsz - npages newsz := by
        unfold pgSize
        omega
      have hint : (Int.bmod ((npages oldsz - npages newsz : ℕ) : ℤ) (2 ^ 32) % 2 ^ 64).toNat =
          npages oldsz - npages newsz := by
        rw [Int.bmod_def]
        omega
      rw [if_pos (Nat.mul_lt_mul_of_pos_right hpages (by decide))]
      simp only [hdiff, hint, ensures_bind]
      refine uvmunmap_spec hheap h (fun w h₁ h₂ => ?_) (by omega) fun s' l' hmove htable => ?_
      · have hw := hleaf w h₁ (by omega)
        exact ⟨hw.valid, hw.flags_ne⟩
      · rw [ensures_pure]
        exact hQ s' l' hmove htable
    · have heq' : npages oldsz - npages newsz = 0 := by omega
      rw [if_neg (fun h => hpages (Nat.lt_of_mul_lt_mul_right h)), ensures_pure]
      rw [heq', userPages_zero, add_zero] at hheap
      rw [heq', userPages_zero, add_zero] at hQ
      refine hQ s l (.refl hheap) ?_
      rwa [unmapped_zero]

theorem mapped_one (f : ℕ → ℕ) (v p perm : ℕ) :
    mapped f v 1 p perm = update f v (pte p (perm ||| pteV)) := by
  rw [← mapped_succ, mapped_zero]

variable {Q : Bool → Kernel → Prop}

theorem mappages_one {p perm : ℕ} (hheap : Heap m s l I) (h : Table s root f I)
    (hfree : f v &&& pteV = 0) (hv : v < 2 ^ 26) (hp : p < 2 ^ 51) (hperm : perm < 1024)
    (hfail : ∀ s' l' I', Moves m s l I s' l' I' → Table s' root f I' → Refused deny s l s' →
      Q false s')
    (hok : ∀ s' l' I', Moves m s l I s' l' I' →
      Table s' root (update f v (pte p (perm ||| pteV))) I' → Q true s') :
    Ensures m deny F (mappages (root * pgSize) (v * pgSize) pgSize (p * pgSize) perm) Q s := by
  have hrange : ∀ w, v ≤ w → w < v + 1 → f w &&& pteV = 0 := fun w h₁ h₂ => by
    rwa [show w = v by omega]
  rw [mappages, if_neg (by simp), if_neg (by simp), if_neg (by decide), Nat.div_self (by decide)]
  refine mapFrom_spec hheap h hrange (by omega) (by omega) hperm ?_
  intro r s' l' I' j hmove htable hj hr hrefused
  obtain rfl | rfl : j = 0 ∨ j = 1 := by omega
  · rw [mapped_zero] at htable
    have hfalse : r = false := by simpa using hr
    rw [hfalse]
    exact hfail s' l' I' hmove htable (hrefused hfalse)
  · rw [mapped_one] at htable
    rw [show r = true by simpa using hr]
    exact hok s' l' I' hmove htable

theorem uvmunmap_one {Q : Unit → Kernel → Prop} (hheap : Heap m s l I) (h : Table s root f I)
    (hvalid : f v &&& pteV ≠ 0) (hflags : pteFlags (f v) ≠ pteV) (hv : v < 2 ^ 26)
    (hQ : ∀ s' l', Moves m s l I s' l' I → Table s' root (update f v 0) I → Q () s') :
    Ensures m deny F (uvmunmap (root * pgSize) (v * pgSize) 1 false) Q s := by
  have hfreed : I + freed false f v 1 = I := by simp [freed]
  refine uvmunmap_spec (I := I) (l := l) (by rwa [hfreed]) h (fun w h₁ h₂ => ?_) (by omega) ?_
  · rw [show w = v by omega]
    exact ⟨hvalid, hflags⟩
  · intro s' l' hmove htable
    rw [hfreed] at hmove
    rw [← unmapped_succ, unmapped_zero] at htable
    exact hQ s' l' hmove htable

theorem or_and_ne_zero (a : ℕ) {b : ℕ} (hb : b ≠ 0) : (a ||| b) &&& b ≠ 0 := by
  rw [Nat.and_or_distrib_right, Nat.and_self]
  exact fun h => hb (Nat.or_eq_zero_iff.mp h).2

def allocFlags (xperm : ℕ) : ℕ := pteR ||| pteU ||| xperm ||| pteV

theorem allocFlags_lt {xperm : ℕ} (h : xperm < 1024) : allocFlags xperm < 1024 :=
  Nat.or_lt_two_pow (n := 10) (Nat.or_lt_two_pow (n := 10) (by decide) h) (by decide)

theorem Flagged.alloc {xperm e : ℕ} (h : Flagged (allocFlags xperm) e) (hperm : xperm < 1024) :
    UserLeaf e := by
  refine h.userLeaf (allocFlags_lt hperm) (or_and_ne_zero _ (by decide)) ?_
  rw [allocFlags, Nat.or_assoc, Nat.or_comm, Nat.or_comm pteR, ← Nat.or_assoc]
  exact or_and_ne_zero _ (by decide)

theorem Flagged.user {xperm e : ℕ} (h : Flagged (allocFlags xperm) e) (hperm : xperm < 1024) :
    e &&& pteU ≠ 0 := by
  obtain ⟨p, -, rfl⟩ := h
  have hcomm : allocFlags xperm = pteR ||| xperm ||| pteV ||| pteU := by
    unfold allocFlags
    ac_rfl
  rw [pte_and (allocFlags_lt hperm) (by decide), hcomm]
  exact or_and_ne_zero _ (by decide)

/-- The page `p`, which was just taken, becomes the page behind the others, or is given back if
the table cannot be extended. -/
theorem place_spec {α : Type} {Q : α → Kernel → Prop} {fail rest : K α} {p perm j w : ℕ}
    (hheap : Heap m s l (I + userPages f v j)) (h : Table s root f I) (hp : m.InPool p)
    (hnew : Moves m s l 0 s' l' {p}) (hw : w = v + j) (hfree : f w = 0) (hlt : w < 2 ^ 26)
    (hperm : perm < 1024)
    (hfail : ∀ s'' l'' I', Moves m s l (I + userPages f v j) s'' l'' (I' + userPages f v j) →
      Table s'' root f I' → Refused deny s l s'' → Ensures m deny F fail Q s'')
    (hok : ∀ s'' l'' I', Moves m s' l' I s'' l'' I' →
      Moves m s l (I + userPages f v j) s'' l''
        (I' + userPages (update f w (pte p (perm ||| pteV))) v (j + 1)) →
      Table s'' root (update f w (pte p (perm ||| pteV))) I' →
      Ensures m deny F rest Q s'') :
    Ensures m deny F (do
      if ← mappages (root * pgSize) (w * pgSize) pgSize (p * pgSize) perm then
        rest
      else
        kfree (p * pgSize)
        fail) Q s' := by
  subst hw
  have hmoves := hnew.beside hheap
  rw [show {p} + (I + userPages f v j) = I + (userPages f v j + {p}) by ac_rfl] at hmoves
  rw [ensures_bind]
  refine mappages_one hmoves.heap.mono
    (h.frame fun q hq => hnew.keeps_beside hheap q (Multiset.mem_add.mpr (.inl hq)))
    (by rw [hfree, Nat.zero_and]) hlt (hp.2.trans (by decide)) hperm
    (fun s₁ l₁ I₁ hmove htable hrefused => ?_) fun s₁ l₁ I₁ hmove htable => ?_
  · have hmoves₁ := hmoves.trans (hmove.add hmoves.heap)
    rw [show I₁ + (userPages f v j + {p}) = {p} + (I₁ + userPages f v j) by ac_rfl] at hmoves₁
    rw [if_neg (by simp), ensures_bind]
    refine kfree_spec hmoves₁.heap.mono fun s₂ hfreed => ?_
    have hmoves₂ := hmoves₁.trans (hfreed.add hmoves₁.heap)
    rw [zero_add] at hmoves₂
    exact hfail s₂ _ I₁ hmoves₂ (htable.frame fun q hq =>
      hfreed.keeps hmoves₁.heap q (Multiset.mem_add.mpr (.inl hq)))
      ((hrefused.of_moves hmoves).moves hfreed)
  · rw [if_pos rfl]
    refine hok s₁ l₁ I₁ hmove ?_ htable
    rw [userPages_update, ppn_pte (hp.2.trans (by decide)) (Nat.or_lt_two_pow (n := 10) hperm
      (by decide))]
    exact hmoves.trans (hmove.add hmoves.heap)

/-- The loop of `uvmalloc` maps a new page in each round, or takes all of them back. -/
theorem allocFrom_spec {Q : ℕ → Kernel → Prop} {j newsz xperm : ℕ}
    (hheap : Heap m s l (I + userPages f' v j)) (h : Table s root f' I)
    (hext : Extends (fun _ => Flagged (allocFlags xperm)) f v j f')
    (hzero : ∀ w, v ≤ w → w < 2 ^ 26 - 2 → f w = 0) (hv : v ≤ 2 ^ 25) (hperm : xperm < 1024)
    (hfail : ∀ s' l' I', Moves m s l (I + userPages f' v j) s' l' I' → Table s' root f I' →
      Refused deny s l s' → Q 0 s')
    (hok : ∀ s' l' I' f'', Moves m s l (I + userPages f' v j) s' l'
        (I' + userPages f'' v (j + k)) → Table s' root f'' I' →
      Extends (fun _ => Flagged (allocFlags xperm)) f v (j + k) f'' → Q newsz s') :
    Ensures m deny F
      (allocFrom (root * pgSize) (v * pgSize) newsz xperm k ((v + j) * pgSize)) Q s := by
  induction k generalizing s l I f' j with
  | zero =>
    rw [allocFrom, ensures_pure]
    exact hok s l I f' (.refl hheap) h hext
  | succ k ih =>
    have hcard := hheap.card_le
    rw [Multiset.card_add, card_userPages] at hcard
    -- the pages of this call are given back
    have hback (s₁ : Kernel) (l₁ : List ℕ) (I₁ : Multiset ℕ)
        (hmove : Moves m s l (I + userPages f' v j) s₁ l₁ (I₁ + userPages f' v j))
        (htable : Table s₁ root f' I₁) (hrefused : Refused deny s l s₁) :
        Ensures m deny F (do
          let _ ← uvmdealloc (root * pgSize) ((v + j) * pgSize) (v * pgSize)
          return 0) Q s₁ := by
      have hj : v + j - v = j := by omega
      rw [ensures_bind]
      refine uvmdealloc_spec (l := l₁) (f := f') (I := I₁) ?_ htable
        (Nat.mul_le_mul_right _ (by omega)) (by rw [npages_page]; omega) ?_ ?_
      · rw [npages_page, npages_page, hj]
        exact hmove.heap
      · intro w h₁ h₂
        rw [npages_page] at h₁ h₂
        exact (hext.leaf w h₁ h₂).alloc hperm
      · intro s₂ l₂ hmove' htable'
        rw [npages_page, npages_page, hj] at hmove' htable'
        rw [unmapped_extends hext fun w h₁ h₂ => hzero w h₁ (by omega)] at htable'
        rw [ensures_pure]
        exact hfail s₂ l₂ I₁ (hmove.trans hmove') htable' (hrefused.moves hmove')
    rw [allocFrom, ensures_bind]
    refine kalloc_spec hheap.zero (fun s₁ hmove hrefused => ?_) fun p l₁ s₁ hp hmove => ?_
    · rw [if_pos rfl]
      exact hback s₁ l I (hmove.spared hheap) (h.frame fun q hq =>
        hmove.keeps_beside hheap q (Multiset.mem_add.mpr (.inl hq))) hrefused
    · have hfree : f' (v + j) = 0 := by
        rw [hext.other _ (by omega)]
        exact hzero _ (by omega) (by omega)
      rw [if_neg hp.addr_ne_zero]
      refine place_spec hheap h hp hmove rfl hfree (by omega)
        (Nat.or_lt_two_pow (n := 10) (by decide) hperm) hback fun s₂ l₂ I₂ _ hmoves htable => ?_
      rw [next_page (by omega), Nat.add_assoc v j 1]
      refine ih hmoves.heap htable (hext.snoc ⟨p, hp.2.trans (by decide), rfl⟩) ?_ ?_
      · exact fun s₃ l₃ I₃ hmove' htable' hrefused =>
          hfail s₃ l₃ I₃ (hmoves.trans hmove') htable' (hrefused.of_moves hmoves)
      · intro s₃ l₃ I₃ f'' hmove' htable' hext'
        rw [show j + 1 + k = j + (k + 1) by omega] at hmove' hext'
        exact hok s₃ l₃ I₃ f'' (hmoves.trans hmove') htable' hext'

theorem uvmalloc_spec {Q : ℕ → Kernel → Prop} {oldsz newsz xperm : ℕ} (hheap : Heap m s l I)
    (h : Table s root f I) (hle : oldsz ≤ newsz)
    (hzero : ∀ w, npages oldsz ≤ w → w < 2 ^ 26 - 2 → f w = 0) (hold : npages oldsz ≤ 2 ^ 25)
    (hperm : xperm < 1024)
    (hfail : ∀ s' l' I', Moves m s l I s' l' I' → Table s' root f I' → Refused deny s l s' → Q 0 s')
    (hok : ∀ s' l' I' f', Moves m s l I s' l'
        (I' + userPages f' (npages oldsz) (npages newsz - npages oldsz)) → Table s' root f' I' →
      Extends (fun _ => Flagged (allocFlags xperm)) f (npages oldsz)
        (npages newsz - npages oldsz) f' → Q newsz s') :
    Ensures m deny F (uvmalloc (root * pgSize) oldsz newsz xperm) Q s := by
  have hlt : oldsz ≤ 2 ^ 63 := by
    have := le_npages oldsz
    unfold pgSize at this
    omega
  have hk : (newsz - npages oldsz * pgSize + (pgSize - 1)) / pgSize =
      npages newsz - npages oldsz := by
    unfold npages pgSize
    omega
  rw [uvmalloc, if_neg (by omega)]
  simp only [pgRoundUp_eq hlt, hk]
  refine allocFrom_spec (j := 0) (l := l) (I := I) (f := f) ?_ h (.refl f _) hzero hold hperm ?_ ?_
  · rwa [userPages_zero, add_zero]
  · rw [userPages_zero, add_zero]
    exact hfail
  · rw [userPages_zero, add_zero, Nat.zero_add]
    exact hok

/-- `uvmfree` gives back the pages of the user and those of the table. -/
theorem uvmfree_spec {Q : Unit → Kernel → Prop} {sz : ℕ}
    (hheap : Heap m s l (I + userPages f 0 (npages sz))) (h : Table s root f I)
    (hsz : npages sz ≤ 2 ^ 26) (hleaf : ∀ w < npages sz, UserLeaf (f w))
    (hzero : ∀ w, npages sz ≤ w → w < 2 ^ 27 → f w = 0)
    (hQ : ∀ s' l', Moves m s l (I + userPages f 0 (npages sz)) s' l' 0 → Q () s') :
    Ensures m deny F (uvmfree (root * pgSize) sz) Q s := by
  have hlt : sz ≤ 2 ^ 63 := by
    have := le_npages sz
    unfold pgSize at this
    omega
  have hclear : ∀ v < 2 ^ 27, unmapped f 0 (npages sz) v = 0 := fun v hv => by
    rw [unmapped]
    split
    · rfl
    · exact hzero v (by omega) hv
  -- the page-table pages are freed behind the user pages
  have hwalk : ∀ {s₁ : Kernel} {l₁ : List ℕ},
      Moves m s l (I + userPages f 0 (npages sz)) s₁ l₁ I →
      Table s₁ root (unmapped f 0 (npages sz)) I →
      Ensures m deny F (freewalk 3 (root * pgSize)) Q s₁ := fun hmove htable =>
    freewalk_table hmove.heap htable hclear fun s' l' hmove' => hQ s' l' (hmove.trans hmove')
  rw [uvmfree]
  by_cases hpos : 0 < sz
  · rw [if_pos hpos, ensures_bind, pgRoundUp_eq hlt, page_div]
    refine uvmunmap_spec (v := 0) hheap h (fun w _ hw => ?_) (by omega) ?_
    · have hw := hleaf w (by omega)
      exact ⟨hw.valid, hw.flags_ne⟩
    · exact fun s' l' => hwalk
  · have hsz0 : npages sz = 0 := by
      rw [show sz = 0 by omega]
      decide
    rw [if_neg hpos]
    rw [hsz0, userPages_zero, add_zero] at hheap
    rw [hsz0, userPages_zero, add_zero] at hwalk
    refine hwalk (.refl hheap) ?_
    rwa [unmapped_zero]

theorem and_not_pteU {e : ℕ} (he : e < 2 ^ 64) :
    e &&& (2 ^ 64 - 1 - pteU) = e / 32 * 32 + e % 16 := by
  have hdiv : (e &&& (2 ^ 64 - 1 - pteU)) / 2 ^ 5 = e / 32 := by
    rw [Nat.and_div_two_pow, show (2 ^ 64 - 1 - pteU) / 2 ^ 5 = 2 ^ 59 - 1 by decide,
      Nat.and_two_pow_sub_one_eq_mod]
    omega
  have hmod : (e &&& (2 ^ 64 - 1 - pteU)) % 2 ^ 5 = e % 16 := by
    rw [Nat.and_mod_two_pow, show (2 ^ 64 - 1 - pteU) % 2 ^ 5 = 2 ^ 4 - 1 by decide,
      Nat.and_two_pow_sub_one_eq_mod]
    omega
  omega

def clearU (flags : ℕ) : ℕ := flags / 32 * 32 + flags % 16

theorem pte_clearU {p flags : ℕ} (hp : p < 2 ^ 52) (hflags : flags < 1024) :
    pte p flags &&& (2 ^ 64 - 1 - pteU) = pte p (clearU flags) := by
  rw [and_not_pteU (by unfold pte; omega)]
  unfold pte clearU
  omega

theorem uvmclear_spec {Q : Unit → Kernel → Prop} {flags : ℕ} (hheap : Heap m s l I)
    (h : Table s root f I) (hv : v < 2 ^ 26) (hflag : Flagged flags (f v)) (hflags : flags < 1024)
    (hvalid : flags ≠ 0)
    (hQ : ∀ s', Moves m s l I s' l I →
      Table s' root (update f v (pte (ppn (f v)) (clearU flags))) I → Q () s') :
    Ensures m deny F (uvmclear (root * pgSize) (v * pgSize)) Q s := by
  obtain ⟨p, hp, hfv⟩ := hflag
  have hppn : ppn (f v) = p := by rw [hfv, ppn_pte hp hflags]
  rw [uvmclear, ensures_bind]
  refine walk_lookup hheap h (page_lt_maxVa hv) (fun hzero => ?_) (fun pa hpa hentry => ?_)
  · rw [page_div, hfv, pte] at hzero
    omega
  · rw [page_div] at hentry
    rw [if_neg hpa, ensures_bind]
    refine hentry.load hheap (by omega) ?_
    have hlt : clearU flags < 1024 := by
      unfold clearU
      omega
    refine hentry.store (w := f v &&& (2 ^ 64 - 1 - pteU)) hheap (by omega) ?_ ?_
    · rw [hfv, pte_clearU hp hflags]
      exact pte_lt hp hlt
    · intro s' hmove htable
      refine hQ s' hmove ?_
      rwa [hppn, ← pte_clearU hp hflags, ← hfv]

/-- The address that `walkaddr` finds. -/
def userAddr (f : ℕ → ℕ) (va : ℕ) : ℕ :=
  if va < maxVa ∧ f (va / pgSize) &&& pteV ≠ 0 ∧ f (va / pgSize) &&& pteU ≠ 0 then
    pte2pa (f (va / pgSize))
  else
    0

theorem walkaddr_spec {Q : ℕ → Kernel → Prop} {va : ℕ} (hheap : Heap m s l I)
    (h : Table s root f I) (hQ : Q (userAddr f va) s) :
    Ensures m deny F (walkaddr (root * pgSize) va) Q s := by
  rw [walkaddr]
  by_cases hva : maxVa ≤ va
  · rw [if_pos hva, ensures_pure]
    rwa [userAddr, if_neg (by omega)] at hQ
  · rw [if_neg hva, ensures_bind]
    refine walk_lookup hheap h (by omega) (fun hzero => ?_) (fun pa hpa hentry => ?_)
    · rw [if_pos rfl, ensures_pure]
      rwa [userAddr, hzero, if_neg (by simp)] at hQ
    · have hv : va / pgSize < 2 ^ 27 := by
        unfold maxVa at hva
        unfold pgSize
        omega
      rw [if_neg hpa, ensures_bind]
      refine hentry.load hheap hv ?_
      by_cases hvalid : f (va / pgSize) &&& pteV = 0
      · rw [if_pos hvalid, ensures_pure]
        rwa [userAddr, if_neg (by simp [hvalid])] at hQ
      · by_cases huser : f (va / pgSize) &&& pteU = 0
        · rw [if_neg hvalid, if_pos huser, ensures_pure]
          rwa [userAddr, if_neg (by simp [huser])] at hQ
        · rw [if_neg hvalid, if_neg huser, ensures_pure]
          rwa [userAddr, if_pos ⟨by omega, hvalid, huser⟩] at hQ

theorem pteFlags_lt (e : ℕ) : pteFlags e < 1024 := Nat.and_lt_two_pow (n := 10) e (by decide)

theorem pteFlags_and (e : ℕ) {c : ℕ} (hc : 0x3FF &&& c = c) : pteFlags e &&& c = e &&& c := by
  rw [pteFlags, Nat.and_assoc, hc]

theorem or_pteV {flags : ℕ} (h : flags &&& pteV ≠ 0) : flags ||| pteV = flags := by
  have hmod : flags % 2 = 1 := by
    have := Nat.and_one_is_mod flags
    unfold pteV at h
    rw [Nat.shiftLeft_zero] at h
    omega
  apply Nat.eq_of_testBit_eq
  intro i
  rw [Nat.testBit_or]
  cases i with
  | zero => simp [Nat.testBit_zero, hmod, pteV]
  | succ i => simp [Nat.testBit_succ, pteV]

/-- An entry that `uvmunmap` removes. -/
def IsLeaf (e : ℕ) : Prop := e &&& pteV ≠ 0 ∧ pteFlags e ≠ pteV

theorem IsLeaf.copy {e e' : ℕ} (h : IsLeaf e) (h' : Flagged (pteFlags e) e') : IsLeaf e' := by
  obtain ⟨p, -, rfl⟩ := h'
  refine ⟨?_, ?_⟩
  · rw [pte_and (pteFlags_lt e) (by decide), pteFlags_and e (by decide)]
    exact h.1
  · rw [pteFlags_pte (pteFlags_lt e)]
    exact h.2

/-- `uvmcopy` has copied `j` pages of the table `old` into the table `new`, which mapped `g`
before. The pages `R` hold the old address space. -/
structure Copying (m : Machine) (old new : ℕ) (f g : ℕ → ℕ) (I R : Multiset ℕ) (j : ℕ)
    (s : Kernel) (l : List ℕ) (J : Multiset ℕ) (g' : ℕ → ℕ) : Prop where
  heap : Heap m s l (J + userPages g' 0 j + R)
  source : Table s old f I
  target : Table s new g' J
  ext : Extends (fun w => Flagged (pteFlags (f w))) g 0 j g'
  copy : ∀ w < j, s.page (ppn (g' w)) = s.page (ppn (f w))

theorem Copying.snoc {old new j p : ℕ} {g g' : ℕ → ℕ} {J J' : Multiset ℕ}
    (h : Copying m old new f g I R j s l J g') (hI : I ≤ R)
    (hleaf : ∀ w < j + 1, ppn (f w) ∈ R) (hp : m.InPool p) (hnew : Moves m s l 0 s' l' {p})
    (hpage : s'.page p = s.page (ppn (f j))) (hmap : Moves m s' l' J s'' l'' J')
    (htable : Table s'' new (update g' j (pte p (pteFlags (f j)))) J') :
    Copying m old new f g I R (j + 1) s'' l'' J' (update g' j (pte p (pteFlags (f j)))) := by
  have hplt : p < 2 ^ 52 := hp.2.trans (by decide)
  -- the new page is taken from the free list, and then mapped
  have hmoves := hnew.beside h.heap
  rw [show {p} + (J + userPages g' 0 j + R) = J + (userPages g' 0 j + {p} + R) by
    ac_rfl] at hmoves
  have hkeep (q : ℕ) (hq : q ∈ userPages g' 0 j + R) : SamePage s s'' q := by
    refine (hnew.keeps_beside h.heap q ?_).trans (hmap.keeps hmoves.heap q ?_)
    · rw [add_assoc]
      exact Multiset.mem_add.mpr (.inr hq)
    · rw [add_right_comm]
      exact Multiset.mem_add.mpr (.inl hq)
  refine ⟨?_, ?_, htable, ?_, fun w hw => ?_⟩
  · have hpages := userPages_update g' 0 j (pte p (pteFlags (f j)))
    rw [Nat.zero_add, ppn_pte hplt (pteFlags_lt _)] at hpages
    rw [hpages, add_assoc J']
    exact (hmap.add hmoves.heap).heap
  · exact h.source.frame fun q hq =>
      hkeep q (Multiset.mem_add.mpr (.inr (Multiset.mem_of_le hI hq)))
  · have hsnoc := h.ext.snoc (e := pte p (pteFlags (f j))) ⟨p, hplt, by rw [Nat.zero_add]⟩
    rwa [Nat.zero_add] at hsnoc
  · rw [(hkeep _ (Multiset.mem_add.mpr (.inr (hleaf w hw)))).page]
    by_cases hwj : w = j
    · subst hwj
      rw [update_self, ppn_pte hplt (pteFlags_lt _), ← hpage]
      exact (hmap.keeps hmoves.heap p (by simp)).page
    · rw [update_of_ne hwj, ← h.copy w (by omega)]
      exact (hkeep _ (Multiset.mem_add.mpr (.inl
        (mem_userPages (Nat.zero_le w) (by omega))))).page

/-- The loop of `uvmcopy` copies a page in each round, or gives back all copies. -/
theorem copyFrom_spec {old new j : ℕ} {g g' : ℕ → ℕ} {J : Multiset ℕ}
    (h : Copying m old new f g I R j s l J g') (hI : I ≤ R)
    (hleaf : ∀ w < j + k, IsLeaf (f w) ∧ ppn (f w) ∈ R) (hzero : ∀ w < 2 ^ 26 - 2, g w = 0)
    (hfail : ∀ s' l' J', Moves m s l (J + userPages g' 0 j) s' l' J' → Table s' new g J' →
      Q false s')
    (hok : ∀ s' l' J' g'', Moves m s l (J + userPages g' 0 j) s' l'
        (J' + userPages g'' 0 (j + k)) → Copying m old new f g I R (j + k) s' l' J' g'' →
      Q true s') :
    Ensures m deny F (copyFrom (old * pgSize) (new * pgSize) k (j * pgSize)) Q s := by
  induction k generalizing s l J g' j with
  | zero =>
    rw [copyFrom, ensures_pure]
    exact hok s l J g' (.refl h.heap.mono) h
  | succ k ih =>
    obtain ⟨hfj, hpj⟩ := hleaf j (by omega)
    have hcard := h.heap.card_le
    rw [Multiset.card_add, Multiset.card_add, card_userPages] at hcard
    have hheapI := h.heap.of_le (hI.trans (Multiset.le_add_left _ _))
    -- the pages of this call are given back
    have hback (s₁ : Kernel) (l₁ : List ℕ) (J₁ : Multiset ℕ)
        (hmove : Moves m s l (J + userPages g' 0 j) s₁ l₁ (J₁ + userPages g' 0 j))
        (htable : Table s₁ new g' J₁) :
        Ensures m deny F (do
          uvmunmap (new * pgSize) 0 (j * pgSize / pgSize) true
          return false) Q s₁ := by
      rw [page_div, ensures_bind]
      refine uvmunmap_spec (v := 0) hmove.heap htable (fun w _ hw => ?_) (by omega) ?_
      · exact (hleaf w (by omega)).1.copy (h.ext.leaf w (by omega) hw)
      · intro s₂ l₂ hmove' htable'
        rw [unmapped_extends h.ext fun w _ hw => hzero w (by omega)] at htable'
        rw [ensures_pure]
        exact hfail s₂ l₂ J₁ (hmove.trans hmove') htable'
    rw [copyFrom, ensures_bind]
    refine walk_lookup hheapI h.source (page_lt_maxVa (by omega)) (fun hz => ?_)
      (fun pa hpa hentry => ?_)
    · rw [page_div] at hz
      exact absurd (by rw [hz, Nat.zero_and]) hfj.1
    rw [page_div] at hentry
    rw [if_neg hpa, ensures_bind]
    refine hentry.load hheapI (by omega) ?_
    rw [if_neg hfj.1, ensures_bind]
    refine kalloc_spec h.heap.zero (fun s₁ hmove _ => ?_) fun p l₁ s₁ hp hmove => ?_
    · rw [if_pos rfl]
      exact hback s₁ l J (hmove.spared h.heap.mono) (h.target.frame fun q hq =>
        hmove.keeps_beside h.heap.mono q (Multiset.mem_add.mpr (.inl hq)))
    · have hpool : m.InPool (ppn (f j)) :=
        h.heap.pool _ (Multiset.mem_add.mpr (.inr (Multiset.mem_add.mpr (.inr hpj))))
      rw [if_neg hp.addr_ne_zero, ensures_bind, pte2pa_eq]
      refine memmove_spec hp hpool ?_
      generalize hs₂ : ({ s₁ with
        page := update s₁.page p (s₁.page (ppn (f j)))
        stale := update s₁.stale p (s₁.stale (ppn (f j))) } : Kernel) = s₂
      have hmove₂ : Moves m s l 0 s₂ l₁ {p} := by
        subst hs₂
        exact hmove.trans (hmove.heap.touch (by simp) rfl rfl rfl rfl fun q hq =>
          ⟨update_of_ne hq _ _, rfl, update_of_ne hq _ _⟩)
      have hpage : s₂.page p = s.page (ppn (f j)) := by
        rw [← (hmove.keeps_beside h.heap _ (Multiset.mem_add.mpr (.inr hpj))).page, ← hs₂]
        exact update_self ..
      have hfree : g' j = 0 := by
        rw [h.ext.other _ (by omega)]
        exact hzero _ (by omega)
      have hflags : pteFlags (f j) ||| pteV = pteFlags (f j) :=
        or_pteV (by rw [pteFlags_and (f j) (by decide)]; exact hfj.1)
      refine place_spec h.heap.mono h.target hp hmove₂ (Nat.zero_add j).symm hfree (by omega)
        (pteFlags_lt _) (fun s₃ l₃ J₃ hmove htable _ => hback s₃ l₃ J₃ hmove htable)
        fun s₃ l₃ J₃ hmap hmoves htable => ?_
      rw [hflags] at hmoves htable
      have hcopying := h.snoc hI (fun w hw => (hleaf w (by omega)).2) hp hmove₂ hpage hmap htable
      rw [next_page (by omega)]
      refine ih hcopying (fun w hw => hleaf w (by omega)) ?_ ?_
      · exact fun s₄ l₄ J₄ hmove' => hfail s₄ l₄ J₄ (hmoves.trans hmove')
      · intro s₄ l₄ J₄ g'' hmove' hcopying'
        rw [show j + 1 + k = j + (k + 1) by omega] at hmove' hcopying'
        exact hok s₄ l₄ J₄ g'' (hmoves.trans hmove') hcopying'

theorem uvmcopy_spec {old new sz : ℕ} {g : ℕ → ℕ} {J : Multiset ℕ} (hheap : Heap m s l (J + R))
    (hold : Table s old f I) (hI : I ≤ R) (hleaf : ∀ w < npages sz, IsLeaf (f w) ∧ ppn (f w) ∈ R)
    (hnew : Table s new g J) (hzero : ∀ w < 2 ^ 26 - 2, g w = 0)
    (hfail : ∀ s' l' J', Moves m s l J s' l' J' → Table s' new g J' → Q false s')
    (hok : ∀ s' l' J' g', Moves m s l J s' l' (J' + userPages g' 0 (npages sz)) →
      Copying m old new f g I R (npages sz) s' l' J' g' → Q true s') :
    Ensures m deny F (uvmcopy (old * pgSize) (new * pgSize) sz) Q s := by
  have hcopying : Copying m old new f g I R 0 s l J g :=
    ⟨by rwa [userPages_zero, add_zero], hold, hnew, .refl g 0, fun w hw => absurd hw (by omega)⟩
  have hspec : Ensures m deny F
      (copyFrom (old * pgSize) (new * pgSize) (npages sz) (0 * pgSize)) Q s := by
    refine copyFrom_spec hcopying hI (by rwa [Nat.zero_add]) hzero ?_ ?_
    · rwa [userPages_zero, add_zero]
    · rwa [userPages_zero, add_zero, Nat.zero_add]
  rwa [Nat.zero_mul] at hspec

/-- The pages that the user can reach through a table are among `U`. -/
def Reaches (f : ℕ → ℕ) (U : Multiset ℕ) : Prop :=
  ∀ v < 2 ^ 26, f v &&& pteV ≠ 0 → f v &&& pteU ≠ 0 → ppn (f v) ∈ U

variable {U : Multiset ℕ}

theorem sub_pgRoundDown (a : ℕ) : a - pgRoundDown a = a % pgSize := by
  unfold pgRoundDown pgSize
  omega

theorem mod_pgSize_lt (a : ℕ) : a % pgSize < pgSize := Nat.mod_lt a (by decide)

def Terminated (bs : List UInt8) : Prop := ∃ cs, bs = cs ++ [0] ∧ 0 ∉ cs

theorem terminated_takeWhile (bs : List UInt8) : Terminated (bs.takeWhile (· ≠ 0) ++ [0]) :=
  ⟨_, rfl, fun h => by simpa using List.mem_takeWhile_imp h⟩

theorem length_takeWhile_lt {bs : List UInt8} (h : 0 ∈ bs) :
    (bs.takeWhile (· ≠ 0)).length < bs.length := by
  have happ := congrArg List.length (List.takeWhile_append_dropWhile (p := (· ≠ 0)) (l := bs))
  have hne : bs.dropWhile (· ≠ 0) ≠ [] := by
    intro hnil
    have := List.dropWhile_eq_nil_iff.mp hnil 0 h
    simp at this
  have hpos := List.length_pos_iff.mpr hne
  rw [List.length_append] at happ
  omega

end Xv6.Vm
