import Xv6.AddressSpaces
import Xv6.ProcessMemory

/-!
# The address spaces of processes

A process has a page table that maps its user pages from zero on, and the trampoline and the
trapframe at the top. `proc_pagetable` makes such a table, `proc_freepagetable` gives it back,
and `exec` builds one from a file.
-/

namespace Xv6.Vm
open Function

open OperationPrograms LittleEndianBlocks

variable {m : Machine} {deny : ℕ → Bool} {F : Panic → Prop} {s s' s'' : Kernel}
  {l l' l'' : List ℕ} {A A' R : Multiset ℕ} {root v k tf sz : ℕ} {f f' : ℕ → ℕ} {I I' : Multiset ℕ}

def trampolineVpn : ℕ := 2 ^ 26 - 1

def trapframeVpn : ℕ := 2 ^ 26 - 2

theorem trampoline_eq : trampoline = trampolineVpn * pgSize := by decide

theorem trapframe_eq : trapframe = trapframeVpn * pgSize := by decide

/-- A page table with `k` user pages, the trampoline, and the trapframe in page `tf`. -/
structure Shape (m : Machine) (f : ℕ → ℕ) (k tf : ℕ) : Prop where
  user : ∀ w < k, UserLeaf (f w)
  trampoline : f trampolineVpn = pte m.trampolinePage (pteR ||| pteX ||| pteV)
  trapframe : f trapframeVpn = pte tf (pteR ||| pteW ||| pteV)
  rest : ∀ w, k ≤ w → w < 2 ^ 27 → w ≠ trampolineVpn → w ≠ trapframeVpn → f w = 0

theorem Shape.reaches (h : Shape m f k tf) : Reaches f (userPages f 0 k) := by
  intro w hw hvalid huser
  by_cases hk : w < k
  · exact mem_userPages (Nat.zero_le w) (by omega)
  · by_cases h₁ : w = trampolineVpn
    · rw [h₁, h.trampoline, pte_and (by decide) (by decide)] at huser
      exact absurd rfl huser
    · by_cases h₂ : w = trapframeVpn
      · rw [h₂, h.trapframe, pte_and (by decide) (by decide)] at huser
        exact absurd rfl huser
      · rw [h.rest w (by omega) (by omega) h₁ h₂, Nat.zero_and] at hvalid
        exact absurd rfl hvalid

theorem Machine.trampolinePage_lt (m : Machine) : m.trampolinePage < 2 ^ 51 :=
  (m.behind.trans_le m.room).trans (by decide)

theorem procPagetable_spec {Q : ℕ → Kernel → Prop} (hheap : Heap m s l 0) (htf : tf < 2 ^ 51)
    (hfail : ∀ s' l', Moves m s l 0 s' l' 0 → Q 0 s')
    (hok : ∀ root s' l' f I, Moves m s l 0 s' l' I → Table s' root f I → Shape m f 0 tf →
      Q (root * pgSize) s') :
    Ensures m deny F (procPagetable m (tf * pgSize)) Q s := by
  -- a table that maps nothing is given back
  have hback : ∀ {root : ℕ} {s₁ : Kernel} {l₁ : List ℕ} {f : ℕ → ℕ} {I : Multiset ℕ},
      Moves m s l 0 s₁ l₁ I → Table s₁ root f I → (∀ w < 2 ^ 27, f w = 0) →
      Ensures m deny F (uvmfree (root * pgSize) 0) (fun _ => Ensures m deny F (pure 0) Q) s₁ := by
    intro root s₁ l₁ f I hmove htable hzero
    have h0 : npages 0 = 0 := rfl
    have hpages : I + userPages f 0 (npages 0) = I := by rw [h0, userPages_zero, add_zero]
    refine uvmfree_spec (I := I) (f := f) (l := l₁) ?_ htable (by decide)
      (fun w hw => absurd hw (by omega)) (fun w _ hw => hzero w hw) fun s₂ l₂ hmove' => ?_
    · rw [hpages]
      exact hmove.heap
    · rw [hpages] at hmove'
      rw [ensures_pure]
      exact hfail s₂ l₂ (hmove.trans hmove')
  rw [procPagetable, ensures_bind]
  refine uvmcreate_spec hheap (fun s₁ hmove => ?_) (fun root s₁ l₁ hmove htable => ?_)
  · rw [if_pos rfl, ensures_pure]
    exact hfail s₁ l hmove
  · have hroot : m.InPool root := hmove.heap.pool root (by simp)
    rw [if_neg hroot.addr_ne_zero, ensures_bind,
      trampoline_eq, trapframe_eq]
    refine mappages_one hmove.heap htable rfl (by decide) m.trampolinePage_lt (by decide)
      (fun s₂ l₂ I₂ hmove' htable' _ => ?_) (fun s₂ l₂ I₂ hmove' htable' => ?_)
    · rw [if_neg (by simp), ensures_bind]
      exact hback (hmove.trans hmove') htable' fun _ _ => rfl
    · have hmoves := hmove.trans hmove'
      rw [if_pos rfl, ensures_bind]
      refine mappages_one hmoves.heap htable' (by rw [update_of_ne (by decide)]; rfl)
        (by decide) htf (by decide) (fun s₃ l₃ I₃ hmove'' htable'' _ => ?_)
        (fun s₃ l₃ I₃ hmove'' htable'' => ?_)
      · have hmoves' := hmoves.trans hmove''
        rw [if_neg (by simp), ensures_bind]
        refine uvmunmap_one hmoves'.heap htable'' ?_ ?_ (by decide) fun s₄ l₄ hmove₄ htable₄ => ?_
        · rw [update_self, pte_and (by decide) (by decide)]
          decide
        · rw [update_self, pteFlags_pte (by decide)]
          decide
        · rw [ensures_bind]
          refine hback (hmoves'.trans hmove₄) htable₄ fun w _ => ?_
          rw [update_idem, update_apply]
          split <;> rfl
      · rw [if_pos rfl, ensures_pure]
        refine hok root s₃ l₃ _ I₃ (hmoves.trans hmove'') htable'' ⟨?_, ?_, ?_, ?_⟩
        · exact fun w hw => absurd hw (by omega)
        · rw [update_of_ne (by decide), update_self]
        · rw [update_self]
        · intro w _ _ h₁ h₂
          rw [update_of_ne h₂, update_of_ne h₁]

theorem procFreepagetable_spec {Q : Unit → Kernel → Prop}
    (hheap : Heap m s l (I + userPages f 0 (npages sz))) (h : Table s root f I)
    (hshape : Shape m f (npages sz) tf)
    (hQ : ∀ s' l', Moves m s l (I + userPages f 0 (npages sz)) s' l' 0 → Q () s') :
    Ensures m deny F (procFreepagetable (root * pgSize) sz) Q s := by
  have hcard := hheap.card_le
  rw [Multiset.card_add, card_userPages] at hcard
  have hne₁ (w : ℕ) (hw : w < npages sz) : w ≠ trampolineVpn := by
    unfold trampolineVpn
    omega
  have hne₂ (w : ℕ) (hw : w < npages sz) : w ≠ trapframeVpn := by
    unfold trapframeVpn
    omega
  rw [procFreepagetable, ensures_bind, trampoline_eq, trapframe_eq]
  refine uvmunmap_one hheap.mono h ?_ ?_ (by decide) fun s₁ l₁ hmove₁ htable₁ => ?_
  · rw [hshape.trampoline, pte_and (by decide) (by decide)]
    decide
  · rw [hshape.trampoline, pteFlags_pte (by decide)]
    decide
  rw [ensures_bind]
  refine uvmunmap_one hmove₁.heap htable₁ ?_ ?_ (by decide) fun s₂ l₂ hmove₂ htable₂ => ?_
  · rw [update_of_ne (by decide), hshape.trapframe, pte_and (by decide) (by decide)]
    decide
  · rw [update_of_ne (by decide), hshape.trapframe, pteFlags_pte (by decide)]
    decide
  have hmoves := (hmove₁.trans hmove₂).add hheap
  have hpages : userPages (update (update f trampolineVpn 0) trapframeVpn 0) 0
      (npages sz) = userPages f 0 (npages sz) := freed_congr fun w _ hw => by
    rw [update_of_ne (hne₂ w (by omega)), update_of_ne (hne₁ w (by omega))]
  rw [← hpages] at hmoves
  refine uvmfree_spec hmoves.heap htable₂ (by omega) (fun w hw => ?_) (fun w hw hw' => ?_)
    fun s₃ l₃ hmove₃ => hQ s₃ l₃ ?_
  · rw [update_of_ne (hne₂ w hw), update_of_ne (hne₁ w hw)]
    exact hshape.user w hw
  · by_cases h₂ : w = trapframeVpn
    · rw [h₂, update_self]
    · by_cases h₁ : w = trampolineVpn
      · rw [update_of_ne h₂, h₁, update_self]
      · rw [update_of_ne h₂, update_of_ne h₁]
        exact hshape.rest w hw hw' h₁ h₂
  · exact (hpages ▸ hmoves).trans (hpages ▸ hmove₃)

theorem Shape.grow {d xperm : ℕ} (h : Shape m f k tf)
    (hext : Extends (fun _ => Flagged (allocFlags xperm)) f k d f') (hperm : xperm < 1024)
    (hk : k + d ≤ 2 ^ 25) : Shape m f' (k + d) tf where
  user w hw := by
    by_cases hwk : w < k
    · rw [hext.other w (by omega)]
      exact h.user w hwk
    · exact (hext.leaf w (by omega) hw).alloc hperm
  trampoline := by
    rw [hext.other _ (by unfold trampolineVpn; omega)]
    exact h.trampoline
  trapframe := by
    rw [hext.other _ (by unfold trapframeVpn; omega)]
    exact h.trapframe
  rest w hw hw' h₁ h₂ := by
    rw [hext.other w (by omega)]
    exact h.rest w (by omega) hw' h₁ h₂

theorem Moves.grow {d : ℕ} {P : ℕ → ℕ → Prop} (h : Moves m s l I s' l' (I' + userPages f' k d))
    (hext : Extends P f k d f') (hheap : Heap m s l (I + userPages f 0 k)) :
    Moves m s l (I + userPages f 0 k) s' l' (I' + userPages f' 0 (k + d)) := by
  have hpages : userPages f' 0 (k + d) = userPages f' k d + userPages f 0 k := by
    have hlow : userPages f' 0 k = userPages f 0 k :=
      freed_congr fun w _ hw => hext.other w (by omega)
    rw [userPages_append, Nat.zero_add, hlow, add_comm]
  rw [hpages, ← add_assoc]
  exact h.add hheap

theorem Shape.shrink {d : ℕ} (h : Shape m f (k + d) tf) (hk : k + d ≤ 2 ^ 25) :
    Shape m (unmapped f k d) k tf where
  user w hw := by
    rw [unmapped, if_neg (by omega)]
    exact h.user w (by omega)
  trampoline := by
    rw [unmapped, if_neg (by unfold trampolineVpn; omega)]
    exact h.trampoline
  trapframe := by
    rw [unmapped, if_neg (by unfold trapframeVpn; omega)]
    exact h.trapframe
  rest w hw hw' h₁ h₂ := by
    rw [unmapped]
    split
    · rfl
    · exact h.rest w (by omega) hw' h₁ h₂

theorem Moves.shrink {d : ℕ} (h : Moves m s l (I + userPages f k d) s' l' I)
    (hheap : Heap m s l (I + userPages f 0 (k + d))) :
    Moves m s l (I + userPages f 0 (k + d)) s' l' (I + userPages (unmapped f k d) 0 k) := by
  have hlow : userPages (unmapped f k d) 0 k = userPages f 0 k :=
    freed_congr fun w _ hw => by rw [unmapped, if_neg (by omega)]
  have hpages : I + userPages f 0 (k + d) = I + userPages f k d + userPages f 0 k := by
    rw [userPages_append, Nat.zero_add]
    ac_rfl
  rw [hpages] at hheap ⊢
  rw [hlow]
  exact h.add hheap

/-- An address space of `sz` bytes, with its trapframe in page `tf`. -/
structure Space (m : Machine) (tf : ℕ) (s : Kernel) (l : List ℕ) (root sz : ℕ) (f : ℕ → ℕ)
    (I : Multiset ℕ) : Prop where
  heap : Heap m s l (I + userPages f 0 (npages sz))
  table : Table s root f I
  shape : Shape m f (npages sz) tf

theorem Space.npages_le (h : Space m tf s l root sz f I) : npages sz ≤ 0x8000 := by
  have hcard := h.heap.card_le
  rw [Multiset.card_add, card_userPages] at hcard
  omega

theorem Space.of_moves (h : Space m tf s l root sz f I)
    (hmove : Moves m s l (userPages f 0 (npages sz)) s' l' (userPages f 0 (npages sz))) :
    Moves m s l (I + userPages f 0 (npages sz)) s' l' (I + userPages f 0 (npages sz)) ∧
      Space m tf s' l' root sz f I := by
  have hheap := h.heap
  rw [add_comm] at hheap
  have hmoves := hmove.add hheap
  rw [add_comm] at hmoves
  exact ⟨hmoves, hmoves.heap, h.table.frame (hmove.keeps hheap), h.shape⟩

theorem Space.uvmalloc_keeps {Q : ℕ → Kernel → Prop} {newsz xperm : ℕ}
    (h : Space m tf s l root sz f I) (hle : sz ≤ newsz) (hperm : xperm < 1024)
    (hfail : ∀ s' l' I', Moves m s l (I + userPages f 0 (npages sz)) s' l'
        (I' + userPages f 0 (npages sz)) → Space m tf s' l' root sz f I' →
      (∀ w < npages sz, SamePage s s' (ppn (f w))) → Refused deny s l s' → Q 0 s')
    (hok : ∀ s' l' I' f', Moves m s l (I + userPages f 0 (npages sz)) s' l'
        (I' + userPages f' 0 (npages newsz)) → Space m tf s' l' root newsz f' I' →
      Extends (fun _ => Flagged (allocFlags xperm)) f (npages sz) (npages newsz - npages sz) f' →
      (∀ w < npages sz, SamePage s s' (ppn (f w))) → Q newsz s') :
    Ensures m deny F (Vm.uvmalloc (root * pgSize) sz newsz xperm) Q s := by
  have hmax := h.npages_le
  have hsum : npages sz + (npages newsz - npages sz) = npages newsz := by
    have := npages_mono hle
    omega
  have hkeeps {s' : Kernel} {l' : List ℕ} {A' : Multiset ℕ} (hmove : Moves m s l I s' l' A')
      (w : ℕ) (hw : w < npages sz) : SamePage s s' (ppn (f w)) :=
    hmove.keeps h.heap _ (mem_userPages (Nat.zero_le w) (by omega))
  refine uvmalloc_spec h.heap.mono h.table hle (fun w hw hw' => ?_) (by omega) hperm
    (fun s' l' I' hmove htable hrefused => ?_) fun s' l' I' f' hmove htable hext => ?_
  · refine h.shape.rest w hw (by omega) ?_ ?_
    · unfold trampolineVpn
      omega
    · unfold trapframeVpn
      omega
  · have hmoves := hmove.add h.heap
    exact hfail s' l' I' hmoves ⟨hmoves.heap, htable, h.shape⟩ (hkeeps hmove) hrefused
  · have hmoves := hmove.grow hext h.heap
    have hcard := hmoves.heap.card_le
    rw [Multiset.card_add, card_userPages] at hcard
    have hshape := h.shape.grow hext hperm (by omega)
    rw [hsum] at hmoves hshape
    exact hok s' l' I' f' hmoves ⟨hmoves.heap, htable, hshape⟩ hext (hkeeps hmove)

/-- An address space under construction: all its user pages are open to the user. -/
structure Building (m : Machine) (tf : ℕ) (s : Kernel) (l : List ℕ) (root sz : ℕ) (f : ℕ → ℕ)
    (I : Multiset ℕ) : Prop extends Space m tf s l root sz f I where
  user : ∀ w < npages sz, f w &&& pteU ≠ 0

theorem Building.userAddr (h : Building m tf s l root sz f I) {va : ℕ}
    (hva : va / pgSize < npages sz) :
    userAddr f va = ppn (f (va / pgSize)) * pgSize ∧
      ppn (f (va / pgSize)) ∈ userPages f 0 (npages sz) := by
  have hle := h.npages_le
  have hmax : va < maxVa := by
    unfold maxVa
    unfold pgSize at *
    omega
  refine ⟨?_, mem_userPages (Nat.zero_le _) (by omega)⟩
  rw [Vm.userAddr, if_pos ⟨hmax, (h.shape.user _ hva).valid, h.user _ hva⟩, pte2pa_eq]

theorem length_readi_le (file : List UInt8) (off n : ℕ) : (readi file off n).length ≤ n := by
  rw [readi]
  split
  · exact Nat.zero_le n
  · rw [List.length_take]
    omega

theorem flags2perm_lt (flags : ℕ) : flags2perm flags < 1024 := by
  unfold flags2perm
  split <;> split <;> decide

theorem numAt_lt (bs : List UInt8) (off k : ℕ) : numAt bs off k < 256 ^ k := getField_lt _ _ _

theorem Space.uvmclear {Q : Unit → Kernel → Prop} {flags : ℕ} (h : Space m tf s l root sz f I)
    (hv : v < npages sz) (hflag : Flagged flags (f v)) (hflags : flags < 1024)
    (hleaf : UserLeaf (pte (ppn (f v)) (clearU flags))) (hclear : clearU flags < 1024)
    (hne : flags ≠ 0)
    (hQ : ∀ s' f', f' = update f v (pte (ppn (f v)) (clearU flags)) →
      Moves m s l (I + userPages f 0 (npages sz)) s' l (I + userPages f' 0 (npages sz)) →
      Space m tf s' l root sz f' I → (∀ w < npages sz, SamePage s s' (ppn (f w))) → Q () s') :
    Ensures m deny F (Vm.uvmclear (root * pgSize) (v * pgSize)) Q s := by
  have hmax := h.npages_le
  refine uvmclear_spec h.heap.mono h.table (by omega) hflag hflags hne fun s' hmove htable => ?_
  have hplt : ppn (f v) < 2 ^ 52 := by
    obtain ⟨p, hp, hfv⟩ := hflag
    rwa [hfv, ppn_pte hp hflags]
  have hpages : userPages (update f v (pte (ppn (f v)) (clearU flags))) 0 (npages sz) =
      userPages f 0 (npages sz) := by
    have hppn (w : ℕ) : ppn (update f v (pte (ppn (f v)) (clearU flags)) w) = ppn (f w) := by
      by_cases hw : w = v
      · rw [hw, update_self, ppn_pte hplt hclear]
      · rw [update_of_ne hw]
    simp only [userPages, freed, hppn]
  have hmoves := hmove.add h.heap
  nth_rewrite 2 [← hpages] at hmoves
  refine hQ s' _ rfl hmoves
    ⟨hmoves.heap, htable, fun w hw => ?_, ?_, ?_, fun w hw hw' h₁ h₂ => ?_⟩ fun w hw => ?_
  · by_cases hwv : w = v
    · rwa [hwv, update_self]
    · rw [update_of_ne hwv]
      exact h.shape.user w hw
  · rw [update_of_ne (by unfold trampolineVpn; omega)]
    exact h.shape.trampoline
  · rw [update_of_ne (by unfold trapframeVpn; omega)]
    exact h.shape.trapframe
  · rw [update_of_ne (by omega)]
    exact h.shape.rest w hw hw' h₁ h₂
  · exact hmove.keeps h.heap _ (mem_userPages (Nat.zero_le w) (by omega))

end Xv6.Vm
