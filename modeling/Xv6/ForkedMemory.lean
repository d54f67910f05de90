import Xv6.UserCopies

/-!
# The memory of a forked process

`uvmcopy` of `vm.c` gives a child the pages of its parent, in pages of its own. Afterwards
each of the two sees its own stores only.
-/

namespace Xv6.Vm

open OperationPrograms LittleEndianBlocks

/-- A store of one byte by a user program. If the page may not be written, the store faults and
does nothing. -/
def userStore (f : ℕ → ℕ) (page : ℕ → Bytes pgSize) (va : ℕ) (b : UInt8) : ℕ → Bytes pgSize :=
  if Writable f (va / pgSize) then storeUser f page va [b] else page

/-- Stores of several processes in some order; `fs` are their page tables. -/
def runStores {P : Type} (fs : P → ℕ → ℕ) (page : ℕ → Bytes pgSize)
    (ws : List (P × ℕ × UInt8)) : ℕ → Bytes pgSize :=
  ws.foldl (fun page w => userStore (fs w.1) page w.2.1 w.2.2) page

def Separate {P : Type} (fs : P → ℕ → ℕ) : Prop :=
  ∀ x y, x ≠ y → ∀ v w, Readable (fs x) v → Readable (fs y) w → ppn (fs x v) ≠ ppn (fs y w)

def SameView (f : ℕ → ℕ) (page page' : ℕ → Bytes pgSize) : Prop :=
  ∀ v, Readable f v → page (ppn (f v)) = page' (ppn (f v))

variable {P : Type} {fs : P → ℕ → ℕ} {page page' : ℕ → Bytes pgSize}

theorem SameView.own {f : ℕ → ℕ} (h : SameView f page page') (va : ℕ) (b : UInt8) :
    SameView f (userStore f page va b) (userStore f page' va b) := by
  intro v hv
  by_cases hw : Writable f (va / pgSize)
  · rw [userStore, userStore, if_pos hw, if_pos hw]
    by_cases hq : ppn (f v) = ppn (f (va / pgSize))
    · simp only [storeUser, hq, Function.update_self]
      rw [h _ hw.1]
    · simp only [storeUser, Function.update_of_ne hq]
      exact h v hv
  · rw [userStore, userStore, if_neg hw, if_neg hw]
    exact h v hv

theorem SameView.other {x y : P} (hsep : Separate fs) (hxy : x ≠ y)
    (h : SameView (fs x) page page') (va : ℕ) (b : UInt8) :
    SameView (fs x) (userStore (fs y) page va b) page' := by
  intro v hv
  by_cases hw : Writable (fs y) (va / pgSize)
  · have hq : ppn (fs x v) ≠ ppn (fs y (va / pgSize)) := hsep x y hxy v _ hv hw.1
    simp only [userStore, if_pos hw, storeUser, Function.update_of_ne hq]
    exact h v hv
  · rw [userStore, if_neg hw]
    exact h v hv

theorem runStores_sameView [DecidableEq P] (hsep : Separate fs) (x : P)
    (ws : List (P × ℕ × UInt8)) (h : SameView (fs x) page page') :
    SameView (fs x) (runStores fs page ws) (runStores fs page' (ws.filter (·.1 = x))) := by
  induction ws generalizing page page' with
  | nil => exact h
  | cons w ws ih =>
    obtain ⟨y, va, b⟩ := w
    by_cases hy : y = x
    · subst hy
      rw [List.filter_cons_of_pos (by simp)]
      exact ih (h.own va b)
    · rw [List.filter_cons_of_neg (by simpa using hy)]
      exact ih (h.other hsep (Ne.symm hy) va b)

theorem SameView.userByte {f : ℕ → ℕ} (h : SameView f page page') {va : ℕ}
    (hva : Readable f (va / pgSize)) : userByte page f va = userByte page' f va := by
  rw [Vm.userByte, h _ hva, ← Vm.userByte]

inductive Side where
  | parent
  | child
  deriving DecidableEq

def sides (f g : ℕ → ℕ) : Side → ℕ → ℕ
  | .parent => f
  | .child => g

/-- The memory after a successful `uvmcopy` of `sz` bytes from a table that maps `f` to one that
mapped `g` and now maps `g'`. The pages `R` are those that were in use beside the child's
table, which has the pages `J'` now. -/
structure Forked (m : Machine) (new sz : ℕ) (f g : ℕ → ℕ) (R : Multiset ℕ) (s' : Kernel)
    (l' : List ℕ) (J' : Multiset ℕ) (g' : ℕ → ℕ) : Prop where
  heap : Heap m s' l' (J' + userPages g' 0 (npages sz) + R)
  table : Table s' new g' J'
  rest : ∀ w, npages sz ≤ w → g' w = g w
  flags : ∀ w < npages sz, pteFlags (g' w) = pteFlags (f w)
  bytes : ∀ w < npages sz, s'.page (ppn (g' w)) = s'.page (ppn (f w))
  shared : ∀ w < npages sz, ppn (g' w) ∉ R ∧ ppn (g' w) ∉ J' ∧
    ∀ w' < npages sz, ppn (g' w') = ppn (g' w) → w' = w
  separate : ∀ (ws : List (Side × ℕ × UInt8)) (x : Side) (va : ℕ),
    Readable (sides f g' x) (va / pgSize) →
    userByte (runStores (sides f g') s'.page ws) (sides f g' x) va =
      userByte (runStores (sides f g') s'.page (ws.filter (·.1 = x))) (sides f g' x) va

variable {m : Machine} {deny : ℕ → Bool} {s s' : Kernel} {l l' : List ℕ} {I J J' R : Multiset ℕ}
  {old new sz : ℕ} {f g g' : ℕ → ℕ}

theorem userPages_inj {k : ℕ} (h : (userPages g 0 k).Nodup) {w w' : ℕ} (hw : w < k) (hw' : w' < k)
    (heq : ppn (g w') = ppn (g w)) : w' = w := by
  simp only [userPages, freed, if_true, Multiset.coe_nodup] at h
  exact List.inj_on_of_nodup_map h (by simpa using hw') (by simpa using hw) heq

theorem Copying.forked (h : Copying m old new f g I R (npages sz) s l J g') (hreach : Reaches f R)
    (hsys : ∀ v, ¬Readable g v) : Forked m new sz f g R s l J g' := by
  have hnodup : (J + userPages g' 0 (npages sz) + R).Nodup :=
    Multiset.nodup_of_le (Multiset.le_add_left _ _) h.heap.nodup
  obtain ⟨hnodup', -, hR⟩ := Multiset.nodup_add.mp hnodup
  obtain ⟨-, hpages, hJ⟩ := Multiset.nodup_add.mp hnodup'
  have hmem {w : ℕ} (hw : w < npages sz) : ppn (g' w) ∈ userPages g' 0 (npages sz) :=
    mem_userPages (Nat.zero_le w) (by omega)
  have hnotR {w : ℕ} (hw : w < npages sz) : ppn (g' w) ∉ R :=
    Multiset.disjoint_left.mp hR (Multiset.mem_add.mpr (.inr (hmem hw)))
  have hrest (w : ℕ) (hw : npages sz ≤ w) : g' w = g w := h.ext.other w (by omega)
  have hchild {w : ℕ} (hw : Readable g' w) : w < npages sz := by
    by_contra hle
    exact hsys w (by rwa [Readable, ← hrest w (by omega)])
  have hne {v w : ℕ} (hv : Readable f v) (hw : Readable g' w) : ppn (f v) ≠ ppn (g' w) :=
    fun heq => hnotR (hchild hw) (heq ▸ hreach v hv.1 hv.2.1 hv.2.2)
  have hsep : Separate (sides f g') := by
    intro x y hxy v w hv hw
    cases x <;> cases y
    · exact absurd rfl hxy
    · exact hne hv hw
    · exact (hne hw hv).symm
    · exact absurd rfl hxy
  refine ⟨h.heap, h.target, hrest, fun w hw => ?_, h.copy, fun w hw => ⟨hnotR hw, ?_, ?_⟩,
    fun ws x va hva => ?_⟩
  · obtain ⟨p, -, hp⟩ := h.ext.leaf w (Nat.zero_le w) (by omega)
    rw [hp, pteFlags_pte (pteFlags_lt _)]
  · exact Multiset.disjoint_right.mp hJ (hmem hw)
  · exact fun w' hw' => userPages_inj hpages hw hw'
  · exact (runStores_sameView hsep x ws fun _ _ => rfl).userByte hva

/-- `uvmcopy` gives the child equal but separate memory. The parent has a page at every page
number below `sz`, the child has none that a user could reach, and the pages `R` are in use
beside the child's table. Whether or not `uvmcopy` succeeds, nothing that was in use before is
changed; if it fails, the child's table maps what it mapped before, and the free pages are
those of before without the ones that the table has grown by. -/
theorem uvmcopy_forks (hheap : Heap m s l (J + R)) (hold : Table s old f I) (hI : I ≤ R)
    (hleaf : ∀ w < npages sz, IsLeaf (f w) ∧ ppn (f w) ∈ R) (hreach : Reaches f R)
    (hnew : Table s new g J) (hzero : ∀ w < 2 ^ 26 - 2, g w = 0) (hsys : ∀ v, ¬Readable g v) :
    ∃ ok s', Prog.run (perform m deny) (uvmcopy (old * pgSize) (new * pgSize) sz) s =
        .ok (ok, s') ∧
      (∀ q ∈ R, SamePage s s' q) ∧ Table s' old f I ∧ s'.tables = s.tables ∧
      if ok = true then ∃ l' J' g', Forked m new sz f g R s' l' J' g' ∧
        (↑l' + (J' + userPages g' 0 (npages sz)) : Multiset ℕ) = ↑l + J
      else ∃ l' J', Heap m s' l' (J' + R) ∧ Table s' new g J' ∧
        (↑l' + J' : Multiset ℕ) = ↑l + J := by
  refine Ensures.run (uvmcopy_spec hheap hold hI hleaf hnew hzero ?_ ?_)
  · intro s' l' J' hmove htable
    have hkeep := hmove.keeps hheap
    refine ⟨hkeep, hold.frame fun q hq => hkeep q (Multiset.mem_of_le hI hq), hmove.tables, ?_⟩
    rw [if_neg (by simp)]
    exact ⟨l', J', (hmove.add hheap).heap, htable, hmove.pages⟩
  · intro s' l' J' g' hmove hcopying
    refine ⟨hmove.keeps hheap, hcopying.source, hmove.tables, ?_⟩
    rw [if_pos rfl]
    exact ⟨l', J', g', hcopying.forked hreach hsys, hmove.pages⟩

/-- The first process forks. -/
theorem uvmcopy_forks_firstProcess :
    ∃ s', Prog.run (perform smallKernel fun _ => false)
        (uvmcopy (0x87fff * pgSize) (0x87ff8 * pgSize) pgSize) firstProcess = .ok (true, s') ∧
      ∃ l' J' g', Forked smallKernel 0x87ff8 pgSize firstMap (fun _ => 0)
        (firstPages + userPages firstMap 0 1 + {0x87ffa}) s' l' J' g' := by
  have hheap := firstProcess_heap
  rw [show firstPages + userPages firstMap 0 1 + {0x87ffa, 0x87ff8} =
    {0x87ff8} + (firstPages + userPages firstMap 0 1 + {0x87ffa}) by decide] at hheap
  have hleaf : ∀ w < npages pgSize,
      IsLeaf (firstMap w) ∧ ppn (firstMap w) ∈ firstPages + userPages firstMap 0 1 + {0x87ffa} := by
    intro w hw
    obtain rfl : w = 0 := Nat.lt_one_iff.mp hw
    exact ⟨⟨by decide, by decide⟩, by decide⟩
  have hreach : Reaches firstMap (firstPages + userPages firstMap 0 1 + {0x87ffa}) :=
    fun v hv hvalid huser => Multiset.mem_add.mpr (.inl (Multiset.mem_add.mpr (.inr
      (firstProcess_shape.reaches v hv hvalid huser))))
  obtain ⟨ok, s', hrun, -, -, -, hforked⟩ :=
    @uvmcopy_forks _ (fun _ => false) _ _ _ _ _ _ _ pgSize _ _ hheap firstProcess_table (by decide)
      hleaf hreach firstProcess_blank (fun _ _ => rfl) (fun v hv => hv.2.1 (Nat.zero_and _))
  have hsucc : (Prog.run (perform smallKernel fun _ => false)
      (uvmcopy (0x87fff * pgSize) (0x87ff8 * pgSize) pgSize) firstProcess).map (·.1) =
        .ok true := by decide +kernel
  rw [hrun] at hsucc
  obtain rfl : ok = true := Except.ok.inj hsucc
  rw [if_pos rfl] at hforked
  obtain ⟨l', J', g', hforked, -⟩ := hforked
  exact ⟨s', hrun, l', J', g', hforked⟩

end Xv6.Vm
