import Xv6.ProcessSpaces

/-!
# Pages that a process owns

A process in use owns its trapframe, the pages of its page table, and its user pages. `exec`
and `growproc` exchange pages between one process and the free list, and so do `allocproc` and
`freeproc`, which put a slot of the process table in and out of use.
-/

namespace Xv6.Vm

open OperationPrograms LittleEndianBlocks

variable {m : Machine} {deny : ℕ → Bool} {F : Panic → Prop} {s s' s'' : Kernel}
  {l l' l'' : List ℕ} {A A' A'' R : Multiset ℕ} {root k tf sz : ℕ} {f f' : ℕ → ℕ}
  {I I' : Multiset ℕ} {i : Pid} {p : Proc}

def Alters (m : Machine) (s : Kernel) (l : List ℕ) (A : Multiset ℕ) (s' : Kernel) (l' : List ℕ)
    (A' : Multiset ℕ) : Prop :=
  Moves m { s with tables := s'.tables } l A s' l' A'

theorem Heap.setTables (h : Heap m s l A) (t : Tables) : Heap m { s with tables := t } l A :=
  ⟨h.chain, h.nodup, h.pool, h.free, h.taken⟩

theorem Moves.setTables (h : Moves m s l A s' l' A') (t : Tables) :
    Moves m { s with tables := t } l A { s' with tables := t } l' A' :=
  ⟨h.heap.setTables t, h.pages, fun p hp => ⟨(h.same p hp).page, (h.same p hp).taken,
    (h.same p hp).stale⟩, rfl, h.calls⟩

theorem Moves.alters (h : Moves m s l A s' l' A') : Alters m s l A s' l' A' := by
  rw [Alters, h.tables]
  exact h

theorem Heap.alters (h : Heap m s l A) (t : Tables) :
    Alters m s l A { s with tables := t } l A := .refl (h.setTables t)

theorem Alters.trans (h : Alters m s l A s' l' A') (h' : Alters m s' l' A' s'' l'' A'') :
    Alters m s l A s'' l'' A'' := Moves.trans (Moves.setTables h s''.tables) h'

theorem Alters.add (h : Alters m s l A s' l' A') (hheap : Heap m s l (A + R)) :
    Alters m s l (A + R) s' l' (A' + R) := Moves.add h (hheap.setTables _)

theorem Alters.keeps (h : Alters m s l A s' l' A') (hheap : Heap m s l (A + R)) :
    ∀ p ∈ R, SamePage s s' p := fun p hp =>
  let hsame := Moves.keeps h (hheap.setTables _) p hp
  ⟨hsame.page, hsame.taken, hsame.stale⟩

def Kernel.setProc (s : Kernel) (i : Pid) (g : Proc → Proc) : Kernel :=
  { s with tables :=
    { s.tables with proc := Function.update s.tables.proc i (g (s.tables.proc i)) } }

theorem ensures_tables (Q : Tables → Kernel → Prop) :
    Ensures m deny F tables Q s ↔ Q s.tables s := by
  rw [tables, ensures_access]
  rfl

theorem ensures_setTables (t : Tables) (Q : Unit → Kernel → Prop) :
    Ensures m deny F (setTables t) Q s ↔ Q () { s with tables := t } := by
  rw [setTables, ensures_access]
  rfl

theorem ensures_getProc (i : Pid) (Q : Proc → Kernel → Prop) :
    Ensures m deny F (getProc i) Q s ↔ Q (s.tables.proc i) s := by
  rw [getProc, ensures_bind, ensures_tables, ensures_pure]

theorem ensures_setProc (i : Pid) (g : Proc → Proc) (Q : Unit → Kernel → Prop) :
    Ensures m deny F (setProc i g) Q s ↔ Q () (s.setProc i g) := by
  rw [setProc, ensures_bind, ensures_tables, ensures_setTables]
  rfl

structure Live (m : Machine) (s : Kernel) (p : Proc) (tf root : ℕ) (f : ℕ → ℕ) (I : Multiset ℕ) :
    Prop where
  trapframe : p.trapframe = tf * pgSize
  pagetable : p.pagetable = root * pgSize
  table : Table s root f I
  shape : Shape m f (npages p.sz) tf

theorem Live.space (h : Live m s p tf root f I)
    (hheap : Heap m s l (I + userPages f 0 (npages p.sz))) : Space m tf s l root p.sz f I :=
  ⟨hheap, h.table, h.shape⟩

/-- An address space of `sz` bytes has become one of `newsz` bytes; pages that belong to both
are the same. -/
structure Resized (m : Machine) (tf root : ℕ) (s : Kernel) (l : List ℕ) (sz : ℕ) (f : ℕ → ℕ)
    (I : Multiset ℕ) (s' : Kernel) (l' : List ℕ) (newsz : ℕ) (f' : ℕ → ℕ) (I' : Multiset ℕ) :
    Prop where
  moves : Moves m s l (I + userPages f 0 (npages sz)) s' l' (I' + userPages f' 0 (npages newsz))
  space : Space m tf s' l' root newsz f' I'
  kept : ∀ w, w < npages sz → w < npages newsz → f' w = f w ∧ SamePage s s' (ppn (f w))

theorem Resized.refl (h : Space m tf s l root sz f I) : Resized m tf root s l sz f I s l sz f I :=
  ⟨.refl h.heap, h, fun _ _ _ => ⟨rfl, .refl s _⟩⟩

theorem Space.uvmdealloc {Q : ℕ → Kernel → Prop} {newsz : ℕ} (h : Space m tf s l root sz f I)
    (hle : newsz ≤ sz)
    (hQ : ∀ s' l' f', Resized m tf root s l sz f I s' l' newsz f' I → Q newsz s') :
    Ensures m deny F (Vm.uvmdealloc (root * pgSize) sz newsz) Q s := by
  have hmax := h.npages_le
  have hsum : npages newsz + (npages sz - npages newsz) = npages sz := by
    have := npages_mono hle
    omega
  have hheap := h.heap
  have hshape := h.shape
  rw [← hsum] at hheap hshape
  have hpages : I + userPages f 0 (npages newsz + (npages sz - npages newsz)) =
      I + userPages f (npages newsz) (npages sz - npages newsz) + userPages f 0 (npages newsz) := by
    rw [userPages_append, Nat.zero_add]
    ac_rfl
  refine uvmdealloc_spec (I := I) (f := f) (l := l) ?_ h.table hle (by omega)
    (fun w _ hw => h.shape.user w hw) fun s₁ l₁ hmove htable => ?_
  · rw [hpages] at hheap
    exact hheap.mono
  · have hmoves := hmove.shrink hheap
    rw [hsum] at hmoves
    refine hQ s₁ l₁ _ ⟨hmoves, ⟨hmoves.heap, htable, hshape.shrink (by omega)⟩,
      fun w _ hw => ⟨?_, ?_⟩⟩
    · rw [unmapped, if_neg (by omega)]
    · rw [hpages] at hheap
      exact hmove.keeps hheap _ (mem_userPages (Nat.zero_le w) (by omega))

/-- What `growproc` does to the address space of a process. If the size would become negative,
it reports success and does nothing. -/
theorem growproc_resizes {Q : ℤ → Kernel → Prop} {n : Int32}
    (h : Space m tf s l root (s.tables.proc i).sz f I)
    (hroot : (s.tables.proc i).pagetable = root * pgSize)
    (hfail : ∀ s' l' I', 0 < n.toInt → Resized m tf root s l (s.tables.proc i).sz f I s' l'
      (s.tables.proc i).sz f I' → Q (-1) s')
    (hok : ∀ s' l' newsz f' I', Resized m tf root s l (s.tables.proc i).sz f I s' l' newsz f' I' →
      (newsz : ℤ) = (if 0 ≤ ((s.tables.proc i).sz : ℤ) + n.toInt then
        (s.tables.proc i).sz + n.toInt else (s.tables.proc i).sz) →
      Q 0 (s'.setProc i fun p => { p with sz := newsz })) :
    Ensures m deny F (growproc i n) Q s := by
  have hmax := h.npages_le
  have hsz : (s.tables.proc i).sz ≤ 2 ^ 27 := by
    have := le_npages (s.tables.proc i).sz
    unfold pgSize at this
    omega
  have hn := n.toInt_lt
  have hn' := n.le_toInt
  rw [growproc, ensures_bind, ensures_getProc, hroot]
  split_ifs with hpos hneg
  · have hpos' : 0 < n.toInt := by simpa using Int32.lt_iff_toInt_lt.mp hpos
    have hnew : ((((s.tables.proc i).sz : ℤ) + n.toInt) % 2 ^ 64).toNat =
        (s.tables.proc i).sz + n.toInt.toNat := by omega
    rw [ensures_bind, hnew]
    refine h.uvmalloc_keeps (by omega) (by decide) (fun s₁ l₁ I₁ hmove hspace hkeep _ => ?_)
      fun s₁ l₁ I₁ f₁ hmove hspace hext hkeep => ?_
    · rw [if_pos rfl, ensures_pure]
      exact hfail s₁ l₁ I₁ hpos' ⟨hmove, hspace, fun w hw _ => ⟨rfl, hkeep w hw⟩⟩
    · rw [if_neg (by omega), ensures_bind, ensures_setProc, ensures_pure]
      refine hok s₁ l₁ _ f₁ I₁ ⟨hmove, hspace, fun w hw _ => ⟨?_, hkeep w hw⟩⟩ ?_
      · exact hext.other w (by omega)
      · rw [if_pos (by omega)]
        omega
  · have hneg' : n.toInt < 0 := by simpa using Int32.lt_iff_toInt_lt.mp hneg
    rw [ensures_bind]
    by_cases hle : 0 ≤ ((s.tables.proc i).sz : ℤ) + n.toInt
    · refine h.uvmdealloc (by omega) fun s₁ l₁ f₁ hresized => ?_
      rw [ensures_bind, ensures_setProc, ensures_pure]
      refine hok s₁ l₁ _ f₁ I hresized ?_
      rw [if_pos hle]
      omega
    · have hnew : (s.tables.proc i).sz ≤
          ((((s.tables.proc i).sz : ℤ) + n.toInt) % 2 ^ 64).toNat := by omega
      rw [Vm.uvmdealloc, if_pos hnew, ensures_pure, ensures_bind, ensures_setProc, ensures_pure]
      refine hok s l _ f I (.refl h) ?_
      rw [if_neg hle]
  · have hzero : n.toInt = 0 := by
      have h₁ : ¬0 < n.toInt := fun h => hpos (Int32.lt_iff_toInt_lt.mpr (by simpa using h))
      have h₂ : ¬n.toInt < 0 := fun h => hneg (Int32.lt_iff_toInt_lt.mpr (by simpa using h))
      omega
    rw [ensures_bind, ensures_setProc, ensures_pure]
    refine hok s l (s.tables.proc i).sz f I (.refl h) ?_
    rw [if_pos (by omega)]
    omega

end Xv6.Vm
