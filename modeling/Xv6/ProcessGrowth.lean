import Xv6.UserCopies

/-!
# The size of a process

`growproc` of `proc.c` changes the size of a process by a signed 32-bit amount. It does what
it reports as long as the size does not become negative.
-/

namespace Xv6.Vm

open OperationPrograms LittleEndianBlocks

variable {m : Machine} {deny : ℕ → Bool} {s s' : Kernel} {l : List ℕ} {tf root : ℕ} {f : ℕ → ℕ}
  {I : Multiset ℕ} {i : Pid}

/-- `growproc(n)` of process `i` with page table `f` returned `r` and did what that says. If it
returned 0, the size has changed by `n`, the pages of the new size are mapped and no others,
and the bytes below both sizes are as before. Otherwise it returned -1, and the size, the
mapped pages and their contents are as before. -/
def Reports (m : Machine) (s : Kernel) (i : Pid) (n : Int32) (tf root : ℕ) (f : ℕ → ℕ) (r : ℤ)
    (s' : Kernel) : Prop :=
  if r = 0 then
    ((s'.tables.proc i).sz : ℤ) = (s.tables.proc i).sz + n.toInt ∧
    ∃ f' I', Live m s' (s'.tables.proc i) tf root f' I' ∧
      ∀ va < (s.tables.proc i).sz, (va : ℤ) < (s.tables.proc i).sz + n.toInt →
        userByte s'.page f' va = userByte s.page f va
  else
    r = -1 ∧ (s'.tables.proc i).sz = (s.tables.proc i).sz ∧
    ∃ I', Live m s' (s'.tables.proc i) tf root f I' ∧
      ∀ w < npages (s.tables.proc i).sz, s'.page (ppn (f w)) = s.page (ppn (f w))

theorem div_lt_npages {va sz : ℕ} (h : va < sz) : va / pgSize < npages sz := by
  unfold npages pgSize
  omega

theorem Resized.userByte_eq {l' : List ℕ} {sz newsz va : ℕ} {f' : ℕ → ℕ} {I' : Multiset ℕ}
    (h : Resized m tf root s l sz f I s' l' newsz f' I') (hsz : va < sz) (hnew : va < newsz) :
    userByte s'.page f' va = userByte s.page f va := by
  obtain ⟨hmap, hsame⟩ := h.kept (va / pgSize) (div_lt_npages hsz) (div_lt_npages hnew)
  rw [userByte, userByte, hmap, hsame.page]

theorem Resized.proc_setProc {l' : List ℕ} {sz newsz : ℕ} {f' : ℕ → ℕ} {I' : Multiset ℕ}
    (h : Resized m tf root s l sz f I s' l' newsz f' I') (i : Pid) :
    (s'.setProc i fun p => { p with sz := newsz }).tables.proc i =
      { s.tables.proc i with sz := newsz } := by
  simp only [Kernel.setProc, Function.update_self, h.moves.tables]

theorem Resized.live_setProc {l' : List ℕ} {sz newsz : ℕ} {f' : ℕ → ℕ} {I' : Multiset ℕ}
    (h : Resized m tf root s l sz f I s' l' newsz f' I')
    (hlive : Live m s (s.tables.proc i) tf root f I) :
    Live m (s'.setProc i fun p => { p with sz := newsz }) { s.tables.proc i with sz := newsz }
      tf root f' I' :=
  ⟨hlive.trapframe, hlive.pagetable, h.space.table.frame fun _ _ => ⟨rfl, rfl, rfl⟩, h.space.shape⟩

/-- `growproc` returns, and it does what it reports if and only if the new size is not
negative. -/
theorem growproc_reports_iff (n : Int32)
    (hheap : Heap m s l (I + userPages f 0 (npages (s.tables.proc i).sz)))
    (hlive : Live m s (s.tables.proc i) tf root f I) :
    ∃ r s', Prog.run (perform m deny) (growproc i n) s = .ok (r, s') ∧
      (Reports m s i n tf root f r s' ↔ 0 ≤ ((s.tables.proc i).sz : ℤ) + n.toInt) := by
  refine Ensures.run (growproc_resizes (hlive.space hheap) hlive.pagetable
    (fun s' l' I' hpos h => ?_) fun s' l' newsz f' I' h hnew => ?_)
  · have hlive' : Live m s' (s.tables.proc i) tf root f I' :=
      ⟨hlive.trapframe, hlive.pagetable, h.space.table, h.space.shape⟩
    rw [Reports, if_neg (by decide), h.moves.tables]
    exact iff_of_true ⟨rfl, rfl, I', hlive', fun w hw => (h.kept w hw hw).2.page⟩ (by omega)
  · have hlive' := h.live_setProc hlive
    rw [Reports, if_pos rfl, h.proc_setProc]
    split_ifs at hnew with hle
    · refine iff_of_true ⟨hnew, f', I', hlive', fun va hva hva' => ?_⟩ hle
      exact h.userByte_eq hva (by omega)
    · refine iff_of_false (fun hreports => ?_) hle
      have hsz : (newsz : ℤ) = (s.tables.proc i).sz + n.toInt := hreports.1
      omega

theorem firstProcess_space :
    Heap smallKernel firstProcess firstFree
      (firstPages + userPages firstMap 0 (npages (firstProcess.tables.proc 0).sz)) :=
  firstProcess_heap.mono

/-- The first process has one page. If it asks for two pages less, `growproc` returns 0 and
leaves the size as it is. -/
theorem growproc_negative_size :
    ∃ s', Prog.run (perform smallKernel fun _ => false) (growproc 0 (-8192)) firstProcess =
        .ok (0, s') ∧ (s'.tables.proc 0).sz = pgSize ∧
      ¬Reports smallKernel firstProcess 0 (-8192) 0x87ffa 0x87fff firstMap 0 s' := by
  refine ⟨firstProcess.setProc 0 fun p => { p with sz := pgSize }, rfl, rfl, fun hreports => ?_⟩
  rw [Reports, if_pos rfl] at hreports
  exact absurd hreports.1 (by decide)

theorem growproc_reports_iff_firstProcess :
    ∃ r s', Prog.run (perform smallKernel fun _ => false) (growproc 0 4096) firstProcess =
        .ok (r, s') ∧ Reports smallKernel firstProcess 0 4096 0x87ffa 0x87fff firstMap r s' := by
  obtain ⟨r, s', hrun, hreports⟩ := @growproc_reports_iff _ (fun _ => false) _ _ _ _ _ _ 0 4096
    firstProcess_space initproc_live
  exact ⟨r, s', hrun, hreports.mpr (by decide)⟩

end Xv6.Vm
