import Xv6.MallocCalls
import Xv6.ProcessGrowth

/-!
# `sbrk` and the kernel

The program of a process sees what `growproc` does to the process as a call of `sbrk` that
succeeds or fails.
-/

namespace Xv6.Umalloc

open OperationPrograms LittleEndianBlocks
open Vm (Machine Kernel Pid Heap Live userPages userByte npages pgSize maxVa growproc le_npages)

/-- The program of process `i`, with the page table `f`, sees the memory of `u`. -/
structure Shows (s : Kernel) (i : Pid) (f : ℕ → ℕ) (u : User) : Prop where
  sz : u.sz = (s.tables.proc i).sz
  bytes : ∀ va < u.sz, getByte u.mem va = userByte s.page f va

theorem pos_iff_toInt (n : Int32) : 0 < n ↔ 0 < n.toInt := by
  rw [Int32.lt_iff_toInt_lt, Int32.toInt_zero]

theorem neg_iff_toInt (n : Int32) : n < 0 ↔ n.toInt < 0 := by
  rw [Int32.lt_iff_toInt_lt, Int32.toInt_zero]

/-- `sbrk` if there is enough memory. -/
theorem sbrk_succeeds (u : User) (n : Int32) (new : Bytes maxVa) (hsz : u.sz ≤ memSize)
    (hroom : (u.sz : ℤ) + n.toInt ≤ memSize) :
    (u.sbrk ⟨fun _ => false, fun _ => new⟩ n).1 = u.sz ∧
    ((u.sbrk ⟨fun _ => false, fun _ => new⟩ n).2.sz : ℤ) =
      (if 0 ≤ (u.sz : ℤ) + n.toInt then u.sz + n.toInt else u.sz) ∧
    (∀ va < u.sz, getByte (u.sbrk ⟨fun _ => false, fun _ => new⟩ n).2.mem va = getByte u.mem va) ∧
    ∀ va < (u.sbrk ⟨fun _ => false, fun _ => new⟩ n).2.sz, npages u.sz * pgSize ≤ va →
      getByte (u.sbrk ⟨fun _ => false, fun _ => new⟩ n).2.mem va = getByte new va := by
  have hn := n.toInt_lt
  have hn' := n.le_toInt
  have hmem : memSize = 2 ^ 27 := rfl
  have hle := le_npages u.sz
  rw [User.sbrk]
  simp only [pos_iff_toInt, neg_iff_toInt]
  by_cases hpos : 0 < n.toInt
  · have hnew : (((u.sz : ℤ) + n.toInt) % 2 ^ 64).toNat = u.sz + n.toInt := by omega
    have hdeny : ¬ (false = true ∨ memSize < (((u.sz : ℤ) + n.toInt) % 2 ^ 64).toNat) := by
      rw [not_or]
      exact ⟨Bool.false_ne_true, by omega⟩
    rw [if_pos hpos, if_neg hdeny, if_pos (by omega)]
    refine ⟨rfl, hnew, fun va hva => getByte_filled (by omega), fun va hva hlow => ?_⟩
    exact getByte_filled_inside hlow (hva.trans_le (le_npages _))
  · rw [if_neg hpos]
    by_cases hneg : n.toInt < 0
    · rw [if_pos hneg]
      refine ⟨rfl, ?_, fun _ _ => rfl, fun va hva hlow => ?_⟩
      · dsimp only
        split <;> split <;> omega
      · dsimp only at hva
        split at hva <;> omega
    · rw [if_neg hneg, if_pos (by omega)]
      refine ⟨rfl, ?_, fun _ _ => rfl, fun va hva hlow => ?_⟩
      · dsimp only
        omega
      · dsimp only at hva
        omega

theorem le_memSize {sz : ℕ} (h : npages sz ≤ 0x8000) : sz ≤ memSize :=
  (le_npages sz).trans (Nat.mul_le_mul_right pgSize h)

/-- `sys_sbrk` returns the old size if `growproc` returned 0. The new pages have the bytes that
the physical pages had. -/
theorem growproc_sbrk {m : Machine} {deny : ℕ → Bool} {s : Kernel} {l : List ℕ} {tf root : ℕ}
    {f : ℕ → ℕ} {I : Multiset ℕ} {i : Pid} {u : User} (n : Int32)
    (hheap : Heap m s l (I + userPages f 0 (npages (s.tables.proc i).sz)))
    (hlive : Live m s (s.tables.proc i) tf root f I) (hu : Shows s i f u) :
    ∃ r s', Prog.run (Vm.perform m deny) (growproc i n) s = .ok (r, s') ∧
      ∃ failed new f' I', Live m s' (s'.tables.proc i) tf root f' I' ∧
        (u.sbrk ⟨fun _ => failed, fun _ => new⟩ n).1 =
          (if r = 0 then (s.tables.proc i).sz else 2 ^ 64 - 1) ∧
        (s'.tables.proc i).sz = (u.sbrk ⟨fun _ => failed, fun _ => new⟩ n).2.sz ∧
        ∀ va < (s'.tables.proc i).sz, va < u.sz ∨ npages u.sz * pgSize ≤ va →
          getByte (u.sbrk ⟨fun _ => failed, fun _ => new⟩ n).2.mem va =
            userByte s'.page f' va := by
  have hspace := hlive.space hheap
  refine Vm.Ensures.run (Vm.growproc_resizes hspace hlive.pagetable
    (fun s' l' I' hpos h => ?_) fun s' l' newsz f' I' h hnew => ?_)
  · have hsbrk : u.sbrk ⟨fun _ => true, fun _ => u.mem⟩ n =
        (2 ^ 64 - 1, { u with calls := u.calls + 1 }) := by
      rw [User.sbrk]
      simp only [pos_iff_toInt, if_pos hpos, true_or, if_true]
    refine ⟨true, u.mem, f, I', ?_, ?_⟩
    · rw [h.moves.tables]
      exact ⟨hlive.trapframe, hlive.pagetable, h.space.table, h.space.shape⟩
    · rw [hsbrk, if_neg (by decide), h.moves.tables]
      refine ⟨rfl, hu.sz.symm, fun va hva _ => ?_⟩
      rw [h.userByte_eq hva hva]
      exact hu.bytes va (hu.sz ▸ hva)
  · have hsz := le_memSize hspace.npages_le
    have hsz' := le_memSize h.space.npages_le
    obtain ⟨haddr, hsize, hold, hbytes⟩ :=
      sbrk_succeeds u n (fun va => userByte s'.page f' va) (hu.sz ▸ hsz) (by
        rw [hu.sz]
        split at hnew <;> omega)
    refine ⟨false, fun va => userByte s'.page f' va, f', I', ?_, ?_⟩
    · rw [h.proc_setProc]
      exact h.live_setProc hlive
    · have hsize' := hsize.trans (hu.sz ▸ hnew.symm)
      rw [if_pos rfl, h.proc_setProc]
      refine ⟨haddr.trans hu.sz, (Int.ofNat.inj hsize').symm, fun va hva hin => ?_⟩
      rcases hin with hlt | hlow
      · rw [hold va hlt, hu.bytes va hlt]
        exact (h.userByte_eq (hu.sz ▸ hlt) hva).symm
      · rw [hbytes va (Int.ofNat.inj hsize' ▸ hva) hlow]
        exact dif_pos ((hva.trans_le hsz').trans (by decide))

def firstUser : User :=
  ⟨fun va => userByte Vm.firstProcess.page Vm.firstMap va, pgSize, 0, 0, []⟩

theorem firstUser_shows : Shows Vm.firstProcess 0 Vm.firstMap firstUser :=
  ⟨rfl, fun _ hva => dif_pos (hva.trans (by decide))⟩

theorem growproc_sbrk_firstProcess :
    ∃ r s', Prog.run (Vm.perform Vm.smallKernel fun _ => false) (growproc 0 4096)
        Vm.firstProcess = .ok (r, s') ∧
      ∃ failed new, (s'.tables.proc 0).sz =
        (firstUser.sbrk ⟨fun _ => failed, fun _ => new⟩ 4096).2.sz := by
  obtain ⟨r, s', hrun, failed, new, -, -, -, -, hsz, -⟩ := growproc_sbrk 4096
    Vm.firstProcess_space Vm.initproc_live firstUser_shows
  exact ⟨r, s', hrun, failed, new, hsz⟩

end Xv6.Umalloc
