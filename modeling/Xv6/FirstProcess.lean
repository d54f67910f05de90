import Xv6.PageTableLookups
import Xv6.ProcessOwnership

/-!
# Memory with the first process

A memory as `userinit` of `proc.c` leaves it, but with only 16 free pages: one process with one
page of user memory, which holds `initcode`, with its trapframe and its page table. Beside
it there is a page table that maps nothing yet.
-/

namespace Xv6.Vm
open Function

open LittleEndianBlocks RadixTables RadixTables.Tree

variable {n : ℕ}

/-- The subtrees of a table that has few entries; an entry is given with what it stands for. -/
def sparse (es : List (Fin 512 × ℕ × Tree 512 ℕ n)) : Fin 512 → Tree 512 ℕ n :=
  es.foldr (fun e child => update child e.1 e.2.2) fun _ => blank coding n

def sparseBytes (es : List (Fin 512 × ℕ × Tree 512 ℕ n)) : Bytes pgSize :=
  es.foldr (fun e b => putField b (8 * e.1) e.2.1 8) fun _ => 0

variable {es : List (Fin 512 × ℕ × Tree 512 ℕ n)}

theorem getField_sparseBytes {view : ℕ → Fin 512 → ℕ}
    (h : ∀ e ∈ es, e.2.1 < 256 ^ 8 ∧ Rep coding view e.2.2 e.2.1) (i : Fin 512) :
    Rep coding view (sparse es i) (getField (sparseBytes es) (8 * i) 8) := by
  induction es with
  | nil =>
    have hzero : getField (sparseBytes ([] : List (Fin 512 × ℕ × Tree 512 ℕ n))) (8 * i) 8 = 0 :=
      getField_zero _ _
    rw [hzero]
    exact rep_blank view
  | cons e es ih =>
    obtain ⟨⟨hlt, hrep⟩, hrest⟩ := List.forall_mem_cons.mp h
    simp only [sparse, sparseBytes, List.foldr_cons]
    by_cases hi : i = e.1
    · subst hi
      rwa [update_self, getField_putField_self _ _ _ _ (by unfold pgSize; omega),
        Nat.mod_eq_of_lt hlt]
    · rw [update_of_ne hi, getField_putField_disjoint _ _ _ _ (by omega)]
      exact ih hrest

theorem sparse_of_notMem {i : Fin 512} (h : i ∉ es.map (·.1)) : sparse es i = blank coding n := by
  induction es with
  | nil => rfl
  | cons e es ih =>
    rw [List.map_cons, List.mem_cons, not_or] at h
    rw [sparse, List.foldr_cons, update_of_ne h.1]
    exact ih h.2

theorem pages_sparse (p : ℕ) (h : (es.map (·.1)).Nodup) :
    pages (.node p (sparse es)) = p ::ₘ (es.map fun e => pages e.2.2).sum := by
  induction es with
  | nil => exact pages_node_blank p
  | cons e es ih =>
    rw [List.map_cons, List.nodup_cons] at h
    have hupdate := pages_update p (sparse es) e.1 e.2.2
    rw [sparse_of_notMem h.1, pages_blank, add_zero, ih h.2] at hupdate
    rw [List.map_cons, List.sum_cons, sparse, List.foldr_cons]
    refine hupdate.trans ?_
    rw [Multiset.cons_add, add_comm]

theorem rep_sparse {page : ℕ → Bytes pgSize} {p : ℕ} (hpage : page p = sparseBytes es)
    (h : ∀ e ∈ es, e.2.1 < 256 ^ 8 ∧ Rep coding (view page) e.2.2 e.2.1) :
    Rep coding (view page) (.node p (sparse es)) (coding.ptr p) := by
  refine ⟨rfl, fun i => ?_⟩
  rw [view, hpage]
  exact getField_sparseBytes h i

/-- The lowest table for the user memory: its one page, in RAM page `0x87ff9`. -/
def userEntries : List (Fin 512 × ℕ × Tree 512 ℕ 0) :=
  [(0, pte 0x87ff9 0x1f, .leaf (pte 0x87ff9 0x1f))]

def trapEntries : List (Fin 512 × ℕ × Tree 512 ℕ 0) :=
  [(511, pte 0x80001 0xb, .leaf (pte 0x80001 0xb)), (510, pte 0x87ffa 0x7, .leaf (pte 0x87ffa 0x7))]

def userMiddle : List (Fin 512 × ℕ × Tree 512 ℕ 1) :=
  [(0, coding.ptr 0x87ffd, .node 0x87ffd (sparse userEntries))]

def trapMiddle : List (Fin 512 × ℕ × Tree 512 ℕ 1) :=
  [(511, coding.ptr 0x87ffb, .node 0x87ffb (sparse trapEntries))]

def rootEntries : List (Fin 512 × ℕ × Tree 512 ℕ 2) :=
  [(0, coding.ptr 0x87ffe, .node 0x87ffe (sparse userMiddle)),
    (255, coding.ptr 0x87ffc, .node 0x87ffc (sparse trapMiddle))]

def initproc : Proc :=
  ⟨.runnable, 1, 0, none, pgSize, 0x87fff * pgSize, 0x87ffa * pgSize, fun _ => none,
    "initcode".toUTF8.toList⟩

/-- The memory with the first process, an empty page table in RAM page `0x87ff8`, and the free pages
below it. -/
def firstProcess : Kernel where
  page p :=
    if p = 0x87fff then sparseBytes rootEntries
    else if p = 0x87ffe then sparseBytes userMiddle
    else if p = 0x87ffd then sparseBytes userEntries
    else if p = 0x87ffc then sparseBytes trapMiddle
    else if p = 0x87ffb then sparseBytes trapEntries
    else if p = 0x87ff9 then putBytes (fun _ => 0) 0 initcode
    else if 0x87fe8 < p ∧ p ≤ 0x87ff7 then putField (fun _ => 0) 0 ((p - 1) * pgSize) 8
    else fun _ => 0
  freelist := 0x87ff7 * pgSize
  tables :=
    { proc := fun i => if i = 0 then initproc
        else ⟨.unused, 0, 0, none, 0, 0, 0, fun _ => none, []⟩
      nextpid := 2
      file := fun _ => ⟨.none, 0, false, false, 0⟩ }
  calls := 0
  taken p := 0x87ff8 ≤ p ∧ p ≤ 0x87fff
  stale _ _ := false

def firstMap (v : ℕ) : ℕ :=
  get coding (.node 0x87fff (sparse rootEntries)) (path 2 (v * pgSize))

def freeFrom : ℕ → List ℕ
  | 0 => [0x87fe8]
  | n + 1 => (0x87fe8 + (n + 1)) :: freeFrom n

def firstFree : List ℕ := freeFrom 15

def firstPages : Multiset ℕ := {0x87fff, 0x87ffe, 0x87ffd, 0x87ffc, 0x87ffb}

theorem firstProcess_table : Table firstProcess 0x87fff firstMap firstPages := by
  have huser : Rep coding (view firstProcess.page) (.node 0x87ffd (sparse userEntries))
      (coding.ptr 0x87ffd) := by
    refine rep_sparse rfl fun e he => ?_
    rw [userEntries, List.mem_singleton] at he
    subst he
    exact ⟨by decide, rfl⟩
  have htrap : Rep coding (view firstProcess.page) (.node 0x87ffb (sparse trapEntries))
      (coding.ptr 0x87ffb) := by
    refine rep_sparse rfl fun e he => ?_
    rw [trapEntries, List.mem_pair] at he
    obtain rfl | rfl := he <;> exact ⟨by decide, rfl⟩
  have huser' : Rep coding (view firstProcess.page) (.node 0x87ffe (sparse userMiddle))
      (coding.ptr 0x87ffe) := by
    refine rep_sparse rfl fun e he => ?_
    rw [userMiddle, List.mem_singleton] at he
    subst he
    exact ⟨by decide, huser⟩
  have htrap' : Rep coding (view firstProcess.page) (.node 0x87ffc (sparse trapMiddle))
      (coding.ptr 0x87ffc) := by
    refine rep_sparse rfl fun e he => ?_
    rw [trapMiddle, List.mem_singleton] at he
    subst he
    exact ⟨by decide, htrap⟩
  refine ⟨sparse rootEntries, ⟨rep_sparse rfl fun e he => ?_, fun p _ i => rfl⟩, ?_, fun v _ => rfl⟩
  · rw [rootEntries, List.mem_pair] at he
    obtain rfl | rfl := he
    · exact ⟨by decide, huser'⟩
    · exact ⟨by decide, htrap'⟩
  · rw [pages_sparse _ (by decide)]
    simp only [rootEntries, userMiddle, trapMiddle, userEntries, trapEntries, List.map_cons,
      List.map_nil, List.sum_cons, List.sum_nil]
    rw [pages_sparse _ (by decide), pages_sparse _ (by decide)]
    simp only [List.map_cons, List.map_nil, List.sum_cons, List.sum_nil]
    rw [pages_sparse _ (by decide), pages_sparse _ (by decide)]
    simp only [List.map_cons, List.map_nil, List.sum_cons, List.sum_nil, Tree.pages]
    decide

theorem get_sparse_cons (p : ℕ) (e : Fin 512 × ℕ × Tree 512 ℕ n)
    (es : List (Fin 512 × ℕ × Tree 512 ℕ n)) (i : Fin 512) (is : List (Fin 512)) :
    get coding (.node p (sparse (e :: es))) (i :: is) =
      if i = e.1 then get coding e.2.2 is else get coding (.node p (sparse es)) (i :: is) := by
  simp only [RadixTables.Tree.get, sparse, List.foldr_cons]
  split
  · next h => rw [h, update_self]
  · next h => rw [update_of_ne h]

theorem get_sparse_nil (p : ℕ) (i : Fin 512) (is : List (Fin 512)) :
    get coding (.node p (sparse (n := n) [])) (i :: is) = 0 := get_blank is

theorem firstMap_eq {v : ℕ} (hv : v < 2 ^ 27) :
    firstMap v = if v = 0 then pte 0x87ff9 0x1f else if v = trampolineVpn then pte 0x80001 0xb
      else if v = trapframeVpn then pte 0x87ffa 0x7 else 0 := by
  by_cases hzero : v = 0
  · subst hzero
    rfl
  rw [if_neg hzero]
  by_cases htrampoline : v = trampolineVpn
  · subst htrampoline
    rfl
  rw [if_neg htrampoline]
  by_cases htrapframe : v = trapframeVpn
  · subst htrapframe
    rfl
  rw [if_neg htrapframe]
  unfold trampolineVpn at htrampoline
  unfold trapframeVpn at htrapframe
  have h₂ : (index 2 (v * pgSize) : ℕ) = v / 2 ^ 18 % 512 := by
    refine (px_eq 2 (v * pgSize)).trans ?_
    unfold pgSize
    omega
  have h₁ : (index 1 (v * pgSize) : ℕ) = v / 2 ^ 9 % 512 := by
    refine (px_eq 1 (v * pgSize)).trans ?_
    unfold pgSize
    omega
  have h₀ : (index 0 (v * pgSize) : ℕ) = v % 512 := by
    refine (px_eq 0 (v * pgSize)).trans ?_
    unfold pgSize
    omega
  have hleaf (e : ℕ) (is : List (Fin 512)) : get coding (.leaf e : Tree 512 ℕ 0) is = e := rfl
  simp only [firstMap, path, rootEntries, userMiddle, trapMiddle, userEntries, trapEntries,
    get_sparse_cons, get_sparse_nil, hleaf, Fin.ext_iff, Fin.coe_ofNat_eq_mod, h₀, h₁, h₂,
    Nat.reduceAdd]
  split_ifs <;> omega

theorem firstProcess_shape : Shape smallKernel firstMap 1 0x87ffa where
  user w hw := by
    obtain rfl : w = 0 := by omega
    exact ⟨by decide, by decide⟩
  trampoline := rfl
  trapframe := rfl
  rest w hw hlt h₁ h₂ := by rw [firstMap_eq hlt, if_neg (by omega), if_neg h₁, if_neg h₂]

theorem freeFrom_chain {n : ℕ} (hn : n ≤ 15) :
    Chain firstProcess.page ((0x87fe8 + n) * pgSize) (freeFrom n) := by
  induction n with
  | zero => exact ⟨rfl, getField_zero _ _⟩
  | succ n ih =>
    have hpage : firstProcess.page (0x87fe8 + (n + 1)) =
        putField (fun _ => 0) 0 ((0x87fe8 + n) * pgSize) 8 := by
      simp only [firstProcess]
      repeat rw [if_neg (by omega)]
      rw [if_pos (by omega)]
      rfl
    have hlt : (0x87fe8 + n) * pgSize < 256 ^ 8 := by
      unfold pgSize
      omega
    refine ⟨rfl, ?_⟩
    rw [hpage, getField_putField_self _ _ _ _ (by decide), Nat.mod_eq_of_lt hlt]
    exact ih (by omega)

theorem firstProcess_heap :
    Heap smallKernel firstProcess firstFree
      (firstPages + userPages firstMap 0 1 + {0x87ffa, 0x87ff8}) := by
  have hpages : firstPages + userPages firstMap 0 1 + {0x87ffa, 0x87ff8} =
      {0x87fff, 0x87ffe, 0x87ffd, 0x87ffc, 0x87ffb, 0x87ff9, 0x87ffa, 0x87ff8} := by decide
  rw [hpages]
  refine ⟨freeFrom_chain (n := 15) le_rfl, by decide, fun p hp => ?_, by decide, by decide⟩
  have hrange : ∀ p ∈ (↑firstFree : Multiset ℕ) +
      {0x87fff, 0x87ffe, 0x87ffd, 0x87ffc, 0x87ffb, 0x87ff9, 0x87ffa, 0x87ff8},
      smallKernel.first ≤ p ∧ p < physTop := by decide
  exact hrange p hp

theorem firstProcess_blank : Table firstProcess 0x87ff8 (fun _ => 0) {0x87ff8} := by
  refine ⟨sparse [], ⟨rep_sparse rfl (by simp), fun p _ i => rfl⟩, ?_, fun v _ => ?_⟩
  · exact pages_node_blank (k := coding) _
  · exact get_node_blank _ _

theorem initproc_live :
    Live smallKernel firstProcess initproc 0x87ffa 0x87fff firstMap firstPages :=
  ⟨rfl, rfl, firstProcess_table, firstProcess_shape⟩

end Xv6.Vm
