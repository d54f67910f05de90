import Xv6.PageTables
import Xv6.PhysicalPages
import Xv6.RadixTables

/-!
# Page tables as maps

A page table in memory is a radix table of three levels, and stands for the map from page
numbers to the entries at its lowest level. The functions of `vm.c` that work on page tables
are described by what they do to the map and to the pages that hold the table.
-/

namespace Xv6.Vm
open Function

open OperationPrograms LittleEndianBlocks RadixTables

variable {m : Machine} {deny : ℕ → Bool} {F : Panic → Prop} {s s' s'' : Kernel}
  {l l' l'' : List ℕ} {A A' R : Multiset ℕ}

/-! ### Entries -/

def pte (p flags : ℕ) : ℕ := p * 1024 + flags

theorem pa2pte_page (p : ℕ) : pa2pte (p * pgSize) = p * 1024 := by
  rw [pa2pte, Nat.shiftRight_eq_div_pow, Nat.shiftLeft_eq]
  unfold pgSize
  omega

theorem pa2pte_or (p : ℕ) {f : ℕ} (hf : f < 1024) : pa2pte (p * pgSize) ||| f = pte p f := by
  have h := Nat.shiftLeft_add_eq_or_of_lt (i := 10) hf p
  rw [Nat.shiftLeft_eq] at h
  rw [pa2pte_page]
  exact h.symm

theorem pte2pa_pte {p f : ℕ} (hp : p < 2 ^ 52) (hf : f < 1024) : pte2pa (pte p f) = p * pgSize := by
  rw [pte2pa, pte, Nat.shiftRight_eq_div_pow, Nat.shiftLeft_eq]
  unfold pgSize
  omega

theorem pte_and {p f c : ℕ} (hf : f < 1024) (hc : c < 1024) : pte p f &&& c = f &&& c := by
  have hmask : c = 1023 &&& c := by
    rw [Nat.and_comm, Nat.and_two_pow_sub_one_eq_mod c 10, Nat.mod_eq_of_lt hc]
  have hmod : pte p f &&& 1023 = f := by
    rw [Nat.and_two_pow_sub_one_eq_mod _ 10, pte]
    omega
  rw [hmask, ← Nat.and_assoc, hmod, ← Nat.and_assoc, Nat.and_two_pow_sub_one_eq_mod f 10,
    Nat.mod_eq_of_lt hf]

theorem pteFlags_pte {p f : ℕ} (hf : f < 1024) : pteFlags (pte p f) = f := by
  rw [pteFlags, pte_and hf (by decide), Nat.and_two_pow_sub_one_eq_mod f 10, Nat.mod_eq_of_lt hf]

theorem pte_lt {p f : ℕ} (hp : p < 2 ^ 52) (hf : f < 1024) : pte p f < 256 ^ 8 := by
  rw [pte]
  omega

/-! ### Indices -/

theorem px_eq (level va : ℕ) : px level va = va / 2 ^ (12 + 9 * level) % 512 := by
  rw [px, Nat.shiftRight_eq_div_pow]
  exact Nat.and_two_pow_sub_one_eq_mod _ 9

theorem px_lt (level va : ℕ) : px level va < 512 := by
  rw [px_eq]
  exact Nat.mod_lt _ (by decide)

def index (level va : ℕ) : Fin 512 := ⟨px level va, px_lt level va⟩

def path : (level va : ℕ) → List (Fin 512)
  | 0, va => [index 0 va]
  | level + 1, va => index (level + 1) va :: path level va

@[simp] theorem length_path (level va : ℕ) : (path level va).length = level + 1 := by
  induction level with
  | zero => rfl
  | succ level ih => rw [path, List.length_cons, ih]

theorem path_page (va : ℕ) : path 2 (va / pgSize * pgSize) = path 2 va := by
  simp only [path, index, px_eq, List.cons.injEq, Fin.mk.injEq, and_true]
  unfold pgSize
  omega

theorem path_inj {v w : ℕ} (hv : v < 2 ^ 27) (hw : w < 2 ^ 27)
    (h : path 2 (v * pgSize) = path 2 (w * pgSize)) : v = w := by
  simp only [path, index, px_eq, List.cons.injEq, Fin.mk.injEq, and_true] at h
  unfold pgSize at h
  omega

theorem exists_path (is : List (Fin 512)) (h : is.length = 3) :
    ∃ v < 2 ^ 27, path 2 (v * pgSize) = is := by
  match is, h with
  | [i, j, k], _ =>
    refine ⟨i * 512 ^ 2 + j * 512 + k, by omega, ?_⟩
    simp only [path, index, px_eq, List.cons.injEq, Fin.ext_iff, and_true]
    unfold pgSize
    omega

/-! ### Trees in memory -/

def coding : Coding ℕ := ⟨0, fun p => pte p pteV⟩

def view (page : ℕ → Bytes pgSize) (p : ℕ) (i : Fin 512) : ℕ := getField (page p) (8 * i) 8

structure Stored {n : ℕ} (s : Kernel) (t : Tree 512 ℕ n) (e : ℕ) : Prop where
  rep : t.Rep coding (view s.page) e
  init : ∀ p ∈ t.pages, Init s p

open Tree

theorem view_congr {page page' : ℕ → Bytes pgSize} {p : ℕ} (h : page' p = page p) :
    view page' p = view page p := by
  funext i
  rw [view, view, h]

theorem Stored.frame {n : ℕ} {t : Tree 512 ℕ n} {e : ℕ} (h : Stored s t e)
    (hsame : ∀ p ∈ t.pages, SamePage s s' p) : Stored s' t e where
  rep := h.rep.frame fun p hp => view_congr (hsame p hp).page
  init p hp i := by
    rw [(hsame p hp).stale]
    exact h.init p hp i

theorem Stored.replace {n root e : ℕ} {child : Fin 512 → Tree 512 ℕ n} {i : Fin 512}
    {c : Tree 512 ℕ n} (h : Stored s (.node root child) e)
    (hc : Stored s' c (view s'.page root i)) (hroot : Init s' root)
    (hview : ∀ j, j ≠ i → view s'.page root j = view s.page root j)
    (hsame : ∀ j, j ≠ i → ∀ p ∈ (child j).pages, SamePage s s' p) :
    Stored s' (.node root (update child i c)) e where
  rep := h.rep.update hc.rep hview fun j hj p hp => view_congr (hsame j hj p hp).page
  init p hp := by
    obtain rfl | ⟨j, hp⟩ := mem_pages_node.mp hp
    · exact hroot
    · by_cases hj : j = i
      · subst hj
        rw [update_self] at hp
        exact hc.init p hp
      · rw [update_of_ne hj] at hp
        intro k
        rw [(hsame j hj p hp).stale]
        exact h.init p (mem_pages_node.mpr (.inr ⟨j, hp⟩)) k

theorem Stored.graft {n root e : ℕ} {child : Fin 512 → Tree 512 ℕ n} {i : Fin 512}
    {c : Tree 512 ℕ n} (h : Stored s (.node root child) e)
    (hheap : Heap m s l (pages (.node root child)))
    (hmove : Moves m s l (pages (child i)) s' l' (pages c))
    (hc : Stored s' c (view s.page root i)) :
    Moves m s l (pages (.node root child)) s' l' (pages (.node root (update child i c))) ∧
      Stored s' (.node root (update child i c)) e := by
  have hnodup : (pages (.node root child)).Nodup :=
    Multiset.nodup_of_le (Multiset.le_add_left _ _) hheap.nodup
  rw [pages_eq_beside root child i] at hheap ⊢
  have hkeeps := hmove.keeps hheap
  have hroot := hkeeps root (page_mem_beside hnodup)
  have hview : view s'.page root = view s.page root := view_congr hroot.page
  refine ⟨pages_update_beside root child i c ▸ hmove.add hheap, h.replace ?_ ?_ ?_ ?_⟩
  · rwa [hview]
  · intro k
    rw [hroot.stale]
    exact h.init root (mem_pages_node.mpr (.inl rfl)) k
  · exact fun j _ => by rw [hview]
  · exact fun j hj p hp => hkeeps p (child_mem_beside hnodup hj hp)

theorem view_store {p : ℕ} (i : Fin 512) {w : ℕ} (g : ℕ → Bool) (hw : w < 256 ^ 8) :
    view (s.write p (putField (s.page p) (8 * i) w 8) g).page =
      Tree.write (view s.page) p i w := by
  funext q j
  by_cases hq : q = p
  · subst hq
    simp only [view, Kernel.write, Tree.write, update_self]
    by_cases hj : j = i
    · subst hj
      rw [update_self, getField_putField_self _ _ _ _ (by unfold pgSize; omega),
        Nat.mod_eq_of_lt hw]
    · rw [update_of_ne hj, getField_putField_disjoint _ _ _ _ (by omega)]
      rfl
  · simp [view, Kernel.write, Tree.write, hq]

theorem view_clear {p : ℕ} (g : ℕ → Bool) (i : Fin 512) :
    view (s.write p (fun _ => 0) g).page p i = 0 := by
  simp [view, Kernel.write, getField_zero]

/-! ### Walking -/

theorem load_entry {Q : ℕ → Kernel → Prop} {root : ℕ} {i : Fin 512} (hp : m.InPool root)
    (hinit : Init s root) (hQ : Q (view s.page root i) s) :
    Ensures m deny F (load (entry (root * pgSize) i) 8) Q s :=
  load_spec hp (fun j _ _ => hinit j) (by unfold pgSize; omega) (by unfold pgSize; omega) hQ

variable {Q : Unit → Kernel → Prop}

theorem store_entry {root w : ℕ} {i : Fin 512} (hp : m.InPool root)
    (hQ : ∀ g, Q () (s.write root (putField (s.page root) (8 * i) w 8) g)) :
    Ensures m deny F (store (entry (root * pgSize) i) w 8) Q s :=
  store_spec hp (by unfold pgSize; omega) (by unfold pgSize; omega) (hQ _)

theorem ptr_and_pteV (p : ℕ) : coding.ptr p &&& pteV ≠ 0 := by
  rw [coding, pte_and (by decide) (by decide)]
  decide

theorem pte2pa_ptr {p : ℕ} (hp : m.InPool p) : pte2pa (coding.ptr p) = p * pgSize :=
  pte2pa_pte (hp.2.trans (by decide)) (by decide)

/-- What `walk` returns for the entry at the end of a path. -/
def slotAddr : Option (ℕ × Fin 512) → ℕ
  | none => 0
  | some (p, i) => entry (p * pgSize) i

theorem walkFrom_lookup {Q : ℕ → Kernel → Prop} {va n root e : ℕ}
    {child : Fin 512 → Tree 512 ℕ n} (h : Stored s (.node root child) e)
    (hpool : ∀ p ∈ pages (.node root child), m.InPool p)
    (hQ : Q (slotAddr (slot (.node root child) (path n va))) s) :
    Ensures m deny F (walkFrom va false n (root * pgSize)) Q s := by
  induction n generalizing root e with
  | zero =>
    rw [walkFrom, ensures_pure]
    exact hQ
  | succ n ih =>
    have hroot : root ∈ pages (.node root child) := mem_pages_node.mpr (.inl rfl)
    have hrep := h.rep.2 (index (n + 1) va)
    have hsub (p : ℕ) (hp : p ∈ pages (child (index (n + 1) va))) :
        p ∈ pages (.node root child) := mem_pages_node.mpr (.inr ⟨_, hp⟩)
    rw [walkFrom, ensures_bind]
    refine load_entry (i := index (n + 1) va) (hpool root hroot) (h.init root hroot) ?_
    cases hc : child (index (n + 1) va) with
    | empty =>
      rw [hc] at hrep
      have hzero : view s.page root (index (n + 1) va) = 0 := hrep
      have hslot : slot (.node root child) (path (n + 1) va) = none := by
        rw [path, slot, hc, slot]
      rw [hslot] at hQ
      simpa [hzero, slotAddr] using hQ
    | node page grandchild =>
      rw [hc] at hrep hsub
      have hpage : m.InPool page := hpool page (hsub page (mem_pages_node.mpr (.inl rfl)))
      have hptr : view s.page root (index (n + 1) va) = coding.ptr page := hrep.1
      rw [hptr, if_pos (ptr_and_pteV page), pte2pa_ptr hpage]
      have hslot : slot (.node root child) (path (n + 1) va) =
          slot (.node page grandchild) (path n va) := by
        rw [path, slot, hc]
      exact ih ⟨hrep, fun p hp => h.init p (hsub p hp)⟩ (fun p hp => hpool p (hsub p hp))
        (hslot ▸ hQ)

theorem Stored.extend {n root e p : ℕ} {child : Fin 512 → Tree 512 ℕ (n + 1)} {i : Fin 512}
    {g g' : ℕ → Bool} (h : Stored s (.node root child) e)
    (hnodup : (pages (.node root child)).Nodup) (hnew : p ∉ pages (.node root child))
    (hp : m.InPool p) (hg : ∀ i, g i = true) :
    Stored ((s.write p (fun _ => 0) g).write root
        (putField ((s.write p (fun _ => 0) g).page root) (8 * i) (coding.ptr p) 8) g')
      (.node root (update child i (.node p fun _ => blank coding n))) e := by
  have hroot : root ∈ pages (.node root child) := mem_pages_node.mpr (.inl rfl)
  have hne : root ≠ p := fun heq => hnew (heq ▸ hroot)
  have hptr : coding.ptr p < 256 ^ 8 := pte_lt (hp.2.trans (by decide)) (by decide)
  have hinit : Init (s.write p (fun _ => 0) g) p := fun k => by simp [Kernel.write, hg]
  have hview := view_store (s := s.write p (fun _ => 0) g) (p := root) i g' hptr
  refine h.replace ⟨⟨?_, fun j => ?_⟩, fun q hq => ?_⟩ ?_ (fun j hj => ?_) fun j hj q hq => ?_
  · rw [hview, write_self]
  · rw [hview, write_of_ne _ _ _ hne.symm, view_clear]
    exact rep_blank _
  · obtain rfl | ⟨j, hq⟩ := mem_pages_node.mp hq
    · exact hinit.write
    · simp at hq
  · exact (Init.write (h.init root hroot)).write
  · rw [hview]
    simp [Tree.write, view, Kernel.write, hj, hne]
  · have hqp : q ≠ p := fun heq => hnew (heq ▸ mem_pages_node.mpr (.inr ⟨j, hq⟩))
    have hqr : q ≠ root := fun heq => page_notMem_child hnodup j (heq ▸ hq)
    exact ⟨by simp [Kernel.write, hqp, hqr], rfl, by simp [Kernel.write, hqp, hqr]⟩

structure Grown {n : ℕ} (m : Machine) (s : Kernel) (l : List ℕ) (t : Tree 512 ℕ n) (e : ℕ)
    (s' : Kernel) (l' : List ℕ) (t' : Tree 512 ℕ n) : Prop where
  moves : Moves m s l t.pages s' l' t'.pages
  stored : Stored s' t' e
  values : ∀ is, t'.get coding is = t.get coding is

theorem Grown.trans {n e : ℕ} {t t' t'' : Tree 512 ℕ n} (h : Grown m s l t e s' l' t')
    (h' : Grown m s' l' t' e s'' l'' t'') : Grown m s l t e s'' l'' t'' :=
  ⟨h.moves.trans h'.moves, h'.stored, fun is => (h'.values is).trans (h.values is)⟩

theorem Grown.graft {n root e : ℕ} {child : Fin 512 → Tree 512 ℕ n} {i : Fin 512}
    {c : Tree 512 ℕ n} (h : Stored s (.node root child) e)
    (hheap : Heap m s l (pages (.node root child)))
    (hc : Grown m s l (child i) (view s.page root i) s' l' c) :
    Grown m s l (.node root child) e s' l' (.node root (update child i c)) := by
  obtain ⟨hmoves, hstored⟩ := h.graft hheap hc.moves hc.stored
  refine ⟨hmoves, hstored, fun is => ?_⟩
  match is with
  | [] => rfl
  | j :: is =>
    rw [RadixTables.Tree.get, RadixTables.Tree.get]
    by_cases hj : j = i
    · subst hj
      rw [update_self, hc.values]
    · rw [update_of_ne hj]

theorem Grown.extend {n root e p : ℕ} {child : Fin 512 → Tree 512 ℕ (n + 1)} {i : Fin 512}
    {g g' : ℕ → Bool} (h : Stored s (.node root child) e) (hempty : child i = .empty)
    (hheap : Heap m s l (pages (.node root child))) (hmove : Moves m s l 0 s' l' {p})
    (hg : ∀ i, g i = true) :
    Grown m s l (.node root child) e
      ((s'.write p (fun _ => 0) g).write root
        (putField ((s'.write p (fun _ => 0) g).page root) (8 * i) (coding.ptr p) 8) g') l'
      (.node root (update child i (.node p fun _ => blank coding n))) := by
  have hroot : root ∈ pages (.node root child) := mem_pages_node.mpr (.inl rfl)
  have hmoves := hmove.beside hheap
  have hnodup := Multiset.nodup_of_le (Multiset.le_add_left _ _) hmoves.heap.nodup
  rw [Multiset.singleton_add, Multiset.nodup_cons] at hnodup
  have hpages : pages (.node root (update child i (.node p fun _ => blank coding n))) =
      {p} + pages (.node root child) := by
    have hsum := pages_update root child i (.node p fun _ => blank coding n)
    rw [hempty, pages_empty, add_zero, pages_node_blank] at hsum
    rw [hsum, add_comm]
  refine ⟨?_, ?_, fun is => ?_⟩
  · have hclear := hmoves.heap.write (p := p) (by simp) (fun _ => 0) g
    rw [hpages]
    exact (hmoves.trans hclear).trans (hclear.heap.write (Multiset.mem_add.mpr (.inr hroot)) _ _)
  · exact (h.frame (hmove.keeps_beside hheap)).extend hnodup.2 hnodup.1
      (hmove.heap.pool p (by simp)) hg
  · match is with
    | [] => rfl
    | j :: is =>
      rw [RadixTables.Tree.get, RadixTables.Tree.get]
      by_cases hj : j = i
      · subst hj
        rw [update_self, hempty, get_node_blank]
        rfl
      · rw [update_of_ne hj]

theorem walkFrom_alloc {Q : ℕ → Kernel → Prop} {va n root e : ℕ}
    {child : Fin 512 → Tree 512 ℕ n} (hheap : Heap m s l (pages (.node root child)))
    (h : Stored s (.node root child) e)
    (hQ : ∀ s' l' (child' : Fin 512 → Tree 512 ℕ n) r,
      Grown m s l (.node root child) e s' l' (.node root child') →
      (r = 0 ∧ Refused deny s l s' ∨ ∃ p i, slot (.node root child') (path n va) = some (p, i) ∧
        r = entry (p * pgSize) i) → Q r s') :
    Ensures m deny F (walkFrom va true n (root * pgSize)) Q s := by
  induction n generalizing s l root e with
  | zero =>
    rw [walkFrom, ensures_pure]
    exact hQ s l child _ ⟨.refl hheap, h, fun _ => rfl⟩ (.inr ⟨root, index 0 va, rfl, rfl⟩)
  | succ n ih =>
    have hroot : root ∈ pages (.node root child) := mem_pages_node.mpr (.inl rfl)
    have hpool (p : ℕ) (hp : p ∈ pages (.node root child)) : m.InPool p :=
      hheap.pool p (Multiset.mem_add.mpr (.inr hp))
    -- the walk goes on below an entry that is not empty
    have hdown : ∀ {s₁ : Kernel} {l₁ : List ℕ} {child₁ : Fin 512 → Tree 512 ℕ (n + 1)} {page : ℕ}
        {below : Fin 512 → Tree 512 ℕ n}, child₁ (index (n + 1) va) = .node page below →
        Grown m s l (.node root child) e s₁ l₁ (.node root child₁) →
        Ensures m deny F (walkFrom va true n (page * pgSize)) Q s₁ := by
      intro s₁ l₁ child₁ page below hc hgrown
      have hheap₁ := hgrown.moves.heap
      have hchild : Stored s₁ (child₁ (index (n + 1) va))
          (view s₁.page root (index (n + 1) va)) :=
        ⟨hgrown.stored.rep.2 _, fun p hp =>
          hgrown.stored.init p (mem_pages_node.mpr (.inr ⟨_, hp⟩))⟩
      have hsub := hheap₁
      rw [pages_eq_beside root child₁ (index (n + 1) va)] at hsub
      rw [hc] at hchild
      refine ih (hc ▸ hsub.mono) hchild fun s' l' below' r hbelow hr => ?_
      rw [← hc] at hbelow
      refine hQ s' l' _ r (hgrown.trans (.graft hgrown.stored hheap₁ hbelow)) ?_
      rw [path, slot, update_self]
      exact hr.imp_left fun h => ⟨h.1, h.2.of_moves hgrown.moves⟩
    rw [walkFrom, ensures_bind]
    refine load_entry (i := index (n + 1) va) (hpool root hroot) (h.init root hroot) ?_
    have hrep := h.rep.2 (index (n + 1) va)
    cases hc : child (index (n + 1) va) with
    | node page below =>
      rw [hc] at hrep
      have hpage : m.InPool page :=
        hpool page (mem_pages_node.mpr (.inr ⟨_, hc ▸ mem_pages_node.mpr (.inl rfl)⟩))
      rw [show view s.page root (index (n + 1) va) = coding.ptr page from hrep.1,
        if_pos (ptr_and_pteV page), pte2pa_ptr hpage]
      exact hdown hc ⟨.refl hheap, h, fun _ => rfl⟩
    | empty =>
      rw [hc] at hrep
      rw [show view s.page root (index (n + 1) va) = 0 from hrep]
      simp only [Nat.zero_and, ne_eq, not_true_eq_false, if_false, Bool.not_true,
        Bool.false_eq_true, ensures_bind]
      refine kalloc_spec hheap.zero (fun s' hmove hrefused => ?_) (fun p l' s' hp hmove => ?_)
      · rw [if_pos rfl, ensures_pure]
        exact hQ s' l child 0 ⟨hmove.spared hheap, h.frame (hmove.keeps_beside hheap), fun _ => rfl⟩
          (.inl ⟨rfl, hrefused⟩)
      · rw [if_neg hp.addr_ne_zero, ensures_bind]
        refine memset_spec hp ?_
        rw [ensures_bind]
        refine store_entry (i := index (n + 1) va) (hpool root hroot) fun g => ?_
        rw [pa2pte_or p (by decide)]
        exact hdown (update_self ..) (.extend h hc hheap hmove fun _ => rfl)

/-! ### Tables -/

/-- The page table with its root in page `root` maps page numbers by `f`, and is held in the
pages `I`. -/
def Table (s : Kernel) (root : ℕ) (f : ℕ → ℕ) (I : Multiset ℕ) : Prop :=
  ∃ child : Fin 512 → Tree 512 ℕ 2, Stored s (.node root child) (coding.ptr root) ∧
    pages (.node root child) = I ∧
    ∀ v < 2 ^ 27, get coding (.node root child) (path 2 (v * pgSize)) = f v

/-- Beside that, `pa` is the address of the entry for page number `v`. -/
def EntryAt (s : Kernel) (root : ℕ) (f : ℕ → ℕ) (I : Multiset ℕ) (v pa : ℕ) : Prop :=
  ∃ (child : Fin 512 → Tree 512 ℕ 2) (p : ℕ) (i : Fin 512),
    Stored s (.node root child) (coding.ptr root) ∧ pages (.node root child) = I ∧
    (∀ v < 2 ^ 27, get coding (.node root child) (path 2 (v * pgSize)) = f v) ∧
    slot (.node root child) (path 2 (v * pgSize)) = some (p, i) ∧ pa = entry (p * pgSize) i

variable {root v pa w : ℕ} {f : ℕ → ℕ} {I : Multiset ℕ}

theorem Table.root_mem (h : Table s root f I) : root ∈ I := by
  obtain ⟨child, -, rfl, -⟩ := h
  exact mem_pages_node.mpr (.inl rfl)

theorem Table.frame (h : Table s root f I) (hsame : ∀ p ∈ I, SamePage s s' p) :
    Table s' root f I := by
  obtain ⟨child, hstored, rfl, hget⟩ := h
  exact ⟨child, hstored.frame hsame, rfl, hget⟩

theorem EntryAt.frame (h : EntryAt s root f I v pa) (hsame : ∀ p ∈ I, SamePage s s' p) :
    EntryAt s' root f I v pa := by
  obtain ⟨child, p, i, hstored, rfl, h⟩ := h
  exact ⟨child, p, i, hstored.frame hsame, rfl, h⟩

theorem EntryAt.load {Q : ℕ → Kernel → Prop} (hheap : Heap m s l I)
    (h : EntryAt s root f I v pa) (hv : v < 2 ^ 27) (hQ : Q (f v) s) :
    Ensures m deny F (load pa 8) Q s := by
  obtain ⟨child, p, i, hstored, rfl, hget, hslot, rfl⟩ := h
  have hp := slot_mem hslot
  refine load_entry (hheap.pool p (Multiset.mem_add.mpr (.inr hp))) (hstored.init p hp) ?_
  rwa [hstored.rep.view_slot hslot, hget v hv]

theorem EntryAt.store (hheap : Heap m s l I) (h : EntryAt s root f I v pa) (hv : v < 2 ^ 27)
    (hw : w < 256 ^ 8)
    (hQ : ∀ s', Moves m s l I s' l I → Table s' root (update f v w) I → Q () s') :
    Ensures m deny F (store pa w 8) Q s := by
  obtain ⟨child, p, i, hstored, rfl, hget, hslot, rfl⟩ := h
  have hp := slot_mem hslot
  have hnodup := Multiset.nodup_of_le (Multiset.le_add_left _ _) hheap.nodup
  refine store_entry (hheap.pool p (Multiset.mem_add.mpr (.inr hp))) fun g => ?_
  have hpages := pages_set (.node root child) (path 2 (v * pgSize)) w
  refine hQ _ (hheap.write hp _ _) ⟨update child (index 2 (v * pgSize))
    (set (child (index 2 (v * pgSize))) (path 1 (v * pgSize)) w), ⟨?_, fun q hq => ?_⟩, ?_,
    fun u hu => ?_⟩
  · rw [view_store i g hw]
    exact hstored.rep.set w hnodup hslot
  · exact Init.write (hstored.init q (hpages ▸ hq))
  · exact hpages
  · change get coding (set (.node root child) (path 2 (v * pgSize)) w) (path 2 (u * pgSize)) = _
    by_cases huv : u = v
    · subst huv
      rw [get_set_self w (by rw [hslot]; simp), update_self]
    · have hne : path 2 (u * pgSize) ≠ path 2 (v * pgSize) := fun heq => huv (path_inj hu hv heq)
      rw [get_set_ne w (by simp) (by simp) hne, hget u hu, update_of_ne huv]

theorem entry_ne_zero {p i : ℕ} (hp : m.InPool p) : entry (p * pgSize) i ≠ 0 := by
  have hpos : 0 < p * pgSize := Nat.mul_pos (Machine.inPool_pos hp) (by decide)
  exact (Nat.add_pos_left hpos _).ne'

theorem walk_lookup {Q : ℕ → Kernel → Prop} {va : ℕ} (hheap : Heap m s l I)
    (h : Table s root f I) (hva : va < maxVa) (hnone : f (va / pgSize) = 0 → Q 0 s)
    (hsome : ∀ pa, pa ≠ 0 → EntryAt s root f I (va / pgSize) pa → Q pa s) :
    Ensures m deny F (walk (root * pgSize) va false) Q s := by
  obtain ⟨child, hstored, rfl, hget⟩ := h
  have hpool (p : ℕ) (hp : p ∈ pages (.node root child)) : m.InPool p :=
    hheap.pool p (Multiset.mem_add.mpr (.inr hp))
  rw [walk, if_neg (by omega)]
  refine walkFrom_lookup hstored hpool ?_
  cases hslot : slot (.node root child) (path 2 va) with
  | none =>
    have hv : va / pgSize < 2 ^ 27 := by
      unfold maxVa at hva
      unfold pgSize
      omega
    refine hnone ?_
    rw [← hget _ hv, path_page]
    exact get_eq_zero_of_slot hslot (by simp)
  | some pi =>
    refine hsome _ (entry_ne_zero (hpool _ (slot_mem hslot)))
      ⟨child, pi.1, pi.2, hstored, rfl, hget, ?_, rfl⟩
    rw [path_page, hslot]

theorem walk_alloc {Q : ℕ → Kernel → Prop} {va : ℕ} (hheap : Heap m s l I)
    (h : Table s root f I) (hva : va < maxVa)
    (hnone : ∀ s' l' I', Moves m s l I s' l' I' → Table s' root f I' → Refused deny s l s' → Q 0 s')
    (hsome : ∀ s' l' I' pa, Moves m s l I s' l' I' → pa ≠ 0 →
      EntryAt s' root f I' (va / pgSize) pa → Q pa s') :
    Ensures m deny F (walk (root * pgSize) va true) Q s := by
  obtain ⟨child, hstored, rfl, hget⟩ := h
  rw [walk, if_neg (by omega)]
  refine walkFrom_alloc hheap hstored fun s' l' child' r hgrown hr => ?_
  have hget' (v : ℕ) (hv : v < 2 ^ 27) :
      get coding (.node root child') (path 2 (v * pgSize)) = f v :=
    (hgrown.values _).trans (hget v hv)
  obtain ⟨rfl, hrefused⟩ | ⟨p, i, hslot, rfl⟩ := hr
  · exact hnone s' l' _ hgrown.moves ⟨child', hgrown.stored, rfl, hget'⟩ hrefused
  · have hp : m.InPool p :=
      hgrown.moves.heap.pool p (Multiset.mem_add.mpr (.inr (slot_mem hslot)))
    exact hsome s' l' _ _ hgrown.moves (entry_ne_zero hp)
      ⟨child', p, i, hgrown.stored, rfl, hget', by rw [path_page, hslot], rfl⟩

/-! ### Mapping and unmapping -/

/-- The map `f` with `k` pages from `v` on mapped to the pages from `p` on. -/
def mapped (f : ℕ → ℕ) (v k p perm : ℕ) (w : ℕ) : ℕ :=
  if v ≤ w ∧ w < v + k then pte (p + (w - v)) (perm ||| pteV) else f w

def unmapped (f : ℕ → ℕ) (v k : ℕ) (w : ℕ) : ℕ := if v ≤ w ∧ w < v + k then 0 else f w

theorem mapped_zero (f : ℕ → ℕ) (v p perm : ℕ) : mapped f v 0 p perm = f := by
  funext w
  rw [mapped, if_neg (by omega)]

theorem mapped_succ (f : ℕ → ℕ) (v k p perm : ℕ) :
    mapped (update f v (pte p (perm ||| pteV))) (v + 1) k (p + 1) perm =
      mapped f v (k + 1) p perm := by
  funext w
  by_cases hw : w = v
  · subst hw
    simp [mapped]
  · by_cases hin : v + 1 ≤ w ∧ w < v + 1 + k
    · rw [mapped, mapped, if_pos hin, if_pos (by omega), show p + 1 + (w - (v + 1)) = p + (w - v) by
        omega]
    · rw [mapped, mapped, if_neg hin, if_neg (by omega), update_of_ne hw]

theorem unmapped_zero (f : ℕ → ℕ) (v : ℕ) : unmapped f v 0 = f := by
  funext w
  rw [unmapped, if_neg (by omega)]

theorem unmapped_succ (f : ℕ → ℕ) (v k : ℕ) :
    unmapped (update f v 0) (v + 1) k = unmapped f v (k + 1) := by
  funext w
  by_cases hw : w = v
  · subst hw
    simp [unmapped]
  · by_cases hin : v + 1 ≤ w ∧ w < v + 1 + k
    · rw [unmapped, unmapped, if_pos hin, if_pos (by omega)]
    · rw [unmapped, unmapped, if_neg hin, if_neg (by omega), update_of_ne hw]

theorem next_page {v : ℕ} (hv : v < 2 ^ 51) :
    (v * pgSize + pgSize) % 2 ^ 64 = (v + 1) * pgSize := by
  unfold pgSize
  omega

theorem page_lt_maxVa {v : ℕ} (hv : v < 2 ^ 26) : v * pgSize < maxVa := by
  unfold maxVa pgSize
  omega

theorem mapFrom_spec {Q : Bool → Kernel → Prop} {k v p perm : ℕ} (hheap : Heap m s l I)
    (h : Table s root f I) (hfree : ∀ w, v ≤ w → w < v + k → f w &&& pteV = 0)
    (hv : v + k ≤ 2 ^ 26) (hp : p + k ≤ 2 ^ 51) (hperm : perm < 1024)
    (hQ : ∀ r s' l' I' j, Moves m s l I s' l' I' → Table s' root (mapped f v j p perm) I' →
      j ≤ k → (r = true ↔ j = k) → (r = false → Refused deny s l s') → Q r s') :
    Ensures m deny F (mapFrom (root * pgSize) perm k (v * pgSize) (p * pgSize)) Q s := by
  induction k generalizing s l I f v p with
  | zero =>
    rw [mapFrom, ensures_pure]
    refine hQ true s l I 0 (.refl hheap) ?_ le_rfl (by simp) nofun
    rwa [mapped_zero]
  | succ k ih =>
    have hflags : perm ||| pteV < 1024 := Nat.or_lt_two_pow (n := 10) hperm (by decide)
    rw [mapFrom, ensures_bind]
    refine walk_alloc hheap h (page_lt_maxVa (by omega)) (fun s' l' I' hmove htable hrefused => ?_)
      (fun s' l' I' pa hmove hpa hentry => ?_)
    · rw [if_pos rfl, ensures_pure]
      refine hQ false s' l' I' 0 hmove ?_ (by omega) (by simp) fun _ => hrefused
      rwa [mapped_zero]
    · rw [page_div] at hentry
      rw [if_neg hpa, ensures_bind]
      refine hentry.load hmove.heap (by omega) ?_
      rw [hfree v le_rfl (by omega), if_neg (by simp), ensures_bind, Nat.or_assoc,
        pa2pte_or p hflags]
      refine hentry.store hmove.heap (by omega) (pte_lt (by omega) hflags)
        fun s'' hmove' htable => ?_
      rw [next_page (by omega), next_page (by omega)]
      refine ih hmove'.heap htable (fun w hw hwk => ?_) (by omega) (by omega) ?_
      · rw [update_of_ne (by omega)]
        exact hfree w (by omega) (by omega)
      · intro r t l'' I'' j hmoves htable' hj hr hrefused
        rw [mapped_succ] at htable'
        exact hQ r t l'' I'' (j + 1) ((hmove.trans hmove').trans hmoves) htable' (by omega)
          (by rw [hr]; omega) fun h => (hrefused h).of_moves (hmove.trans hmove')

def ppn (e : ℕ) : ℕ := pte2pa e / pgSize

theorem pte2pa_eq (e : ℕ) : pte2pa e = ppn e * pgSize := by
  rw [ppn, pte2pa, Nat.shiftLeft_eq]
  unfold pgSize
  omega

theorem ppn_pte {p f : ℕ} (hp : p < 2 ^ 52) (hf : f < 1024) : ppn (pte p f) = p := by
  rw [ppn, pte2pa_pte hp hf, page_div]

/-- The pages that `k` entries from `v` on refer to, if they are to be freed. -/
def freed (doFree : Bool) (f : ℕ → ℕ) (v k : ℕ) : Multiset ℕ :=
  if doFree then ↑((List.range' v k).map fun w => ppn (f w)) else 0

theorem freed_congr {doFree : Bool} {f g : ℕ → ℕ} {v k : ℕ}
    (h : ∀ w, v ≤ w → w < v + k → g w = f w) : freed doFree g v k = freed doFree f v k := by
  have hmap : (List.range' v k).map (fun w => ppn (g w)) =
      (List.range' v k).map fun w => ppn (f w) := by
    refine List.map_congr_left fun w hw => ?_
    obtain ⟨h₁, h₂⟩ := List.mem_range'_1.mp hw
    rw [h w h₁ h₂]
  rw [freed, freed, hmap]

theorem freed_succ (f : ℕ → ℕ) (v k : ℕ) :
    freed true f v (k + 1) = {ppn (f v)} + freed true f (v + 1) k := by
  simp [freed, List.range'_succ, ← Multiset.cons_coe, Multiset.singleton_add]

theorem unmapFrom_append {doFree : Bool} {k n v : ℕ} (hheap : Heap m s l (I + freed doFree f v k))
    (h : Table s root f I)
    (hleaf : ∀ w, v ≤ w → w < v + k → f w &&& pteV ≠ 0 ∧ pteFlags (f w) ≠ pteV)
    (hv : v + k ≤ 2 ^ 26)
    (hQ : ∀ s' l', Moves m s l (I + freed doFree f v k) s' l' I →
      Table s' root (unmapped f v k) I →
      Ensures m deny F (unmapFrom (root * pgSize) doFree n ((v + k) * pgSize)) Q s') :
    Ensures m deny F (unmapFrom (root * pgSize) doFree (n + k) (v * pgSize)) Q s := by
  induction k generalizing s l f v with
  | zero =>
    have hfreed : freed doFree f v 0 = 0 := by simp [freed]
    rw [hfreed, add_zero] at hheap hQ
    refine hQ s l (.refl hheap) ?_
    rwa [unmapped_zero]
  | succ k ih =>
    obtain ⟨hvalid, hflags⟩ := hleaf v le_rfl (by omega)
    have hrest : freed doFree (update f v 0) (v + 1) k = freed doFree f (v + 1) k :=
      freed_congr fun w hw _ => update_of_ne (by omega) _ _
    -- the entry is cleared, and the loop goes on
    have hnext : ∀ {s₁ : Kernel} {l₁ : List ℕ} {pa : ℕ}, EntryAt s₁ root f I v pa →
        Moves m s l (I + freed doFree f v (k + 1)) s₁ l₁ (I + freed doFree f (v + 1) k) →
        Ensures m deny F (store pa 0 8) (fun _ => Ensures m deny F
          (unmapFrom (root * pgSize) doFree (n + k) ((v * pgSize + pgSize) % 2 ^ 64)) Q) s₁ := by
      intro s₁ l₁ pa hentry hmove
      refine hentry.store hmove.heap.mono (by omega) (by decide) fun s₂ hmove' htable => ?_
      have hmoves := hmove.trans (hmove'.add hmove.heap)
      rw [next_page (by omega)]
      rw [← hrest] at hmoves
      refine ih hmoves.heap htable (fun w hw hwk => ?_) (by omega) fun s' l' hmove'' htable' => ?_
      · rw [update_of_ne (by omega)]
        exact hleaf w (by omega) (by omega)
      · rw [unmapped_succ] at htable'
        have hnext := hQ s' l' (hmoves.trans hmove'') htable'
        rwa [← Nat.add_assoc, Nat.add_right_comm] at hnext
    rw [← Nat.add_assoc, unmapFrom, ensures_bind]
    refine walk_lookup hheap.mono h (page_lt_maxVa (by omega)) (fun hzero => ?_)
      (fun pa hpa hentry => ?_)
    · rw [page_div] at hzero
      exact absurd (by rw [hzero, Nat.zero_and]) hvalid
    · rw [page_div] at hentry
      rw [if_neg hpa, ensures_bind]
      refine hentry.load hheap.mono (by omega) ?_
      rw [if_neg hvalid, if_neg hflags]
      cases doFree with
      | false =>
        simp only [Bool.false_eq_true, if_false, ensures_bind]
        exact hnext hentry (Moves.refl hheap)
      | true =>
        have hpages : I + freed true f v (k + 1) =
            {ppn (f v)} + (I + freed true f (v + 1) k) := by
          rw [freed_succ]
          ac_rfl
        rw [hpages] at hheap
        simp only [if_true, ensures_bind, pte2pa_eq]
        refine kfree_spec hheap.mono fun s₁ hmove => ?_
        have hmoves := hmove.add hheap
        rw [zero_add, ← hpages] at hmoves
        rw [ensures_bind]
        exact hnext (hentry.frame fun p hp =>
          hmove.keeps hheap p (Multiset.mem_add.mpr (.inl hp))) hmoves

theorem unmapFrom_spec {doFree : Bool} {k v : ℕ} (hheap : Heap m s l (I + freed doFree f v k))
    (h : Table s root f I)
    (hleaf : ∀ w, v ≤ w → w < v + k → f w &&& pteV ≠ 0 ∧ pteFlags (f w) ≠ pteV)
    (hv : v + k ≤ 2 ^ 26)
    (hQ : ∀ s' l', Moves m s l (I + freed doFree f v k) s' l' I →
      Table s' root (unmapped f v k) I → Q () s') :
    Ensures m deny F (unmapFrom (root * pgSize) doFree k (v * pgSize)) Q s := by
  rw [← Nat.zero_add k]
  refine unmapFrom_append hheap h hleaf hv fun s' l' hmove htable => ?_
  rw [unmapFrom, ensures_pure]
  exact hQ s' l' hmove htable

theorem mappages_spec {Q : Bool → Kernel → Prop} {k v p perm : ℕ} (hheap : Heap m s l I)
    (h : Table s root f I) (hfree : ∀ w, v ≤ w → w < v + k → f w &&& pteV = 0) (hk : 0 < k)
    (hv : v + k ≤ 2 ^ 26) (hp : p + k ≤ 2 ^ 51) (hperm : perm < 1024)
    (hQ : ∀ r s' l' I' j, Moves m s l I s' l' I' → Table s' root (mapped f v j p perm) I' →
      j ≤ k → (r = true ↔ j = k) → (r = false → Refused deny s l s') → Q r s') :
    Ensures m deny F
      (mappages (root * pgSize) (v * pgSize) (k * pgSize) (p * pgSize) perm) Q s := by
  have hsize : k * pgSize ≠ 0 := Nat.mul_ne_zero hk.ne' (by decide)
  rw [mappages, if_neg (by simp), if_neg (by simp), if_neg hsize, page_div]
  exact mapFrom_spec hheap h hfree hv hp hperm hQ

theorem uvmunmap_spec {doFree : Bool} {k v : ℕ} (hheap : Heap m s l (I + freed doFree f v k))
    (h : Table s root f I)
    (hleaf : ∀ w, v ≤ w → w < v + k → f w &&& pteV ≠ 0 ∧ pteFlags (f w) ≠ pteV)
    (hv : v + k ≤ 2 ^ 26)
    (hQ : ∀ s' l', Moves m s l (I + freed doFree f v k) s' l' I →
      Table s' root (unmapped f v k) I → Q () s') :
    Ensures m deny F (uvmunmap (root * pgSize) (v * pgSize) k doFree) Q s := by
  have hk : ((v * pgSize + k * pgSize) % 2 ^ 64 - v * pgSize) / pgSize = k := by
    unfold pgSize
    omega
  rw [uvmunmap, if_neg (by simp), hk]
  exact unmapFrom_spec hheap h hleaf hv hQ

/-! ### New and freed tables -/

theorem uvmcreate_spec {Q : ℕ → Kernel → Prop} (hheap : Heap m s l 0)
    (hnone : ∀ s', Moves m s l 0 s' l 0 → Q 0 s')
    (hsome : ∀ root s' l', Moves m s l 0 s' l' {root} → Table s' root (fun _ => 0) {root} →
      Q (root * pgSize) s') :
    Ensures m deny F uvmcreate Q s := by
  rw [uvmcreate, ensures_bind]
  refine kalloc_spec hheap (fun s' hmove _ => ?_) (fun root l' s' hp hmove => ?_)
  · rw [if_pos rfl, ensures_pure]
    exact hnone s' hmove
  · rw [if_neg hp.addr_ne_zero, ensures_bind]
    refine memset_spec hp ?_
    rw [ensures_pure]
    refine hsome root _ l' (hmove.trans (hmove.heap.write (by simp) _ _)) ?_
    refine ⟨fun _ => blank coding 2, ⟨⟨rfl, fun i => ?_⟩, fun p hp => ?_⟩, ?_, fun v _ => ?_⟩
    · rw [view_clear]
      exact rep_blank _
    · rw [pages_node_blank, Multiset.mem_singleton] at hp
      subst hp
      intro i
      simp [Kernel.write]
    · exact pages_node_blank root
    · exact get_node_blank root _

/-- What is left of a table while `freewalk` is at work: the entries outside `is` are
cleared. -/
structure Freeing {n : ℕ} (m : Machine) (s : Kernel) (l : List ℕ) (root e : ℕ)
    (child : Fin 512 → Tree 512 ℕ n) (is : List (Fin 512)) (s' : Kernel) (l' : List ℕ)
    (child' : Fin 512 → Tree 512 ℕ n) : Prop where
  moves : Moves m s l (pages (.node root child)) s' l' (pages (.node root child'))
  stored : Stored s' (.node root child') e
  cleared : ∀ i, i ∉ is → child' i = blank coding n
  values : ∀ i js, js.length = n → get coding (child' i) js = 0

theorem Freeing.clear {n root e : ℕ} {child child' : Fin 512 → Tree 512 ℕ n} {i : Fin 512}
    {is : List (Fin 512)} {g : ℕ → Bool}
    (h : Freeing m s l root e child (i :: is) s' l' child')
    (hmove : Moves m s' l' (pages (child' i)) s'' l'' 0) :
    Freeing m s l root e child is
      (s''.write root (putField (s''.page root) (8 * i) 0 8) g) l''
      (update child' i (blank coding n)) := by
  have hheap := h.moves.heap
  have hnodup : (pages (.node root child')).Nodup :=
    Multiset.nodup_of_le (Multiset.le_add_left _ _) hheap.nodup
  have hpages := pages_eq_beside root child' i
  rw [hpages] at hheap
  have hkeeps := hmove.keeps hheap
  have hroot := hkeeps root (page_mem_beside hnodup)
  have hmoves := hmove.add hheap
  rw [← hpages, zero_add] at hmoves
  have hupdate : pages (.node root (update child' i (blank coding n))) =
      beside root child' i := by
    rw [pages_update_beside, pages_blank, zero_add]
  have hview := view_store (s := s'') (p := root) i g (w := 0) (by decide)
  refine ⟨?_, h.stored.replace ⟨?_, fun q hq => by simp at hq⟩ ?_ (fun j hj => ?_)
    fun j hj q hq => ?_, fun j hj => ?_, fun j js hjs => ?_⟩
  · rw [hupdate]
    exact (h.moves.trans hmoves).trans (hmoves.heap.write (page_mem_beside hnodup) _ _)
  · rw [hview, write_self]
    exact rep_blank _
  · refine Init.write fun k => ?_
    rw [hroot.stale]
    exact h.stored.init root (mem_pages_node.mpr (.inl rfl)) k
  · rw [hview, Tree.write, update_self, update_of_ne hj,
      view_congr hroot.page]
  · have hqr : q ≠ root := fun heq => page_notMem_child hnodup j (heq ▸ hq)
    refine (hkeeps q (child_mem_beside hnodup hj hq)).trans ⟨?_, rfl, ?_⟩
    · simp [Kernel.write, hqr]
    · simp [Kernel.write, hqr]
  · by_cases hji : j = i
    · subst hji
      exact update_self ..
    · rw [update_of_ne hji]
      exact h.cleared j (by simp [hji, hj])
  · by_cases hji : j = i
    · subst hji
      rw [update_self]
      exact get_blank js
    · rw [update_of_ne hji]
      exact h.values j js hjs

theorem Freeing.skip {n root e : ℕ} {child child' : Fin 512 → Tree 512 ℕ n} {i : Fin 512}
    {is : List (Fin 512)} (h : Freeing m s l root e child (i :: is) s' l' child')
    (hi : child' i = blank coding n) : Freeing m s l root e child is s' l' child' where
  moves := h.moves
  stored := h.stored
  cleared j hj := by
    by_cases hji : j = i
    · rw [hji, hi]
    · exact h.cleared j (by simp [hji, hj])
  values := h.values

theorem ptr_and_perms (p : ℕ) : coding.ptr p &&& (pteR ||| pteW ||| pteX) = 0 := by
  rw [coding, pte_and (by decide) (by decide)]
  decide

theorem Freeing.round {n root e : ℕ} {child child' : Fin 512 → Tree 512 ℕ n} {i : Fin 512}
    {is : List (Fin 512)} {free : ℕ → K Unit}
    (h : Freeing m s l root e child (i :: is) s' l' child')
    (hcase : child' i = blank coding n ∨ ∃ page, m.InPool page ∧
      view s'.page root i = coding.ptr page ∧ Ensures m deny F (free (page * pgSize))
        (fun _ s'' => ∃ l'', Moves m s' l' (pages (child' i)) s'' l'' 0) s') :
    Ensures m deny F (freewalkEntry free (root * pgSize) i)
      (fun _ s'' => ∃ l'' child'', Freeing m s l root e child is s'' l'' child'') s' := by
  have hmem : root ∈ pages (.node root child') := mem_pages_node.mpr (.inl rfl)
  have hroot : m.InPool root := h.moves.heap.pool root (Multiset.mem_add.mpr (.inr hmem))
  rw [freewalkEntry, ensures_bind]
  refine load_entry hroot (h.stored.init root hmem) ?_
  obtain hblank | ⟨page, hpage, hview, hfree⟩ := hcase
  · have hrep := h.stored.rep.2 i
    rw [hblank] at hrep
    have hzero : view s'.page root i = 0 := by cases n <;> exact hrep
    rw [hzero]
    simp only [Nat.zero_and, ne_eq, not_true_eq_false, false_and, if_false, ensures_pure]
    exact ⟨l', child', h.skip hblank⟩
  · rw [hview, if_pos ⟨ptr_and_pteV page, ptr_and_perms page⟩, ensures_bind, pte2pa_ptr hpage]
    refine hfree.mono fun _ s'' ⟨l'', hmove⟩ => store_entry hroot fun g => ?_
    exact ⟨l'', _, h.clear hmove⟩

theorem freewalk_of_rounds {n root e : ℕ} {child : Fin 512 → Tree 512 ℕ n}
    (hheap : Heap m s l (pages (.node root child))) (h : Stored s (.node root child) e)
    (hzero : ∀ i js, js.length = n → get coding (child i) js = 0)
    (hcase : ∀ (i : Fin 512) (is : List (Fin 512)) (s₁ : Kernel) (l₁ : List ℕ)
      (child₁ : Fin 512 → Tree 512 ℕ n), Freeing m s l root e child (i :: is) s₁ l₁ child₁ →
      child₁ i = blank coding n ∨ ∃ page, m.InPool page ∧
        view s₁.page root i = coding.ptr page ∧ Ensures m deny F (freewalk n (page * pgSize))
          (fun _ s₂ => ∃ l₂, Moves m s₁ l₁ (pages (child₁ i)) s₂ l₂ 0) s₁) :
    Ensures m deny F (freewalk (n + 1) (root * pgSize))
      (fun _ s' => ∃ l', Moves m s l (pages (.node root child)) s' l' 0) s := by
  have hmem : ∀ i : Fin 512, i ∈ List.finRange 512 := List.mem_finRange
  rw [freewalk, ensures_bind]
  generalize List.finRange 512 = is at hmem ⊢
  refine (ensures_forM
    (fun is s₁ => ∃ l₁ child₁, Freeing m s l root e child is s₁ l₁ child₁)
    (fun i is s₁ ⟨l₁, child₁, hf⟩ => hf.round (hcase i is s₁ l₁ child₁ hf))
    ⟨l, child, .refl hheap, h, fun i hi => absurd (hmem i) hi, hzero⟩).mono ?_
  rintro - s₁ ⟨l₁, child₁, hf⟩
  have hblank : child₁ = fun _ => blank coding n := funext fun i => hf.cleared i (by simp)
  subst hblank
  have hmoves := hf.moves
  rw [pages_node_blank] at hmoves
  exact kfree_spec hmoves.heap fun s' hmove => ⟨_, hmoves.trans hmove⟩

theorem freewalk_spec {n root e : ℕ} {child : Fin 512 → Tree 512 ℕ n}
    (hheap : Heap m s l (pages (.node root child))) (h : Stored s (.node root child) e)
    (hzero : ∀ i js, js.length = n → get coding (child i) js = 0) :
    Ensures m deny F (freewalk (n + 1) (root * pgSize))
      (fun _ s' => ∃ l', Moves m s l (pages (.node root child)) s' l' 0) s := by
  induction n generalizing s l root e with
  | zero =>
    apply freewalk_of_rounds hheap h hzero
    intro i is s₁ l₁ child₁ hf
    left
    have hvalue := hf.values i [] rfl
    cases hc : child₁ i with
    | leaf w =>
      rw [hc] at hvalue
      rw [show w = 0 from hvalue]
      rfl
  | succ n ih =>
    apply freewalk_of_rounds hheap h hzero
    intro i is s₁ l₁ child₁ hf
    cases hc : child₁ i with
    | empty => exact .inl rfl
    | node page below =>
      have hheap₁ := hf.moves.heap
      rw [pages_eq_beside root child₁ i, hc] at hheap₁
      have hrep := hf.stored.rep.2 i
      have hvalues := hf.values i
      rw [hc] at hrep hvalues
      have hinit (p : ℕ) (hp : p ∈ pages (.node page below)) : Init s₁ p :=
        hf.stored.init p (mem_pages_node.mpr (.inr ⟨i, hc ▸ hp⟩))
      have hpage : m.InPool page := hheap₁.pool page
        (Multiset.mem_add.mpr (.inr (Multiset.mem_add.mpr (.inl (mem_pages_node.mpr (.inl rfl))))))
      exact .inr ⟨page, hpage, hrep.1, ih hheap₁.mono ⟨hrep, hinit⟩
        fun j js hjs => hvalues (j :: js) (by rw [List.length_cons, hjs])⟩

theorem freewalk_table (hheap : Heap m s l I) (h : Table s root f I) (hzero : ∀ v < 2 ^ 27, f v = 0)
    (hQ : ∀ s' l', Moves m s l I s' l' 0 → Q () s') :
    Ensures m deny F (freewalk 3 (root * pgSize)) Q s := by
  obtain ⟨child, hstored, rfl, hget⟩ := h
  refine (freewalk_spec hheap hstored fun i js hjs => ?_).mono fun _ s' ⟨l', h⟩ => hQ s' l' h
  obtain ⟨v, hv, hpath⟩ := exists_path (i :: js) (by rw [List.length_cons, hjs])
  have hvalue := hget v hv
  rw [hpath, hzero v hv] at hvalue
  exact hvalue

end Xv6.Vm
