import Xv6.UserCopies

/-!
# System calls on descriptors

`sys_dup`, `sys_open` and `sys_pipe` of `sysfile.c` take entries of the file table, a page for
a pipe, and descriptors of the calling process, one after the other. When one of these or a
copy to the user fails, everything taken so far is given back.
-/

namespace Xv6.Vm
open Function

open OperationPrograms LittleEndianBlocks

/-- `sys_dup` with the check of the descriptor by `argfd`. -/
def sysDupArg (i : Pid) (fd : Int32) : K ℤ :=
  if h : 0 ≤ fd.toInt ∧ fd.toInt < nOFile then sysDup i ⟨fd.toInt.toNat, by omega⟩ else return -1

variable {m : Machine} {deny : ℕ → Bool} {F : Panic → Prop} {s s' : Kernel} {l l' : List ℕ}
  {A U R I : Multiset ℕ} {root : ℕ} {f : ℕ → ℕ} {i : Pid}

/-! ### Changes of the tables -/

def Kernel.setFile (s : Kernel) (x : Fin nFile) (g : File → File) : Kernel :=
  { s with tables :=
    { s.tables with file := update s.tables.file x (g (s.tables.file x)) } }

theorem ensures_getFile (x : Fin nFile) (Q : File → Kernel → Prop) :
    Ensures m deny F (getFile x) Q s ↔ Q (s.tables.file x) s := by
  rw [getFile, ensures_bind, ensures_tables, ensures_pure]

theorem ensures_setFile (x : Fin nFile) (g : File → File) (Q : Unit → Kernel → Prop) :
    Ensures m deny F (setFile x g) Q s ↔ Q () (s.setFile x g) := by
  rw [setFile, ensures_bind, ensures_tables, ensures_setTables]
  rfl

theorem UserTable.setTables (h : UserTable m s l U R I root f) (t : Tables) :
    UserTable m { s with tables := t } l U R I root f :=
  ⟨h.heap.setTables t, h.table.frame fun _ _ => ⟨rfl, rfl, rfl⟩, h.inner, h.reaches⟩

def Kernel.ofile (s : Kernel) (i : Pid) : Fin nOFile → Option (Fin nFile) := (s.tables.proc i).ofile

def Kernel.setOfile (s : Kernel) (i : Pid) (fd : Fin nOFile) (x : Option (Fin nFile)) : Kernel :=
  s.setProc i fun p => { p with ofile := update p.ofile fd x }

theorem ensures_setOfile (i : Pid) (fd : Fin nOFile) (x : Option (Fin nFile))
    (Q : Unit → Kernel → Prop) :
    Ensures m deny F (setOfile i fd x) Q s ↔ Q () (s.setOfile i fd x) := by
  rw [setOfile, ensures_setProc]
  rfl

@[simp] theorem setFile_file (s : Kernel) (x : Fin nFile) (g : File → File) :
    (s.setFile x g).tables.file = update s.tables.file x (g (s.tables.file x)) := rfl

@[simp] theorem setFile_proc (s : Kernel) (x : Fin nFile) (g : File → File) :
    (s.setFile x g).tables.proc = s.tables.proc := rfl

@[simp] theorem setOfile_file (s : Kernel) (i : Pid) (fd : Fin nOFile) (x : Option (Fin nFile)) :
    (s.setOfile i fd x).tables.file = s.tables.file := rfl

@[simp] theorem setOfile_ofile (s : Kernel) (i : Pid) (fd : Fin nOFile) (x : Option (Fin nFile)) :
    (s.setOfile i fd x).ofile i = update (s.ofile i) fd x := by
  simp [Kernel.ofile, Kernel.setOfile, Kernel.setProc]

/-! ### The functions -/

theorem filealloc_spec {Q : Option (Fin nFile) → Kernel → Prop} (hnone : Q none s)
    (hsome : ∀ x, (s.tables.file x).ref = 0 →
      Q (some x) (s.setFile x fun y => { y with ref := 1 })) :
    Ensures m deny F filealloc Q s := by
  rw [filealloc, ensures_bind, ensures_tables]
  cases hfind : (List.finRange nFile).find? fun x => (s.tables.file x).ref = 0 with
  | none =>
    rw [ensures_pure]
    exact hnone
  | some x =>
    rw [ensures_bind, ensures_setFile, ensures_pure]
    exact hsome x (by simpa using List.find?_some hfind)

theorem fdalloc_spec {Q : Option (Fin nOFile) → Kernel → Prop} {x : Fin nFile} (hnone : Q none s)
    (hsome : ∀ fd, s.ofile i fd = none → Q (some fd) (s.setOfile i fd (some x))) :
    Ensures m deny F (fdalloc i x) Q s := by
  rw [fdalloc, ensures_bind, ensures_getProc]
  cases hfind : freeFd (s.tables.proc i) with
  | none =>
    rw [ensures_pure]
    exact hnone
  | some fd =>
    rw [ensures_bind, ensures_setOfile, ensures_pure]
    have hfd : (s.tables.proc i).ofile fd = none := by simpa using List.find?_some hfind
    exact hsome fd hfd

def closed (x : File) : File := { x with ref := 0, type := .none }

variable {Q : Unit → Kernel → Prop}

theorem fileclose_last {x : Fin nFile} (href : (s.tables.file x).ref = 1)
    (hQ : if (s.tables.file x).type = .pipe then
        Ensures m deny F (pipeclose (s.tables.file x).pipe (s.tables.file x).writable) Q
          (s.setFile x closed)
      else Q () (s.setFile x closed)) :
    Ensures m deny F (fileclose x) Q s := by
  rw [fileclose, ensures_bind, ensures_getFile, href, if_neg (by decide), if_neg (by decide),
    ensures_bind, ensures_setFile]
  split
  · rwa [if_pos ‹_›] at hQ
  · rw [ensures_pure]
    rwa [if_neg ‹_›] at hQ

/-! ### The page of a pipe -/

structure PipeAt (s : Kernel) (p readopen writeopen : ℕ) : Prop where
  readopen : getField (s.page p) readopenOff 4 = readopen
  writeopen : getField (s.page p) writeopenOff 4 = writeopen
  known : ∀ j, readopenOff ≤ j → j < writeopenOff + 4 → s.stale p j = false

theorem PipeAt.frame {p ro wo : ℕ} (h : PipeAt s p ro wo) (hsame : SamePage s s' p) :
    PipeAt s' p ro wo := by
  obtain ⟨hro, hwo, hknown⟩ := h
  refine ⟨?_, ?_, ?_⟩
  · rw [hsame.page]
    exact hro
  · rw [hsame.page]
    exact hwo
  · rw [hsame.stale]
    exact hknown

theorem PipeAt.load {α : Type} {Q : α → Kernel → Prop} {p ro wo : ℕ} {next : ℕ → ℕ → K α}
    (h : PipeAt s p ro wo) (hp : m.InPool p) (hQ : Ensures m deny F (next ro wo) Q s) :
    Ensures m deny F (do
      let readopen ← Vm.load (p * pgSize + readopenOff) 4
      let writeopen ← Vm.load (p * pgSize + writeopenOff) 4
      next readopen writeopen) Q s := by
  rw [ensures_bind]
  refine load_spec hp (fun j hj hj' => h.known j hj ?_) (by decide) (by decide) ?_
  · unfold readopenOff at hj'
    unfold writeopenOff
    omega
  rw [h.readopen, ensures_bind]
  refine load_spec hp (fun j hj hj' => h.known j ?_ hj') (by decide) (by decide) ?_
  · unfold writeopenOff at hj
    unfold readopenOff
    omega
  rwa [h.writeopen]

def closeEnd (writable : Bool) (ro wo : ℕ) : ℕ × ℕ := if writable then (ro, 0) else (0, wo)

/-- `pipeclose` frees the page of the pipe with the second of its ends. -/
theorem pipeclose_spec {p ro wo : ℕ} {writable : Bool} (hheap : Heap m s l {p})
    (h : PipeAt s p ro wo)
    (hopen : ∀ s', closeEnd writable ro wo ≠ (0, 0) → Moves m s l {p} s' l {p} →
      PipeAt s' p (closeEnd writable ro wo).1 (closeEnd writable ro wo).2 → Q () s')
    (hfree : ∀ s', closeEnd writable ro wo = (0, 0) → Moves m s l {p} s' (p :: l) 0 → Q () s') :
    Ensures m deny F (pipeclose (p * pgSize) writable) Q s := by
  have hp : m.InPool p := hheap.pool p (by simp)
  have hclosed {s₁ : Kernel} (hmove : Moves m s l {p} s₁ l {p})
      (h₁ : PipeAt s₁ p (closeEnd writable ro wo).1 (closeEnd writable ro wo).2) :
      Ensures m deny F (do
        let readopen ← Vm.load (p * pgSize + readopenOff) 4
        let writeopen ← Vm.load (p * pgSize + writeopenOff) 4
        if readopen = 0 ∧ writeopen = 0 then kfree (p * pgSize) else pure ()) Q s₁ := by
    refine h₁.load hp ?_
    by_cases hzero : closeEnd writable ro wo = (0, 0)
    · rw [if_pos (by simp [hzero])]
      exact kfree_spec hmove.heap fun s₂ hmove' => hfree s₂ hzero (hmove.trans hmove')
    · rw [if_neg fun hboth => hzero (Prod.ext hboth.1 hboth.2), ensures_pure]
      exact hopen s₁ hzero hmove h₁
  rw [pipeclose, ensures_bind]
  cases writable with
  | true =>
    refine store_field hheap (by decide) (by decide) fun s₁ hmove hpage hstale =>
      hclosed hmove ⟨?_, ?_, fun j hj hj' => by rw [hstale, h.known j hj hj', Bool.false_and]⟩
    · rw [hpage, getField_putField_disjoint _ _ _ _ (.inl (by decide)), h.readopen]
      rfl
    · rw [hpage]
      exact getField_putField_self _ _ _ _ (by decide)
  | false =>
    refine store_field hheap (by decide) (by decide) fun s₁ hmove hpage hstale =>
      hclosed hmove ⟨?_, ?_, fun j hj hj' => by rw [hstale, h.known j hj hj', Bool.false_and]⟩
    · rw [hpage]
      exact getField_putField_self _ _ _ _ (by decide)
    · rw [hpage, getField_putField_disjoint _ _ _ _ (.inr (by decide)), h.writeopen]
      rfl

/-! ### Entries of the file table -/

def FilesOk (s : Kernel) : Prop := ∀ x, (s.tables.file x).ref = 0 → (s.tables.file x).type = .none

theorem FilesOk.setFile {x : Fin nFile} {g : File → File} (h : FilesOk s)
    (hg : (g (s.tables.file x)).ref = 0 → (g (s.tables.file x)).type = .none) :
    FilesOk (s.setFile x g) := by
  intro y hy
  rw [setFile_file] at hy ⊢
  by_cases hyx : y = x
  · subst hyx
    rw [update_self] at hy ⊢
    exact hg hy
  · rw [update_of_ne hyx] at hy ⊢
    exact h y hy

/-- Every entry of the file table has the references and the type that it had. -/
def SameFiles (s s' : Kernel) : Prop :=
  ∀ x, (s'.tables.file x).ref = (s.tables.file x).ref ∧
    (s'.tables.file x).type = (s.tables.file x).type

/-- The entries `xs` were free in `s`, and every other one has the references and the type that it
had. -/
structure SameBut (xs : List (Fin nFile)) (s s' : Kernel) : Prop where
  free : ∀ x ∈ xs, (s.tables.file x).ref = 0
  same : ∀ x ∉ xs, (s'.tables.file x).ref = (s.tables.file x).ref ∧
    (s'.tables.file x).type = (s.tables.file x).type

namespace SameBut

variable {xs : List (Fin nFile)} {x : Fin nFile}

theorem refl (s : Kernel) : SameBut [] s s := ⟨nofun, fun _ _ => ⟨rfl, rfl⟩⟩

theorem sameFiles (h : SameBut [] s s') : SameFiles s s' := fun x => h.same x List.not_mem_nil

theorem of_file {s₁ : Kernel} (h : SameBut xs s s₁) (hfile : s'.tables.file = s₁.tables.file) :
    SameBut xs s s' :=
  ⟨h.free, fun x hx => by rw [hfile]; exact h.same x hx⟩

theorem take (h : SameBut xs s s') (hx : x ∉ xs) (href : (s'.tables.file x).ref = 0)
    (g : File → File) : SameBut (x :: xs) s (s'.setFile x g) where
  free := List.forall_mem_cons.mpr ⟨(h.same x hx).1 ▸ href, h.free⟩
  same y hy := by
    rw [List.mem_cons, not_or] at hy
    rw [setFile_file, update_of_ne hy.1]
    exact h.same y hy.2

theorem change (h : SameBut xs s s') (hx : x ∈ xs) (g : File → File) :
    SameBut xs s (s'.setFile x g) where
  free := h.free
  same y hy := by
    rw [setFile_file, update_of_ne (ne_of_mem_of_not_mem hx hy).symm]
    exact h.same y hy

theorem swap {y : Fin nFile} (h : SameBut [x, y] s s') : SameBut [y, x] s s' :=
  ⟨fun z hz => h.free z (by simpa [or_comm] using hz),
    fun z hz => h.same z (by simpa [and_comm] using hz)⟩

theorem close (h : SameBut (x :: xs) s s') (hok : FilesOk s) :
    SameBut xs s (s'.setFile x closed) where
  free y hy := h.free y (List.mem_cons_of_mem x hy)
  same y hy := by
    rw [setFile_file]
    by_cases hyx : y = x
    · subst hyx
      have hfree := h.free y List.mem_cons_self
      rw [update_self, hfree, hok y hfree]
      exact ⟨rfl, rfl⟩
    · rw [update_of_ne hyx]
      exact h.same y (by simp [hyx, hy])

theorem filesOk (h : SameBut xs s s') (hok : FilesOk s)
    (hused : ∀ x ∈ xs, (s'.tables.file x).ref ≠ 0) : FilesOk s' := by
  intro x hx
  by_cases hmem : x ∈ xs
  · exact absurd hx (hused x hmem)
  · rw [(h.same x hmem).2]
    exact hok x ((h.same x hmem).1 ▸ hx)

end SameBut

theorem SameFiles.filesOk (h : SameFiles s s') (hok : FilesOk s) : FilesOk s' := by
  intro x hx
  rw [(h x).2]
  exact hok x ((h x).1 ▸ hx)

structure PipeFiles (s₀ : Kernel) (x0 x1 : Fin nFile) (p : ℕ) (s : Kernel) : Prop where
  ne : x0 ≠ x1
  but : SameBut [x0, x1] s₀ s
  read : s.tables.file x0 = ⟨.pipe, 1, true, false, p * pgSize⟩
  write : s.tables.file x1 = ⟨.pipe, 1, false, true, p * pgSize⟩

theorem PipeFiles.of_file {s₀ : Kernel} {x0 x1 : Fin nFile} {p : ℕ} (h : PipeFiles s₀ x0 x1 p s)
    (hfile : s'.tables.file = s.tables.file) : PipeFiles s₀ x0 x1 p s' :=
  ⟨h.ne, h.but.of_file hfile, hfile ▸ h.read, hfile ▸ h.write⟩

theorem PipeFiles.filesOk {s₀ : Kernel} {x0 x1 : Fin nFile} {p : ℕ} (h : PipeFiles s₀ x0 x1 p s)
    (hok : FilesOk s₀) : FilesOk s := by
  refine h.but.filesOk hok fun x hx => ?_
  obtain rfl | rfl := List.mem_pair.mp hx
  · simp [h.read]
  · simp [h.write]

theorem PipeFiles.close {Q : ℤ → Kernel → Prop} {s₀ : Kernel} {x0 x1 : Fin nFile} {p : ℕ}
    (h : PipeFiles s₀ x0 x1 p s) (hok : FilesOk s₀) (hheap : Heap m s l ({p} + A))
    (hpipe : PipeAt s p 1 1)
    (hQ : ∀ s', Heap m s' (p :: l) A → s'.tables.proc = s.tables.proc → SameFiles s₀ s' →
      Q (-1) s') :
    Ensures m deny F (do fileclose x0; fileclose x1; return -1) Q s := by
  have hwrite : (s.setFile x0 closed).tables.file x1 = ⟨.pipe, 1, false, true, p * pgSize⟩ := by
    rw [setFile_file, update_of_ne h.ne.symm, h.write]
  rw [ensures_bind]
  refine fileclose_last (by rw [h.read]) ?_
  rw [h.read, if_pos rfl]
  refine pipeclose_spec (hheap.mono.setTables _) (hpipe.frame ⟨rfl, rfl, rfl⟩)
    (fun s₁ _ hmove hpipe₁ => ?_) (fun s₁ hzero _ => absurd hzero (by simp [closeEnd]))
  have hheap₁ := hmove.add (hheap.setTables _)
  rw [ensures_bind]
  refine fileclose_last (by rw [hmove.tables, hwrite]) ?_
  rw [hmove.tables, hwrite, if_pos rfl]
  refine pipeclose_spec (hheap₁.heap.mono.setTables _) (hpipe₁.frame ⟨rfl, rfl, rfl⟩)
    (fun s₂ hne _ => absurd rfl hne) (fun s₂ _ hmove₂ => ?_)
  have hheap₂ := hmove₂.add (hheap₁.heap.setTables _)
  rw [zero_add] at hheap₂
  have hbut₁ : SameBut [x1] s₀ s₁ := (h.but.close hok).of_file (by rw [hmove.tables])
  have hbut₂ : SameBut [] s₀ s₂ := (hbut₁.close hok).of_file (by rw [hmove₂.tables])
  rw [ensures_pure]
  refine hQ s₂ hheap₂.heap ?_ hbut₂.sameFiles
  rw [hmove₂.tables, setFile_proc, hmove.tables, setFile_proc]

theorem fileclose_new {s₀ : Kernel} {x : Fin nFile} (hok : FilesOk s₀)
    (hfree : (s₀.tables.file x).ref = 0)
    (hfile : s.tables.file x = { s₀.tables.file x with ref := 1 })
    (hQ : Q () (s.setFile x closed)) : Ensures m deny F (fileclose x) Q s := by
  refine fileclose_last (by rw [hfile]) ?_
  rw [if_neg (by rw [hfile, hok x hfree]; decide)]
  exact hQ

theorem initPipe_spec {α : Type} {Q : α → Kernel → Prop} {p : ℕ} {next : K α}
    (hheap : Heap m s l {p})
    (hQ : ∀ s', Moves m s l {p} s' l {p} → PipeAt s' p 1 1 → Ensures m deny F next Q s') :
    Ensures m deny F (do
      store (p * pgSize + readopenOff) 1 4
      store (p * pgSize + writeopenOff) 1 4
      store (p * pgSize + nwriteOff) 0 4
      store (p * pgSize + nreadOff) 0 4
      next) Q s := by
  rw [ensures_bind]
  refine store_field hheap (by decide) (by decide) fun s₁ hmove₁ hpage₁ hstale₁ => ?_
  rw [ensures_bind]
  refine store_field hmove₁.heap (by decide) (by decide) fun s₂ hmove₂ hpage₂ hstale₂ => ?_
  rw [ensures_bind]
  refine store_field hmove₂.heap (by decide) (by decide) fun s₃ hmove₃ hpage₃ hstale₃ => ?_
  rw [ensures_bind]
  refine store_field hmove₃.heap (by decide) (by decide) fun s₄ hmove₄ hpage₄ hstale₄ => ?_
  refine hQ s₄ (((hmove₁.trans hmove₂).trans hmove₃).trans hmove₄) ⟨?_, ?_, fun j hj hj' => ?_⟩
  · rw [hpage₄, getField_putField_disjoint _ _ _ _ (.inr (by decide)), hpage₃,
      getField_putField_disjoint _ _ _ _ (.inr (by decide)), hpage₂,
      getField_putField_disjoint _ _ _ _ (.inl (by decide)), hpage₁]
    exact getField_putField_self _ _ _ _ (by decide)
  · rw [hpage₄, getField_putField_disjoint _ _ _ _ (.inr (by decide)), hpage₃,
      getField_putField_disjoint _ _ _ _ (.inr (by decide)), hpage₂]
    exact getField_putField_self _ _ _ _ (by decide)
  · -- both fields were stored
    have hcover : readopenOff ≤ j ∧ j < readopenOff + 4 ∨
        writeopenOff ≤ j ∧ j < writeopenOff + 4 := by
      unfold readopenOff writeopenOff at *
      omega
    rw [hstale₄, hstale₃, hstale₂, hstale₁]
    obtain hj | hj := hcover <;> simp [hj]

/-- `pipealloc` returns two files and a page, or gives everything back. -/
theorem pipealloc_spec {Q : Option (Fin nFile × Fin nFile) → Kernel → Prop} (hok : FilesOk s)
    (hheap : Heap m s l A)
    (hnone : ∀ s', Heap m s' l A → s'.tables.proc = s.tables.proc → SameFiles s s' → Q none s')
    (hsome : ∀ x0 x1 p l' s', PipeFiles s x0 x1 p s' → PipeAt s' p 1 1 → Heap m s' l' ({p} + A) →
      (↑l' + {p} : Multiset ℕ) = ↑l → (∀ q ∈ A, SamePage s s' q) →
      s'.tables.proc = s.tables.proc → Q (some (x0, x1)) s') :
    Ensures m deny F pipealloc Q s := by
  rw [pipealloc, ensures_bind]
  refine filealloc_spec ?_ fun x0 hx0 => ?_
  · rw [ensures_pure]
    exact hnone s hheap rfl (SameBut.refl s).sameFiles
  have hbut₁ := (SameBut.refl s).take List.not_mem_nil hx0 fun y => { y with ref := 1 }
  rw [ensures_bind]
  refine filealloc_spec ?_ fun x1 hx1 => ?_
  · rw [ensures_bind]
    refine fileclose_new hok hx0 (by rw [setFile_file, update_self]) ?_
    rw [ensures_pure]
    exact hnone _ ((hheap.setTables _).setTables _) rfl (hbut₁.close hok).sameFiles
  have hne : x0 ≠ x1 := by
    rintro rfl
    rw [setFile_file, update_self] at hx1
    cases hx1
  have hbut₂ := hbut₁.take (by simpa using hne.symm) hx1 fun y => { y with ref := 1 }
  rw [setFile_file, update_of_ne hne.symm] at hx1
  generalize hs₂ : (s.setFile x0 fun y => { y with ref := 1 }).setFile x1
    (fun y => { y with ref := 1 }) = s₂ at hbut₂ ⊢
  have hfile0 : s₂.tables.file x0 = { s.tables.file x0 with ref := 1 } := by
    rw [← hs₂, setFile_file, setFile_file, update_of_ne hne, update_self]
  have hfile1 : s₂.tables.file x1 = { s.tables.file x1 with ref := 1 } := by
    rw [← hs₂, setFile_file, setFile_file, update_self, update_of_ne hne.symm]
  have hproc : s₂.tables.proc = s.tables.proc := by rw [← hs₂, setFile_proc, setFile_proc]
  have hsame (q : ℕ) : SamePage s s₂ q := hs₂ ▸ ⟨rfl, rfl, rfl⟩
  have hheap₂ : Heap m s₂ l A := hs₂ ▸ (hheap.setTables _).setTables _
  rw [ensures_bind]
  refine kalloc_spec hheap₂.zero (fun s₃ hmove _ => ?_) fun p l₃ s₃ hp hmove => ?_
  · have hheap₃ := (hmove.spared hheap₂).heap
    have hbut₃ : SameBut [x1, x0] s s₃ := hbut₂.of_file (by rw [hmove.tables])
    rw [if_pos rfl, ensures_bind]
    refine fileclose_new hok hx0 (by rw [hmove.tables, hfile0]) ?_
    rw [ensures_bind]
    refine fileclose_new hok hx1 ?_ ?_
    · rw [setFile_file, update_of_ne hne.symm, hmove.tables, hfile1]
    · rw [ensures_pure]
      refine hnone _ ((hheap₃.setTables _).setTables _) ?_
        ((hbut₃.swap.close hok).close hok).sameFiles
      rw [setFile_proc, setFile_proc, hmove.tables, hproc]
  · have hmoves := hmove.beside hheap₂
    rw [if_neg hp.addr_ne_zero]
    refine initPipe_spec hmove.heap fun s₄ hmove₄ hpipe => ?_
    have htables : s₄.tables = s₂.tables := hmove₄.tables.trans hmove.tables
    rw [ensures_bind, ensures_setFile, ensures_bind, ensures_setFile, ensures_pure]
    have hbut₄ : SameBut [x0, x1] s s₄ := hbut₂.swap.of_file (by rw [htables])
    refine hsome x0 x1 p l₃ _ ⟨hne, (hbut₄.change (by simp) _).change (by simp) _, ?_, ?_⟩
      (hpipe.frame ⟨rfl, rfl, rfl⟩) (((hmove₄.add hmoves.heap).heap.setTables _).setTables _) ?_
      (fun q hq => ?_) ?_
    · rw [setFile_file, setFile_file, update_of_ne hne, update_self, htables, hfile0]
    · rw [setFile_file, setFile_file, update_self, update_of_ne hne.symm, htables, hfile1]
    · have hpages := hmove.pages
      rwa [add_zero] at hpages
    · have hkeep := ((hsame q).trans (hmove.keeps_beside hheap₂ q hq)).trans
        (hmove₄.keeps hmoves.heap q hq)
      exact ⟨hkeep.page, hkeep.taken, hkeep.stale⟩
    · rw [setFile_proc, setFile_proc, htables, hproc]

/-! ### The system calls -/

/-- A call of process `i` left the descriptors, the references and types of all files, and the
set of free pages as they were. The pages `A` are in use. -/
structure NoTrace (m : Machine) (i : Pid) (s : Kernel) (l : List ℕ) (A : Multiset ℕ)
    (s' : Kernel) : Prop where
  ofile : s'.ofile i = s.ofile i
  files : SameFiles s s'
  free : ∃ l', Heap m s' l' A ∧ (↑l' : Multiset ℕ) = ↑l

theorem Kernel.ofile_of_proc (h : s'.tables.proc = s.tables.proc) : s'.ofile i = s.ofile i := by
  rw [Kernel.ofile, h, ← Kernel.ofile]

theorem UserTable.copyout_fds {α : Type} {Q : α → Kernel → Prop} {fdarray : ℕ}
    {bs cs : List UInt8} {next : Bool → K α} (h : UserTable m s l U R I root f)
    (hQ : ∀ ok s', Moves m s l U s' l U → Ensures m deny F (next ok) Q s') :
    Ensures m deny F (do
      let ok ← copyout (root * pgSize) fdarray bs
      let ok ← if ok then copyout (root * pgSize) ((fdarray + 4) % 2 ^ 64) cs else pure false
      next ok) Q s := by
  rw [ensures_bind]
  refine h.copyout_moves fun ok s₁ hmove => ?_
  cases ok with
  | false =>
    simp only [Bool.false_eq_true, if_false, ensures_bind, ensures_pure]
    exact hQ false s₁ hmove
  | true =>
    simp only [if_true, ensures_bind]
    exact (h.of_moves hmove).copyout_moves fun ok s₂ hmove₂ => hQ ok s₂ (hmove.trans hmove₂)

/-- Wherever `sys_pipe` fails, it undoes what it has done. -/
theorem sysPipe_spec (h : UserTable m s l U R I root f)
    (hroot : (s.tables.proc i).pagetable = root * pgSize) (hok : FilesOk s) (fdarray : ℕ) :
    Ensures m deny F (sysPipe i fdarray)
      (fun r s' => FilesOk s' ∧ (r = -1 → NoTrace m i s l (U + R) s')) s := by
  rw [sysPipe, ensures_bind]
  refine pipealloc_spec hok h.heap (fun s₁ hheap hproc hfiles => ?_)
    fun rf wf p l₁ s₁ hfiles hpipe hheap hpages hsame hproc => ?_
  · rw [ensures_pure]
    exact ⟨hfiles.filesOk hok, fun _ => ⟨Kernel.ofile_of_proc hproc, hfiles, l, hheap, rfl⟩⟩
  have hfree : (↑(p :: l₁) : Multiset ℕ) = ↑l := by
    rw [← Multiset.cons_coe, ← hpages, ← Multiset.singleton_add, add_comm]
  have hofile : s₁.ofile i = s.ofile i := Kernel.ofile_of_proc hproc
  -- wherever the call fails, both files are closed
  have hclose {s₂ : Kernel} (hfile : s₂.tables.file = s₁.tables.file)
      (hheap₂ : Heap m s₂ l₁ ({p} + (U + R))) (hpipe₂ : PipeAt s₂ p 1 1)
      (hofile₂ : s₂.ofile i = s.ofile i) :
      Ensures m deny F (do fileclose rf; fileclose wf; return -1)
        (fun r s' => FilesOk s' ∧ (r = -1 → NoTrace m i s l (U + R) s')) s₂ := by
    refine (hfiles.of_file hfile).close hok hheap₂ hpipe₂ fun s₃ hheap₃ hproc₃ hsame₃ =>
      ⟨hsame₃.filesOk hok, fun _ => ⟨?_, hsame₃, _, hheap₃, hfree⟩⟩
    exact (Kernel.ofile_of_proc hproc₃).trans hofile₂
  rw [ensures_bind]
  refine fdalloc_spec (hclose rfl hheap hpipe hofile) fun fd0 hfd0 => ?_
  rw [ensures_bind]
  refine fdalloc_spec ?_ fun fd1 hfd1 => ?_
  · rw [ensures_bind, ensures_setOfile]
    refine hclose rfl ((hheap.setTables _).setTables _) (hpipe.frame ⟨rfl, rfl, rfl⟩) ?_
    rw [setOfile_ofile, setOfile_ofile, update_idem, hofile, ← hfd0, hofile,
      update_eq_self]
  -- the process has both descriptors, and the copies may fail
  have hfd : fd1 ≠ fd0 := by
    rintro rfl
    rw [setOfile_ofile, update_self] at hfd1
    cases hfd1
  rw [setOfile_ofile, update_of_ne hfd, hofile] at hfd1
  rw [hofile] at hfd0
  generalize hs₂ : (s₁.setOfile i fd0 (some rf)).setOfile i fd1 (some wf) = s₂
  have hroot₂ : (s₂.tables.proc i).pagetable = root * pgSize := by
    rw [← hs₂, ← hroot, ← hproc]
    simp [Kernel.setOfile, Kernel.setProc]
  have huser : UserTable m s₂ l₁ U ({p} + R) I root f := by
    have hheap' : Heap m s₁ l₁ (U + ({p} + R)) := by
      rwa [show U + ({p} + R) = {p} + (U + R) by ac_rfl]
    have huser₁ : UserTable m s₁ l₁ U ({p} + R) I root f :=
      ⟨hheap', h.table.frame fun q hq => hsame q (Multiset.mem_add.mpr (.inr
        (Multiset.mem_of_le h.inner hq))), h.inner.trans (Multiset.le_add_left _ _), h.reaches⟩
    rw [← hs₂]
    exact (huser₁.setTables _).setTables _
  rw [ensures_bind, ensures_getProc, hroot₂]
  refine huser.copyout_fds fun ok s₃ hmove => ?_
  cases ok with
  | true =>
    rw [if_pos rfl, ensures_pure]
    refine ⟨(hfiles.of_file ?_).filesOk hok, fun hr => by cases hr⟩
    rw [hmove.tables, ← hs₂, setOfile_file, setOfile_file]
  | false =>
    rw [if_neg (by simp), ensures_bind, ensures_setOfile, ensures_bind, ensures_setOfile]
    refine hclose ?_ ((Heap.setTables ?_ _).setTables _) ?_ ?_
    · rw [setOfile_file, setOfile_file, hmove.tables, ← hs₂, setOfile_file, setOfile_file]
    · rw [show {p} + (U + R) = U + ({p} + R) by ac_rfl]
      exact (hmove.add huser.heap).heap
    · have hpipe₂ : PipeAt s₂ p 1 1 := hs₂ ▸ hpipe.frame ⟨rfl, rfl, rfl⟩
      have hpipe₃ := hpipe₂.frame (hmove.keeps huser.heap p (by simp))
      exact hpipe₃.frame ⟨rfl, rfl, rfl⟩
    · have hofile₃ : s₃.ofile i =
          update (update (s.ofile i) fd0 (some rf)) fd1 (some wf) := by
        rw [Kernel.ofile_of_proc (by rw [hmove.tables] : s₃.tables.proc = s₂.tables.proc), ← hs₂,
          setOfile_ofile, setOfile_ofile, hofile]
      have hclosed : update (s.ofile i) fd0 none = s.ofile i := update_eq_self_iff.mpr hfd0.symm
      rw [setOfile_ofile, setOfile_ofile, hofile₃, update_comm hfd, update_idem, update_idem,
        hclosed, update_eq_self_iff.mpr hfd1.symm]

theorem sysOpen_spec (hheap : Heap m s l A) (hok : FilesOk s) (device readable writable : Bool) :
    Ensures m deny F (sysOpen i device readable writable)
      (fun r s' => FilesOk s' ∧ (r = -1 → NoTrace m i s l A s')) s := by
  rw [sysOpen, ensures_bind]
  refine filealloc_spec ?_ fun x hx => ?_
  · rw [ensures_pure]
    exact ⟨hok, fun _ => ⟨rfl, (SameBut.refl s).sameFiles, l, hheap, rfl⟩⟩
  rw [ensures_bind]
  refine fdalloc_spec ?_ fun fd _ => ?_
  · rw [ensures_bind]
    refine fileclose_new hok hx (by rw [setFile_file, update_self]) ?_
    have hbut := (SameBut.refl s).take List.not_mem_nil hx fun y => { y with ref := 1 }
    have hsame := (hbut.close hok).sameFiles
    rw [ensures_pure]
    exact ⟨hsame.filesOk hok, fun _ => ⟨rfl, hsame, l, (hheap.setTables _).setTables _, rfl⟩⟩
  · have hnew : FilesOk (s.setFile x fun y => { y with ref := 1 }) :=
      hok.setFile fun href => by cases href
    rw [ensures_bind, ensures_setFile, ensures_pure]
    refine ⟨FilesOk.setFile hnew fun href => ?_, fun hr => by omega⟩
    rw [setOfile_file, setFile_file, update_self] at href
    cases href

theorem sysDupArg_spec (hheap : Heap m s l A) (hok : FilesOk s) (hF : F .filedup) (fd : Int32) :
    Ensures m deny F (sysDupArg i fd)
      (fun r s' => FilesOk s' ∧ (r = -1 → NoTrace m i s l A s')) s := by
  have hsame : FilesOk s ∧ ((-1 : ℤ) = -1 → NoTrace m i s l A s) :=
    ⟨hok, fun _ => ⟨rfl, (SameBut.refl s).sameFiles, l, hheap, rfl⟩⟩
  rw [sysDupArg]
  split
  · rw [sysDup, ensures_bind, ensures_getProc]
    split
    · rw [ensures_pure]
      exact hsame
    · rw [ensures_bind]
      refine fdalloc_spec ?_ fun fd' _ => ?_
      · rw [ensures_pure]
        exact hsame
      · rw [ensures_bind, filedup, ensures_bind, ensures_getFile]
        split
        · exact ensures_panic _ hF
        · rw [ensures_setFile, ensures_pure]
          refine ⟨FilesOk.setFile hok fun href => ?_, fun hr => by omega⟩
          cases href
  · rw [ensures_pure]
    exact hsame

theorem Ensures.of_run {α : Type} {prog : K α} {Q : α → Kernel → Prop} {a : α}
    (h : Ensures m deny F prog Q s) (hrun : Prog.run (perform m deny) prog s = .ok (a, s')) :
    Q a s' := by
  unfold Ensures at h
  have hends := Prog.ends_of_wp h
  rwa [hrun] at hends

/-- Failed calls on descriptors leave no trace. For every page table of the calling process
with its pages in use, every list of free pages, every file table in which entries that are not
in use have no type, and whatever descriptors the process has: `sys_pipe` and the part of
`sys_open` behind the inode return, and if they or `sys_dup` return -1, then descriptors, files
and free pages are as before. -/
theorem descriptor_calls_no_trace (h : UserTable m s l U R I root f)
    (hroot : (s.tables.proc i).pagetable = root * pgSize) (hok : FilesOk s) :
    (∀ fdarray, ∃ r s', Prog.run (perform m deny) (sysPipe i fdarray) s = .ok (r, s') ∧
      (r = -1 → NoTrace m i s l (U + R) s')) ∧
    (∀ device readable writable, ∃ r s',
      Prog.run (perform m deny) (sysOpen i device readable writable) s = .ok (r, s') ∧
      (r = -1 → NoTrace m i s l (U + R) s')) ∧
    ∀ fd s', Prog.run (perform m deny) (sysDupArg i fd) s = .ok (-1, s') →
      NoTrace m i s l (U + R) s' := by
  refine ⟨fun fdarray => ?_, fun device readable writable => ?_, fun fd s' hrun => ?_⟩
  · exact ((sysPipe_spec h hroot hok fdarray).mono fun _ _ hpost => hpost.2).run
  · exact ((sysOpen_spec h.heap hok device readable writable).mono fun _ _ hpost => hpost.2).run
  · have hspec : Ensures m deny (fun _ => True) (sysDupArg i fd)
        (fun r s' => FilesOk s' ∧ (r = -1 → NoTrace m i s l (U + R) s')) s :=
      sysDupArg_spec h.heap hok trivial fd
    exact (hspec.of_run hrun).2 rfl

/-- The first process calls `pipe` with an array outside its memory. -/
theorem descriptor_calls_no_trace_firstProcess :
    ∃ s', Prog.run (perform smallKernel fun _ => false) (sysPipe 0 0x2000) firstProcess =
        .ok (-1, s') ∧
      NoTrace smallKernel 0 firstProcess firstFree
        (userPages firstMap 0 1 + (firstPages + {0x87ffa, 0x87ff8})) s' := by
  obtain ⟨hpipe, -, -⟩ := @descriptor_calls_no_trace _ (fun _ => false) _ _ _ _ _ _ _ 0
    firstProcess_user rfl fun _ _ => rfl
  obtain ⟨r, s', hrun, hnone⟩ := hpipe 0x2000
  have hfail : (Prog.run (perform smallKernel fun _ => false) (sysPipe 0 0x2000) firstProcess).map
      (·.1) = .ok (-1) := by decide +kernel
  rw [hrun] at hfail
  obtain rfl : r = -1 := Except.ok.inj hfail
  exact ⟨s', hrun, hnone rfl⟩

end Xv6.Vm
