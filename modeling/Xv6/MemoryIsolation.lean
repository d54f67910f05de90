import Xv6.ExecImages
import Xv6.ProcessGrowth

/-!
# Processes keep their memory to themselves

`fork`, `exit` and `wait` of `proc.c` without open files and directories, beside `growproc` and
`copyout`. Every page in use belongs to one process, or is none of theirs. A call hands pages over
between the free list and one process at a time.
-/

namespace Xv6.Vm

open OperationPrograms LittleEndianBlocks Function

def allocpid : K ℤ := do
  let t ← tables
  setTables { t with nextpid := Int.bmod (t.nextpid + 1) (2 ^ 32) }
  return t.nextpid

def freeproc (i : Pid) : K Unit := do
  let p ← getProc i
  (if p.trapframe ≠ 0 then kfree p.trapframe else pure ())
  setProc i fun p => { p with trapframe := 0 }
  (if p.pagetable ≠ 0 then procFreepagetable p.pagetable p.sz else pure ())
  setProc i fun p =>
    { p with
      pagetable := 0, sz := 0, pid := 0, parent := none, name := [], xstate := 0, state := .unused }

def allocproc (m : Machine) : K (Option Pid) := do
  let t ← tables
  match (List.finRange nProc).find? fun i => (t.proc i).state = .unused with
  | none => return none
  | some i =>
    let pid ← allocpid
    setProc i fun p => { p with pid, state := .used }
    let tf ← kalloc
    setProc i fun p => { p with trapframe := tf }
    if tf = 0 then
      freeproc i
      return none
    else
      let pagetable ← procPagetable m tf
      setProc i fun p => { p with pagetable }
      if pagetable = 0 then
        freeproc i
        return none
      else
        return some i

/-- The part of `fork` behind `uvmcopy`. -/
def forkChild (i np : Pid) : K ℤ := do
  let p ← getProc i
  setProc np fun q => { q with sz := p.sz }
  let q ← getProc np
  let regs ← takeUser p.trapframe 288
  put q.trapframe regs
  store (q.trapframe + 112) 0 8
  setProc np fun q => { q with name := safestrcpy p.name, parent := some i, state := .runnable }
  return q.pid

def fork (m : Machine) (i : Pid) : K ℤ := do
  match ← allocproc m with
  | none => return -1
  | some np =>
    let p ← getProc i
    let q ← getProc np
    if ← uvmcopy p.pagetable q.pagetable p.sz then
      forkChild i np
    else
      freeproc np
      return -1

/-- `reparent`, where the first slot is that of `initproc`. -/
def reparent (i : Pid) : K Unit := do
  let t ← tables
  setTables { t with
    proc := fun q => if (t.proc q).parent = some i then { t.proc q with parent := some 0 }
      else t.proc q }

/-- `exit`, up to the call of `sched`. -/
def exit (i : Pid) (status : ℤ) : K Unit :=
  if i = 0 then
    panic .initExiting
  else do
    reparent i
    setProc i fun p => { p with xstate := status, state := .zombie }

/-- `wait`; there is no result if it has to sleep. -/
def wait (i : Pid) (addr : ℕ) : K (Option ℤ) := do
  let t ← tables
  let child (q : Pid) : Bool := (t.proc q).parent = some i
  match (List.finRange nProc).find? fun q => child q && (t.proc q).state = .zombie with
  | none => return if (List.finRange nProc).any child then none else some (-1)
  | some q =>
    let p ← getProc i
    let ok ← if addr = 0 then pure true
      else copyout p.pagetable addr (bytesOf ((t.proc q).xstate % 2 ^ 32).toNat 4)
    if ok then
      freeproc q
      return some (t.proc q).pid
    else
      return some (-1)

/-- What a process asks the kernel for. Many system calls end with a `copyout`. -/
inductive Call where
  | fork
  | exit (status : ℤ)
  | wait (addr : ℕ)
  | sbrk (n : Int32)
  | copyout (va : ℕ) (src : List UInt8)

def Call.run (m : Machine) (i : Pid) : Call → K Unit
  | .fork => Vm.fork m i >>= fun _ => pure ()
  | .exit status => Vm.exit i status
  | .wait addr => Vm.wait i addr >>= fun _ => pure ()
  | .sbrk n => growproc i n >>= fun _ => pure ()
  | .copyout va src => do
    let p ← getProc i
    Vm.copyout p.pagetable va src >>= fun _ => pure ()

/-- Calls of any processes, one after the other. A process that does not run makes no calls. -/
def runCalls (m : Machine) (calls : List (Pid × Call)) : K Unit :=
  calls.forM fun c => do
    let p ← getProc c.1
    if p.state = .runnable then c.2.run m c.1 else pure ()

/-! ### Who owns which page -/

variable {m : Machine} {deny : ℕ → Bool} {F : Panic → Prop} {s s' s'' : Kernel}
  {l l' l'' : List ℕ} {A A' A'' R : Multiset ℕ} {root tf : ℕ} {f : ℕ → ℕ}
  {I : Multiset ℕ} {i k : Pid} {p p' p'' : Proc}

/-- The pages `A` are those of a process. -/
def Owns (m : Machine) (s : Kernel) (p : Proc) (A : Multiset ℕ) : Prop :=
  if p.state = .unused then p.trapframe = 0 ∧ p.pagetable = 0 ∧ p.sz = 0 ∧ A = 0
  else ∃ tf root f I, Live m s p tf root f I ∧ A = {tf} + (I + userPages f 0 (npages p.sz))

/-- The fields that describe the memory of a process are the same. -/
structure SameSpace (p p' : Proc) : Prop where
  state : p'.state = p.state
  sz : p'.sz = p.sz
  pagetable : p'.pagetable = p.pagetable
  trapframe : p'.trapframe = p.trapframe

theorem SameSpace.refl (p : Proc) : SameSpace p p := ⟨rfl, rfl, rfl, rfl⟩

theorem SameSpace.trans (h : SameSpace p p') (h' : SameSpace p' p'') : SameSpace p p'' :=
  ⟨h'.state.trans h.state, h'.sz.trans h.sz, h'.pagetable.trans h.pagetable,
    h'.trapframe.trans h.trapframe⟩

theorem Live.frame (h : Live m s p tf root f I) (hp : SameSpace p p')
    (hsame : ∀ q ∈ I, SamePage s s' q) : Live m s' p' tf root f I :=
  ⟨hp.trapframe.trans h.trapframe, hp.pagetable.trans h.pagetable, h.table.frame hsame,
    hp.sz ▸ h.shape⟩

theorem Owns.live (h : Owns m s p A) (hstate : p.state ≠ .unused) :
    ∃ tf root f I, Live m s p tf root f I ∧ A = {tf} + (I + userPages f 0 (npages p.sz)) := by
  rwa [Owns, if_neg hstate] at h

theorem Live.owns (h : Live m s p tf root f I) (hstate : p.state ≠ .unused) :
    Owns m s p ({tf} + (I + userPages f 0 (npages p.sz))) := by
  rw [Owns, if_neg hstate]
  exact ⟨tf, root, f, I, h, rfl⟩

theorem Owns.frame (h : Owns m s p A) (hp : SameSpace p p') (hsame : ∀ q ∈ A, SamePage s s' q) :
    Owns m s' p' A := by
  by_cases hstate : p.state = .unused
  · rw [Owns, if_pos hstate] at h
    rw [Owns, if_pos (hp.state.trans hstate), hp.trapframe, hp.pagetable, hp.sz]
    exact h
  · obtain ⟨tf, root, f, I, hlive, rfl⟩ := h.live hstate
    have hlive' := hlive.frame hp fun q hq => hsame q (by simp [hq])
    rw [← hp.sz]
    exact hlive'.owns (hp.state ▸ hstate)

theorem Moves.add_left (h : Moves m s l A s' l' A') (hheap : Heap m s l (R + A)) :
    Moves m s l (R + A) s' l' (R + A') := by
  rw [add_comm] at hheap ⊢
  rw [add_comm R]
  exact h.add hheap

/-- Process `i` exchanged its pages `A` for `A'` and has become `p`. The others are as before. -/
structure Remakes (m : Machine) (s : Kernel) (l : List ℕ) (i : Pid) (A : Multiset ℕ) (s' : Kernel)
    (l' : List ℕ) (A' : Multiset ℕ) (p : Proc) : Prop where
  alters : Alters m s l A s' l' A'
  proc : s'.tables.proc i = p
  others : ∀ j, j ≠ i → SameSpace (s.tables.proc j) (s'.tables.proc j)

namespace Remakes

theorem refl (hheap : Heap m s l A) : Remakes m s l i A s l A (s.tables.proc i) :=
  ⟨.refl hheap, rfl, fun _ _ => .refl _⟩

theorem heap (h : Remakes m s l i A s' l' A' p) : Heap m s' l' A' := Moves.heap h.alters

theorem moves (h : Remakes m s l i A s' l' A' p) (hmove : Moves m s' l' A' s'' l'' A'') :
    Remakes m s l i A s'' l'' A'' p := by
  refine ⟨h.alters.trans hmove.alters, ?_, fun j hj => ?_⟩ <;> rw [hmove.tables]
  · exact h.proc
  · exact h.others j hj

theorem write (h : Remakes m s l i A s' l' A' p) {q : ℕ} (hq : q ∈ A') (b : Bytes pgSize)
    (w : ℕ → Bool) : Remakes m s l i A (s'.write q b w) l' A' p := h.moves (h.heap.write hq b w)

theorem setTables (h : Remakes m s l i A s' l' A' p) {t : Tables}
    (hothers : ∀ j, j ≠ i → SameSpace (s'.tables.proc j) (t.proc j)) :
    Remakes m s l i A { s' with tables := t } l' A' (t.proc i) :=
  ⟨h.alters.trans (h.heap.alters t), rfl, fun j hj => (h.others j hj).trans (hothers j hj)⟩

theorem setProc (h : Remakes m s l i A s' l' A' p) (g : Proc → Proc) :
    Remakes m s l i A (s'.setProc i g) l' A' (g p) := by
  have hset := h.setTables (t := (s'.setProc i g).tables) fun j hj => by
    simp only [Kernel.setProc, update_of_ne hj]
    exact .refl _
  simpa only [Kernel.setProc, update_self, h.proc] using hset

end Remakes

/-! ### Calls that change one process -/

/-- The call ends with the process in possession of the pages it has then. -/
def Settles (m : Machine) (s : Kernel) (l : List ℕ) (i : Pid) (A : Multiset ℕ) (s' : Kernel) :
    Prop :=
  ∃ l' A' p, Remakes m s l i A s' l' A' p ∧ Owns m s' p A'

theorem growproc_settles {n : Int32} (hheap : Heap m s l A)
    (howns : Owns m s (s.tables.proc i) A) (hstate : (s.tables.proc i).state ≠ .unused) :
    Ensures m deny F (growproc i n) (fun _ => Settles m s l i A) s := by
  obtain ⟨tf, root, f, I, hlive, rfl⟩ := howns.live hstate
  have hmoves {s₁ : Kernel} {l₁ : List ℕ} {B : Multiset ℕ}
      (h : Moves m s l (I + userPages f 0 (npages (s.tables.proc i).sz)) s₁ l₁ B) :
      Remakes m s l i ({tf} + (I + userPages f 0 (npages (s.tables.proc i).sz))) s₁ l₁ ({tf} + B)
        (s.tables.proc i) := (Remakes.refl hheap).moves (h.add_left hheap)
  have hspace := hlive.space (hheap.of_le (Multiset.le_add_left _ _))
  refine growproc_resizes hspace hlive.pagetable (fun s₁ l₁ I₁ _ h => ?_)
    fun s₁ l₁ sz' f₁ I₁ h _ => ?_
  · refine ⟨l₁, _, _, hmoves h.moves, ?_⟩
    exact Live.owns ⟨hlive.trapframe, hlive.pagetable, h.space.table, h.space.shape⟩ hstate
  · exact ⟨l₁, _, _, (hmoves h.moves).setProc _, (h.live_setProc hlive).owns hstate⟩

theorem copyout_settles {va : ℕ} {src : List UInt8} (hheap : Heap m s l A)
    (howns : Owns m s (s.tables.proc i) A) (hstate : (s.tables.proc i).state ≠ .unused) :
    Ensures m deny F (copyout (s.tables.proc i).pagetable va src)
      (fun _ s' => s'.tables = s.tables ∧ Settles m s l i A s') s := by
  obtain ⟨tf, root, f, I, hlive, rfl⟩ := howns.live hstate
  have hpages : {tf} + (I + userPages f 0 (npages (s.tables.proc i).sz)) =
      userPages f 0 (npages (s.tables.proc i).sz) + (I + {tf}) := by ac_rfl
  rw [hpages] at hheap
  rw [hlive.pagetable]
  have huser : UserTable m s l _ _ I root f :=
    ⟨hheap, hlive.table, Multiset.le_add_right _ _, hlive.shape.reaches⟩
  refine huser.copyout_moves fun r s' hmove => ⟨hmove.tables, ?_⟩
  rw [hpages]
  refine ⟨l, _, _, (Remakes.refl hheap).moves (hmove.add hheap), ?_⟩
  rw [← hpages]
  exact (hlive.frame (.refl _) fun q hq => hmove.keeps hheap q (by simp [hq])).owns hstate

/-! ### Processes that end -/

/-- The trapframe of a process is the page in `T`, if there is one. -/
def HasTrapframe (p : Proc) (T : Multiset ℕ) : Prop :=
  p.trapframe = 0 ∧ T = 0 ∨ ∃ tf, p.trapframe = tf * pgSize ∧ T = {tf}

/-- The page table of a process and its memory are in the pages `P`, if there is one. -/
def HasTable (m : Machine) (s : Kernel) (p : Proc) (P : Multiset ℕ) : Prop :=
  p.pagetable = 0 ∧ P = 0 ∨ ∃ tf root f I, p.pagetable = root * pgSize ∧ Table s root f I ∧
    Shape m f (npages p.sz) tf ∧ P = I + userPages f 0 (npages p.sz)

theorem HasTrapframe.kfree {Q : Unit → Kernel → Prop} {T : Multiset ℕ} (h : HasTrapframe p T)
    (hheap : Heap m s l T) (hQ : ∀ s' l', Moves m s l T s' l' 0 → Q () s') :
    Ensures m deny F (if p.trapframe ≠ 0 then Vm.kfree p.trapframe else pure ()) Q s := by
  obtain ⟨h0, rfl⟩ | ⟨tf, htf, rfl⟩ := h
  · rw [if_neg (not_not_intro h0)]
    exact (ensures_pure ..).mpr (hQ s l (.refl hheap))
  · have hpos := Machine.inPool_pos (hheap.pool tf (by simp))
    rw [htf, if_pos (Nat.mul_ne_zero hpos.ne' (by decide))]
    exact kfree_spec hheap fun s' hmove => hQ s' _ hmove

theorem HasTable.procFreepagetable {Q : Unit → Kernel → Prop} {P : Multiset ℕ}
    (h : HasTable m s p P) (hheap : Heap m s l P) (hQ : ∀ s' l', Moves m s l P s' l' 0 → Q () s') :
    Ensures m deny F
      (if p.pagetable ≠ 0 then Vm.procFreepagetable p.pagetable p.sz else pure ()) Q s := by
  obtain ⟨h0, rfl⟩ | ⟨tf, root, f, I, hroot, htable, hshape, rfl⟩ := h
  · rw [if_neg (not_not_intro h0)]
    exact (ensures_pure ..).mpr (hQ s l (.refl hheap))
  · have hpos := Machine.inPool_pos (hheap.pool root (by simp [htable.root_mem]))
    rw [hroot, if_pos (Nat.mul_ne_zero hpos.ne' (by decide))]
    exact procFreepagetable_spec hheap htable hshape hQ

theorem HasTable.frame {P : Multiset ℕ} (h : HasTable m s p P) (hsame : ∀ q ∈ P, SamePage s s' q) :
    HasTable m s' p P := by
  obtain h0 | ⟨tf, root, f, I, hroot, htable, hshape, rfl⟩ := h
  · exact .inl h0
  · exact .inr ⟨tf, root, f, I, hroot, htable.frame fun q hq => hsame q (by simp [hq]), hshape, rfl⟩

theorem Remakes.freeproc {T P : Multiset ℕ} (h : Remakes m s l i A s' l' (T + P) p)
    (hT : HasTrapframe p T) (hP : HasTable m s' p P) :
    Ensures m deny F (Vm.freeproc i) (fun _ => Settles m s l i A) s' := by
  rw [Vm.freeproc, ensures_bind, ensures_getProc, h.proc, ensures_bind]
  refine hT.kfree h.heap.mono fun s₁ l₁ hmove₁ => ?_
  have h₁ := (h.moves (hmove₁.add h.heap)).setProc fun p => { p with trapframe := 0 }
  rw [zero_add] at h₁
  rw [ensures_bind, ensures_setProc, ensures_bind]
  have hP₁ : HasTable m (s₁.setProc i fun p => { p with trapframe := 0 }) p P :=
    hP.frame fun q hq =>
      let hsame := hmove₁.keeps h.heap q hq
      ⟨hsame.page, hsame.taken, hsame.stale⟩
  refine hP₁.procFreepagetable h₁.heap fun s₂ l₂ hmove₂ => ?_
  rw [ensures_setProc]
  refine ⟨l₂, 0, _, (h₁.moves hmove₂).setProc _, ?_⟩
  rw [Owns, if_pos rfl]
  exact ⟨rfl, rfl, rfl, rfl⟩

theorem Remakes.freeproc_live (h : Remakes m s l i A s' l' A' p) (howns : Owns m s' p A')
    (hstate : p.state ≠ .unused) :
    Ensures m deny F (Vm.freeproc i) (fun _ => Settles m s l i A) s' := by
  obtain ⟨tf, root, f, I, hlive, rfl⟩ := howns.live hstate
  exact h.freeproc (.inr ⟨tf, hlive.trapframe, rfl⟩)
    (.inr ⟨tf, root, f, I, hlive.pagetable, hlive.table, hlive.shape, rfl⟩)

/-! ### Processes that begin -/

/-- A process without memory has begun in the slot `k`. -/
structure Begun (m : Machine) (s : Kernel) (l : List ℕ) (k : Pid) (s' : Kernel) (l' : List ℕ)
    (tf root : ℕ) (g : ℕ → ℕ) (J : Multiset ℕ) (p : Proc) : Prop where
  remakes : Remakes m s l k 0 s' l' ({tf} + J) p
  live : Live m s' p tf root g J
  sz : p.sz = 0

theorem Begun.shape {l' : List ℕ} {g : ℕ → ℕ} {J : Multiset ℕ}
    (h : Begun m s l k s' l' tf root g J p) : Shape m g 0 tf := by
  have hshape := h.live.shape
  rw [h.sz] at hshape
  exact hshape

theorem allocproc_spec {Q : Option Pid → Kernel → Prop} (hheap : Heap m s l 0)
    (hfree : ∀ k, (s.tables.proc k).state = .unused → Owns m s (s.tables.proc k) 0)
    (hnone : Q none s)
    (hfail : ∀ k s', (s.tables.proc k).state = .unused → Settles m s l k 0 s' → Q none s')
    (hok : ∀ k s' l' tf root g J p, (s.tables.proc k).state = .unused →
      Begun m s l k s' l' tf root g J p → Q (some k) s') :
    Ensures m deny F (allocproc m) Q s := by
  rw [allocproc, ensures_bind, ensures_tables]
  cases hfind : (List.finRange nProc).find? fun i => (s.tables.proc i).state = .unused with
  | none => exact (ensures_pure ..).mpr hnone
  | some k =>
    have hstate : (s.tables.proc k).state = .unused := by simpa using List.find?_some hfind
    have howns := hfree k hstate
    rw [Owns, if_pos hstate] at howns
    obtain ⟨-, hpt₀, hsz₀, -⟩ := howns
    have hback {s₁ : Kernel} {l₁ : List ℕ} {T P : Multiset ℕ} {p : Proc}
        (h : Remakes m s l k 0 s₁ l₁ (T + P) p) (hT : HasTrapframe p T) (hP : HasTable m s₁ p P) :
        Ensures m deny F (freeproc k >>= fun _ => pure none) Q s₁ := by
      rw [ensures_bind]
      exact (h.freeproc hT hP).mono fun _ s₂ h₂ => (ensures_pure ..).mpr (hfail k s₂ hstate h₂)
    dsimp only
    simp only [allocpid, ensures_bind, ensures_tables, ensures_setTables, ensures_pure,
      ensures_setProc]
    have h₀ := ((Remakes.refl (i := k) hheap).setTables (t := { s.tables with
      nextpid := Int.bmod (s.tables.nextpid + 1) (2 ^ 32) }) fun j _ => .refl _).setProc
        fun p => { p with pid := s.tables.nextpid, state := .used }
    refine kalloc_spec h₀.heap (fun s₁ hmove₁ _ => ?_) fun tf l₁ s₁ htf hmove₁ => ?_
    · have h₁ := (h₀.moves hmove₁).setProc fun p => { p with trapframe := 0 }
      rw [ensures_bind, ensures_setProc, if_pos rfl]
      exact hback (T := 0) (P := 0) h₁ (.inl ⟨rfl, rfl⟩) (.inl ⟨hpt₀, rfl⟩)
    · have h₁ := (h₀.moves hmove₁).setProc fun p => { p with trapframe := tf * pgSize }
      rw [ensures_bind, ensures_setProc, if_neg htf.addr_ne_zero, ensures_bind]
      have hheap₁ := (add_zero ({tf} : Multiset ℕ)).symm ▸ h₁.heap
      refine procPagetable_spec (hheap₁.of_le (Multiset.le_add_left _ _))
        (htf.2.trans (by decide)) (fun s₂ l₂ hmove₂ => ?_)
        fun root s₂ l₂ g J hmove₂ htable hshape => ?_
      · have h₂ := (h₁.moves (hmove₂.add_left hheap₁)).setProc fun p =>
          { p with pagetable := 0 }
        rw [ensures_bind, ensures_setProc, if_pos rfl]
        exact hback h₂ (.inr ⟨tf, rfl, rfl⟩) (.inl ⟨rfl, rfl⟩)
      · have h₂ := (h₁.moves (hmove₂.add_left hheap₁)).setProc fun p =>
          { p with pagetable := root * pgSize }
        have hroot := h₂.heap.pool root (by simp [htable.root_mem])
        rw [ensures_bind, ensures_setProc, if_neg hroot.addr_ne_zero, ensures_pure]
        refine hok k _ l₂ tf root g J _ hstate ⟨h₂, ⟨rfl, rfl, ?_, ?_⟩, hsz₀⟩
        · exact htable.frame fun _ _ => ⟨rfl, rfl, rfl⟩
        · dsimp only
          rw [hsz₀]
          exact hshape

theorem Copying.shape {old new sz tfp : ℕ} {g g' : ℕ → ℕ} {J : Multiset ℕ}
    (h : Copying m old new f g I R (npages sz) s l J g') (hf : Shape m f (npages sz) tfp)
    (hg : Shape m g 0 tf) (hsz : npages sz ≤ 0x8000) : Shape m g' (npages sz) tf where
  user w hw := by
    have hleaf := hf.user w hw
    refine (h.ext.leaf w (Nat.zero_le w) (by omega)).userLeaf (pteFlags_lt _) ?_ ?_
    · rw [pteFlags_and _ (by decide)]
      exact hleaf.valid
    · rw [pteFlags_and _ (by decide)]
      exact hleaf.readable
  trampoline := by
    rw [h.ext.other _ (by unfold trampolineVpn; omega)]
    exact hg.trampoline
  trapframe := by
    rw [h.ext.other _ (by unfold trapframeVpn; omega)]
    exact hg.trapframe
  rest w hw hlt h₁ h₂ := by
    rw [h.ext.other w (by omega)]
    exact hg.rest w (Nat.zero_le w) hlt h₁ h₂

theorem forkChild_settles {tfp : ℕ} {U : Multiset ℕ}
    (h : Remakes m s l k A s' l' ({tf} + (I + U)) p)
    (hparent : (s'.tables.proc i).trapframe = tfp * pgSize) (htfp : m.InPool tfp)
    (hlive : Live m s' { p with sz := (s'.tables.proc i).sz } tf root f I)
    (hU : U = userPages f 0 (npages (s'.tables.proc i).sz)) :
    Ensures m deny F (forkChild i k) (fun _ => Settles m s l k A) s' := by
  have htf : m.InPool tf := h.heap.pool tf (by simp)
  have hnot : tf ∉ I := by
    have hnodup := Multiset.nodup_of_le (Multiset.le_add_left _ _) h.heap.nodup
    rw [Multiset.singleton_add, Multiset.nodup_cons] at hnodup
    exact fun hmem => hnodup.1 (by simp [hmem])
  have htake {Q : List UInt8 → Kernel → Prop} {s₁ : Kernel}
      (hQ : Q (getBytes (s₁.page tfp) 0 288) s₁) :
      Ensures m deny F (takeUser (tfp * pgSize) 288) Q s₁ := by
    rw [← Nat.add_zero (tfp * pgSize)]
    exact takeUser_spec htfp (by decide) (by decide) hQ
  have h₁ := h.setProc fun q => { q with sz := (s'.tables.proc i).sz }
  rw [forkChild, ensures_bind, ensures_getProc, ensures_bind, ensures_setProc, ensures_bind,
    ensures_getProc, h₁.proc, ensures_bind, hparent]
  refine htake ?_
  rw [ensures_bind, hlive.trapframe]
  refine put_page_spec htf (by rw [length_getBytes]; decide) ?_
  rw [ensures_bind]
  refine store_spec htf (by decide) (by decide) ?_
  rw [ensures_bind, ensures_setProc, ensures_pure]
  have hmem : tf ∈ {tf} + (I + U) := by simp
  refine ⟨l', _, _, ((h₁.write hmem _ _).write hmem _ _).setProc _, ?_⟩
  rw [hU]
  refine Live.owns ⟨hlive.trapframe, hlive.pagetable, hlive.table.frame fun q hq => ?_, hlive.shape⟩
    (by simp)
  -- the stores go to the trapframe, which is not a page of the table
  have hq' : q ≠ tf := fun heq => hnot (heq ▸ hq)
  have hset (s₁ : Kernel) (g : Proc → Proc) : SamePage s₁ (s₁.setProc k g) q := ⟨rfl, rfl, rfl⟩
  exact (((hset _ _).trans (.write hq')).trans (.write hq')).trans (hset _ _)

/-- `fork` fails without a trace, or sets up the one slot of the child. -/
theorem fork_settles {W : Multiset ℕ} (hheap : Heap m s l W) (hA : A ≤ W)
    (howns : Owns m s (s.tables.proc i) A) (hstate : (s.tables.proc i).state ≠ .unused)
    (hfree : ∀ k, (s.tables.proc k).state = .unused → Owns m s (s.tables.proc k) 0) :
    Ensures m deny F (fork m i) (fun _ s' => s' = s ∨
      ∃ k, (s.tables.proc k).state = .unused ∧ Settles m s l k 0 s') s := by
  obtain ⟨tfp, rootp, f, I, hlive, rfl⟩ := howns.live hstate
  have hheap₀ : Heap m s l (0 + W) := by rwa [zero_add]
  rw [fork, ensures_bind]
  refine allocproc_spec (hheap.of_le (Multiset.zero_le _)) hfree ((ensures_pure ..).mpr (.inl rfl))
    (fun k s' hk h => (ensures_pure ..).mpr (.inr ⟨k, hk, h⟩)) fun k s₁ l₁ tf root g J p hk h => ?_
  have hne : i ≠ k := fun heq => hstate (heq ▸ hk)
  have hkeep := h.remakes.alters.keeps hheap₀
  have hmem {q : ℕ} (hq : q ∈ {tfp} + (I + userPages f 0 (npages (s.tables.proc i).sz))) : q ∈ W :=
    Multiset.mem_of_le hA hq
  have hlive₁ := hlive.frame (h.remakes.others i hne) fun q hq => hkeep q (hmem (by simp [hq]))
  have hsz := (h.remakes.others i hne).sz
  have hheap₁ := Moves.heap (h.remakes.alters.add hheap₀)
  rw [add_comm {tf} J, add_assoc] at hheap₁
  have hnpages := (hlive.space (hheap.of_le ((Multiset.le_add_left _ _).trans hA))).npages_le
  dsimp only
  rw [ensures_bind, ensures_getProc, ensures_bind, ensures_getProc, ensures_bind,
    hlive₁.pagetable, h.remakes.proc, h.live.pagetable, hsz]
  refine uvmcopy_spec hheap₁ hlive₁.table ?_ (fun w hw => ?_) h.live.table (fun w hw => ?_)
    (fun s₂ l₂ J' hmove htable => ?_) fun s₂ l₂ J' g' hmove hcopy => ?_
  · exact (Multiset.le_add_right _ _).trans ((Multiset.le_add_left _ _).trans
      (hA.trans (Multiset.le_add_left _ _)))
  · have hleaf := hlive₁.shape.user w (hsz ▸ hw)
    exact ⟨⟨hleaf.valid, hleaf.flags_ne⟩, Multiset.mem_add.mpr (.inr (hmem (Multiset.mem_add.mpr
      (.inr (Multiset.mem_add.mpr (.inr (mem_userPages (Nat.zero_le w) (by omega))))))))⟩
  · exact h.shape.rest w (Nat.zero_le w) (by omega) (by unfold trampolineVpn; omega)
      (by unfold trapframeVpn; omega)
  · rw [if_neg (by decide), ensures_bind]
    have h₂ := h.remakes.moves (hmove.add_left h.remakes.heap)
    refine (h₂.freeproc (.inr ⟨tf, h.live.trapframe, rfl⟩) (.inr ⟨tf, root, g, J', h.live.pagetable,
      htable, h.live.shape, ?_⟩)).mono fun _ s₃ h₃ => ?_
    · rw [h.sz]
      exact (add_zero J').symm
    · exact (ensures_pure ..).mpr (.inr ⟨k, hk, h₃⟩)
  · rw [if_pos rfl]
    have h₂ := h.remakes.moves (hmove.add_left h.remakes.heap)
    have hparent : s₂.tables.proc i = s₁.tables.proc i := by rw [hmove.tables]
    have hshape := hcopy.shape hlive.shape h.shape hnpages
    have hchild : Live m s₂ { p with sz := (s₂.tables.proc i).sz } tf root g' J' := by
      rw [hparent, hsz]
      exact ⟨h.live.trapframe, h.live.pagetable, hcopy.target, hshape⟩
    have htfp := hheap.pool tfp (Multiset.mem_add.mpr (.inr (hmem (by simp))))
    exact (forkChild_settles h₂ (hparent ▸ hlive₁.trapframe) htfp hchild
      (by rw [hparent, hsz])).mono fun _ s₃ h₃ => .inr ⟨k, hk, h₃⟩

/-! ### All processes -/

/-- The pages `A i` are those of process `i`, and the pages `R` belong to none of the processes. -/
structure Spaces (m : Machine) (s : Kernel) (l : List ℕ) (A : Pid → Multiset ℕ) (R : Multiset ℕ) :
    Prop where
  heap : Heap m s l (∑ i, A i + R)
  owns : ∀ i, Owns m s (s.tables.proc i) (A i)

/-- No page is lost, and beside the processes in `T` nobody's memory changes. -/
structure Isolates (m : Machine) (R : Multiset ℕ) (T : Pid → Prop) (s : Kernel) (l : List ℕ)
    (A : Pid → Multiset ℕ) (s' : Kernel) (l' : List ℕ) (A' : Pid → Multiset ℕ) : Prop where
  spaces : Spaces m s' l' A' R
  pages : ↑l' + ∑ i, A' i = ↑l + ∑ i, A i
  rest : ∀ q ∈ R, SamePage s s' q
  others : ∀ j, ¬T j → A' j = A j ∧ SameSpace (s.tables.proc j) (s'.tables.proc j) ∧
    ∀ q ∈ A j, SamePage s s' q

variable {A A' A'' : Pid → Multiset ℕ} {T T' : Pid → Prop}

theorem Isolates.refl (h : Spaces m s l A R) : Isolates m R T s l A s l A :=
  ⟨h, rfl, fun _ _ => .refl _ _, fun _ _ => ⟨rfl, .refl _, fun _ _ => .refl _ _⟩⟩

theorem Isolates.mono (h : Isolates m R T s l A s' l' A') (hT : ∀ j, T j → T' j) :
    Isolates m R T' s l A s' l' A' :=
  ⟨h.spaces, h.pages, h.rest, fun j hj => h.others j fun hj' => hj (hT j hj')⟩

theorem Isolates.trans (h : Isolates m R T s l A s' l' A')
    (h' : Isolates m R T s' l' A' s'' l'' A'') : Isolates m R T s l A s'' l'' A'' where
  spaces := h'.spaces
  pages := h'.pages.trans h.pages
  rest q hq := (h.rest q hq).trans (h'.rest q hq)
  others j hj := by
    obtain ⟨hA, hspace, hsame⟩ := h.others j hj
    obtain ⟨hA', hspace', hsame'⟩ := h'.others j hj
    exact ⟨hA'.trans hA, hspace.trans hspace', fun q hq =>
      (hsame q hq).trans (hsame' q (hA ▸ hq))⟩

def others (A : Pid → Multiset ℕ) (i : Pid) : Multiset ℕ := ∑ j ∈ Finset.univ \ {i}, A j

theorem sum_update (A : Pid → Multiset ℕ) (i : Pid) (B : Multiset ℕ) :
    ∑ j, update A i B j = B + others A i := Finset.sum_update_of_mem (Finset.mem_univ i) A B

theorem Spaces.heap_at (h : Spaces m s l A R) (i : Pid) :
    Heap m s l (A i + (others A i + R)) := by
  rw [← add_assoc, ← sum_update, update_eq_self]
  exact h.heap

theorem mem_others {i j : Pid} (hj : j ≠ i) {q : ℕ} (hq : q ∈ A j) : q ∈ others A i :=
  Multiset.mem_sum.mpr ⟨j, by simpa using hj, hq⟩

theorem Spaces.settle (h : Spaces m s l A R) (hs : Settles m s l i (A i) s') :
    ∃ l' A', Isolates m R (· = i) s l A s' l' A' := by
  obtain ⟨l', B, p, hr, howns⟩ := hs
  have hkeep := hr.alters.keeps (h.heap_at i)
  refine ⟨l', update A i B, ⟨⟨?_, fun j => ?_⟩, ?_, fun q hq => ?_, fun j hj => ?_⟩⟩
  · rw [sum_update, add_assoc]
    exact Moves.heap (hr.alters.add (h.heap_at i))
  · by_cases hj : j = i
    · rw [hj, update_self, hr.proc]
      exact howns
    · rw [update_of_ne hj]
      exact (h.owns j).frame (hr.others j hj) fun q hq =>
        hkeep q (Multiset.mem_add.mpr (.inl (mem_others hj hq)))
  · rw [sum_update, ← add_assoc, Moves.pages hr.alters, add_assoc, ← sum_update, update_eq_self]
  · exact hkeep q (Multiset.mem_add.mpr (.inr hq))
  · exact ⟨update_of_ne hj _ _, hr.others j hj, fun q hq =>
      hkeep q (Multiset.mem_add.mpr (.inl (mem_others hj hq)))⟩

/-- The processes that a call of process `i` may change. -/
def Touched (s : Kernel) (i j : Pid) : Prop := j = i ∨ (s.tables.proc j).state ≠ .runnable

theorem Spaces.isolates_wait (h : Spaces m s l A R) (hstate : (s.tables.proc i).state ≠ .unused)
    (addr : ℕ) :
    Ensures m deny F (wait i addr)
      (fun _ s' => ∃ l' A', Isolates m R (Touched s i) s l A s' l' A') s := by
  rw [wait, ensures_bind, ensures_tables]
  dsimp only
  split
  · exact (ensures_pure ..).mpr ⟨l, A, .refl h⟩
  · next q hfind =>
    have hzombie : (s.tables.proc q).state = .zombie := by
      have := List.find?_some hfind
      simp only [Bool.and_eq_true, decide_eq_true_eq] at this
      exact this.2
    have hfree {s₁ : Kernel} {l₁ : List ℕ} {A₁ : Pid → Multiset ℕ} (htables : s₁.tables = s.tables)
        (h₁ : Isolates m R (· = i) s l A s₁ l₁ A₁) :
        Ensures m deny F (freeproc q)
          (fun _ s' => ∃ l' A', Isolates m R (Touched s i) s l A s' l' A') s₁ := by
      have hstate₁ : (s₁.tables.proc q).state ≠ .unused := by simp [htables, hzombie]
      refine ((Remakes.refl (h₁.spaces.heap_at q).mono).freeproc_live (h₁.spaces.owns q)
        hstate₁).mono fun _ s₂ h₂ => ?_
      obtain ⟨l₂, A₂, h₂⟩ := h₁.spaces.settle h₂
      refine ⟨l₂, A₂, (h₁.mono fun j hj => .inl hj).trans (h₂.mono fun j hj => .inr ?_)⟩
      simp [hj, hzombie]
    rw [ensures_bind, ensures_getProc]
    split
    · rw [ensures_bind, ensures_pure, if_pos rfl, ensures_bind]
      exact (hfree rfl (.refl h)).mono fun _ s' hs' => (ensures_pure ..).mpr hs'
    · rw [ensures_bind]
      refine (copyout_settles (h.heap_at i).mono (h.owns i) hstate).mono
        fun ok s₁ ⟨htables, hs₁⟩ => ?_
      obtain ⟨l₁, A₁, h₁⟩ := h.settle hs₁
      split
      · rw [ensures_bind]
        exact (hfree htables h₁).mono fun _ s' hs' => (ensures_pure ..).mpr hs'
      · exact (ensures_pure ..).mpr ⟨l₁, A₁, h₁.mono fun j hj => .inl hj⟩

theorem Spaces.exit_settles (h : Spaces m s l A R) (hF : F .initExiting)
    (hstate : (s.tables.proc i).state ≠ .unused) (status : ℤ) :
    Ensures m deny F (Vm.exit i status) (fun _ => Settles m s l i (A i)) s := by
  rw [Vm.exit]
  split
  · exact ensures_panic _ hF
  · rw [ensures_bind, reparent, ensures_bind, ensures_tables, ensures_setTables, ensures_setProc]
    generalize ht : ({ s.tables with proc := _ } : Tables) = t
    have hspace (j : Pid) : SameSpace (s.tables.proc j) (t.proc j) := by
      rw [← ht]
      dsimp only
      split <;> exact ⟨rfl, rfl, rfl, rfl⟩
    have howns : Owns m { s with tables := t } (t.proc i) (A i) :=
      (h.owns i).frame (hspace i) fun _ _ => ⟨rfl, rfl, rfl⟩
    obtain ⟨tf, root, f, I, hlive, hA⟩ := howns.live ((hspace i).state ▸ hstate)
    have h₁ := (Remakes.refl (i := i) (h.heap_at i).mono).setTables fun j _ => hspace j
    refine ⟨l, _, _, h₁.setProc _, ?_⟩
    rw [hA]
    exact Live.owns (p := { t.proc i with xstate := status, state := .zombie }) ⟨hlive.trapframe,
      hlive.pagetable, hlive.table.frame fun _ _ => ⟨rfl, rfl, rfl⟩, hlive.shape⟩ (by simp)

/-- Every call keeps the spaces apart. -/
theorem Spaces.call (h : Spaces m s l A R) (hF : F .initExiting)
    (hstate : (s.tables.proc i).state = .runnable) (c : Call) :
    Ensures m deny F (c.run m i)
      (fun _ s' => ∃ l' A', Isolates m R (Touched s i) s l A s' l' A') s := by
  have hne : (s.tables.proc i).state ≠ .unused := by simp [hstate]
  have hsettle {s' : Kernel} (hs : Settles m s l i (A i) s') :
      ∃ l' A', Isolates m R (Touched s i) s l A s' l' A' := by
    obtain ⟨l', A', h'⟩ := h.settle hs
    exact ⟨l', A', h'.mono fun j hj => .inl hj⟩
  cases c with
  | fork =>
    rw [Call.run, ensures_bind]
    have hle : A i ≤ ∑ j, A j + R :=
      (Finset.single_le_sum (fun _ _ => Multiset.zero_le _) (Finset.mem_univ i)).trans
        (Multiset.le_add_right _ _)
    have hfree (k : Pid) (hk : (s.tables.proc k).state = .unused) : A k = 0 := by
      have howns := h.owns k
      rw [Owns, if_pos hk] at howns
      exact howns.2.2.2
    refine (fork_settles h.heap hle (h.owns i) hne fun k hk => hfree k hk ▸ h.owns k).mono
      fun _ s' hs' => (ensures_pure ..).mpr ?_
    obtain rfl | ⟨k, hk, hs⟩ := hs'
    · exact ⟨l, A, .refl h⟩
    · obtain ⟨l', A', h'⟩ := h.settle ((hfree k hk).symm ▸ hs)
      refine ⟨l', A', h'.mono fun j hj => .inr ?_⟩
      simp [hj, hk]
  | exit status => exact (h.exit_settles hF hne status).mono fun _ _ => hsettle
  | wait addr =>
    rw [Call.run, ensures_bind]
    exact (h.isolates_wait hne addr).mono fun _ _ h' => (ensures_pure ..).mpr h'
  | sbrk n =>
    rw [Call.run, ensures_bind]
    exact (growproc_settles (h.heap_at i).mono (h.owns i) hne).mono fun _ _ h' =>
      (ensures_pure ..).mpr (hsettle h')
  | copyout va src =>
    rw [Call.run, ensures_bind, ensures_getProc, ensures_bind]
    exact (copyout_settles (h.heap_at i).mono (h.owns i) hne).mono fun _ _ h' =>
      (ensures_pure ..).mpr (hsettle h'.2)

def Changed (s : Kernel) (calls : List (Pid × Call)) (j : Pid) : Prop :=
  j ∈ calls.map (·.1) ∨ (s.tables.proc j).state ≠ .runnable

theorem Spaces.calls (h : Spaces m s l A R) (hF : F .initExiting) (calls : List (Pid × Call)) :
    Ensures m deny F (runCalls m calls)
      (fun _ s' => ∃ l' A', Isolates m R (Changed s calls) s l A s' l' A') s := by
  induction calls generalizing s l A with
  | nil => exact (ensures_pure ..).mpr ⟨l, A, .refl h⟩
  | cons c calls ih =>
    rw [runCalls, List.forM_eq_forM, List.forM_cons, ensures_bind, ensures_bind, ensures_getProc]
    split
    · next hstate =>
      refine (h.call hF hstate c.2).mono fun _ s₁ ⟨l₁, A₁, h₁⟩ => ?_
      refine (ih h₁.spaces).mono fun _ s₂ ⟨l₂, A₂, h₂⟩ => ⟨l₂, A₂, ?_⟩
      have hT (j : Pid) (hj : Touched s c.1 j) : Changed s (c :: calls) j := by
        obtain rfl | hj := hj
        · exact .inl (by simp)
        · exact .inr hj
      refine (h₁.mono hT).trans (h₂.mono fun j hj => ?_)
      obtain hj | hj := hj
      · exact .inl (by simp [hj])
      · -- if the first call does not touch `j`, then `j` has the state it had
        by_contra hnot
        have hspace := (h₁.others j fun htouched => hnot (hT j htouched)).2.1
        exact hnot (.inr (hspace.state ▸ hj))
    · refine (ensures_pure ..).mpr ((ih h).mono fun _ s' ⟨l', A', h'⟩ => ⟨l', A', h'.mono ?_⟩)
      exact fun j hj => hj.imp_left fun hj => by simp [hj]

/-- Whatever calls the processes make, every process keeps an address space of its own, no page is
lost or shared, and the memory of a process that makes no call is as before. The kernel stops only
if `initproc` exits. -/
theorem memory_isolation (deny : ℕ → Bool) (h : Spaces m s l A R) (calls : List (Pid × Call)) :
    (∀ s', Prog.run (perform m deny) (runCalls m calls) s = .ok ((), s') →
      ∃ l' A', Isolates m R (Changed s calls) s l A s' l' A') ∧
    ∀ e, Prog.run (perform m deny) (runCalls m calls) s = .error e → e = .initExiting := by
  have hspec : Ensures m deny _ (runCalls m calls) _ s :=
    h.calls (F := (· = .initExiting)) rfl calls
  unfold Ensures at hspec
  have hends := Prog.ends_of_wp hspec
  refine ⟨fun s' hrun => ?_, fun e hrun => ?_⟩ <;> rw [hrun] at hends <;> exact hends

def firstSpaces : Pid → Multiset ℕ :=
  update (fun _ => 0) 0 ({0x87ffa} + (firstPages + userPages firstMap 0 1))

theorem firstProcess_spaces : Spaces smallKernel firstProcess firstFree firstSpaces {0x87ff8} where
  heap := by
    rw [firstSpaces, sum_update, others, Finset.sum_const_zero, add_zero]
    exact firstProcess_owns
  owns i := by
    by_cases hi : i = 0
    · rw [hi, firstSpaces, update_self]
      exact initproc_live.owns (by decide)
    · rw [firstSpaces, update_of_ne hi]
      simp [Owns, firstProcess, hi]

def growAndFork : List (Pid × Call) := [(0, .sbrk 4096), (0, .fork)]

def childWrites : List (Pid × Call) := [(1, .copyout 0 [1])]

def firstByte (i : Pid) (s : Kernel) : Option (List UInt8) :=
  (Prog.run (perform smallKernel fun _ => false) (copyin (s.tables.proc i).pagetable 0 1)
    s).toOption.map (·.1.1)

/-- After the fork there are two processes. The child's write changes the child's memory, and the
parent, which makes no call, keeps its own. -/
theorem memory_isolation_forkAndWrite :
    ∃ s₁ l₁ A₁ s₂ l₂ A₂,
      Prog.run (perform smallKernel fun _ => false) (runCalls smallKernel growAndFork)
        firstProcess = .ok ((), s₁) ∧
      Isolates smallKernel {0x87ff8} (Changed firstProcess growAndFork) firstProcess firstFree
        firstSpaces s₁ l₁ A₁ ∧
      Prog.run (perform smallKernel fun _ => false) (runCalls smallKernel childWrites) s₁ =
        .ok ((), s₂) ∧
      Isolates smallKernel {0x87ff8} (Changed s₁ childWrites) s₁ l₁ A₁ s₂ l₂ A₂ ∧
      ¬Changed s₁ childWrites 0 ∧ (s₁.tables.proc 1).state = .runnable ∧
      firstByte 1 s₁ = some [0x17] ∧ firstByte 1 s₂ = some [1] ∧ firstByte 0 s₂ = some [0x17] := by
  have hrun : ((Prog.run (perform smallKernel fun _ => false) (runCalls smallKernel growAndFork)
      firstProcess).toOption.any fun r₁ =>
        (Prog.run (perform smallKernel fun _ => false) (runCalls smallKernel childWrites)
          r₁.2).toOption.any fun r₂ =>
            (r₁.2.tables.proc 0).state = .runnable ∧ (r₁.2.tables.proc 1).state = .runnable ∧
            firstByte 1 r₁.2 = some [0x17] ∧ firstByte 1 r₂.2 = some [1] ∧
            firstByte 0 r₂.2 = some [0x17]) = true := by decide +kernel
  obtain ⟨⟨⟨⟩, s₁⟩, hrun₁, hrun⟩ := exists_ok_of_any hrun
  obtain ⟨⟨⟨⟩, s₂⟩, hrun₂, hrun⟩ := exists_ok_of_any hrun
  obtain ⟨hparent, hchild, hbytes⟩ := of_decide_eq_true hrun
  obtain ⟨l₁, A₁, h₁⟩ :=
    (memory_isolation (fun _ => false) firstProcess_spaces growAndFork).1 s₁ hrun₁
  obtain ⟨l₂, A₂, h₂⟩ := (memory_isolation (fun _ => false) h₁.spaces childWrites).1 s₂ hrun₂
  have hquiet : ¬Changed s₁ childWrites 0 := not_or.mpr ⟨by decide, not_not.mpr hparent⟩
  exact ⟨s₁, l₁, A₁, s₂, l₂, A₂, hrun₁, h₁, hrun₂, h₂, hquiet, hchild, hbytes⟩

end Xv6.Vm
