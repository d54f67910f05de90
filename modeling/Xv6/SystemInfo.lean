import Xv6.ContextSwitches
import Xv6.ProcessLifecycle
import Xv6.PhysicalPages

/-!
# What `sysinfo` reports

`sys_sysinfo` of `sysproc.c` counts the free pages, the processes and the processes that are ready
to run. The walk of `kcollect_nproc` ends behind the slot `NCPU`, not behind the slot `NPROC`.
-/

namespace Xv6
open Function

def nCpu : ℕ := 8

namespace Vm
open LittleEndianBlocks TransitionSystems

inductive PageEvent where
  | kalloc
  | kfree (pa : ℕ)
  | write (p : ℕ) (b : Bytes pgSize)

def PageStep (m : Machine) (s : Kernel) : PageEvent → Kernel → Prop
  | .kalloc, t => ∃ r, s.kalloc = .ok (r, t)
  | .kfree pa, t => s.kfree m pa = .ok ((), t)
  | .write p b, t => s.taken p = true ∧ t = { s with page := update s.page p b }

/-- In front of `kinit`, which frees page after page, every page is in use. -/
def BeforeKinit (s : Kernel) : Prop := s.freelist = 0 ∧ ∀ p, s.taken p = true

abbrev PagesReached (m : Machine) : Kernel → Prop := Reachable BeforeKinit (PageStep m)

/-- The next `k` calls of `kalloc` hand out a page, and the one behind them does not. -/
def HandsOut (s : Kernel) : ℕ → Prop
  | 0 => ∃ t, s.kalloc = .ok (0, t)
  | k + 1 => ∃ r t, s.kalloc = .ok (r, t) ∧ r ≠ 0 ∧ HandsOut t k

/-- The loop of `kcollect_free`. -/
def countFree (page : ℕ → Bytes pgSize) : (fuel r count : ℕ) → Option ℕ
  | 0, _, _ => none
  | fuel + 1, r, count =>
    if r = 0 then some count
    else countFree page fuel (getField (page (r / pgSize)) 0 8) (count + 1)

/-- `kcollect_free`, with the product as a `uint64`. -/
def kcollectFree (fuel : ℕ) (s : Kernel) : Option ℕ :=
  (countFree s.page fuel s.freelist 0).map fun count => count * pgSize % 2 ^ 64

section Pages

variable {m : Machine} {s t : Kernel} {l : List ℕ}

theorem Heap.inUse (h : Heap m s l 0) {p : ℕ} (hp : m.InPool p) (htaken : s.taken p = true) :
    Heap m s l {p} := by
  have hnot : p ∉ l := fun hmem => by simp [h.free p hmem] at htaken
  have hnodup : l.Nodup := by simpa using h.nodup
  refine ⟨h.chain, ?_, ?_, h.free, by simpa using htaken⟩
  · simpa [Multiset.nodup_add] using ⟨hnodup, hnot⟩
  · intro q hq
    rcases Multiset.mem_add.mp hq with hq | hq
    · exact h.pool q (by simpa using hq)
    · rw [Multiset.mem_singleton.mp hq]
      exact hp

theorem Heap.pageStep {e : PageEvent} (h : Heap m s l 0) (hstep : PageStep m s e t) :
    ∃ l', Heap m t l' 0 := by
  cases e with
  | kalloc =>
    obtain ⟨r, hr⟩ := hstep
    cases l with
    | nil =>
      rw [h.kalloc_nil] at hr
      cases hr
      exact ⟨[], h⟩
    | cons p ps =>
      obtain ⟨s', hk, hheap, -⟩ := h.kalloc_cons
      rw [hk] at hr
      cases hr
      exact ⟨ps, hheap.of_le (Multiset.zero_le _)⟩
  | kfree pa =>
    have hcases : pa % pgSize = 0 ∧ m.InPool (pa / pgSize) ∧ s.taken (pa / pgSize) = true := by
      simp only [PageStep, Kernel.kfree] at hstep
      grind [Machine.InPool]
    obtain ⟨halign, hp, htaken⟩ := hcases
    have hpa : pa = pa / pgSize * pgSize :=
      (Nat.div_mul_cancel (Nat.dvd_of_mod_eq_zero halign)).symm
    obtain ⟨s', hk, hmoves⟩ := (h.inUse hp htaken).kfree
    rw [PageStep, hpa, hk] at hstep
    cases hstep
    exact ⟨_, hmoves.heap⟩
  | write p b =>
    obtain ⟨htaken, rfl⟩ := hstep
    refine ⟨l, chain_congr h.chain fun q hq => update_of_ne ?_ _ _, h.nodup, h.pool, h.free,
      h.taken⟩
    rintro rfl
    simp [h.free q hq] at htaken

theorem PagesReached.heap (h : PagesReached m s) : ∃ l, Heap m s l 0 := by
  refine h.invariant (I := fun s => ∃ l, Heap m s l 0) (fun s hs => ⟨[], ?_⟩) ?_
  · exact ⟨hs.1, by simp, by simp, by simp, by simp⟩
  · rintro s e t ⟨l, hl⟩ hstep
    exact hl.pageStep hstep

theorem Heap.handsOut (h : Heap m s l 0) : HandsOut s l.length := by
  induction l generalizing s with
  | nil => exact ⟨s, h.kalloc_nil⟩
  | cons p ps ih =>
    obtain ⟨s', hk, hheap, -⟩ := h.kalloc_cons
    have hp : m.InPool p := h.pool p (by simp)
    exact ⟨_, s', hk, hp.addr_ne_zero,
      ih (hheap.of_le (Multiset.zero_le _))⟩

theorem countFree_eq {page : ℕ → Bytes pgSize} {r fuel : ℕ} (h : Chain page r l)
    (hpos : ∀ p ∈ l, 0 < p) (hfuel : l.length < fuel) (count : ℕ) :
    countFree page fuel r count = some (count + l.length) := by
  induction l generalizing r fuel count with
  | nil =>
    obtain ⟨fuel, rfl⟩ := Nat.exists_eq_add_one.mpr hfuel
    exact if_pos h
  | cons p ps ih =>
    obtain ⟨fuel, rfl⟩ := Nat.exists_eq_add_one.mpr (Nat.zero_lt_of_lt hfuel)
    have hne : r ≠ 0 := by
      rw [h.1]
      exact Nat.mul_ne_zero (hpos p (by simp)).ne' (by decide)
    rw [countFree, if_neg hne, h.1, page_div,
      ih h.2 (fun q hq => hpos q (by simp [hq])) (by simpa using hfuel)]
    simp only [List.length_cons]
    congr 1
    omega

theorem kcollectFree_eq (h : PagesReached m s) {fuel : ℕ} (hfuel : 0x8000 < fuel) :
    ∃ k, HandsOut s k ∧ kcollectFree fuel s = some (pgSize * k) := by
  obtain ⟨l, hl⟩ := h.heap
  have hlen : l.length ≤ 0x8000 := by
    have := hl.card_le
    simpa using this
  have hpos (p : ℕ) (hp : p ∈ l) : 0 < p := Machine.inPool_pos (hl.pool p (by simpa using hp))
  refine ⟨l.length, hl.handsOut, ?_⟩
  have hlt : l.length * pgSize < 2 ^ 64 := by
    rw [pgSize]
    omega
  rw [kcollectFree, countFree_eq hl.chain hpos (by omega), Option.map_some, Nat.zero_add,
    Nat.mod_eq_of_lt hlt, Nat.mul_comm]

end Pages

end Vm

namespace Process
open TransitionSystems SleepWakeupMonitors KillableMonitors MonitorAssertions OperationPrograms

variable {n : ℕ}

/-- The state that `enum procstate` gives a slot. Which of the processes that are not asleep
are on a CPU is up to the schedulers. -/
def procstate (s : Processes n) (running : Fin n → Bool) (p : Fin n) : Scheduler.ProcState :=
  match (s.shared.proc p).state with
  | .unused => .unused
  | .used => .used
  | .zombie => .zombie
  | .live =>
    match s.phase p with
    | .asleep _ _ => .sleeping
    | _ => if running p then .running else .runnable

def kcollectNproc (state : Fin nProc → Scheduler.ProcState) : ℕ :=
  ((List.finRange nProc).take nCpu).countP fun p => state p ≠ .unused

def kcollectLoad (state : Fin nProc → Scheduler.ProcState) : ℕ :=
  (List.finRange nProc).countP fun p => state p = .running ∨ state p = .runnable

def inUse (t : Table n) : ℕ := (Finset.univ.filter fun p => t.st p ≠ .unused).card

/-- `fork` finds the unused slot `x` and memory for the child. -/
def Takes (t : Table n) (ctl : Fin n → Control n) (t' : Table n) (ctl' : Fin n → Control n)
    (x : Fin n) : Prop :=
  t.st x = .unused ∧ t'.st x = .used ∧
    ∃ p todo, ctl p = .alloc (x :: todo) ∧ ctl' p = .adopt x t.nextpid

inductive UseStep (t : Table n) (ctl : Fin n → Control n) (t' : Table n)
    (ctl' : Fin n → Control n) : Prop where
  | same (eq : ∀ x, t'.st x = .unused ↔ t.st x = .unused)
  | taken (x : Fin n) (takes : Takes t ctl t' ctl' x) (eq : t'.st = update t.st x .used)
  | freed (x : Fin n) (reaps : Reaps t ctl t' ctl' x) (eq : t'.st = update t.st x .unused)

section Uses

variable {t t' : Table n} {ctl ctl' : Fin n → Control n} {p : Fin n} {l l' : Control n}

theorem UseStep.of_eq (h : t'.st = t.st) : UseStep t ctl t' ctl' :=
  .same fun x => by rw [h]

theorem UseStep.of_update {x : Fin n} {v : ProcState} (h : t'.st = update t.st x v)
    (hx : t.st x = .unused ↔ v = .unused) : UseStep t ctl t' ctl' := by
  refine .same fun y => ?_
  rw [h, update_apply]
  split
  · rw [‹y = x›, hx]
  · rfl

variable [NeZero n]

theorem move_uses (hrel : Related t ctl) (hl : ctl p = l) :
    MoveAll (fun l' t' => UseStep t ctl t' (update ctl p l')) t (move p l t) := by
  cases l with
  | adopt np pid => exact .of_eq (t.st_modify_same np rfl)
  | reparent status todo =>
    cases todo with
    | nil => exact .of_eq rfl
    | cons y todo =>
      simp only [move]
      split
      · exact .of_eq (t.st_modify_same y rfl)
      · exact .of_eq rfl
  | die status =>
    have hlive : t.st p = .live := hrel.thread p (by simp [hl])
    have hst := t.st_modify p fun q => { q with xstate := status, state := .zombie }
    exact .of_update hst (by simp [hlive])
  | waitScan addr havekids todo =>
    cases todo with
    | nil => cases havekids <;> exact .of_eq rfl
    | cons y todo =>
      simp only [move]
      split
      · split
        · split
          · exact .of_eq rfl
          · refine .freed y ⟨‹_›, t.modify_self y _, p, addr, havekids, todo, ‹_›, hl, ‹_›, ?_⟩
              (t.st_modify y _)
            exact update_self p _ ctl
        · exact .of_eq rfl
      · exact .of_eq rfl
  | waitKilled addr =>
    simp only [move]
    split <;> exact .of_eq rfl
  | _ => exact .of_eq rfl

theorem ran_uses (hrel : Related t ctl) (hl : ctl p = l) (hr : Ran p t l l' t') :
    UseStep t ctl t' (update ctl p l') := by
  cases hr with
  | fault l user => exact .of_eq (t.st_modify_same p rfl)
  | alloc x todo unused =>
    have hst : (t.allocproc x true).st = update t.st x .used := t.st_allocproc x true
    refine .taken x ⟨unused, ?_, p, todo, hl, update_self p _ ctl⟩ hst
    rw [hst, update_self]
  | fail x todo unused =>
    have hst : t.st x = .unused := unused
    exact .of_update (t.st_allocproc x false) (by simp [hst])
  | publish np pid =>
    have hused : t.st np = .used := hrel.forking p np (by simp [hl, Control.child?])
    exact .of_update (t.st_modify np _) (by simp [hused])
  | _ => exact .of_eq rfl

theorem useStep_of_step {s s' : Processes n} {e : KEvent (Fin n) Choice} (hs : Reached s)
    (h : Step s e s') : UseStep s.shared s.control s'.shared s'.control := by
  have hrel := hs.lifecycle.related
  refine next_keeps (Q := UseStep s.shared s.control) (.of_eq rfl) (fun _ _ _ _ _ => .of_eq rfl)
    (fun p l _ hl => move_uses hrel hl)
    (fun p k l l' sh' hl hr => ran_uses hrel hl (ran_of_run hr)) (fun q _ => ?_) h
  have hst : ((flags n).kill q s.shared).st = s.shared.st :=
    s.shared.st_modify_same (f := fun q => { q with killed := true, marked := true }) q rfl
  exact .of_eq hst

omit [NeZero n] in
theorem inUse_of_update {x : Fin n} {v : ProcState} (hx : t.st x = .unused) (hv : v ≠ .unused)
    (h : t'.st = update t.st x v) : inUse t' = inUse t + 1 := by
  have hset : (Finset.univ.filter fun p => t'.st p ≠ .unused) =
      insert x (Finset.univ.filter fun p => t.st p ≠ .unused) := by
    ext y
    rw [h]
    by_cases hy : y = x <;> simp [hy, hv]
  rw [inUse, hset, Finset.card_insert_of_notMem (by simp [hx])]
  rfl

omit [NeZero n] in
theorem Reaps.st {x : Fin n} (h : Reaps t ctl t' ctl' x) : t.st x = .zombie ∧ t'.st x = .unused :=
  ⟨h.1, by rw [Table.st, h.2.1]; rfl⟩

omit [NeZero n] in
theorem UseStep.count (h : UseStep t ctl t' ctl') :
    (∀ x, Takes t ctl t' ctl' x → inUse t' = inUse t + 1) ∧
      (∀ x, Reaps t ctl t' ctl' x → inUse t' + 1 = inUse t) ∧
      ((∀ x, ¬Takes t ctl t' ctl' x) → (∀ x, ¬Reaps t ctl t' ctl' x) → inUse t' = inUse t) := by
  cases h with
  | same eq =>
    refine ⟨fun x hx => ?_, fun x hx => ?_, fun _ _ => ?_⟩
    · exact absurd (((eq x).mpr hx.1).symm.trans hx.2.1) (by decide)
    · exact absurd (((eq x).mp hx.st.2).symm.trans hx.st.1) (by decide)
    · simp only [inUse, ne_eq, eq]
  | taken x takes eq =>
    refine ⟨fun _ _ => inUse_of_update takes.1 (by decide) eq, fun y hy => ?_, fun hno _ => ?_⟩
    · have hst := hy.st.2
      rw [eq, update_apply] at hst
      split at hst
      · cases hst
      · exact absurd (hst.symm.trans hy.st.1) (by decide)
    · exact absurd takes (hno x)
  | freed x reaps eq =>
    have hback : t.st = update t'.st x .zombie := by
      rw [eq, update_idem, ← reaps.st.1, update_eq_self]
    refine ⟨fun y hy => ?_, fun _ _ => (inUse_of_update reaps.st.2 (by decide) hback).symm,
      fun _ hno => ?_⟩
    · have hst := hy.2.1
      rw [eq, update_apply] at hst
      split at hst
      · cases hst
      · exact absurd (hy.1.symm.trans hst) (by decide)
    · exact absurd reaps (hno x)

end Uses

structure Sysinfo where
  freemem : ℕ
  nproc : ℕ
  load : ℕ
  deriving DecidableEq, Repr

/-- `sys_sysinfo`, with the result of `copyout`: the struct, and what the call returns. -/
def sysSysinfo (fuel : ℕ) (copied : Bool) (state : Fin nProc → Scheduler.ProcState)
    (k : Vm.Kernel) : Option (Sysinfo × ℤ) :=
  (Vm.kcollectFree fuel k).map fun freemem =>
    (⟨freemem, kcollectNproc state, kcollectLoad state⟩, if copied then 0 else -1)

structure Truthful (state : Fin nProc → Scheduler.ProcState) (k : Vm.Kernel) (info : Sysinfo) :
    Prop where
  nproc : info.nproc = (Finset.univ.filter fun p => state p ≠ .unused).card
  load : info.load = (Finset.univ.filter fun p => state p = .running ∨ state p = .runnable).card
  freemem : ∃ pages, Vm.HandsOut k pages ∧ info.freemem = Vm.pgSize * pages

def LowSlots (t : Table nProc) : Prop := ∀ p : Fin nProc, nCpu ≤ p.val → t.st p = .unused

section Report

variable {state : Fin nProc → Scheduler.ProcState} {s : Processes nProc}

theorem card_filter_eq_countP (c : Fin n → Bool) :
    (Finset.univ.filter fun p => c p = true).card = (List.finRange n).countP c := by
  have hset : (Finset.univ.filter fun p => c p = true) = ((List.finRange n).filter c).toFinset := by
    ext p
    simp
  rw [hset, List.toFinset_card_of_nodup ((List.nodup_finRange n).filter c),
    List.countP_eq_length_filter]

theorem mem_drop_finRange {k : ℕ} {p : Fin n} : p ∈ (List.finRange n).drop k ↔ k ≤ p.val := by
  rw [List.mem_drop_iff_getElem]
  constructor
  · rintro ⟨i, hi, rfl⟩
    simp
  · intro hp
    refine ⟨p.val - k, ?_, ?_⟩
    · simp
      omega
    · ext
      simp
      omega

theorem kcollectNproc_eq_iff :
    kcollectNproc state = (Finset.univ.filter fun p => state p ≠ .unused).card ↔
      ∀ p : Fin nProc, nCpu ≤ p.val → state p = .unused := by
  have hcard := card_filter_eq_countP fun p => decide (state p ≠ .unused)
  have hsplit := congrArg (List.countP fun p => decide (state p ≠ .unused))
    (List.take_append_drop nCpu (List.finRange nProc))
  rw [List.countP_append] at hsplit
  simp only [decide_eq_true_eq] at hcard
  rw [hcard, ← hsplit, kcollectNproc, left_eq_add, List.countP_eq_zero]
  simp only [mem_drop_finRange, decide_eq_true_eq, not_not]

theorem kcollectLoad_eq : kcollectLoad state =
    (Finset.univ.filter fun p => state p = .running ∨ state p = .runnable).card := by
  have hcard := card_filter_eq_countP fun p => decide (state p = .running ∨ state p = .runnable)
  simp only [decide_eq_true_eq] at hcard
  rw [hcard, kcollectLoad]

theorem procstate_unused (running : Fin nProc → Bool) (p : Fin nProc) :
    procstate s running p = .unused ↔ s.shared.st p = .unused := by
  rw [procstate, Table.st]
  split
  · simp [*]
  · simp [*]
  · simp [*]
  · split
    · simp [*]
    · split <;> simp [*]

theorem kcollectNproc_of_lowSlots (h : LowSlots s.shared) (running : Fin nProc → Bool) :
    kcollectNproc (procstate s running) = inUse s.shared := by
  rw [kcollectNproc_eq_iff.mpr fun p hp => (procstate_unused running p).mpr (h p hp)]
  simp only [ne_eq, procstate_unused]
  rfl

end Report

/-- The number of processes that `sysinfo` reports is right if and only if no slot behind the
first `NCPU` is in use, and as long as this holds every successful `fork` adds one to it and
every `wait` that reaps a child takes one away. The other two numbers are always right. -/
theorem sysinfo_truthful_iff {s : Processes nProc} {m : Vm.Machine} {k : Vm.Kernel}
    (hs : Reached s) (hk : Vm.PagesReached m k) (running : Fin nProc → Bool) (copied : Bool)
    {fuel : ℕ} (hfuel : 0x8000 < fuel) :
    ∃ info, sysSysinfo fuel copied (procstate s running) k =
        some (info, if copied then 0 else -1) ∧
      (Truthful (procstate s running) k info ↔ LowSlots s.shared) ∧
      info.load = (Finset.univ.filter fun p =>
        procstate s running p = .running ∨ procstate s running p = .runnable).card ∧
      (∃ pages, Vm.HandsOut k pages ∧ info.freemem = Vm.pgSize * pages) ∧
      ∀ e s' running', Step s e s' → LowSlots s.shared → LowSlots s'.shared →
        (∀ x, Takes s.shared s.control s'.shared s'.control x →
          kcollectNproc (procstate s' running') = info.nproc + 1) ∧
        (∀ x, Reaps s.shared s.control s'.shared s'.control x →
          kcollectNproc (procstate s' running') + 1 = info.nproc) ∧
        ((∀ x, ¬Takes s.shared s.control s'.shared s'.control x) →
          (∀ x, ¬Reaps s.shared s.control s'.shared s'.control x) →
          kcollectNproc (procstate s' running') = info.nproc) := by
  obtain ⟨pages, hpages, hfree⟩ := Vm.kcollectFree_eq hk hfuel
  refine ⟨⟨Vm.pgSize * pages, kcollectNproc (procstate s running),
    kcollectLoad (procstate s running)⟩, ?_, ⟨fun h => ?_, fun h => ?_⟩, kcollectLoad_eq,
    ⟨pages, hpages, rfl⟩, fun e s' running' hstep hlow hlow' => ?_⟩
  · rw [sysSysinfo, hfree]
    rfl
  · intro p hp
    exact (procstate_unused running p).mp (kcollectNproc_eq_iff.mp h.nproc p hp)
  · refine ⟨?_, kcollectLoad_eq, pages, hpages, rfl⟩
    exact kcollectNproc_eq_iff.mpr fun p hp => (procstate_unused running p).mpr (h p hp)
  · rw [kcollectNproc_of_lowSlots hlow', kcollectNproc_of_lowSlots hlow]
    exact (useStep_of_step hs hstep).count

/-- Memory in front of `kinit`. -/
def fullMemory : Vm.Kernel where
  page _ _ := 0
  freelist := 0
  tables :=
    { proc := fun _ => ⟨.unused, 0, 0, none, 0, 0, 0, fun _ => none, []⟩
      nextpid := 1
      file := fun _ => ⟨.none, 0, false, false, 0⟩ }
  calls := 0
  taken _ := true
  stale _ _ := false

theorem fullMemory_reached (m : Vm.Machine) : Vm.PagesReached m fullMemory :=
  ⟨fullMemory, [], ⟨rfl, fun _ => rfl⟩, .nil fullMemory⟩

/-- `initproc` forks the child in the slot `k + 1`; the slots below are in use. -/
def forkInto (k : ℕ) : List (KEvent (Fin nProc) Choice) :=
  .step (.run 0 .fork) :: List.replicate (k + 2) (.step (.run 0 (.next true))) ++
    [.step (.acquire 0), .step (.move 0), .step (.run 0 (.next true))]

def smallImage : Vm.Machine := 
  ⟨0x80001, 0x80002, Nat.le_of_ble_eq_true rfl, Nat.le_of_ble_eq_true rfl,
    Nat.le_of_ble_eq_true rfl⟩

theorem twoPages_reached : ∃ k, Vm.PagesReached smallImage k ∧
    Vm.kcollectFree 0x8001 k = some (2 * Vm.pgSize) := by
  obtain ⟨⟨⟨⟩, k₁⟩, h₁, htest⟩ := exists_ok_of_any (x := fullMemory.kfree smallImage 0x87ffe000)
    (p := fun r₁ => (r₁.2.kfree smallImage 0x87fff000).toOption.any fun r₂ =>
      Vm.kcollectFree 0x8001 r₂.2 = some (2 * Vm.pgSize)) (by decide +kernel)
  obtain ⟨⟨⟨⟩, k₂⟩, h₂, hfree⟩ := exists_ok_of_any htest
  have hstep₁ : Vm.PageStep smallImage fullMemory (.kfree 0x87ffe000) k₁ := h₁
  have hstep₂ : Vm.PageStep smallImage k₁ (.kfree 0x87fff000) k₂ := h₂
  exact ⟨k₂, ((fullMemory_reached smallImage).step hstep₁).step hstep₂, of_decide_eq_true hfree⟩

/-- After the first `fork`, with two free pages. -/
theorem sysinfo_truthful_iff_forked : ∃ s k info, Reached s ∧ Vm.PagesReached smallImage k ∧
    sysSysinfo 0x8001 true (procstate s fun _ => false) k = some (info, 0) ∧
      Truthful (procstate s fun _ => false) k info ∧ info.nproc = 2 ∧
      info.freemem = 2 * Vm.pgSize := by
  have hrun : (exec (next (monitor nProc) (flags nProc)) (boot nProc)
      (.step (.run 0 .start) :: forkInto 0)).any (fun s =>
        kcollectNproc (procstate s fun _ => false) = 2 ∧
        ∀ p : Fin nProc, nCpu ≤ p.val → s.shared.st p = .unused) = true := by
    decide +kernel
  obtain ⟨s, hs, htwo, hlow⟩ := exists_of_any hrun
  obtain ⟨k, hk, hfree⟩ := twoPages_reached
  have hreach : Reached s := reachable_of_exec hs
  obtain ⟨info, hinfo, htrue, -⟩ := sysinfo_truthful_iff hreach hk (fun _ => false) true
    (show 0x8000 < 0x8001 by decide)
  rw [sysSysinfo, hfree] at hinfo
  obtain ⟨rfl, -⟩ := Prod.mk.inj (Option.some.inj hinfo)
  exact ⟨s, k, _, hreach, hk, by rw [sysSysinfo, hfree]; rfl, htrue.mpr hlow, htwo, rfl⟩

/-- With `initproc` and eight children there are nine processes, of which `sysinfo` reports
eight. -/
theorem sysinfo_eight_of_nine : ∃ s, Reached s ∧ inUse s.shared = 9 ∧
    (sysSysinfo 1 true (procstate s fun _ => false) fullMemory).map (fun r => r.1.nproc) =
      some 8 := by
  have hrun : (exec (next (monitor nProc) (flags nProc)) (boot nProc)
      (.step (.run 0 .start) :: (List.range 8).flatMap forkInto)).any (fun s =>
        inUse s.shared = 9 ∧
        (sysSysinfo 1 true (procstate s fun _ => false) fullMemory).map (fun r => r.1.nproc) =
          some 8) = true := by
    decide +kernel
  obtain ⟨s, hs, huse, hnproc⟩ := exists_of_any hrun
  exact ⟨s, reachable_of_exec hs, huse, hnproc⟩

end Process

end Xv6
