import Xv6.CountingProcesses
import Xv6.LogStructure
import Xv6.SleepWakeupMonitors
import Mathlib.Data.List.FinRange

/-!
# Group commit: `begin_op`, `log_write`, `end_op` and `commit` by any number of processes

The log is a monitor guarded by `log.lock`. The pieces of code that run with the lock held
are those of `Xv6.Log`; `commit()` runs without the lock, one block or one assignment at a
time. Which blocks an operation logs, and when, is left open.
-/

namespace Xv6.GroupCommit
open TransitionSystems CountingProcesses SleepWakeupMonitors Function

/-- One `log_write` that was accepted: the operation that issued it, its block, and how
many transactions had been committed before. -/
structure Landed where
  op : ℕ
  block : ℕ
  txn : ℕ
  deriving DecidableEq, Repr

/-- The log, the pins `bpin` put on every block, and the history: the accepted
`log_write`s, the number of finished commits, and the number of operations begun. -/
structure Shared where
  log : Log
  pins : ℕ → ℕ
  landed : List Landed
  txn : ℕ
  ops : ℕ

/-- The points of `commit()`, up to the last critical section of `end_op`. -/
inductive CommitPc where
  | test
  | writeLog (tail : ℕ)
  | writeHead
  | install (tail : ℕ)
  | clear
  | writeHeadAgain
  | done
  deriving DecidableEq, Repr

inductive Control where
  | idle
  | beginOp
  | inOp (op : ℕ)
  | logWrite (op b : ℕ)
  | endOp (op : ℕ)
  | commit (pc : CommitPc)
  | leave
  deriving DecidableEq, Repr

/-- The operation a process is in, between the end of `begin_op` and the first critical
section of `end_op`. -/
def Control.op? : Control → Option ℕ
  | .inOp op | .logWrite op _ | .endOp op => some op
  | _ => none

def Control.pc? : Control → Option CommitPc
  | .commit pc => some pc
  | _ => none

theorem Control.pc?_eq_some {l : Control} {pc : CommitPc} : l.pc? = some pc ↔ l = .commit pc := by
  cases l <;> simp [Control.pc?]

/-- What a process does next without the lock, where the code leaves it open. -/
inductive Choice where
  | write (b : ℕ)
  | finish
  | advance

def commitStep (sh : Shared) : CommitPc → Option (CommitPc × Shared)
  | .test => some (if sh.log.lh.length > 0 then .writeLog 0 else .done, sh)
  | .writeLog tail =>
    some (if tail < sh.log.lh.length then .writeLog (tail + 1) else .writeHead, sh)
  | .writeHead => some (.install 0, sh)
  | .install tail => match sh.log.lh[tail]? with
    | some b => some (.install (tail + 1),
        { sh with pins := update sh.pins b (sh.pins b - 1) })
    | none => some (.clear, sh)
  | .clear => some (.writeHeadAgain, { sh with log := { sh.log with lh := [] }, txn := sh.txn + 1 })
  | .writeHeadAgain => some (.done, sh)
  | .done => none

/-- The points at which a process waits for `log.lock`. -/
def enter : Control → Option Control
  | .idle => some .beginOp
  | .logWrite op b => some (.logWrite op b)
  | .endOp op => some (.endOp op)
  | .commit .done => some (.commit .done)
  | _ => none

def move (l : Control) (sh : Shared) : Move Unit Control Shared LogPanic :=
  match l with
  | .beginOp => match sh.log.beginOp with
    | none => .sleep () .beginOp
    | some lg => .release (.inOp sh.ops) { sh with log := lg, ops := sh.ops + 1 }
  | .logWrite op b => match sh.log.logWrite b with
    | .error x => .panic x
    | .ok (lg, pin) => .release (.inOp op) { sh with
        log := lg
        pins := if pin then update sh.pins b (sh.pins b + 1) else sh.pins
        landed := ⟨op, b, sh.txn⟩ :: sh.landed }
  | .endOp _ => match sh.log.endOp with
    | .error x => .panic x
    | .ok (lg, true) => .release (.commit .test) { sh with log := lg }
    | .ok (lg, false) => .wakeup () .leave { sh with log := lg }
  | .commit .done => .wakeup () .leave { sh with log := sh.log.endCommit }
  | .leave => .release .idle sh
  | l => .stay l sh

def run : Choice → Control → Shared → Option (Control × Shared)
  | .write b, .inOp op, sh => some (.logWrite op b, sh)
  | .finish, .inOp op, sh => some (.endOp op, sh)
  | .advance, .commit pc, sh => (commitStep sh pc).map fun (pc', sh') => (.commit pc', sh')
  | _, _, _ => none

def monitor (n : ℕ) : Monitor (Fin n) Unit Control Shared LogPanic Choice where
  procs := List.finRange n
  enter := enter
  move _ := move
  run _ := run

abbrev LogUsers (n : ℕ) := State (Fin n) Unit Control Shared LogPanic

/-- After `initlog`: an empty log in an area of the disk, and nobody using it. -/
def initial (n start size : ℕ) : LogUsers n where
  shared := ⟨⟨start, size, 0, false, []⟩, fun _ => 0, [], 0, 0⟩
  lock := none
  phase _ := .outside .idle
  panicked := none

/-- Every block of a list holds one pin, and no other block holds any. -/
def Pinned (sh : Shared) (l : List ℕ) : Prop := ∀ b, sh.pins b = if b ∈ l then 1 else 0

/-- What holds at a point of `commit()`. -/
def CommitPc.Holds (sh : Shared) : CommitPc → Prop
  | .test | .writeLog _ | .writeHead => Pinned sh sh.log.lh
  | .install tail => Pinned sh (sh.log.lh.drop tail)
  | .clear => Pinned sh []
  | .writeHeadAgain | .done => sh.log.lh = [] ∧ Pinned sh []

variable {P : Type*} [Fintype P]

/-- The invariant of the shared state, given the operation and the point of `commit()`
of every process. -/
structure Inv (sh : Shared) (op : P → Option ℕ) (pc : P → Option CommitPc) : Prop where
  outstanding : sh.log.outstanding = count op
  committing : sh.log.committing.toNat = count pc
  exclusive : sh.log.committing = true → sh.log.outstanding = 0
  nodup : sh.log.lh.Nodup
  current : ∀ b, b ∈ sh.log.lh ↔ ∃ r ∈ sh.landed, r.block = b ∧ r.txn = sh.txn
  open_ : sh.log.committing = false →
    Pinned sh sh.log.lh ∧ (sh.log.outstanding = 0 → sh.log.lh = [])
  commit : ∀ p x, pc p = some x → x.Holds sh
  past : ∀ r ∈ sh.landed, r.op < sh.ops ∧ r.txn ≤ sh.txn
  running : ∀ p id, op p = some id → id < sh.ops ∧ ∀ r ∈ sh.landed, r.op = id → r.txn = sh.txn
  sameTxn : ∀ r ∈ sh.landed, ∀ r' ∈ sh.landed, r.op = r'.op → r.txn = r'.txn

section Steps

variable {sh : Shared} {op : P → Option ℕ} {pc : P → Option CommitPc} {p q : P}

theorem Inv.committing_of_pc (h : Inv sh op pc) {x : CommitPc} (hp : pc p = some x) :
    sh.log.committing = true := by
  have hpos := count_pos hp
  have hc := h.committing
  cases hb : sh.log.committing
  · rw [hb] at hc
    simp at hc
    omega
  · rfl

theorem Inv.exists_pc (h : Inv sh op pc) (hc : sh.log.committing = true) :
    ∃ p x, pc p = some x := by
  by_contra hnone
  have hzero : count pc = 0 := count_eq_zero.mpr fun p => by
    cases hp : pc p with
    | none => rfl
    | some x => exact absurd ⟨p, x, hp⟩ hnone
  have hcomm := h.committing
  rw [hc, hzero] at hcomm
  cases hcomm

theorem Inv.op_of_pc (h : Inv sh op pc) {x : CommitPc} (hp : pc p = some x) (q : P) :
    op q = none := by
  have hzero : (count op : ℤ) = 0 := h.outstanding ▸ h.exclusive (h.committing_of_pc hp)
  exact count_eq_zero.mp (by omega) q

theorem Inv.outstanding_of_op (h : Inv sh op pc) {id : ℕ} (hp : op p = some id) :
    1 ≤ sh.log.outstanding := by
  have hpos := count_pos hp
  rw [h.outstanding]
  omega

theorem Inv.not_committing_of_op (h : Inv sh op pc) {id : ℕ} (hp : op p = some id) :
    sh.log.committing = false := by
  have hpos := h.outstanding_of_op hp
  cases hb : sh.log.committing
  · rfl
  · have := h.exclusive hb
    omega

theorem Inv.pc_none (h : Inv sh op pc) (hb : sh.log.committing = false) (q : P) : pc q = none := by
  have hzero := h.committing
  rw [hb] at hzero
  exact count_eq_zero.mp hzero.symm q

variable [DecidableEq P]

theorem Inv.pc_unique (h : Inv sh op pc) {x y : CommitPc} (hp : pc p = some x)
    (hq : pc q = some y) : p = q := by
  refine eq_of_count_le_one ?_ hp hq
  rw [← h.committing]
  exact Bool.toNat_le _

theorem Inv.begin (h : Inv sh op pc) {lg : Log} (hp : op p = none)
    (hb : sh.log.beginOp = some lg) :
    Inv { sh with log := lg, ops := sh.ops + 1 } (update op p (some sh.ops)) pc := by
  have hcount := count_update op p (some sh.ops)
  simp only [hp, Option.isSome_none, Option.isSome_some, Bool.toNat_false, Bool.toNat_true]
    at hcount
  have hout := h.outstanding
  obtain ⟨hc, -, rfl⟩ := Log.beginOp_some hb
  refine ⟨?_, h.committing, fun hc' => ?_, h.nodup, h.current, fun _ => ⟨(h.open_ hc).1, ?_⟩,
    fun q x hq => ?_, fun r hr => ⟨?_, (h.past r hr).2⟩, ?_, h.sameTxn⟩
  · simp only
    omega
  · simp [hc] at hc'
  · intro h0
    simp only at h0
    omega
  · simp [h.pc_none hc q] at hq
  · have := (h.past r hr).1
    simp only
    omega
  · intro q id hq
    by_cases hqp : q = p
    · subst hqp
      simp only [update_self, Option.some.injEq] at hq
      subst hq
      refine ⟨by simp, fun r hr hrop => ?_⟩
      have := (h.past r hr).1
      omega
    · rw [update_of_ne hqp] at hq
      have := h.running q id hq
      exact ⟨by simp only; omega, this.2⟩

theorem pinned_absorb {l : List ℕ} {b : ℕ} (h : Pinned sh l) (lg : Log) (rs : List Landed) :
    Pinned { sh with
      log := lg
      pins := if b ∉ l then update sh.pins b (sh.pins b + 1) else sh.pins
      landed := rs } (Log.absorb b l) := by
  intro x
  have hx := h x
  simp only [Log.mem_absorb]
  by_cases hb : b ∈ l
  · by_cases hxb : x = b
    · subst hxb
      simpa [hb] using hx
    · simpa [hb, hxb] using hx
  · by_cases hxb : x = b
    · subst hxb
      simpa [hb] using hx
    · simpa [hb, hxb] using hx

omit [DecidableEq P] in
theorem Inv.write (h : Inv sh op pc) {id b : ℕ} {lg : Log} {pin : Bool} (hp : op p = some id)
    (hw : sh.log.logWrite b = .ok (lg, pin)) :
    Inv { sh with
      log := lg
      pins := if pin then update sh.pins b (sh.pins b + 1) else sh.pins
      landed := ⟨id, b, sh.txn⟩ :: sh.landed } op pc := by
  obtain ⟨-, -, hout, rfl, rfl⟩ := Log.logWrite_ok hw
  have hc := h.not_committing_of_op hp
  refine ⟨h.outstanding, h.committing, h.exclusive, Log.nodup_absorb h.nodup, fun x => ?_,
    fun _ => ⟨?_, fun h0 => ?_⟩, fun q x hq => ?_, ?_, fun q id' hq => ?_, ?_⟩
  · simp only [Log.mem_absorb, h.current, List.mem_cons, exists_eq_or_imp]
    constructor
    · rintro (rfl | hx)
      · exact .inl ⟨rfl, trivial⟩
      · exact .inr hx
    · rintro (⟨rfl, -⟩ | hx)
      · exact .inl rfl
      · exact .inr hx
  · simpa using pinned_absorb (h.open_ hc).1 _ _
  · simp only at h0
    omega
  · simp [h.pc_none hc q] at hq
  · intro r hr
    rcases List.mem_cons.mp hr with rfl | hr
    · exact ⟨(h.running p id hp).1, le_rfl⟩
    · exact h.past r hr
  · refine ⟨(h.running q id' hq).1, fun r hr hrop => ?_⟩
    rcases List.mem_cons.mp hr with rfl | hr
    · rfl
    · exact (h.running q id' hq).2 r hr hrop
  · intro r hr r' hr' heq
    rcases List.mem_cons.mp hr with rfl | hr <;> rcases List.mem_cons.mp hr' with rfl | hr'
    · rfl
    · exact ((h.running p id hp).2 r' hr' heq.symm).symm
    · exact (h.running p id hp).2 r hr heq
    · exact h.sameTxn r hr r' hr' heq

theorem Inv.finish (h : Inv sh op pc) {id : ℕ} {lg : Log} {last : Bool} (hp : op p = some id)
    (he : sh.log.endOp = .ok (lg, last)) :
    Inv { sh with log := lg } (update op p none)
      (update pc p (if last then some .test else none)) := by
  have hc := h.not_committing_of_op hp
  have hpin := (h.open_ hc).1
  have hpc := h.pc_none hc
  have hout := h.outstanding
  have hops := count_update op p none
  have hpcs := count_update pc p (if last then some .test else none)
  have hcomm := h.committing
  simp only [hp, hpc p, hc, Option.isSome_none, Option.isSome_some, Bool.toNat_false,
    Bool.toNat_true] at hops hpcs hcomm
  have hrun : ∀ q id', update op p none q = some id' →
      id' < sh.ops ∧ ∀ r ∈ sh.landed, r.op = id' → r.txn = sh.txn := by
    intro q id' hq
    by_cases hqp : q = p
    · subst hqp
      simp at hq
    · rw [update_of_ne hqp] at hq
      exact h.running q id' hq
  obtain ⟨-, hlast, rfl⟩ := Log.endOp_ok he
  refine ⟨?_, ?_, fun hl => ?_, h.nodup, h.current, fun hl => ⟨hpin, fun h0 => ?_⟩,
    fun q x hq => ?_, h.past, hrun, h.sameTxn⟩
  · simp only
    omega
  · simp only [hcomm.symm, Nat.add_zero, Nat.zero_add] at hpcs ⊢
    rw [hpcs]
    cases last <;> rfl
  · simp only at hl
    rw [hl] at hlast
    exact of_decide_eq_true hlast.symm
  · simp only at hl
    rw [hl] at hlast
    exact absurd h0 (of_decide_eq_false hlast.symm)
  · by_cases hqp : q = p
    · subst hqp
      rw [update_self] at hq
      split at hq
      · cases hq
        exact hpin
      · cases hq
    · simp [update_of_ne hqp, hpc q] at hq

/-- Each step of `commit` brings about what the next point assumes. -/
theorem commitStep_holds {x x' : CommitPc} {sh' : Shared} (hn : sh.log.lh.Nodup)
    (h : x.Holds sh) (hs : commitStep sh x = some (x', sh')) : x'.Holds sh' := by
  cases x with
  | test =>
    simp only [commitStep, Option.some.injEq, Prod.mk.injEq] at hs
    obtain ⟨rfl, rfl⟩ := hs
    split
    · exact h
    · rename_i hlen
      have hnil : sh.log.lh = [] := List.length_eq_zero_iff.mp (by omega)
      have h : Pinned sh sh.log.lh := h
      exact ⟨hnil, hnil ▸ h⟩
  | writeLog tail =>
    simp only [commitStep, Option.some.injEq, Prod.mk.injEq] at hs
    obtain ⟨rfl, rfl⟩ := hs
    split <;> exact h
  | writeHead =>
    simp only [commitStep, Option.some.injEq, Prod.mk.injEq] at hs
    obtain ⟨rfl, rfl⟩ := hs
    exact h
  | install tail =>
    simp only [commitStep] at hs
    have h : Pinned sh (sh.log.lh.drop tail) := h
    split at hs
    · rename_i b hb
      cases hs
      obtain ⟨hlt, hget⟩ := List.getElem?_eq_some_iff.mp hb
      have hdrop := List.drop_eq_getElem_cons hlt
      rw [hget] at hdrop
      have hnot : b ∉ sh.log.lh.drop (tail + 1) := by
        have hnd := hn.sublist (List.drop_sublist tail _)
        rw [hdrop] at hnd
        exact (List.nodup_cons.mp hnd).1
      intro y
      have hy := h y
      rw [hdrop] at hy
      by_cases hyb : y = b
      · subst hyb
        simp only [List.mem_cons, true_or, if_true] at hy
        simp [hnot, hy]
      · simp only [List.mem_cons, hyb, false_or] at hy
        simpa [hyb] using hy
    · rename_i hb
      cases hs
      have hlen := List.getElem?_eq_none_iff.mp hb
      rw [List.drop_eq_nil_of_le hlen] at h
      exact h
  | clear =>
    simp only [commitStep, Option.some.injEq, Prod.mk.injEq] at hs
    obtain ⟨rfl, rfl⟩ := hs
    exact ⟨rfl, h⟩
  | writeHeadAgain =>
    simp only [commitStep, Option.some.injEq, Prod.mk.injEq] at hs
    obtain ⟨rfl, rfl⟩ := hs
    exact h
  | done => simp [commitStep] at hs

omit [DecidableEq P] in
theorem commitStep_keeps {x x' : CommitPc} {sh' : Shared}
    (hs : commitStep sh x = some (x', sh')) :
    sh'.landed = sh.landed ∧ sh'.ops = sh.ops ∧ sh'.log.outstanding = sh.log.outstanding ∧
      sh'.log.committing = sh.log.committing ∧
      (sh'.log.lh = sh.log.lh ∧ sh'.txn = sh.txn ∨ sh'.log.lh = [] ∧ sh'.txn = sh.txn + 1) := by
  cases x with
  | install tail =>
    simp only [commitStep] at hs
    split at hs <;> cases hs <;> simp
  | clear =>
    cases hs
    simp
  | done => cases hs
  | _ =>
    cases hs
    simp

theorem Inv.advance (h : Inv sh op pc) {x x' : CommitPc} {sh' : Shared} (hp : pc p = some x)
    (hs : commitStep sh x = some (x', sh')) : Inv sh' op (update pc p (some x')) := by
  have hc := h.committing_of_pc hp
  have hops := h.op_of_pc hp
  have hpcs := count_update pc p (some x')
  have hcomm := h.committing
  have hholds := commitStep_holds h.nodup (h.commit p x hp) hs
  obtain ⟨hlanded, hopsEq, hout, hcommEq, hlh⟩ := commitStep_keeps hs
  simp only [hp, Option.isSome_some] at hpcs
  have hc' : sh'.log.committing = true := hcommEq.trans hc
  refine ⟨hout.trans h.outstanding, ?_, fun _ => hout.trans (h.exclusive hc), ?_, ?_, ?_, ?_, ?_,
    fun q id hq => ?_, by rw [hlanded]; exact h.sameTxn⟩
  · rw [hcommEq]
    omega
  · rcases hlh with ⟨hlh, -⟩ | ⟨hlh, -⟩
    · exact hlh ▸ h.nodup
    · simp [hlh]
  · intro b
    rcases hlh with ⟨hlh, htxn⟩ | ⟨hlh, htxn⟩
    · rw [hlh, htxn, hlanded]
      exact h.current b
    · simp only [hlh, htxn, hlanded, List.not_mem_nil, false_iff, not_exists, not_and]
      intro r hr _ hrtxn
      have := (h.past r hr).2
      omega
  · simp [hc']
  · intro q y hq
    by_cases hqp : q = p
    · subst hqp
      simp only [update_self, Option.some.injEq] at hq
      exact hq ▸ hholds
    · rw [update_of_ne hqp] at hq
      exact absurd (h.pc_unique hq hp) hqp
  · intro r hr
    rw [hlanded] at hr
    have := h.past r hr
    rcases hlh with ⟨-, htxn⟩ | ⟨-, htxn⟩ <;> omega
  · simp [hops q] at hq

theorem Inv.endCommit (h : Inv sh op pc) (hp : pc p = some .done) :
    Inv { sh with log := sh.log.endCommit } op (update pc p none) := by
  have hops := h.op_of_pc hp
  have hpcs := count_update pc p none
  have hcomm := h.committing
  have hdone : sh.log.lh = [] ∧ Pinned sh [] := h.commit p _ hp
  have hnone : ∀ q, update pc p none q = none := by
    intro q
    by_cases hqp : q = p
    · simp [hqp]
    · rw [update_of_ne hqp]
      cases hq : pc q with
      | none => rfl
      | some y => exact absurd (h.pc_unique hq hp) hqp
  refine ⟨h.outstanding, ?_, by simp [Log.endCommit], h.nodup, h.current,
    fun _ => ⟨?_, fun _ => hdone.1⟩, fun q x hq => ?_, h.past, h.running, h.sameTxn⟩
  · exact (count_eq_zero.mpr hnone).symm
  · simpa [Log.endCommit, Pinned, hdone.1] using hdone.2
  · rw [hnone q] at hq
    cases hq

end Steps

section Changes

/-- What a process at a control point can do to the shared state, and where it goes. -/
inductive Change (sh : Shared) : Control → Control → Shared → Prop where
  | begin (lg : Log) (h : sh.log.beginOp = some lg) :
      Change sh .beginOp (.inOp sh.ops) { sh with log := lg, ops := sh.ops + 1 }
  | write (op b : ℕ) (lg : Log) (pin : Bool) (h : sh.log.logWrite b = .ok (lg, pin)) :
      Change sh (.logWrite op b) (.inOp op) { sh with
        log := lg
        pins := if pin then update sh.pins b (sh.pins b + 1) else sh.pins
        landed := ⟨op, b, sh.txn⟩ :: sh.landed }
  | finish (op : ℕ) (lg : Log) (last : Bool) (h : sh.log.endOp = .ok (lg, last)) :
      Change sh (.endOp op) (if last then .commit .test else .leave) { sh with log := lg }
  | advance (x x' : CommitPc) (sh' : Shared) (h : commitStep sh x = some (x', sh')) :
      Change sh (.commit x) (.commit x') sh'
  | endCommit : Change sh (.commit .done) .leave { sh with log := sh.log.endCommit }
  | relabel (l l' : Control) (op : l'.op? = l.op?) (pc : l'.pc? = l.pc?)
      (waiting : l' = l ∨ ∀ op b, l ≠ .logWrite op b) : Change sh l l' sh

variable {sh sh' : Shared} {l l' : Control}

theorem move_change (h : move l sh = .stay l' sh' ∨ move l sh = .release l' sh' ∨
    ∃ c, move l sh = .wakeup c l' sh') : Change sh l l' sh' := by
  unfold move at h
  split at h
  · split at h
    · simp at h
    · obtain ⟨rfl, rfl⟩ : .inOp sh.ops = l' ∧ _ = sh' := by simpa using h
      exact .begin _ ‹_›
  · split at h
    · simp at h
    · obtain ⟨rfl, rfl⟩ : .inOp _ = l' ∧ _ = sh' := by simpa using h
      exact .write _ _ _ _ ‹_›
  · split at h
    · simp at h
    · obtain ⟨rfl, rfl⟩ : .commit .test = l' ∧ _ = sh' := by simpa using h
      exact .finish _ _ true ‹_›
    · obtain ⟨rfl, rfl⟩ : .leave = l' ∧ _ = sh' := by simpa using h
      exact .finish _ _ false ‹_›
  · obtain ⟨rfl, rfl⟩ : .leave = l' ∧ _ = sh' := by simpa using h
    exact .endCommit
  · obtain ⟨rfl, rfl⟩ : .idle = l' ∧ sh = sh' := by simpa using h
    exact .relabel _ _ rfl rfl (.inr (by simp))
  · obtain ⟨rfl, rfl⟩ : l = l' ∧ sh = sh' := by simpa using h
    exact .relabel _ _ rfl rfl (.inl rfl)

theorem sleep_eq {c : Unit} (h : move l sh = .sleep c l') :
    l = .beginOp ∧ l' = .beginOp ∧ sh.log.beginOp = none := by
  unfold move at h
  split at h <;> first | cases h | split at h <;> cases h
  exact ⟨rfl, rfl, ‹_›⟩

theorem panic_cases {x : LogPanic} (h : move l sh = .panic x) :
    (∃ op b, l = .logWrite op b ∧ sh.log.logWrite b = .error x) ∨
      ∃ op, l = .endOp op ∧ sh.log.endOp = .error x := by
  unfold move at h
  split at h <;> first | cases h | split at h <;> cases h
  · exact .inl ⟨_, _, rfl, ‹_›⟩
  · exact .inr ⟨_, rfl, ‹_›⟩

theorem run_change {k : Choice} (h : run k l sh = some (l', sh')) : Change sh l l' sh' := by
  unfold run at h
  split at h
  · cases h
    exact .relabel _ _ rfl rfl (.inr (by simp))
  · cases h
    exact .relabel _ _ rfl rfl (.inr (by simp))
  · obtain ⟨⟨x', sh''⟩, hs, heq⟩ := Option.map_eq_some_iff.mp h
    cases heq
    exact .advance _ _ _ hs
  · cases h

theorem enter_change (h : enter l = some l') : Change sh l l' sh := by
  unfold enter at h
  split at h <;> cases h
  · exact .relabel _ _ rfl rfl (.inr (by simp))
  · exact .relabel _ _ rfl rfl (.inl rfl)
  · exact .relabel _ _ rfl rfl (.inl rfl)
  · exact .relabel _ _ rfl rfl (.inl rfl)

variable {n : ℕ} {s t : LogUsers n} {e : Event (Fin n) Choice}

theorem effect_change (he : Effect (monitor n) s t e) :
    t.shared = s.shared ∧ t.control = s.control ∨
      ∃ p l, t.control = update s.control p l ∧ Change s.shared (s.control p) l t.shared := by
  cases he with
  | none e move run shared control panicked => exact .inl ⟨shared, control⟩
  | enter p l l' at_ hto shared control panicked =>
    refine .inr ⟨p, l', control, ?_⟩
    rw [control_eq at_, shared]
    exact enter_change hto
  | move p l l' s' at_ mv shared control panicked =>
    refine .inr ⟨p, l', control, ?_⟩
    rw [control_eq at_, shared]
    exact move_change mv
  | sleep p l l' c at_ mv shared control panicked =>
    obtain ⟨rfl, rfl, -⟩ := sleep_eq mv
    refine .inl ⟨shared, ?_⟩
    rw [control, update_eq_self_iff, control_eq at_]
    rfl
  | run p k l l' s' at_ step shared control panicked =>
    refine .inr ⟨p, l', control, ?_⟩
    rw [control_eq at_, shared]
    exact run_change step
  | panic p l x at_ mv shared control panicked => exact .inl ⟨shared, control⟩

end Changes

section Runs

variable {n : ℕ} {s t : LogUsers n}

def StateInv (s : LogUsers n) : Prop :=
  Inv s.shared (fun p => (s.control p).op?) (fun p => (s.control p).pc?)

variable {sh sh' : Shared}

/-- Every change of the log by one process keeps the invariant. -/
theorem Inv.change {ctl : Fin n → Control} {p : Fin n} {l : Control}
    (h : Inv sh (fun q => (ctl q).op?) (fun q => (ctl q).pc?)) (hc : Change sh (ctl p) l sh') :
    Inv sh' (fun q => (update ctl p l q).op?)
      (fun q => (update ctl p l q).pc?) := by
  have hop₀ : ∀ l, ctl p = l → (ctl p).op? = l.op? := fun l hl => by rw [hl]
  have hpc₀ : ∀ l, ctl p = l → (ctl p).pc? = l.pc? := fun l hl => by rw [hl]
  generalize hl : ctl p = l₀ at hc
  specialize hop₀ l₀ hl
  specialize hpc₀ l₀ hl
  cases hc with
  | begin lg hb =>
    rw [read_update, read_update_same Control.pc? ctl p (.inOp sh.ops) hpc₀.symm]
    exact h.begin hop₀ hb
  | write op b lg pin hw =>
    rw [read_update_same Control.op? ctl p (.inOp op) hop₀.symm,
      read_update_same Control.pc? ctl p (.inOp op) hpc₀.symm]
    exact h.write hop₀ hw
  | finish op lg last he =>
    rw [read_update, read_update]
    cases last
    · exact h.finish hop₀ he
    · exact h.finish hop₀ he
  | advance x x' sh' hs =>
    rw [read_update_same Control.op? ctl p (.commit x') hop₀.symm, read_update]
    exact h.advance hpc₀ hs
  | endCommit =>
    rw [read_update_same Control.op? ctl p .leave hop₀.symm, read_update]
    exact h.endCommit hpc₀
  | relabel l₀ l' hop hpc _ =>
    rw [read_update_same Control.op? ctl p _ (hop.trans hop₀.symm),
      read_update_same Control.pc? ctl p _ (hpc.trans hpc₀.symm)]
    exact h

theorem StateInv.step (h : StateInv s) (he : Effect (monitor n) s t e) : StateInv t := by
  unfold StateInv
  rcases effect_change he with ⟨hshared, hcontrol⟩ | ⟨p, l, hcontrol, hchange⟩
  · rw [hshared, hcontrol]
    exact h
  · rw [hcontrol]
    exact Inv.change h hchange

/-- `log.committing` and `log_write outside of trans` are never printed. -/
def NoLogPanic (s : LogUsers n) : Prop :=
  s.panicked ≠ some .committing ∧ s.panicked ≠ some .outsideOfTrans

theorem NoLogPanic.step (h : NoLogPanic s) (hi : StateInv s) (he : Effect (monitor n) s t e) :
    NoLogPanic t := by
  unfold NoLogPanic
  cases he with
  | panic p l x at_ mv shared control panicked =>
    have hctl : s.control p = l := control_eq at_
    rw [panicked]
    rcases panic_cases mv with ⟨op, b, rfl, herr⟩ | ⟨op, rfl, herr⟩
    · have hop : (s.control p).op? = some op := by rw [hctl]; rfl
      have hout := Inv.outstanding_of_op hi hop
      unfold Log.logWrite at herr
      split at herr
      · cases herr
        simp
      · split at herr
        · omega
        · cases herr
    · have hop : (s.control p).op? = some op := by rw [hctl]; rfl
      have hc := Inv.not_committing_of_op hi hop
      unfold Log.endOp at herr
      rw [hc] at herr
      simp only [Bool.false_eq_true, if_false] at herr
      split at herr <;> cases herr
  | none _ _ _ _ _ panicked => rw [panicked]; exact h
  | enter _ _ _ _ _ _ _ panicked => rw [panicked]; exact h
  | move _ _ _ _ _ _ _ _ panicked => rw [panicked]; exact h
  | sleep _ _ _ _ _ _ _ _ panicked => rw [panicked]; exact h
  | run _ _ _ _ _ _ _ _ _ panicked => rw [panicked]; exact h

/-- A process waiting in `begin_op` waits for its admission test. -/
def Blocked (_ : Unit) (sh : Shared) : Prop := sh.log.beginOp = none

theorem release_blocked {l l' : Control} (h : move l sh = .release l' sh') (hb : Blocked () sh) :
    Blocked () sh' := by
  unfold move at h
  unfold Blocked at hb ⊢
  split at h
  · rw [hb] at h
    cases h
  · split at h
    · cases h
    · rename_i op b _ lg pin hw
      cases h
      obtain ⟨-, -, -, rfl, -⟩ := Log.logWrite_ok hw
      rw [Log.beginOp_eq_none] at hb ⊢
      have hlen := Log.length_le_absorb b sh.log.lh
      rcases hb with hb | hb
      · exact .inl hb
      · right
        simp only
        omega
  · split at h
    · cases h
    · rename_i lg hlast
      cases h
      obtain ⟨-, -, rfl⟩ := Log.endOp_ok hlast
      exact Log.beginOp_eq_none.mpr (.inl rfl)
    · cases h
  · cases h
  · cases h
    exact hb
  · cases h

theorem stay_shared {l l' : Control} (h : move l sh = .stay l' sh') : sh' = sh := by
  unfold move at h
  split at h <;> first | (cases h; rfl) | cases h | split at h <;> cases h

theorem run_blocked {k : Choice} {l l' : Control}
    (hc : ∀ x, l = .commit x → sh.log.committing = true) (h : run k l sh = some (l', sh'))
    (hb : Blocked () sh) : Blocked () sh' := by
  unfold run at h
  split at h
  · cases h
    exact hb
  · cases h
    exact hb
  · obtain ⟨⟨x', sh''⟩, hs, heq⟩ := Option.map_eq_some_iff.mp h
    cases heq
    obtain ⟨-, -, -, hcomm, -⟩ := commitStep_keeps hs
    exact Log.beginOp_eq_none.mpr (.inl (hcomm.trans (hc _ rfl)))
  · cases h

theorem wakesUp (n : ℕ) : WakesUp (monitor n) StateInv Blocked where
  all p := List.mem_finRange p
  sleep s p l c l' _ _ mv := (sleep_eq mv).2.2
  stay s p l l' s' _ _ mv c hb := stay_shared mv ▸ hb
  release s p l l' s' _ _ mv c hb := release_blocked mv hb
  wakeup s p l c l' s' _ _ _ c' hne := absurd rfl hne
  run s p k l l' s' hi at_ step c hb := by
    refine run_blocked (fun x hx => ?_) step hb
    refine Inv.committing_of_pc hi (p := p) (x := x) ?_
    rw [State.control, at_, hx]
    rfl

structure Sound (s : LogUsers n) : Prop where
  inv : StateInv s
  lock : LockExact s
  wakeups : NoLostWakeup Blocked s
  panics : NoLogPanic s

theorem sound_initial (n start size : ℕ) : Sound (initial n start size) where
  inv := by
    refine ⟨?_, ?_, ?_, ?_, ?_, ?_, ?_, ?_, ?_, ?_⟩ <;>
      simp [initial, count, Pinned, State.control, Phase.control, Control.op?, Control.pc?]
  lock p := by simp [initial, Phase.holds]
  wakeups p c hp := by simp [initial, Phase.waitsOn] at hp
  panics := by simp [NoLogPanic, initial]

theorem Sound.step (h : Sound s) {e : Event (Fin n) Choice} (hs : (monitor n).Step s e t) :
    Sound t where
  inv := h.inv.step hs.view.2.effect
  lock := h.lock.step hs.view.2
  wakeups := h.wakeups.step (wakesUp n) h.inv hs.view.2
  panics := h.panics.step h.inv hs.view.2.effect

theorem StateInv.landed_of_commit (h : StateInv s) {p : Fin n} {x : CommitPc}
    (hp : s.control p = .commit x) (he : Effect (monitor n) s t e) :
    t.shared.landed = s.shared.landed := by
  have hnone : ∀ q, (s.control q).op? = none := Inv.op_of_pc h (p := p) (x := x) (by rw [hp]; rfl)
  rcases effect_change he with ⟨hshared, -⟩ | ⟨q, l, -, hchange⟩
  · rw [hshared]
  · generalize hq : s.control q = l₀ at hchange
    generalize ht : t.shared = sh' at hchange
    cases hchange with
    | write op b lg pin hw =>
      have := hnone q
      rw [hq] at this
      cases this
    | advance x x' sh' hs => exact (commitStep_keeps hs).1
    | _ => rfl

/-- Isolation of the group commit, in every state any number of processes reach. While a
process is in `commit()` no operation is outstanding and no `log_write` is accepted, so the
`log_write`s of one operation belong to one transaction; outside of `commit()` the header
lists exactly the blocks written since the last commit, once each and with one pin each;
the two panics about misuse are never reached; and while `log.lock` is free an idle log is
empty and nobody sleeps in `begin_op` who could be admitted. -/
theorem group_commit_isolation {n start size : ℕ} {s : LogUsers n}
    (h : Reachable (fun s => s = initial n start size) (monitor n).Step s) :
    (∀ p x, s.control p = .commit x → s.shared.log.outstanding = 0 ∧
      ∀ e t, (monitor n).Step s e t → t.shared.landed = s.shared.landed) ∧
    (∀ r ∈ s.shared.landed, ∀ r' ∈ s.shared.landed, r.op = r'.op → r.txn = r'.txn) ∧
    ((∀ p x, s.control p = .commit x → x = .done) →
      s.shared.log.lh.Nodup ∧
      (∀ b, b ∈ s.shared.log.lh ↔
        ∃ r ∈ s.shared.landed, r.block = b ∧ r.txn = s.shared.txn) ∧
      ∀ b, s.shared.pins b = if b ∈ s.shared.log.lh then 1 else 0) ∧
    (s.panicked ≠ some .committing ∧ s.panicked ≠ some .outsideOfTrans) ∧
    (s.lock = none →
      (s.shared.log.outstanding = 0 → s.shared.log.committing = false →
        s.shared.log.lh = []) ∧
      ∀ p, (s.phase p).waitsOn = some () → ¬(s.shared.log.committing = false ∧
        (s.shared.log.lh.length : ℤ) + (s.shared.log.outstanding + 1) * maxOpBlocks ≤
          logSize)) := by
  have hs : Sound s := h.invariant (by rintro s rfl; exact sound_initial n start size)
    (fun s e t hs hstep => hs.step hstep)
  have hinv := hs.inv
  refine ⟨fun p x hp => ⟨?_, ?_⟩, hinv.sameTxn, fun hcommit => ⟨hinv.nodup, hinv.current, ?_⟩,
    hs.panics, fun hfree => ⟨fun h0 hc => (hinv.open_ hc).2 h0, fun p hp => ?_⟩⟩
  · exact hinv.exclusive (Inv.committing_of_pc hinv (p := p) (x := x) (by rw [hp]; rfl))
  · exact fun e t hstep => hinv.landed_of_commit hp hstep.view.2.effect
  · cases hc : s.shared.log.committing with
    | false => exact (hinv.open_ hc).1
    | true =>
      obtain ⟨p, x, hp⟩ := Inv.exists_pc hinv hc
      have hctl := Control.pc?_eq_some.mp hp
      obtain rfl := hcommit p x hctl
      obtain ⟨hlh, hpins⟩ : s.shared.log.lh = [] ∧ Pinned s.shared [] := hinv.commit p _ hp
      rw [hlh]
      exact hpins
  · have hblk := Log.beginOp_eq_none.mp (hs.wakeups.blocked hs.lock hfree hp)
    rintro ⟨hc, hroom⟩
    rcases hblk with hblk | hblk
    · rw [hc] at hblk
      cases hblk
    · omega

/-- Two processes begin an operation each and write two blocks each, one of them the same. The
first one ends its operation, and the second one, which ends last, is two steps into `commit()`. -/
def twoWriters : List (Event (Fin 2) Choice) :=
  [.acquire 0, .move 0, .acquire 1, .move 1,
    .run 0 (.write 7), .acquire 0, .move 0, .run 1 (.write 8), .acquire 1, .move 1,
    .run 0 (.write 9), .acquire 0, .move 0, .run 1 (.write 7), .acquire 1, .move 1,
    .run 0 .finish, .acquire 0, .move 0, .visit 0, .visit 0, .move 0,
    .run 1 .finish, .acquire 1, .move 1, .run 1 .advance, .run 1 .advance]

theorem group_commit_isolation_twoWriters :
    ∃ s, exec (monitor 2).next (initial 2 2 30) twoWriters = some s ∧
      s.control 1 = .commit (.writeLog 1) ∧ s.shared.log.lh = [7, 8, 9] ∧
      s.shared.landed = [⟨1, 7, 0⟩, ⟨0, 9, 0⟩, ⟨1, 8, 0⟩, ⟨0, 7, 0⟩] ∧
      s.shared.log.outstanding = 0 ∧
      ∀ e t, (monitor 2).Step s e t → t.shared.landed = s.shared.landed := by
  have hrun : (exec (monitor 2).next (initial 2 2 30) twoWriters).any (fun s =>
      decide (s.control 1 = .commit (.writeLog 1) ∧ s.shared.log.lh = [7, 8, 9] ∧
        s.shared.landed = [⟨1, 7, 0⟩, ⟨0, 9, 0⟩, ⟨1, 8, 0⟩, ⟨0, 7, 0⟩])) = true := by
    decide +kernel
  obtain ⟨s, hs, hctl, hlh, hlanded⟩ := exists_of_any hrun
  obtain ⟨hout, hkeep⟩ := (group_commit_isolation (reachable_of_exec hs)).1 1 _ hctl
  exact ⟨s, hs, hctl, hlh, hlanded, hout, hkeep⟩

end Runs

end Xv6.GroupCommit
