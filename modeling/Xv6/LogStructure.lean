import Xv6.KernelParameters
import Mathlib.Data.List.Nodup

/-!
# The in-memory log of `log.c`

`struct log` and the four pieces of code that run with `log.lock` held. The array
`lh.block[0..n)` is the list `lh`, so `lh.n` is its length.
-/

namespace Xv6

/-- `struct log`, without its lock and device number. -/
structure Log where
  start : ℕ
  size : ℕ
  outstanding : ℤ
  committing : Bool
  lh : List ℕ
  deriving DecidableEq, Repr

/-- The panics of the code that runs with `log.lock` held. -/
inductive LogPanic where
  | tooBig
  | outsideOfTrans
  | committing
  deriving DecidableEq, Repr

namespace Log

/-- The search loop of `log_write` with the store after it: the slot that already holds
the block is overwritten with the same number, otherwise the slot after the last one is used. -/
def absorb (b : ℕ) : List ℕ → List ℕ
  | [] => [b]
  | c :: cs => if c = b then b :: cs else c :: absorb b cs

theorem absorb_of_mem {b : ℕ} {lh : List ℕ} (h : b ∈ lh) : absorb b lh = lh := by
  induction lh with
  | nil => simp at h
  | cons c cs ih =>
    by_cases hc : c = b
    · simp [absorb, hc]
    · simp [absorb, hc, ih (by simpa [Ne.symm hc] using h)]

theorem absorb_of_not_mem {b : ℕ} {lh : List ℕ} (h : b ∉ lh) : absorb b lh = lh ++ [b] := by
  induction lh with
  | nil => rfl
  | cons c cs ih =>
    simp only [List.mem_cons, not_or] at h
    simp [absorb, Ne.symm h.1, ih h.2]

theorem mem_absorb {b x : ℕ} {lh : List ℕ} : x ∈ absorb b lh ↔ x = b ∨ x ∈ lh := by
  by_cases h : b ∈ lh
  · rw [absorb_of_mem h]
    exact ⟨.inr, fun hx => hx.elim (fun e => e ▸ h) id⟩
  · rw [absorb_of_not_mem h]
    simp [or_comm]

theorem nodup_absorb {b : ℕ} {lh : List ℕ} (h : lh.Nodup) : (absorb b lh).Nodup := by
  by_cases hb : b ∈ lh
  · rwa [absorb_of_mem hb]
  · rw [absorb_of_not_mem hb]
    exact h.append (by simp) (by simpa using hb)

/-- The admission test of `begin_op`, one turn of its `while` loop: `none` sleeps. -/
def beginOp (lg : Log) : Option Log :=
  if lg.committing then none
  else if (lg.lh.length : ℤ) + (lg.outstanding + 1) * maxOpBlocks > logSize then none
  else some { lg with outstanding := lg.outstanding + 1 }

/-- The critical section of `log_write`, with the flag telling whether `bpin` is called. -/
def logWrite (lg : Log) (b : ℕ) : Except LogPanic (Log × Bool) :=
  if lg.lh.length ≥ logSize ∨ (lg.lh.length : ℤ) ≥ (lg.size : ℤ) - 1 then
    .error .tooBig
  else if lg.outstanding < 1 then .error .outsideOfTrans
  else .ok ({ lg with lh := absorb b lg.lh }, decide (b ∉ lg.lh))

/-- The first critical section of `end_op`, with `do_commit`. -/
def endOp (lg : Log) : Except LogPanic (Log × Bool) :=
  if lg.committing then .error .committing
  else if lg.outstanding - 1 = 0 then
    .ok ({ lg with outstanding := lg.outstanding - 1, committing := true }, true)
  else .ok ({ lg with outstanding := lg.outstanding - 1 }, false)

/-- The second critical section of `end_op`, after `commit()` returned. -/
def endCommit (lg : Log) : Log := { lg with committing := false }

theorem beginOp_eq_none {lg : Log} : lg.beginOp = none ↔ lg.committing = true ∨
    (lg.lh.length : ℤ) + (lg.outstanding + 1) * maxOpBlocks > logSize := by
  unfold beginOp
  split
  · simp [*]
  · split <;> simp [*]

theorem beginOp_some {lg lg' : Log} (h : lg.beginOp = some lg') :
    lg.committing = false ∧
      (lg.lh.length : ℤ) + (lg.outstanding + 1) * maxOpBlocks ≤ logSize ∧
      lg' = { lg with outstanding := lg.outstanding + 1 } := by
  unfold beginOp at h
  split at h
  · cases h
  · split at h
    · cases h
    · rename_i hc hroom
      cases h
      exact ⟨by simpa using hc, by omega, rfl⟩

theorem endOp_ok {lg lg' : Log} {last : Bool} (h : lg.endOp = .ok (lg', last)) :
    lg.committing = false ∧ last = decide (lg.outstanding - 1 = 0) ∧
      lg' = { lg with outstanding := lg.outstanding - 1, committing := last } := by
  unfold endOp at h
  split at h
  · cases h
  · rename_i hc
    have hc : lg.committing = false := by simpa using hc
    split at h <;> rename_i h0 <;> cases h
    · exact ⟨hc, by simp [h0], rfl⟩
    · exact ⟨hc, by simp [h0], by rw [← hc]⟩

theorem length_le_absorb (b : ℕ) (lh : List ℕ) : lh.length ≤ (absorb b lh).length := by
  by_cases hb : b ∈ lh
  · rw [absorb_of_mem hb]
  · simp [absorb_of_not_mem hb]

theorem logWrite_ok {lg lg' : Log} {b : ℕ} {pin : Bool} (h : lg.logWrite b = .ok (lg', pin)) :
    lg.lh.length < logSize ∧ (lg.lh.length : ℤ) < (lg.size : ℤ) - 1 ∧ 1 ≤ lg.outstanding ∧
      lg' = { lg with lh := absorb b lg.lh } ∧ pin = decide (b ∉ lg.lh) := by
  unfold logWrite at h
  split at h
  · cases h
  · split at h
    · cases h
    · rename_i hroom hout
      cases h
      refine ⟨by omega, by omega, by omega, rfl, rfl⟩

end Log

end Xv6
