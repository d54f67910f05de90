import Xv6.RedoLogCrashRecovery
import Mathlib.Data.List.Dedup

/-!
# The log over many transactions and crashes

One transaction follows the other on the same disk. Each one runs to the end of its `commit()`,
or a crash stops it there and the next boots recover, some of them stopped by a crash as well.
Seen from outside, the home blocks are an array to which whole transactions are applied.
-/

namespace Xv6.RedoLog
open AtomicWriteSequences

variable {start size : ℕ} {home disk : ℕ → Block}

/-- A transaction whose `commit()` runs to its end, or is stopped by a crash after some of its
writes; then some recoveries are stopped by crashes too, and one is not. -/
structure Attempt where
  updates : List (ℕ × Block)
  crash : Option (ℕ × List ℕ)

def Attempt.commits (a : Attempt) : Bool := match a.crash with
  | none => true
  | some (k, _) => (a.updates.map Prod.fst).dedup.length < k

/-- The disk after an attempt; `none` if the transaction would sleep or panic. -/
def attempt (start size : ℕ) (disk : ℕ → Block) (a : Attempt) : Option (ℕ → Block) :=
  (transaction start size disk a.updates).map fun s => match a.crash with
    | none => crashDisk disk (commit s) (commit s).issued.length
    | some (k, ks) =>
      recovered start size (ks.foldl (crashedRecovery start size) (crashDisk disk (commit s) k))

/-- An array of blocks to which a transaction that commits is applied as a whole. -/
def Attempt.apply (home : ℕ → Block) (a : Attempt) : ℕ → Block :=
  if a.commits then applyWrites home a.updates else home

theorem updates_data {s s' : LogState} {us : List (ℕ × Block)} (h : updates s us = .ok s') :
    s'.data = applyWrites s.data us := by
  induction us generalizing s with
  | nil =>
    cases h
    rfl
  | cons u us ih =>
    simp only [updates, update] at h
    split at h
    · cases h
    · rename_i s₁ h₁
      split at h₁ <;> cases h₁
      rw [ih h]
      rfl

theorem transaction_data {us : List (ℕ × Block)} {s : LogState}
    (h : transaction start size disk us = some s) : s.data = applyWrites disk us := by
  unfold transaction at h
  rw [beginOp_boot] at h
  simp only at h
  split at h
  · cases h
  · rename_i s₁ h₁
    split at h <;> cases h
    exact updates_data h₁

theorem commit_settles {s : LogState} (h : Open start size disk s)
    (hhome : ∀ b ∈ s.log.lh, Home start size b) (hno : ∀ b ∈ s.log.lh, b < 2 ^ 32)
    (hne : s.log.lh ≠ []) :
    Settled start size s.data (crashDisk disk (commit s) (commit s).issued.length) := by
  obtain ⟨b, hissued⟩ := commit_issued h hhome hne
  have hdone := (pending_committedDisk h hhome hno).install_clear b
  rw [crashDisk, List.take_length, hissued, applyWrites_append, applyWrites_cons,
    applyWrites_append, ← h.start_eq]
  rwa [← h.start_eq] at hdone

theorem Settled.attempt {disk' : ℕ → Block} {a : Attempt} (h : Settled start size home disk)
    (hne : a.updates ≠ []) (hhome : ∀ u ∈ a.updates, Home start size u.1 ∧ u.1 < 2 ^ 32)
    (ha : attempt start size disk a = some disk') : Settled start size (a.apply home) disk' := by
  obtain ⟨s, hs, rfl⟩ := Option.map_eq_some_iff.mp ha
  have hsize : 0 < size := by
    refine Nat.pos_of_ne_zero ?_
    rintro rfl
    exact transaction_no_room hne hs
  obtain ⟨hopen, hmem⟩ := transaction_open hsize hs
  have hlogged (b : ℕ) (hb : b ∈ s.log.lh) : Home start size b ∧ b < 2 ^ 32 := by
    obtain ⟨u, hu, rfl⟩ := List.mem_map.mp ((hmem b).mp hb)
    exact hhome u hu
  have hlh : s.log.lh ≠ [] := by
    obtain ⟨u, hu⟩ := List.exists_mem_of_ne_nil _ hne
    exact List.ne_nil_of_mem ((hmem u.1).mpr (List.mem_map_of_mem hu))
  have hlen : (a.updates.map Prod.fst).dedup.length = s.log.lh.length :=
    ((List.perm_ext_iff_of_nodup (List.nodup_dedup _) hopen.nodup).mpr
      fun b => by rw [List.mem_dedup, hmem]).length_eq
  -- what the cache holds and what the array holds differ in the log area only
  have hnew {d : ℕ → Block} (hd : Settled start size s.data d) :
      Settled start size (applyWrites home a.updates) d := by
    refine ⟨hd.clear, fun b hb => ?_⟩
    rw [hd.agrees b hb, transaction_data hs]
    exact applyWrites_congr _ (h.agrees b hb)
  have hold {d : ℕ → Block} (hd : Settled start size disk d) : Settled start size home d :=
    ⟨hd.clear, fun b hb => (hd.agrees b hb).trans (h.agrees b hb)⟩
  have hhomes := fun b hb => (hlogged b hb).1
  have hnos := fun b hb => (hlogged b hb).2
  cases hcrash : a.crash with
  | none =>
    rw [Attempt.apply, if_pos (by simp [Attempt.commits, hcrash])]
    exact hnew (commit_settles hopen hhomes hnos hlh)
  | some c =>
    obtain ⟨k, ks⟩ := c
    obtain ⟨hbefore, hafter⟩ := commit_crash h.clear hopen hhomes hnos hlh k
    simp only [Attempt.apply, Attempt.commits, hcrash, decide_eq_true_eq, hlen]
    split
    · rename_i hk
      exact hnew ((hafter hk).elim (fun hp => hp.recoveries ks) fun hd => hd.recoveries hsize ks)
    · exact hold ((hbefore (by omega)).recoveries hsize ks)

/-- However many transactions there are and wherever crashes stop them and their recoveries,
the home blocks are those of an array to which the transactions whose commit record reached the
disk were applied, each as a whole and in order. -/
theorem log_histories {final : ℕ → Block} {as : List Attempt} (hclear : Clear start disk)
    (has : ∀ a ∈ as, a.updates ≠ [] ∧ ∀ u ∈ a.updates, Home start size u.1 ∧ u.1 < 2 ^ 32)
    (h : as.foldlM (attempt start size) disk = some final) :
    Clear start final ∧ ∀ b, Home start size b → final b = as.foldl Attempt.apply disk b := by
  suffices hall : ∀ {home d}, Settled start size home d → as.foldlM (attempt start size) d =
      some final → Settled start size (as.foldl Attempt.apply home) final by
    have hfinal := hall ⟨hclear, fun _ _ => rfl⟩ h
    exact ⟨hfinal.clear, hfinal.agrees⟩
  clear h hclear
  induction as with
  | nil =>
    rintro home d hd ⟨⟩
    exact hd
  | cons a as ih =>
    intro home d hd h
    obtain ⟨d', ha, hrest⟩ := Option.bind_eq_some_iff.mp h
    obtain ⟨hne, hhome⟩ := has a List.mem_cons_self
    exact ih (fun a ha => has a (List.mem_cons_of_mem _ ha)) (hd.attempt hne hhome ha) hrest

/-- One transaction commits, the next one is lost in a crash. -/
theorem log_histories_second_lost :
    ∃ final, [⟨[(50, fun _ => 1)], none⟩, ⟨[(50, fun _ => 2)], some (1, [0])⟩].foldlM
        (attempt 2 30) (fun _ _ => 0) = some final ∧ final 50 = fun _ => 1 := by
  have hfit {d : ℕ → Block} (v : Block) : ∃ s, transaction 2 30 d [(50, v)] = some s :=
    transaction_of_fits (by simp) (by simp [logSize, maxOpBlocks]) (by decide)
  obtain ⟨s, hs⟩ := hfit (d := fun _ _ => 0) fun _ => 1
  obtain ⟨t, ht⟩ := hfit (d := crashDisk (fun _ _ => 0) (commit s) (commit s).issued.length)
    fun _ => 2
  obtain ⟨final, hrun⟩ : ∃ final, [⟨[(50, fun _ => 1)], none⟩,
      ⟨[(50, fun _ => 2)], some (1, [0])⟩].foldlM (attempt 2 30) (fun _ _ => 0) = some final := by
    simp [attempt, hs, ht]
  have hclear : Clear 2 (fun _ _ => 0) := rfl
  refine ⟨final, hrun, ?_⟩
  rw [(log_histories hclear (by simp [Home]) hrun).2 50 (by simp [Home])]
  simp [Attempt.apply, Attempt.commits]

end Xv6.RedoLog
