import Xv6.LogGroupCommit
import Mathlib.Algebra.BigOperators.Ring.Finset
import Mathlib.Algebra.Order.BigOperators.Group.Finset

/-!
# How much log space the operations of a transaction can take

`begin_op` reserves `MAXOPBLOCKS` blocks of the log for every operation it admits. With
operations that name at most that many distinct blocks the log never needs more than
`LOGSIZE` slots. The log area written by `mkfs` holds one slot less, since its header takes
a block of it, and `log_write` refuses a full log before it looks for absorption.
-/

namespace Xv6.LogSpace
open TransitionSystems CountingProcesses SleepWakeupMonitors GroupCommit Function

/-- The distinct blocks that the accepted `log_write`s of an operation name. -/
def blocksOf (sh : Shared) (id : ℕ) : Finset ℕ :=
  ((sh.landed.filter (fun r => r.op = id)).map Landed.block).toFinset

/-- The block of a `log_write` that an operation has called and that is not accepted yet. -/
def pending (id : ℕ) : Control → Option ℕ
  | .logWrite op b => if op = id then some b else none
  | _ => none

/-- The distinct blocks an operation has passed to `log_write`. -/
def requested {n : ℕ} (s : LogUsers n) (id : ℕ) : Finset ℕ :=
  blocksOf s.shared id ∪ ((List.finRange n).filterMap fun p => pending id (s.control p)).toFinset

/-- Every operation begun so far has passed at most `k` distinct blocks to `log_write`. -/
def WithinBudget {n : ℕ} (k : ℕ) (s : LogUsers n) : Prop :=
  ∀ id < s.shared.ops, (requested s id).card ≤ k

instance {n k : ℕ} (s : LogUsers n) : Decidable (WithinBudget k s) :=
  inferInstanceAs (Decidable (∀ id < s.shared.ops, (requested s id).card ≤ k))

def sinceCommit (sh : Shared) : Finset ℕ :=
  ((sh.landed.filter (fun r => r.txn = sh.txn)).map Landed.block).toFinset

theorem mem_blocksOf {sh : Shared} {id b : ℕ} :
    b ∈ blocksOf sh id ↔ ∃ r ∈ sh.landed, r.op = id ∧ r.block = b := by
  simp [blocksOf, and_assoc]

theorem mem_requested {n : ℕ} {s : LogUsers n} {id b : ℕ} :
    b ∈ requested s id ↔ b ∈ blocksOf s.shared id ∨ ∃ p, s.control p = .logWrite id b := by
  have hpending : ∀ l, pending id l = some b ↔ l = .logWrite id b := by
    intro l
    cases l <;> simp [pending]
  simp [requested, hpending]

section Space

variable {P : Type*} [Fintype P] {sh : Shared} {op : P → Option ℕ} {pc : P → Option CommitPc}

theorem card_sinceCommit (h : Inv sh op pc) : (sinceCommit sh).card = sh.log.lh.length := by
  have heq : sinceCommit sh = sh.log.lh.toFinset := by
    ext b
    rw [List.mem_toFinset, h.current b]
    simp [sinceCommit, and_assoc, and_comm]
  rw [heq, List.toFinset_card_of_nodup h.nodup]

def reserve (k : ℕ) (sh : Shared) : Option ℕ → ℕ
  | none => 0
  | some id => k - (blocksOf sh id).card

@[simp] theorem reserve_none (k : ℕ) (sh : Shared) : reserve k sh none = 0 := rfl

@[simp] theorem reserve_some (k : ℕ) (sh : Shared) (id : ℕ) :
    reserve k sh (some id) = k - (blocksOf sh id).card := rfl

/-- No two processes run the same operation, and the log has room for what the running
operations may still add. -/
structure SpaceInv (k : ℕ) (sh : Shared) (op : P → Option ℕ) : Prop where
  distinct : ∀ p q id, op p = some id → op q = some id → p = q
  room : sh.log.lh.length + ∑ p, reserve k sh (op p) ≤ maxOpBlocks + 2 * k

variable {k : ℕ}

theorem sum_reserve_le (k : ℕ) (sh : Shared) (op : P → Option ℕ) :
    ∑ p, reserve k sh (op p) ≤ count op * k := by
  unfold count
  rw [Finset.sum_mul]
  refine Finset.sum_le_sum fun p _ => ?_
  cases op p with
  | none => simp
  | some id => simp

theorem reserve_congr {sh' : Shared} (h : sh'.landed = sh.landed) (k : ℕ) :
    reserve k sh' = reserve k sh := by
  funext o
  cases o with
  | none => rfl
  | some id => simp [blocksOf, h]

variable [DecidableEq P] {p : P}

theorem SpaceInv.begin (hk : k ≤ maxOpBlocks) (h : SpaceInv k sh op) (hi : Inv sh op pc)
    {lg : Log} (hp : op p = none) (hb : sh.log.beginOp = some lg) :
    SpaceInv k { sh with log := lg, ops := sh.ops + 1 } (update op p (some sh.ops)) := by
  obtain ⟨hc, hroom, rfl⟩ := Log.beginOp_some hb
  have hfresh : blocksOf sh sh.ops = ∅ := by
    ext b
    simp only [mem_blocksOf, Finset.notMem_empty, iff_false, not_exists, not_and]
    intro r hr hop
    have := (hi.past r hr).1
    omega
  constructor
  · intro q r id hq hr
    by_cases hqp : q = p <;> by_cases hrp : r = p
    · rw [hqp, hrp]
    · subst hqp
      rw [update_self] at hq
      rw [update_of_ne hrp] at hr
      cases hq
      have := (hi.running r _ hr).1
      omega
    · subst hrp
      rw [update_self] at hr
      rw [update_of_ne hqp] at hq
      cases hr
      have := (hi.running q _ hq).1
      omega
    · rw [update_of_ne hqp] at hq
      rw [update_of_ne hrp] at hr
      exact h.distinct q r id hq hr
  · have hsum := sum_update (reserve k sh) op p (some sh.ops)
    have hle := sum_reserve_le k sh op
    have hopen := (hi.open_ hc).2
    rw [hp, reserve_none, reserve_some, hfresh, Finset.card_empty, Nat.sub_zero] at hsum
    have hcongr : reserve k { sh with
        log := { sh.log with outstanding := sh.log.outstanding + 1 }
        ops := sh.ops + 1 } = reserve k sh := reserve_congr rfl k
    simp only [hcongr]
    rw [hi.outstanding] at hroom hopen
    simp only [maxOpBlocks, logSize] at hroom hk ⊢
    have hcount : count op = 0 ∨ count op = 1 ∨ count op = 2 := by omega
    rcases hcount with hcount | hcount | hcount <;> rw [hcount] at hle hroom
    · have hnil := hopen (by simp [hcount])
      simp only [hnil, List.length_nil]
      omega
    · omega
    · omega

omit [DecidableEq P] in
theorem SpaceInv.write [DecidableEq P] (h : SpaceInv k sh op) (hi : Inv sh op pc) {id b : ℕ}
    {lg : Log} {pin : Bool} {pins : ℕ → ℕ} (hp : op p = some id)
    (hw : sh.log.logWrite b = .ok (lg, pin))
    (hbudget : (insert b (blocksOf sh id)).card ≤ k) :
    SpaceInv k { sh with log := lg, pins := pins, landed := ⟨id, b, sh.txn⟩ :: sh.landed } op := by
  obtain ⟨-, -, -, rfl, -⟩ := Log.logWrite_ok hw
  refine ⟨h.distinct, ?_⟩
  set sh' : Shared := { sh with
    log := { sh.log with lh := Log.absorb b sh.log.lh }
    pins := pins
    landed := ⟨id, b, sh.txn⟩ :: sh.landed } with hsh'
  have hself : blocksOf sh' id = insert b (blocksOf sh id) := by
    ext x
    simp only [mem_blocksOf, Finset.mem_insert, hsh', List.mem_cons, exists_eq_or_imp, true_and]
    constructor
    · rintro (rfl | hx)
      · exact .inl rfl
      · exact .inr hx
    · rintro (rfl | hx)
      · exact .inl rfl
      · exact .inr hx
  have hother : ∀ id', id' ≠ id → blocksOf sh' id' = blocksOf sh id' := by
    intro id' hne
    ext x
    simp [mem_blocksOf, hsh', Ne.symm hne]
  have hfun : (fun q => reserve k sh' (op q)) =
      update (fun q => reserve k sh (op q)) p (k - (insert b (blocksOf sh id)).card) := by
    funext q
    by_cases hqp : q = p
    · subst hqp
      rw [update_self, hp, ← hself]
      rfl
    · rw [update_of_ne hqp]
      cases hq : op q with
      | none => rfl
      | some id' =>
        have hne : id' ≠ id := by
          rintro rfl
          exact hqp (h.distinct q p id' hq hp)
        simp [reserve, hother id' hne]
  have hsum := sum_update (fun x => x) (fun q => reserve k sh (op q)) p
    (k - (insert b (blocksOf sh id)).card)
  simp only [hp, reserve_some] at hsum
  have hgoal : sh'.log.lh.length + ∑ q, reserve k sh' (op q) =
      (Log.absorb b sh.log.lh).length + ∑ q, update (fun q => reserve k sh (op q)) p
        (k - (insert b (blocksOf sh id)).card) q := by
    rw [hfun]
  have hroom := h.room
  rw [hgoal]
  by_cases hb : b ∈ sh.log.lh
  · have hle := Finset.card_le_card (Finset.subset_insert b (blocksOf sh id))
    rw [Log.absorb_of_mem hb]
    omega
  · have hnew : b ∉ blocksOf sh id := by
      intro hmem
      obtain ⟨r, hr, hop, hblock⟩ := mem_blocksOf.mp hmem
      exact hb ((hi.current b).mpr ⟨r, hr, hblock, (hi.running p id hp).2 r hr hop⟩)
    rw [Finset.card_insert_of_notMem hnew] at hsum hbudget ⊢
    rw [Log.absorb_of_not_mem hb, List.length_append, List.length_singleton]
    omega

omit [DecidableEq P] in
theorem SpaceInv.drop (h : SpaceInv k sh op) {sh' : Shared} {op' : P → Option ℕ}
    (hlanded : sh'.landed = sh.landed) (hlh : sh'.log.lh.length ≤ sh.log.lh.length)
    (hop : ∀ q, op' q = op q ∨ op' q = none) : SpaceInv k sh' op' := by
  constructor
  · intro q r id hq hr
    rcases hop q with hq' | hq'
    · rcases hop r with hr' | hr'
      · exact h.distinct q r id (hq' ▸ hq) (hr' ▸ hr)
      · rw [hr'] at hr
        cases hr
    · rw [hq'] at hq
      cases hq
  · have hsum : ∑ q, reserve k sh' (op' q) ≤ ∑ q, reserve k sh (op q) := by
      refine Finset.sum_le_sum fun q _ => ?_
      rw [reserve_congr hlanded]
      rcases hop q with hq | hq
      · rw [hq]
      · simp [hq]
    have hroom := h.room
    omega

end Space

section Runs

variable {n : ℕ} {s t : LogUsers n} {k : ℕ}

theorem change_landed {sh sh' : Shared} {l l' : Control} (h : Change sh l l' sh') :
    sh.landed ⊆ sh'.landed ∧ sh.ops ≤ sh'.ops ∧ sh'.log.size = sh.log.size := by
  cases h with
  | begin lg hb =>
    obtain ⟨-, -, rfl⟩ := Log.beginOp_some hb
    simp
  | write op b lg pin hw =>
    obtain ⟨-, -, -, rfl, -⟩ := Log.logWrite_ok hw
    simp
  | finish op lg last he =>
    obtain ⟨-, -, rfl⟩ := Log.endOp_ok he
    simp
  | advance x x' sh' hs =>
    obtain ⟨hlanded, hops, -, -, -⟩ := commitStep_keeps hs
    rw [hlanded, hops]
    refine ⟨List.Subset.refl _, le_rfl, ?_⟩
    cases x with
    | install tail =>
      simp only [commitStep] at hs
      split at hs <;> cases hs <;> rfl
    | done => cases hs
    | _ =>
      cases hs
      rfl
  | endCommit => simp [Log.endCommit]
  | relabel l l' hop hpc hw => simp

theorem requested_mono (he : Effect (monitor n) s t e) (op : ℕ) :
    requested s op ⊆ requested t op := by
  intro b hb
  rw [mem_requested] at hb ⊢
  rcases effect_change he with ⟨hshared, hcontrol⟩ | ⟨p, l, hcontrol, hchange⟩
  · rwa [hshared, hcontrol]
  rcases hb with hb | ⟨q, hq⟩
  · obtain ⟨r, hr, hop, hblock⟩ := mem_blocksOf.mp hb
    exact .inl (mem_blocksOf.mpr ⟨r, (change_landed hchange).1 hr, hop, hblock⟩)
  · by_cases hqp : q = p
    · subst hqp
      rw [hq] at hchange
      generalize t.shared = sh' at hchange
      cases hchange with
      | write op b lg pin hw =>
        exact .inl (mem_blocksOf.mpr ⟨⟨op, b, s.shared.txn⟩, by simp, rfl, rfl⟩)
      | relabel l l' hop hpc hw =>
        rcases hw with rfl | hw
        · exact .inr ⟨q, by rw [hcontrol, update_self]⟩
        · exact absurd rfl (hw op b)
    · exact .inr ⟨q, by rw [hcontrol, update_of_ne hqp, hq]⟩

theorem WithinBudget.of_step (h : WithinBudget k t) (he : Effect (monitor n) s t e) :
    WithinBudget k s := by
  intro op hop
  have hle : s.shared.ops ≤ t.shared.ops := by
    rcases effect_change he with ⟨hshared, -⟩ | ⟨p, l, -, hchange⟩
    · rw [hshared]
    · exact (change_landed hchange).2.1
  exact (Finset.card_le_card (requested_mono he op)).trans (h op (hop.trans_le hle))

def HasRoom (k : ℕ) (s : LogUsers n) : Prop :=
  SpaceInv k s.shared fun p => (s.control p).op?

theorem HasRoom.step (hk : k ≤ maxOpBlocks) (h : HasRoom k s) (hi : StateInv s)
    (hb : WithinBudget k s) (he : Effect (monitor n) s t e) : HasRoom k t := by
  unfold HasRoom
  rcases effect_change he with ⟨hshared, hcontrol⟩ | ⟨p, l, hcontrol, hchange⟩
  · rw [hshared, hcontrol]
    exact h
  · rw [hcontrol]
    generalize t.shared = sh' at hchange
    have hop₀ : ∀ l, s.control p = l → (s.control p).op? = l.op? := fun l hl => by rw [hl]
    have hsub : ∀ op b, s.control p = .logWrite op b →
        insert b (blocksOf s.shared op) ⊆ requested s op := by
      intro op b hl x hx
      rw [mem_requested]
      rcases Finset.mem_insert.mp hx with rfl | hx
      · exact .inr ⟨p, hl⟩
      · exact .inl hx
    generalize hl : s.control p = l₀ at hchange
    specialize hop₀ l₀ hl
    cases hchange with
    | begin lg hb' =>
      rw [read_update]
      exact SpaceInv.begin hk h hi hop₀ hb'
    | write op b lg pin hw =>
      rw [read_update_same Control.op? s.control p (.inOp op) hop₀.symm]
      have hcard := (Finset.card_le_card (hsub op b hl)).trans (hb op (hi.running p op hop₀).1)
      exact SpaceInv.write h hi hop₀ hw hcard
    | finish op lg last he' =>
      obtain ⟨-, -, rfl⟩ := Log.endOp_ok he'
      refine SpaceInv.drop h rfl le_rfl fun q => ?_
      by_cases hqp : q = p
      · subst hqp
        rw [update_self]
        cases last <;> exact .inr rfl
      · rw [update_of_ne hqp]
        exact .inl rfl
    | advance x x' sh' hs =>
      rw [read_update_same Control.op? s.control p (.commit x') hop₀.symm]
      obtain ⟨hlanded, -, -, -, hlh⟩ := commitStep_keeps hs
      refine SpaceInv.drop h hlanded ?_ fun q => .inl rfl
      rcases hlh with ⟨hlh, -⟩ | ⟨hlh, -⟩ <;> simp [hlh]
    | endCommit =>
      rw [read_update_same Control.op? s.control p .leave hop₀.symm]
      exact SpaceInv.drop h rfl le_rfl fun q => .inl rfl
    | relabel l₀ l' hop hpc _ =>
      rw [read_update_same Control.op? s.control p _ (hop.trans hop₀.symm)]
      exact h

structure Fits (s : LogUsers n) : Prop where
  sound : Sound s
  size : s.shared.log.size = nlog
  room : ∀ k ≤ maxOpBlocks, WithinBudget k s → HasRoom k s

theorem fits_initial (n start : ℕ) : Fits (initial n start nlog) where
  sound := sound_initial n start nlog
  size := rfl
  room k _ _ := by
    constructor
    · simp [initial, State.control, Phase.control, Control.op?]
    · simp [initial, State.control, Phase.control, Control.op?]

/-- No step takes more space in the log than was reserved. -/
theorem Fits.step (h : Fits s) {e : Event (Fin n) Choice} (hs : (monitor n).Step s e t) :
    Fits t where
  sound := h.sound.step hs
  size := by
    rcases effect_change hs.view.2.effect with ⟨hshared, -⟩ | ⟨p, l, -, hchange⟩
    · rw [hshared, h.size]
    · rw [(change_landed hchange).2.2, h.size]
  room k hk hb := by
    have hbs := hb.of_step hs.view.2.effect
    exact (h.room k hk hbs).step hk h.sound.inv hbs hs.view.2.effect

theorem Fits.card_le (h : Fits s) {k : ℕ} (hk : k ≤ maxOpBlocks) (hb : WithinBudget k s) :
    (sinceCommit s.shared).card ≤ maxOpBlocks + 2 * k := by
  rw [card_sinceCommit h.sound.inv]
  exact (Nat.le_add_right _ _).trans (h.room k hk hb).room

/-- A `log_write` whose turn comes when the log area has no free slot. -/
def LogsAtFullLog (s : LogUsers n) (e : Event (Fin n) Choice) : Prop :=
  ∃ p op b, e = .move p ∧ s.phase p = .inside (.logWrite op b) ∧
    nlog - 1 ≤ (sinceCommit s.shared).card

theorem Fits.panicked_iff (h : Fits s) {e : Event (Fin n) Choice}
    (hs : (monitor n).Step s e t) : t.panicked = some .tooBig ↔ LogsAtFullLog s e := by
  have hcard := card_sinceCommit h.sound.inv
  have hsize := h.size
  rw [hs.panicked_iff]
  constructor
  · rintro ⟨p, l, rfl, hl, hpanic⟩
    rcases panic_cases hpanic with ⟨op, b, rfl, herr⟩ | ⟨op, rfl, herr⟩
    · refine ⟨p, op, b, rfl, hl, ?_⟩
      unfold Log.logWrite at herr
      split at herr
      · simp only [hsize, nlog, logSize, maxOpBlocks] at *
        omega
      · split at herr <;> cases herr
    · unfold Log.endOp at herr
      split at herr
      · cases herr
      · split at herr <;> cases herr
  · rintro ⟨p, op, b, rfl, hl, hfull⟩
    refine ⟨p, .logWrite op b, rfl, hl, ?_⟩
    have hroom : s.shared.log.lh.length ≥ logSize ∨
        (s.shared.log.lh.length : ℤ) ≥ (s.shared.log.size : ℤ) - 1 := by
      simp only [hsize, nlog, logSize, maxOpBlocks] at *
      omega
    simp only [monitor, move, Log.logWrite, if_pos hroom]

theorem fits_of_reachable {start : ℕ}
    (h : Reachable (fun s => s = initial n start nlog) (monitor n).Step s) : Fits s :=
  h.invariant (by rintro s rfl; exact fits_initial n start) fun _ _ _ hs hstep => hs.step hstep

/-- Three operations of three processes, all begun before the first `log_write`, that log
ten blocks each. -/
def threeFullOperations : List (Event (Fin 3) Choice) :=
  [0, 1, 2].flatMap (fun p => [.acquire p, .move p]) ++
  [0, 1, 2].flatMap fun p => (List.range 10).flatMap fun i =>
    [.run p (.write (100 + 10 * p + i)), .acquire p, .move p]

/-- The reservation of `begin_op` is one block short of what the log area holds. -/
theorem three_full_operations_too_big :
    ∃ s, Reachable (fun s => s = initial 3 2 nlog) (monitor 3).Step s ∧
      WithinBudget maxOpBlocks s ∧ s.panicked = some .tooBig := by
  have h : (exec (monitor 3).next (initial 3 2 nlog) threeFullOperations).any
      (fun s => WithinBudget maxOpBlocks s ∧ s.panicked = some .tooBig) = true := by
    decide +kernel
  obtain ⟨s, hs, hfull⟩ := (Option.any_eq_true _ _).mp h
  exact ⟨s, reachable_of_exec hs, by simpa using hfull⟩

/-- What the reservation achieves, for operations that name at most `MAXOPBLOCKS` distinct
blocks. A transaction never has more than `LOGSIZE` blocks. `log_write` panics exactly if
its turn comes when `nlog - 1` blocks have been written since the last commit, so it never
panics in a run without such a step; and there is none if the operations keep to
`MAXOPBLOCKS - 1` blocks. -/
theorem log_space_reservation {start : ℕ}
    (h : Reachable (fun s => s = initial n start nlog) (monitor n).Step s)
    (hb : WithinBudget maxOpBlocks s) :
    (sinceCommit s.shared).card ≤ logSize ∧
    (∀ e t, (monitor n).Step s e t → (t.panicked = some .tooBig ↔ LogsAtFullLog s e)) ∧
    (Reachable (fun s => s = initial n start nlog)
      (fun s e t => (monitor n).Step s e t ∧ ¬LogsAtFullLog s e) s →
        s.panicked ≠ some .tooBig) ∧
    (WithinBudget (maxOpBlocks - 1) s → s.panicked ≠ some .tooBig) := by
  have hfits := fits_of_reachable h
  refine ⟨hfits.card_le le_rfl hb, fun e t hs => hfits.panicked_iff hs, fun hr => ?_, ?_⟩
  · refine (hr.invariant (I := fun s => Fits s ∧ s.panicked ≠ some .tooBig) ?_ ?_).2
    · rintro s rfl
      exact ⟨fits_initial n start, by simp [initial]⟩
    · rintro s e t ⟨hs, -⟩ ⟨hstep, hroom⟩
      exact ⟨hs.step hstep, fun hp => hroom ((hs.panicked_iff hstep).mp hp)⟩
  · refine (h.invariant (I := fun s => Fits s ∧
      (WithinBudget (maxOpBlocks - 1) s → s.panicked ≠ some .tooBig)) ?_ ?_).2
    · rintro s rfl
      exact ⟨fits_initial n start, by simp [initial]⟩
    · rintro s e t ⟨hs, -⟩ hstep
      refine ⟨hs.step hstep, fun hbt hp => ?_⟩
      obtain ⟨-, -, -, -, -, hfull⟩ := (hs.panicked_iff hstep).mp hp
      have hle := hs.card_le (Nat.sub_le _ _) (hbt.of_step hstep.view.2.effect)
      simp only [nlog, logSize, maxOpBlocks] at hfull hle
      omega

/-- The reservation with three operations of three processes just admitted. -/
theorem log_space_reservation_three_admitted :
    ∃ s, exec (monitor 3).next (initial 3 2 nlog)
        [.acquire 0, .move 0, .acquire 1, .move 1, .acquire 2, .move 2] = some s ∧
      s.shared.log.outstanding = 3 ∧ WithinBudget maxOpBlocks s ∧
      s.panicked ≠ some .tooBig := by
  have h : (exec (monitor 3).next (initial 3 2 nlog)
      [.acquire 0, .move 0, .acquire 1, .move 1, .acquire 2, .move 2]).any
      (fun s => s.shared.log.outstanding = 3 ∧ WithinBudget maxOpBlocks s ∧
        WithinBudget (maxOpBlocks - 1) s) = true := by
    decide +kernel
  obtain ⟨s, hs, hbudget⟩ := (Option.any_eq_true _ _).mp h
  obtain ⟨hout, hb, hb'⟩ : s.shared.log.outstanding = 3 ∧ WithinBudget maxOpBlocks s ∧
      WithinBudget (maxOpBlocks - 1) s := by simpa using hbudget
  exact ⟨s, hs, hout, hb, (log_space_reservation (reachable_of_exec hs) hb).2.2.2 hb'⟩

end Runs

end Xv6.LogSpace
