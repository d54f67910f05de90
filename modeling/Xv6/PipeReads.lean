import Xv6.Pipes
import Xv6.UserCopies

/-!
# Bytes that a reader of a pipe gets

The second loop of `piperead` of `pipe.c`: it takes bytes from the pipe one by one and copies
each to the user. A byte is taken before it is copied, so one byte is lost if a copy fails.
-/

namespace Xv6.Pipes
open TransitionSystems SleepWakeupMonitors KillableMonitors MonitorAssertions OperationPrograms

/-- The second loop of `piperead` from index `i` on, for at most `fuel` bytes: what `piperead`
returns, and the pipe. -/
def readLoop (addr : Target) (n : ℤ) : (fuel i : ℕ) → Pipe → ℕ × Pipe
  | 0, i, pi => (i, pi)
  | fuel + 1, i, pi =>
    if i < n ∧ pi.empty = false then
      if addr i then readLoop addr n fuel (i + 1) pi.drop else (i, pi.drop)
    else
      (i, pi)

/-- The outcome of the loop for a pipe that holds `q`: it got `j` bytes, and then it stopped for
want of bytes or room, or a copy failed. -/
inductive Outcome (addr : Target) (n : ℤ) (i : ℕ) (q : List UInt8) (j : ℕ) (pi : Pipe) : Prop where
  | finished (hend : ¬(((i + j : ℕ) : ℤ) < n ∧ j < q.length)) (hholds : pi.Holds (q.drop j))
  | failed (hlt : ((i + j : ℕ) : ℤ) < n) (hlen : j < q.length) (haddr : addr (i + j) = false)
      (hholds : pi.Holds (q.drop (j + 1)))

variable {addr : Target} {n : ℤ} {pi : Pipe} {q : List UInt8}

theorem readLoop_outcome (addr : Target) (n : ℤ) (i : ℕ) (h : pi.Holds q) {fuel : ℕ}
    (hfuel : q.length ≤ fuel) :
    ∃ j ≤ q.length, (readLoop addr n fuel i pi).1 = i + j ∧
      (∀ k < j, ((i + k : ℕ) : ℤ) < n ∧ addr (i + k) = true) ∧
      Outcome addr n i q j (readLoop addr n fuel i pi).2 := by
  induction fuel generalizing i pi q with
  | zero =>
    obtain rfl : q = [] := List.eq_nil_of_length_eq_zero (by omega)
    exact ⟨0, le_rfl, rfl, fun k hk => absurd hk (by omega), .finished (by simp) h⟩
  | succ fuel ih =>
    rw [readLoop]
    cases q with
    | nil =>
      rw [if_neg fun hgo => by simp [h.empty_iff.mpr rfl] at hgo]
      exact ⟨0, le_rfl, rfl, fun k hk => absurd hk (by omega), .finished (by simp) h⟩
    | cons x q =>
      have hempty : pi.empty = false := Bool.eq_false_iff.mpr fun he => by
        cases h.empty_iff.mp he
      by_cases hi : (i : ℤ) < n
      · rw [if_pos ⟨hi, hempty⟩]
        cases haddr : addr i with
        | true =>
          obtain ⟨j, hj, hret, hgot, hout⟩ := ih (i + 1) h.drop (by simpa using hfuel)
          rw [if_pos rfl]
          refine ⟨j + 1, by simpa using hj, by rw [hret]; omega, fun k hk => ?_, ?_⟩
          · cases k with
            | zero => exact ⟨hi, haddr⟩
            | succ k =>
              rw [show i + (k + 1) = i + 1 + k by omega]
              exact hgot k (by omega)
          · have hsum : i + 1 + j = i + (j + 1) := by omega
            cases hout with
            | finished hend hholds =>
              rw [hsum] at hend
              exact .finished (by simpa using hend) hholds
            | failed hlt hlen hfail hholds =>
              rw [hsum] at hlt hfail
              exact .failed hlt (by simpa using hlen) hfail hholds
        | false =>
          rw [if_neg (by simp)]
          exact ⟨0, Nat.zero_le _, rfl, fun k hk => absurd hk (by omega),
            .failed hi (by simp) haddr h.drop⟩
      · rw [if_neg fun hgo => hi hgo.1]
        exact ⟨0, Nat.zero_le _, rfl, fun k hk => absurd hk (by omega), .finished (by simp [hi]) h⟩

theorem Pipe.Holds.length_eq {q' : List UInt8} (h : pi.Holds q) (h' : pi.Holds q') :
    q.length = q'.length := h.sub_toNat.symm.trans h'.sub_toNat

theorem readLoop_keeps_iff (addr : Target) (n : ℤ) (h : pi.Holds q) {fuel : ℕ}
    (hfuel : q.length ≤ fuel) :
    (readLoop addr n fuel 0 pi).2.Holds (q.drop (readLoop addr n fuel 0 pi).1) ↔
      ∀ k < q.length, (k : ℤ) < n → addr k = true := by
  obtain ⟨j, hj, hret, hgot, hout⟩ := readLoop_outcome addr n 0 h hfuel
  rw [Nat.zero_add] at hret
  simp only [Nat.zero_add] at hgot
  rw [hret]
  cases hout with
  | finished hend hholds =>
    rw [Nat.zero_add] at hend
    refine iff_of_true hholds fun k hk hn => (hgot k ?_).2
    by_contra hle
    exact hend ⟨by omega, by omega⟩
  | failed hlt hlen hfail hholds =>
    rw [Nat.zero_add] at hlt hfail
    refine iff_of_false (fun hkept => ?_) fun hall => ?_
    · have hlen' := hholds.length_eq hkept
      rw [List.length_drop, List.length_drop] at hlen'
      omega
    · rw [hall j hlen hlt] at hfail
      cases hfail

open Vm in
/-- The second loop of `piperead` with the page table of the reader, for at most `fuel` bytes. -/
def pipereadLoop (pagetable addr : ℕ) (n : ℤ) : (fuel i : ℕ) → Pipe → K (ℕ × Pipe)
  | 0, i, pi => pure (i, pi)
  | fuel + 1, i, pi =>
    if i < n ∧ pi.empty = false then do
      let ch := pi.front
      let pi := pi.drop
      if ← copyout pagetable ((addr + i) % 2 ^ 64) [ch] then
        pipereadLoop pagetable addr n fuel (i + 1) pi
      else
        return (i, pi)
    else
      return (i, pi)

open Vm in
def writableBytes (f : ℕ → ℕ) (va : ℕ) : Target := fun k => decide (Writable f (vpn (va + k)))

section

open Vm

variable {m : Machine} {deny : ℕ → Bool} {F : Panic → Prop} {s : Kernel} {l : List ℕ}
  {U R I : Multiset ℕ} {root : ℕ} {f : ℕ → ℕ}

theorem copyout_byte {Q : Bool → Kernel → Prop} {va : ℕ} {ch : UInt8}
    (h : UserTable m s l U R I root f) (hva : va < 2 ^ 64)
    (hno : ∀ s', ¬Writable f (va / pgSize) → s'.page = s.page → Q false s')
    (hyes : ∀ s', Writable f (va / pgSize) → s'.page = storeUser f s.page va [ch] →
      UserTable m s' l U R I root f → Q true s') :
    Ensures m deny F (copyout (root * pgSize) va [ch]) Q s := by
  refine copyoutFrom_exact h le_rfl fun ok s' j htrans hstored hmove _ => ?_
  obtain ⟨hle, hok, hreached, hstopped⟩ := htrans hva
  obtain rfl | rfl : j = 0 ∨ j = 1 := by
    have : [ch].length = 1 := rfl
    omega
  · have hnot := hstopped (by simp)
    rw [Nat.add_zero, vpn_eq hva] at hnot
    rw [show ok = false by simpa using hok]
    exact hno s' hnot hstored
  · rw [hok.mpr rfl]
    exact hyes s' (hreached 0 (by decide)) hstored (h.of_moves hmove)

theorem le_readLoop (addr : Target) (n : ℤ) (fuel i : ℕ) (pi : Pipe) :
    i ≤ (readLoop addr n fuel i pi).1 := by
  induction fuel generalizing i pi with
  | zero => exact le_rfl
  | succ fuel ih =>
    rw [readLoop]
    split_ifs
    · exact (Nat.le_succ i).trans (ih (i + 1) pi.drop)
    · exact le_rfl
    · exact le_rfl

theorem pipereadLoop_spec {Q : ℕ × Pipe → Kernel → Prop} {va fuel i : ℕ}
    (h : UserTable m s l U R I root f) (hq : pi.Holds q) (hva : va + i < 2 ^ 64)
    (hQ : ∀ s', s'.page = storeUser f s.page (va + i)
      (q.take ((readLoop (writableBytes f va) n fuel i pi).1 - i)) →
      Q (readLoop (writableBytes f va) n fuel i pi) s') :
    Ensures m deny F (pipereadLoop (root * pgSize) va n fuel i pi) Q s := by
  have hstop (hloop : (readLoop (writableBytes f va) n fuel i pi).1 = i) {s' : Kernel}
      (hpage : s'.page = s.page) : Q (readLoop (writableBytes f va) n fuel i pi) s' := by
    apply hQ
    rw [hloop, Nat.sub_self, List.take_zero, hpage]
    rfl
  induction fuel generalizing i pi q s with
  | zero =>
    rw [pipereadLoop, ensures_pure]
    exact hstop rfl rfl
  | succ fuel ih =>
    rw [readLoop] at hQ hstop
    rw [pipereadLoop]
    by_cases hgo : (i : ℤ) < n ∧ pi.empty = false
    · obtain ⟨x, q, rfl⟩ : ∃ x q', q = x :: q' := by
        cases q with
        | nil =>
          rw [hq.empty_iff.mpr rfl] at hgo
          cases hgo.2
        | cons x q => exact ⟨x, q, rfl⟩
      have hfront : pi.front = x := hq.head
      rw [if_pos hgo] at hQ hstop
      rw [if_pos hgo, ensures_bind, Nat.mod_eq_of_lt hva, hfront]
      refine copyout_byte h hva (fun s₁ hnot hpage => ?_) fun s₁ hyes hpage h₁ => ?_
      · have haddr : ¬writableBytes f va i = true := by
          rwa [writableBytes, decide_eq_true_eq, vpn_eq hva]
        rw [if_neg haddr] at hstop
        rw [if_neg (by simp), ensures_pure]
        exact hstop rfl hpage
      · have haddr : writableBytes f va i = true := by
          rwa [writableBytes, decide_eq_true_eq, vpn_eq hva]
        have hlt := lt_of_div_lt (writable_lt hyes)
        rw [if_pos haddr] at hQ
        rw [if_pos rfl]
        have hnext : ∀ s', s'.page = storeUser f s₁.page (va + (i + 1))
            (q.take ((readLoop (writableBytes f va) n fuel (i + 1) pi.drop).1 - (i + 1))) →
            Q (readLoop (writableBytes f va) n fuel (i + 1) pi.drop) s' := by
          intro s' hpage'
          apply hQ
          have hle := le_readLoop (writableBytes f va) n fuel (i + 1) pi.drop
          obtain ⟨c, hc⟩ := Nat.exists_eq_add_of_le hle
          rw [hpage', hpage, hc, show i + 1 + c - (i + 1) = c by omega,
            show i + 1 + c - i = c + 1 by omega]
          rfl
        refine ih h₁ hq.drop (by omega) hnext fun hloop s' hpage' => ?_
        apply hnext
        rw [hloop, Nat.sub_self, List.take_zero, hpage']
        rfl
    · rw [if_neg hgo] at hstop
      rw [if_neg hgo, ensures_pure]
      exact hstop rfl rfl

/-- `piperead` has delivered `r` bytes of the pipe's contents `q` to address `va`, and these
bytes were taken from the pipe and no others. -/
def Delivered (f : ℕ → ℕ) (s : Kernel) (va : ℕ) (q : List UInt8) (r : ℕ) (pi' : Pipe)
    (s' : Kernel) : Prop :=
  r ≤ q.length ∧ s'.page = storeUser f s.page va (q.take r) ∧ pi'.Holds (q.drop r)

/-- The copying loop of `piperead` returns, and the bytes that it reports are delivered and
removed, and no others, if and only if all bytes that it would copy can be copied. -/
theorem piperead_delivers_iff (h : UserTable m s l U R I root f) (hq : pi.Holds q) {va : ℕ}
    (hva : va < 2 ^ 64) (n : ℤ) :
    ∃ r pi' s', Prog.run (perform m deny) (pipereadLoop (root * pgSize) va n pipeSize 0 pi) s =
        .ok ((r, pi'), s') ∧
      (Delivered f s va q r pi' s' ↔
        ∀ k < q.length, (k : ℤ) < n → Writable f (vpn (va + k))) := by
  have hspec : Ensures m deny (fun _ => False)
      (pipereadLoop (root * pgSize) va n pipeSize 0 pi)
      (fun r s' => Delivered f s va q r.1 r.2 s' ↔
        ∀ k < q.length, (k : ℤ) < n → Writable f (vpn (va + k))) s := by
    refine pipereadLoop_spec h hq (by omega) fun s' hpage => ?_
    rw [Nat.add_zero, Nat.sub_zero] at hpage
    obtain ⟨j, hj, hret, -, -⟩ := readLoop_outcome (writableBytes f va) n 0
      hq hq.length_le
    have hkeeps := readLoop_keeps_iff (writableBytes f va) n hq hq.length_le
    simp only [writableBytes, decide_eq_true_eq] at hkeeps
    rw [← hkeeps]
    exact ⟨fun hd => hd.2.2, fun hholds => ⟨by omega, hpage, hholds⟩⟩
  obtain ⟨r, s', hrun, hiff⟩ := hspec.run
  exact ⟨r.1, r.2, s', hrun, hiff⟩

def oneByte : Pipe := Pipe.put ⟨fun _ => 0, 0, 0, true, true⟩ 65

theorem oneByte_holds : oneByte.Holds [65] := by
  have hnil : Pipe.Holds ⟨fun _ => 0, 0, 0, true, true⟩ [] := RingBuffers.Holds.nil (by decide)
  exact hnil.put rfl 65

/-- The first process reads from the pipe into its third page, which it does not have.
`piperead` returns 0, and the byte is gone. -/
theorem piperead_loses_byte :
    ∃ pi' s', Prog.run (perform smallKernel fun _ => false)
        (pipereadLoop (0x87fff * pgSize) 0x2000 1 pipeSize 0 oneByte) firstProcess =
          .ok ((0, pi'), s') ∧ pi'.empty = true ∧
      ¬Delivered firstMap firstProcess 0x2000 [65] 0 pi' s' := by
  have hrun : (Prog.run (perform smallKernel fun _ => false)
      (pipereadLoop (0x87fff * pgSize) 0x2000 1 pipeSize 0 oneByte) firstProcess).map
        (fun r => (r.1.1, r.1.2.nread, r.1.2.nwrite)) = .ok (0, 1, 1) := by decide +kernel
  cases hres : Prog.run (perform smallKernel fun _ => false)
      (pipereadLoop (0x87fff * pgSize) 0x2000 1 pipeSize 0 oneByte) firstProcess with
  | error e =>
    rw [hres] at hrun
    cases hrun
  | ok r =>
    obtain ⟨⟨i, pi'⟩, s'⟩ := r
    rw [hres] at hrun
    obtain ⟨hi, hnread, hnwrite⟩ : i = 0 ∧ pi'.nread = 1 ∧ pi'.nwrite = 1 := by
      simpa using Except.ok.inj hrun
    have hempty : pi'.empty = true := by simp [Pipe.empty, hnread, hnwrite]
    refine ⟨pi', s', by rw [hi], hempty, fun hd => ?_⟩
    cases hd.2.2.empty_iff.mp hempty

theorem piperead_delivers_iff_firstProcess :
    ∃ r pi' s', Prog.run (perform smallKernel fun _ => false)
        (pipereadLoop (0x87fff * pgSize) 0x100 1 pipeSize 0 oneByte) firstProcess =
          .ok ((r, pi'), s') ∧ Delivered firstMap firstProcess 0x100 [65] r pi' s' := by
  obtain ⟨r, pi', s', hrun, hiff⟩ := @piperead_delivers_iff _ _ _ (fun _ => false) _ _ _ _ _ _ _
    firstProcess_user oneByte_holds 0x100 (by decide) 1
  exact ⟨r, pi', s', hrun, hiff.mpr (by decide)⟩

end

end Xv6.Pipes
