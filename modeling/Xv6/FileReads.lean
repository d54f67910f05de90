import Xv6.ConsoleLines
import Xv6.LoggedWrites
import Xv6.Pipes

/-!
# How much a read transfers

`fileread` passes its signed count on to `piperead`, to `consoleread` and, as an unsigned
number, to `readi`. A call transfers at most what it was asked for, except that `readi` takes
a negative count for a huge one: where the offset and the count do not wrap around, it goes
on to the end of the file.
-/

namespace Xv6
open TransitionSystems SleepWakeupMonitors KillableMonitors MonitorAssertions Function

/-- A call that was asked for `n` bytes stores no more than that, and reports no more. -/
structure AtMost (n : ℤ) (stored : ℕ) (result : Option ℤ) : Prop where
  stored_le : stored ≤ n.toNat
  result_le : ∀ r, result = some r → r ≤ max n 0

namespace Pipes

/-- How far a call of `piperead` has got: what it was asked for, how many bytes it has copied
out, and its result. -/
def Control.progress : Control → Option (ℤ × ℕ × Option ℤ)
  | .read _ n | .readSleep _ n => some (n, 0, none)
  | .readCopy _ n i | .readDone _ n i => some (n, i, none)
  | .didRead _ n r => some (n, r.toNat, some r)
  | _ => none

/-- A call of `piperead` keeps to its count. -/
def Control.Keeps (l : Control) : Prop :=
  ∀ n k r, l.progress = some (n, k, r) → AtMost n k r

theorem Control.keeps_of_none {l : Control} (h : l.progress = none) : l.Keeps := by
  intro n k r hl
  rw [h] at hl
  cases hl

theorem Control.keeps_of_running {l : Control} {n : ℤ} {i : ℕ}
    (h : l.progress = some (n, i, none)) (hi : i ≤ n.toNat) : l.Keeps := by
  intro n' k r hl
  rw [h] at hl
  cases hl
  exact ⟨hi, nofun⟩

theorem keeps_didRead {addr : Target} {n r : ℤ} (h : r ≤ max n 0) :
    (Control.didRead addr n r).Keeps := by
  intro n' k r' hl
  cases hl
  refine ⟨by omega, fun v hv => ?_⟩
  cases hv
  exact h

variable {P : Type}

theorem move_keeps {p : P} {l : Control} {sh : Shared P} (h : l.Keeps) :
    MoveAll (fun l' _ => l'.Keeps) sh (move p l sh) := by
  cases l with
  | write addr n i =>
    simp only [move, writeRound]
    repeat' split
    all_goals exact Control.keeps_of_none rfl
  | read addr n =>
    simp only [move]
    split_ifs
    · exact keeps_didRead (by omega)
    · exact Control.keeps_of_running rfl (Nat.zero_le _)
    · exact Control.keeps_of_running rfl (Nat.zero_le _)
  | readSleep addr n => exact Control.keeps_of_running rfl (Nat.zero_le _)
  | readCopy addr n i =>
    have hi := (h n i none rfl).stored_le
    simp only [move, readRound]
    split_ifs
    · exact Control.keeps_of_running rfl (by omega)
    · exact Control.keeps_of_running rfl hi
    · exact Control.keeps_of_running rfl hi
  | readDone addr n i =>
    have hi := (h n i none rfl).stored_le
    exact keeps_didRead (by omega)
  | close writable => cases writable <;> exact Control.keeps_of_none rfl
  | _ => exact h

theorem enter_keeps {l l' : Control} (h : enter l = some l') : l'.Keeps := by
  rcases enter_cases h with ⟨addr, n, i, rfl⟩ | ⟨addr, n, rfl⟩ | ⟨writable, rfl⟩
  · exact Control.keeps_of_none rfl
  · exact Control.keeps_of_running rfl (Nat.zero_le _)
  · exact Control.keeps_of_none rfl

theorem run_keeps {k : Choice} {l l' : Control} {sh sh' : Shared P}
    (h : run k l sh = some (l', sh')) : l'.Keeps := by
  have hstart : (∃ addr n, l' = .write addr n 0) ∨ (∃ addr n, l' = .read addr n) ∨
      ∃ writable, l' = .close writable := by
    cases l <;> cases k <;> cases h <;> simp
  rcases hstart with ⟨addr, n, rfl⟩ | ⟨addr, n, rfl⟩ | ⟨writable, rfl⟩
  · exact Control.keeps_of_none rfl
  · exact Control.keeps_of_running rfl (Nat.zero_le _)
  · exact Control.keeps_of_none rfl

theorem reachable_keeps {N : ℕ} {s : PipeUsers N} (h : Reachable Initial Step s) (p : Fin N) :
    (s.control p).Keeps := by
  have hupdate {s : PipeUsers N} (hs : ∀ q, (s.control q).Keeps) (q : Fin N) {l : Control}
      (hl : l.Keeps) (x : Fin N) : (update s.control q l x).Keeps := by
    by_cases hx : x = q
    · subst hx
      rwa [update_self]
    · rw [update_of_ne hx]
      exact hs x
  refine h.invariant (I := fun s => ∀ q, (s.control q).Keeps) (fun s hi q => ?_) ?_ p
  · rw [State.control, hi.phase q]
    exact Control.keeps_of_none rfl
  · intro s e t hs hn
    refine next_keeps (Q := fun _ ctl => ∀ q, (ctl q).Keeps) hs ?_ ?_ ?_ (fun _ _ => hs) hn
    · exact fun q l l' _ hl => hupdate hs q (enter_keeps hl)
    · rintro q l - rfl
      exact (move_keeps (hs q)).mono fun l' _ hl => hupdate hs q hl
    · exact fun q k l l' sh' _ hr => hupdate hs q (run_keeps hr)

end Pipes

namespace Console

structure Calls (N : ℕ) where
  users : ConsoleUsers N
  asked : Fin N → ℤ
  line : Fin N → List UInt8

def ask {N : ℕ} (e : KEvent (Fin N) Choice) (asked : Fin N → ℤ) : Fin N → ℤ :=
  match e with
  | .step (.run p (.read _ n)) => update asked p n
  | _ => asked

def Calls.Step {N : ℕ} (s : Calls N) (e : KEvent (Fin N) Choice) (t : Calls N) : Prop :=
  Console.Step s.users e t.users ∧ t.asked = ask e s.asked ∧
    t.line = observe s.users e t.users s.line

def Calls.Start {N : ℕ} (s : Calls N) : Prop := Initial s.users ∧ ∀ p, s.line p = []

/-- The result of a call of `consoleread`, once it has one. -/
def Control.outcome : Control → Option (Option ℤ)
  | .read _ _ _ | .readSleep _ _ _ => some none
  | .didRead r => some (some r)
  | _ => none

/-- A call of `consoleread` counts what it copies out and stops at its count. -/
def Control.Counts (asked : ℤ) (line : List UInt8) : Control → Prop
  | .read _ target n | .readSleep _ target n =>
    target = asked ∧ n + line.length = target ∧ (0 ≤ n ∨ line = [])
  | .didRead r => line.length ≤ asked.toNat ∧ r ≤ max asked 0
  | _ => True

variable {P : Type} {N : ℕ}

theorem Control.Counts.atMost {asked : ℤ} {line : List UInt8} {l : Control} {r : Option ℤ}
    (h : l.Counts asked line) (hr : l.outcome = some r) : AtMost asked line.length r := by
  have hrunning {target n : ℤ} (h : target = asked ∧ n + line.length = target ∧
      (0 ≤ n ∨ line = [])) : line.length ≤ asked.toNat := by
    obtain ⟨rfl, hlen, h0 | rfl⟩ := h
    · omega
    · exact Nat.zero_le _
  cases l with
  | read dst target n =>
    cases hr
    exact ⟨hrunning h, nofun⟩
  | readSleep dst target n =>
    cases hr
    exact ⟨hrunning h, nofun⟩
  | didRead v =>
    cases hr
    refine ⟨h.1, fun v' hv => ?_⟩
    cases hv
    exact h.2
  | _ => cases hr

theorem copied_append (sh : Shared P) (cons : Cons) (taken : List UInt8) (c : UInt8) :
    copied sh { sh with cons := cons, taken := taken, received := sh.received ++ [c] } = [c] := by
  simp [copied]

theorem readRound_counts {dst : Target} {asked n : ℤ} {line : List UInt8} {sh : Shared P}
    (h0 : 0 < n) (hlen : n + line.length = asked) :
    MoveAll (fun l' sh' => l'.Counts asked (line ++ copied sh sh')) sh
      (readRound dst asked n sh) := by
  have hdone {sh' : Shared P} (hsame : sh'.received = sh.received) :
      (Control.didRead (asked - n)).Counts asked (line ++ copied sh sh') := by
    have hnil : copied sh sh' = [] := by simp [copied, hsame]
    rw [hnil, List.append_nil]
    exact ⟨by omega, by omega⟩
  have hlen' (c : UInt8) : n - 1 + (line ++ [c]).length = asked := by
    rw [List.length_append, List.length_singleton]
    omega
  simp only [readRound]
  split_ifs
  · exact hdone rfl
  · exact hdone rfl
  · exact hdone rfl
  · simp only [MoveAll, copied_append]
    have hc := hlen' (sh.cons.byteAt sh.cons.r)
    exact ⟨by omega, by omega⟩
  · simp only [MoveAll, copied_append]
    exact ⟨rfl, hlen' _, .inl (by omega)⟩

theorem move_counts {p : P} {l : Control} {sh : Shared P} {asked : ℤ} {line : List UInt8}
    (h : l.Counts asked line) :
    MoveAll (fun l' sh' => l'.Counts asked (line ++ copied sh sh')) sh (move p l sh) := by
  have hself (l' : Control) (hl : l'.Counts asked line) :
      l'.Counts asked (line ++ copied sh sh) := by
    rwa [copied_self, List.append_nil]
  cases l with
  | read dst target n =>
    obtain ⟨rfl, hlen, hn⟩ := h
    simp only [move]
    split_ifs with h0
    · exact hself (.didRead (-1)) ⟨by omega, by omega⟩
    · exact hself (.readSleep dst target n) ⟨rfl, hlen, hn⟩
    · exact readRound_counts h0 hlen
    · refine hself (.didRead (target - n)) ?_
      rcases hn with hn | rfl
      · exact ⟨by omega, by omega⟩
      · rw [List.length_nil] at hlen
        exact ⟨Nat.zero_le _, by omega⟩
  | readSleep dst target n => exact hself (.read dst target n) h
  | intr c =>
    simp only [move, store]
    split_ifs <;> trivial
  | killLine =>
    simp only [move]
    split_ifs <;> trivial
  | didRead r => exact hself (.didRead r) h
  | _ => trivial

theorem start_counts {p : Fin N} {k : Choice} {s : ConsoleUsers N} {t : ConsoleUsers N}
    {asked : Fin N → ℤ} {line : Fin N → List UInt8} :
    k.start.Counts (ask (.step (.run p k)) asked p) (observe s (.step (.run p k)) t line p) := by
  cases k with
  | read dst n => simp [Choice.start, Control.Counts, ask, observe]
  | intr c => trivial

theorem ask_of_not_run {e : KEvent (Fin N) Choice} (h : ∀ p k, e ≠ .step (.run p k))
    (asked : Fin N → ℤ) : ask e asked = asked := by
  unfold ask
  split
  · exact absurd rfl (h _ _)
  · rfl

theorem Calls.Step.counts {s t : Calls N} {e : KEvent (Fin N) Choice} (hs : s.Step e t)
    (h : ∀ p, (s.users.control p).Counts (s.asked p) (s.line p)) (p : Fin N) :
    (t.users.control p).Counts (t.asked p) (t.line p) := by
  obtain ⟨hnext, hask, hline⟩ := hs
  rw [hask, hline]
  have hmove {q : Fin N} {l l' : Control} (hat : s.users.phase q = .inside l)
      (hout : ∀ Q, MoveAll Q s.users.shared (move q l s.users.shared) → Q l' t.users.shared) :
      (update s.users.control q l' p).Counts (ask (.step (.move q)) s.asked p)
        (observe s.users (.step (.move q)) t.users s.line p) := by
    have hl : s.users.control q = l := control_eq hat
    simp only [observe, ask]
    by_cases hp : p = q
    · subst hp
      rw [update_self, update_self]
      exact hout (fun l' sh' => l'.Counts (s.asked p) (s.line p ++ copied s.users.shared sh'))
        (move_counts (hl ▸ h p))
    · rw [update_of_ne hp, update_of_ne hp]
      exact h p
  rcases next_cases hnext with ⟨e, rfl, hv⟩ | ⟨q, rfl, -, hkilled⟩
  · cases hv.effect with
    | none e hnomove hnorun hsh hctl =>
      rw [hctl, ask_of_not_run fun p k he => hnorun p k (KEvent.step.inj he)]
      have hsame : observe s.users (.step e) t.users s.line = s.line := by
        unfold observe
        split
        · rename_i heq
          exact absurd (KEvent.step.inj heq) (hnorun _ _)
        · rename_i heq
          exact absurd (KEvent.step.inj heq) (hnomove _)
        · rfl
      rw [hsame]
      exact h p
    | enter q l l' hat hinto hsh hctl =>
      have hl : s.users.control q = l' := by
        rw [control_eq hat]
        cases l <;> cases hinto <;> rfl
      rw [hctl, ← hl, update_eq_self]
      exact h p
    | move q l l' _ hat hmv hsh hctl =>
      rw [hctl]
      refine hmove hat fun Q hQ => ?_
      rw [hsh]
      rcases hmv with hmv | hmv | ⟨c, hmv⟩ <;>
      · simp only [monitor] at hmv
        rwa [hmv] at hQ
    | sleep q l l' c hat hmv hsh hctl =>
      rw [hctl]
      refine hmove hat fun Q hQ => ?_
      rw [hsh]
      simp only [monitor] at hmv
      rwa [hmv] at hQ
    | panic q l x hat hmv => exact x.elim
    | run q k l l' _ hat hrun hsh hctl =>
      obtain ⟨rfl, rfl⟩ := run_starts hrun
      rw [hctl]
      by_cases hp : p = q
      · subst hp
        rw [update_self]
        exact start_counts
      · rw [update_of_ne hp]
        have hothers : ask (.step (.run q k)) s.asked p = s.asked p ∧
            observe s.users (.step (.run q k)) t.users s.line p = s.line p := by
          cases k with
          | read dst n => exact ⟨update_of_ne hp _ _, update_of_ne hp _ _⟩
          | intr c => exact ⟨rfl, rfl⟩
        rw [hothers.1, hothers.2]
        exact h p
  · rw [hkilled, killed_control]
    exact h p

theorem reachable_counts {s : Calls N} (h : Reachable Calls.Start Calls.Step s) (p : Fin N) :
    (s.users.control p).Counts (s.asked p) (s.line p) := by
  refine h.invariant (I := fun s => ∀ p, (s.users.control p).Counts (s.asked p) (s.line p))
    (fun s hi q => ?_) (fun s e t hs hn => hn.counts hs) p
  rw [State.control, hi.1.phase q]
  trivial

end Console

namespace Fs
open OperationPrograms LittleEndianBlocks

variable {sb : Superblock} {inum : ℕ} {ip : Dinode} {st : Store} {dst : ℕ → Bool}

theorem copyout_pos {m k : ℕ} (hm : 0 < m) (hk : dst k = true) : 0 < copyout dst m k := by
  obtain ⟨m, rfl⟩ := Nat.exists_eq_succ_of_ne_zero hm.ne'
  rw [copyout, if_pos hk]
  exact Nat.succ_pos _

theorem copyout_zero {m k : ℕ} (hk : dst k = false) : copyout dst m k = 0 := by
  cases m with
  | zero => rfl
  | succ m => rw [copyout, if_neg (by simp [hk])]

theorem readLoop_atMost {n : ℕ} (fuel tot off : ℕ) (ip : Dinode) (st : Store) (htot : tot ≤ n) :
    (readLoop sb inum dst n fuel tot off ip st).1.length ≤ n - tot ∧
      Ends (fun _ => True) (fun q => q.1 ≤ (n : ℤ))
        (readLoop sb inum dst n fuel tot off ip st).2 := by
  have hstop {tot : ℕ} (htot : tot ≤ n) : ([] : List UInt8).length ≤ n - tot ∧ (tot : ℤ) ≤ n :=
    ⟨Nat.zero_le _, Int.ofNat_le.mpr htot⟩
  induction fuel generalizing tot off ip st with
  | zero => exact hstop htot
  | succ fuel ih =>
    have hchunk : chunk (n - tot) off ≤ n - tot := Nat.min_le_left _ _
    have hcopy := copyout_le dst (chunk (n - tot) off) tot
    rw [readLoop]
    split_ifs
    · cases bmap sb inum ip st (off / bSize) with
      | error e => exact ⟨Nat.zero_le _, trivial⟩
      | ok r =>
        dsimp only
        split_ifs
        · exact hstop htot
        · exact ⟨by rw [length_getBytes]; omega, (by omega : (-1 : ℤ) ≤ n)⟩
        · obtain ⟨hlen, hres⟩ := ih (tot + chunk (n - tot) off) (off + chunk (n - tot) off) r.2.1
            r.2.2 (by omega)
          exact ⟨by rw [List.length_append, length_getBytes]; omega, hres⟩
    · exact hstop htot

/-- `bmap` finds a block for byte `off`. -/
def Backed (sb : Superblock) (inum : ℕ) (ip : Dinode) (st : Store) (off : ℕ) : Prop :=
  ∃ r, bmap sb inum ip st (off / bSize) = .ok r ∧ r.1 ≠ 0

theorem readLoop_pos {n fuel : ℕ} (hn : 0 < n) (hfuel : 0 < fuel) {off : ℕ}
    (hm : Backed sb inum ip st off) (hdst : dst 0 = true) :
    0 < (readLoop sb inum dst n fuel 0 off ip st).1.length := by
  obtain ⟨fuel, rfl⟩ := Nat.exists_eq_succ_of_ne_zero hfuel.ne'
  obtain ⟨r, hr, hne⟩ := hm
  have hcopy : 0 < copyout dst (chunk (n - 0) off) 0 := copyout_pos (chunk_pos (by omega)) hdst
  rw [readLoop, if_pos hn, hr]
  dsimp only
  rw [if_neg hne]
  split_ifs
  · rwa [length_getBytes]
  · rw [List.length_append, length_getBytes]
    omega

theorem readLoop_idle {off : ℕ} (h : ¬(Backed sb inum ip st off ∧ dst 0 = true)) (n fuel : ℕ) :
    (readLoop sb inum dst n fuel 0 off ip st).1.length ≤ 0 ∧
      Ends (fun _ => True) (fun q => q.1 ≤ 0) (readLoop sb inum dst n fuel 0 off ip st).2 := by
  cases fuel with
  | zero => exact ⟨le_rfl, le_rfl⟩
  | succ fuel =>
    rw [readLoop]
    split_ifs with hn
    · cases hb : bmap sb inum ip st (off / bSize) with
      | error e => exact ⟨le_rfl, trivial⟩
      | ok r =>
        dsimp only
        by_cases hr : r.1 = 0
        · rw [if_pos hr]
          exact ⟨le_rfl, le_rfl⟩
        · have hdst : dst 0 = false := by
            by_contra hne
            exact h ⟨⟨r, hb, hr⟩, by simpa using hne⟩
          have hpos : 0 < chunk (n - 0) off := chunk_pos (by omega)
          rw [if_neg hr, copyout_zero hdst, if_pos hpos]
          exact ⟨le_rfl, (by decide : (-1 : ℤ) ≤ 0)⟩
    · exact ⟨le_rfl, le_rfl⟩

structure InodeFile where
  sb : Superblock
  inum : ℕ
  ip : Dinode
  st : Store
  off : ℕ
  size_lt : ip.size < 2 ^ 32
  off_lt : off < 2 ^ 32

namespace InodeFile

/-- `fileread`: the bytes it stores, its result and what is left behind. -/
def fileread (f : InodeFile) (dst : ℕ → Bool) (n : ℤ) :
    List UInt8 × Except Panic (ℤ × Dinode × Store) :=
  readiBytes f.sb f.inum f.ip f.st dst f.off (n % 2 ^ 32).toNat

def stores (f : InodeFile) (dst : ℕ → Bool) (n : ℤ) : ℕ := (f.fileread dst n).1.length

/-- The result of `fileread`, if the kernel does not panic. -/
def result (f : InodeFile) (dst : ℕ → Bool) (n : ℤ) : Option ℤ :=
  (f.fileread dst n).2.toOption.map fun q => q.1

/-- A negative count that `readi` takes for the rest of the file, which is not empty and whose
first byte it can transfer. -/
structure Overreads (f : InodeFile) (dst : ℕ → Bool) (n : ℤ) : Prop where
  negative : n < 0
  no_wrap : f.off < -n
  rest : f.off < f.ip.size
  backed : Backed f.sb f.inum f.ip f.st f.off
  writable : dst 0 = true

variable {f : InodeFile} {n : ℤ}

theorem atMost_of_fileread {k : ℕ} (hk : k ≤ n.toNat)
    (h : (f.fileread dst n).1.length ≤ k ∧
      Ends (fun _ => True) (fun q => q.1 ≤ (k : ℤ)) (f.fileread dst n).2) :
    AtMost n (f.stores dst n) (f.result dst n) := by
  obtain ⟨hstores, hresult⟩ := h
  refine ⟨hstores.trans hk, fun r hr => ?_⟩
  rw [result] at hr
  generalize (f.fileread dst n).2 = x at hresult hr
  cases x with
  | error e => cases hr
  | ok q =>
    cases hr
    exact le_trans hresult (by omega)

/-- `fileread` transfers no more than `readi` is to read. -/
theorem fileread_atMost (f : InodeFile) (dst : ℕ → Bool) (n : ℤ) :
    (f.fileread dst n).1.length ≤ readCount f.ip f.off (n % 2 ^ 32).toNat ∧
      Ends (fun _ => True) (fun q => q.1 ≤ (readCount f.ip f.off (n % 2 ^ 32).toNat : ℤ))
        (f.fileread dst n).2 := by
  rw [fileread, readiBytes, readCount]
  split
  · exact ⟨le_rfl, le_rfl⟩
  · exact readLoop_atMost _ 0 f.off f.ip f.st (Nat.zero_le _)

theorem atMost_iff (f : InodeFile) (dst : ℕ → Bool) (hmin : -2 ^ 31 ≤ n) (hmax : n < 2 ^ 31) :
    AtMost n (f.stores dst n) (f.result dst n) ↔ ¬f.Overreads dst n := by
  have hoff := f.off_lt
  have hsize := f.size_lt
  have hall := f.fileread_atMost dst n
  generalize hcount : readCount f.ip f.off (n % 2 ^ 32).toNat = k at hall
  rw [readCount] at hcount
  rcases le_or_gt 0 n with h0 | h0
  · refine iff_of_true (atMost_of_fileread ?_ hall) fun h => absurd h.negative (not_lt.mpr h0)
    split_ifs at hcount <;> omega
  · by_cases hover : f.Overreads dst n
    · refine iff_of_false (fun h => ?_) (not_not.mpr hover)
      obtain ⟨-, hno, hrest, hbacked, hdst⟩ := hover
      have hle := h.stored_le
      rw [stores, fileread, readiBytes, if_neg (by omega)] at hle
      have hpos : 0 < if f.ip.size < f.off + (n % 2 ^ 32).toNat then f.ip.size - f.off
          else (n % 2 ^ 32).toNat := by
        split <;> omega
      have hstored := readLoop_pos hpos hpos hbacked hdst
      dsimp only at hle
      omega
    · refine iff_of_true (atMost_of_fileread (Nat.zero_le _) ?_) hover
      by_cases hrest : f.off < f.ip.size ∧ (f.off : ℤ) < -n
      · rw [fileread, readiBytes, if_neg (by omega)]
        exact readLoop_idle (fun h => hover ⟨h0, hrest.2, hrest.1, h.1, h.2⟩) _ _
      · obtain rfl : k = 0 := by split_ifs at hcount <;> omega
        exact hall

end InodeFile

end Fs

inductive FileKind where
  | pipe
  | device (major : ℤ)
  | inode (f : Fs.InodeFile)

structure OpenFile where
  readable : Bool
  kind : FileKind

def console : ℤ := 1

/-- `devsw[major].read` is set; `consoleinit` registers the only driver. -/
def HasRead (major : ℤ) : Prop := 0 ≤ major ∧ major < nDev ∧ major = console

/-- `sys_read` with the file that `argfd` found: how many bytes a call that was asked for `n`
bytes has stored to user memory, and its result once it has returned. -/
inductive Reads (dst : ℕ → Bool) (n : ℤ) : Option OpenFile → ℕ → Option ℤ → Prop where
  | badFd : Reads dst n none 0 (some (-1))
  | notReadable (kind : FileKind) : Reads dst n (some ⟨false, kind⟩) 0 (some (-1))
  | pipe {N : ℕ} {s : Pipes.PipeUsers N} {p : Fin N} {k : ℕ} {r : Option ℤ}
      (run : Reachable Pipes.Initial Pipes.Step s)
      (call : (s.control p).progress = some (n, k, r)) : Reads dst n (some ⟨true, .pipe⟩) k r
  | noDriver {major : ℤ} (none : ¬HasRead major) :
      Reads dst n (some ⟨true, .device major⟩) 0 (some (-1))
  | device {major : ℤ} {N : ℕ} {s : Console.Calls N} {p : Fin N} {r : Option ℤ}
      (driver : HasRead major) (run : Reachable Console.Calls.Start Console.Calls.Step s)
      (asked : s.asked p = n) (call : (s.users.control p).outcome = some r) :
      Reads dst n (some ⟨true, .device major⟩) (s.line p).length r
  | inode (f : Fs.InodeFile) :
      Reads dst n (some ⟨true, .inode f⟩) (f.stores dst n) (f.result dst n)

/-- The calls of `sys_read` that transfer more than they were asked for. -/
def Overreads (dst : ℕ → Bool) (n : ℤ) (file : Option OpenFile) : Prop :=
  ∃ f : Fs.InodeFile, file = some ⟨true, .inode f⟩ ∧ f.Overreads dst n

theorem atMost_failed (n : ℤ) : AtMost n 0 (some (-1)) := by
  refine ⟨Nat.zero_le _, fun r hr => ?_⟩
  cases hr
  omega

/-- A read of any open file, with any count, transfers at most what it was asked for and
reports at most that, unless a negative count of a file on disk is taken for the rest of it. -/
theorem read_atMost_iff {dst : ℕ → Bool} {n : ℤ} {file : Option OpenFile} {stored : ℕ}
    {result : Option ℤ} (h : Reads dst n file stored result) (hmin : -2 ^ 31 ≤ n)
    (hmax : n < 2 ^ 31) : AtMost n stored result ↔ ¬Overreads dst n file := by
  cases h with
  | badFd => exact iff_of_true (atMost_failed n) (by simp [Overreads])
  | notReadable kind => exact iff_of_true (atMost_failed n) (by simp [Overreads])
  | pipe run call =>
    exact iff_of_true (Pipes.reachable_keeps run _ _ _ _ call) (by simp [Overreads])
  | noDriver none => exact iff_of_true (atMost_failed n) (by simp [Overreads])
  | device driver run asked call =>
    have hcounts := (Console.reachable_counts run _).atMost call
    rw [asked] at hcounts
    exact iff_of_true hcounts (by simp [Overreads])
  | inode f =>
    rw [f.atMost_iff dst hmin hmax]
    simp [Overreads]

def fourBytesFile : Fs.InodeFile :=
  ⟨Fs.smallSuperblock, 2, Fs.fourBytes, Fs.fourBytesStore, 0, by decide, by decide⟩

/-- `read(fd, buf, 2)` is not among the calls that transfer too much, `read(fd, buf, -1)` is. -/
theorem read_atMost_iff_fourBytesFile :
    ¬Overreads (fun _ => true) 2 (some ⟨true, .inode fourBytesFile⟩) ∧
      AtMost 2 (fourBytesFile.stores (fun _ => true) 2) (fourBytesFile.result (fun _ => true) 2) ∧
      Overreads (fun _ => true) (-1) (some ⟨true, .inode fourBytesFile⟩) ∧
      ¬AtMost (-1) (fourBytesFile.stores (fun _ => true) (-1))
        (fourBytesFile.result (fun _ => true) (-1)) := by
  have htwo : ¬Overreads (fun _ => true) 2 (some ⟨true, .inode fourBytesFile⟩) := by
    rintro ⟨f, -, hover⟩
    exact absurd hover.negative (by decide)
  have hone : Overreads (fun _ => true) (-1) (some ⟨true, .inode fourBytesFile⟩) :=
    ⟨fourBytesFile, rfl, by decide, by decide, by decide, ⟨_, rfl, by decide +kernel⟩, rfl⟩
  exact ⟨htwo, (read_atMost_iff (.inode fourBytesFile) (by decide) (by decide)).mpr htwo, hone,
    fun h => (read_atMost_iff (.inode fourBytesFile) (by decide) (by decide)).mp h hone⟩

/-- `read(fd, buf, -1)` stores the whole file. -/
theorem read_minus_one :
    Reads (fun _ => true) (-1) (some ⟨true, .inode fourBytesFile⟩) 4 (some 4) ∧
      ¬AtMost (-1) 4 (some 4) := by
  have hstores : fourBytesFile.stores (fun _ => true) (-1) = 4 := by decide +kernel
  have hresult : fourBytesFile.result (fun _ => true) (-1) = some 4 := by decide +kernel
  refine ⟨?_, fun h => absurd h.stored_le (by decide)⟩
  have h := @Reads.inode (fun _ => true) (-1) fourBytesFile
  rwa [hstores, hresult] at h

end Xv6
