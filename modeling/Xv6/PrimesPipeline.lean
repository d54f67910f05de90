import Xv6.PrimesProgram
import Xv6.TrialDivisionSieve

/-!
# The primes pipeline prints the primes

Process `j + 1` is fed the numbers that are left after `j` siftings. What a process has taken and
passed on, and what is printed, follows from where it is; the last process of the chain is the
only one that prints.
-/

namespace Xv6.Primes
open TransitionSystems LittleEndianBlocks TrialDivisionSieve Function

/-! ### Numbers in memory and in pipes -/

def encode (l : List ℕ) : List UInt8 := l.flatMap fun v => getBytes (intVar v) 0 4

@[simp] theorem encode_append (l l' : List ℕ) : encode (l ++ l') = encode l ++ encode l' :=
  List.flatMap_append

@[simp] theorem length_encode (l : List ℕ) : (encode l).length = 4 * l.length := by
  induction l with
  | nil => rfl
  | cons v l ih =>
    rw [encode, List.flatMap_cons, List.length_append, length_getBytes, List.length_cons]
    have h : (l.flatMap fun v => getBytes (intVar v) 0 4).length = 4 * l.length := ih
    omega

theorem encode_cons (v : ℕ) (l : List ℕ) : encode (v :: l) = getBytes (intVar v) 0 4 ++ encode l :=
  List.flatMap_cons

theorem drop_encode (l : List ℕ) (c : ℕ) : (encode l).drop (4 * c) = encode (l.drop c) := by
  induction c generalizing l with
  | zero => rfl
  | succ c ih =>
    cases l with
    | nil => simp [encode]
    | cons v l =>
      rw [encode_cons, List.drop_succ_cons, ← ih, Nat.mul_succ, Nat.add_comm, ← List.drop_drop,
        List.drop_left' (length_getBytes _ _ _)]

theorem take_encode (v : ℕ) (l : List ℕ) : (encode (v :: l)).take 4 = getBytes (intVar v) 0 4 := by
  rw [encode_cons, List.take_left' (length_getBytes _ _ _)]

theorem getWord_intVar {v : ℕ} (h : v < 2 ^ 32) : getWord (intVar v) 0 = v :=
  getWord_putWord_self _ (by decide) h

theorem putBytes_getBytes (b v : Bytes 4) : putBytes b 0 (getBytes v 0 4) = v := by
  funext i
  match i with
  | 0 | 1 | 2 | 3 => rfl

/-! ### What a process knows -/

/-- The numbers that are fed to process `j + 1`. -/
def fed (bound j : ℕ) : List ℕ := sift^[j] (List.range' 2 (bound - 1))

theorem fed_succ (bound j : ℕ) : fed bound (j + 1) = sift (fed bound j) :=
  Function.iterate_succ_apply' ..

theorem lt_of_mem_fed {bound j n : ℕ} (h : n ∈ fed bound j) : n < bound + 1 := by
  have hsub : (fed bound j).Sublist (List.range' 2 (bound - 1)) := by
    induction j with
    | zero => exact .refl _
    | succ j ih =>
      rw [fed_succ] at h ⊢
      have hsift := sift_sublist (fed bound j)
      exact hsift.trans (ih (hsift.subset h))
  have hmem := List.mem_range'_1.mp (hsub.subset h)
  omega

def printed (bound j : ℕ) : List Char := (heads (List.range' 2 (bound - 1)) j).flatMap line

theorem printed_succ {bound j p : ℕ} (h : (fed bound j).head? = some p) :
    printed bound (j + 1) = printed bound j ++ line p := by
  rw [fed] at h
  simp [printed, heads, h]

def Pc.closed : Pc → Bool
  | .wait | .quit | .exited _ => true
  | _ => false

/-- The open descriptors of process `j`. -/
def descriptors (j : ℕ) : Pc → Finset (ℕ × End)
  | .mainPipe | .wait | .quit | .exited _ => ∅
  | .mainFork | .feedClose => {(j, .read), (j, .write)}
  | .feed _ | .feedWrite _ _ | .complain _ | .feedEnd | .closeRight => {(j, .write)}
  | .mainChild => {(j - 1, .read), (j - 1, .write)}
  | .child => {(j - 1, .read), (j - 1, .write), (j - 2, .read)}
  | .childLeft => {(j - 1, .read), (j - 2, .read)}
  | .first | .eof | .print _ | .pipe => {(j - 1, .read)}
  | .fork | .closeRead => {(j - 1, .read), (j, .read), (j, .write)}
  | .next | .filter | .write _ | .closeLeft => {(j - 1, .read), (j, .write)}

/-- What a process's assertion speaks about, apart from the process itself: whether it has no
child, how many bytes were taken from the pipe on its left, what its own pipe accepted, whether
its parent is done with that pipe and its child has exited, and what was printed. -/
structure View where
  last : Prop
  taken : ℕ
  accepted : List UInt8
  closed : Prop
  childDone : Prop
  output : List Char

def Feeds (bound : ℕ) (v : View) (q : Proc) : Prop :=
  match q.pc with
  | .mainPipe | .mainFork => v.last ∧ v.output = []
  | .feedClose => ¬v.last ∧ v.accepted = []
  | .feed i => ¬v.last ∧ 2 ≤ i ∧ i ≤ bound + 1 ∧ v.accepted = encode (List.range' 2 (i - 2))
  | .feedWrite i sent =>
    ¬v.last ∧ 2 ≤ i ∧ i ≤ bound ∧ sent = 0 ∧ v.accepted = encode (List.range' 2 (i - 2))
  | .feedEnd | .wait => ¬v.last ∧ v.accepted = encode (List.range' 2 (bound - 1))
  | .quit | .exited _ =>
    ¬v.last ∧ v.accepted = encode (List.range' 2 (bound - 1)) ∧ v.childDone
  | _ => False

/-- The assertion of process `j + 1`, which is fed the numbers `l`, where `before` is what the
processes before it print. -/
def Sieves (j : ℕ) (l : List ℕ) (before : List Char) (v : View) (q : Proc) : Prop :=
  match q.pc with
  | .mainChild => j = 0 ∧ v.last ∧ v.taken = 0 ∧ v.output = before
  | .child | .childLeft => 0 < j ∧ v.last ∧ v.taken = 0 ∧ v.output = before
  | .first => v.last ∧ v.taken = 0 ∧ v.output = before
  | .eof => v.last ∧ v.output = before ∧ l = [] ∧ v.closed
  | .print rest =>
    v.last ∧ v.taken = 4 ∧ ∃ p, l.head? = some p ∧ q.prime = intVar p ∧
      v.output ++ rest = before ++ line p
  | .pipe | .fork =>
    v.last ∧ v.taken = 4 ∧ ∃ p, l.head? = some p ∧ q.prime = intVar p ∧ v.output = before ++ line p
  | .closeRead | .next =>
    ¬v.last ∧ ∃ p c, l.head? = some p ∧ q.prime = intVar p ∧ 0 < c ∧ c ≤ l.length ∧
      v.taken = 4 * c ∧ v.accepted = encode (sift (l.take c))
  | .filter =>
    ¬v.last ∧ ∃ p c n, l.head? = some p ∧ q.prime = intVar p ∧ 0 < c ∧ l[c]? = some n ∧
      q.n = intVar n ∧ v.taken = 4 * (c + 1) ∧ v.accepted = encode (sift (l.take c))
  | .write sent =>
    ¬v.last ∧ ∃ p c n, l.head? = some p ∧ q.prime = intVar p ∧ 0 < c ∧ l[c]? = some n ∧
      q.n = intVar n ∧ v.taken = 4 * (c + 1) ∧ v.accepted = encode (sift (l.take c)) ∧
      sent = 0 ∧ n % p ≠ 0
  | .closeLeft | .closeRight | .wait =>
    ¬v.last ∧ v.closed ∧ l ≠ [] ∧ v.accepted = encode (sift l)
  | .quit | .exited _ =>
    v.closed ∧ (v.last ∧ l = [] ∧ v.output = before ∨
      ¬v.last ∧ l ≠ [] ∧ v.accepted = encode (sift l) ∧ v.childDone)
  | _ => False

def State.view (s : State) (j : ℕ) : View where
  last := s.count = j + 1
  taken := (s.pipe (j - 1)).taken
  accepted := (s.pipe j).accepted
  closed := 0 < j ∧ (s.proc (j - 1)).pc.closed = true
  childDone := (s.proc (j + 1)).pc.isExited = true
  output := s.output

def Asserts (bound : ℕ) : ℕ → View → Proc → Prop
  | 0 => Feeds bound
  | j + 1 => Sieves j (fed bound j) (printed bound j)

structure View.Right (v v' : View) : Prop where
  last : v'.last ↔ v.last
  accepted : v'.accepted = v.accepted
  childDone : v.childDone → v'.childDone
  output : v.last → v'.output = v.output

structure View.Left (v v' : View) : Prop where
  taken : v'.taken = v.taken
  closed : v.closed → v'.closed

theorem Feeds.mono {bound : ℕ} {v v' : View} {q : Proc} (h : Feeds bound v q)
    (hv : v.Right v') : Feeds bound v' q := by
  obtain ⟨hlast, hacc, hdone, hout⟩ := hv
  revert h
  simp only [Feeds, hlast, hacc]
  split <;> grind

theorem Sieves.mono {j : ℕ} {l : List ℕ} {before : List Char} {v v' : View} {q : Proc}
    (h : Sieves j l before v q) (hv : v.Right v') (hv' : v.Left v') :
    Sieves j l before v' q := by
  obtain ⟨hlast, hacc, hdone, hout⟩ := hv
  obtain ⟨htaken, hclosed⟩ := hv'
  revert h
  simp only [Sieves, hlast, hacc, htaken]
  split <;> first | exact id | grind

structure Inv (bound : ℕ) (s : State) : Prop where
  asserts : ∀ j < s.count, Asserts bound j (s.view j) (s.proc j)
  fds : ∀ j < s.count, (s.proc j).fds = descriptors j (s.proc j).pc
  fresh : ∀ k, s.count ≤ k + 1 → s.pipe k = ⟨[], 0⟩
  taken_le : ∀ k, (s.pipe k).taken ≤ (s.pipe k).accepted.length
  room : ∀ k, (s.pipe k).accepted.length ≤ (s.pipe k).taken + pipeSize
  reads : ∀ r ∈ s.reads, r = 4 ∨ r = 0
  pos : 0 < s.count

variable {bound : ℕ} {s t : State}

theorem Initial.inv (h : Initial s) : Inv bound s := by
  have hj {j : ℕ} (hj : j < s.count) : j = 0 := by
    have hc := h.count
    omega
  refine ⟨fun j hlt => ?_, fun j hlt => ?_, fun k _ => h.pipe k, ?_, ?_, ?_, ?_⟩
  · obtain rfl := hj hlt
    simp [Asserts, Feeds, State.view, h.pc, h.count, h.output]
  · obtain rfl := hj hlt
    rw [h.fds, h.pc]
    rfl
  · simp [h.pipe]
  · simp [h.pipe]
  · simp [h.reads]
  · simp [h.count]

theorem set_proc_ne (s : State) {i j : ℕ} (q : Proc) (h : i ≠ j) :
    (s.set j q).proc i = s.proc i :=
  update_of_ne h _ _

theorem view_set (s : State) (j : ℕ) (q : Proc) : (s.set j q).view j = s.view j := by
  have hclosed : (0 < j ∧ ((s.set j q).proc (j - 1)).pc.closed = true) =
      (0 < j ∧ (s.proc (j - 1)).pc.closed = true) := by
    by_cases hj : 0 < j
    · rw [set_proc_ne s q (by omega)]
    · simp [hj]
  simp only [State.view, hclosed, set_proc_ne s q (Nat.succ_ne_self j)]
  rfl

/-- The way from `pc` to `pc'` does not take back what the neighbours rely on. -/
def Onward (pc pc' : Pc) : Prop :=
  (pc.closed = true → pc'.closed = true) ∧ (pc.isExited = true → pc'.isExited = true)

/-- A step of process `j`, which becomes `q`: it adds to its own pipe, takes from the one on its
left, and prints if it is the last. -/
theorem Inv.keep (h : Inv bound s) {j : ℕ} {q : Proc} (hcount : t.count = s.count)
    (hproc : t.proc = update s.proc j q)
    (haccepted : ∀ k, k ≠ j → (t.pipe k).accepted = (s.pipe k).accepted)
    (htaken : ∀ k, k + 1 ≠ j → (t.pipe k).taken = (s.pipe k).taken)
    (hfresh : ∀ k, s.count ≤ k + 1 → t.pipe k = ⟨[], 0⟩)
    (houtput : s.count = j + 1 ∨ t.output = s.output)
    (hle : ∀ k, (t.pipe k).taken ≤ (t.pipe k).accepted.length)
    (hroom : ∀ k, (t.pipe k).accepted.length ≤ (t.pipe k).taken + pipeSize)
    (hreads : ∀ r ∈ t.reads, r = 4 ∨ r = 0) {pc : Pc} (hpc : (s.proc j).pc = pc)
    (hon : Onward pc q.pc) (hfds : q.fds = descriptors j q.pc)
    (hown : Asserts bound j (t.view j) q) : Inv bound t := by
  subst hpc
  have hself : t.proc j = q := by rw [hproc, update_self]
  have hother (i : ℕ) (hi : i ≠ j) : t.proc i = s.proc i := by rw [hproc, update_of_ne hi]
  refine ⟨fun i hi => ?_, fun i hi => ?_, ?_, hle, hroom, hreads, hcount ▸ h.pos⟩
  · by_cases hij : i = j
    · subst hij
      rwa [hself]
    · rw [hcount] at hi
      have hi' := h.asserts i hi
      have hright : (s.view i).Right (t.view i) := by
        refine ⟨by simp [State.view, hcount], haccepted _ hij, fun hc => ?_,
          fun hlast => houtput.resolve_left fun hc => ?_⟩
        · by_cases hsucc : i + 1 = j
          · subst hsucc
            rw [State.view, hself]
            exact hon.2 hc
          · rwa [State.view, hother _ hsucc]
        · simp only [State.view] at hlast
          omega
      rw [hother _ hij]
      cases i with
      | zero => exact Feeds.mono hi' hright
      | succ i =>
        refine Sieves.mono hi' hright ⟨htaken _ hij, fun hc => ⟨hc.1, ?_⟩⟩
        rw [Nat.add_sub_cancel]
        by_cases hpred : i = j
        · subst hpred
          rw [hself]
          exact hon.1 hc.2
        · rw [hother _ hpred]
          exact hc.2
  · by_cases hij : i = j
    · subst hij
      rwa [hself]
    · rw [hother i hij]
      exact h.fds i (hcount ▸ hi)
  · rw [hcount]
    exact hfresh

section
variable {j : ℕ} {pc : Pc} {q : Proc}

theorem Inv.set (h : Inv bound s) (hpc : (s.proc j).pc = pc) (hon : Onward pc q.pc)
    (hfds : q.fds = descriptors j q.pc) (hown : Asserts bound j (s.view j) q) :
    Inv bound (s.set j q) :=
  h.keep rfl rfl (fun _ _ => rfl) (fun _ _ => rfl) h.fresh (.inr rfl) h.taken_le h.room h.reads hpc
    hon hfds (by rwa [view_set])

theorem Inv.putc (h : Inv bound s) {c : Char} (hlast : s.count = j + 1)
    (hpc : (s.proc j).pc = pc) (hon : Onward pc q.pc) (hfds : q.fds = descriptors j q.pc)
    (hown : Asserts bound j { s.view j with output := s.output ++ [c] } q) :
    Inv bound { s.set j q with output := s.output ++ [c] } := by
  refine h.keep rfl rfl (fun _ _ => rfl) (fun _ _ => rfl) h.fresh (.inl hlast) h.taken_le h.room
    h.reads hpc hon hfds ?_
  rw [← view_set s j q] at hown
  exact hown

theorem Inv.wrote (h : Inv bound s) {bs : List UInt8} (hj : j + 1 < s.count)
    (hroom : (s.pipe j).accepted.length + 4 ≤ (s.pipe j).taken + pipeSize) (hbs : bs.length = 4)
    (hpc : (s.proc j).pc = pc) (hon : Onward pc q.pc) (hfds : q.fds = descriptors j q.pc)
    (hown : Asserts bound j { s.view j with accepted := (s.pipe j).accepted ++ bs } q) :
    Inv bound { s.set j q with
      pipe := update s.pipe j
        { s.pipe j with accepted := (s.pipe j).accepted ++ bs } } := by
  have htaken (k : ℕ) : (update s.pipe j
      { s.pipe j with accepted := (s.pipe j).accepted ++ bs } k).taken = (s.pipe k).taken := by
    by_cases hk : k = j
    · subst hk
      rw [update_self]
    · rw [update_of_ne hk]
  refine h.keep rfl rfl (fun k hk => congrArg Pipe.accepted (update_of_ne hk _ _))
    (fun k _ => htaken k) (fun k hk => (update_of_ne (by omega) _ _).trans (h.fresh k hk))
    (.inr rfl) (fun k => ?_) (fun k => ?_) h.reads hpc hon hfds ?_
  · dsimp only
    rw [htaken]
    by_cases hk : k = j
    · subst hk
      have hle := h.taken_le k
      rw [update_self, List.length_append]
      omega
    · rw [update_of_ne hk]
      exact h.taken_le k
  · dsimp only
    rw [htaken]
    by_cases hk : k = j
    · subst hk
      rw [update_self, List.length_append, hbs]
      exact hroom
    · rw [update_of_ne hk]
      exact h.room k
  · rw [← view_set s j q] at hown
    simp only [State.view, htaken, update_self]
    exact hown

theorem Inv.took (h : Inv bound s) {c : ℕ} (hj : j + 1 < s.count)
    (htaken : (s.pipe j).taken = 4 * c) (hle : 4 * (c + 1) ≤ (s.pipe j).accepted.length)
    (hpc : (s.proc (j + 1)).pc = pc) (hon : Onward pc q.pc)
    (hfds : q.fds = descriptors (j + 1) q.pc)
    (hown : Asserts bound (j + 1) { s.view (j + 1) with taken := 4 * (c + 1) } q) :
    Inv bound { s.set (j + 1) q with
      pipe := update s.pipe j { s.pipe j with taken := 4 * (c + 1) }
      reads := s.reads ++ [4] } := by
  have haccepted (k : ℕ) : (update s.pipe j
      { s.pipe j with taken := 4 * (c + 1) } k).accepted = (s.pipe k).accepted := by
    by_cases hk : k = j
    · subst hk
      rw [update_self]
    · rw [update_of_ne hk]
  refine h.keep rfl rfl (fun k _ => haccepted k)
    (fun k hk => congrArg Pipe.taken (update_of_ne (fun hkj => hk (by rw [hkj])) _ _))
    (fun k hk => (update_of_ne (by omega) _ _).trans (h.fresh k hk)) (.inr rfl) (fun k => ?_)
    (fun k => ?_) (fun r hr => ?_) hpc hon hfds ?_
  · dsimp only
    rw [haccepted]
    by_cases hk : k = j
    · subst hk
      rwa [update_self]
    · rw [update_of_ne hk]
      exact h.taken_le k
  · dsimp only
    rw [haccepted]
    have hroom := h.room k
    by_cases hk : k = j
    · subst hk
      rw [update_self]
      dsimp only
      omega
    · rwa [update_of_ne hk]
  · rcases List.mem_append.mp hr with hr | hr
    · exact h.reads r hr
    · exact .inl (List.mem_singleton.mp hr)
  · rw [← view_set s (j + 1) q] at hown
    simp only [State.view, haccepted, Nat.add_sub_cancel, update_self]
    exact hown

theorem Inv.ended (h : Inv bound s) (hpc : (s.proc j).pc = pc) (hon : Onward pc q.pc)
    (hfds : q.fds = descriptors j q.pc) (hown : Asserts bound j (s.view j) q) :
    Inv bound { s.set j q with reads := s.reads ++ [0] } := by
  have h' := h.set hpc hon hfds hown
  refine ⟨h'.asserts, h'.fds, h'.fresh, h'.taken_le, h'.room, fun r hr => ?_, h'.pos⟩
  rcases List.mem_append.mp hr with hr | hr
  · exact h.reads r hr
  · exact .inr (List.mem_singleton.mp hr)

end

/-! ### The pipes -/

theorem isOpen_of_mem {fd : ℕ × End} {j : ℕ} (hj : j < s.count) (h : fd ∈ (s.proc j).fds) :
    s.isOpen fd = true :=
  List.any_eq_true.mpr ⟨j, List.mem_range.mpr hj, by simpa using h⟩

structure Produces (l : List ℕ) (j : ℕ) (v : View) (pc : Pc) : Prop where
  accepted : ∃ pre, pre <+: l ∧ v.accepted = encode pre
  complete : pc.closed = true → v.accepted = encode l
  writable : pc.closed = false → (j, .write) ∈ descriptors j pc

theorem Feeds.produces {v : View} {q : Proc} (h : Feeds bound v q) (hlast : ¬v.last) :
    Produces (List.range' 2 (bound - 1)) 0 v q.pc := by
  have hrange {i : ℕ} (hi : i ≤ bound + 1) :
      List.range' 2 (i - 2) <+: List.range' 2 (bound - 1) := by
    refine ⟨List.range' (2 + (i - 2)) (bound - 1 - (i - 2)), ?_⟩
    rw [List.range'_append_1]
    congr 1
    omega
  obtain ⟨pc, fds, prime, n⟩ := q
  cases pc with
  | mainPipe | mainFork => exact absurd h.1 hlast
  | feedClose => exact ⟨⟨[], List.nil_prefix, h.2⟩, nofun, fun _ => by simp [descriptors]⟩
  | feed i => exact ⟨⟨_, hrange h.2.2.1, h.2.2.2⟩, nofun, fun _ => by simp [descriptors]⟩
  | feedWrite i sent =>
    obtain ⟨-, -, hi, -, hacc⟩ := h
    exact ⟨⟨_, hrange (by omega), hacc⟩, nofun, fun _ => by simp [descriptors]⟩
  | feedEnd => exact ⟨⟨_, List.prefix_rfl, h.2⟩, nofun, fun _ => by simp [descriptors]⟩
  | wait => exact ⟨⟨_, List.prefix_rfl, h.2⟩, fun _ => h.2, nofun⟩
  | quit => exact ⟨⟨_, List.prefix_rfl, h.2.1⟩, fun _ => h.2.1, nofun⟩
  | exited status => exact ⟨⟨_, List.prefix_rfl, h.2.1⟩, fun _ => h.2.1, nofun⟩
  | _ => exact h.elim

theorem Sieves.produces {j : ℕ} {l : List ℕ} {before : List Char} {v : View} {q : Proc}
    (h : Sieves j l before v q) (hlast : ¬v.last) : Produces (sift l) (j + 1) v q.pc := by
  obtain ⟨pc, fds, prime, n⟩ := q
  have hpart {c : ℕ} (hacc : v.accepted = encode (sift (l.take c))) (hc : pc.closed = false)
      (hw : (j + 1, .write) ∈ descriptors (j + 1) pc) : Produces (sift l) (j + 1) v pc :=
    ⟨⟨_, sift_mono (List.take_prefix c l), hacc⟩, fun h => by simp [hc] at h, fun _ => hw⟩
  have hall (hacc : v.accepted = encode (sift l))
      (hw : pc.closed = false → (j + 1, .write) ∈ descriptors (j + 1) pc) :
      Produces (sift l) (j + 1) v pc :=
    ⟨⟨_, List.prefix_rfl, hacc⟩, fun _ => hacc, hw⟩
  cases pc with
  | closeRead | next =>
    obtain ⟨-, p, c, -, -, -, -, -, hacc⟩ := h
    exact hpart hacc rfl (by simp [descriptors])
  | filter =>
    obtain ⟨-, p, c, n, -, -, -, -, -, -, hacc⟩ := h
    exact hpart hacc rfl (by simp [descriptors])
  | write sent =>
    obtain ⟨-, p, c, n, -, -, -, -, -, -, hacc, -⟩ := h
    exact hpart hacc rfl (by simp [descriptors])
  | closeLeft | closeRight => exact hall h.2.2.2 fun _ => by simp [descriptors]
  | wait => exact hall h.2.2.2 nofun
  | quit | exited status =>
    rcases h.2 with hl | hl
    · exact absurd hl.1 hlast
    · exact hall hl.2.2.1 nofun
  | mainChild | child | childLeft => exact absurd h.2.1 hlast
  | first | eof | print rest | pipe | fork => exact absurd h.1 hlast
  | _ => exact h.elim

theorem Sieves.consumes {j : ℕ} {l : List ℕ} {before : List Char} {v : View} {q : Proc}
    (h : Sieves j l before v q) (hopen : ¬v.closed) :
    (∃ c, v.taken = 4 * c) ∧ (j, .read) ∈ descriptors (j + 1) q.pc := by
  obtain ⟨pc, fds, prime, n⟩ := q
  cases pc with
  | mainChild | child | childLeft => exact ⟨⟨0, h.2.2.1⟩, by simp [descriptors]⟩
  | first => exact ⟨⟨0, h.2.1⟩, by simp [descriptors]⟩
  | print rest | pipe | fork => exact ⟨⟨1, h.2.1⟩, by simp [descriptors]⟩
  | closeRead | next =>
    obtain ⟨-, p, c, -, -, -, -, htaken, -⟩ := h
    exact ⟨⟨c, htaken⟩, by simp [descriptors]⟩
  | filter =>
    obtain ⟨-, p, c, n, -, -, -, -, -, htaken, -⟩ := h
    exact ⟨⟨c + 1, htaken⟩, by simp [descriptors]⟩
  | write sent =>
    obtain ⟨-, p, c, n, -, -, -, -, -, htaken, -⟩ := h
    exact ⟨⟨c + 1, htaken⟩, by simp [descriptors]⟩
  | eof => exact absurd h.2.2.2 hopen
  | closeLeft | closeRight | wait => exact absurd h.2.1 hopen
  | quit | exited status => exact absurd h.1 hopen
  | _ => exact h.elim

theorem Inv.produces (h : Inv bound s) {j : ℕ} (hj : j + 1 < s.count) :
    Produces (fed bound j) j (s.view j) (s.proc j).pc := by
  have ha := h.asserts j (by omega)
  have hlast : ¬(s.view j).last := by
    simp only [State.view]
    omega
  cases j with
  | zero => exact Feeds.produces ha hlast
  | succ j =>
    rw [fed_succ]
    exact Sieves.produces ha hlast

theorem Inv.consumes (h : Inv bound s) {j : ℕ} (hj : j + 1 < s.count)
    (hopen : (s.proc j).pc.closed = false) :
    (∃ c, (s.pipe j).taken = 4 * c) ∧ s.isOpen (j, .read) = true := by
  obtain ⟨htaken, hmem⟩ := Sieves.consumes (h.asserts (j + 1) hj) (by simp [State.view, hopen])
  rw [← h.fds (j + 1) hj] at hmem
  exact ⟨htaken, isOpen_of_mem hj hmem⟩

theorem Inv.write_eq (h : Inv bound s) {j : ℕ} (hj : j + 1 < s.count)
    (hopen : (s.proc j).pc.closed = false) {v : Bytes 4} {again : ℕ → Pc} {done : ℤ → Pc}
    (hw : s.write j j v 0 again done = some t) :
    (s.pipe j).accepted.length + 4 ≤ (s.pipe j).taken + pipeSize ∧
      t = { s.goto j (done 4) with
        pipe := update s.pipe j
          { s.pipe j with accepted := (s.pipe j).accepted ++ getBytes v 0 4 } } := by
  obtain ⟨⟨c, htaken⟩, hread⟩ := h.consumes hj hopen
  obtain ⟨⟨pre, -, hacc⟩, -, hwrite⟩ := h.produces hj
  rw [← h.fds j (by omega)] at hwrite
  have hlen : (s.pipe j).accepted.length = 4 * pre.length := by
    rw [← length_encode, ← hacc]
    rfl
  have hle := h.taken_le j
  have hroom := h.room j
  have hsize : pipeSize = 512 := rfl
  have hbuf : (s.pipe j).buffer.length = (s.pipe j).accepted.length - (s.pipe j).taken :=
    List.length_drop
  rw [State.write, if_neg (by simp [hwrite hopen, hread])] at hw
  split at hw
  · cases hw
  · rename_i hfull
    have hfits : (getBytes v 0 4).take (pipeSize - (s.pipe j).buffer.length) = getBytes v 0 4 :=
      List.take_of_length_le (by rw [length_getBytes]; omega)
    refine ⟨by omega, ?_⟩
    simp only [List.drop_zero, hfits, length_getBytes, Nat.zero_add, if_true,
      Option.some.injEq] at hw
    exact hw.symm

/-- A `read` of an `int` by a process that has taken `c` numbers sleeps, gets the next number
whole, or finds the end of the input. -/
theorem Inv.read_eq (h : Inv bound s) {j c : ℕ} (hj : j + 1 < s.count)
    (htaken : (s.pipe j).taken = 4 * c) (hmem : (j, .read) ∈ (s.proc (j + 1)).fds)
    {cont : ℤ → List UInt8 → Proc} (hr : s.read (j + 1) j cont = some t) :
    ((s.proc j).pc.closed = true ∧ (fed bound j).length ≤ c ∧
      t = { s.set (j + 1) (cont 0 []) with reads := s.reads ++ [0] }) ∨
    ∃ n, (fed bound j)[c]? = some n ∧ 4 * (c + 1) ≤ (s.pipe j).accepted.length ∧
      t = { s.set (j + 1) (cont 4 (getBytes (intVar n) 0 4)) with
        pipe := update s.pipe j { s.pipe j with taken := 4 * (c + 1) }
        reads := s.reads ++ [4] } := by
  obtain ⟨⟨pre, hpre, hacc⟩, hall, hwrite⟩ := h.produces hj
  have hacc' : (s.pipe j).accepted = encode pre := hacc
  have hbuf : (s.pipe j).buffer = encode (pre.drop c) := by
    rw [Pipe.buffer, hacc', htaken, drop_encode]
  rw [State.read, if_neg (by simpa using hmem), hbuf] at hr
  rw [← h.fds j (by omega)] at hwrite
  cases hdrop : pre.drop c with
  | nil =>
    rw [hdrop] at hr
    have hnone : encode [] = [] := rfl
    simp only [hnone, true_and, List.take_nil, List.length_nil, Nat.add_zero] at hr
    split at hr
    · cases hr
    · rename_i hopen
      have hclosed : (s.proc j).pc.closed = true := by
        by_contra hne
        exact hopen (isOpen_of_mem (by omega) (hwrite (by simpa using hne)))
      have hfull : encode pre = encode (fed bound j) := hacc.symm.trans (hall hclosed)
      have hlen : pre.length = (fed bound j).length := by
        have hl := congrArg List.length hfull
        simp only [length_encode] at hl
        omega
      refine .inl ⟨hclosed, ?_, ?_⟩
      · rw [← hlen]
        exact List.drop_eq_nil_iff.mp hdrop
      · rw [update_eq_self] at hr
        exact (Option.some.inj hr).symm
  | cons n rest =>
    rw [hdrop, take_encode] at hr
    have hne : encode (n :: rest) ≠ [] := by
      intro hnil
      have hl := congrArg List.length hnil
      rw [length_encode] at hl
      cases hl
    have hn : pre[c]? = some n := by
      rw [← List.head?_drop, hdrop]
      rfl
    have hc : c < pre.length := (List.getElem?_eq_some_iff.mp hn).1
    simp only [hne, false_and, if_false, length_getBytes, htaken] at hr
    refine .inr ⟨n, ?_, ?_, ?_⟩
    · obtain ⟨t, ht⟩ := hpre
      rw [← ht, List.getElem?_append_left hc, hn]
    · rw [hacc', length_encode]
      omega
    · exact (Option.some.inj hr).symm

/-! ### Steps -/

theorem fork_proc_parent (s : State) (j : ℕ) (pc pc' : Pc) :
    (s.fork j pc pc').proc j = { s.proc j with pc := pc } :=
  (update_of_ne (Nat.succ_ne_self j).symm _ _).trans (update_self _ _ _)

theorem fork_proc_ne (s : State) {i j : ℕ} (pc pc' : Pc) (hi : i ≠ j) (hi' : i ≠ j + 1) :
    (s.fork j pc pc').proc i = s.proc i :=
  (update_of_ne hi' _ _).trans (update_of_ne hi _ _)

theorem fork_proc_child (s : State) (j : ℕ) (pc pc' : Pc) :
    (s.fork j pc pc').proc (j + 1) =
      { s.proc (j + 1) with pc := pc', fds := (s.proc j).fds } :=
  update_self _ _ _

theorem Asserts.mono {j : ℕ} {v v' : View} {q : Proc} (h : Asserts bound j v q)
    (hv : v.Right v') (hv' : v.Left v') : Asserts bound j v' q := by
  cases j with
  | zero => exact Feeds.mono h hv
  | succ j => exact Sieves.mono h hv hv'

theorem Inv.fork (h : Inv bound s) {j : ℕ} {pc pc' : Pc} (hlast : s.count = j + 1)
    (hexited : (s.proc j).pc.isExited = false)
    (hfds : (s.proc j).fds = descriptors j pc) (hfds' : (s.proc j).fds = descriptors (j + 1) pc')
    (hown : Asserts bound j { s.view j with last := False, childDone := False }
      { s.proc j with pc := pc })
    (hchild : Sieves j (fed bound j) (printed bound j) ⟨True, 0, [], False, False, s.output⟩
      { s.proc (j + 1) with pc := pc', fds := (s.proc j).fds }) :
    Inv bound (s.fork j pc pc') := by
  have hcount : (s.fork j pc pc').count = j + 2 := rfl
  have hclosed {i : ℕ} (hi : i ≤ j) (hc : (s.view i).closed) :
      ((s.fork j pc pc').view i).closed := by
    refine ⟨hc.1, ?_⟩
    rw [fork_proc_ne s pc pc' (by have := hc.1; omega) (by omega)]
    exact hc.2
  refine ⟨fun i hi => ?_, fun i hi => ?_, fun k hk => h.fresh k (by omega), h.taken_le, h.room,
    h.reads, Nat.succ_pos _⟩
  · rw [hcount] at hi
    by_cases hchild' : i = j + 1
    · subst hchild'
      rw [fork_proc_child]
      refine Sieves.mono hchild ⟨?_, ?_, False.elim, fun _ => rfl⟩ ⟨?_, False.elim⟩
      · simp [State.view, hcount]
      · exact congrArg Pipe.accepted (h.fresh (j + 1) (by omega))
      · exact congrArg Pipe.taken (h.fresh j (by omega))
    · by_cases hparent : i = j
      · subst hparent
        rw [fork_proc_parent]
        exact hown.mono ⟨by simp [State.view, hcount], rfl, False.elim, fun _ => rfl⟩
          ⟨rfl, hclosed le_rfl⟩
      · rw [fork_proc_ne s pc pc' hparent hchild']
        refine (h.asserts i (by omega)).mono ⟨?_, rfl, fun hc => ?_, fun _ => rfl⟩
          ⟨rfl, hclosed (by omega)⟩
        · simp only [State.view, hcount]
          omega
        · by_cases hnext : i + 1 = j
          · simp only [State.view, hnext, hexited] at hc
            cases hc
          · rw [State.view, fork_proc_ne s pc pc' hnext (by omega)]
            exact hc
  · rw [hcount] at hi
    by_cases hchild' : i = j + 1
    · subst hchild'
      rw [fork_proc_child]
      exact hfds'
    · by_cases hparent : i = j
      · subst hparent
        rw [fork_proc_parent]
        exact hfds
      · rw [fork_proc_ne s pc pc' hparent hchild']
        exact h.fds i (by omega)

theorem newPipe_eq {j : ℕ} (h : s.pipe j = ⟨[], 0⟩) (pc : Pc) :
    s.newPipe j pc = s.set j { s.proc j with
      pc := pc
      fds := insert (j, .read) (insert (j, .write) (s.proc j).fds) } := by
  rw [State.newPipe, ← h, update_eq_self]
  rfl

theorem waited {j : ℕ} (hlast : ¬(s.view j).last) (hj : j < s.count)
    (hdone : ¬(j + 1 < s.count ∧ (s.proc (j + 1)).pc.isExited = false)) :
    (s.view j).childDone := by
  have hcount : j + 1 < s.count := by
    simp only [State.view] at hlast
    omega
  simpa [hcount, State.view] using hdone

/-- What the invariant says of a process at `pc`. -/
theorem Inv.located (h : Inv bound s) {j : ℕ} (hj : j < s.count) {pc : Pc}
    (hpc : (s.proc j).pc = pc) :
    Asserts bound j (s.view j) { s.proc j with pc := pc } ∧ (s.proc j).fds = descriptors j pc := by
  subst hpc
  exact ⟨h.asserts j hj, h.fds j hj⟩

theorem Inv.close (h : Inv bound s) {j : ℕ} (hj : j < s.count) {pc pc' : Pc}
    (hpc : (s.proc j).pc = pc) (hon : Onward pc pc') {fd : ℕ × End}
    (hfds : (descriptors j pc).erase fd = descriptors j pc')
    (hown : Asserts bound j (s.view j)
      { s.proc j with pc := pc', fds := (s.proc j).fds.erase fd }) :
    Inv bound (s.close j fd pc') := by
  refine h.set hpc hon ?_ hown
  rw [← hfds, ← (h.located hj hpc).2]

theorem Inv.newPipe (h : Inv bound s) {j : ℕ} (hlast : s.count = j + 1) {pc pc' : Pc}
    (hpc : (s.proc j).pc = pc) (hon : Onward pc pc')
    (hfds : insert (j, .read) (insert (j, .write) (descriptors j pc)) = descriptors j pc')
    (hown : Asserts bound j (s.view j) { s.proc j with
      pc := pc'
      fds := insert (j, .read) (insert (j, .write) (s.proc j).fds) }) :
    Inv bound (s.newPipe j pc') := by
  rw [newPipe_eq (h.fresh j hlast.le)]
  refine h.set hpc hon ?_ hown
  rw [← hfds, ← (h.located (by omega) hpc).2]

theorem Inv.wait_step (h : Inv bound s) {j : ℕ} (hj : j < s.count) (hpc : (s.proc j).pc = .wait)
    (hs : step bound s j = some t)
    (hown : (s.view j).childDone → Asserts bound j (s.view j) { s.proc j with pc := .quit })
    (hlast : ¬(s.view j).last) : Inv bound t := by
  simp only [step, hj, if_true, hpc] at hs
  split_ifs at hs with hdone
  cases hs
  exact h.set hpc ⟨fun _ => rfl, nofun⟩ (h.located hj hpc).2 (hown (waited hlast hj hdone))

theorem Inv.feed_step (h : Inv bound s) {i sent : ℕ} (hpc : (s.proc 0).pc = .feedWrite i sent)
    (hs : step bound s 0 = some t) : Inv bound t := by
  obtain ⟨⟨hlast, h2, hi, hsent, hacc⟩, hfds⟩ := h.located h.pos hpc
  simp only [step, h.pos, if_true, hpc, hsent] at hs
  have hcount : 1 < s.count := by
    simp only [State.view] at hlast
    have hpos := h.pos
    omega
  obtain ⟨hroom, rfl⟩ := h.write_eq hcount (by rw [hpc]; rfl) hs
  refine h.wrote hcount hroom (length_getBytes _ _ _) hpc ⟨nofun, nofun⟩ hfds
    ⟨hlast, by omega, by omega, ?_⟩
  have hacc' : (s.pipe 0).accepted = encode (List.range' 2 (i - 2)) := hacc
  have hrange : List.range' 2 (i + 1 - 2) = List.range' 2 (i - 2) ++ [i] := by
    rw [show i + 1 - 2 = i - 2 + 1 by omega, List.range'_concat]
    simp
    omega
  rw [hrange, encode_append, hacc']
  rfl

theorem Inv.main_step (h : Inv bound s) (hb : 2 ≤ bound) (hs : step bound s 0 = some t) :
    Inv bound t := by
  have hall := hs
  generalize hpc : (s.proc 0).pc = pc
  obtain ⟨ha, hfds⟩ := h.located h.pos hpc
  simp only [step, h.pos, if_true, hpc] at hs
  cases pc with
  | feedWrite i sent => exact h.feed_step hpc hall
  | mainPipe =>
    cases hs
    exact h.newPipe ha.1 hpc ⟨nofun, nofun⟩ rfl ha
  | mainFork =>
    cases hs
    exact h.fork ha.1 (by rw [hpc]; rfl) hfds hfds
      ⟨not_false, congrArg Pipe.accepted (h.fresh 0 (le_of_eq ha.1))⟩ ⟨rfl, trivial, rfl, ha.2⟩
  | feedClose =>
    cases hs
    exact h.close h.pos hpc ⟨nofun, nofun⟩ rfl ⟨ha.1, le_rfl, by omega, ha.2⟩
  | feed i =>
    obtain ⟨hlast, h2, hi, hacc⟩ := ha
    cases hs
    split
    · exact h.set hpc ⟨nofun, nofun⟩ hfds ⟨hlast, h2, ‹_›, rfl, hacc⟩
    · refine h.set hpc ⟨nofun, nofun⟩ hfds ⟨hlast, ?_⟩
      rw [hacc, show i - 2 = bound - 1 by omega]
  | feedEnd =>
    cases hs
    exact h.close h.pos hpc ⟨nofun, nofun⟩ rfl ha
  | wait => exact h.wait_step h.pos hpc hall (fun hdone => ⟨ha.1, ha.2, hdone⟩) ha.1
  | quit =>
    cases hs
    exact h.set hpc ⟨fun _ => rfl, nofun⟩ rfl ha
  | exited => cases hs
  | _ => exact ha.elim

section
variable {j : ℕ}

theorem getWord_of_mem_fed (hb : bound < 2 ^ 31) {n : ℕ} (hn : n ∈ fed bound j) :
    getWord (intVar n) 0 = n := by
  have hlt := lt_of_mem_fed hn
  exact getWord_intVar (by omega)

theorem Inv.first_step (h : Inv bound s) (hb : bound < 2 ^ 31) (hj : j + 1 < s.count)
    (hpc : (s.proc (j + 1)).pc = .first) (hs : step bound s (j + 1) = some t) :
    Inv bound t := by
  obtain ⟨⟨hlast, htaken, hout⟩, hfds⟩ := h.located hj hpc
  simp only [step, hj, if_true, hpc, Nat.add_sub_cancel] at hs
  have hmem : (j, .read) ∈ (s.proc (j + 1)).fds := by simp [hfds, descriptors]
  rcases h.read_eq (c := 0) hj htaken hmem hs with ⟨hclosed, hlen, rfl⟩ | ⟨n, hn, hle, rfl⟩
  · exact h.ended hpc ⟨nofun, nofun⟩ hfds
      ⟨hlast, hout, List.length_eq_zero_iff.mp (Nat.le_zero.mp hlen), Nat.succ_pos j, hclosed⟩
  · refine h.took hj htaken hle hpc ⟨nofun, nofun⟩ hfds ?_
    rw [putBytes_getBytes, getWord_of_mem_fed hb (List.mem_of_getElem? hn)]
    refine ⟨hlast, rfl, n, ?_, rfl, ?_⟩
    · rwa [List.head?_eq_getElem?]
    · exact congrArg (· ++ line n) hout

theorem Inv.print_step (h : Inv bound s) (hj : j + 1 < s.count) {rest : List Char}
    (hpc : (s.proc (j + 1)).pc = .print rest) (hs : step bound s (j + 1) = some t) :
    Inv bound t := by
  obtain ⟨⟨hlast, htaken, p, hp, hprime, hout⟩, hfds⟩ := h.located hj hpc
  simp only [step, hj, if_true, hpc] at hs
  cases rest with
  | nil =>
    cases hs
    rw [List.append_nil] at hout
    exact h.set hpc ⟨nofun, nofun⟩ hfds ⟨hlast, htaken, p, hp, hprime, hout⟩
  | cons c rest =>
    cases hs
    refine h.putc hlast hpc ⟨nofun, nofun⟩ hfds ⟨hlast, htaken, p, hp, hprime, ?_⟩
    rw [← hout]
    exact List.append_assoc _ [c] rest

theorem Inv.fork_step (h : Inv bound s) (hj : j + 1 < s.count)
    (hpc : (s.proc (j + 1)).pc = .fork) (hs : step bound s (j + 1) = some t) :
    Inv bound t := by
  obtain ⟨⟨hlast, htaken, p, hp, hprime, hout⟩, hfds⟩ := h.located hj hpc
  simp only [step, hj, if_true, hpc, Option.some.injEq] at hs
  subst hs
  refine h.fork hlast (by rw [hpc]; rfl) hfds ?_ ?_ ?_
  · rw [hfds]
    ext ⟨k, e⟩
    simp [descriptors]
    tauto
  · obtain ⟨xs, hl⟩ := List.head?_eq_some_iff.mp hp
    refine ⟨not_false, p, 1, hp, hprime, Nat.one_pos, ?_, htaken, ?_⟩
    · simp [hl]
    · rw [hl]
      exact congrArg Pipe.accepted (h.fresh (j + 1) (le_of_eq hlast))
  · refine ⟨Nat.succ_pos j, trivial, rfl, ?_⟩
    rw [printed_succ hp]
    exact hout

theorem Inv.next_step (h : Inv bound s) (hj : j + 1 < s.count)
    (hpc : (s.proc (j + 1)).pc = .next) (hs : step bound s (j + 1) = some t) :
    Inv bound t := by
  obtain ⟨⟨hlast, p, c, hp, hprime, hc, hle, htaken, hacc⟩, hfds⟩ := h.located hj hpc
  simp only [step, hj, if_true, hpc, Nat.add_sub_cancel] at hs
  have hmem : (j, .read) ∈ (s.proc (j + 1)).fds := by simp [hfds, descriptors]
  rcases h.read_eq hj htaken hmem hs with ⟨hclosed, hlen, rfl⟩ | ⟨n, hn, hle', rfl⟩
  · refine h.ended hpc ⟨nofun, nofun⟩ hfds ⟨hlast, ⟨Nat.succ_pos j, hclosed⟩, ?_, ?_⟩
    · intro hnil
      rw [hnil] at hp
      cases hp
    · rw [hacc, List.take_of_length_le hlen]
  · refine h.took hj htaken hle' hpc ⟨nofun, nofun⟩ hfds ?_
    rw [putBytes_getBytes]
    exact ⟨hlast, p, c, n, hp, hprime, hc, hn, rfl, rfl, hacc⟩

theorem Inv.filter_step (h : Inv bound s) (hb : bound < 2 ^ 31) (hj : j + 1 < s.count)
    (hpc : (s.proc (j + 1)).pc = .filter) (hs : step bound s (j + 1) = some t) :
    Inv bound t := by
  obtain ⟨⟨hlast, p, c, n, hp, hprime, hc, hn, hvar, htaken, hacc⟩, hfds⟩ := h.located hj hpc
  simp only at hprime hvar
  simp only [step, hj, if_true, hpc, Option.some.injEq, hvar, hprime,
    getWord_of_mem_fed hb (List.mem_of_getElem? hn),
    getWord_of_mem_fed hb (List.mem_of_head? hp)] at hs
  subst hs
  have hsift := sift_take_succ hp hc hn
  split
  · exact h.set hpc ⟨nofun, nofun⟩ hfds
      ⟨hlast, p, c, n, hp, hprime, hc, hn, hvar, htaken, hacc, rfl, ‹_›⟩
  · rename_i hdvd
    rw [if_neg hdvd, List.append_nil] at hsift
    refine h.set hpc ⟨nofun, nofun⟩ hfds
      ⟨hlast, p, c + 1, hp, hprime, Nat.succ_pos c, ?_, htaken, ?_⟩
    · exact (List.getElem?_eq_some_iff.mp hn).1
    · rw [hsift, hacc]

theorem Inv.write_step (h : Inv bound s) (hj : j + 1 < s.count) {sent : ℕ}
    (hpc : (s.proc (j + 1)).pc = .write sent) (hs : step bound s (j + 1) = some t) :
    Inv bound t := by
  obtain ⟨⟨hlast, p, c, n, hp, hprime, hc, hn, hvar, htaken, hacc, hsent, hmod⟩, hfds⟩ :=
    h.located hj hpc
  simp only [step, hj, if_true, hpc, hsent] at hs
  have hcount : j + 1 + 1 < s.count := by
    simp only [State.view] at hlast
    omega
  have hacc' : (s.pipe (j + 1)).accepted = encode (sift ((fed bound j).take c)) := hacc
  have hvar' : (s.proc (j + 1)).n = intVar n := hvar
  have hsift := sift_take_succ hp hc hn
  rw [if_pos hmod] at hsift
  obtain ⟨hroom, rfl⟩ := h.write_eq hcount (by rw [hpc]; rfl) hs
  refine h.wrote hcount hroom (length_getBytes _ _ _) hpc ⟨nofun, nofun⟩ hfds
    ⟨hlast, p, c + 1, hp, hprime, Nat.succ_pos c, ?_, htaken, ?_⟩
  · exact (List.getElem?_eq_some_iff.mp hn).1
  · rw [hsift, encode_append, hacc', hvar']
    rfl

/-- Every step of a sieving process keeps the invariant. -/
theorem Inv.sieve_step (h : Inv bound s) (hb : bound < 2 ^ 31)
    (hs : step bound s (j + 1) = some t) : Inv bound t := by
  have hj : j + 1 < s.count := by
    by_contra hne
    rw [step, if_neg hne] at hs
    cases hs
  have hall := hs
  generalize hpc : (s.proc (j + 1)).pc = pc
  obtain ⟨ha, hfds⟩ := h.located hj hpc
  simp only [step, hj, if_true, hpc, Nat.add_sub_cancel] at hs
  cases pc with
  | first => exact h.first_step hb hj hpc hall
  | print rest => exact h.print_step hj hpc hall
  | fork => exact h.fork_step hj hpc hall
  | next => exact h.next_step hj hpc hall
  | filter => exact h.filter_step hb hj hpc hall
  | write sent => exact h.write_step hj hpc hall
  | mainChild =>
    cases hs
    exact h.close hj hpc ⟨nofun, nofun⟩ (by ext ⟨k, e⟩; simp [descriptors]; grind) ha.2
  | eof =>
    obtain ⟨hlast, hout, hnil, hclosed⟩ := ha
    cases hs
    exact h.close hj hpc ⟨nofun, nofun⟩ (by simp [descriptors]) ⟨hclosed, .inl ⟨hlast, hnil, hout⟩⟩
  | pipe =>
    cases hs
    exact h.newPipe ha.1 hpc ⟨nofun, nofun⟩ (by ext ⟨k, e⟩; simp [descriptors]; tauto) ha
  | child =>
    cases hs
    exact h.close hj hpc ⟨nofun, nofun⟩ (by ext ⟨k, e⟩; simp [descriptors]; grind) ha
  | childLeft =>
    obtain ⟨h0, hrest⟩ := ha
    cases hs
    exact h.close hj hpc ⟨nofun, nofun⟩ (by ext ⟨k, e⟩; simp [descriptors]; grind) hrest
  | closeRead =>
    cases hs
    exact h.close hj hpc ⟨nofun, nofun⟩ (by ext ⟨k, e⟩; simp [descriptors]; grind) ha
  | closeLeft =>
    cases hs
    exact h.close hj hpc ⟨nofun, nofun⟩ (by simp [descriptors]) ha
  | closeRight =>
    cases hs
    exact h.close hj hpc ⟨nofun, nofun⟩ (by simp [descriptors]) ha
  | wait =>
    obtain ⟨hlast, hclosed, hne, hacc⟩ := ha
    exact h.wait_step hj hpc hall (fun hdone => ⟨hclosed, .inr ⟨hlast, hne, hacc, hdone⟩⟩) hlast
  | quit =>
    cases hs
    exact h.set hpc ⟨fun _ => rfl, nofun⟩ rfl ha
  | exited => cases hs
  | _ => exact ha.elim

end

theorem Inv.step (h : Inv bound s) (hmin : 2 ≤ bound) (hmax : bound < 2 ^ 31) {j : ℕ}
    (hs : Step bound s j t) : Inv bound t := by
  cases j with
  | zero => exact h.main_step hmin hs
  | succ j => exact h.sieve_step hmax hs

/-! ### Runs -/

/-- The lines `prime p` for the primes up to `bound`, in increasing order. -/
def primeLines (bound : ℕ) : List Char :=
  ((List.range' 2 (bound - 1)).filter fun n => n.Prime).flatMap line

theorem printed_append (bound j : ℕ) :
    printed bound j ++ ((fed bound j).filter fun n => n.Prime).flatMap line = primeLines bound := by
  rw [printed, fed, ← List.flatMap_append, (sievable_range _).heads_append]
  rfl

theorem printed_isPrefix (bound j : ℕ) : printed bound j <+: primeLines bound :=
  ⟨_, printed_append bound j⟩

theorem printed_of_nil {j : ℕ} (h : fed bound j = []) : printed bound j = primeLines bound := by
  rw [← printed_append bound j, h]
  simp

theorem Sieves.output_isPrefix {j : ℕ} {v : View} {q : Proc}
    (h : Sieves j (fed bound j) (printed bound j) v q) (hlast : v.last) :
    v.output <+: primeLines bound := by
  have hbefore (hout : v.output = printed bound j) : v.output <+: primeLines bound :=
    hout ▸ printed_isPrefix bound j
  have hline {p : ℕ} (rest : List Char) (hp : (fed bound j).head? = some p)
      (hout : v.output ++ rest = printed bound j ++ line p) : v.output <+: primeLines bound := by
    rw [← printed_succ hp] at hout
    exact (hout ▸ List.prefix_append _ _).trans (printed_isPrefix bound (j + 1))
  obtain ⟨pc, fds, prime, n⟩ := q
  cases pc with
  | mainChild | child | childLeft => exact hbefore h.2.2.2
  | first => exact hbefore h.2.2
  | eof => exact hbefore h.2.1
  | print rest =>
    obtain ⟨-, -, p, hp, -, hout⟩ := h
    exact hline rest hp hout
  | pipe | fork =>
    obtain ⟨-, -, p, hp, -, hout⟩ := h
    exact hline [] hp (by rw [List.append_nil, hout])
  | closeRead | next | filter | write sent | closeLeft | closeRight | wait => exact absurd hlast h.1
  | quit | exited status =>
    rcases h.2 with hl | hl
    · exact hbefore hl.2.2
    · exact absurd hlast hl.1
  | _ => exact h.elim

theorem Inv.output_isPrefix (h : Inv bound s) : s.output <+: primeLines bound := by
  obtain ⟨j, hj⟩ := Nat.exists_eq_succ_of_ne_zero h.pos.ne'
  cases j with
  | zero =>
    have ha : Feeds bound (s.view 0) (s.proc 0) := h.asserts 0 h.pos
    have hlast : (s.view 0).last := hj
    unfold Feeds at ha
    have hout : s.output = [] := by
      split at ha
      · exact ha.2
      · exact ha.2
      all_goals first | exact absurd hlast ha.1 | exact ha.elim
    rw [hout]
    exact List.nil_prefix
  | succ j => exact Sieves.output_isPrefix (h.asserts (j + 1) (by omega)) hj

theorem Inv.output_eq (h : Inv bound s)
    (hall : ∀ j < s.count, (s.proc j).pc.isExited = true) : s.output = primeLines bound := by
  obtain ⟨j, hj⟩ := Nat.exists_eq_succ_of_ne_zero h.pos.ne'
  have hexited := hall j (by omega)
  have ha := h.asserts j (by omega)
  have hlast : (s.view j).last := hj
  cases j with
  | zero =>
    simp only [Asserts, Feeds] at ha
    cases hpc : (s.proc 0).pc with
    | exited status =>
      rw [hpc] at ha
      exact absurd hlast ha.1
    | _ =>
      rw [hpc] at hexited
      cases hexited
  | succ j =>
    simp only [Asserts, Sieves] at ha
    cases hpc : (s.proc (j + 1)).pc with
    | exited status =>
      rw [hpc] at ha
      rcases ha.2 with hl | hl
      · exact hl.2.2.trans (printed_of_nil hl.2.1)
      · exact absurd hlast hl.1
    | _ =>
      rw [hpc] at hexited
      cases hexited

/-- Under every schedule, what the pipeline has printed so far is a beginning of the lines for
the primes up to `bound`, every `read` of an `int` returns 4 bytes or finds the end of the
input, and when all processes have exited all the lines are printed. -/
theorem primes_pipeline (hmin : 2 ≤ bound) (hmax : bound < 2 ^ 31 - 1)
    (h : Reachable Initial (Step bound) s) :
    s.output <+: primeLines bound ∧ (∀ r ∈ s.reads, r = 4 ∨ r = 0) ∧
      ((∀ j < s.count, (s.proc j).pc.isExited = true) → s.output = primeLines bound) := by
  have hinv := h.invariant (fun _ hi => hi.inv) fun _ _ _ hi hs => hi.step hmin (by omega) hs
  exact ⟨hinv.output_isPrefix, hinv.reads, hinv.output_eq⟩

def blank : State :=
  ⟨1, fun _ => ⟨.mainPipe, ∅, fun _ => 0, fun _ => 0⟩, fun _ => ⟨[], 0⟩, [], []⟩

theorem blank_initial : Initial blank := ⟨rfl, rfl, rfl, fun _ => rfl, rfl, rfl⟩

theorem primes_pipeline_two : ∃ s, Reachable Initial (Step 2) s ∧
    (∀ j < s.count, (s.proc j).pc.isExited = true) ∧ s.output = "prime 2\n".toList := by
  have hrun : (exec (step 2) blank (List.replicate 7 0 ++ List.replicate 17 1 ++
      List.replicate 5 2 ++ List.replicate 2 1 ++ List.replicate 2 0)).any
        (fun s => decide (∀ j < s.count, (s.proc j).pc.isExited = true)) = true := by
    decide +kernel
  obtain ⟨s, hs, hall⟩ := (Option.any_eq_true _ _).mp hrun
  have hreach : Reachable Initial (Step 2) s := ⟨_, _, blank_initial, run_of_exec hs⟩
  refine ⟨s, hreach, by simpa using hall, ?_⟩
  rw [(primes_pipeline (by decide) (by decide) hreach).2.2 (by simpa using hall)]
  decide +kernel

end Xv6.Primes
