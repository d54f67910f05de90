import Xv6.ConsoleInput
import Xv6.RingBuffers

/-!
# The line discipline of the console

The buffer holds the committed bytes that nobody has read yet, and behind them the line that is
being typed. Editing changes only the latter. What the readers take is the committed bytes in
order.
-/

namespace Xv6.Console
open TransitionSystems SleepWakeupMonitors KillableMonitors MonitorAssertions Function

variable {P : Type} {sh sh' : Shared P} {q ed : List UInt8}

/-- The buffer holds the committed bytes `q` that are not yet read, then the line `ed`. -/
structure Buffered (sh : Shared P) (q ed : List UInt8) : Prop where
  ring : RingBuffers.Holds (2 ^ 32) sh.cons.buf sh.cons.r.toNat sh.cons.e.toNat (q ++ ed)
  w_eq : sh.cons.w.toNat = (sh.cons.r.toNat + q.length) % 2 ^ 32
  committed : sh.taken ++ q = sh.committed
  received : sh.received = sh.taken.filter (· ≠ ctrl 'D')

theorem inputBufSize_dvd : inputBufSize ∣ 2 ^ 32 := by decide

theorem inputBufSize_lt : inputBufSize < 2 ^ 32 := by decide

namespace Buffered

theorem length_le (h : Buffered sh q ed) : q.length + ed.length ≤ inputBufSize := by
  have hle := h.ring.length_le
  rwa [List.length_append] at hle

theorem e_eq (h : Buffered sh q ed) :
    sh.cons.e.toNat = (sh.cons.r.toNat + (q.length + ed.length)) % 2 ^ 32 := by
  have he := h.ring.write_eq
  rwa [List.length_append] at he

theorem e_sub_r (h : Buffered sh q ed) : (sh.cons.e - sh.cons.r).toNat = q.length + ed.length := by
  rw [UInt32.toNat_sub, Nat.add_comm, h.ring.sub_mod inputBufSize_lt, List.length_append]

theorem w_sub_r (h : Buffered sh q ed) : (sh.cons.w - sh.cons.r).toNat = q.length := by
  have hle := h.length_le
  have hr := sh.cons.r.toNat_lt
  have hsize := inputBufSize_lt
  rw [UInt32.toNat_sub, h.w_eq, Nat.add_mod_mod, show 2 ^ 32 - sh.cons.r.toNat +
    (sh.cons.r.toNat + q.length) = q.length + 2 ^ 32 by omega, Nat.add_mod_right,
    Nat.mod_eq_of_lt (by omega)]

theorem e_sub_w (h : Buffered sh q ed) : (sh.cons.e - sh.cons.w).toNat = ed.length := by
  have hle := h.length_le
  have hsize := inputBufSize_lt
  rw [UInt32.toNat_sub, h.w_eq, h.e_eq]
  omega

theorem r_eq_w_iff (h : Buffered sh q ed) : sh.cons.r = sh.cons.w ↔ q = [] := by
  have hle := h.length_le
  have hr := sh.cons.r.toNat_lt
  have hsize := inputBufSize_lt
  rw [← UInt32.toNat_inj, h.w_eq, ← List.length_eq_zero_iff]
  omega

theorem e_eq_w_iff (h : Buffered sh q ed) : sh.cons.e = sh.cons.w ↔ ed = [] := by
  have hle := h.length_le
  have hr := sh.cons.r.toNat_lt
  have hsize := inputBufSize_lt
  rw [← UInt32.toNat_inj, h.w_eq, h.e_eq, ← List.length_eq_zero_iff]
  omega

theorem room_iff (h : Buffered sh q ed) :
    sh.cons.e - sh.cons.r < UInt32.ofNat inputBufSize ↔ q.length + ed.length < inputBufSize := by
  rw [UInt32.lt_iff_toNat_lt, h.e_sub_r]
  rfl

theorem full_iff (h : Buffered sh q ed) :
    sh.cons.e - sh.cons.r = UInt32.ofNat inputBufSize ↔ q.length + ed.length = inputBufSize := by
  rw [← UInt32.toNat_inj, h.e_sub_r]
  rfl

theorem byteAt_r {c : UInt8} (h : Buffered sh (c :: q) ed) : sh.cons.byteAt sh.cons.r = c :=
  RingBuffers.Holds.head (q := q ++ ed) h.ring

theorem take {c : UInt8} (h : Buffered sh (c :: q) ed) :
    Buffered { sh with
      cons := { sh.cons with r := sh.cons.r + 1 }
      taken := sh.taken ++ [c]
      received := sh.received ++ [c].filter (· ≠ ctrl 'D') } q ed where
  ring := by
    have ht := RingBuffers.Holds.take (q := q ++ ed) h.ring inputBufSize_dvd
    simpa [UInt32.toNat_add] using ht
  w_eq := by
    have hw := h.w_eq
    simp only [List.length_cons, UInt32.toNat_add, UInt32.toNat_one] at hw ⊢
    omega
  committed := by
    rw [← h.committed]
    simp
  received := by
    rw [h.received]
    simp

theorem erase {c : UInt8} (h : Buffered sh q (ed ++ [c])) :
    Buffered { sh with cons := { sh.cons with e := sh.cons.e - 1 } } q ed where
  ring := by
    have hring := h.ring
    rw [← List.append_assoc] at hring
    have hu := hring.unput
    have he := h.e_eq
    have hle := h.length_le
    have hr := sh.cons.r.toNat_lt
    have hsize := inputBufSize_lt
    have heq : (sh.cons.r.toNat + (q ++ ed).length) % 2 ^ 32 = (sh.cons.e - 1).toNat := by
      rw [UInt32.toNat_sub, he]
      simp only [List.length_append, List.length_singleton, UInt32.toNat_one]
      omega
    rwa [heq] at hu
  w_eq := h.w_eq
  committed := h.committed
  received := h.received

theorem put (h : Buffered sh q ed) (hroom : q.length + ed.length < inputBufSize) (c : UInt8) :
    Buffered { sh with cons := sh.cons.put c } q (ed ++ [c]) where
  ring := by
    have hp := h.ring.put inputBufSize_dvd (by rwa [List.length_append]) c
    rw [List.append_assoc] at hp
    simpa [Cons.put, UInt32.toNat_add] using hp
  w_eq := h.w_eq
  committed := h.committed
  received := h.received

theorem line_eq (h : Buffered sh q ed) :
    ((List.range (sh.cons.e - sh.cons.w).toNat).map fun i =>
      sh.cons.byteAt (sh.cons.w + UInt32.ofNat i)) = ed := by
  rw [h.e_sub_w]
  refine List.ext_get (by simp) fun i hi hi' => ?_
  have hcell := h.ring.cell_append inputBufSize_dvd h.w_eq hi'
  have hle := h.length_le
  have hsize := inputBufSize_lt
  rw [← hcell]
  simp only [List.get_eq_getElem, List.getElem_map, List.getElem_range, Cons.byteAt,
    UInt32.toNat_add, UInt32.toNat_ofNat']
  rw [Nat.mod_eq_of_lt (a := i) (by omega)]

theorem commit (h : Buffered sh q ed) :
    Buffered { sh with
      cons := { sh.cons with w := sh.cons.e }
      committed := sh.committed ++ ed } (q ++ ed) [] where
  ring := by simpa using h.ring
  w_eq := by simpa using h.e_eq
  committed := by rw [← h.committed, List.append_assoc]
  received := h.received

theorem congr (h : Buffered sh q ed) (hcons : sh'.cons = sh.cons) (htaken : sh'.taken = sh.taken)
    (hcommitted : sh'.committed = sh.committed) (hreceived : sh'.received = sh.received) :
    Buffered sh' q ed :=
  ⟨by rw [hcons]; exact h.ring, by rw [hcons]; exact h.w_eq,
    by rw [htaken, hcommitted]; exact h.committed, by rw [hreceived, htaken]; exact h.received⟩

end Buffered

def CallOk (killed : Bool) (line : List UInt8) : Control → Prop
  | .read dst target n | .readSleep dst target n =>
    (∀ i < n.toNat, dst i = true) ∧ 0 ≤ n ∧ n + line.length = target ∧ 0 < target ∧
      newline ∉ line ∧ ctrl 'D' ∉ line
  | .didRead r =>
    (r = -1 ∧ killed = true ∨ r = line.length) ∧ newline ∉ line.dropLast ∧ ctrl 'D' ∉ line
  | _ => True

theorem CallOk.mono {killed killed' : Bool} {line : List UInt8} {l : Control}
    (h : CallOk killed line l) (hk : killed = true → killed' = true) : CallOk killed' line l := by
  cases l with
  | didRead r => exact ⟨h.1.imp_left fun hr => ⟨hr.1, hk hr.2⟩, h.2⟩
  | _ => exact h

def copied (sh sh' : Shared P) : List UInt8 := sh'.received.drop sh.received.length

theorem copied_self (sh : Shared P) : copied sh sh = [] := List.drop_length

structure Kept (sh : Shared P) (p : P) (line : List UInt8) (l' : Control) (sh' : Shared P) :
    Prop where
  buffered : ∃ q ed, Buffered sh' q ed
  killed : sh'.killed = sh.killed
  call : CallOk (sh.killed p) (line ++ copied sh sh') l'
  committed : sh.committed <+: sh'.committed
  taken : sh.taken <+: sh'.taken

variable {p : P} {l l' : Control} {line : List UInt8}

theorem Kept.same (h : Buffered sh q ed) (hc : CallOk (sh.killed p) line l') :
    Kept sh p line l' sh :=
  ⟨⟨q, ed, h⟩, rfl, by rwa [copied_self, List.append_nil], List.prefix_rfl, List.prefix_rfl⟩

theorem readRound_kept {dst : Target} {target n : ℤ} (h : Buffered sh q ed) (hn : 0 < n)
    (hne : sh.cons.r ≠ sh.cons.w) (hc : CallOk (sh.killed p) line (.read dst target n)) :
    MoveAll (Kept sh p line) sh (readRound dst target n sh) := by
  obtain ⟨hdst, -, hlen, htarget, hnl, hd⟩ := hc
  have hdrop : newline ∉ line.dropLast := fun hmem => hnl (List.dropLast_subset _ hmem)
  obtain ⟨c, q, rfl⟩ := List.exists_cons_of_ne_nil (mt h.r_eq_w_iff.mpr hne)
  have htake := h.take
  simp only [readRound, h.byteAt_r]
  split_ifs with hcd hlt h0 hcn
  · refine Kept.same h ⟨.inr ?_, hdrop, hd⟩
    omega
  · refine ⟨⟨q, ed, htake.congr rfl rfl rfl ?_⟩, rfl, ⟨.inr ?_, ?_, ?_⟩, List.prefix_rfl,
      List.prefix_append _ _⟩
    · simp [hcd]
    · simp [copied]
      omega
    · simpa [copied] using hdrop
    · simpa [copied] using hd
  · exact absurd (hdst 0 (by omega)) (by simp [h0])
  · refine ⟨⟨q, ed, htake.congr rfl rfl rfl ?_⟩, rfl, ⟨.inr ?_, ?_, ?_⟩, List.prefix_rfl,
      List.prefix_append _ _⟩
    · simp [hcd]
    · simp [copied]
      omega
    · simpa [copied] using hnl
    · simpa [copied, hd] using Ne.symm hcd
  · refine ⟨⟨q, ed, htake.congr rfl rfl rfl ?_⟩, rfl, ⟨?_, ?_, ?_, htarget, ?_, ?_⟩,
      List.prefix_rfl, List.prefix_append _ _⟩
    · simp [hcd]
    · intro i hi
      exact hdst (i + 1) (by omega)
    · omega
    · simp [copied]
      omega
    · simpa [copied, hnl] using Ne.symm hcn
    · simpa [copied, hd] using Ne.symm hcd

theorem store_kept (h : Buffered sh q ed) (hroom : q.length + ed.length < inputBufSize)
    (c : UInt8) :
    MoveAll (Kept sh p line) sh (store c sh) := by
  simp only [store]
  generalize (if c = 13 then newline else c) = c
  have hput := h.put hroom c
  split_ifs with hcommit
  · have hcom := hput.commit
    rw [← hput.line_eq] at hcom
    exact ⟨⟨_, _, hcom.congr rfl rfl rfl rfl⟩, rfl, trivial, List.prefix_append _ _,
      List.prefix_rfl⟩
  · exact ⟨⟨_, _, hput⟩, rfl, trivial, List.prefix_rfl, List.prefix_rfl⟩

theorem erase_kept (h : Buffered sh q ed) (hne : sh.cons.e ≠ sh.cons.w)
    (hl : CallOk (sh.killed p) line l') :
    Kept sh p line l' { sh with cons := { sh.cons with e := sh.cons.e - 1 } } := by
  obtain ⟨ed, c, rfl⟩ := (List.eq_nil_or_concat' ed).resolve_left (mt h.e_eq_w_iff.mpr hne)
  refine ⟨⟨q, ed, h.erase⟩, rfl, ?_, List.prefix_rfl, List.prefix_rfl⟩
  simpa [copied] using hl

/-- Every step with the lock held keeps the ring and the account of the call. -/
theorem move_kept (h : Buffered sh q ed) (hc : CallOk (sh.killed p) line l) :
    MoveAll (Kept sh p line) sh (move p l sh) := by
  cases l with
  | read dst target n =>
    have hdrop : newline ∉ line.dropLast := fun hmem => hc.2.2.2.2.1 (List.dropLast_subset _ hmem)
    simp only [move]
    split_ifs with hn hempty hkilled
    · exact Kept.same h ⟨.inl ⟨rfl, hkilled⟩, hdrop, hc.2.2.2.2.2⟩
    · exact Kept.same h hc
    · exact readRound_kept h hn hempty hc
    · obtain ⟨-, hn0, hlen, -, -, hd⟩ := hc
      exact Kept.same h ⟨.inr (by omega), hdrop, hd⟩
  | readSleep dst target n => exact Kept.same h hc
  | intr c =>
    simp only [move]
    split_ifs with hp hu hh he hroom
    · exact Kept.same h trivial
    · exact Kept.same h trivial
    · exact Kept.same h trivial
    · exact erase_kept h he trivial
    · exact store_kept h (h.room_iff.mp hroom.2) c
    · exact Kept.same h trivial
  | killLine =>
    simp only [move]
    split_ifs with he
    · exact erase_kept h he.1 trivial
    · exact Kept.same h trivial
  | intrDone => exact Kept.same h trivial
  | idle => exact Kept.same h trivial
  | didRead r => exact Kept.same h hc

/-- What `consoleread` makes of the byte at `r`: at a newline or a `^D` the call ends with what
it has, and only a `^D` with nothing before it gives 0. -/
structure Reports (sh : Shared P) (line : List UInt8) (l' : Control) (sh' : Shared P) : Prop where
  stops : sh.cons.r ≠ sh.cons.w →
    sh.cons.byteAt sh.cons.r = newline ∨ sh.cons.byteAt sh.cons.r = ctrl 'D' →
    l' = .didRead (line ++ copied sh sh').length
  zero : l' = .didRead 0 →
    sh.cons.r ≠ sh.cons.w ∧ sh.cons.byteAt sh.cons.r = ctrl 'D' ∧ line = []

theorem read_reports {dst : Target} {target n : ℤ}
    (hc : CallOk (sh.killed p) line (.read dst target n)) :
    MoveAll (Reports sh line) sh (move p (.read dst target n) sh) := by
  obtain ⟨hdst, hn0, hlen, htarget, -, -⟩ := hc
  simp only [move]
  split_ifs with hn hempty hkilled
  · exact ⟨fun h => absurd hempty h, nofun⟩
  · exact ⟨fun h => absurd hempty h, nofun⟩
  · simp only [readRound]
    split_ifs with hcd hlt h0 hcn
    · refine ⟨fun _ _ => ?_, fun hr => ?_⟩
      · rw [copied_self, List.append_nil, show target - n = line.length by omega]
      · have h0 := Control.didRead.inj hr
        omega
    · refine ⟨fun _ _ => ?_, fun _ => ⟨hempty, hcd, ?_⟩⟩
      · simp [copied]
        omega
      · exact List.length_eq_zero_iff.mp (by omega)
    · exact absurd (hdst 0 (by omega)) (by simp [h0])
    · refine ⟨fun _ _ => ?_, fun hr => ?_⟩
      · simp [copied]
        omega
      · have h0 := Control.didRead.inj hr
        omega
    · exact ⟨fun _ hend => absurd hend (by simp [hcd, hcn]), nofun⟩
  · refine ⟨fun _ _ => ?_, fun hr => ?_⟩
    · rw [copied_self, List.append_nil, show target - n = line.length by omega]
    · have h0 := Control.didRead.inj hr
      omega

theorem move_result {r : ℤ} (hl : ∀ dst target n, l ≠ .read dst target n) :
    MoveAll (fun l' _ => l' = .didRead r → l = .didRead r) sh (move p l sh) := by
  cases l with
  | read dst target n => exact absurd rfl (hl dst target n)
  | intr c =>
    simp only [move, store]
    split_ifs <;> nofun
  | killLine =>
    simp only [move]
    split_ifs <;> nofun
  | readSleep dst target n => nofun
  | intrDone => nofun
  | idle => exact id
  | didRead r => exact id

/-- The characters without a case of their own in `consoleintr`. -/
def Ordinary (c : UInt8) : Prop :=
  c ≠ 0 ∧ c ≠ ctrl 'P' ∧ c ≠ ctrl 'U' ∧ c ≠ ctrl 'H' ∧ c ≠ 0x7f

def StoredOrFull (c : UInt8) (cons cons' : Cons) : Prop :=
  cons'.e = cons.e + 1 ∧ cons'.byteAt cons.e = (if c = 13 then newline else c) ∨
    cons.e - cons.r = UInt32.ofNat inputBufSize ∧ cons' = cons

theorem Cons.byteAt_put (cons : Cons) (c : UInt8) : (cons.put c).byteAt cons.e = c :=
  update_self _ _ _

theorem intr_stored {c : UInt8} (h : Buffered sh q ed) (hc : Ordinary c) :
    MoveAll (fun _ sh' => StoredOrFull c sh.cons sh'.cons) sh (move p (.intr c) sh) := by
  obtain ⟨h0, hP, hU, hH, hdel⟩ := hc
  simp only [move, hP, hU, hH, hdel, h0, ne_eq, not_false_eq_true, true_and, or_self, if_false]
  split_ifs with hroom
  · simp only [store, StoredOrFull]
    generalize (if c = 13 then newline else c) = c
    split_ifs <;> exact .inl ⟨rfl, sh.cons.byteAt_put c⟩
  · refine .inr ⟨h.full_iff.mpr ?_, rfl⟩
    rw [h.room_iff] at hroom
    have hle := h.length_le
    omega

variable {n : ℕ}

structure Logged (n : ℕ) where
  users : ConsoleUsers n
  line : Fin n → List UInt8

def observe (s : ConsoleUsers n) (e : KEvent (Fin n) Choice) (t : ConsoleUsers n)
    (line : Fin n → List UInt8) : Fin n → List UInt8 :=
  match e with
  | .step (.run p (.read _ _)) => update line p []
  | .step (.move p) => update line p (line p ++ copied s.shared t.shared)
  | _ => line

/-- Calls of `consoleread` ask for something, and their destination is writable. -/
def Allowed : KEvent (Fin n) Choice → Bool
  | .step (.run _ (.read dst k)) => 0 < k && (List.range k.toNat).all dst
  | _ => true

def Logged.next (s : Logged n) (e : KEvent (Fin n) Choice) : Option (Logged n) :=
  (KillableMonitors.next (monitor n) flags s.users e).map fun t => ⟨t, observe s.users e t s.line⟩

def Logged.Step (s : Logged n) (e : KEvent (Fin n) Choice) (t : Logged n) : Prop :=
  s.next e = some t ∧ Allowed e = true

def Logged.Start (s : Logged n) : Prop := Initial s.users ∧ ∀ p, s.line p = []

/-- The invariant: the buffer holds what is committed and the line, and every call is fine. -/
structure Logged.Inv (s : Logged n) : Prop where
  buffered : ∃ q ed, Buffered s.users.shared q ed
  call : ∀ p, CallOk (s.users.shared.killed p) (s.line p) (s.users.control p)

def Cons.pending (cons : Cons) : List UInt8 :=
  (List.range (cons.w - cons.r).toNat).map fun i => cons.byteAt (cons.r + UInt32.ofNat i)

/-- The indices are in order, the buffer holds the committed bytes that are not yet read, the
readers got the others without the `^D` marks, and every call that returned got a line or a
part of one. -/
structure Logged.Disciplined (s : Logged n) : Prop where
  w_le : s.users.shared.cons.w - s.users.shared.cons.r ≤
    s.users.shared.cons.e - s.users.shared.cons.r
  e_le : s.users.shared.cons.e - s.users.shared.cons.r ≤ UInt32.ofNat inputBufSize
  committed : s.users.shared.taken ++ s.users.shared.cons.pending = s.users.shared.committed
  received : s.users.shared.received = s.users.shared.taken.filter (· ≠ ctrl 'D')
  calls : ∀ p r, s.users.control p = .didRead r →
    (r = -1 ∧ s.users.shared.killed p = true ∨ r = (s.line p).length) ∧
      newline ∉ (s.line p).dropLast ∧ ctrl 'D' ∉ s.line p

/-- What a step does with committed bytes, with the calls that end, and with characters. -/
structure Logged.StepOk (s : Logged n) (e : KEvent (Fin n) Choice) (t : Logged n) : Prop where
  committed : s.users.shared.committed <+: t.users.shared.committed
  taken : s.users.shared.taken <+: t.users.shared.taken
  stops : ∀ p dst target k, e = .step (.move p) → s.users.phase p = .inside (.read dst target k) →
    s.users.shared.cons.r ≠ s.users.shared.cons.w →
    s.users.shared.cons.byteAt s.users.shared.cons.r = newline ∨
      s.users.shared.cons.byteAt s.users.shared.cons.r = ctrl 'D' →
    t.users.control p = .didRead (t.line p).length
  zero : ∀ p, s.users.control p ≠ .didRead 0 → t.users.control p = .didRead 0 →
    s.users.shared.cons.r ≠ s.users.shared.cons.w ∧
      s.users.shared.cons.byteAt s.users.shared.cons.r = ctrl 'D' ∧ s.line p = []
  stored : ∀ p c, e = .step (.move p) → s.users.phase p = .inside (.intr c) → Ordinary c →
    StoredOrFull c s.users.shared.cons t.users.shared.cons

variable {s t : Logged n} {e : KEvent (Fin n) Choice}

/-- Where a call of `consoleread` or `consoleintr` begins. -/
def Choice.start : Choice → Control
  | .read dst n => .read dst n n
  | .intr c => .intr c

theorem run_starts {k : Choice} (h : run k l sh = some (l', sh')) : l' = k.start ∧ sh' = sh := by
  cases l <;> cases k <;> cases h <;> exact ⟨rfl, rfl⟩

theorem start_callOk {p : Fin n} {k : Choice} {killed : Bool} {u : ConsoleUsers n}
    (h : Allowed (.step (.run p k) : KEvent (Fin n) Choice) = true) :
    CallOk killed (observe s.users (.step (.run p k)) u s.line p) k.start := by
  cases k with
  | intr c => trivial
  | read dst k =>
    simp only [Allowed, Bool.and_eq_true, decide_eq_true_eq, List.all_eq_true, List.mem_range] at h
    simp only [observe, update_self]
    exact ⟨h.2, h.1.le, by simp, h.1, by simp, by simp⟩

theorem Logged.Inv.still (h : s.Inv) {killed : Fin n → Bool} (hmove : ∀ p, e ≠ .step (.move p))
    (hsh : t.users.shared = { s.users.shared with killed := killed })
    (hcall : ∀ p, CallOk (killed p) (t.line p) (t.users.control p))
    (hctl : ∀ p, t.users.control p = .didRead 0 → s.users.control p = .didRead 0) :
    t.Inv ∧ s.StepOk e t := by
  obtain ⟨q, ed, hb⟩ := h.buffered
  refine ⟨⟨⟨q, ed, ?_⟩, fun p => ?_⟩, ?_, ?_, ?_, ?_, ?_⟩
  · rw [hsh]
    exact hb.congr rfl rfl rfl rfl
  · rw [hsh]
    exact hcall p
  · exact hsh ▸ List.prefix_rfl
  · exact hsh ▸ List.prefix_rfl
  · exact fun p _ _ _ he => absurd he (hmove p)
  · exact fun p hs ht => absurd (hctl p ht) hs
  · exact fun p _ he => absurd he (hmove p)

theorem Logged.Inv.move (h : s.Inv) {p : Fin n} {l l' : Control} {u : ConsoleUsers n}
    (hat : s.users.phase p = .inside l)
    (hout : ∀ Q, MoveAll Q s.users.shared (move p l s.users.shared) → Q l' u.shared)
    (hctl : u.control = update s.users.control p l') :
    Logged.Inv ⟨u, observe s.users (.step (.move p)) u s.line⟩ ∧
      s.StepOk (.step (.move p)) ⟨u, observe s.users (.step (.move p)) u s.line⟩ := by
  obtain ⟨q, ed, hb⟩ := h.buffered
  have hl : s.users.control p = l := control_eq hat
  have hcall := h.call p
  rw [hl] at hcall
  have hkept := hout _ (move_kept hb hcall)
  refine ⟨⟨hkept.buffered, fun x => ?_⟩, hkept.committed, hkept.taken, ?_, fun x hs ht => ?_, ?_⟩
  · by_cases hx : x = p
    · subst hx
      simpa [observe, hctl, hkept.killed] using hkept.call
    · simpa [observe, hctl, hkept.killed, hx] using h.call x
  · rintro _ dst target k ⟨⟩ hat' hne hend
    cases hat.symm.trans hat'
    simpa [observe, hctl] using (hout _ (read_reports hcall)).stops hne hend
  · by_cases hx : x = p
    · subst hx
      simp only [hctl, update_self] at ht
      subst ht
      by_cases hread : ∃ dst target k, l = .read dst target k
      · obtain ⟨dst, target, k, rfl⟩ := hread
        exact (hout _ (read_reports hcall)).zero rfl
      · have hres := hout _ (move_result (r := 0) fun dst target k hl => hread ⟨dst, target, k, hl⟩)
        exact absurd (hl.trans (hres rfl)) hs
    · simp only [hctl, update_of_ne hx] at ht
      exact absurd ht hs
  · rintro _ c ⟨⟩ hat' hc
    cases hat.symm.trans hat'
    exact hout _ (intr_stored hb hc)

/-- Every step of a run keeps the invariant and is as `StepOk` says. -/
theorem Logged.Inv.step (h : s.Inv) (hs : s.Step e t) : t.Inv ∧ s.StepOk e t := by
  obtain ⟨hnext, hallowed⟩ := hs
  obtain ⟨u, hu, rfl⟩ := Option.map_eq_some_iff.mp hnext
  rcases next_cases hu with ⟨e, rfl, hv⟩ | ⟨q, rfl, -, rfl⟩
  · cases hv.effect with
    | none e hmove hrun hsh hctl =>
      have hline : observe s.users (.step e) u s.line = s.line := by
        unfold observe
        split
        · rename_i heq
          exact absurd (KEvent.step.inj heq) (hrun _ _)
        · rename_i heq
          exact absurd (KEvent.step.inj heq) (hmove _)
        · rfl
      exact h.still (fun p he => hmove p (KEvent.step.inj he)) hsh
        (fun p => by simpa only [hctl, hline] using h.call p) fun p hp => by rwa [← hctl]
    | enter p l l' hat hinto hsh hctl =>
      have hl : s.users.control p = l' := by
        rw [control_eq hat]
        cases l <;> cases hinto <;> rfl
      rw [← hl, update_eq_self] at hctl
      exact h.still (by simp) hsh (fun p => by simpa only [hctl, observe] using h.call p)
        fun p hp => by rwa [← hctl]
    | move p l l' _ hat hmv hsh hctl =>
      refine h.move hat (fun Q hQ => ?_) hctl
      rw [hsh]
      rcases hmv with hmv | hmv | ⟨c, hmv⟩ <;>
      · simp only [monitor] at hmv
        rwa [hmv] at hQ
    | sleep p l l' c hat hmv hsh hctl =>
      refine h.move hat (fun Q hQ => ?_) hctl
      rw [hsh]
      simp only [monitor] at hmv
      rwa [hmv] at hQ
    | panic p l x hat hmv => exact x.elim
    | run p k l l' _ hat hrun hsh hctl =>
      obtain ⟨rfl, rfl⟩ := run_starts hrun
      refine h.still (by simp) hsh (fun x => ?_) fun x hx => ?_
      · by_cases hxp : x = p
        · subst hxp
          simpa [hctl] using start_callOk hallowed
        · have hline : observe s.users (.step (.run p k)) u s.line x = s.line x := by
            cases k with
            | read dst k => exact update_of_ne hxp _ _
            | intr c => rfl
          simpa [hctl, hline, hxp] using h.call x
      · by_cases hxp : x = p
        · subst hxp
          rw [hctl, update_self] at hx
          cases k <;> cases hx
        · rwa [hctl, update_of_ne hxp] at hx
  · have hctl := killed_control flags s.users q
    refine h.still (by simp) rfl (fun x => ?_) fun x hx => by rwa [← hctl]
    rw [hctl]
    refine (h.call x).mono fun hk => ?_
    by_cases hx : x = q
    · subst hx
      exact update_self _ _ _
    · rwa [update_of_ne hx]

theorem Buffered.pending_eq (h : Buffered sh q ed) : sh.cons.pending = q := by
  unfold Cons.pending
  rw [h.w_sub_r]
  refine List.ext_get (by simp) fun i hi hi' => ?_
  have hcell := h.ring.cell i (by rw [List.length_append]; omega)
  have hle := h.length_le
  have hsize := inputBufSize_lt
  simp only [List.get_eq_getElem, List.getElem_append_left hi'] at hcell
  simp only [List.get_eq_getElem, List.getElem_map, List.getElem_range, Cons.byteAt,
    UInt32.toNat_add, UInt32.toNat_ofNat', ← hcell]
  rw [Nat.mod_eq_of_lt (a := i) (by omega), RingBuffers.ofNat_mod inputBufSize_dvd]

theorem Logged.Inv.disciplined (h : s.Inv) : s.Disciplined := by
  obtain ⟨q, ed, hb⟩ := h.buffered
  refine ⟨?_, ?_, ?_, hb.received, fun p r hr => ?_⟩
  · rw [UInt32.le_iff_toNat_le, hb.w_sub_r, hb.e_sub_r]
    omega
  · rw [UInt32.le_iff_toNat_le, hb.e_sub_r]
    exact hb.length_le
  · rw [hb.pending_eq]
    exact hb.committed
  · have hcall := h.call p
    rwa [hr] at hcall

theorem Logged.Start.inv (h : s.Start) : s.Inv := by
  obtain ⟨hinit, hline⟩ := h
  refine ⟨⟨[], [], ?_, ?_, ?_, ?_⟩, fun p => ?_⟩
  · rw [hinit.r, hinit.e]
    exact RingBuffers.Holds.nil (by decide)
  · rw [hinit.r, hinit.w]
    rfl
  · rw [hinit.taken, hinit.committed]
    rfl
  · rw [hinit.taken, hinit.received]
    rfl
  · rw [State.control, hinit.phase p]
    trivial

/-- In every reachable state the console is disciplined, and every step keeps what is
committed, ends calls where they have to end, and stores what is typed. -/
theorem console_line_discipline (s : Logged n) (h : Reachable Logged.Start Logged.Step s) :
    s.Disciplined ∧ ∀ e t, s.Step e t → s.StepOk e t := by
  have hinv : s.Inv := h.invariant (fun _ h₀ => h₀.inv) fun _ _ _ hs hstep => (hs.step hstep).1
  exact ⟨hinv.disciplined, fun e t hstep => (hinv.step hstep).2⟩

def freshConsole : Logged 2 where
  users := {
    shared := {
      cons := { buf := fun _ => 0, r := 0, w := 0, e := 0 }
      killed := fun _ => false
      committed := []
      taken := []
      received := [] }
    lock := none
    phase := fun _ => .outside .idle
    panicked := none }
  line := fun _ => []

/-- The interrupt that brings a character, and what its handler does if it wakes the reader. -/
def typed (c : UInt8) (wakes : Bool) : List (KEvent (Fin 2) Choice) :=
  [.step (.run 1 (.intr c)), .step (.acquire 1), .step (.move 1)] ++
    if wakes then [.step (.visit 1), .step (.visit 1), .step (.move 1)] else []

/-- The user types `a`, a carriage return and a `^D`; the reader reads twice. -/
def typeAndRead : List (KEvent (Fin 2) Choice) :=
  typed 97 false ++ typed 13 true ++ typed (ctrl 'D') true ++
    [.step (.run 0 (.read (fun _ => true) 10)), .step (.acquire 0), .step (.move 0),
      .step (.move 0), .step (.run 0 (.read (fun _ => true) 10)), .step (.acquire 0)]

def reading : Phase (Fin 2) Chan Control → Bool
  | .inside (.read _ _ _) => true
  | _ => false

theorem start_freshConsole : freshConsole.Start :=
  ⟨⟨rfl, rfl, rfl, rfl, rfl, rfl, rfl, fun _ => rfl, rfl⟩, fun _ => rfl⟩

/-- The first call got the line; the second one meets the `^D` and returns what it has. -/
theorem console_line_discipline_typed :
    ∃ s t : Logged 2, Reachable Logged.Start Logged.Step s ∧ s.Step (.step (.move 0)) t ∧
      s.users.shared.received = [97, newline] ∧
      s.users.shared.taken ++ s.users.shared.cons.pending = [97, newline, ctrl 'D'] ∧
      t.users.control 0 = .didRead (t.line 0).length := by
  have hrun : (exec (fun s e => if Allowed e then Logged.next s e else none) freshConsole
      typeAndRead).any (fun s => reading (s.users.phase 0) ∧ (s.next (.step (.move 0))).isSome ∧
        s.users.shared.received = [97, newline] ∧
        s.users.shared.committed = [97, newline, ctrl 'D'] ∧
        s.users.shared.cons.r ≠ s.users.shared.cons.w ∧
        s.users.shared.cons.byteAt s.users.shared.cons.r = ctrl 'D') = true := by decide +kernel
  obtain ⟨s, hs, hread, hsome, hreceived, hcommitted, hne, hmark⟩ := exists_of_any hrun
  obtain ⟨t, ht⟩ := Option.isSome_iff_exists.mp hsome
  have hreach : Reachable Logged.Start Logged.Step s :=
    ⟨_, _, start_freshConsole, run_of_exec_if (fun _ _ h => h) hs⟩
  have hstep : s.Step (.step (.move 0)) t := ⟨ht, rfl⟩
  obtain ⟨hdisciplined, hsteps⟩ := console_line_discipline s hreach
  refine ⟨s, t, hreach, hstep, hreceived, hdisciplined.committed.trans hcommitted, ?_⟩
  generalize hph : s.users.phase 0 = ph at hread
  match ph, hread with
  | .inside (.read dst target k), _ =>
    exact (hsteps _ _ hstep).stops 0 dst target k rfl hph hne (.inr hmark)

end Xv6.Console
