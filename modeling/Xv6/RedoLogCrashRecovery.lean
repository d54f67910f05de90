import Xv6.AtomicWriteSequences
import Xv6.LogStructure
import Mathlib.Tactic.Linarith

/-!
# Crash atomicity of the redo log

`commit()` and `recover_from_log()` of `log.c`, run on the contents `bread` returns and on the
disk itself. Every `bwrite` is recorded in issue order; a crash keeps the disk after some prefix
of the recorded writes and loses everything in memory. The buffer cache is taken as transparent:
`data b` is what `bread` returns for `b`.
-/

namespace Xv6.RedoLog
open LittleEndianBlocks AtomicWriteSequences

/-- What `log.c` works on: buffer contents, the disk, the log, and the writes issued. -/
structure LogState where
  data : ℕ → Block
  disk : ℕ → Block
  log : Log
  issued : List (ℕ × Block)

/-- A freshly booted kernel: an empty cache over the disk, with the log area that the
superblock names. -/
def boot (start size : ℕ) (disk : ℕ → Block) : LogState :=
  { data := disk, disk := disk, log := ⟨start, size, 0, false, []⟩, issued := [] }

def LogState.modify (s : LogState) (b : ℕ) (v : Block) : LogState :=
  { s with data := Function.update s.data b v }

/-- `bwrite`: the buffer's contents go to the disk as one atomic block write. -/
def LogState.bwrite (s : LogState) (b : ℕ) : LogState :=
  { s with
    disk := Function.update s.disk b (s.data b)
    issued := s.issued ++ [(b, s.data b)] }

/-- `log.lh.n = 0`. -/
def LogState.clear (s : LogState) : LogState := { s with log := { s.log with lh := [] } }

/-- The header's `int n`; a negative count runs no loop. -/
def headerCount (b : Block) : ℕ := if getWord b 0 < 2 ^ 31 then getWord b 0 else 0

/-- `struct logheader` read from a block: `block[0..n)`. -/
def decodeHeader (b : Block) : List ℕ := getWords b 4 (headerCount b)

/-- The stores of `write_head` into the header buffer; bytes past `block[n)` stay. -/
def encodeHeader (b : Block) (lh : List ℕ) : Block := putWords (putWord b 0 lh.length) 4 lh

def readHead (s : LogState) : LogState :=
  { s with log := { s.log with lh := decodeHeader (s.data s.log.start) } }

def writeHead (s : LogState) : LogState :=
  (s.modify s.log.start (encodeHeader (s.data s.log.start) s.log.lh)).bwrite s.log.start

/-- The loop of `install_trans` from index `tail`, over the blocks still to install. -/
def installFrom (tail : ℕ) : List ℕ → LogState → LogState
  | [], s => s
  | b :: bs, s =>
    installFrom (tail + 1) bs ((s.modify b (s.data (s.log.start + tail + 1))).bwrite b)

def installTrans (s : LogState) : LogState := installFrom 0 s.log.lh s

/-- The loop of `write_log` from index `tail`, over the blocks still to copy. -/
def writeLogFrom (tail : ℕ) : List ℕ → LogState → LogState
  | [], s => s
  | b :: bs, s => writeLogFrom (tail + 1) bs
      ((s.modify (s.log.start + tail + 1) (s.data b)).bwrite (s.log.start + tail + 1))

def writeLog (s : LogState) : LogState := writeLogFrom 0 s.log.lh s

def commit (s : LogState) : LogState :=
  if s.log.lh.length > 0 then writeHead (installTrans (writeHead (writeLog s))).clear else s

def recoverFromLog (s : LogState) : LogState := writeHead (installTrans (readHead s)).clear

/-- One update inside an operation: `bread`, change the data, `log_write`, `brelse`. -/
def update (s : LogState) (b : ℕ) (v : Block) : Except LogPanic LogState :=
  match s.log.logWrite b with
  | .error e => .error e
  | .ok (lg, _) => .ok { s.modify b v with log := lg }

def updates (s : LogState) : List (ℕ × Block) → Except LogPanic LogState
  | [] => .ok s
  | (b, v) :: us => match update s b v with
    | .error e => .error e
    | .ok s' => updates s' us

/-- One transaction up to the start of `commit()`: an operation begins, updates blocks
and ends as the last outstanding one; `none` if it would sleep or panic. -/
def transaction (start size : ℕ) (disk : ℕ → Block) (us : List (ℕ × Block)) :
    Option LogState :=
  match (boot start size disk).log.beginOp with
  | none => none
  | some lg => match updates { boot start size disk with log := lg } us with
    | .error _ => none
    | .ok s => match s.log.endOp with
      | .error _ => none
      | .ok (lg, _) => some { s with log := lg }

/-- The disk left by a crash after `k` of the writes a piece of kernel code issues. -/
def crashDisk (disk : ℕ → Block) (after : LogState) (k : ℕ) : ℕ → Block :=
  applyWrites disk (after.issued.take k)

/-- The disk after one recovery that crashes after `k` of its own writes. -/
def crashedRecovery (start size : ℕ) (disk : ℕ → Block) (k : ℕ) : ℕ → Block :=
  crashDisk disk (recoverFromLog (boot start size disk)) k

def recovered (start size : ℕ) (disk : ℕ → Block) : ℕ → Block :=
  (recoverFromLog (boot start size disk)).disk

def Home (start size b : ℕ) : Prop := b < start ∨ start + size ≤ b

def Clear (start : ℕ) (disk : ℕ → Block) : Prop := getWord (disk start) 0 = 0

theorem decodeHeader_encodeHeader (b : Block) {lh : List ℕ} (hlen : lh.length ≤ logSize)
    (hlh : ∀ x ∈ lh, x < 2 ^ 32) : decodeHeader (encodeHeader b lh) = lh := by
  have hlen' : lh.length ≤ 30 := hlen
  have hn : getWord (encodeHeader b lh) 0 = lh.length := by
    rw [encodeHeader, getWord_putWords_before _ _ _ (by omega),
      getWord_putWord_self b (by simp [bSize]) (by omega)]
  rw [decodeHeader, headerCount, hn, if_pos (by omega), encodeHeader]
  exact getWords_putWords _ _ _ (by simp only [bSize]; omega) hlh

theorem getWord_encodeHeader_nil (b : Block) : getWord (encodeHeader b []) 0 = 0 :=
  getWord_putWord_self b (by simp [bSize]) (by simp)

theorem decodeHeader_of_clear {start : ℕ} {disk : ℕ → Block} (h : Clear start disk) :
    decodeHeader (disk start) = [] := by
  unfold Clear at h
  simp [decodeHeader, headerCount, h, getWords]

/-- Change a buffer and write it through: the only way this code touches the disk. -/
def LogState.put (s : LogState) (w : ℕ × Block) : LogState := (s.modify w.1 w.2).bwrite w.1

def LogState.puts (s : LogState) (ws : List (ℕ × Block)) : LogState := ws.foldl LogState.put s

theorem writeHead_eq (s : LogState) : writeHead s =
    s.put (s.log.start, encodeHeader (s.data s.log.start) s.log.lh) := rfl

@[simp] theorem puts_nil (s : LogState) : s.puts [] = s := rfl

@[simp] theorem puts_cons (s : LogState) (w : ℕ × Block) (ws : List (ℕ × Block)) :
    s.puts (w :: ws) = (s.put w).puts ws := rfl

@[simp] theorem put_data (s : LogState) (w : ℕ × Block) :
    (s.put w).data = Function.update s.data w.1 w.2 := rfl

@[simp] theorem put_disk (s : LogState) (w : ℕ × Block) :
    (s.put w).disk = Function.update s.disk w.1 w.2 := by
  simp [LogState.put, LogState.bwrite, LogState.modify]

@[simp] theorem put_issued (s : LogState) (w : ℕ × Block) :
    (s.put w).issued = s.issued ++ [w] := by
  simp [LogState.put, LogState.bwrite, LogState.modify]

@[simp] theorem put_log (s : LogState) (w : ℕ × Block) : (s.put w).log = s.log := rfl

@[simp] theorem puts_log (s : LogState) (ws : List (ℕ × Block)) : (s.puts ws).log = s.log := by
  induction ws generalizing s with
  | nil => rfl
  | cons w ws ih => rw [puts_cons, ih, put_log]

@[simp] theorem puts_data (s : LogState) (ws : List (ℕ × Block)) :
    (s.puts ws).data = applyWrites s.data ws := by
  induction ws generalizing s with
  | nil => rfl
  | cons w ws ih => rw [puts_cons, ih, put_data, applyWrites_cons]

@[simp] theorem puts_disk (s : LogState) (ws : List (ℕ × Block)) :
    (s.puts ws).disk = applyWrites s.disk ws := by
  induction ws generalizing s with
  | nil => rfl
  | cons w ws ih => rw [puts_cons, ih, put_disk, applyWrites_cons]

@[simp] theorem puts_issued (s : LogState) (ws : List (ℕ × Block)) :
    (s.puts ws).issued = s.issued ++ ws := by
  induction ws generalizing s with
  | nil => simp
  | cons w ws ih => rw [puts_cons, ih, put_issued, List.append_assoc, List.singleton_append]

/-- The writes `install_trans` issues, read off the contents before it runs. -/
def installWrites (start : ℕ) (data : ℕ → Block) (tail : ℕ) (bs : List ℕ) : List (ℕ × Block) :=
  (bs.zipIdx tail).map fun p => (p.1, data (start + p.2 + 1))

/-- The writes `write_log` issues, read off the contents before it runs. -/
def logWrites (start : ℕ) (data : ℕ → Block) (tail : ℕ) (bs : List ℕ) : List (ℕ × Block) :=
  (bs.zipIdx tail).map fun p => (start + p.2 + 1, data p.1)

section Writes

variable {bs : List ℕ} {start tail : ℕ} {data data' : ℕ → Block}

theorem mem_slots {p : ℕ × ℕ} :
    p ∈ bs.zipIdx tail ↔ ∃ i, ∃ hi : i < bs.length, (bs[i], tail + i) = p := by
  simp only [List.mem_iff_getElem, List.length_zipIdx, List.getElem_zipIdx]

theorem installWrites_congr
    (h : ∀ i < bs.length, data (start + (tail + i) + 1) = data' (start + (tail + i) + 1)) :
    installWrites start data tail bs = installWrites start data' tail bs := by
  apply List.map_congr_left
  intro p hp
  obtain ⟨i, hi, rfl⟩ := mem_slots.mp hp
  rw [h i hi]

theorem logWrites_congr (h : ∀ b ∈ bs, data b = data' b) :
    logWrites start data tail bs = logWrites start data' tail bs := by
  apply List.map_congr_left
  intro p hp
  obtain ⟨i, hi, rfl⟩ := mem_slots.mp hp
  rw [h _ (List.getElem_mem hi)]

theorem length_logWrites (start : ℕ) (data : ℕ → Block) (tail : ℕ) (bs : List ℕ) :
    (logWrites start data tail bs).length = bs.length := by
  rw [logWrites, List.length_map, List.length_zipIdx]

theorem mem_installWrites {w : ℕ × Block} (h : w ∈ installWrites start data tail bs) :
    ∃ i, ∃ hi : i < bs.length, w = (bs[i], data (start + (tail + i) + 1)) := by
  obtain ⟨p, hp, rfl⟩ := List.mem_map.mp h
  obtain ⟨i, hi, rfl⟩ := mem_slots.mp hp
  exact ⟨i, hi, rfl⟩

theorem map_fst_installWrites (start : ℕ) (data : ℕ → Block) (tail : ℕ) (bs : List ℕ) :
    (installWrites start data tail bs).map Prod.fst = bs := by
  rw [installWrites, List.map_map]
  exact List.zipIdx_map_fst tail bs

theorem mem_logWrites {w : ℕ × Block} (h : w ∈ logWrites start data tail bs) :
    ∃ i, ∃ hi : i < bs.length, w = (start + (tail + i) + 1, data bs[i]) := by
  obtain ⟨p, hp, rfl⟩ := List.mem_map.mp h
  obtain ⟨i, hi, rfl⟩ := mem_slots.mp hp
  exact ⟨i, hi, rfl⟩

theorem logWrites_slot (start : ℕ) (data : ℕ → Block) (tail : ℕ) {i : ℕ} (hi : i < bs.length) :
    (start + (tail + i) + 1, data bs[i]) ∈ logWrites start data tail bs :=
  List.mem_map.mpr ⟨_, mem_slots.mpr ⟨i, hi, rfl⟩, rfl⟩

end Writes

theorem installFrom_eq (s : LogState) (tail size : ℕ) (bs : List ℕ)
    (hroom : tail + bs.length < size) (hhome : ∀ b ∈ bs, Home s.log.start size b) :
    installFrom tail bs s = s.puts (installWrites s.log.start s.data tail bs) := by
  induction bs generalizing tail s with
  | nil => rfl
  | cons b bs ih =>
    have hb := hhome b (by simp)
    simp only [List.length_cons] at hroom
    rw [installFrom, installWrites, List.zipIdx_cons, List.map_cons, puts_cons]
    change installFrom (tail + 1) bs (s.put (b, s.data (s.log.start + tail + 1))) = _
    rw [ih _ _ (by omega) (fun c hc => by simpa using hhome c (by simp [hc]))]
    congr 1
    apply installWrites_congr
    intro i hi
    simp only [put_data, put_log]
    apply Function.update_of_ne
    unfold Home at hb
    omega

theorem writeLogFrom_eq (s : LogState) (tail size : ℕ) (bs : List ℕ)
    (hroom : tail + bs.length < size) (hhome : ∀ b ∈ bs, Home s.log.start size b) :
    writeLogFrom tail bs s = s.puts (logWrites s.log.start s.data tail bs) := by
  induction bs generalizing tail s with
  | nil => rfl
  | cons b bs ih =>
    simp only [List.length_cons] at hroom
    rw [writeLogFrom, logWrites, List.zipIdx_cons, List.map_cons, puts_cons]
    change writeLogFrom (tail + 1) bs (s.put (s.log.start + tail + 1, s.data b)) = _
    rw [ih _ _ (by omega) (fun c hc => by simpa using hhome c (by simp [hc]))]
    congr 1
    apply logWrites_congr
    intro c hc
    have := hhome c (by simp [hc])
    simp only [put_data]
    apply Function.update_of_ne
    unfold Home at this
    omega

/-- The log is clear and the home blocks are exactly `home`. -/
structure Settled (start size : ℕ) (home disk : ℕ → Block) : Prop where
  clear : Clear start disk
  agrees : ∀ b, Home start size b → disk b = home b

/-- The header names a committed transaction whose new contents `home` are in the log
slots; the blocks it names may or may not have been installed yet. -/
structure Pending (start size : ℕ) (lh : List ℕ) (home disk : ℕ → Block) : Prop where
  room : lh.length < size
  names : decodeHeader (disk start) = lh
  homes : ∀ b ∈ lh, Home start size b
  slots : ∀ i, ∀ hi : i < lh.length, disk (start + i + 1) = home lh[i]
  agrees : ∀ b, Home start size b → b ∉ lh → disk b = home b

variable {start size : ℕ} {home disk : ℕ → Block} {lh : List ℕ}

theorem Settled.clearWrite (h : Settled start size home disk) (hsize : 0 < size) (b : Block) :
    Settled start size home (Function.update disk start (encodeHeader b [])) := by
  refine ⟨?_, fun x hx => ?_⟩
  · simp [Clear, getWord_encodeHeader_nil]
  · rw [Function.update_of_ne, h.agrees x hx]
    unfold Home at hx
    omega

theorem Pending.applyWrites_take (h : Pending start size lh home disk) (k : ℕ) :
    Pending start size lh home
      (applyWrites disk ((installWrites start disk 0 lh).take k)) := by
  have hfst : ∀ w ∈ (installWrites start disk 0 lh).take k, w.1 ∈ lh := by
    intro w hw
    obtain ⟨i, hi, rfl⟩ := mem_installWrites (List.mem_of_mem_take hw)
    exact List.getElem_mem hi
  have hlog : ∀ i ≤ lh.length, applyWrites disk ((installWrites start disk 0 lh).take k)
      (start + i) = disk (start + i) := by
    intro i hi
    apply applyWrites_of_not_mem
    intro w hw heq
    have hw := h.homes _ (hfst w hw)
    have := h.room
    unfold Home at hw
    omega
  refine ⟨h.room, ?_, h.homes, fun i hi => ?_, fun b hb hbl => ?_⟩
  · have := hlog 0 (Nat.zero_le _)
    rw [Nat.add_zero] at this
    rw [this, h.names]
  · have := hlog (i + 1) hi
    rw [Nat.add_assoc, this, ← Nat.add_assoc, h.slots i hi]
  · have hne : ∀ w ∈ (installWrites start disk 0 lh).take k, w.1 ≠ b := by
      rintro w hw rfl
      exact hbl (hfst w hw)
    rw [applyWrites_of_not_mem _ _ hne, h.agrees b hb hbl]

theorem Pending.install_agrees (h : Pending start size lh home disk) {b : ℕ}
    (hb : Home start size b) :
    applyWrites disk (installWrites start disk 0 lh) b = home b := by
  by_cases hmem : b ∈ lh
  · apply applyWrites_eq_of_mem
    · rw [← map_fst_installWrites start disk 0 lh] at hmem
      simpa using hmem
    · intro w hw hwb
      obtain ⟨i, hi, rfl⟩ := mem_installWrites hw
      rw [Nat.zero_add, h.slots i hi, ← hwb]
  · have hw : ∀ w ∈ installWrites start disk 0 lh, w.1 ≠ b := by
      intro w hw heq
      obtain ⟨i, hi, rfl⟩ := mem_installWrites hw
      exact hmem (heq ▸ List.getElem_mem hi)
    rw [applyWrites_of_not_mem _ _ hw, h.agrees b hb hmem]

theorem Pending.install_clear (h : Pending start size lh home disk) (b : Block) :
    Settled start size home (Function.update
      (applyWrites disk (installWrites start disk 0 lh)) start (encodeHeader b [])) := by
  have hroom := h.room
  refine ⟨?_, fun x hx => ?_⟩
  · simp [Clear, getWord_encodeHeader_nil]
  · rw [Function.update_of_ne, h.install_agrees hx]
    unfold Home at hx
    omega

theorem recoverFromLog_boot (hroom : lh.length < size)
    (hnames : decodeHeader (disk start) = lh) (hhome : ∀ b ∈ lh, Home start size b) :
    ∃ b, (recoverFromLog (boot start size disk)).issued =
        installWrites start disk 0 lh ++ [(start, encodeHeader b [])] ∧
      recovered start size disk = Function.update
        (applyWrites disk (installWrites start disk 0 lh)) start (encodeHeader b []) := by
  have hinst : installTrans (readHead (boot start size disk)) =
      (readHead (boot start size disk)).puts (installWrites start disk 0 lh) := by
    have := installFrom_eq (readHead (boot start size disk)) 0 size lh (by omega) hhome
    rw [installTrans, show (readHead (boot start size disk)).log.lh = lh from hnames]
    exact this
  refine ⟨applyWrites disk (installWrites start disk 0 lh) start, ?_, ?_⟩
  · rw [recoverFromLog, hinst, writeHead_eq, put_issued]
    simp [LogState.clear, readHead, boot]
  · rw [recovered, recoverFromLog, hinst, writeHead_eq, put_disk]
    simp [LogState.clear, readHead, boot]

theorem Settled.recovery (h : Settled start size home disk) (hsize : 0 < size) :
    (∀ k, Settled start size home (crashedRecovery start size disk k)) ∧
      Settled start size home (recovered start size disk) := by
  obtain ⟨b, hissued, hdisk⟩ := recoverFromLog_boot hsize (decodeHeader_of_clear h.clear) (by simp)
  refine ⟨fun k => ?_, ?_⟩
  · rw [crashedRecovery, crashDisk, hissued]
    cases k with
    | zero => simpa using h
    | succ k => simpa [installWrites] using h.clearWrite hsize b
  · rw [hdisk]
    simpa [installWrites] using h.clearWrite hsize b

theorem Pending.applyWrites_take_clear (h : Pending start size lh home disk) (b : Block)
    (k : ℕ) :
    Pending start size lh home (applyWrites disk
        ((installWrites start disk 0 lh ++ [(start, encodeHeader b [])]).take k)) ∨
      Settled start size home (applyWrites disk
        ((installWrites start disk 0 lh ++ [(start, encodeHeader b [])]).take k)) := by
  by_cases hk : k ≤ (installWrites start disk 0 lh).length
  · rw [List.take_append_of_le_length hk]
    exact .inl (h.applyWrites_take k)
  · rw [List.take_of_length_le (by rw [List.length_append, List.length_singleton]; omega),
      applyWrites_append]
    exact .inr (h.install_clear b)

theorem Pending.recovery (h : Pending start size lh home disk) :
    (∀ k, Pending start size lh home (crashedRecovery start size disk k) ∨
        Settled start size home (crashedRecovery start size disk k)) ∧
      Settled start size home (recovered start size disk) := by
  obtain ⟨b, hissued, hdisk⟩ := recoverFromLog_boot h.room h.names h.homes
  refine ⟨fun k => ?_, hdisk ▸ h.install_clear b⟩
  rw [crashedRecovery, crashDisk, hissued]
  exact h.applyWrites_take_clear b k

theorem Settled.recoveries (h : Settled start size home disk) (hsize : 0 < size)
    (ks : List ℕ) :
    Settled start size home
      (recovered start size (ks.foldl (crashedRecovery start size) disk)) := by
  induction ks generalizing disk with
  | nil => exact (h.recovery hsize).2
  | cons k ks ih => exact ih ((h.recovery hsize).1 k)

theorem Pending.recoveries (h : Pending start size lh home disk) (ks : List ℕ) :
    Settled start size home
      (recovered start size (ks.foldl (crashedRecovery start size) disk)) := by
  induction ks generalizing disk with
  | nil => exact h.recovery.2
  | cons k ks ih =>
    rcases h.recovery.1 k with hp | hs
    · exact ih hp
    · exact hs.recoveries (by have := h.room; omega) ks

/-- The state of an open transaction: nothing issued yet, and exactly the logged blocks
may differ from the disk. -/
structure Open (start size : ℕ) (disk : ℕ → Block) (s : LogState) : Prop where
  start_eq : s.log.start = start
  size_eq : s.log.size = size
  disk_eq : s.disk = disk
  issued_nil : s.issued = []
  nodup : s.log.lh.Nodup
  room : s.log.lh.length ≤ logSize ∧ (s.log.lh.length : ℤ) ≤ (size : ℤ) - 1
  clean : ∀ b, b ∉ s.log.lh → s.data b = disk b

theorem Open.update {s s' : LogState} {b : ℕ} {v : Block} (h : Open start size disk s)
    (hu : update s b v = .ok s') :
    Open start size disk s' ∧ (∀ x, x ∈ s'.log.lh ↔ x = b ∨ x ∈ s.log.lh) ∧
      s'.log.outstanding = s.log.outstanding ∧ s'.log.committing = s.log.committing := by
  unfold RedoLog.update at hu
  split at hu
  · cases hu
  · rename_i lg pin hlog
    cases hu
    obtain ⟨hcap, hsize, -, rfl, -⟩ := Log.logWrite_ok hlog
    have hlen : (Log.absorb b s.log.lh).length ≤ s.log.lh.length + 1 := by
      by_cases hb : b ∈ s.log.lh
      · rw [Log.absorb_of_mem hb]
        omega
      · rw [Log.absorb_of_not_mem hb, List.length_append, List.length_singleton]
    have hcap' := h.size_eq ▸ hsize
    refine ⟨⟨h.start_eq, h.size_eq, h.disk_eq, h.issued_nil, Log.nodup_absorb h.nodup,
      ⟨?_, ?_⟩, fun x hx => ?_⟩, fun x => Log.mem_absorb, rfl, rfl⟩
    · simp only
      omega
    · simp only
      omega
    · have hx : x ≠ b ∧ x ∉ s.log.lh := by simpa [Log.mem_absorb] using hx
      simp only [LogState.modify]
      rw [Function.update_of_ne hx.1, h.clean x hx.2]

variable {us : List (ℕ × Block)}

theorem Open.updates {s s' : LogState} (h : Open start size disk s) (hu : updates s us = .ok s') :
    Open start size disk s' ∧ (∀ x, x ∈ s'.log.lh ↔ x ∈ us.map Prod.fst ∨ x ∈ s.log.lh) ∧
      s'.log.outstanding = s.log.outstanding ∧ s'.log.committing = s.log.committing := by
  induction us generalizing s with
  | nil =>
    cases hu
    exact ⟨h, by simp, rfl, rfl⟩
  | cons u us ih =>
    obtain ⟨b, v⟩ := u
    unfold RedoLog.updates at hu
    split at hu
    · cases hu
    · rename_i s₁ hs₁
      obtain ⟨h₁, hmem₁, hout₁, hcom₁⟩ := h.update hs₁
      obtain ⟨h₂, hmem₂, hout₂, hcom₂⟩ := ih h₁ hu
      refine ⟨h₂, fun x => ?_, hout₂.trans hout₁, hcom₂.trans hcom₁⟩
      rw [hmem₂, hmem₁, List.map_cons, List.mem_cons]
      tauto

theorem open_boot (hsize : 0 < size) (lg : Log)
    (hlg : lg = { (boot start size disk).log with outstanding := 1 }) :
    Open start size disk { boot start size disk with log := lg } := by
  subst hlg
  refine ⟨rfl, rfl, rfl, rfl, List.nodup_nil, ⟨Nat.zero_le _, ?_⟩, fun _ _ => rfl⟩
  simp only [boot, List.length_nil]
  omega

theorem beginOp_boot : (boot start size disk).log.beginOp =
    some { (boot start size disk).log with outstanding := 1 } := by
  simp [boot, Log.beginOp, maxOpBlocks, logSize]

theorem endOp_last {lg : Log} (hout : lg.outstanding = 1) (hcom : lg.committing = false) :
    lg.endOp = .ok ({ lg with outstanding := 0, committing := true }, true) := by
  unfold Log.endOp
  rw [hcom, hout]
  rfl

variable {s : LogState}

theorem transaction_open (hsize : 0 < size) (h : transaction start size disk us = some s) :
    Open start size disk s ∧ ∀ x, x ∈ s.log.lh ↔ x ∈ us.map Prod.fst := by
  unfold transaction at h
  rw [beginOp_boot] at h
  simp only at h
  split at h
  · cases h
  · rename_i s₁ hs₁
    obtain ⟨ho, hmem, hout, hcom⟩ := (open_boot hsize _ rfl).updates hs₁
    rw [endOp_last hout hcom] at h
    cases h
    refine ⟨⟨ho.start_eq, ho.size_eq, ho.disk_eq, ho.issued_nil, ho.nodup, ho.room, ho.clean⟩,
      fun x => ?_⟩
    rw [hmem x]
    simp [boot]

theorem updates_of_fits (hout : s.log.outstanding = 1)
    (hnodup : (s.log.lh ++ us.map Prod.fst).Nodup) (hfit : s.log.lh.length + us.length ≤ logSize)
    (hsize : (s.log.lh.length : ℤ) + us.length ≤ (s.log.size : ℤ) - 1) :
    ∃ s', updates s us = .ok s' := by
  induction us generalizing s with
  | nil => exact ⟨s, rfl⟩
  | cons u us ih =>
    obtain ⟨b, v⟩ := u
    simp only [List.length_cons, Nat.cast_add, Nat.cast_one] at hfit hsize
    have hb : b ∉ s.log.lh := by
      intro hb
      have := List.disjoint_of_nodup_append hnodup hb
      simp at this
    have hlog : s.log.logWrite b = .ok ({ s.log with lh := s.log.lh ++ [b] }, true) := by
      unfold Log.logWrite
      rw [if_neg (by omega), if_neg (by omega), Log.absorb_of_not_mem hb]
      simp [hb]
    have hstep : RedoLog.update s b v =
        .ok { s.modify b v with log := { s.log with lh := s.log.lh ++ [b] } } := by
      unfold RedoLog.update
      rw [hlog]
    unfold RedoLog.updates
    rw [hstep]
    apply ih
    · exact hout
    · simpa using hnodup
    · simp only [List.length_append, List.length_singleton]
      omega
    · simp only [List.length_append, List.length_singleton, Nat.cast_add, Nat.cast_one]
      omega

def committedDisk (disk : ℕ → Block) (s : LogState) : ℕ → Block :=
  Function.update (applyWrites disk (logWrites s.log.start s.data 0 s.log.lh)) s.log.start
    (encodeHeader (s.data s.log.start) s.log.lh)

theorem applyWrites_logWrites_slot (d data : ℕ → Block) {lh : List ℕ} {i : ℕ}
    (hi : i < lh.length) :
    applyWrites d (logWrites start data 0 lh) (start + i + 1) = data lh[i] := by
  apply applyWrites_eq_of_mem
  · have := logWrites_slot start data 0 hi
    rw [Nat.zero_add] at this
    exact ⟨_, this, rfl⟩
  · intro w hw hwi
    obtain ⟨j, hj, rfl⟩ := mem_logWrites hw
    have : j = i := by
      simp only at hwi
      omega
    subst this
    rfl

theorem applyWrites_logWrites_other (start : ℕ) (d data : ℕ → Block) (k : ℕ) {x : ℕ}
    (hroom : lh.length < size) (hx : x = start ∨ Home start size x) :
    applyWrites d ((logWrites start data 0 lh).take k) x = d x := by
  apply applyWrites_of_not_mem
  intro w hw heq
  obtain ⟨i, hi, rfl⟩ := mem_logWrites (List.mem_of_mem_take hw)
  simp only at heq
  unfold Home at hx
  omega

theorem commit_issued (h : Open start size disk s) (hhome : ∀ b ∈ s.log.lh, Home start size b)
    (hne : s.log.lh ≠ []) : ∃ b, (commit s).issued = logWrites start s.data 0 s.log.lh ++
      (start, encodeHeader (s.data start) s.log.lh) ::
        (installWrites start (committedDisk disk s) 0 s.log.lh ++
          [(start, encodeHeader b [])]) := by
  have hroom : s.log.lh.length < size := by have := h.room.2; omega
  have hstart := h.start_eq
  subst hstart
  have hlog : writeLog s = s.puts (logWrites s.log.start s.data 0 s.log.lh) :=
    writeLogFrom_eq s 0 size s.log.lh (by omega) hhome
  have hheader : applyWrites s.data (logWrites s.log.start s.data 0 s.log.lh) s.log.start =
      s.data s.log.start := by
    have := applyWrites_logWrites_other s.log.start s.data s.data s.log.lh.length hroom (.inl rfl)
    rwa [List.take_of_length_le (length_logWrites _ _ _ _).le] at this
  have hhead : writeHead (writeLog s) = (s.puts (logWrites s.log.start s.data 0 s.log.lh)).put
      (s.log.start, encodeHeader (s.data s.log.start) s.log.lh) := by
    rw [hlog, writeHead_eq, puts_log, puts_data, hheader]
  have hinst : installTrans (writeHead (writeLog s)) = (writeHead (writeLog s)).puts
      (installWrites s.log.start (committedDisk disk s) 0 s.log.lh) := by
    have := installFrom_eq (writeHead (writeLog s)) 0 size s.log.lh (by omega)
      (by simpa [hhead] using hhome)
    rw [installTrans, show (writeHead (writeLog s)).log = s.log by simp [hhead], this]
    congr 1
    rw [show (writeHead (writeLog s)).log = s.log by simp [hhead]]
    apply installWrites_congr
    intro i hi
    rw [Nat.zero_add, hhead, put_data, puts_data, committedDisk,
      Function.update_of_ne (by simp only; omega), Function.update_of_ne (by omega),
      applyWrites_logWrites_slot _ _ hi, applyWrites_logWrites_slot _ _ hi]
  have hpos : s.log.lh.length > 0 := List.length_pos_of_ne_nil hne
  refine ⟨(installTrans (writeHead (writeLog s))).data s.log.start, ?_⟩
  rw [commit, if_pos hpos, hinst, writeHead_eq, put_issued]
  simp only [LogState.clear, puts_issued, hhead, put_issued, puts_log, put_log, h.issued_nil,
    List.nil_append, List.append_assoc, List.cons_append]

theorem pending_committedDisk (h : Open start size disk s)
    (hhome : ∀ b ∈ s.log.lh, Home start size b) (hno : ∀ b ∈ s.log.lh, b < 2 ^ 32) :
    Pending start size s.log.lh s.data (committedDisk disk s) := by
  have hroom : s.log.lh.length < size := by have := h.room.2; omega
  have hstart := h.start_eq
  subst hstart
  refine ⟨hroom, ?_, hhome, fun i hi => ?_, fun b hb hbl => ?_⟩
  · rw [committedDisk, Function.update_self]
    exact decodeHeader_encodeHeader _ h.room.1 hno
  · rw [committedDisk, Function.update_of_ne (by omega), applyWrites_logWrites_slot _ _ hi]
  · have hbs : b ≠ s.log.start := by
      unfold Home at hb
      omega
    have := applyWrites_logWrites_other s.log.start disk s.data s.log.lh.length hroom (.inr hb)
    rw [List.take_of_length_le (length_logWrites _ _ _ _).le] at this
    rw [committedDisk, Function.update_of_ne hbs, this, h.clean b hbl]

theorem transaction_no_room (hne : us ≠ []) : transaction start 0 disk us ≠ some s := by
  obtain ⟨u, us, rfl⟩ := List.exists_cons_of_ne_nil hne
  rw [transaction, beginOp_boot]
  simp [updates, update, Log.logWrite, boot]

theorem transaction_of_fits (hnodup : (us.map Prod.fst).Nodup)
    (hfit : us.length ≤ min logSize (size - 1)) (hsize : 0 < size) :
    ∃ s, transaction start size disk us = some s := by
  have hlen : us.length ≤ logSize ∧ us.length ≤ size - 1 := le_min_iff.mp hfit
  obtain ⟨s, hs⟩ := updates_of_fits
    (s := { boot start size disk with log := { (boot start size disk).log with outstanding := 1 } })
    rfl hnodup (by simpa [boot] using hlen.1) (by simp [boot]; omega)
  obtain ⟨-, -, hout, hcom⟩ := (open_boot hsize _ rfl).updates hs
  refine ⟨{ s with log := { s.log with outstanding := 0, committing := true } }, ?_⟩
  unfold transaction
  rw [beginOp_boot]
  simp only
  rw [hs]
  simp only
  rw [endOp_last hout hcom]

/-- Where a crash of `commit()` leaves the disk: before the commit record the old home
blocks stand with a clear header, after it the transaction is pending or finished. -/
theorem commit_crash (hclear : Clear start disk) (h : Open start size disk s)
    (hhome : ∀ b ∈ s.log.lh, Home start size b) (hno : ∀ b ∈ s.log.lh, b < 2 ^ 32)
    (hne : s.log.lh ≠ []) (k : ℕ) :
    (k ≤ s.log.lh.length → Settled start size disk (crashDisk disk (commit s) k)) ∧
    (s.log.lh.length < k →
      Pending start size s.log.lh s.data (crashDisk disk (commit s) k) ∨
        Settled start size s.data (crashDisk disk (commit s) k)) := by
  have hroom : s.log.lh.length < size := by have := h.room.2; omega
  obtain ⟨b, hissued⟩ := commit_issued h hhome hne
  have hlen := length_logWrites start s.data 0 s.log.lh
  constructor
  · intro hk
    rw [crashDisk, hissued, List.take_append_of_le_length (by omega)]
    refine ⟨?_, fun x hx => applyWrites_logWrites_other start disk s.data k hroom (.inr hx)⟩
    rw [Clear, applyWrites_logWrites_other start disk s.data k hroom (.inl rfl)]
    exact hclear
  · intro hk
    obtain ⟨j, rfl⟩ : ∃ j, k = s.log.lh.length + (j + 1) := ⟨k - s.log.lh.length - 1, by omega⟩
    have hdisk : crashDisk disk (commit s) (s.log.lh.length + (j + 1)) =
        applyWrites (committedDisk disk s)
          ((installWrites start (committedDisk disk s) 0 s.log.lh ++
            [(start, encodeHeader b [])]).take j) := by
      rw [crashDisk, hissued, ← hlen, List.take_length_add_append, List.take_succ_cons,
        applyWrites_append, applyWrites_cons, committedDisk, h.start_eq]
    rw [hdisk]
    exact (pending_committedDisk h hhome hno).applyWrites_take_clear b j

/-- Crash atomicity. A transaction on a disk with a clear header either does not panic
whenever its blocks fit the log, and then, wherever `commit()` is stopped and however
often recovery is stopped and restarted, the recovery that completes leaves a clear
header and home blocks that are all new if the commit record reached the disk and all
old if it did not. -/
theorem commit_crash_atomic (hclear : Clear start disk) (us : List (ℕ × Block))
    (hne : us ≠ []) (hhome : ∀ u ∈ us, Home start size u.1) (hno : ∀ u ∈ us, u.1 < 2 ^ 32) :
    ((us.map Prod.fst).Nodup → us.length ≤ min logSize (size - 1) →
      ∃ s, transaction start size disk us = some s) ∧
    ∀ s, transaction start size disk us = some s →
      s.log.lh.Nodup ∧ (∀ b, b ∈ s.log.lh ↔ b ∈ us.map Prod.fst) ∧
      s.log.lh.length ≤ min logSize (size - 1) ∧
      ∀ (k : ℕ) (ks : List ℕ),
        let final := recovered start size
          (ks.foldl (crashedRecovery start size) (crashDisk disk (commit s) k))
        Clear start final ∧
        ((writeLog s).issued.length < k → ∀ b, Home start size b → final b = s.data b) ∧
        (¬(writeLog s).issued.length < k → ∀ b, Home start size b → final b = disk b) := by
  refine ⟨fun hnodup hfit => transaction_of_fits hnodup hfit ?_, fun s hs => ?_⟩
  · have := List.length_pos_of_ne_nil hne
    have := le_min_iff.mp hfit
    omega
  have hsize : 0 < size := by
    by_contra h0
    have h0 : size = 0 := by omega
    subst h0
    exact transaction_no_room hne hs
  obtain ⟨hopen, hmem⟩ := transaction_open hsize hs
  have hhome' : ∀ b ∈ s.log.lh, Home start size b := by
    intro b hb
    obtain ⟨u, hu, rfl⟩ := List.mem_map.mp ((hmem b).mp hb)
    exact hhome u hu
  have hno' : ∀ b ∈ s.log.lh, b < 2 ^ 32 := by
    intro b hb
    obtain ⟨u, hu, rfl⟩ := List.mem_map.mp ((hmem b).mp hb)
    exact hno u hu
  have hlh : s.log.lh ≠ [] := by
    intro hnil
    obtain ⟨u, hu⟩ := List.exists_mem_of_ne_nil us hne
    have := (hmem u.1).mpr (List.mem_map_of_mem hu)
    simp [hnil] at this
  have hroom := hopen.room
  have hcount : (writeLog s).issued.length = s.log.lh.length := by
    have hlog := writeLogFrom_eq s 0 size s.log.lh (by omega)
      (by simpa [hopen.start_eq] using hhome')
    rw [writeLog, hlog, puts_issued, hopen.issued_nil, List.nil_append, length_logWrites]
  refine ⟨hopen.nodup, hmem, le_min hroom.1 (by omega), fun k ks => ?_⟩
  obtain ⟨hold, hnew⟩ := commit_crash hclear hopen hhome' hno' hlh k
  rw [hcount]
  by_cases hk : s.log.lh.length < k
  · have hfinal : Settled start size s.data (recovered start size
        (ks.foldl (crashedRecovery start size) (crashDisk disk (commit s) k))) :=
      (hnew hk).elim (fun hp => hp.recoveries ks) (fun hs => hs.recoveries hsize ks)
    exact ⟨hfinal.clear, fun _ => hfinal.agrees, fun hnk => absurd hk hnk⟩
  · have hfinal := (hold (by omega)).recoveries hsize ks
    exact ⟨hfinal.clear, fun hk' => absurd hk' hk, fun _ => hfinal.agrees⟩

/-- Three blocks are changed on an all-zero disk with the log area that mkfs lays out. -/
def threeBlocks : List (ℕ × Block) := [(50, fun _ => 1), (60, fun _ => 2), (70, fun _ => 3)]

/-- A commit that stops in front of its record changes none of the three blocks. One that stops
after it has installed a block changes them all. -/
theorem commit_crash_atomic_threeBlocks :
    ∃ s, transaction 2 30 (fun _ _ => 0) threeBlocks = some s ∧ s.log.lh = [50, 60, 70] ∧
      ∀ ks : List ℕ,
        (∀ b ∈ [50, 60, 70], recovered 2 30 (ks.foldl (crashedRecovery 2 30)
          (crashDisk (fun _ _ => 0) (commit s) 3)) b = fun _ => 0) ∧
        ∀ u ∈ threeBlocks, recovered 2 30 (ks.foldl (crashedRecovery 2 30)
          (crashDisk (fun _ _ => 0) (commit s) 5)) u.1 = u.2 := by
  have hhome : ∀ u ∈ threeBlocks, Home 2 30 u.1 := by simp [threeBlocks, Home]
  have hclear : Clear 2 (fun _ _ => 0) := rfl
  obtain ⟨-, hall⟩ := commit_crash_atomic hclear threeBlocks (by decide) hhome
    (by simp [threeBlocks])
  have hrun : (transaction 2 30 (fun _ _ => 0) threeBlocks).any (fun s =>
      decide (s.log.lh = [50, 60, 70] ∧ (writeLog s).issued.length = 3 ∧
        ∀ u ∈ threeBlocks, ∀ o, s.data u.1 o = u.2 o)) = true := by
    decide +kernel
  obtain ⟨s, hs, htest⟩ := (Option.any_eq_true _ _).mp hrun
  obtain ⟨hlh, hlen, hdata⟩ := of_decide_eq_true htest
  obtain ⟨-, -, -, hcrash⟩ := hall s hs
  refine ⟨s, hs, hlh, fun ks => ⟨fun b hb => ?_, fun u hu => ?_⟩⟩
  · obtain ⟨u, hu, rfl⟩ : ∃ u ∈ threeBlocks, u.1 = b := by
      simpa [threeBlocks, eq_comm] using hb
    exact (hcrash 3 ks).2.2 (by omega) u.1 (hhome u hu)
  · rw [(hcrash 5 ks).2.1 (by omega) u.1 (hhome u hu)]
    exact funext (hdata u hu)

end Xv6.RedoLog
