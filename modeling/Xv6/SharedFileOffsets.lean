import Xv6.FileWrites
import Xv6.SystemCallsKeepOwnership
import Xv6.TransitionSystems

/-!
# Processes that share an open file

`fileread` and `filewrite` of `file.c` on one `struct file` of type `FD_INODE`, called by any
number of processes that got it through `fork` or `dup`. The offset is read and changed under the
lock of the inode, which `filewrite` gives up between two chunks. Everybody else may do anything
to the inode that keeps the file system consistent, and leaves it alone while one of the processes
holds its lock.
-/

namespace Xv6.SharedOffsets
open Fs TransitionSystems OperationPrograms Function

/-- A call of `readi` or `writei` that transferred bytes from or to the file at `off`. -/
structure Transfer (P : Type) where
  who : P
  write : Bool
  off : ℕ
  bytes : List UInt8

variable {P : Type}

def Transfer.stop (tr : Transfer P) : ℕ := tr.off + tr.bytes.length

/-- The ranges of the transfers are not empty and follow one another from `a` to `b`. -/
def Consecutive : ℕ → List (Transfer P) → ℕ → Prop
  | a, [], b => a = b
  | a, tr :: trs, b => tr.off = a ∧ tr.bytes ≠ [] ∧ Consecutive tr.stop trs b

variable {trs : List (Transfer P)}

theorem Consecutive.snoc {a b : ℕ} (h : Consecutive a trs b) {tr : Transfer P} (hoff : tr.off = b)
    (hne : tr.bytes ≠ []) : Consecutive a (trs ++ [tr]) tr.stop := by
  induction trs generalizing a with
  | nil =>
    obtain rfl : a = b := h
    exact ⟨hoff, hne, rfl⟩
  | cons x trs ih => exact ⟨h.1, h.2.1, ih h.2.2⟩

theorem Consecutive.total {a b : ℕ} (h : Consecutive a trs b) :
    b = a + (trs.map fun tr => tr.bytes.length).sum := by
  induction trs generalizing a with
  | nil => exact h.symm
  | cons x trs ih =>
    rw [ih h.2.2, List.map_cons, List.sum_cons, Transfer.stop, h.1, Nat.add_assoc]

theorem Consecutive.le_off {a b : ℕ} (h : Consecutive a trs b) : ∀ tr ∈ trs, a ≤ tr.off := by
  induction trs generalizing a with
  | nil => simp
  | cons x trs ih =>
    intro tr htr
    rcases List.mem_cons.mp htr with rfl | htr
    · exact h.1.ge
    · have hle := ih h.2.2 tr htr
      rw [Transfer.stop, h.1] at hle
      omega

theorem Consecutive.pairwise {a b : ℕ} (h : Consecutive a trs b) :
    trs.Pairwise fun x y => x.stop ≤ y.off := by
  induction trs generalizing a with
  | nil => exact .nil
  | cons x trs ih => exact .cons (h.2.2.le_off) (ih h.2.2)

structure OpenFile where
  sb : Superblock
  inum : ℕ
  readable : Bool
  writable : Bool

/-- Where a process is in `fileread` or `filewrite`. `src` is the user memory behind `addr`. -/
inductive Point where
  | idle
  /-- in front of the `ilock` of `fileread` -/
  | read (dst : ℕ → Bool) (n : ℤ)
  /-- in front of `readi` -/
  | reading (dst : ℕ → Bool) (n : ℤ)
  /-- `readi` has returned `r` -/
  | didReadi (r : ℤ)
  /-- in front of the `iunlock` of `fileread` -/
  | readUnlock (r : ℤ)
  | readDone (r : ℤ)
  /-- the head of the loop of `filewrite` -/
  | write (src : ℕ → Option UInt8) (n : ℤ) (i : ℕ)
  /-- behind `begin_op`, in front of the `ilock` of `filewrite` -/
  | writeLock (src : ℕ → Option UInt8) (n : ℤ) (i : ℕ)
  /-- in front of `writei` -/
  | writing (src : ℕ → Option UInt8) (n : ℤ) (i : ℕ)
  /-- `writei` has returned `r` -/
  | didWritei (src : ℕ → Option UInt8) (n : ℤ) (i : ℕ) (r : ℤ)
  /-- in front of the `iunlock` of `filewrite` -/
  | writeUnlock (src : ℕ → Option UInt8) (n : ℤ) (i : ℕ) (r : ℤ)
  /-- in front of `end_op` -/
  | writeEnd (src : ℕ → Option UInt8) (n : ℤ) (i : ℕ) (r : ℤ)
  | writeDone (src : ℕ → Option UInt8) (n r : ℤ)

inductive Holder (P : Type) where
  | nobody
  | sharer (p : P)
  | other
  deriving DecidableEq

/-- The offset, the inode and the disk, the lock, the processes, and the history: all
transfers, and those of each process's last call. -/
structure State (P : Type) where
  off : ℕ
  ip : Dinode
  store : Store
  lock : Holder P
  point : P → Point
  log : List (Transfer P)
  calls : P → List (Transfer P)

/-- What can happen: a call, a step of a process within its call, or somebody else uses the
inode. -/
inductive Event (P : Type) where
  | fileread (p : P) (dst : ℕ → Bool) (n : ℤ)
  | filewrite (p : P) (src : ℕ → Option UInt8) (n : ℤ)
  | go (p : P)
  | other (ip : Dinode) (store : Store) (lock : Holder P)

def chunkSize (n : ℤ) (i : ℕ) : ℕ := min (n - i).toNat maxWrite

def writeResult (n : ℤ) (i : ℕ) : ℤ := if (i : ℤ) = n then n else -1

section Steps

variable [DecidableEq P]

def State.goto (s : State P) (p : P) (l : Point) : State P :=
  { s with point := update s.point p l }

def State.ilock (s : State P) (p : P) (l : Point) : Option (State P) :=
  if s.lock = .nobody then some { s.goto p l with lock := .sharer p } else none

/-- The process `p` gives up the lock and goes on at `l`. -/
def State.iunlock (s : State P) (p : P) (l : Point) : State P :=
  { s.goto p l with lock := .nobody }

def State.advance (s : State P) (r : ℤ) : State P :=
  { s with off := if 0 < r then (s.off + r.toNat) % 2 ^ 32 else s.off }

/-- The record of a call of `readi` or `writei` that returned `r`. -/
def State.record (s : State P) (p : P) (write : Bool) (r : ℤ) (bytes : List UInt8) : State P :=
  if 0 < r then
    { s with
      log := s.log ++ [⟨p, write, s.off, bytes⟩]
      calls := update s.calls p (s.calls p ++ [⟨p, write, s.off, bytes⟩]) }
  else s

def next (f : OpenFile) (s : State P) (p : P) : Option (State P) :=
  match s.point p with
  | .read dst n => s.ilock p (.reading dst n)
  | .reading dst n =>
    match readiBlocks f.sb f.inum s.ip s.store dst s.off (n % 2 ^ 32).toNat with
    | .ok ((r, bytes), ip, store) =>
      some { (s.record p false r bytes).goto p (.didReadi r) with ip, store }
    | .error _ => none
  | .didReadi r => some ((s.advance r).goto p (.readUnlock r))
  | .readUnlock r => some (s.iunlock p (.readDone r))
  | .write src n i =>
    if (i : ℤ) < n then some (s.goto p (.writeLock src n i))
    else some (s.goto p (.writeDone src n (writeResult n i)))
  | .writeLock src n i => s.ilock p (.writing src n i)
  | .writing src n i =>
    match writeiBlocks f.sb f.inum s.ip s.store (fun j => src (i + j)) s.off (chunkSize n i) with
    | .ok (r, ip, store) =>
      some { (s.record p true r (fileBytes store.disk ip s.off r.toNat)).goto p
          (.didWritei src n i r) with ip, store }
    | .error _ => none
  | .didWritei src n i r => some ((s.advance r).goto p (.writeUnlock src n i r))
  | .writeUnlock src n i r => some (s.iunlock p (.writeEnd src n i r))
  | .writeEnd src n i r =>
    if r ≠ chunkSize n i then some (s.goto p (.writeDone src n (writeResult n i)))
    else some (s.goto p (.write src n (i + r.toNat)))
  | .idle | .readDone _ | .writeDone _ _ _ => none

def Point.ready : Point → Bool
  | .idle | .readDone _ | .writeDone _ _ _ => true
  | _ => false

/-- A process calls `fileread` or `filewrite`. -/
def State.call (s : State P) (p : P) (l : Point) : Option (State P) :=
  if (s.point p).ready then some { s.goto p l with calls := update s.calls p [] }
  else none

end Steps

/-- The inode is allocated and as on the disk, and the disk is consistent. A directory is never
open for writing. -/
structure Sound (f : OpenFile) (ip : Dinode) (store : Store) : Prop where
  clean : Clean f.sb store
  inum : f.inum < f.sb.ninodes
  same : SameBlocks ip (dinode f.sb store.disk f.inum)
  type : ip.type ≠ 0
  dir : f.writable = true → ip.type ≠ tDir

structure Interferes (f : OpenFile) (s : State P) (ip : Dinode) (store : Store)
    (lock : Holder P) : Prop where
  sound : Sound f ip store
  lock : lock = s.lock ∨ s.lock = .nobody ∧ lock = .other ∨ s.lock = .other ∧ lock = .nobody
  locked : ∀ p, s.lock = .sharer p →
    ip = s.ip ∧ ∀ x < ip.size, fileByte store.disk ip x = fileByte s.store.disk s.ip x

def Step [DecidableEq P] (f : OpenFile) (s : State P) : Event P → State P → Prop
  | .fileread p dst n, t => s.call p (if f.readable then .read dst n else .readDone (-1)) = some t
  | .filewrite p src n, t =>
    s.call p (if f.writable then .write src n 0 else .writeDone src n (-1)) = some t
  | .go p, t => next f s p = some t
  | .other ip store lock, t => Interferes f s ip store lock ∧ t = { s with ip, store, lock }

structure Initial (f : OpenFile) (s : State P) : Prop where
  off : s.off < 2 ^ 32
  sound : Sound f s.ip s.store
  lock : ∀ p, s.lock ≠ .sharer p
  point : ∀ p, s.point p = .idle
  log : s.log = []
  calls : ∀ p, s.calls p = []

def Point.inside : Point → Bool
  | .reading _ _ | .didReadi _ | .readUnlock _ => true
  | .writing _ _ _ | .didWritei _ _ _ _ | .writeUnlock _ _ _ _ => true
  | _ => false

def Point.pending : Point → ℕ
  | .didReadi r | .didWritei _ _ _ r => r.toNat
  | _ => 0

/-- What the holder of the lock has transferred and not yet added to the offset. -/
def State.pending (s : State P) : ℕ :=
  match s.lock with
  | .sharer p => (s.point p).pending
  | _ => 0

/-- The result of the last call of `readi` or `writei`, as long as the lock is held. -/
def Point.result : Point → ℤ
  | .didReadi r | .readUnlock r | .didWritei _ _ _ r | .writeUnlock _ _ _ r => r
  | _ => 0

/-- The transfers of a call are writes, and together they are the first `i` bytes of `src`. -/
def Wrote (calls : List (Transfer P)) (src : ℕ → Option UInt8) (i : ℕ) : Prop :=
  (∀ tr ∈ calls, tr.write = true) ∧
    (calls.flatMap (·.bytes)).map some = (List.range i).map src

/-- What the transfers of a call are at each point of `filewrite`. -/
def CallOk (f : OpenFile) (calls : List (Transfer P)) : Point → Prop
  | .write src _ i => f.writable = true ∧ Wrote calls src i
  | .writeLock src n i | .writing src n i => f.writable = true ∧ Wrote calls src i ∧ (i : ℤ) < n
  | .didWritei src n i r | .writeUnlock src n i r | .writeEnd src n i r =>
    f.writable = true ∧ Wrote calls src (i + r.toNat) ∧ (i : ℤ) < n
  | .writeDone src n r => 0 ≤ n → r = n → Wrote calls src n.toNat
  | _ => True

/-- The last transfer is by `p`, and the file has its bytes. -/
def State.InFile (s : State P) (p : P) : Prop :=
  ∃ trs tr, s.log = trs ++ [tr] ∧ tr.who = p ∧ tr.stop ≤ s.ip.size ∧
    tr.bytes = fileBytes s.store.disk s.ip tr.off tr.bytes.length

structure Inv (f : OpenFile) (start : ℕ) (s : State P) : Prop where
  sound : Sound f s.ip s.store
  lock : ∀ p, s.lock = .sharer p ↔ (s.point p).inside = true
  chain : Consecutive start s.log (s.off + s.pending)
  lt : s.off + s.pending < 2 ^ 32
  call : ∀ p, CallOk f (s.calls p) (s.point p)
  mine : ∀ p, (s.calls p).Sublist s.log ∧ ∀ tr ∈ s.calls p, tr.who = p
  inFile : ∀ p, 0 < (s.point p).result → s.InFile p

variable {f : OpenFile} {start : ℕ} {s t : State P}

theorem Point.pending_of_outside {l : Point} (h : l.inside = false) : l.pending = 0 := by
  cases l <;> first | rfl | cases h

theorem Point.inside_of_result {l : Point} (h : 0 < l.result) : l.inside = true := by
  cases l <;> first | rfl | cases h

theorem State.pending_eq_zero (hfree : ∀ p, s.lock ≠ .sharer p) : s.pending = 0 := by
  unfold State.pending
  split
  · exact absurd ‹_› (hfree _)
  · rfl

theorem Inv.alone (h : Inv f start s) {p : P} (hp : (s.point p).inside = true) {q : P}
    (hq : q ≠ p) :
    s.lock ≠ .sharer q := by
  rw [(h.lock p).mpr hp]
  exact fun heq => hq (Holder.sharer.inj heq).symm

theorem Inv.pending_eq (h : Inv f start s) {p : P} (hp : (s.point p).inside = true) :
    s.pending = (s.point p).pending := by
  rw [State.pending, (h.lock p).mpr hp]

theorem Wrote.snoc {calls : List (Transfer P)} {src : ℕ → Option UInt8} {i : ℕ}
    (h : Wrote calls src i) {tr : Transfer P} (hw : tr.write = true) {k : ℕ}
    (hbytes : tr.bytes.map some = (List.range k).map fun j => src (i + j)) :
    Wrote (calls ++ [tr]) src (i + k) := by
  refine ⟨fun x hx => ?_, ?_⟩
  · rcases List.mem_append.mp hx with hx | hx
    · exact h.1 x hx
    · rwa [List.mem_singleton.mp hx]
  · rw [List.flatMap_append, List.map_append, h.2, List.range_add, List.map_append, List.map_map]
    simp [hbytes, Function.comp_def]

variable {store : Store} {ip : Dinode}

theorem Sound.wellFormed (h : Sound f ip store) :
    WellFormed f.sb store.disk ip := (h.clean.held h.inum h.same h.type).wellFormed

theorem writeResult_eq {n : ℤ} {i : ℕ} (hn : 0 ≤ n) (h : writeResult n i = n) : n.toNat = i := by
  unfold writeResult at h
  split_ifs at h <;> omega

section Steps

variable [DecidableEq P] {p : P} {l : Point}

theorem Inv.outside (h : Inv f start s) (hp : (s.point p).inside = false) (hl : l.inside = false)
    {c : List (Transfer P)} (hc : c = s.calls p ∨ c = []) (hcall : CallOk f c l) :
    Inv f start { s.goto p l with calls := update s.calls p c } := by
  have hlock (q : P) : s.lock = .sharer q ↔ (update s.point p l q).inside = true := by
    by_cases hq : q = p
    · subst hq
      rw [update_self, hl, h.lock q, hp]
    · rw [update_of_ne hq, h.lock q]
  have hpending : State.pending { s.goto p l with calls := update s.calls p c } =
      s.pending := by
    simp only [State.pending, State.goto]
    split
    · rename_i q hq
      have hne : q ≠ p := by
        rintro rfl
        rw [(h.lock q).mp hq] at hp
        cases hp
      rw [update_of_ne hne]
    · rfl
  refine ⟨h.sound, hlock, ?_, ?_, fun q => ?_, fun q => ?_, fun q hq => ?_⟩
  · rw [hpending]
    exact h.chain
  · rw [hpending]
    exact h.lt
  · by_cases hq : q = p
    · subst hq
      simpa [State.goto] using hcall
    · simpa [State.goto, hq] using h.call q
  · by_cases hq : q = p
    · subst hq
      rcases hc with rfl | rfl
      · simpa [State.goto] using h.mine q
      · simp
    · simpa [State.goto, hq] using h.mine q
  · by_cases hqp : q = p
    · subst hqp
      have hin := Point.inside_of_result hq
      simp only [State.goto, update_self] at hin
      rw [hl] at hin
      cases hin
    · simp only [State.goto, update_of_ne hqp] at hq
      exact h.inFile q hq

theorem Inv.holder (h : Inv f start s) (halone : ∀ q, q ≠ p → s.lock ≠ .sharer q)
    (hpoint : t.point = update s.point p l)
    (hlock : t.lock = if l.inside then .sharer p else .nobody)
    (hsound : Sound f t.ip t.store) (hchain : Consecutive start t.log (t.off + l.pending))
    (hlt : t.off + l.pending < 2 ^ 32) (hcall : CallOk f (t.calls p) l)
    (hcalls : ∀ q, q ≠ p → t.calls q = s.calls q) (hlog : s.log <+: t.log)
    (hmine : (t.calls p).Sublist t.log ∧ ∀ tr ∈ t.calls p, tr.who = p)
    (hin : 0 < l.result → t.InFile p) : Inv f start t := by
  have hout (q : P) (hq : q ≠ p) : (s.point q).inside = false := by
    by_contra hne
    exact halone q hq ((h.lock q).mpr (by simpa using hne))
  have hpending : t.pending = l.pending := by
    simp only [State.pending, hlock, hpoint]
    split
    · rename_i q hq
      split at hq
      · cases hq
        rw [update_self]
      · cases hq
    · rename_i hq
      refine (Point.pending_of_outside ?_).symm
      by_contra hne
      exact hq p (if_pos (by simpa using hne))
  refine ⟨hsound, fun q => ?_, hpending ▸ hchain, hpending ▸ hlt, fun q => ?_, fun q => ?_,
    fun q hq => ?_⟩
  · rw [hlock, hpoint]
    by_cases hq : q = p
    · subst hq
      rw [update_self]
      split_ifs with hl <;> simp [hl]
    · rw [update_of_ne hq, hout q hq]
      split_ifs <;> simp [Ne.symm hq]
  · by_cases hq : q = p
    · subst hq
      rwa [hpoint, update_self]
    · rw [hpoint, update_of_ne hq, hcalls q hq]
      exact h.call q
  · by_cases hq : q = p
    · subst hq
      exact hmine
    · rw [hcalls q hq]
      exact ⟨(h.mine q).1.trans hlog.sublist, (h.mine q).2⟩
  · by_cases hqp : q = p
    · subst hqp
      rw [hpoint, update_self] at hq
      exact hin hq
    · rw [hpoint, update_of_ne hqp] at hq
      exact absurd (Point.inside_of_result hq) (by simp [hout q hqp])

theorem Inv.ilock (h : Inv f start s) (hlock : s.lock = .nobody) (hl : l.inside = true)
    (hpend : l.pending = 0) (hres : l.result = 0) (hcall : CallOk f (s.calls p) l) :
    Inv f start { s.goto p l with lock := .sharer p } := by
  have hzero : s.pending = 0 := State.pending_eq_zero fun q => by simp [hlock]
  have hchain := h.chain
  have hlt := h.lt
  rw [hzero] at hchain hlt
  exact h.holder (fun q _ => by simp [hlock]) rfl (by rw [if_pos hl]) h.sound (hpend ▸ hchain)
    (hpend ▸ hlt) hcall (fun _ _ => rfl) List.prefix_rfl (h.mine p) fun hpos => by omega

theorem Inv.iunlock (h : Inv f start s) (hp : (s.point p).inside = true)
    (hpend : (s.point p).pending = 0) (hl : l.inside = false) (hcall : CallOk f (s.calls p) l) :
    Inv f start (s.iunlock p l) := by
  have hzero : s.pending = l.pending := by
    rw [h.pending_eq hp, hpend, Point.pending_of_outside hl]
  refine h.holder (fun q hq => h.alone hp hq) rfl (by rw [hl]; rfl) h.sound (hzero ▸ h.chain)
    (hzero ▸ h.lt) hcall (fun _ _ => rfl) List.prefix_rfl (h.mine p) fun hpos => ?_
  rw [Point.inside_of_result hpos] at hl
  cases hl

theorem Inv.advance (h : Inv f start s) (hp : (s.point p).inside = true) {r : ℤ}
    (hpend : (s.point p).pending = r.toNat) (hres : (s.point p).result = r)
    (hl : l.inside = true) (hpend' : l.pending = 0) (hres' : l.result = r)
    (hcall : CallOk f (s.calls p) l) : Inv f start ((s.advance r).goto p l) := by
  have hoff : (s.advance r).off = s.off + s.pending := by
    have hlt := h.lt
    rw [h.pending_eq hp, hpend] at hlt ⊢
    simp only [State.advance]
    split_ifs with hr
    · exact Nat.mod_eq_of_lt hlt
    · omega
  refine h.holder (fun q hq => h.alone hp hq) rfl ?_ h.sound ?_ ?_ hcall (fun _ _ => rfl)
    List.prefix_rfl (h.mine p) fun hpos => h.inFile p (by omega)
  · rw [if_pos hl]
    exact (h.lock p).mpr hp
  · rw [hpend']
    exact hoff.symm ▸ h.chain
  · rw [hpend']
    exact hoff.symm ▸ h.lt

theorem Inv.transfer (h : Inv f start s) (hp : (s.point p).inside = true)
    (hpend : (s.point p).pending = 0) {write : Bool} {r : ℤ} {bytes : List UInt8}
    (hsound : Sound f ip store)
    (hbytes : 0 < r → bytes = fileBytes store.disk ip s.off r.toNat ∧ s.off + r.toNat ≤ ip.size)
    (hl : l.inside = true) (hpend' : l.pending = r.toNat) (hres : l.result = r)
    (hcall : CallOk f ((s.record p write r bytes).calls p) l) :
    Inv f start { (s.record p write r bytes).goto p l with ip, store } := by
  have hzero : s.pending = 0 := (h.pending_eq hp).trans hpend
  have hchain := h.chain
  have hlt := h.lt
  rw [hzero] at hchain hlt
  have hlock : s.lock = if l.inside then .sharer p else .nobody := by
    rw [if_pos hl]
    exact (h.lock p).mpr hp
  by_cases hr : 0 < r
  · obtain ⟨hb, hsize⟩ := hbytes hr
    have hlen : bytes.length = r.toNat := by rw [hb, length_fileBytes]
    have hmax : ip.size < 2 ^ 32 := by
      exact lt_of_le_of_lt hsound.wellFormed.size_le (by decide)
    simp only [State.record, if_pos hr] at hcall ⊢
    rw [update_self] at hcall
    refine h.holder (fun q hq => h.alone hp hq) rfl hlock hsound ?_ ?_ ?_ (fun q hq => ?_)
      (List.prefix_append _ _) ?_ fun _ => ?_
    · have hne : bytes ≠ [] := List.ne_nil_of_length_pos (by omega)
      have hsnoc := hchain.snoc (show (Transfer.mk p write s.off bytes).off = _ from rfl) hne
      rw [Transfer.stop, hlen] at hsnoc
      rw [hpend']
      exact hsnoc
    · simp only [State.goto, hpend']
      omega
    · simpa [State.goto] using hcall
    · exact update_of_ne hq _ _
    · simp only [State.goto, update_self]
      refine ⟨(h.mine p).1.append (List.Sublist.refl _), fun tr htr => ?_⟩
      rcases List.mem_append.mp htr with htr | htr
      · exact (h.mine p).2 tr htr
      · rw [List.mem_singleton.mp htr]
    · refine ⟨s.log, _, rfl, rfl, ?_, ?_⟩
      · rw [Transfer.stop, hlen]
        exact hsize
      · rw [hlen]
        exact hb
  · simp only [State.record, if_neg hr] at hcall ⊢
    have hr0 : r.toNat = 0 := by omega
    exact h.holder (fun q hq => h.alone hp hq) rfl hlock hsound (by rw [hpend', hr0]; exact hchain)
      (by rw [hpend', hr0]; exact hlt) hcall (fun _ _ => rfl) List.prefix_rfl (h.mine p)
      fun hpos => by omega

theorem Inv.readi (h : Inv f start s) {dst : ℕ → Bool} {n r : ℤ} {bytes : List UInt8}
    (hl : s.point p = .reading dst n)
    (hr : readiBlocks f.sb f.inum s.ip s.store dst s.off (n % 2 ^ 32).toNat =
      .ok ((r, bytes), ip, store)) :
    Inv f start { (s.record p false r bytes).goto p (.didReadi r) with ip, store } := by
  rw [h.sound.wellFormed.holeFree.readi_eq f.inum dst rfl] at hr
  cases hr
  refine h.transfer (by rw [hl]; rfl) (by rw [hl]; rfl) h.sound (fun hpos => ?_) rfl rfl rfl trivial
  generalize hk : readCount s.ip s.off (n % 2 ^ 32).toNat = k at hpos ⊢
  have hcopy := copyout_le dst k 0
  have hall : ¬copyout dst k 0 < k := fun hlt => absurd hpos (by rw [if_pos hlt]; decide)
  rw [if_neg hall] at hpos ⊢
  rw [Int.toNat_natCast, show copyout dst k 0 = k by omega]
  refine ⟨rfl, ?_⟩
  rw [readCount] at hk
  split_ifs at hk <;> omega

theorem Inv.writei (h : Inv f start s) {src : ℕ → Option UInt8} {n r : ℤ} {i : ℕ}
    (hl : s.point p = .writing src n i)
    (hr : writeiBlocks f.sb f.inum s.ip s.store (fun j => src (i + j)) s.off (chunkSize n i) =
      .ok (r, ip, store)) :
    Inv f start { (s.record p true r (fileBytes store.disk ip s.off r.toNat)).goto p
      (.didWritei src n i r) with ip, store } := by
  obtain ⟨hwritable, hwrote, hlt⟩ : f.writable = true ∧ Wrote (s.calls p) src i ∧ (i : ℤ) < n := by
    have hcall := h.call p
    rwa [hl] at hcall
  have hsound := h.sound
  have hsize : chunkSize n i < 2 ^ 32 := lt_of_le_of_lt (Nat.min_le_right _ _) (by decide)
  have hboth := (writei_keeps hsound.clean hsound.inum hsound.same hsound.type
    (hsound.dir hwritable) (fun j => src (i + j)) s.off hsize).and
    (writei_writes hsound.clean hsound.inum hsound.same hsound.type (fun j => src (i + j)) s.off
      hsize)
  rw [hr] at hboth
  obtain ⟨⟨hsettled, htype⟩, hres⟩ := hboth
  have hsound' : Sound f ip store :=
    ⟨hsettled.clean, hsound.inum, hsettled.same, htype ▸ hsound.type,
      fun hw => htype ▸ hsound.dir hw⟩
  refine h.transfer (by rw [hl]; rfl) (by rw [hl]; rfl) hsound' (fun hpos => ⟨rfl, ?_⟩) rfl rfl rfl
    ⟨hwritable, ?_, hlt⟩
  · rcases hres with ⟨hneg, -⟩ | ⟨k, hk, -, -, -, hgrown, -, -⟩
    · exact absurd hpos (by simp only at hneg; omega)
    · simp only at hk hgrown
      omega
  · by_cases hpos : 0 < r
    · rcases hres with ⟨hneg, -⟩ | ⟨k, hk, -, -, -, -, hbytes, -⟩
      · exact absurd hpos (by simp only at hneg; omega)
      · simp only [State.record, if_pos hpos, update_self]
        refine hwrote.snoc rfl ?_
        obtain rfl : r = k := hk
        rw [fileBytes, List.map_map, Int.toNat_natCast]
        exact List.map_congr_left fun t ht => hbytes t (List.mem_range.mp ht)
    · simp only [State.record, if_neg hpos]
      rwa [Int.toNat_eq_zero.mpr (by omega), Nat.add_zero]

theorem next_inv (h : Inv f start s) (hn : next f s p = some t) : Inv f start t := by
  have hcall := h.call p
  have hself {l : Point} : s.goto p l =
      { s.goto p l with calls := update s.calls p (s.calls p) } := by
    rw [update_eq_self]
    rfl
  unfold next at hn
  cases hl : s.point p with
  | idle => simp [hl] at hn
  | readDone r => simp [hl] at hn
  | writeDone src n r => simp [hl] at hn
  | read dst n =>
    simp only [hl, State.ilock] at hn
    split at hn <;> cases hn
    exact h.ilock ‹_› rfl rfl rfl trivial
  | reading dst n =>
    simp only [hl] at hn
    split at hn
    · cases hn
      exact h.readi hl ‹_›
    · cases hn
  | didReadi r =>
    simp only [hl] at hn
    cases hn
    exact h.advance (by rw [hl]; rfl) (by rw [hl]; rfl) (by rw [hl]; rfl) rfl rfl rfl trivial
  | readUnlock r =>
    simp only [hl] at hn
    cases hn
    exact h.iunlock (by rw [hl]; rfl) (by rw [hl]; rfl) rfl trivial
  | write src n i =>
    simp only [hl] at hn
    rw [hl] at hcall
    split at hn <;> cases hn
    · rw [hself]
      exact h.outside (by rw [hl]; rfl) rfl (.inl rfl) ⟨hcall.1, hcall.2, ‹_›⟩
    · rw [hself]
      refine h.outside (by rw [hl]; rfl) rfl (.inl rfl) fun hn0 hr => ?_
      rw [writeResult_eq hn0 hr]
      exact hcall.2
  | writeLock src n i =>
    simp only [hl, State.ilock] at hn
    rw [hl] at hcall
    split at hn <;> cases hn
    exact h.ilock ‹_› rfl rfl rfl hcall
  | writing src n i =>
    simp only [hl] at hn
    split at hn
    · cases hn
      exact h.writei hl ‹_›
    · cases hn
  | didWritei src n i r =>
    simp only [hl] at hn
    rw [hl] at hcall
    cases hn
    exact h.advance (by rw [hl]; rfl) (by rw [hl]; rfl) (by rw [hl]; rfl) rfl rfl rfl hcall
  | writeUnlock src n i r =>
    simp only [hl] at hn
    rw [hl] at hcall
    cases hn
    exact h.iunlock (by rw [hl]; rfl) (by rw [hl]; rfl) rfl hcall
  | writeEnd src n i r =>
    simp only [hl] at hn
    rw [hl] at hcall
    split at hn <;> cases hn
    · rw [hself]
      refine h.outside (by rw [hl]; rfl) rfl (.inl rfl) fun hn0 hr => ?_
      have hi := writeResult_eq hn0 hr
      have hlt := hcall.2.2
      omega
    · rw [hself]
      exact h.outside (by rw [hl]; rfl) rfl (.inl rfl) ⟨hcall.1, hcall.2.1⟩

theorem call_inv (h : Inv f start s) (hn : s.call p l = some t) (hl : l.inside = false)
    (hcall : CallOk f ([] : List (Transfer P)) l) : Inv f start t := by
  unfold State.call at hn
  split_ifs at hn with hready
  cases hn
  refine h.outside ?_ hl (.inr rfl) hcall
  cases hp : s.point p <;> simp_all [Point.ready, Point.inside]

omit [DecidableEq P] in
theorem other_inv (h : Inv f start s) {lock : Holder P} (ho : Interferes f s ip store lock) :
    Inv f start { s with ip, store, lock } := by
  have hlock (p : P) : lock = .sharer p ↔ s.lock = .sharer p := by
    rcases ho.lock with h | ⟨h, h'⟩ | ⟨h, h'⟩ <;> simp [*]
  have hpending : State.pending { s with ip, store, lock } = s.pending := by
    unfold State.pending
    rcases ho.lock with h | ⟨h, h'⟩ | ⟨h, h'⟩ <;> simp [*]
  refine ⟨ho.sound, fun p => (hlock p).trans (h.lock p), by rw [hpending]; exact h.chain,
    by rw [hpending]; exact h.lt, h.call, h.mine, fun p hp => ?_⟩
  obtain ⟨rfl, hbytes⟩ := ho.locked p ((h.lock p).mpr (Point.inside_of_result hp))
  obtain ⟨trs, tr, hlog, hwho, hsize, hfile⟩ := h.inFile p hp
  refine ⟨trs, tr, hlog, hwho, hsize, hfile.trans ?_⟩
  refine List.map_congr_left fun t ht => (hbytes _ ?_).symm
  have hlt := List.mem_range.mp ht
  rw [Transfer.stop] at hsize
  omega

theorem step_inv {e : Event P} (h : Inv f start s) (hs : Step f s e t) : Inv f start t := by
  cases e with
  | fileread p dst n =>
    refine call_inv h hs ?_ ?_ <;> split <;> trivial
  | filewrite p src n =>
    refine call_inv h hs (by split <;> rfl) ?_
    split_ifs with hw
    · exact ⟨hw, by simp, by simp⟩
    · intro hn hr
      omega
  | go p => exact next_inv h hs
  | other ip store lock =>
    obtain ⟨ho, rfl⟩ := hs
    exact other_inv h ho

omit [DecidableEq P] in
theorem Initial.inv (h : Initial f s) : Inv f s.off s := by
  have hzero : s.pending = 0 := State.pending_eq_zero h.lock
  refine ⟨h.sound, fun p => ?_, ?_, ?_, fun p => ?_, fun p => ?_, fun p hp => ?_⟩
  · rw [h.point p]
    exact ⟨fun hl => absurd hl (h.lock p), nofun⟩
  · rw [hzero, h.log]
    rfl
  · rw [hzero]
    exact h.off
  · rw [h.point p]
    trivial
  · rw [h.calls p]
    simp
  · rw [h.point p] at hp
    cases hp

/-- In every run of processes that share an open file, the ranges of all transfers follow one
another from the initial offset on, the offset is behind the last of them, the bytes of a
transfer are in the file when the lock is given up, and a call of `filewrite` that returns
what it was asked for has transferred the bytes of its source in order. -/
theorem shared_offset_loses_nothing (f : OpenFile) {s₀ s : State P} {es : List (Event P)}
    (h₀ : Initial f s₀) (h : Run (Step f) s₀ es s) :
    Consecutive s₀.off s.log (s.off + s.pending) ∧
      s.log.Pairwise (fun x y => x.stop ≤ y.off) ∧
      s.off + s.pending = s₀.off + (s.log.map fun tr => tr.bytes.length).sum ∧
      ((∀ p, s.lock ≠ .sharer p) → s.pending = 0) ∧
      (∀ p, 0 < (s.point p).result → s.InFile p) ∧
      ∀ p src n r, s.point p = .writeDone src n r → 0 ≤ n → r = n →
        (s.calls p).Sublist s.log ∧ (∀ tr ∈ s.calls p, tr.who = p) ∧
          Wrote (s.calls p) src n.toNat := by
  have hinv : Inv f s₀.off s := h.invariant h₀.inv fun _ _ _ => step_inv
  refine ⟨hinv.chain, hinv.chain.pairwise, hinv.chain.total, State.pending_eq_zero, hinv.inFile,
    fun p src n r hp hn hr => ⟨(hinv.mine p).1, (hinv.mine p).2, ?_⟩⟩
  have hcall := hinv.call p
  rw [hp] at hcall
  exact hcall hn hr

end Steps

def storeWithFile : Store :=
  (claimDinode smallSuperblock ⟨smallDisk, fun _ => false, 0, [], []⟩ 2 tFile).2

def writtenFile : OpenFile := ⟨smallSuperblock, 2, false, true⟩

theorem sound_storeWithFile :
    Sound writtenFile (dinode smallSuperblock storeWithFile.disk 2) storeWithFile where
  clean := (claim_keeps ⟨smallDisk_consistent, by simp⟩ (by decide) tFile).1
  inum := by decide
  same := ⟨rfl, rfl, rfl⟩
  type := by decide +kernel
  dir := by decide +kernel

def beforeWriting : State Bool where
  off := 0
  ip := dinode smallSuperblock storeWithFile.disk 2
  store := storeWithFile
  lock := .nobody
  point := fun _ => .idle
  log := []
  calls := fun _ => []

def stepFn (s : State Bool) : Event Bool → Option (State Bool)
  | .fileread p dst n => s.call p (if writtenFile.readable then .read dst n else .readDone (-1))
  | .filewrite p src n =>
    s.call p (if writtenFile.writable then .write src n 0 else .writeDone src n (-1))
  | .go p => next writtenFile s p
  | .other _ _ _ => none

theorem step_of_stepFn {s t : State Bool} {e : Event Bool} (h : stepFn s e = some t) :
    Step writtenFile s e t := by
  cases e with
  | other ip store lock => cases h
  | _ => exact h

def writeBoth : List (Event Bool) :=
  [.filewrite false (fun k => some (UInt8.ofNat (65 + k))) 3,
    .filewrite true (fun k => some (UInt8.ofNat (97 + k))) 2] ++
    [.go false, .go true] ++ List.replicate 5 (.go true) ++ List.replicate 6 (.go false)

theorem initial_beforeWriting : Initial writtenFile beforeWriting :=
  ⟨by decide, sound_storeWithFile, nofun, fun _ => rfl, rfl, fun _ => rfl⟩

def parentDone : Point → Bool
  | .writeDone _ n r => n = 3 ∧ r = 3
  | _ => false

theorem shared_offset_loses_nothing_two_writers :
    ∃ s, Run (Step writtenFile) beforeWriting writeBoth s ∧
      s.off + s.pending = 0 + (s.log.map fun tr => tr.bytes.length).sum ∧
      s.log.map (fun tr => (tr.who, tr.off, tr.bytes)) =
        [(true, 0, [97, 98]), (false, 2, [65, 66, 67])] ∧
      ∃ src, Wrote (s.calls false) src 3 := by
  have hrun : (exec stepFn beforeWriting writeBoth).any (fun s => parentDone (s.point false) ∧
      s.log.map (fun tr => (tr.who, tr.off, tr.bytes)) =
        [(true, 0, [97, 98]), (false, 2, [65, 66, 67])]) = true := by decide +kernel
  obtain ⟨s, hs, hdone, hlog⟩ := exists_of_any hrun
  have hsteps : Run (Step writtenFile) beforeWriting writeBoth s :=
    (run_of_exec hs).mono fun _ _ _ => step_of_stepFn
  obtain ⟨-, -, hoff, -, -, hwritten⟩ :=
    shared_offset_loses_nothing writtenFile initial_beforeWriting hsteps
  refine ⟨s, hsteps, hoff, hlog, ?_⟩
  generalize hp : s.point false = l at hdone
  cases l with
  | writeDone src n r =>
    obtain ⟨rfl, rfl⟩ := of_decide_eq_true hdone
    exact ⟨src, (hwritten false src 3 3 hp (by decide) rfl).2.2⟩
  | _ => cases hdone

end Xv6.SharedOffsets
