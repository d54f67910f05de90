import Xv6.SequentialFileSystem
import Mathlib.Algebra.Order.BigOperators.Group.Finset
import Mathlib.Data.Fintype.Option
import Mathlib.Data.Fintype.Prod

/-!
# What the steps of a system call preserve

The assertion carried through a system call lists the references that the call holds in its
variables, and the inodes it has locked with their in-memory fields. Each step turns
such an assertion into the next one, and the blocks of the file system stay exactly owned.
-/

namespace Xv6.Fs
open Function

open OperationPrograms LittleEndianBlocks CountingProcesses

variable {P : Type} [Fintype P]

namespace State

/-- Where a process keeps a reference to an inode between system calls: its current
directory, and its open files. -/
def keeps (s : State P) : P × Option (Fin nOFile) → Option Slot
  | (p, none) => s.cwd p
  | (p, some fd) => (s.ofile p fd).map File.ip

/-- How many references to an entry the processes keep between system calls. -/
def kept (s : State P) (x : Slot) : ℕ := ∑ k, if s.keeps k = some x then 1 else 0

theorem kept_pos {s : State P} {x : Slot} {k : P × Option (Fin nOFile)}
    (h : s.keeps k = some x) : 0 < s.kept x := by
  refine Finset.sum_pos' (fun _ _ => Nat.zero_le _) ⟨k, Finset.mem_univ k, ?_⟩
  rw [if_pos h]
  exact Nat.one_pos

variable [DecidableEq P]

theorem kept_update {s s' : State P} {k : P × Option (Fin nOFile)} {v : Option Slot}
    (h : s'.keeps = update s.keeps k v) (x : Slot) :
    s'.kept x + (if s.keeps k = some x then 1 else 0) =
      s.kept x + if v = some x then 1 else 0 := by
  rw [kept, kept, h]
  exact sum_update (fun v : Option Slot => if v = some x then 1 else 0) s.keeps k v

omit [Fintype P] in
theorem keeps_setCwd (s : State P) (p : P) (c : Option Slot) :
    (s.setCwd p c).keeps = update s.keeps (p, none) c := by
  funext ⟨q, fd⟩
  by_cases hq : q = p <;> cases fd <;> simp [keeps, setCwd, hq]

omit [Fintype P] in
theorem keeps_setFile (s : State P) (p : P) (fd : Fin nOFile) (f : Option File) :
    (s.setFile p fd f).keeps = update s.keeps (p, some fd) (f.map File.ip) := by
  funext ⟨q, fd'⟩
  by_cases hq : q = p <;> cases fd' with
  | none => simp [keeps, setFile, hq]
  | some fd' =>
    by_cases hfd : fd' = fd <;> simp [keeps, setFile, hq, hfd]

end State

/-- What holds while process `p` runs a system call that has the references `R` in its
variables and the inodes `L` locked. -/
structure Inv (sb : Superblock) (p : P) (R : List Slot) (L : List (Slot × Dinode))
    (s : State P) : Prop where
  clean : Clean sb s.store
  refs : ∀ x, (s.table x).ref = R.count x + s.kept x
  unique : ∀ x y, 0 < (s.table x).ref → 0 < (s.table y).ref →
    (s.table x).inum = (s.table y).inum → x = y
  inums : ∀ x, 0 < (s.table x).ref → (s.table x).inum < sb.ninodes
  locks : ∀ x, (s.table x).lock = if x ∈ L.map Prod.fst then some p else none
  nodup : (L.map Prod.fst).Nodup
  locked : ∀ x c, (x, c) ∈ L → 0 < (s.table x).ref ∧ (s.table x).valid = true ∧
    (s.table x).copy = c
  coherent : ∀ x, 0 < (s.table x).ref → (s.table x).valid = true →
    SameBlocks (s.table x).copy (dinode sb s.store.disk (s.table x).inum) ∧
      (s.table x).copy.type ≠ 0
  files : ∀ q fd f, s.ofile q fd = some f → f.writable = true →
    (s.table f.ip).valid = true ∧ (s.table f.ip).copy.type ≠ tDir

variable {sb : Superblock} {p : P} {R R' : List Slot} {L L' : List (Slot × Dinode)}
  {s : State P} {ip : Slot}

theorem Inv.perm (h : Inv sb p R L s) (hR : R.Perm R') (hL : L.Perm L') : Inv sb p R' L' s where
  clean := h.clean
  refs x := by rw [← hR.count_eq]; exact h.refs x
  unique := h.unique
  inums := h.inums
  locks x := by simp only [h.locks x, (hL.map Prod.fst).mem_iff]
  nodup := (hL.map Prod.fst).nodup_iff.mp h.nodup
  locked x c hc := h.locked x c (hL.mem_iff.mpr hc)
  coherent := h.coherent
  files := h.files

theorem Inv.entry (h : Inv sb p R L s) {e : Inode P} {st : Store} (hclean : Clean sb st)
    (hdinodes : ∀ x, x ≠ ip → 0 < (s.table x).ref → (s.table x).valid = true →
      dinode sb st.disk (s.table x).inum = dinode sb s.store.disk (s.table x).inum)
    (hrefs : e.ref = R'.count ip + s.kept ip)
    (hrefs' : ∀ x, x ≠ ip → R'.count x = R.count x)
    (hunique : 0 < e.ref → ∀ x, x ≠ ip → 0 < (s.table x).ref → (s.table x).inum ≠ e.inum)
    (hinum : 0 < e.ref → e.inum < sb.ninodes)
    (hlock : e.lock = if ip ∈ L'.map Prod.fst then some p else none)
    (hL : ∀ x, x ≠ ip → ∀ c, (x, c) ∈ L' ↔ (x, c) ∈ L) (hnodup : (L'.map Prod.fst).Nodup)
    (hlocked : ∀ c, (ip, c) ∈ L' → 0 < e.ref ∧ e.valid = true ∧ e.copy = c)
    (hcoherent : 0 < e.ref → e.valid = true →
      SameBlocks e.copy (dinode sb st.disk e.inum) ∧ e.copy.type ≠ 0)
    (hfiles : 0 < s.kept ip → (s.table ip).valid = true →
      e.valid = true ∧ e.copy.type = (s.table ip).copy.type) :
    Inv sb p R' L' { s with table := update s.table ip e, store := st } where
  clean := hclean
  refs := (forall_update_iff s.table fun x e => e.ref = R'.count x + s.kept x).mpr
    ⟨hrefs, fun x hx => (h.refs x).trans (by rw [hrefs' x hx])⟩
  unique x y := by
    have hself : update s.table ip e ip = e := update_self ..
    have hother {x : Slot} (hx : x ≠ ip) : update s.table ip e x = s.table x := update_of_ne hx ..
    by_cases hx : x = ip <;> by_cases hy : y = ip
    · intros
      rw [hx, hy]
    · subst hx
      simp only [hself, hother hy]
      exact fun hx hy' heq => absurd heq.symm (hunique hx y hy hy')
    · subst hy
      simp only [hself, hother hx]
      exact fun hx' hy heq => absurd heq (hunique hy x hx hx')
    · simp only [hother hx, hother hy]
      exact h.unique x y
  inums := (forall_update_iff s.table fun _ e => 0 < e.ref → e.inum < sb.ninodes).mpr
    ⟨hinum, fun x _ => h.inums x⟩
  locks := by
    have hmem {x : Slot} (hx : x ≠ ip) : x ∈ L'.map Prod.fst ↔ x ∈ L.map Prod.fst := by
      simp only [List.mem_map, Prod.exists, exists_and_right, exists_eq_right, hL x hx]
    refine (forall_update_iff s.table fun x e =>
      e.lock = if x ∈ L'.map Prod.fst then some p else none).mpr ⟨hlock, fun x hx => ?_⟩
    simp only [hmem hx]
    exact h.locks x
  nodup := hnodup
  locked := (forall_update_iff s.table fun x e =>
      ∀ c, (x, c) ∈ L' → 0 < e.ref ∧ e.valid = true ∧ e.copy = c).mpr
    ⟨hlocked, fun x hx c hc => h.locked x c ((hL x hx c).mp hc)⟩
  coherent := (forall_update_iff s.table fun _ e => 0 < e.ref → e.valid = true →
      SameBlocks e.copy (dinode sb st.disk e.inum) ∧ e.copy.type ≠ 0).mpr
    ⟨hcoherent, fun x hx href hv => by rw [hdinodes x hx href hv]; exact h.coherent x href hv⟩
  files q fd f hf hw := by
    obtain ⟨hvalid, hdir⟩ := h.files q fd f hf hw
    refine (forall_update_iff s.table fun x e => f.ip = x → e.valid = true ∧
      e.copy.type ≠ tDir).mpr ⟨fun hx => ?_, fun x _ hx => hx ▸ ⟨hvalid, hdir⟩⟩ f.ip rfl
    replace hf : s.ofile q fd = some f := hf
    have hkept : 0 < s.kept ip :=
      State.kept_pos (k := (q, some fd)) (by simp [State.keeps, hf, hx])
    obtain ⟨hv, ht⟩ := hfiles hkept (hx ▸ hvalid)
    exact ⟨hv, by rw [ht, ← hx]; exact hdir⟩

theorem Inv.inum_ne (h : Inv sb p R L s) (href : 0 < (s.table ip).ref) (x : Slot) (hx : x ≠ ip)
    (hxr : 0 < (s.table x).ref) : (s.table x).inum ≠ (s.table ip).inum :=
  fun heq => hx (h.unique x ip hxr href heq)

/-- A reference to an inode is taken or given up. -/
theorem Inv.recount (h : Inv sb p R L s) (href : 0 < (s.table ip).ref) {n : ℕ}
    (hn : n = R'.count ip + s.kept ip) (hcount : ∀ x, x ≠ ip → R'.count x = R.count x)
    (hlocked : ip ∈ L.map Prod.fst → 0 < n) :
    Inv sb p R' L { s with table := update s.table ip { s.table ip with ref := n } } :=
  h.entry h.clean (fun _ _ _ _ => rfl) hn hcount (fun _ => h.inum_ne href)
    (fun _ => h.inums ip href) (h.locks ip) (fun _ _ _ => Iff.rfl) h.nodup
    (fun c hc => ⟨hlocked (List.mem_map_of_mem hc), (h.locked ip c hc).2⟩)
    (fun _ => h.coherent ip href) fun _ hv => ⟨hv, rfl⟩

/-- The block layer's panics and the reads of directories that come up short must not
happen; a run may end in any other way. -/
def Tolerated : Stop → Prop
  | .panic e => e ∉ [Panic.freeingFreeBlock, .bmapOutOfRange, .dirlookupRead, .dirlinkRead,
      .isdiremptyReadi]
  | _ => True

section Steps

variable [DecidableEq P] {α β : Type}

/-- The program, run by process `p` from the state `s`, ends with `Q` or stops in a tolerated
way. -/
def Runs (sb : Superblock) (p : P) (m : FsProg α) (Q : α → State P → Prop) (s : State P) : Prop :=
  m.wp (Prog.guarantee (perform sb p) Tolerated) Q s

omit [Fintype P] in
theorem Runs.bind {m : FsProg α} {f : α → FsProg β} {Q : α → State P → Prop}
    {Q' : β → State P → Prop} (hm : Runs sb p m Q s)
    (hf : ∀ a s', Q a s' → Runs sb p (f a) Q' s') : Runs sb p (m >>= f) Q' s := by
  rw [Runs, Prog.wp_bind]
  exact Prog.wp_mono (Prog.guarantee_monotone _ _) hf hm

omit [Fintype P] in
theorem Runs.mono {m : FsProg α} {Q Q' : α → State P → Prop} (hm : Runs sb p m Q s)
    (h : ∀ a s', Q a s' → Q' a s') : Runs sb p m Q' s :=
  Prog.wp_mono (Prog.guarantee_monotone _ _) h hm

omit [Fintype P] in
theorem runs_panic {e : Panic} {Q : α → State P → Prop} (h : Tolerated (.panic e)) :
    Runs sb p (panic e) Q s := h

omit [Fintype P] in
theorem runs_step (op : FsOp) {Q : op.Res → State P → Prop}
    (h : Ends Tolerated (fun r => Q r.1 r.2) (perform sb p op s)) : Runs sb p (step op) Q s := h

def KeepsPlaces : FsOp → Prop
  | .takeCwd | .setCwd _ | .fdalloc _ _ _ | .takeFile _ | .setOff _ _ => False
  | _ => True

omit [Fintype P] in
theorem perform_places {op : FsOp} (hop : KeepsPlaces op) (s : State P) (r : op.Res)
    (s' : State P) (h : perform sb p op s = .ok (r, s')) :
    (s'.cwd, s'.ofile) = (s.cwd, s.ofile) := by
  cases op <;> simp only [KeepsPlaces] at hop <;> simp only [perform] at h <;>
    (repeat' split at h) <;> first
      | (cases h <;> rfl)
      | (generalize raise _ = x at h
         cases x <;> cases h; rfl)

omit [Fintype P] in
theorem Runs.places {m : FsProg α} {Q : α → State P → Prop} (hm : Runs sb p m Q s)
    (huses : m.Uses KeepsPlaces) :
    Runs sb p m (fun a s' => Q a s' ∧ s'.cwd = s.cwd ∧ s'.ofile = s.ofile) s :=
  (show Runs sb p m (fun a s' => Q a s' ∧ (s'.cwd, s'.ofile) = (s.cwd, s.ofile)) s from
    Prog.wp_frame (fun s : State P => (s.cwd, s.ofile)) (fun _ => perform_places) huses hm).mono
    fun _ _ h => ⟨h.1, Prod.mk.inj h.2⟩

omit [Fintype P] [DecidableEq P] in
theorem ends_raise {x : Except Panic α} {Q : α → Prop} (h : Ends (fun _ => False) Q x) :
    Ends Tolerated Q (raise x) := by
  cases x with
  | ok a => exact h
  | error e => exact h.elim

theorem iget_runs (h : Inv sb p R L s) {i : ℕ} (hi : i < sb.ninodes) :
    Runs sb p (iget i)
      (fun ip s' => Inv sb p (ip :: R) L s' ∧ s'.store = s.store ∧ (s'.table ip).inum = i) s := by
  refine runs_step (.iget i) ?_
  simp only [perform]
  split
  · simp [Tolerated]
  · rename_i ip table hget
    have hcount : ∀ x, x ≠ ip → (ip :: R).count x = R.count x := fun x hx => by
      simp [Ne.symm hx]
    rcases Table.iget_cases hget with ⟨href, hinum, rfl⟩ | ⟨href, hfresh, rfl⟩
    · refine ⟨h.recount href ?_ hcount fun _ => Nat.succ_pos _, rfl, by simp [hinum]⟩
      rw [h.refs ip, List.count_cons_self]
      omega
    · have hnotlocked : ∀ c, (ip, c) ∉ L := fun c hc => by
        have hl := (h.locked ip c hc).1
        omega
      refine ⟨h.entry h.clean (fun _ _ _ _ => rfl) ?_ hcount ?_ (fun _ => hi)
        (h.locks ip) (fun _ _ _ => Iff.rfl) h.nodup (fun c hc => absurd hc (hnotlocked c))
        (fun _ hv => by cases hv) ?_, rfl, ?_⟩
      · have hr := h.refs ip
        simp only [List.count_cons_self]
        omega
      · intro _ x _ hxr
        exact hfresh x hxr
      · intro hk
        have hr := h.refs ip
        omega
      · simp

theorem idup_runs (h : Inv sb p R L s) (href : 0 < (s.table ip).ref) :
    Runs sb p (idup ip) (fun _ s' => Inv sb p (ip :: R) L s') s := by
  refine runs_step (.idup ip) (h.recount href ?_ (fun x hx => ?_) fun _ => Nat.succ_pos _)
  · rw [h.refs ip, List.count_cons_self]
    omega
  · simp [Ne.symm hx]

theorem ilock_runs (h : Inv sb p R L s) (href : 0 < (s.table ip).ref) :
    Runs sb p (ilock ip)
      (fun _ s' => ∃ c, c.type = (dinode sb s.store.disk (s.table ip).inum).type ∧ c.type ≠ 0 ∧
        Inv sb p R ((ip, c) :: L) s') s := by
  refine Runs.bind (Q := fun _ s' =>
    (s.table ip).lock = none ∧ s' = s.modify ip fun x => { x with lock := some p })
    (runs_step (.acquire ip) ?_) ?_
  · simp only [perform]
    split
    · simp [Tolerated]
    · split
      · exact ⟨‹_›, rfl⟩
      · simp [Tolerated]
  rintro - s₁ ⟨hlock, rfl⟩
  have hnot : ip ∉ L.map Prod.fst := by
    intro hmem
    have hl := h.locks ip
    rw [if_pos hmem, hlock] at hl
    cases hl
  have hL (c c' : Dinode) (x : Slot) (hx : x ≠ ip) : (x, c') ∈ (ip, c) :: L ↔ (x, c') ∈ L := by
    simp [hx]
  -- the entry after the lock was taken and the fields were read
  have hentry (c : Dinode)
      (hc : SameBlocks c (dinode sb s.store.disk (s.table ip).inum) ∧ c.type ≠ 0)
      (hkeep : (s.table ip).valid = true → c.type = (s.table ip).copy.type) :
      Inv sb p R ((ip, c) :: L) { s with
        table := update s.table ip
          { s.table ip with lock := some p, valid := true, copy := c } } := by
    refine h.entry h.clean (fun _ _ _ _ => rfl) (h.refs ip) (fun _ _ => rfl)
      (fun _ => h.inum_ne href) (fun _ => h.inums ip href) (by simp)
      (fun x hx c' => hL c c' x hx) ?_ ?_ (fun _ _ => hc) (fun _ hv => ⟨rfl, hkeep hv⟩)
    · exact List.nodup_cons.mpr ⟨hnot, h.nodup⟩
    · intro c' hc'
      rcases List.mem_cons.mp hc' with heq | hmem
      · cases heq
        exact ⟨href, rfl, rfl⟩
      · exact absurd (List.mem_map_of_mem hmem) hnot
  refine runs_step (.load ip) ?_
  simp only [perform, State.modify, Table.modify_self]
  split
  · rename_i hv
    have hco := h.coherent ip href hv
    refine ⟨(s.table ip).copy, hco.1.1, hco.2, ?_⟩
    have hi := hentry _ hco fun _ => rfl
    rw [← hv] at hi
    exact hi
  · rename_i hv
    split
    · simp [Tolerated]
    · rename_i ht
      refine ⟨_, rfl, ht, ?_⟩
      have hi := hentry _ ⟨⟨rfl, rfl, rfl⟩, ht⟩ fun hv' => absurd hv' hv
      simp only [Table.modify, update_idem, update_self]
      exact hi

variable {c : Dinode}

theorem iunlock_runs (h : Inv sb p R ((ip, c) :: L) s) :
    Runs sb p (iunlock ip) (fun _ s' => Inv sb p R L s') s := by
  refine runs_step (.iunlock ip) ?_
  have hnodup := h.nodup
  simp only [List.map_cons, List.nodup_cons] at hnodup
  obtain ⟨href, -⟩ := h.locked ip c List.mem_cons_self
  simp only [perform]
  split
  · refine h.entry h.clean (fun _ _ _ _ => rfl) (h.refs ip) (fun _ _ => rfl)
      (fun _ => h.inum_ne href) (fun _ => h.inums ip href) ?_ ?_ hnodup.2 ?_
      (fun _ => h.coherent ip href) (fun _ hv => ⟨hv, rfl⟩)
    · simp [hnodup.1]
    · intro x hx c'
      simp [hx]
    · intro c' hc'
      exact absurd (List.mem_map_of_mem hc') hnodup.1
  · simp [Tolerated]

omit [Fintype P] in
theorem runs_ok (op : FsOp) {r : op.Res} {s' : State P} {Q : op.Res → State P → Prop}
    (hp : perform sb p op s = .ok (r, s')) (h : Q r s') : Runs sb p (step op) Q s :=
  runs_step op (by rw [hp]; exact h)

omit [Fintype P] in
theorem runs_bind_ok (op : FsOp) {r : op.Res} {s' : State P} {f : op.Res → FsProg α}
    {Q : α → State P → Prop} (hp : perform sb p op s = .ok (r, s'))
    (h : Runs sb p (f r) Q s') : Runs sb p (step op >>= f) Q s :=
  Runs.bind (runs_ok op (Q := fun a t => a = r ∧ t = s') hp ⟨rfl, rfl⟩) fun a t ⟨ha, ht⟩ => by
    rw [ha, ht]
    exact h

theorem iput_runs (h : Inv sb p (ip :: R) L s) (hL : ip ∈ L.map Prod.fst → ip ∈ R) :
    Runs sb p (iput ip) (fun _ s' => Inv sb p R L s') s := by
  have href : (s.table ip).ref = R.count ip + s.kept ip + 1 := by
    rw [h.refs ip, List.count_cons_self]
    omega
  have hcount : ∀ x, x ≠ ip → R.count x = (ip :: R).count x := fun x hx => by
    simp [Ne.symm hx]
  have hpos : 0 < (s.table ip).ref := by omega
  have hother := h.inum_ne hpos
  refine Runs.bind (Q := fun r s' =>
    (r = true ∧ Table.frees (s.table ip) ∧ s' = s.modify ip fun x => { x with lock := some p }) ∨
      (r = false ∧ Inv sb p R L s')) (runs_step (.iputTest ip) ?_) ?_
  · simp only [perform]
    split
    · split
      · exact .inl ⟨rfl, ‹_›, rfl⟩
      · simp [Tolerated]
    · refine .inr ⟨rfl, h.recount hpos (by omega) hcount fun hmem => ?_⟩
      have hR := List.count_pos_iff.mpr (hL hmem)
      omega
  rintro r s₁ (⟨rfl, hfrees, rfl⟩ | ⟨rfl, hinv⟩)
  · simp only [Table.frees, Bool.decide_and, Bool.and_eq_true, decide_eq_true_eq] at hfrees
    obtain ⟨hone, hvalid, -⟩ := hfrees
    obtain ⟨hsame, htype⟩ := h.coherent ip hpos hvalid
    have hi := h.inums ip hpos
    have hR : R.count ip = 0 ∧ s.kept ip = 0 := by omega
    have hnot : ip ∉ L.map Prod.fst := fun hmem => by
      have hc := List.count_pos_iff.mpr (hL hmem)
      omega
    refine Runs.bind (Q := fun _ s' => ∃ st, Settled sb s.store (s.table ip).inum st
        { (s.table ip).copy with addrs := fun _ => 0, size := 0 } ∧
      s' = (s.modify ip fun x => { x with lock := some p }).settle ip st
        { (s.table ip).copy with addrs := fun _ => 0, size := 0 }) (runs_step (.itrunc ip) ?_) ?_
    · simp only [perform, State.modify, Table.modify_self]
      refine Ends.bind ((ends_raise (itrunc_keeps h.clean hi hsame htype)).mono ?_)
      rintro ⟨c, st⟩ ⟨hs, rfl⟩
      exact ⟨st, hs, rfl⟩
    rintro - s₂ ⟨st, hst, rfl⟩
    refine runs_bind_ok (.setType ip 0) rfl (runs_bind_ok (.iupdate ip) rfl
      (runs_bind_ok (.invalidate ip) rfl (runs_bind_ok (.releasesleep ip) rfl
        (runs_ok (.iputDrop ip) rfl ?_))))
    simp only [State.modify, State.settle, Table.modify, update_idem,
      update_self]
    have hnone (q : Pos) :
        owns sb st.disk (dinode sb st.disk) ((s.table ip).inum, q) = none := by
      have haddrs (k : Fin (nDirect + 1)) :
          (dinode sb st.disk (s.table ip).inum).addrs k = 0 := by rw [← hst.same.2.2]
      cases q with
      | addr k => simp [owns, ptr, haddrs, toBlock]
      | entry j => simp [owns, ptr, entryAt, Dinode.indirect, haddrs, toBlock]
    have herased : Settled sb st (s.table ip).inum
        (st.iupdate sb (s.table ip).inum
          { (s.table ip).copy with type := 0, addrs := fun _ => 0, size := 0 })
        { (s.table ip).copy with type := 0, addrs := fun _ => 0, size := 0 } :=
      hst.clean.overwrite hi hnone (fun _ => rfl) rfl
    refine h.entry herased.clean ?_ ?_ hcount (fun hlt => ?_) (fun hlt => ?_) ?_
      (fun _ _ _ => Iff.rfl) h.nodup (fun c hc => absurd (List.mem_map_of_mem hc) hnot)
      (fun _ hv => ?_) (fun hk => ?_)
    · intro x hx hxr hv
      rw [herased.dinodes _ (h.inums x hxr) (hother x hx hxr),
        hst.dinodes _ (h.inums x hxr) (hother x hx hxr)]
    · simp only [hone]
      omega
    · simp only [hone] at hlt
      omega
    · simp only [hone] at hlt
      omega
    · simp [hnot]
    · cases hv
    · omega
  · exact hinv

theorem iput_uses (ip : Slot) : (iput ip).Uses KeepsPlaces := by
  refine Prog.Uses.bind (m := iputTest ip) ⟨trivial, fun _ => trivial⟩ fun r => ?_
  cases r with
  | false => exact trivial
  | true => exact ⟨trivial, fun _ => ⟨trivial, fun _ => ⟨trivial, fun _ => ⟨trivial, fun _ =>
      ⟨trivial, fun _ => ⟨trivial, fun _ => trivial⟩⟩⟩⟩⟩⟩

theorem iunlockput_runs (h : Inv sb p (ip :: R) ((ip, c) :: L) s) :
    Runs sb p (iunlockput ip) (fun _ s' => Inv sb p R L s') s := by
  refine Runs.bind (iunlock_runs h) fun _ s' h' => iput_runs h' fun hmem => ?_
  exact absurd hmem (List.nodup_cons.mp h.nodup).1

omit [DecidableEq P] in
theorem Inv.ref_pos_of_keeps (h : Inv sb p R L s) {k : P × Option (Fin nOFile)} {x : Slot}
    (hk : s.keeps k = some x) : 0 < (s.table x).ref := by
  have hpos := State.kept_pos hk
  rw [h.refs x]
  omega

theorem Inv.places (h : Inv sb p R L s) {s' : State P} {k : P × Option (Fin nOFile)}
    {v : Option Slot} (htable : s'.table = s.table) (hdisk : s'.store.disk = s.store.disk)
    (hgrants : s'.store.grants = s.store.grants)
    (hkeeps : s'.keeps = update s.keeps k v)
    (hcount : ∀ x, R'.count x + (if v = some x then 1 else 0) =
      R.count x + if s.keeps k = some x then 1 else 0)
    (hfiles : ∀ q fd f, s'.ofile q fd = some f → f.writable = true →
      (s.table f.ip).valid = true ∧ (s.table f.ip).copy.type ≠ tDir) : Inv sb p R' L s' where
  clean := ⟨hdisk ▸ h.clean.view, hgrants ▸ h.clean.grants⟩
  refs x := by
    have hk := State.kept_update hkeeps x
    have hc := hcount x
    rw [htable, h.refs x]
    omega
  unique := htable ▸ h.unique
  inums := htable ▸ h.inums
  locks := htable ▸ h.locks
  nodup := h.nodup
  locked := htable ▸ h.locked
  coherent := by
    rw [htable, hdisk]
    exact h.coherent
  files := htable ▸ hfiles

theorem cwd_runs (h : Inv sb p R L s) :
    Runs sb p cwd (fun ip s' => s' = s ∧ 0 < (s.table ip).ref) s := by
  refine runs_step .cwd ?_
  simp only [perform]
  split
  · simp [Tolerated]
  · exact ⟨rfl, h.ref_pos_of_keeps (k := (p, none)) ‹_›⟩

theorem count_cons_eq (R : List Slot) (ip x : Slot) :
    (ip :: R).count x = R.count x + if some ip = some x then 1 else 0 := by
  simp [List.count_cons]

theorem takeCwd_runs (h : Inv sb p R L s) :
    Runs sb p takeCwd (fun ip s' => Inv sb p (ip :: R) L s' ∧ s'.cwd p = none) s := by
  refine runs_step .takeCwd ?_
  simp only [perform]
  split
  · simp [Tolerated]
  · rename_i ip hcwd
    refine ⟨h.places (k := (p, none)) (v := none) rfl rfl rfl (s.keeps_setCwd p none) ?_
      h.files, by simp [State.setCwd]⟩
    intro x
    rw [count_cons_eq, show s.keeps (p, none) = some ip from hcwd]
    simp

theorem setCwd_runs (h : Inv sb p (ip :: R) L s) (hcwd : s.cwd p = none) :
    Runs sb p (setCwd ip) (fun _ s' => Inv sb p R L s') s := by
  refine runs_ok (.setCwd ip) rfl (h.places (k := (p, none)) (v := some ip) rfl rfl rfl
    (s.keeps_setCwd p (some ip)) ?_ h.files)
  intro x
  rw [count_cons_eq, show s.keeps (p, none) = none from hcwd]
  simp

omit [Fintype P] in
theorem argfd_runs (fd : ℕ) :
    Runs sb p (argfd fd)
      (fun r s' => s' = s ∧ ∀ f, r = some f → ∃ h : fd < nOFile, s.ofile p ⟨fd, h⟩ = some f) s := by
  refine runs_ok (.argfd fd) rfl ⟨rfl, fun f hf => ?_⟩
  simp only [State.file] at hf
  split at hf
  · exact ⟨‹_›, hf⟩
  · cases hf

theorem takeFile_runs (h : Inv sb p R L s) (fd : ℕ) :
    Runs sb p (takeFile fd) (fun ip s' => Inv sb p (ip :: R) L s') s := by
  refine runs_step (.takeFile fd) ?_
  simp only [perform]
  split
  · rename_i hfd
    split
    · simp [Tolerated]
    · rename_i f hf
      refine h.places (k := (p, some ⟨fd, hfd⟩)) (v := none) rfl rfl rfl
        (s.keeps_setFile p ⟨fd, hfd⟩ none) ?_ ?_
      · intro x
        rw [count_cons_eq, show s.keeps (p, some ⟨fd, hfd⟩) = some f.ip by
          simp [State.keeps, hf]]
        simp
      · intro q fd' f' hf'
        refine h.files q fd' f' ?_
        by_cases hq : q = p <;> by_cases hfd' : fd' = ⟨fd, hfd⟩ <;>
          simp_all [State.setFile]
  · simp [Tolerated]

theorem fdalloc_runs (h : Inv sb p (ip :: R) L s) (hc : (ip, c) ∈ L) (readable : Bool)
    {writable : Bool} (hw : writable = true → c.type ≠ tDir) :
    Runs sb p (fdalloc ip readable writable)
      (fun r s' => Inv sb p (if r = none then ip :: R else R) L s') s := by
  refine runs_step (.fdalloc ip readable writable) ?_
  change Inv sb p (if (s.fdalloc p ip readable writable).1 = none then ip :: R else R) L
    (s.fdalloc p ip readable writable).2
  obtain ⟨-, hvalid, hcopy⟩ := h.locked ip c hc
  have hsame : Inv sb p (ip :: R) L
      { s with store := { s.store with calls := s.store.calls + 1 } } :=
    ⟨⟨h.clean.view, h.clean.grants⟩, h.refs, h.unique, h.inums, h.locks, h.nodup, h.locked,
      h.coherent, h.files⟩
  generalize hr : s.fdalloc p ip readable writable = r
  simp only [State.fdalloc] at hr
  split at hr
  · subst hr
    exact hsame
  · split at hr
    · subst hr
      exact hsame
    · subst hr
      rename_i fd hfind
      have hfree : s.ofile p fd = none := by simpa using List.find?_some hfind
      simp only [reduceCtorEq, if_false]
      refine hsame.places (k := (p, some fd)) (v := some ip) rfl rfl rfl
        (State.keeps_setFile _ p fd _) ?_ ?_
      · intro x
        rw [count_cons_eq]
        simp [State.keeps, hfree]
      · intro q fd' f' hf' hw'
        by_cases hnew : q = p ∧ fd' = fd
        · obtain ⟨rfl, rfl⟩ := hnew
          simp only [State.setFile, update_self, Option.some.injEq] at hf'
          subst hf'
          exact ⟨hvalid, by rw [hcopy]; exact hw hw'⟩
        · refine h.files q fd' f' ?_ hw'
          by_cases hq : q = p
          · subst hq
            have hfd : fd' ≠ fd := fun hfd => hnew ⟨rfl, hfd⟩
            simpa [State.setFile, hfd] using hf'
          · simpa [State.setFile, hq] using hf'

def State.WritesTo (s : State P) (p : P) (fd : ℕ) (ip : Slot) : Prop :=
  ∃ (h : fd < nOFile) (f : File), s.ofile p ⟨fd, h⟩ = some f ∧ f.ip = ip ∧ f.writable = true

theorem setOff_runs (h : Inv sb p R L s) (fd off : ℕ) :
    Runs sb p (setOff fd off)
      (fun _ s' => Inv sb p R L s' ∧ ∀ ip, s.WritesTo p fd ip → s'.WritesTo p fd ip) s := by
  refine runs_step (.setOff fd off) ?_
  simp only [perform]
  split
  · rename_i hfd
    refine ⟨h.places (k := (p, some ⟨fd, hfd⟩)) (v := s.keeps (p, some ⟨fd, hfd⟩)) rfl rfl rfl
      ?_ (fun _ => rfl) ?_, ?_⟩
    · rw [State.keeps_setFile]
      congr 1
      cases hf : s.ofile p ⟨fd, hfd⟩ <;> simp [State.keeps, hf]
    · intro q fd' f' hf' hw'
      by_cases hnew : q = p ∧ fd' = ⟨fd, hfd⟩
      · obtain ⟨rfl, rfl⟩ := hnew
        simp only [State.setFile, update_self, Option.map_eq_some_iff] at hf'
        obtain ⟨f, hf, rfl⟩ := hf'
        exact h.files _ _ f hf hw'
      · refine h.files q fd' f' ?_ hw'
        by_cases hq : q = p
        · subst hq
          have hne : fd' ≠ ⟨fd, hfd⟩ := fun he => hnew ⟨rfl, he⟩
          simpa [State.setFile, hne] using hf'
        · simpa [State.setFile, hq] using hf'
    · rintro ip ⟨_, f, hf, hip, hw⟩
      exact ⟨hfd, { f with off }, by simp [State.setFile, hf], hip, hw⟩
  · simp [Tolerated]

omit [DecidableEq P] in
theorem Inv.copy_eq (h : Inv sb p R L s) (hc : (ip, c) ∈ L) :
    (s.table ip).copy = c := (h.locked ip c hc).2.2

omit [DecidableEq P] in
theorem Inv.on_disk (h : Inv sb p R L s) (hc : (ip, c) ∈ L) : (s.table ip).inum < sb.ninodes ∧
      SameBlocks c (dinode sb s.store.disk (s.table ip).inum) ∧ c.type ≠ 0 := by
  obtain ⟨href, hvalid, rfl⟩ := h.locked ip c hc
  exact ⟨h.inums ip href, h.coherent ip href hvalid⟩

theorem fields_runs (h : Inv sb p R L s) (hc : (ip, c) ∈ L) :
    Runs sb p (fields ip) (fun d s' => d = c ∧ s' = s) s :=
  runs_ok (.fields ip) rfl ⟨h.copy_eq hc, rfl⟩

omit [DecidableEq P] in
theorem Inv.settle {c c' : Dinode} (h : Inv sb p R ((ip, c) :: L) s) {st : Store}
    (hs : Settled sb s.store (s.table ip).inum st c') (ht : c'.type = c.type) :
    Inv sb p R ((ip, c') :: L) (s.settle ip st c') := by
  obtain ⟨href, hvalid, hcopy⟩ := h.locked ip c List.mem_cons_self
  have hnot : ip ∉ L.map Prod.fst := (List.nodup_cons.mp h.nodup).1
  have hother := h.inum_ne href
  refine h.entry hs.clean (fun x hx hxr _ => hs.dinodes _ (h.inums x hxr) (hother x hx hxr))
    (h.refs ip) (fun _ _ => rfl) (fun _ x hx hxr => hother x hx hxr) (fun _ => h.inums ip href)
    (h.locks ip) ?_ h.nodup ?_ ?_ ?_
  · intro x hx c''
    simp [hx]
  · intro c'' hc''
    rcases List.mem_cons.mp hc'' with heq | hmem
    · cases heq
      exact ⟨href, hvalid, rfl⟩
    · exact absurd (List.mem_map_of_mem hmem) hnot
  · intro _ _
    refine ⟨hs.same, ?_⟩
    rw [ht, ← hcopy]
    exact (h.coherent ip href hvalid).2
  · intro _ hv
    exact ⟨hv, by rw [ht, hcopy]⟩

omit [DecidableEq P] [Fintype P] in
theorem settle_same (s : State P) (ip : Slot) :
    s.settle ip s.store (s.table ip).copy = s := by
  simp [State.settle, State.modify, Table.modify]

omit [DecidableEq P] in
theorem Inv.set {c c' : Dinode} (h : Inv sb p R ((ip, c) :: L) s) (hc : SameBlocks c' c) :
    Inv sb p R ((ip, c') :: L) (s.modify ip fun x => { x with copy := c' }) := by
  obtain ⟨-, hsame, -⟩ := h.on_disk (show (ip, c) ∈ (ip, c) :: L from List.mem_cons_self)
  exact h.settle (.refl h.clean ⟨hc.1.trans hsame.1, hc.2.1.trans hsame.2.1,
    hc.2.2.trans hsame.2.2⟩) hc.1

theorem setNlink_runs (h : Inv sb p R ((ip, c) :: L) s) (nlink : Int16) :
    Runs sb p (setNlink ip nlink) (fun _ s' => Inv sb p R ((ip, { c with nlink }) :: L) s') s := by
  refine runs_ok (.setNlink ip nlink) rfl ?_
  have hcopy := h.copy_eq List.mem_cons_self
  subst hcopy
  exact h.set ⟨rfl, rfl, rfl⟩

theorem setDev_runs (h : Inv sb p R ((ip, c) :: L) s) (major minor : Int16) :
    Runs sb p (step (.setDev ip major minor))
      (fun _ s' => Inv sb p R ((ip, { c with major, minor }) :: L) s') s := by
  refine runs_ok (.setDev ip major minor) rfl ?_
  have hcopy := h.copy_eq List.mem_cons_self
  subst hcopy
  exact h.set ⟨rfl, rfl, rfl⟩

theorem iupdate_runs (h : Inv sb p R ((ip, c) :: L) s) :
    Runs sb p (iupdate ip) (fun _ s' => Inv sb p R ((ip, c) :: L) s') s := by
  refine runs_ok (.iupdate ip) rfl ?_
  obtain ⟨hi, hsame, ht⟩ := h.on_disk List.mem_cons_self
  have hheld := h.clean.held hi hsame ht
  have hcopy := h.copy_eq List.mem_cons_self
  have hs : Settled sb s.store (s.table ip).inum
      (s.store.iupdate sb (s.table ip).inum c) c :=
    settled_of_iupdate hheld.view h.clean.grants hi hheld.fits fun _ _ => rfl
  have hnew := h.settle hs rfl
  subst hcopy
  simpa [State.settle, State.modify, Table.modify] using hnew

theorem itrunc_runs (h : Inv sb p R ((ip, c) :: L) s) : Runs sb p (itrunc ip)
      (fun _ s' => ∃ c', c'.type = c.type ∧ Inv sb p R ((ip, c') :: L) s') s := by
  refine runs_step (.itrunc ip) ?_
  obtain ⟨hi, hsame, ht⟩ := h.on_disk List.mem_cons_self
  simp only [perform, h.copy_eq List.mem_cons_self]
  refine Ends.bind ((ends_raise (itrunc_keeps h.clean hi hsame ht)).mono ?_)
  rintro ⟨c', st⟩ ⟨hs, rfl⟩
  exact ⟨{ c with addrs := fun _ => 0, size := 0 }, rfl, h.settle hs rfl⟩

theorem readDirent_runs (h : Inv sb p R L s) (hc : (ip, c) ∈ L) (ht : c.type = tDir) {n : ℕ}
    (hn : n * direntSize < c.size) : Runs sb p (readDirent ip (n * direntSize))
      (fun r s' => s' = s ∧ ∃ de, r = some de ∧ de.inum < sb.ninodes) s := by
  obtain ⟨hi, hsame, ht0⟩ := h.on_disk hc
  have hwf := (h.clean.held hi hsame ht0).wellFormed
  have hstep : perform sb p (.readDirent ip (n * direntSize)) s =
      .ok (some (decodeDirent (getBytes
        (s.store.disk (ptr s.store.disk c (dataPos (n * direntSize / bSize))))
        (n * direntSize % bSize) direntSize)), s) := by
    simp only [perform, h.copy_eq hc, readi_dirent hwf ht _ hn]
    change Except.ok (if (direntSize : ℤ) = direntSize then some (decodeDirent _) else none,
      s.settle ip s.store c) = _
    rw [if_pos rfl, ← h.copy_eq hc, settle_same]
    rfl
  exact runs_ok _ hstep ⟨rfl, _, rfl, hwf.entries ht n hn⟩

theorem writeDirent_runs (h : Inv sb p R ((ip, c) :: L) s) (ht : c.type = tDir) {n : ℕ}
    (hn : n * direntSize ≤ c.size) {de : Dirent} (hde : de.inum < 2 ^ 16)
    (hino : de.inum < sb.ninodes) : Runs sb p (writeDirent ip (n * direntSize) de)
      (fun _ s' => ∃ c', c'.type = c.type ∧ Inv sb p R ((ip, c') :: L) s') s := by
  refine runs_step (.writeDirent ip (n * direntSize) de) ?_
  obtain ⟨hi, hsame, -⟩ := h.on_disk List.mem_cons_self
  simp only [perform, h.copy_eq List.mem_cons_self]
  refine Ends.bind ((ends_raise (writei_dirent h.clean hi hsame ht hn de hde hino)).mono ?_)
  rintro ⟨r, c', st⟩ ⟨hs, ht'⟩
  exact ⟨c', ht', h.settle hs ht'⟩

theorem readi_runs (h : Inv sb p R L s) (hc : (ip, c) ∈ L) (dst : ℕ → Bool) (off n : ℕ) :
    Runs sb p (readi ip dst off n) (fun _ s' => s' = s) s := by
  refine runs_step (.readi ip dst off n) ?_
  obtain ⟨hi, hsame, ht⟩ := h.on_disk hc
  have hwf := (h.clean.held hi hsame ht).wellFormed
  simp only [perform, h.copy_eq hc]
  rw [hwf.holeFree.readi_eq _ dst rfl, ← h.copy_eq hc]
  exact settle_same s ip

theorem writei_runs (h : Inv sb p R ((ip, c) :: L) s) (ht : c.type ≠ tDir) (src : ℕ → Option UInt8)
    (off : ℕ) {n : ℕ} (hn : n < 2 ^ 32) : Runs sb p (writei ip src off n)
      (fun _ s' => ∃ c', c'.type = c.type ∧ Inv sb p R ((ip, c') :: L) s') s := by
  refine runs_step (.writei ip src off n) ?_
  obtain ⟨hi, hsame, ht0⟩ := h.on_disk List.mem_cons_self
  simp only [perform, h.copy_eq List.mem_cons_self]
  refine Ends.bind ((ends_raise (writei_keeps h.clean hi hsame ht0 ht src off hn)).mono ?_)
  rintro ⟨r, c', st⟩ ⟨hs, ht'⟩
  exact ⟨c', ht', h.settle hs ht'⟩

theorem claim_runs (h : Inv sb p R L s) {i : ℕ} (hi : i < sb.ninodes) (type : Int16) :
    Runs sb p (claim i type)
      (fun r s' => Inv sb p R L s' ∧
        (r = true → (dinode sb s'.store.disk i).type = type)) s := by
  refine runs_step (.claim i type) ?_
  obtain ⟨hclean, hdinodes, hfalse⟩ := claim_keeps h.clean hi type
  have hkept (x : Slot) (hx : 0 < (s.table x).ref) (hv : (s.table x).valid = true) :
      dinode sb (claimDinode sb s.store i type).2.disk (s.table x).inum =
        dinode sb s.store.disk (s.table x).inum := by
    by_cases hxi : (s.table x).inum = i
    · obtain ⟨hsame, ht⟩ := h.coherent x hx hv
      rw [hfalse (by rw [← hxi, ← hsame.1]; exact ht)]
    · exact hdinodes _ (h.inums x hx) hxi
  refine ⟨⟨hclean, h.refs, h.unique, h.inums, h.locks, h.nodup, h.locked, ?_, h.files⟩, ?_⟩
  · intro x hx hv
    have hco := h.coherent x hx hv
    rw [← hkept x hx hv] at hco
    exact hco
  · intro hr
    by_cases h0 : (dinode sb s.store.disk i).type = 0
    · have hput : dinode sb (claimDinode sb s.store i type).2.disk =
          update (dinode sb s.store.disk) i { Dinode.zero with type } := by
        rw [claimDinode, if_pos h0]
        exact dinode_putDinode _ i (fits_empty (fun _ => rfl) rfl)
      change (dinode sb (claimDinode sb s.store i type).2.disk i).type = type
      rw [hput, update_self]
    · replace hr : (claimDinode sb s.store i type).1 = true := hr
      rw [hfalse h0] at hr
      cases hr

omit [Fintype P] in
theorem dirlookup_of_find {dp : Slot} (ht : (s.table dp).copy.type = tDir)
    {name : Name} {inum off : ℕ}
    (hfind : (dirFind dp name (entriesFrom (s.table dp).copy.size 0) 0).run (perform sb p) s =
      .ok (some (inum, off), s)) :
    (dirlookup dp name).run (perform sb p) s =
      match s.table.iget inum with
      | none => .error (.panic .igetNoInodes)
      | some (ip, table) => .ok (some (ip, off), { s with table }) := by
  have hfields : (fields dp).run (perform sb p) s = .ok ((s.table dp).copy, s) := rfl
  rw [dirlookup, Prog.run_bind_eq hfields, if_neg (by simp [ht]), Prog.run_bind_eq hfind]
  cases higet : s.table.iget inum with
  | none => simp [Prog.run, iget, step, Prog.perform, perform, higet, bind, Except.bind, Prog.bind]
  | some r =>
    have htake : (iget inum).run (perform sb p) s = .ok (r.1, { s with table := r.2 }) := by
      refine Prog.run_perform ?_
      simp only [perform, higet]
    exact Prog.run_bind_eq htake

end Steps

end Xv6.Fs
