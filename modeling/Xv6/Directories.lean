import Xv6.FileNames
import Xv6.SystemCallsKeepOwnership
import Xv6.TransitionSystems

/-!
# Directories are finite maps

`dirlookup`, `dirlink` and the removal of an entry by `sys_unlink`, run on a directory that is in
memory. Whatever was called before, the directory is a finite map from names to inode numbers.
-/

namespace Xv6.Fs

open LittleEndianBlocks OperationPrograms SlotMaps TransitionSystems

/-! ### The functions on strings -/

def dirFindString (dp : Slot) (name : CString) : (k n : ℕ) → FsProg (Option (ℕ × ℕ))
  | 0, _ => pure none
  | k + 1, n => do
    match ← readDirent dp (n * direntSize) with
    | none => panic .dirlookupRead
    | some de =>
      if de.inum ≠ 0 ∧ namecmp name (CString.ofList de.name) = 0 then
        return some (de.inum, n * direntSize)
      else
        dirFindString dp name k (n + 1)

def dirlookupString (dp : Slot) (name : CString) : FsProg (Option (Slot × ℕ)) := do
  let d ← fields dp
  if d.type ≠ tDir then
    panic .dirlookupNotDir
  else
    match ← dirFindString dp name (entriesFrom d.size 0) 0 with
    | none => return none
    | some (inum, off) =>
      let ip ← iget inum
      return some (ip, off)

def dirlinkString (dp : Slot) (name : CString) (inum : ℕ) : FsProg Bool := do
  match ← dirlookupString dp name with
  | some (ip, _) =>
    iput ip
    return false
  | none =>
    let d ← fields dp
    let n ← dirFree dp (entriesFrom d.size 0) 0
    writeDirent dp (n * direntSize) (newDirent name inum)

/-- What `sys_unlink` does to the directory: it looks up the string and clears the entry. -/
def removeString (dp : Slot) (name : CString) : FsProg Bool := do
  match ← dirlookupString dp name with
  | none => return false
  | some (_, off) => writeDirent dp off ⟨0, []⟩

variable {P : Type} [DecidableEq P] {sb : Superblock} {p : P} {s s' : State P} {dp : Slot}

theorem readDirent_fits {off : ℕ} {de : Dirent}
    (h : (readDirent dp off).run (perform sb p) s = .ok (some de, s')) : de.Fits := by
  simp only [readDirent, step, Prog.perform, Prog.run, perform] at h
  generalize raise _ = r at h
  cases r with
  | error e => cases h
  | ok r =>
    have hde : (if r.1.1 = direntSize then some (decodeDirent r.1.2) else none) = some de :=
      (Prod.mk.inj (Except.ok.inj h)).1
    by_cases hfull : r.1.1 = direntSize
    · rw [if_pos hfull] at hde
      rw [← Option.some.inj hde]
      exact decodeDirent_fits _
    · rw [if_neg hfull] at hde
      exact absurd hde (by simp)

theorem dirFindString_run (name : CString) (k n : ℕ) (s : State P) :
    (dirFindString dp name k n).run (perform sb p) s =
      (dirFind dp name.name k n).run (perform sb p) s := by
  induction k generalizing n s with
  | zero => rfl
  | succ k ih =>
    refine Prog.run_bind_congr rfl fun r s' hr => ?_
    cases r with
    | none => rfl
    | some de =>
      simp only [namecmp_eq_zero_iff (readDirent_fits hr)]
      split
      · rfl
      · exact ih (n + 1) s'

theorem dirlookupString_run (name : CString) (s : State P) :
    (dirlookupString dp name).run (perform sb p) s =
      (dirlookup dp name.name).run (perform sb p) s := by
  refine Prog.run_bind_congr rfl fun d s' _ => ?_
  split
  · rfl
  · exact Prog.run_bind_congr (dirFindString_run name _ 0 s') fun _ _ _ => rfl

theorem dirlinkString_run (name : CString) (inum : ℕ) (s : State P) :
    (dirlinkString dp name inum).run (perform sb p) s =
      (dirlink dp name.name inum).run (perform sb p) s := by
  refine Prog.run_bind_congr (dirlookupString_run name s) fun r s' _ => ?_
  cases r with
  | some r => rfl
  | none => rw [newDirent_eq]

/-! ### A directory in memory -/

def State.bytes (s : State P) (ip : Slot) : List UInt8 :=
  contents s.store.disk (s.table ip).copy

structure DirAt (sb : Superblock) (s : State P) (dp : Slot) : Prop where
  owned : Owned sb s.store (s.table dp).inum (s.table dp).copy
  holeFree : HoleFree s.store.disk (s.table dp).copy
  on_disk : dinode sb s.store.disk (s.table dp).inum = (s.table dp).copy
  type : (s.table dp).copy.type = tDir
  whole : direntSize ∣ (s.table dp).copy.size
  ref : 0 < (s.table dp).ref

omit [DecidableEq P] in
theorem length_bytes (s : State P) (ip : Slot) : (s.bytes ip).length = (s.table ip).copy.size :=
  length_contents _ _

theorem entriesFrom_zero {size : ℕ} (h : direntSize ∣ size) :
    entriesFrom size 0 = size / direntSize := by
  obtain ⟨k, rfl⟩ := h
  simp only [entriesFrom, direntSize]
  omega

theorem readDirent_at (h : DirAt sb s dp) {n : ℕ} (hn : n < (slots (s.bytes dp)).length) :
    (readDirent dp (n * direntSize)).run (perform sb p) s =
      .ok (some (direntAt (s.bytes dp) n), s) := by
  have hsize := h.holeFree.size_le
  have hmax : maxFile * bSize = 274432 := by decide
  rw [length_slots, length_bytes] at hn
  have hend : n * direntSize + direntSize ≤ (s.table dp).copy.size := by
    simp only [direntSize] at *
    omega
  have hlen : (((s.bytes dp).drop (n * direntSize)).take direntSize).length = direntSize := by
    rw [List.length_take, List.length_drop, length_bytes]
    omega
  have hread := @readi_array sb s.store _ (((s.bytes dp).drop (n * direntSize)).take direntSize)
    h.holeFree (s.table dp).inum (n * direntSize) direntSize (by omega) (by decide)
    (by rw [if_neg (by omega)]; rfl)
  refine Prog.run_perform ?_
  simp only [perform, hread, raise, bind, Except.bind, hlen, settle_same]
  rfl

omit [DecidableEq P] in
theorem getElem_slots (s : State P) (dp : Slot) {n : ℕ} (hn : n < (slots (s.bytes dp)).length) :
    (slots (s.bytes dp))[n] = (direntAt (s.bytes dp) n).slot := by
  simp [slots, dirents]

/-- The loop of `dirlookup` finds the first entry with the name. -/
theorem dirFind_at (h : DirAt sb s dp) (name : Name) (k n : ℕ)
    (hk : n + k = (slots (s.bytes dp)).length) :
    (dirFind dp name k n).run (perform sb p) s =
      .ok ((lookup ((slots (s.bytes dp)).drop n) name).map
        fun x => (x.2, (n + x.1) * direntSize), s) := by
  induction k generalizing n with
  | zero =>
    rw [List.drop_of_length_le (by omega)]
    rfl
  | succ k ih =>
    have hn : n < (slots (s.bytes dp)).length := by omega
    have hnext := ih (n + 1) (by omega)
    rw [dirFind, Prog.run_bind_eq (readDirent_at h hn), List.drop_eq_getElem_cons hn, getElem_slots]
    dsimp only
    generalize direntAt (s.bytes dp) n = de
    by_cases hzero : de.inum = 0
    · rw [if_neg (by simp [hzero]), hnext, Dirent.slot, if_pos hzero, lookup, Option.map_map]
      congr 3
      funext x
      simp [Nat.add_assoc, Nat.add_comm 1]
    · rw [Dirent.slot, if_neg hzero, lookup]
      by_cases hname : de.name = name
      · rw [if_pos ⟨hzero, hname⟩, if_pos hname]
        rfl
      · rw [if_neg (by simp [hname]), if_neg hname, hnext, Option.map_map]
        congr 3
        funext x
        simp [Nat.add_assoc, Nat.add_comm 1]

theorem dirlookup_at (h : DirAt sb s dp) (name : Name) :
    (dirlookup dp name).run (perform sb p) s =
      match lookup (slots (s.bytes dp)) name with
      | none => .ok (none, s)
      | some (n, inum) =>
        match s.table.iget inum with
        | none => .error (.panic .igetNoInodes)
        | some (ip, table) => .ok (some (ip, n * direntSize), { s with table }) := by
  have hentries : entriesFrom (s.table dp).copy.size 0 = (slots (s.bytes dp)).length := by
    rw [entriesFrom_zero h.whole, length_slots, length_bytes]
  have hfind := dirFind_at (p := p) h name (slots (s.bytes dp)).length 0 (Nat.zero_add _)
  rw [List.drop_zero, ← hentries] at hfind
  cases hlook : lookup (slots (s.bytes dp)) name with
  | none =>
    have hfields : (fields dp).run (perform sb p) s = .ok ((s.table dp).copy, s) := rfl
    rw [hlook] at hfind
    rw [dirlookup, Prog.run_bind_eq hfields, if_neg (by simp [h.type]), Prog.run_bind_eq hfind]
    rfl
  | some x =>
    simp only [hlook, Option.map_some, Nat.zero_add] at hfind
    exact dirlookup_of_find h.type hfind

theorem dirFree_at (h : DirAt sb s dp) (k n : ℕ) (hk : n + k = (slots (s.bytes dp)).length) :
    (dirFree dp k n).run (perform sb p) s =
      .ok (n + firstFree ((slots (s.bytes dp)).drop n), s) := by
  induction k generalizing n with
  | zero =>
    rw [List.drop_of_length_le (by omega)]
    rfl
  | succ k ih =>
    have hn : n < (slots (s.bytes dp)).length := by omega
    have hnext := ih (n + 1) (by omega)
    rw [dirFree, Prog.run_bind_eq (readDirent_at h hn), List.drop_eq_getElem_cons hn, getElem_slots,
      firstFree, List.findIdx_cons]
    dsimp only
    generalize direntAt (s.bytes dp) n = de
    by_cases hzero : de.inum = 0
    · rw [if_pos hzero, Dirent.slot, if_pos hzero]
      rfl
    · rw [if_neg hzero, Dirent.slot, if_neg hzero, hnext, firstFree]
      simp [Nat.add_assoc, Nat.add_comm 1]

/-! ### Writing an entry -/

theorem dirent_inBlock (n : ℕ) (de : Dirent) :
    n * direntSize % bSize + (encodeDirent de).length ≤ bSize := by
  rw [length_encodeDirent]
  simp only [direntSize, bSize]
  omega

theorem writeDirent_at (h : DirAt sb s dp) {n : ℕ} (hn : n ≤ (slots (s.bytes dp)).length)
    (de : Dirent) :
    ∃ r ip' st', (writeDirent dp (n * direntSize) de).run (perform sb p) s =
        .ok (decide (r = (direntSize : ℤ)), s.settle dp st' ip') ∧
      BlockWrite sb s.store (s.table dp).inum (s.table dp).copy (n * direntSize) (encodeDirent de)
        r ip' st' ∧
      (r = direntSize ↔ ¬NoRoom sb s.store (s.table dp).inum (s.table dp).copy (n * direntSize)
        direntSize) := by
  have hoff : n * direntSize ≤ (s.table dp).copy.size := by
    rw [length_slots, length_bytes] at hn
    simp only [direntSize] at *
    omega
  have hlen := length_encodeDirent de
  obtain ⟨r, ip', st', hrun, hwrite, hroom⟩ := writei_inBlock h.owned h.holeFree h.on_disk hoff
    (dirent_inBlock n de) (by rw [hlen]; decide) fun t (_ : t < (encodeDirent de).length) =>
      (rfl : direntSrc de t = _)
  rw [hlen] at hrun hroom
  refine ⟨r, ip', st', Prog.run_perform ?_, hwrite, hroom⟩
  simp only [perform, hrun, raise, bind, Except.bind]

omit [DecidableEq P] in
theorem DirAt.write (h : DirAt sb s dp) {n : ℕ} (hn : n ≤ (slots (s.bytes dp)).length)
    {de : Dirent} {r : ℤ} {ip' : Dinode} {st' : Store}
    (hw : BlockWrite sb s.store (s.table dp).inum (s.table dp).copy (n * direntSize)
      (encodeDirent de) r ip' st') :
    DirAt sb (s.settle dp st' ip') dp ∧
      (r = direntSize → slots ((s.settle dp st' ip').bytes dp) =
        fill (slots (s.bytes dp)) n (decodeDirent (encodeDirent de)).slot) ∧
      (r ≠ direntSize → (s.settle dp st' ip').bytes dp = s.bytes dp) := by
  have hlen := length_encodeDirent de
  have hself : (s.settle dp st' ip').table dp = { s.table dp with copy := ip' } :=
    Table.modify_self s.table dp fun x => { x with copy := ip' }
  have hoff : n * direntSize ≤ (s.table dp).copy.size := by
    rw [length_slots, length_bytes] at hn
    simp only [direntSize] at *
    omega
  have hsize : direntSize ∣ ip'.size := by
    by_cases hr : r = direntSize
    · rw [(hw.done (by rw [hlen]; exact hr)).1, hlen]
      rcases max_choice (s.table dp).copy.size (n * direntSize + direntSize) with hm | hm
      · rw [hm]
        exact h.whole
      · rw [hm]
        exact ⟨n + 1, by ring⟩
    · rw [(hw.failed (by rw [hlen]; exact hr)).fields]
      exact h.whole
  refine ⟨⟨?_, ?_, ?_, ?_, ?_, ?_⟩, fun hr => ?_, fun hr => ?_⟩
  · rw [hself]
    exact hw.owned
  · rw [hself]
    exact hw.holeFree
  · rw [hself]
    exact hw.on_disk
  · rw [hself, hw.fields]
    exact h.type
  · rw [hself]
    exact hsize
  · rw [hself]
    exact h.ref
  · rw [State.bytes, hself, ← slots_splice (by rw [length_bytes]; exact h.whole)
      (by rw [length_bytes]; exact hoff) hlen]
    exact congrArg slots (hw.done (by rw [hlen]; exact hr)).2
  · rw [State.bytes, hself]
    exact (hw.failed (by rw [hlen]; exact hr)).contents_eq

omit [DecidableEq P] in
theorem DirAt.room (h : DirAt sb s dp) {n : ℕ} (hn : n < (slots (s.bytes dp)).length) :
    ¬NoRoom sb s.store (s.table dp).inum (s.table dp).copy (n * direntSize) direntSize := by
  rw [length_slots, length_bytes] at hn
  have hle := h.holeFree.size_le
  have hend : n * direntSize + direntSize ≤ (s.table dp).copy.size := by
    simp only [direntSize] at *
    omega
  have hpos : 0 < direntSize := by decide
  obtain ⟨hbn, hoff⟩ := block_lt_maxFile hle (show n * direntSize < (s.table dp).copy.size by omega)
  have hm := h.holeFree.mapped _ hoff
  rintro (hbig | ⟨ip', st', hmap⟩)
  · omega
  · rw [bmap_mapped _ _ hbn hm] at hmap
    exact hm (Prod.mk.inj (Except.ok.inj hmap)).1

/-- No slot is free, and the directory cannot get another one: it has the greatest size, or
there is no block for the next entry. -/
def CannotGrow (sb : Superblock) (s : State P) (dp : Slot) : Prop :=
  firstFree (slots (s.bytes dp)) = (slots (s.bytes dp)).length ∧
    NoRoom sb s.store (s.table dp).inum (s.table dp).copy (s.table dp).copy.size direntSize

omit [DecidableEq P] in
theorem DirAt.noRoom_iff (h : DirAt sb s dp) :
    NoRoom sb s.store (s.table dp).inum (s.table dp).copy
      (firstFree (slots (s.bytes dp)) * direntSize) direntSize ↔ CannotGrow sb s dp := by
  have hend : (slots (s.bytes dp)).length * direntSize = (s.table dp).copy.size := by
    rw [length_slots, length_bytes, Nat.div_mul_cancel h.whole]
  constructor
  · intro hno
    have hlast : firstFree (slots (s.bytes dp)) = (slots (s.bytes dp)).length := by
      have hle := firstFree_le (slots (s.bytes dp))
      by_contra hne
      exact h.room (by omega) hno
    rw [hlast, hend] at hno
    exact ⟨hlast, hno⟩
  · rintro ⟨hlast, hno⟩
    rwa [hlast, hend]

/-! ### `dirlink` -/

structure Idle (s s' : State P) : Prop where
  store : s'.store = s.store
  cwd : s'.cwd = s.cwd
  ofile : s'.ofile = s.ofile
  table : ∀ x, 0 < (s.table x).ref → s'.table x = s.table x
  refs : ∀ x, (s'.table x).ref = (s.table x).ref
  locks : ∀ x, (s'.table x).lock = (s.table x).lock

theorem iput_iget {inum : ℕ} {ip : Slot} {table : Table P}
    (h : s.table.iget inum = some (ip, table)) :
    ∃ s', (iput ip).run (perform sb p) { s with table } = .ok ((), s') ∧ Idle s s' := by
  have hput (e : Inode P) (he : Table.frees e = false)
      (htable : table = Function.update s.table ip e) :
      (iput ip).run (perform sb p) { s with table } = .ok ((), { s with
        table := Function.update s.table ip { e with ref := e.ref - 1 } }) := by
    subst htable
    have htest : (iputTest ip).run (perform sb p)
        { s with table := Function.update s.table ip e } = .ok (false, { s with
          table := Function.update s.table ip { e with ref := e.ref - 1 } }) := by
      refine Prog.run_perform ?_
      simp [perform, he, State.modify, Table.modify]
    rw [iput, Prog.run_bind_eq htest]
    rfl
  rcases Table.iget_cases h with ⟨href, -, htable⟩ | ⟨href, -, htable⟩
  · refine ⟨_, hput _ ?_ htable, rfl, rfl, rfl, fun x _ => ?_, fun x => ?_, fun x => ?_⟩
    · simp only [Table.frees, decide_eq_false_iff_not]
      omega
    all_goals
      by_cases hx : x = ip
      · subst hx
        simp
      · simp [hx]
  · refine ⟨_, hput _ ?_ htable, rfl, rfl, rfl, fun x hx => ?_, fun x => ?_, fun x => ?_⟩
    · simp [Table.frees]
    · have hne : x ≠ ip := by
        rintro rfl
        omega
      simp [hne]
    all_goals
      by_cases hx : x = ip
      · subst hx
        simp [href]
      · simp [hx]

omit [DecidableEq P] in
theorem Idle.dirAt (h : Idle s s') (hd : DirAt sb s dp) : DirAt sb s' dp := by
  have htable := h.table dp hd.ref
  obtain ⟨h1, h2, h3, h4, h5, h6⟩ := hd
  constructor <;> (try rw [h.store]) <;> rw [htable] <;> assumption

omit [DecidableEq P] in
theorem Idle.bytes (h : Idle s s') {ip : Slot} (hip : 0 < (s.table ip).ref) :
    s'.bytes ip = s.bytes ip := by
  rw [State.bytes, State.bytes, h.store, h.table ip hip]

theorem dirlink_present (h : DirAt sb s dp) {name : Name} {n i : ℕ}
    (hname : lookup (slots (s.bytes dp)) name = some (n, i)) (inum : ℕ) :
    (dirlink dp name inum).run (perform sb p) s = .error (.panic .igetNoInodes) ∨
      ∃ s', (dirlink dp name inum).run (perform sb p) s = .ok (false, s') ∧ Idle s s' := by
  have hlook := dirlookup_at (p := p) h name
  rw [hname] at hlook
  dsimp only at hlook
  cases higet : s.table.iget i with
  | none =>
    rw [higet] at hlook
    exact .inl (by rw [dirlink, Prog.run_bind, hlook])
  | some r =>
    obtain ⟨ip, table⟩ := r
    rw [higet] at hlook
    obtain ⟨s', hput, hidle⟩ := iput_iget (p := p) higet
    refine .inr ⟨s', ?_, hidle⟩
    rw [dirlink, Prog.run_bind_eq hlook]
    exact Prog.run_bind_eq hput

theorem dirlink_absent (h : DirAt sb s dp) {name : Name}
    (hname : lookup (slots (s.bytes dp)) name = none) (inum : ℕ) :
    ∃ r ip' st', (dirlink dp name inum).run (perform sb p) s =
        .ok (decide (r = (direntSize : ℤ)), s.settle dp st' ip') ∧
      BlockWrite sb s.store (s.table dp).inum (s.table dp).copy
        (firstFree (slots (s.bytes dp)) * direntSize) (encodeDirent ⟨inum % 2 ^ 16, name⟩) r
        ip' st' ∧
      (r = direntSize ↔ ¬CannotGrow sb s dp) := by
  have hlook := dirlookup_at (p := p) h name
  rw [hname] at hlook
  have hfields : (fields dp).run (perform sb p) s = .ok ((s.table dp).copy, s) := rfl
  have hentries : entriesFrom (s.table dp).copy.size 0 = (slots (s.bytes dp)).length := by
    rw [entriesFrom_zero h.whole, length_slots, length_bytes]
  have hfree := dirFree_at (p := p) h (slots (s.bytes dp)).length 0 (Nat.zero_add _)
  obtain ⟨r, ip', st', hrun, hw, hroom⟩ := writeDirent_at (p := p) h
    (firstFree_le (slots (s.bytes dp))) ⟨inum % 2 ^ 16, name⟩
  rw [h.noRoom_iff] at hroom
  refine ⟨r, ip', st', ?_, hw, hroom⟩
  rw [dirlink, Prog.run_bind_eq hlook]
  dsimp only
  rw [Prog.run_bind_eq hfields, hentries, Prog.run_bind_eq hfree, List.drop_zero, Nat.zero_add]
  exact hrun

/-! ### Directories over time -/

/-- Entry `n` of the directory is in use and gives the name this inode number. -/
def Binds (s : State P) (dp : Slot) (name : Name) (n inum : ℕ) : Prop :=
  (dirents (s.bytes dp))[n]? = some ⟨inum, name⟩ ∧ inum ≠ 0

omit [DecidableEq P] in
theorem binds_iff {name : Name} {n inum : ℕ} :
    Binds s dp name n inum ↔ (slots (s.bytes dp))[n]? = some (some (name, inum)) := by
  rw [Binds, slots, List.getElem?_map]
  cases (dirents (s.bytes dp))[n]? with
  | none => simp
  | some de =>
    obtain ⟨i, nm⟩ := de
    simp only [Option.some.injEq, Dirent.mk.injEq, Option.map_some, Dirent.slot]
    grind

/-- The calls that change a directory. Between them anything may happen that leaves the bytes
of the directory alone; its inode may move to another entry of the table. -/
inductive DirEvent where
  | link (name : CString) (inum : ℕ)
  | unlink (name : CString)
  | other

/-- One call, for a state and the entry of the inode table that holds the directory. -/
def DirStep (sb : Superblock) (p : P) (c : State P × Slot) : DirEvent → State P × Slot → Prop
  | .link name inum, c' => 0 < inum ∧ inum < 2 ^ 16 ∧ c'.2 = c.2 ∧
      ∃ r, (dirlinkString c.2 name inum).run (perform sb p) c.1 = .ok (r, c'.1)
  | .unlink name, c' => c'.2 = c.2 ∧
      ∃ r, (removeString c.2 name).run (perform sb p) c.1 = .ok (r, c'.1)
  | .other, c' => DirAt sb c'.1 c'.2 ∧ c'.1.bytes c'.2 = c.1.bytes c.2

def DirStart (sb : Superblock) (c : State P × Slot) : Prop :=
  DirAt sb c.1 c.2 ∧ ∀ name m n i j, Binds c.1 c.2 name m i → Binds c.1 c.2 name n j → m = n

structure IsMap (sb : Superblock) (p : P) (s : State P) (dp : Slot) : Prop where
  distinct : ∀ name m n i j, Binds s dp name m i → Binds s dp name n j → m = n
  found : ∀ (name : CString) n inum, Binds s dp name.name n inum →
    (dirlookupString dp name).run (perform sb p) s =
      match s.table.iget inum with
      | none => .error (.panic .igetNoInodes)
      | some (ip, table) => .ok (some (ip, n * direntSize), { s with table })
  missing : ∀ name : CString, (∀ n inum, ¬Binds s dp name.name n inum) →
    (dirlookupString dp name).run (perform sb p) s = .ok (none, s)
  link : ∀ (name : CString) inum, 0 < inum → inum < 2 ^ 16 →
    Ends (fun e => e = .panic .igetNoInodes ∧ ∃ n i, Binds s dp name.name n i)
      (fun r => (r.1 = false ↔ (∃ n i, Binds s dp name.name n i) ∨ CannotGrow sb s dp) ∧
        (r.1 = true → ∀ name' n i, Binds r.2 dp name' n i ↔
          name' = name.name ∧ n = firstFree (slots (s.bytes dp)) ∧ i = inum ∨
            Binds s dp name' n i) ∧
        (r.1 = false → ∀ name' n i, Binds r.2 dp name' n i ↔ Binds s dp name' n i))
      ((dirlinkString dp name inum).run (perform sb p) s)
  unlink : ∀ name : CString,
    Ends (fun e => e = .panic .igetNoInodes ∧ ∃ n i, Binds s dp name.name n i)
      (fun r => (r.1 = true ↔ ∃ n i, Binds s dp name.name n i) ∧
        ∀ name' n i, Binds r.2 dp name' n i ↔ Binds s dp name' n i ∧ name' ≠ name.name)
      ((removeString dp name).run (perform sb p) s)

omit [DecidableEq P] in
theorem distinct_iff (s : State P) (dp : Slot) : Distinct (slots (s.bytes dp)) ↔
    ∀ name m n i j, Binds s dp name m i → Binds s dp name n j → m = n := by
  simp only [binds_iff]
  exact ⟨fun h name m n i j hm hn => h hm hn, fun h m n name i j hm hn => h name m n i j hm hn⟩

/-- `dirlink` fills the first free entry, or leaves the directory as it is. -/
theorem dirlink_keeps (h : DirAt sb s dp) (name : CString)
    {inum : ℕ} (hpos : 0 < inum) (hlt : inum < 2 ^ 16) :
    Ends (fun e => e = .panic .igetNoInodes ∧ lookup (slots (s.bytes dp)) name.name ≠ none)
      (fun r => DirAt sb r.2 dp ∧
        (r.1 = false ↔ lookup (slots (s.bytes dp)) name.name ≠ none ∨ CannotGrow sb s dp) ∧
        (r.1 = true → lookup (slots (s.bytes dp)) name.name = none ∧ slots (r.2.bytes dp) =
          fill (slots (s.bytes dp)) (firstFree (slots (s.bytes dp))) (some (name.name, inum))) ∧
        (r.1 = false → slots (r.2.bytes dp) = slots (s.bytes dp)))
      ((dirlinkString dp name inum).run (perform sb p) s) := by
  rw [dirlinkString_run]
  cases hlook : lookup (slots (s.bytes dp)) name.name with
  | some x =>
    rcases dirlink_present (p := p) h (n := x.1) (i := x.2) hlook inum with hrun | ⟨s', hrun, hidle⟩
    · rw [hrun]
      exact ⟨rfl, by simp⟩
    · rw [hrun]
      exact ⟨hidle.dirAt h, by simp, by simp, fun _ => by rw [hidle.bytes h.ref]⟩
  | none =>
    obtain ⟨r, ip', st', hrun, hw, hroom⟩ := dirlink_absent (p := p) h hlook inum
    obtain ⟨hat, hdone, hfail⟩ := h.write (firstFree_le _) hw
    rw [hrun, ends_ok]
    refine ⟨hat, ?_, fun hr => ⟨rfl, ?_⟩, fun hr => ?_⟩
    · simp only [decide_eq_false_iff_not, hroom, not_not, ne_eq, not_true_eq_false, false_or]
    · rw [hdone (of_decide_eq_true hr),
        decodeDirent_encodeDirent (name.fits (Nat.mod_lt _ (by decide))), Nat.mod_eq_of_lt hlt,
        Dirent.slot, if_neg (Nat.ne_of_gt hpos)]
    · rw [hfail (of_decide_eq_false hr)]

/-- Removing a name clears its entry and no other. -/
theorem remove_keeps (h : DirAt sb s dp) (name : CString) :
    Ends (fun e => e = .panic .igetNoInodes ∧ lookup (slots (s.bytes dp)) name.name ≠ none)
      (fun r => DirAt sb r.2 dp ∧
        match lookup (slots (s.bytes dp)) name.name with
        | none => r.1 = false ∧ slots (r.2.bytes dp) = slots (s.bytes dp)
        | some (n, _) => r.1 = true ∧ slots (r.2.bytes dp) = fill (slots (s.bytes dp)) n none)
      ((removeString dp name).run (perform sb p) s) := by
  have hrun := dirlookup_at (p := p) h name.name
  rw [← dirlookupString_run] at hrun
  cases hlook : lookup (slots (s.bytes dp)) name.name with
  | none =>
    rw [hlook] at hrun
    rw [removeString, Prog.run_bind_eq hrun]
    exact ⟨h, rfl, rfl⟩
  | some x =>
    obtain ⟨n, i⟩ := x
    rw [hlook] at hrun
    dsimp only at hrun
    cases higet : s.table.iget i with
    | none =>
      rw [higet] at hrun
      rw [removeString, Prog.run_bind, hrun]
      exact ⟨rfl, by simp⟩
    | some q =>
      obtain ⟨ip, table⟩ := q
      rw [higet] at hrun
      -- the reference to the inode does not touch the directory's own entry
      have hself : table dp = s.table dp ∨
          table dp = { s.table dp with ref := (s.table dp).ref + 1 } := by
        have href := h.ref
        rcases Table.iget_cases higet with ⟨-, -, rfl⟩ | ⟨h0, -, rfl⟩
        · by_cases hdp : dp = ip
          · subst hdp
            exact .inr (Table.modify_self _ _ _)
          · exact .inl (Table.modify_of_ne _ _ hdp)
        · refine .inl (Table.modify_of_ne _ _ ?_)
          rintro rfl
          omega
      have hcopy : (table dp).copy = (s.table dp).copy := by rcases hself with hs | hs <;> rw [hs]
      have hinum : (table dp).inum = (s.table dp).inum := by rcases hself with hs | hs <;> rw [hs]
      have href : 0 < (table dp).ref := by
        have hpos := h.ref
        rcases hself with hs | hs <;> rw [hs]
        · exact hpos
        · exact Nat.succ_pos _
      have hbytes : ({ s with table } : State P).bytes dp = s.bytes dp := by
        simp only [State.bytes, hcopy]
      have hat : DirAt sb { s with table } dp := by
        obtain ⟨h1, h2, h3, h4, h5, -⟩ := h
        exact ⟨by simpa only [hinum, hcopy] using h1, by simpa only [hcopy] using h2,
          by simpa only [hinum, hcopy] using h3, by simpa only [hcopy] using h4,
          by simpa only [hcopy] using h5, href⟩
      have hn : n < (slots (({ s with table } : State P).bytes dp)).length := by
        rw [hbytes]
        exact (List.getElem?_eq_some_iff.mp (getElem?_of_lookup hlook)).1
      obtain ⟨r, ip', st', hwrite, hw, hroom⟩ := writeDirent_at (p := p) hat hn.le ⟨0, []⟩
      obtain ⟨hat', hdone, -⟩ := hat.write hn.le hw
      have hr := hroom.mpr (hat.room hn)
      rw [removeString, Prog.run_bind_eq hrun]
      refine (congrArg (Ends _ _) hwrite).mpr ⟨hat', by simp [hr], ?_⟩
      rw [hdone hr, hbytes]
      rfl

/-- No step makes a second entry for a name. -/
theorem DirStep.distinct {c c' : State P × Slot} {e : DirEvent} (h : DirAt sb c.1 c.2)
    (hd : Distinct (slots (c.1.bytes c.2))) (hstep : DirStep sb p c e c') :
    DirAt sb c'.1 c'.2 ∧ Distinct (slots (c'.1.bytes c'.2)) := by
  cases e with
  | link name inum =>
    obtain ⟨hpos, hlt, hdp, r, hrun⟩ := hstep
    have hkeeps := dirlink_keeps (p := p) h name hpos hlt
    rw [hrun, ends_ok] at hkeeps
    obtain ⟨hat, -, htrue, hfalse⟩ := hkeeps
    rw [hdp]
    refine ⟨hat, ?_⟩
    cases r with
    | true =>
      obtain ⟨hnone, heq⟩ := htrue rfl
      rw [heq]
      exact (hd.insert hnone inum).1
    | false =>
      rw [hfalse rfl]
      exact hd
  | unlink name =>
    obtain ⟨hdp, r, hrun⟩ := hstep
    have hkeeps := remove_keeps (p := p) h name
    rw [hrun, ends_ok] at hkeeps
    obtain ⟨hat, hrest⟩ := hkeeps
    rw [hdp]
    refine ⟨hat, ?_⟩
    cases hlook : lookup (slots (c.1.bytes c.2)) name.name with
    | none =>
      rw [hlook] at hrest
      rw [hrest.2]
      exact hd
    | some x =>
      rw [hlook] at hrest
      rw [hrest.2]
      exact (hd.erase hlook).1
  | other =>
    obtain ⟨hat, hbytes⟩ := hstep
    exact ⟨hat, by rwa [hbytes]⟩

omit [DecidableEq P] in
theorem DirStart.distinct {c : State P × Slot} (h : DirStart sb c) :
    Distinct (slots (c.1.bytes c.2)) := by
  obtain ⟨-, hd⟩ := h
  exact (distinct_iff _ _).mpr hd

omit [DecidableEq P] in
theorem lookup_ne_none_iff {name : Name} : lookup (slots (s.bytes dp)) name ≠ none ↔
    ∃ n i, Binds s dp name n i := by
  rw [ne_eq, lookup_eq_none]
  simp only [binds_iff]
  push Not
  rfl

theorem DirAt.isMap (h : DirAt sb s dp) (hd : Distinct (slots (s.bytes dp))) :
    IsMap sb p s dp := by
  refine ⟨(distinct_iff s dp).mp hd, fun name n inum hb => ?_, fun name hb => ?_,
    fun name inum hpos hlt => ?_, fun name => ?_⟩
  · rw [dirlookupString_run, dirlookup_at h, hd.lookup_eq_some.mpr (binds_iff.mp hb)]
  · have hnone : lookup (slots (s.bytes dp)) name.name = none :=
      lookup_eq_none.mpr fun n inum hn => hb n inum (binds_iff.mpr hn)
    rw [dirlookupString_run, dirlookup_at h, hnone]
  · refine ((dirlink_keeps h name hpos hlt).imp ?_).mono ?_
    · rintro e ⟨rfl, hne⟩
      exact ⟨rfl, lookup_ne_none_iff.mp hne⟩
    · rintro ⟨r, s'⟩ ⟨-, hiff, htrue, hfalse⟩
      rw [lookup_ne_none_iff] at hiff
      refine ⟨hiff, fun hr name' n i => ?_, fun hr name' n i => ?_⟩
      · have hfree := getElem?_firstFree (slots (s.bytes dp)) name' i
        rw [binds_iff, binds_iff, (htrue hr).2, getElem?_fill (firstFree_le _)]
        grind
      · rw [binds_iff, binds_iff, hfalse hr]
  · refine ((remove_keeps h name).imp ?_).mono ?_
    · rintro e ⟨rfl, hne⟩
      exact ⟨rfl, lookup_ne_none_iff.mp hne⟩
    · rintro ⟨r, s'⟩ ⟨-, hrest⟩
      rw [← lookup_ne_none_iff]
      cases hlook : lookup (slots (s.bytes dp)) name.name with
      | none =>
        rw [hlook] at hrest
        obtain ⟨rfl, hslots⟩ := hrest
        refine ⟨by simp, fun name' n i => ?_⟩
        have hnone := lookup_eq_none.mp hlook
        rw [binds_iff, binds_iff, hslots]
        grind
      | some x =>
        obtain ⟨m, j⟩ := x
        rw [hlook] at hrest
        obtain ⟨rfl, hslots⟩ := hrest
        refine ⟨by simp, fun name' n i => ?_⟩
        have hm := getElem?_of_lookup hlook
        have hlt := (List.getElem?_eq_some_iff.mp hm).1
        have huniq := fun (k v : ℕ) (hk : (slots (s.bytes dp))[k]? = some (some (name.name, v))) =>
          hd hk hm
        rw [binds_iff, binds_iff, hslots, getElem?_fill hlt.le]
        grind

/-- Whatever was called before, the directory is a finite map from names to inode numbers, and
each call acts as the operation of that map. -/
theorem directory_isMap {c : State P × Slot} (h : Reachable (DirStart sb) (DirStep sb p) c) :
    IsMap sb p c.1 c.2 := by
  have hstart : ∀ c : State P × Slot, DirStart sb c →
      DirAt sb c.1 c.2 ∧ Distinct (slots (c.1.bytes c.2)) := fun c hc => ⟨hc.1, hc.distinct⟩
  obtain ⟨hat, hd⟩ := h.invariant hstart fun _ _ _ hI hstep => DirStep.distinct hI.1 hI.2 hstep
  exact hat.isMap hd

def rootInMemory : State Unit :=
  { boot Unit smallDisk fun _ => false with
    table := fun x => ⟨rootIno, if x = 0 then 1 else 0, true, none, smallRoot⟩ }

theorem rootInMemory_at : DirAt smallSuperblock rootInMemory 0 := by
  have hclean : Clean smallSuperblock rootInMemory.store :=
    ⟨smallDisk_consistent, by simp [rootInMemory, boot]⟩
  have hheld : Held smallSuperblock rootInMemory.store rootIno smallRoot :=
    hclean.held (by decide) (by rw [← smallDisk_root]; exact ⟨rfl, rfl, rfl⟩) (by decide)
  exact ⟨hheld.owned, hheld.wellFormed.holeFree, smallDisk_root, rfl, by decide, by decide⟩

theorem directory_isMap_root : DirStart smallSuperblock (rootInMemory, 0) ∧
    IsMap smallSuperblock () rootInMemory 0 := by
  have hslots : slots (rootInMemory.bytes 0) = [some (dot, rootIno), some (dotdot, rootIno)] := by
    decide +kernel
  have hstart : DirStart smallSuperblock (rootInMemory, 0) := by
    refine ⟨rootInMemory_at, (distinct_iff rootInMemory 0).mp ?_⟩
    rw [hslots]
    intro m n name i j hm hn
    have hne : dot ≠ dotdot := by decide
    rcases m with _ | _ | m <;> rcases n with _ | _ | n <;> simp at hm hn ⊢ <;> grind
  exact ⟨hstart, directory_isMap (c := (rootInMemory, 0)) ⟨_, [], hstart, .nil _⟩⟩

end Xv6.Fs
