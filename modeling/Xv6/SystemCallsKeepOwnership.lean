import Xv6.SystemCallSteps
import Mathlib.Data.Fintype.BigOperators

/-!
# System calls keep every block owned

Every system call, run from its start to its end on a file system whose blocks are
exactly owned, leaves such a file system behind, whatever `balloc` is refused and
wherever the caller's memory ends.
-/

namespace Xv6.Fs

open OperationPrograms LittleEndianBlocks

variable {P : Type} [Fintype P] [DecidableEq P] {sb : Superblock} {p : P} {R : List Slot}
  {L : List (Slot × Dinode)} {s : State P} {ip dp : Slot} {c d : Dinode}

omit [DecidableEq P] in
theorem Inv.swap {a b : Slot × Dinode} (h : Inv sb p R (a :: b :: L) s) :
    Inv sb p R (b :: a :: L) s := h.perm (.refl R) (.swap b a L)

omit [DecidableEq P] in
theorem Inv.swapRefs {x y : Slot} (h : Inv sb p (x :: y :: R) L s) :
    Inv sb p (y :: x :: R) L s := h.perm (.swap y x R) (.refl L)

omit [DecidableEq P] in
theorem Inv.ref_pos (h : Inv sb p R L s) (hip : ip ∈ R) : 0 < (s.table ip).ref := by
  have hc := List.count_pos_iff.mpr hip
  rw [h.refs ip]
  omega

omit [DecidableEq P] in
theorem Inv.inum_lt (h : Inv sb p R L s) (hc : (ip, c) ∈ L) : (s.table ip).inum < sb.ninodes :=
  (h.on_disk hc).1

theorem entry_lt_size {size n : ℕ} (start : ℕ) (hsize : direntSize ∣ size)
    (hn : n < start + entriesFrom size start) (hs : start ≤ n) :
    n * direntSize < size := by
  obtain ⟨m, rfl⟩ := hsize
  simp only [entriesFrom, direntSize] at *
  omega

omit [DecidableEq P] in
theorem Inv.dir_size (h : Inv sb p R L s) (hc : (dp, d) ∈ L) (ht : d.type = tDir) :
    direntSize ∣ d.size := by
  obtain ⟨hi, hsame, ht0⟩ := h.on_disk hc
  exact ((h.clean.held hi hsame ht0).wellFormed).dir_size ht

theorem dirFind_runs (h : Inv sb p R L s) (hd : (dp, d) ∈ L) (ht : d.type = tDir) (name : Name)
    (k n : ℕ) (hn : n + k ≤ entriesFrom d.size 0) :
    Runs sb p (dirFind dp name k n)
      (fun r s' => s' = s ∧ ∀ i off, r = some (i, off) →
        i < sb.ninodes ∧ ∃ m, off = m * direntSize ∧ m * direntSize < d.size) s := by
  induction k generalizing n with
  | zero => exact ⟨rfl, fun i off h => by cases h⟩
  | succ k ih =>
    have hlt : n * direntSize < d.size :=
      entry_lt_size 0 (h.dir_size hd ht) (by omega) (Nat.zero_le n)
    refine Runs.bind (readDirent_runs h hd ht hlt) ?_
    rintro r s' ⟨rfl, de, rfl, hino⟩
    dsimp only
    split
    · refine ⟨rfl, fun i off heq => ?_⟩
      cases heq
      exact ⟨hino, n, rfl, hlt⟩
    · exact ih (n + 1) (by omega)

theorem dirlookup_runs (h : Inv sb p R L s) (hd : (dp, d) ∈ L) (name : Name) :
    Runs sb p (dirlookup dp name)
      (fun r s' => match r with
        | none => s' = s ∧ d.type = tDir
        | some (ip, off) => Inv sb p (ip :: R) L s' ∧ d.type = tDir ∧
            ∃ m, off = m * direntSize ∧ m * direntSize < d.size) s := by
  refine Runs.bind (fields_runs h hd) ?_
  rintro _ s' ⟨rfl, rfl⟩
  split
  · exact runs_panic (by simp [Tolerated])
  rename_i ht
  rw [not_not] at ht
  refine Runs.bind (dirFind_runs h hd ht name _ 0 (by omega)) ?_
  rintro r s' ⟨rfl, hr⟩
  cases r with
  | none => exact ⟨rfl, ht⟩
  | some r =>
    obtain ⟨hi, hoff⟩ := hr r.1 r.2 rfl
    refine Runs.bind (iget_runs h hi) ?_
    rintro ip s' ⟨h', -⟩
    exact ⟨h', ht, hoff⟩

theorem dirFree_runs (h : Inv sb p R L s) (hd : (dp, d) ∈ L) (ht : d.type = tDir) (k n : ℕ)
    (hn : n + k = entriesFrom d.size 0) :
    Runs sb p (dirFree dp k n) (fun m s' => s' = s ∧ m * direntSize ≤ d.size) s := by
  have hdvd := h.dir_size hd ht
  induction k generalizing n with
  | zero =>
    refine ⟨rfl, ?_⟩
    obtain ⟨m, hm⟩ := hdvd
    simp only [entriesFrom, direntSize] at *
    omega
  | succ k ih =>
    have hlt : n * direntSize < d.size := entry_lt_size 0 hdvd (by omega) (Nat.zero_le n)
    refine Runs.bind (readDirent_runs h hd ht hlt) ?_
    rintro r s' ⟨rfl, de, rfl, -⟩
    dsimp only
    split
    · exact ⟨rfl, hlt.le⟩
    · exact ih (n + 1) (by omega)

theorem dirlink_runs (h : Inv sb p R ((dp, d) :: L) s) (hR : dp ∈ R) (name : Name) {i : ℕ}
    (hL : ∀ x ∈ L.map Prod.fst, x ∈ R) (hi : i < sb.ninodes) :
    Runs sb p (dirlink dp name i)
      (fun _ s' => ∃ d', d'.type = d.type ∧ Inv sb p R ((dp, d') :: L) s') s := by
  refine Runs.bind (dirlookup_runs h List.mem_cons_self name) ?_
  rintro r s' hr
  cases r with
  | some r =>
    refine Runs.bind (iput_runs hr.1 fun hmem => ?_) fun _ s' h' => ⟨d, rfl, h'⟩
    rcases List.mem_cons.mp hmem with heq | hmem
    · exact heq ▸ hR
    · exact hL _ hmem
  | none =>
    obtain ⟨rfl, ht⟩ := hr
    refine Runs.bind (fields_runs h List.mem_cons_self) ?_
    rintro _ s' ⟨rfl, rfl⟩
    refine Runs.bind (dirFree_runs h List.mem_cons_self ht _ 0 (by omega)) ?_
    rintro n s' ⟨rfl, hn⟩
    exact writeDirent_runs h ht hn (Nat.mod_lt _ (by decide))
      (lt_of_le_of_lt (Nat.mod_le _ _) hi)

theorem dirEmptyFrom_runs (h : Inv sb p R L s) (hd : (dp, d) ∈ L) (ht : d.type = tDir) (k n : ℕ)
    (hn : n + k ≤ 2 + entriesFrom d.size 2) (h2 : 2 ≤ n) :
    Runs sb p (dirEmptyFrom dp k n) (fun _ s' => s' = s) s := by
  induction k generalizing n with
  | zero => exact rfl
  | succ k ih =>
    have hlt : n * direntSize < d.size :=
      entry_lt_size 2 (h.dir_size hd ht) (by omega) h2
    refine Runs.bind (readDirent_runs h hd ht hlt) ?_
    rintro r s' ⟨rfl, de, rfl, -⟩
    dsimp only
    split
    · exact rfl
    · exact ih (n + 1) (by omega) (by omega)

theorem isdirempty_runs (h : Inv sb p R L s) (hd : (dp, d) ∈ L) (ht : d.type = tDir) :
    Runs sb p (isdirempty dp) (fun _ s' => s' = s) s := by
  refine Runs.bind (fields_runs h hd) ?_
  rintro _ s' ⟨rfl, rfl⟩
  exact dirEmptyFrom_runs h hd ht _ 2 (by omega) le_rfl

theorem namexFrom_runs (parent : Bool) (names : List Name) (h : Inv sb p (ip :: R) [] s) :
    Runs sb p (namexFrom parent ip names)
      (fun r s' => match r with
        | none => Inv sb p R [] s'
        | some (ip, _) => Inv sb p (ip :: R) [] s') s := by
  induction names generalizing ip s with
  | nil =>
    rw [namexFrom]
    split
    · exact Runs.bind (iput_runs h (by simp)) fun _ s' h' => h'
    · exact h
  | cons name rest ih =>
    rw [namexFrom]
    refine Runs.bind (ilock_runs h (h.ref_pos List.mem_cons_self)) ?_
    rintro - s₁ ⟨c, -, -, h₁⟩
    refine Runs.bind (fields_runs h₁ List.mem_cons_self) ?_
    rintro _ s₂ ⟨rfl, rfl⟩
    split
    · exact Runs.bind (iunlockput_runs h₁) fun _ s' h' => h'
    split
    · exact Runs.bind (iunlock_runs h₁) fun _ s' h' => h'
    refine Runs.bind (dirlookup_runs h₁ List.mem_cons_self name) ?_
    rintro r s₃ hr
    cases r with
    | none =>
      obtain ⟨rfl, -⟩ := hr
      exact Runs.bind (iunlockput_runs h₁) fun _ s' h' => h'
    | some r =>
      exact Runs.bind (iunlockput_runs hr.1.swapRefs) fun _ s' h' => ih h'

theorem namex_runs (path : Path) (parent : Bool) (h : Inv sb p R [] s) :
    Runs sb p (namex path parent)
      (fun r s' => match r with
        | none => Inv sb p R [] s'
        | some (ip, _) => Inv sb p (ip :: R) [] s') s := by
  rw [namex]
  split
  · refine Runs.bind (iget_runs h sb.root_lt) ?_
    rintro ip s' ⟨h', -⟩
    exact namexFrom_runs parent _ h'
  · refine Runs.bind (cwd_runs h) ?_
    rintro ip s' ⟨rfl, hpos⟩
    exact Runs.bind (idup_runs h hpos) fun _ s' h' => namexFrom_runs parent _ h'

theorem namei_runs (path : Path) (h : Inv sb p R [] s) :
    Runs sb p (namei path)
      (fun r s' => match r with
        | none => Inv sb p R [] s'
        | some ip => Inv sb p (ip :: R) [] s') s := by
  refine Runs.bind (namex_runs path false h) ?_
  rintro r s' hr
  cases r <;> exact hr

omit [Fintype P] in
theorem endOp_runs {α : Type} {a : α} {Q : α → State P → Prop} (h : Q a s) :
    Runs sb p (do endOp; return a) Q s := runs_bind_ok .endOp rfl h

theorem addNlink_runs (h : Inv sb p R ((ip, c) :: L) s) (n : Int16) :
    Runs sb p (addNlink ip n)
      (fun _ s' => ∃ c', c'.type = c.type ∧ Inv sb p R ((ip, c') :: L) s') s := by
  refine Runs.bind (fields_runs h List.mem_cons_self) ?_
  rintro c s₁ ⟨rfl, rfl⟩
  refine Runs.bind (setNlink_runs h _) fun _ s₂ h₂ => ?_
  exact (iupdate_runs h₂).mono fun _ _ h₃ => ⟨{ c with nlink := c.nlink + n }, rfl, h₃⟩

theorem whenDir_runs (h : Inv sb p R ((ip, c) :: L) s) (type n : Int16) :
    Runs sb p (whenDir type (addNlink ip n))
      (fun _ s' => ∃ c', c'.type = c.type ∧ Inv sb p R ((ip, c') :: L) s') s := by
  rw [whenDir]
  split
  · exact addNlink_runs h n
  · exact ⟨c, rfl, h⟩

theorem linkBad_runs (h : Inv sb p (ip :: R) [] s) :
    Runs sb p (linkBad ip) (fun _ s' => Inv sb p R [] s') s := by
  refine Runs.bind (ilock_runs h (h.ref_pos List.mem_cons_self)) ?_
  rintro - s₁ ⟨c, -, -, h₁⟩
  refine Runs.bind (addNlink_runs h₁ _) ?_
  rintro - s₂ ⟨c', -, h₂⟩
  exact Runs.bind (iunlockput_runs h₂) fun _ s₅ h₅ => endOp_runs h₅

theorem sysLink_runs (old new : Option Path) (h : Inv sb p R [] s) :
    Runs sb p (sysLink old new) (fun _ s' => Inv sb p R [] s') s := by
  cases old with
  | none => exact h
  | some old =>
  cases new with
  | none => exact h
  | some new =>
  refine runs_bind_ok .beginOp rfl (Runs.bind (namei_runs old h) ?_)
  rintro (_ | ip) s₁ h₁
  · exact endOp_runs h₁
  refine Runs.bind (ilock_runs h₁ (h₁.ref_pos List.mem_cons_self)) ?_
  rintro - s₂ ⟨c, -, -, h₂⟩
  refine Runs.bind (fields_runs h₂ List.mem_cons_self) ?_
  rintro _ s₃ ⟨rfl, rfl⟩
  split
  · exact Runs.bind (iunlockput_runs h₂) fun _ s' h' => endOp_runs h'
  refine Runs.bind (addNlink_runs h₂ _) ?_
  rintro - s₄ ⟨c', -, h₄⟩
  refine Runs.bind (iunlock_runs h₄) fun _ s₅ h₅ => ?_
  refine Runs.bind (namex_runs new true h₅) ?_
  rintro (_ | ⟨dp, name⟩) s₆ h₆
  · exact linkBad_runs h₆
  refine Runs.bind (ilock_runs h₆ (h₆.ref_pos List.mem_cons_self)) ?_
  rintro - s₇ ⟨d, -, -, h₇⟩
  have hi := h₇.inums ip (h₇.ref_pos (by simp))
  refine runs_bind_ok (.inum ip) rfl (Runs.bind
    (dirlink_runs h₇ List.mem_cons_self name (by simp) hi) ?_)
  rintro (_ | _) s₈ ⟨d', -, h₈⟩
  · exact Runs.bind (iunlockput_runs h₈) fun _ s' h' => linkBad_runs h'
  · refine Runs.bind (iunlockput_runs h₈) fun _ s₉ h₉ => ?_
    exact Runs.bind (iput_runs h₉ (by simp)) fun _ s' h' => endOp_runs h'

theorem unlinkBad_runs (h : Inv sb p (dp :: R) [(dp, d)] s) :
    Runs sb p (unlinkBad dp) (fun _ s' => Inv sb p R [] s') s :=
  Runs.bind (iunlockput_runs h) fun _ _ h' => endOp_runs h'

theorem unlinkEntry_runs (h : Inv sb p (ip :: dp :: R) [(ip, c), (dp, d)] s)
    (ht : d.type = tDir) {n : ℕ} (hn : n * direntSize ≤ d.size) :
    Runs sb p (unlinkEntry dp ip (n * direntSize) c) (fun _ s' => Inv sb p R [] s') s := by
  have hpos : 0 < sb.ninodes := lt_trans (by decide) sb.root_lt
  refine Runs.bind (writeDirent_runs h.swap ht hn (by decide) hpos) ?_
  rintro (_ | _) s₁ ⟨d₁, -, h₁⟩
  · exact runs_panic (by simp [Tolerated])
  refine Runs.bind (whenDir_runs h₁ c.type _) ?_
  rintro - s₂ ⟨d₂, -, h₂⟩
  refine Runs.bind (iunlockput_runs h₂.swapRefs) fun _ s₃ h₃ => ?_
  refine Runs.bind (addNlink_runs h₃ _) ?_
  rintro - s₄ ⟨c₄, -, h₄⟩
  exact Runs.bind (iunlockput_runs h₄) fun _ s₅ h₅ => endOp_runs h₅

theorem sysUnlink_runs (path : Option Path) (h : Inv sb p R [] s) :
    Runs sb p (sysUnlink path) (fun _ s' => Inv sb p R [] s') s := by
  cases path with
  | none => exact h
  | some path =>
  refine runs_bind_ok .beginOp rfl (Runs.bind (namex_runs path true h) ?_)
  rintro (_ | ⟨dp, name⟩) s₁ h₁
  · exact endOp_runs h₁
  refine Runs.bind (ilock_runs h₁ (h₁.ref_pos List.mem_cons_self)) ?_
  rintro - s₂ ⟨d, -, -, h₂⟩
  split
  · exact unlinkBad_runs h₂
  refine Runs.bind (dirlookup_runs h₂ List.mem_cons_self name) ?_
  rintro (_ | ⟨ip, off⟩) s₃ h₃
  · obtain ⟨rfl, -⟩ := h₃
    exact unlinkBad_runs h₂
  obtain ⟨h₃, ht, n, rfl, hn⟩ := h₃
  refine Runs.bind (ilock_runs h₃ (h₃.ref_pos List.mem_cons_self)) ?_
  rintro - s₄ ⟨c, -, -, h₄⟩
  refine Runs.bind (fields_runs h₄ List.mem_cons_self) ?_
  rintro _ s₅ ⟨rfl, rfl⟩
  split
  · exact runs_panic (by simp [Tolerated])
  split
  · rename_i hdir
    refine Runs.bind (isdirempty_runs h₄ List.mem_cons_self hdir) ?_
    rintro (_ | _) s₆ rfl
    · exact Runs.bind (iunlockput_runs h₄) fun _ s' h' => unlinkBad_runs h'
    · exact unlinkEntry_runs h₄ ht hn.le
  · exact unlinkEntry_runs h₄ ht hn.le

theorem iallocFrom_runs (h : Inv sb p R L s) (type : Int16) (k i : ℕ) (hk : i + k ≤ sb.ninodes) :
    Runs sb p (iallocFrom type k i)
      (fun r s' => match r with
        | none => Inv sb p R L s'
        | some ip => Inv sb p (ip :: R) L s' ∧
            (dinode sb s'.store.disk (s'.table ip).inum).type = type) s := by
  induction k generalizing i s with
  | zero => exact h
  | succ k ih =>
    refine Runs.bind (claim_runs h (show i < sb.ninodes by omega) type) ?_
    rintro (_ | _) s₁ ⟨h₁, ht⟩
    · exact ih h₁ (i + 1) (by omega)
    · refine Runs.bind (iget_runs h₁ (show i < sb.ninodes by omega)) ?_
      rintro ip s₂ ⟨h₂, hstore, hinum⟩
      refine ⟨h₂, ?_⟩
      rw [hinum, hstore]
      exact ht rfl

theorem ialloc_runs (h : Inv sb p R L s) (type : Int16) :
    Runs sb p (ialloc sb.ninodes type)
      (fun r s' => match r with
        | none => Inv sb p R L s'
        | some ip => Inv sb p (ip :: R) L s' ∧
            (dinode sb s'.store.disk (s'.table ip).inum).type = type) s := by
  refine iallocFrom_runs h type _ 1 ?_
  have hroot := sb.root_lt
  simp only [rootIno] at hroot
  omega

theorem createFail_runs (h : Inv sb p (ip :: dp :: R) [(ip, c), (dp, d)] s) :
    Runs sb p (createFail dp ip) (fun r s' => r = none ∧ Inv sb p R [] s') s := by
  refine Runs.bind (setNlink_runs h 0) fun _ s₁ h₁ => ?_
  refine Runs.bind (iupdate_runs h₁) fun _ s₂ h₂ => ?_
  refine Runs.bind (iunlockput_runs h₂) fun _ s₃ h₃ => ?_
  exact Runs.bind (iunlockput_runs h₃) fun _ s₄ h₄ => ⟨rfl, h₄⟩

theorem linkDots_runs (h : Inv sb p (ip :: dp :: R) [(ip, c), (dp, d)] s) (type : Int16) :
    Runs sb p (linkDots dp ip type)
      (fun _ s' => ∃ c', c'.type = c.type ∧
        Inv sb p (ip :: dp :: R) [(ip, c'), (dp, d)] s') s := by
  rw [linkDots]
  split
  · refine runs_bind_ok (.inum ip) rfl (Runs.bind (dirlink_runs h List.mem_cons_self dot
      (by simp) (h.inum_lt List.mem_cons_self)) ?_)
    rintro (_ | _) s₁ ⟨c₁, ht₁, h₁⟩
    · exact ⟨c₁, ht₁, h₁⟩
    · refine runs_bind_ok (.inum dp) rfl ((dirlink_runs h₁ List.mem_cons_self dotdot (by simp)
        (h₁.inum_lt (c := d) (by simp))).mono ?_)
      rintro _ s₂ ⟨c₂, ht₂, h₂⟩
      exact ⟨c₂, ht₂.trans ht₁, h₂⟩
  · exact ⟨c, rfl, h⟩

theorem createIn_runs (h : Inv sb p (ip :: dp :: R) [(dp, d)] s) (name : Name)
    (type major minor : Int16)
    (ht : (dinode sb s.store.disk (s.table ip).inum).type = type) :
    Runs sb p (createIn dp ip name type major minor)
      (fun r s' => match r with
        | none => Inv sb p R [] s'
        | some ip => ∃ c, c.type = type ∧ Inv sb p (ip :: R) [(ip, c)] s') s := by
  refine Runs.bind (ilock_runs h (h.ref_pos List.mem_cons_self)) ?_
  rintro - s₁ ⟨c, hc, -, h₁⟩
  rw [ht] at hc
  refine Runs.bind (setDev_runs h₁ major minor) fun _ s₂ h₂ => ?_
  refine Runs.bind (setNlink_runs h₂ 1) fun _ s₃ h₃ => ?_
  refine Runs.bind (iupdate_runs h₃) fun _ s₄ h₄ => ?_
  have hfail {s' : State P} {c' d' : Dinode}
      (h' : Inv sb p (ip :: dp :: R) [(ip, c'), (dp, d')] s') :
      Runs sb p (createFail dp ip)
        (fun r s' => match r with
          | none => Inv sb p R [] s'
          | some ip => ∃ c, c.type = type ∧ Inv sb p (ip :: R) [(ip, c)] s') s' := by
    refine (createFail_runs h').mono ?_
    rintro _ s'' ⟨rfl, h''⟩
    exact h''
  refine Runs.bind (linkDots_runs h₄ type) ?_
  rintro (_ | _) s₅ ⟨c₅, ht₅, h₅⟩
  · exact hfail h₅
  refine runs_bind_ok (.inum ip) rfl (Runs.bind (dirlink_runs h₅.swap (by simp) name (by simp)
    (h₅.inum_lt List.mem_cons_self)) ?_)
  rintro (_ | _) s₆ ⟨d₆, -, h₆⟩
  · exact hfail h₆.swap
  refine Runs.bind (whenDir_runs h₆ type 1) ?_
  rintro - s₇ ⟨d₇, -, h₇⟩
  refine Runs.bind (iunlockput_runs h₇.swapRefs) fun _ s₈ h₈ => ?_
  exact ⟨c₅, ht₅.trans hc, h₈⟩

theorem create_runs (h : Inv sb p R [] s) (path : Path) (type major minor : Int16) :
    Runs sb p (create sb.ninodes path type major minor)
      (fun r s' => match r with
        | none => Inv sb p R [] s'
        | some ip => ∃ c, (c.type = type ∨ c.type = tFile ∨ c.type = tDevice) ∧
            Inv sb p (ip :: R) [(ip, c)] s') s := by
  refine Runs.bind (namex_runs path true h) ?_
  rintro (_ | ⟨dp, name⟩) s₁ h₁
  · exact h₁
  refine Runs.bind (ilock_runs h₁ (h₁.ref_pos List.mem_cons_self)) ?_
  rintro - s₂ ⟨d, -, -, h₂⟩
  refine Runs.bind (dirlookup_runs h₂ List.mem_cons_self name) ?_
  rintro (_ | ⟨ip, off⟩) s₃ h₃
  · obtain ⟨rfl, -⟩ := h₃
    refine Runs.bind (ialloc_runs h₂ type) ?_
    rintro (_ | ip) s₄ h₄
    · exact Runs.bind (iunlockput_runs h₄) fun _ s' h' => h'
    · refine (createIn_runs h₄.1 name type major minor h₄.2).mono ?_
      rintro (_ | ip) s₅ h₅
      · exact h₅
      · obtain ⟨c, hc, h₅⟩ := h₅
        exact ⟨c, .inl hc, h₅⟩
  · refine Runs.bind (iunlockput_runs h₃.1.swapRefs) fun _ s₄ h₄ => ?_
    refine Runs.bind (ilock_runs h₄ (h₄.ref_pos List.mem_cons_self)) ?_
    rintro - s₅ ⟨c, -, -, h₅⟩
    refine Runs.bind (fields_runs h₅ List.mem_cons_self) ?_
    rintro c s₆ ⟨rfl, rfl⟩
    split
    · rename_i hc
      exact ⟨c, .inr hc.2, h₅⟩
    · exact Runs.bind (iunlockput_runs h₅) fun _ s' h' => h'

theorem openInode_runs (h : Inv sb p (ip :: R) [(ip, c)] s) (omode : ℕ)
    (hdir : c.type = tDir → omode = oRdonly) :
    Runs sb p (openInode ip omode) (fun _ s' => Inv sb p R [] s') s := by
  refine Runs.bind (fields_runs h List.mem_cons_self) ?_
  rintro c s₁ ⟨rfl, rfl⟩
  split
  · exact Runs.bind (iunlockput_runs h) fun _ s' h' => endOp_runs h'
  have hw : (hasFlag omode oWronly || hasFlag omode oRdwr) = true → c.type ≠ tDir := by
    intro hflag ht
    rw [hdir ht] at hflag
    revert hflag
    decide
  refine Runs.bind (fdalloc_runs h List.mem_cons_self _ hw) ?_
  rintro (_ | fd) s₂ h₂
  · exact Runs.bind (iunlockput_runs h₂) fun _ s' h' => endOp_runs h'
  simp only [reduceCtorEq, if_false] at h₂
  refine Runs.bind (Q := fun _ s' => ∃ c', Inv sb p R [(ip, c')] s') ?_ ?_
  · rw [truncate]
    split
    · exact (itrunc_runs h₂).mono fun _ _ ⟨c', _, h'⟩ => ⟨c', h'⟩
    · exact ⟨c, h₂⟩
  rintro - s₃ ⟨c', h₃⟩
  exact Runs.bind (iunlock_runs h₃) fun _ s' h' => endOp_runs h'

theorem sysOpen_runs (h : Inv sb p R [] s) (path : Option Path) (omode : ℕ) :
    Runs sb p (sysOpen sb.ninodes path omode) (fun _ s' => Inv sb p R [] s') s := by
  cases path with
  | none => exact h
  | some path =>
  refine runs_bind_ok .beginOp rfl ?_
  split
  · refine Runs.bind (create_runs h path tFile 0 0) ?_
    rintro (_ | ip) s₁ h₁
    · exact endOp_runs h₁
    · obtain ⟨c, hc, h₁⟩ := h₁
      refine openInode_runs h₁ omode fun ht => ?_
      rw [ht] at hc
      exact absurd hc (by decide)
  · refine Runs.bind (namei_runs path h) ?_
    rintro (_ | ip) s₁ h₁
    · exact endOp_runs h₁
    refine Runs.bind (ilock_runs h₁ (h₁.ref_pos List.mem_cons_self)) ?_
    rintro - s₂ ⟨c, -, -, h₂⟩
    refine Runs.bind (fields_runs h₂ List.mem_cons_self) ?_
    rintro c s₃ ⟨rfl, rfl⟩
    split
    · exact Runs.bind (iunlockput_runs h₂) fun _ s' h' => endOp_runs h'
    · rename_i hne
      exact openInode_runs h₂ omode fun ht => by_contra fun hmode => hne ⟨ht, hmode⟩

theorem sysCreate_runs (h : Inv sb p R [] s) (path : Option Path) (type major minor : Int16) :
    Runs sb p (sysCreate sb.ninodes path type major minor) (fun _ s' => Inv sb p R [] s') s := by
  refine runs_bind_ok .beginOp rfl ?_
  cases path with
  | none => exact endOp_runs h
  | some path =>
  refine Runs.bind (create_runs h path type major minor) ?_
  rintro (_ | ip) s₁ h₁
  · exact endOp_runs h₁
  · obtain ⟨c, -, h₁⟩ := h₁
    exact Runs.bind (iunlockput_runs h₁) fun _ s' h' => endOp_runs h'

theorem sysChdir_runs (h : Inv sb p R [] s) (path : Option Path) :
    Runs sb p (sysChdir path) (fun _ s' => Inv sb p R [] s') s := by
  refine runs_bind_ok .beginOp rfl ?_
  cases path with
  | none => exact endOp_runs h
  | some path =>
  refine Runs.bind (namei_runs path h) ?_
  rintro (_ | ip) s₁ h₁
  · exact endOp_runs h₁
  refine Runs.bind (ilock_runs h₁ (h₁.ref_pos List.mem_cons_self)) ?_
  rintro - s₂ ⟨c, -, -, h₂⟩
  refine Runs.bind (fields_runs h₂ List.mem_cons_self) ?_
  rintro c s₃ ⟨rfl, rfl⟩
  split
  · exact Runs.bind (iunlockput_runs h₂) fun _ s' h' => endOp_runs h'
  refine Runs.bind (iunlock_runs h₂) fun _ s₄ h₄ => ?_
  refine Runs.bind (takeCwd_runs h₄) ?_
  rintro old s₅ ⟨h₅, hcwd⟩
  refine Runs.bind ((iput_runs h₅ (by simp)).places (iput_uses old)) ?_
  rintro - s₆ ⟨h₆, hsame, -⟩
  refine runs_bind_ok .endOp rfl (Runs.bind (setCwd_runs h₆ ?_) fun _ s' h' => h')
  rw [hsame]
  exact hcwd

theorem fileclose_runs (h : Inv sb p R [] s) (fd : ℕ) :
    Runs sb p (fileclose fd) (fun _ s' => Inv sb p R [] s') s := by
  refine Runs.bind (takeFile_runs h fd) fun ip s₁ h₁ => ?_
  refine runs_bind_ok .beginOp rfl (Runs.bind (iput_runs h₁ (by simp)) fun _ s₂ h₂ => ?_)
  exact runs_ok .endOp rfl h₂

theorem sysClose_runs (h : Inv sb p R [] s) (fd : ℕ) :
    Runs sb p (sysClose fd) (fun _ s' => Inv sb p R [] s') s := by
  refine Runs.bind (argfd_runs fd) ?_
  rintro (_ | f) s₁ ⟨rfl, -⟩
  · exact h
  · exact Runs.bind (fileclose_runs h fd) fun _ s' h' => h'

theorem closeFiles_runs (h : Inv sb p R [] s) (k fd : ℕ) :
    Runs sb p (closeFiles k fd) (fun _ s' => Inv sb p R [] s') s := by
  induction k generalizing fd s with
  | zero => exact h
  | succ k ih =>
    refine Runs.bind (argfd_runs fd) ?_
    rintro (_ | f) s₁ ⟨rfl, -⟩
    · exact ih h (fd + 1)
    · exact Runs.bind (fileclose_runs h fd) fun _ s' h' => ih h' (fd + 1)

theorem exit_runs (h : Inv sb p R [] s) : Runs sb p exit (fun _ s' => Inv sb p R [] s') s := by
  refine Runs.bind (closeFiles_runs h nOFile 0) fun _ s₁ h₁ => ?_
  refine runs_bind_ok .beginOp rfl (Runs.bind (takeCwd_runs h₁) ?_)
  rintro ip s₂ ⟨h₂, -⟩
  exact Runs.bind (iput_runs h₂ (by simp)) fun _ s₃ h₃ => runs_ok .endOp rfl h₃

theorem advance_runs (h : Inv sb p R L s) (fd off : ℕ) (r : ℤ) :
    Runs sb p (advance fd off r)
      (fun _ s' => Inv sb p R L s' ∧ ∀ ip, s.WritesTo p fd ip → s'.WritesTo p fd ip) s := by
  rw [advance]
  split
  · exact setOff_runs h fd _
  · exact ⟨h, fun _ => id⟩

theorem sysRead_runs (h : Inv sb p R [] s) (fd : ℕ) (dst : ℕ → Bool) (n : ℤ) :
    Runs sb p (sysRead fd dst n) (fun _ s' => Inv sb p R [] s') s := by
  refine Runs.bind (argfd_runs fd) ?_
  rintro (_ | f) s₁ ⟨rfl, hf⟩
  · exact h
  obtain ⟨hfd, hf⟩ := hf f rfl
  have hpos := h.ref_pos_of_keeps (k := (p, some ⟨fd, hfd⟩)) (x := f.ip) (by
    simp [State.keeps, hf])
  dsimp only
  split
  · exact h
  split
  · exact h
  refine Runs.bind (ilock_runs h hpos) ?_
  rintro - s₂ ⟨c, -, -, h₂⟩
  refine Runs.bind (readi_runs h₂ List.mem_cons_self dst _ _) ?_
  rintro r s₃ rfl
  refine Runs.bind (advance_runs h₂ fd _ r) ?_
  rintro - s₄ ⟨h₄, -⟩
  exact Runs.bind (iunlock_runs h₄) fun _ s' h' => h'

omit [DecidableEq P] in
theorem Inv.not_dir (h : Inv sb p R L s) {fd : ℕ} (hw : s.WritesTo p fd ip) :
    0 < (s.table ip).ref ∧ (dinode sb s.store.disk (s.table ip).inum).type ≠ tDir := by
  obtain ⟨hfd, f, hf, rfl, hwr⟩ := hw
  have hpos := h.ref_pos_of_keeps (k := (p, some ⟨fd, hfd⟩)) (x := f.ip) (by
    simp [State.keeps, hf])
  obtain ⟨hv, ht⟩ := h.files p _ f hf hwr
  refine ⟨hpos, ?_⟩
  rw [← (h.coherent f.ip hpos hv).1.1]
  exact ht

omit [Fintype P] [DecidableEq P] in
theorem State.WritesTo.of_places {s' : State P} {fd : ℕ} (h : s.WritesTo p fd ip)
    (hf : s'.ofile = s.ofile) : s'.WritesTo p fd ip := by
  obtain ⟨hfd, f, hfile, hrest⟩ := h
  exact ⟨hfd, f, by rw [hf]; exact hfile, hrest⟩

theorem writeChunks_runs (fd : ℕ) (src : ℕ → Option UInt8) (k i off left : ℕ)
    (h : Inv sb p R [] s) (hw : s.WritesTo p fd ip) :
    Runs sb p (writeChunks fd ip src k i off left) (fun _ s' => Inv sb p R [] s') s := by
  induction k generalizing i off left s with
  | zero => exact h
  | succ k ih =>
    rw [writeChunks]
    split
    · exact h
    obtain ⟨hpos, hdir⟩ := h.not_dir hw
    refine runs_bind_ok .beginOp rfl (Runs.bind ((ilock_runs h hpos).places
      ⟨trivial, fun _ => ⟨trivial, fun _ => trivial⟩⟩) ?_)
    rintro - s₁ ⟨⟨c, hc, -, h₁⟩, -, hf₁⟩
    have hn : min left maxWrite < 2 ^ 32 := lt_of_le_of_lt (Nat.min_le_right _ _) (by decide)
    refine Runs.bind ((writei_runs h₁ (by rw [hc]; exact hdir) (fun j => src (i + j)) off hn).places
      ⟨trivial, fun _ => trivial⟩) ?_
    rintro r s₂ ⟨⟨c', -, h₂⟩, -, hf₂⟩
    refine Runs.bind (advance_runs h₂ fd off r) ?_
    rintro - s₃ ⟨h₃, hw₃⟩
    refine Runs.bind ((iunlock_runs h₃).places ⟨trivial, fun _ => trivial⟩) ?_
    rintro - s₄ ⟨h₄, -, hf₄⟩
    refine runs_bind_ok .endOp rfl ?_
    split
    · exact h₄
    · exact ih _ _ _ h₄ ((hw₃ ip ((hw.of_places hf₁).of_places hf₂)).of_places hf₄)

theorem sysWrite_runs (h : Inv sb p R [] s) (fd : ℕ) (src : ℕ → Option UInt8) (n : ℤ) :
    Runs sb p (sysWrite fd src n) (fun _ s' => Inv sb p R [] s') s := by
  refine Runs.bind (argfd_runs fd) ?_
  rintro (_ | f) s₁ ⟨rfl, hf⟩
  · exact h
  obtain ⟨hfd, hf⟩ := hf f rfl
  dsimp only
  split
  · exact h
  rename_i hwr
  split
  · exact h
  refine Runs.bind (writeChunks_runs fd src _ 0 f.off n.toNat h
    ⟨hfd, f, hf, rfl, by simpa using hwr⟩) fun r s' h' => ?_
  split
  · exact h'
  · exact h'

theorem syscall_runs (h : Inv sb p [] [] s) (call : Syscall) :
    Runs sb p (call.code sb.ninodes) (fun _ s' => Inv sb p [] [] s') s := by
  cases call with
  | openPath path omode => exact sysOpen_runs h path omode
  | mkdir path => exact sysCreate_runs h path tDir 0 0
  | mknod path major minor => exact sysCreate_runs h path tDevice major minor
  | link old new => exact sysLink_runs old new h
  | unlink path => exact sysUnlink_runs path h
  | chdir path => exact sysChdir_runs h path
  | close fd => exact sysClose_runs h fd
  | read fd dst n => exact sysRead_runs h fd dst n
  | write fd src n => exact sysWrite_runs h fd src n
  | exit => exact Runs.bind (exit_runs h) fun _ _ h' => h'

/-- The file system after boot: every process is in the root directory and has no open file. -/
def boot (P : Type) [Fintype P] (disk : Disk) (deny : ℕ → Bool) : State P where
  store := ⟨disk, deny, 0, [], []⟩
  table x := ⟨rootIno, if x = 0 then Fintype.card P else 0, false, none, .zero⟩
  cwd _ := some 0
  ofile _ _ := none

def runCalls (sb : Superblock) : List (P × Syscall) → State P → Except Stop (State P)
  | [], s => .ok s
  | (p, call) :: calls, s => do
    let r ← (call.code sb.ninodes).run (perform sb p) s
    runCalls sb calls r.2

omit [DecidableEq P] in
theorem Inv.anyone (h : Inv sb p [] [] s) (q : P) : Inv sb q [] [] s :=
  ⟨h.clean, h.refs, h.unique, h.inums, h.locks, h.nodup, h.locked, h.coherent, h.files⟩

omit [DecidableEq P] in
theorem boot_inv {disk : Disk} (h : Consistent sb disk (dinode sb disk)) (deny : ℕ → Bool)
    (p : P) : Inv sb p [] [] (boot P disk deny) where
  clean := ⟨h, by simp [boot]⟩
  refs x := by
    have hk : (boot P disk deny).kept x = ∑ k : P × Option (Fin nOFile),
        if k.2 = none ∧ x = 0 then 1 else 0 := by
      refine Finset.sum_congr rfl ?_
      rintro ⟨q, _ | fd⟩ - <;> simp [State.keeps, boot, eq_comm]
    rw [hk, Fintype.sum_prod_type]
    by_cases hx : x = 0
    · simp [boot, hx]
    · simp [boot, hx]
  unique x y := by
    by_cases hx : x = 0 <;> by_cases hy : y = 0 <;> simp [boot, hx, hy]
  inums x _ := sb.root_lt
  locks x := rfl
  nodup := List.nodup_nil
  locked x c hc := by simp at hc
  coherent x _ hv := by simp [boot] at hv
  files q fd f hf := by simp [boot] at hf

theorem runCalls_keeps (calls : List (P × Syscall)) (hs : ∀ p, Inv sb p [] [] s) :
    Ends Tolerated (fun s' => ∀ p, Inv sb p [] [] s') (runCalls sb calls s) := by
  induction calls generalizing s with
  | nil => exact hs
  | cons call calls ih =>
    obtain ⟨p, call⟩ := call
    refine Ends.bind ((Prog.ends_of_wp (syscall_runs (hs p) call)).mono fun r hr => ?_)
    exact ih hr.anyone

/-- On a disk whose blocks are exactly owned, any sequence of system calls leaves the blocks
exactly owned, and every block that `balloc` handed out was a data block that nobody
owned. None of the panics of the block layer and of the reads of directories happens.
The environment refuses what it likes, and user memory ends where it likes. -/
theorem block_ownership {disk : Disk} (h : Consistent sb disk (dinode sb disk))
    (deny : ℕ → Bool) (calls : List (P × Syscall)) :
    (∀ s, runCalls sb calls (boot P disk deny) = .ok s →
        Consistent sb s.store.disk (dinode sb s.store.disk) ∧
          ∀ g ∈ s.store.grants, g.Sound sb) ∧
      ∀ e ∈ [Panic.freeingFreeBlock, .bmapOutOfRange, .dirlookupRead, .dirlinkRead,
          .isdiremptyReadi],
        runCalls sb calls (boot P disk deny) ≠ .error (.panic e) := by
  have hrun := runCalls_keeps calls (boot_inv (P := P) h deny)
  refine ⟨fun s hs => ?_, fun e he herr => ?_⟩
  · rw [hs, ends_ok] at hrun
    cases calls with
    | nil =>
      cases hs
      exact ⟨h, by simp [boot]⟩
    | cons call _ =>
      have hclean := (hrun call.1).clean
      exact ⟨hclean.view, hclean.grants⟩
  · rw [herr] at hrun
    exact hrun he

def smallRoot : Dinode :=
  ⟨tDir, 0, 0, 1, 2 * direntSize, fun k => if k = 0 then 3 else 0⟩

def smallDisk : Disk
  | 1 => encodeDinode (fun _ => 0) dinodeSize smallRoot
  | 2 => putByte (fun _ => 0) 0 0b1111
  | 3 => fun i => (encodeDirent ⟨rootIno, dot⟩ ++ encodeDirent ⟨rootIno, dotdot⟩).getD i 0
  | _ => fun _ => 0

theorem smallDisk_root : dinode smallSuperblock smallDisk rootIno = smallRoot := by
  have hfits : smallRoot.Fits := ⟨by decide, by decide⟩
  have hblock : smallSuperblock.iblock rootIno = 1 := by decide
  have hoff : rootIno % ipb * dinodeSize = dinodeSize := by decide
  rw [dinode, hblock, hoff, smallDisk]
  exact decodeDinode_encodeDinode_self _ hfits (by decide)

/-- Blocks are accounted for if inodes 1 to `k` are in use, and each has one block, the one two
blocks behind its number. -/
theorem accounted_of_blocks {disk : Disk} {k : ℕ} (hk : k < 3)
    (hused : ∀ i < 3, (dinode smallSuperblock disk i).type ≠ 0 ↔ 1 ≤ i ∧ i ≤ k)
    (haddrs : ∀ i < 3, 1 ≤ i → i ≤ k →
      (dinode smallSuperblock disk i).addrs = fun a => if a = 0 then i + 2 else 0)
    (hsize : ∀ i < 3, (dinode smallSuperblock disk i).size ≤ bSize ∧
      direntSize ∣ (dinode smallSuperblock disk i).size)
    (hbits : ∀ b < 6, bit smallSuperblock disk b = true ↔ b < k + 3) :
    Accounted smallSuperblock disk (dinode smallSuperblock disk) := by
  have hptr (i : ℕ) (hi : i < 3) (h₁ : 1 ≤ i) (h₂ : i ≤ k) (q : Pos) :
      ptr disk (dinode smallSuperblock disk i) q = if q = .addr 0 then i + 2 else 0 := by
    cases q with
    | addr a => simp [ptr, haddrs i hi h₁ h₂]
    | entry j =>
      have hind : (dinode smallSuperblock disk i).indirect = 0 := by
        rw [Dinode.indirect, haddrs i hi h₁ h₂]
        rfl
      simp [ptr, entryAt, hind]
  have howns (o : ℕ × Pos) (b : ℕ) :
      owns smallSuperblock disk (dinode smallSuperblock disk) o = some b ↔
        o = (b - 2, .addr 0) ∧ 3 ≤ b ∧ b < k + 3 := by
    obtain ⟨i, q⟩ := o
    rw [owns_eq_some, Prod.mk.injEq]
    constructor
    · rintro ⟨⟨hi, ht⟩, hb, hne⟩
      obtain ⟨h₁, h₂⟩ := (hused i hi).mp ht
      rw [hptr i hi h₁ h₂] at hb
      split at hb
      · next hq => exact ⟨⟨by omega, hq⟩, by omega, by omega⟩
      · exact absurd hb.symm hne
    · rintro ⟨⟨rfl, rfl⟩, h₁, h₂⟩
      have hi : b - 2 < 3 := by omega
      refine ⟨⟨hi, (hused _ hi).mpr ⟨by omega, by omega⟩⟩, ?_, by omega⟩
      rw [hptr _ hi (by omega) (by omega), if_pos rfl]
      omega
  refine ⟨⟨fun {o b} h => ?_, fun {o o' b} h h' => ?_, fun {b} hb => ?_⟩, fun b hb => ?_,
    fun i hi ht => ?_⟩
  · obtain ⟨-, h₁, h₂⟩ := (howns o b).mp h
    exact ⟨h₁, show b < 6 by omega⟩
  · exact ((howns o b).mp h).1.trans ((howns o' b).mp h').1.symm
  · rw [hbits b hb.2]
    refine ⟨fun h => ⟨_, (howns _ b).mpr ⟨rfl, hb.1, h⟩⟩, ?_⟩
    rintro ⟨o, ho⟩
    exact ((howns o b).mp ho).2.2
  · have hlt : b < 3 := hb
    exact (hbits b (by omega)).mpr (by omega)
  · obtain ⟨h₁, h₂⟩ := (hused i hi).mp ht
    obtain ⟨hle, hdvd⟩ := hsize i hi
    refine ⟨hle.trans (by decide), fun bn hbn => ?_, fun _ => hdvd⟩
    obtain rfl : bn = 0 := by
      rw [bSize] at *
      omega
    rw [hptr i hi h₁ h₂]
    exact Nat.succ_ne_zero _

theorem smallDisk_consistent :
    Consistent smallSuperblock smallDisk (dinode smallSuperblock smallDisk) := by
  have h : Accounted smallSuperblock smallDisk (dinode smallSuperblock smallDisk) :=
    accounted_of_blocks (k := 1) (by decide) (by decide +kernel) (by decide +kernel)
      (by decide +kernel) (by decide +kernel)
  refine ⟨h.owned, h.meta_used, fun i hi ht => ⟨h.filled i hi ht, fun hdir n hn => ?_⟩⟩
  have hused : ∀ i < 3, (dinode smallSuperblock smallDisk i).type ≠ 0 → i = rootIno := by
    decide +kernel
  obtain rfl := hused i hi ht
  rw [smallDisk_root] at hn ⊢
  have hentries : ∀ n < 2, entryInum (smallDisk (ptr smallDisk smallRoot
      (dataPos (n * direntSize / bSize)))) (n * direntSize % bSize) < 3 := by
    decide +kernel
  refine hentries n ?_
  simp only [smallRoot, direntSize] at hn
  omega

/-- A file is made, written and removed, and then a directory is made. -/
def fileAndDirectory : List (Unit × Syscall) :=
  [((), .openPath (some [98]) (oCreate ||| oRdwr)), ((), .write 0 (fun _ => some 7) 5),
    ((), .close 0), ((), .unlink (some [98])), ((), .mkdir (some [97]))]

/-- All calls succeed: two blocks are handed out, and inode 2 is a directory in the end. -/
theorem block_ownership_fileAndDirectory :
    Consistent smallSuperblock smallDisk (dinode smallSuperblock smallDisk) ∧
    ∃ s, runCalls smallSuperblock fileAndDirectory (boot Unit smallDisk fun _ => false) = .ok s ∧
      Consistent smallSuperblock s.store.disk (dinode smallSuperblock s.store.disk) ∧
      (∀ g ∈ s.store.grants, g.Sound smallSuperblock) ∧ s.store.grants.length = 2 ∧
      (dinode smallSuperblock s.store.disk 2).type = tDir := by
  have hrun : ((runCalls smallSuperblock fileAndDirectory
      (boot Unit smallDisk fun _ => false)).toOption.any fun s =>
        s.store.grants.length = 2 ∧
        (dinode smallSuperblock s.store.disk 2).type = tDir) = true := by
    decide +kernel
  obtain ⟨s, hs, hprop⟩ := exists_ok_of_any hrun
  obtain ⟨hconsistent, hgrants⟩ := (block_ownership smallDisk_consistent _ _).1 s hs
  exact ⟨smallDisk_consistent, s, hs, hconsistent, hgrants, of_decide_eq_true hprop⟩

/-- A disk with a file of 64 bytes in block 4, and with an entry `x` in the root directory that
names inode 48. There is no such inode: its place would be in block 4. -/
def strayDisk : Disk
  | 1 => encodeDinode (encodeDinode (fun _ => 0) dinodeSize
      ⟨tDir, 0, 0, 1, 4 * direntSize, fun k => if k = 0 then 3 else 0⟩) (2 * dinodeSize)
      ⟨tFile, 0, 0, 1, dinodeSize, fun k => if k = 0 then 4 else 0⟩
  | 2 => putByte (fun _ => 0) 0 0b11111
  | 3 => fun i => (encodeDirent ⟨rootIno, dot⟩ ++ encodeDirent ⟨rootIno, dotdot⟩ ++
      encodeDirent ⟨2, [102]⟩ ++ encodeDirent ⟨48, [120]⟩).getD i 0
  -- the bytes of the file: they look like a dinode that has the free block 5
  | 4 => encodeDinode (fun _ => 0) 0 ⟨tFile, 0, 0, 1, 0, fun k => if k = 0 then 5 else 0⟩
  | _ => fun _ => 0

/-- On a disk whose bitmap is exact, `unlink` of an entry that names no inode of the file system
frees a free block. -/
theorem unlink_frees_free_block :
    Accounted smallSuperblock strayDisk (dinode smallSuperblock strayDisk) ∧
    runCalls smallSuperblock [((), .unlink (some [120]))] (boot Unit strayDisk fun _ => false) =
      .error (.panic .freeingFreeBlock) := by
  refine ⟨accounted_of_blocks (k := 2) (by decide) (by decide +kernel) (by decide +kernel)
    (by decide +kernel) (by decide +kernel), ?_⟩
  have hrun : (match runCalls smallSuperblock [((), .unlink (some [120]))]
      (boot Unit strayDisk fun _ => false) with
    | .ok _ => false
    | .error e => e = .panic .freeingFreeBlock) = true := by decide +kernel
  split at hrun
  · exact absurd hrun Bool.false_ne_true
  · next h => rw [h, of_decide_eq_true hrun]

end Xv6.Fs
