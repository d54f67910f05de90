import Xv6.SystemCallSteps

/-!
# Reading back the contents of a file

An inode holds a string of bytes if its first blocks are there and have the bytes in them.
Then `readi` returns the part of the string it is asked for, and `dirlookup` in a directory
that holds the bytes of a list of entries finds the first one with the name.
-/

namespace Xv6.Fs

open LittleEndianBlocks OperationPrograms

structure Holds (disk : Disk) (d : Dinode) (cs : List UInt8) : Prop where
  length_le : cs.length ≤ maxFile * bSize
  mapped : ∀ bn, bn * bSize < cs.length → ptr disk d (dataPos bn) ≠ 0
  bytes : ∀ k (h : k < cs.length),
    getByte (disk (ptr disk d (dataPos (k / bSize)))) (k % bSize) = cs[k]

variable {sb : Superblock} {st : Store} {d : Dinode} {c : List UInt8}

theorem Holds.fileBytes (h : Holds st.disk d c) {off n : ℕ} (hend : off + n ≤ c.length) :
    fileBytes st.disk d off n = (c.drop off).take n := by
  refine List.ext_getElem ?_ fun k hk _ => ?_
  · rw [length_fileBytes, List.length_take, List.length_drop]
    omega
  · rw [length_fileBytes] at hk
    have hb := h.bytes (off + k) (by omega)
    simpa [Fs.fileBytes, fileByte] using hb

theorem readi_holds (h : Holds st.disk d c) (i : ℕ) {off n : ℕ} (hend : off + n ≤ c.length)
    (hsize : c.length ≤ d.size) :
    readiBlocks sb i d st (fun _ => true) off n = .ok ((n, (c.drop off).take n), d, st) := by
  have hle := h.length_le
  have hmax : maxFile * bSize = 274432 := by decide
  have hcount : readCount d off n = n := by rw [readCount, if_neg (by omega), if_neg (by omega)]
  rw [readi_eq h.length_le h.mapped i _ hcount fun _ => hend, copyout_true, if_neg (lt_irrefl _),
    h.fileBytes hend]

structure Dirent.Fits (de : Dirent) : Prop where
  inum_lt : de.inum < 2 ^ 16
  length_le : de.name.length ≤ dirSiz
  zero_notMem : 0 ∉ de.name

theorem decodeDirent_encodeDirent {de : Dirent} (h : de.Fits) :
    decodeDirent (encodeDirent de) = de := by
  obtain ⟨inum, name⟩ := de
  obtain ⟨hinum, hlen, hzero⟩ := h
  dsimp only at hinum hlen hzero
  have hpad : (name ++ List.replicate dirSiz 0).take dirSiz =
      name ++ List.replicate (dirSiz - name.length) 0 := by
    rw [List.take_append, List.take_of_length_le hlen, List.take_replicate]
    congr 2
    omega
  have hname : (name ++ List.replicate (dirSiz - name.length) (0 : UInt8)).takeWhile (· ≠ 0) =
      name := by
    rw [List.takeWhile_append_of_pos]
    · cases dirSiz - name.length <;> simp [List.replicate_succ]
    · intro b hb
      simpa using fun h0 : b = 0 => hzero (h0 ▸ hb)
  simp only [encodeDirent, decodeDirent, hpad, List.getD_cons_zero, List.getD_cons_succ,
    List.drop_succ_cons, List.drop_zero, Dirent.mk.injEq, UInt8.toNat_ofNat']
  refine ⟨by omega, ?_⟩
  rw [List.take_of_length_le (by simp; omega)]
  exact hname

def direntBytes (es : List Dirent) : List UInt8 := es.flatMap encodeDirent

theorem length_direntBytes (es : List Dirent) :
    (direntBytes es).length = es.length * direntSize := by
  induction es with
  | nil => rfl
  | cons de es ih =>
    simp only [direntBytes, List.flatMap_cons, List.length_append] at ih ⊢
    rw [ih, length_encodeDirent, List.length_cons]
    ring

theorem direntBytes_drop (es : List Dirent) {n : ℕ} (hn : n < es.length) :
    ((direntBytes es).drop (n * direntSize)).take direntSize = encodeDirent es[n] := by
  induction es generalizing n with
  | nil => simp at hn
  | cons de es ih =>
    have hlen := length_encodeDirent de
    simp only [direntBytes, List.flatMap_cons] at ih ⊢
    cases n with
    | zero =>
      rw [Nat.zero_mul, List.drop_zero, ← hlen, List.take_left' rfl]
      rfl
    | succ n =>
      have hdrop : (n + 1) * direntSize = (encodeDirent de).length + n * direntSize := by
        rw [hlen]
        ring
      rw [hdrop, ← List.drop_drop, List.drop_left' rfl, ih (by simpa using hn)]
      rfl

variable {P : Type} [DecidableEq P] {p : P} {s : State P} {dp : Slot} {es : List Dirent}

structure Lists (s : State P) (dp : Slot) (es : List Dirent) : Prop where
  holds : Holds s.store.disk (s.table dp).copy (direntBytes es)
  size_ge : es.length * direntSize ≤ (s.table dp).copy.size
  fits : ∀ de ∈ es, de.Fits

theorem readDirent_lists (h : Lists s dp es) {n : ℕ} (hn : n < es.length) :
    perform sb p (.readDirent dp (n * direntSize)) s = .ok (some es[n], s) := by
  have hend : n * direntSize + direntSize ≤ (direntBytes es).length := by
    rw [length_direntBytes]
    exact Nat.succ_mul n _ ▸ Nat.mul_le_mul_right _ hn
  have hread : readiBlocks sb (s.table dp).inum (s.table dp).copy s.store (fun _ => true)
      (n * direntSize) direntSize = _ :=
    readi_holds h.holds (s.table dp).inum hend (by rw [length_direntBytes]; exact h.size_ge)
  rw [direntBytes_drop es hn] at hread
  have hde := decodeDirent_encodeDirent (h.fits _ (List.getElem_mem hn))
  simp only [perform, hread, raise, bind, Except.bind, hde, settle_same]
  rfl

theorem dirFind_lists (h : Lists s dp es) {name : Name} {m : ℕ} (hm : m < es.length)
    (hinum : es[m].inum ≠ 0) (hname : es[m].name = name)
    (hfirst : ∀ j (hj : j < m), es[j].name ≠ name) (k n : ℕ) (hn : n ≤ m) (hk : m < n + k) :
    (dirFind dp name k n).run (perform sb p) s = .ok (some (es[m].inum, m * direntSize), s) := by
  induction k generalizing n with
  | zero => omega
  | succ k ih =>
    have hread : (readDirent dp (n * direntSize)).run (perform sb p) s = .ok (some es[n], s) :=
      Prog.run_perform (readDirent_lists h (lt_of_le_of_lt hn hm))
    rw [dirFind, Prog.run_bind_eq hread]
    dsimp only
    by_cases hnm : n = m
    · subst hnm
      rw [if_pos ⟨hinum, hname⟩]
      rfl
    · rw [if_neg fun hmatch => hfirst n (by omega) hmatch.2]
      exact ih (n + 1) (by omega) (by omega)

theorem dirlookup_lists (h : Lists s dp es) (ht : (s.table dp).copy.type = tDir) {name : Name}
    {m : ℕ} (hm : m < es.length) (hinum : es[m].inum ≠ 0) (hname : es[m].name = name)
    (hfirst : ∀ j (hj : j < m), es[j].name ≠ name) :
    (dirlookup dp name).run (perform sb p) s =
      match s.table.iget es[m].inum with
      | none => .error (.panic .igetNoInodes)
      | some (ip, table) => .ok (some (ip, m * direntSize), { s with table }) := by
  have hentries : m < 0 + entriesFrom (s.table dp).copy.size 0 := by
    have hsize := h.size_ge
    simp only [entriesFrom, direntSize] at *
    omega
  exact dirlookup_of_find ht (dirFind_lists h hm hinum hname hfirst _ 0 (Nat.zero_le m) hentries)

end Xv6.Fs
