import Xv6.DirectoryBlocks

/-!
# Names as zero-terminated strings

`strncmp` and `strncpy` of `string.c` on strings in memory, and what they make of the names of
files: two names are the same if they agree in their first `DIRSIZ` bytes up to a zero, and the
name in a directory entry need not end in a zero.
-/

namespace Xv6.Fs

abbrev CString := ℕ → UInt8

def CString.tail (s : CString) : CString := fun k => s (k + 1)

/-- The bytes of an array that holds `bs`, and zeros behind them. -/
def CString.ofList (bs : List UInt8) : CString := fun k => bs.getD k 0

def strncmp (p q : CString) : (n : ℕ) → ℤ
  | 0 => 0
  | n + 1 =>
    if p 0 ≠ 0 ∧ p 0 = q 0 then strncmp p.tail q.tail n
    else (p 0).toNat - (q 0).toNat

def strncpy (t : CString) : (n : ℕ) → List UInt8
  | 0 => []
  | n + 1 => if t 0 = 0 then 0 :: List.replicate n 0 else t 0 :: strncpy t.tail n

/-- The first `n` bytes of a string up to a zero. -/
def CString.cut (s : CString) : (n : ℕ) → List UInt8
  | 0 => []
  | n + 1 => if s 0 = 0 then [] else s 0 :: s.tail.cut n

def namecmp (s t : CString) : ℤ := strncmp s t dirSiz

def CString.name (s : CString) : Name := s.cut dirSiz

theorem strncmp_eq_zero_iff (p q : CString) (n : ℕ) : strncmp p q n = 0 ↔ p.cut n = q.cut n := by
  induction n generalizing p q with
  | zero => simp [strncmp, CString.cut]
  | succ n ih =>
    rw [strncmp, CString.cut, CString.cut]
    by_cases hp : p 0 = 0
    · by_cases hq : q 0 = 0
      · simp [hp, hq]
      · have hne : (q 0).toNat ≠ 0 := fun h0 => hq (UInt8.toNat_inj.mp h0)
        simp [hp, hq]
        omega
    · by_cases heq : p 0 = q 0
      · simp [hp, ← heq, ih]
      · have hne : (p 0).toNat ≠ (q 0).toNat := fun h => heq (UInt8.toNat_inj.mp h)
        rw [if_neg fun h => heq h.2]
        by_cases hq : q 0 = 0
        · rw [hq] at hne
          simp [hp, hq]
          exact hne
        · simp [hp, hq, heq]
          omega

theorem CString.length_cut_le (s : CString) (n : ℕ) : (s.cut n).length ≤ n := by
  induction n generalizing s with
  | zero => simp [cut]
  | succ n ih =>
    rw [cut]
    split
    · simp
    · simpa using ih s.tail

theorem CString.zero_notMem_cut (s : CString) (n : ℕ) : 0 ∉ s.cut n := by
  induction n generalizing s with
  | zero => simp [cut]
  | succ n ih =>
    rw [cut]
    split
    · simp
    · simp [Ne.symm ‹_›, ih s.tail]

theorem strncpy_eq (t : CString) (n : ℕ) :
    strncpy t n = t.cut n ++ List.replicate (n - (t.cut n).length) 0 := by
  induction n generalizing t with
  | zero => rfl
  | succ n ih =>
    rw [strncpy, CString.cut]
    split
    · simp [List.replicate_succ]
    · simp [ih]

theorem CString.cut_ofList {bs : List UInt8} (h : 0 ∉ bs) (n : ℕ) :
    (CString.ofList bs).cut n = bs.take n := by
  induction n generalizing bs with
  | zero => rfl
  | succ n ih =>
    cases bs with
    | nil => simp [cut, ofList]
    | cons b bs =>
      simp only [List.mem_cons, not_or] at h
      have htail : (CString.ofList (b :: bs)).tail = CString.ofList bs := by
        funext k
        simp [tail, ofList]
      rw [cut, htail, ih h.2]
      simp [ofList, Ne.symm h.1]

theorem namecmp_eq_zero_iff {s : CString} {de : Dirent} (h : de.Fits) :
    namecmp s (CString.ofList de.name) = 0 ↔ de.name = s.name := by
  rw [namecmp, strncmp_eq_zero_iff, CString.cut_ofList h.zero_notMem,
    List.take_of_length_le h.length_le, CString.name, eq_comm]

def newDirent (s : CString) (inum : ℕ) : Dirent :=
  decodeDirent (UInt8.ofNat inum :: UInt8.ofNat (inum / 256) :: strncpy s dirSiz)

theorem CString.fits (s : CString) {inum : ℕ} (h : inum < 2 ^ 16) : Dirent.Fits ⟨inum, s.name⟩ :=
  ⟨h, s.length_cut_le dirSiz, s.zero_notMem_cut dirSiz⟩

theorem encodeDirent_name (s : CString) (inum : ℕ) :
    encodeDirent ⟨inum, s.name⟩ =
      UInt8.ofNat inum :: UInt8.ofNat (inum / 256) :: strncpy s dirSiz := by
  have hlen : s.name.length ≤ dirSiz := s.length_cut_le dirSiz
  rw [encodeDirent, strncpy_eq, List.take_append, List.take_of_length_le hlen,
    List.take_replicate, min_eq_left (Nat.sub_le _ _)]
  rfl

theorem newDirent_eq (s : CString) (inum : ℕ) : newDirent s inum = ⟨inum % 2 ^ 16, s.name⟩ := by
  have hbytes := encodeDirent_name s (inum % 2 ^ 16)
  have hlow : UInt8.ofNat (inum % 2 ^ 16) = UInt8.ofNat inum := by
    refine UInt8.toNat_inj.mp ?_
    simp only [UInt8.toNat_ofNat']
    omega
  have hhigh : UInt8.ofNat (inum % 2 ^ 16 / 256) = UInt8.ofNat (inum / 256) := by
    refine UInt8.toNat_inj.mp ?_
    simp only [UInt8.toNat_ofNat']
    omega
  rw [hlow, hhigh] at hbytes
  rw [newDirent, ← hbytes]
  exact decodeDirent_encodeDirent (s.fits (Nat.mod_lt _ (by decide)))

theorem decodeDirent_fits (bs : List UInt8) : (decodeDirent bs).Fits where
  inum_lt := by
    have h0 := (bs.getD 0 0).toNat_lt
    have h1 := (bs.getD 1 0).toNat_lt
    simp only [decodeDirent]
    omega
  length_le := by
    refine le_trans (List.takeWhile_sublist _).length_le ?_
    simp
  zero_notMem h := by
    have hne := List.all_takeWhile (p := fun b : UInt8 => b ≠ 0) (l := (bs.drop 2).take dirSiz)
    simpa using List.all_eq_true.mp hne 0 h

end Xv6.Fs
