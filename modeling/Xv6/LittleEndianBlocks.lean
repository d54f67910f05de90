import Mathlib.Data.Nat.Basic
import Mathlib.Tactic.Ring

/-!
# Little-endian fields inside a fixed-size byte block

A block is a total map from byte positions to bytes. A field is a run of `k` bytes
holding a natural number modulo `256 ^ k`, least significant byte first. Two fields
whose byte runs do not meet can be read and written independently.
-/

namespace Xv6.LittleEndianBlocks

abbrev Bytes (n : ℕ) := Fin n → UInt8

variable {n : ℕ}

def getByte (b : Bytes n) (i : ℕ) : UInt8 := if h : i < n then b ⟨i, h⟩ else 0

def putByte (b : Bytes n) (i : ℕ) (v : UInt8) : Bytes n := fun j => if j.val = i then v else b j

theorem getByte_putByte_self (b : Bytes n) {i : ℕ} (v : UInt8) (h : i < n) :
    getByte (putByte b i v) i = v := by simp [getByte, putByte, h]

theorem getByte_putByte_ne (b : Bytes n) {i j : ℕ} (v : UInt8) (h : j ≠ i) :
    getByte (putByte b i v) j = getByte b j := by
  by_cases hj : j < n
  · simp [getByte, putByte, hj, h]
  · simp [getByte, hj]

/-- The `k`-byte little-endian number starting at `off`. -/
def getField (b : Bytes n) (off : ℕ) : ℕ → ℕ
  | 0 => 0
  | k + 1 => (getByte b off).toNat + 256 * getField b (off + 1) k

/-- Store the `k` low-order bytes of `v` starting at `off`. -/
def putField (b : Bytes n) (off v k : ℕ) : Bytes n := fun j =>
  if off ≤ j ∧ j < off + k then UInt8.ofNat (v / 256 ^ (j - off)) else b j

theorem getByte_putField_inside (b : Bytes n) (off v k : ℕ) {i : ℕ} (h : off + i < n)
    (hi : i < k) : getByte (putField b off v k) (off + i) = UInt8.ofNat (v / 256 ^ i) := by
  simp [getByte, putField, h, hi]

theorem getByte_putField_outside (b : Bytes n) (off v k : ℕ) {i : ℕ}
    (h : i < off ∨ off + k ≤ i) : getByte (putField b off v k) i = getByte b i := by
  have hout : ¬(off ≤ i ∧ i < off + k) := by omega
  by_cases hi : i < n
  · simp only [getByte, putField, hi, hout, if_false]
  · simp only [getByte, hi, dite_false]

theorem getField_congr {b c : Bytes n} (off k : ℕ)
    (h : ∀ i, off ≤ i → i < off + k → getByte b i = getByte c i) :
    getField b off k = getField c off k := by
  induction k generalizing off with
  | zero => rfl
  | succ k ih =>
    rw [getField, getField, h off (by omega) (by omega),
      ih (off + 1) (fun i h₁ h₂ => h i (by omega) (by omega))]

theorem getField_putField_self (b : Bytes n) (off v k : ℕ) (h : off + k ≤ n) :
    getField (putField b off v k) off k = v % 256 ^ k := by
  -- the last `j` bytes of the field
  have hlast (j i : ℕ) (hj : i + j = k) :
      getField (putField b off v k) (off + i) j = v / 256 ^ i % 256 ^ j := by
    induction j generalizing i with
    | zero => simp [getField, Nat.mod_one]
    | succ j ih =>
      rw [getField, getByte_putField_inside b off v k (by omega) (by omega), Nat.add_assoc,
        ih (i + 1) (by omega), UInt8.toNat_ofNat', pow_succ 256 i, ← Nat.div_div_eq_div_mul,
        pow_succ' 256 j]
      exact (Nat.mod_mul).symm
  simpa using hlast k 0 (by omega)

theorem getField_putField_disjoint (b : Bytes n) (off v k : ℕ) {off' k' : ℕ}
    (h : off' + k' ≤ off ∨ off + k ≤ off') :
    getField (putField b off v k) off' k' = getField b off' k' :=
  getField_congr off' k' (fun _ _ _ => getByte_putField_outside b off v k (by omega))

theorem getField_lt (b : Bytes n) (off k : ℕ) : getField b off k < 256 ^ k := by
  induction k generalizing off with
  | zero => simp [getField]
  | succ k ih =>
    have hb := (getByte b off).toNat_lt
    have hr := ih (off + 1)
    rw [getField, pow_succ']
    omega

theorem getField_zero (off k : ℕ) : getField (fun _ => 0 : Bytes n) off k = 0 := by
  induction k generalizing off with
  | zero => rfl
  | succ k ih => simp [getField, getByte, ih]

/-- A 32-bit field, the width of the source's `uint`. -/
def getWord (b : Bytes n) (off : ℕ) : ℕ := getField b off 4

def putWord (b : Bytes n) (off v : ℕ) : Bytes n := putField b off v 4

theorem getWord_putWord_self (b : Bytes n) {off v : ℕ} (h : off + 4 ≤ n) (hv : v < 2 ^ 32) :
    getWord (putWord b off v) off = v := by
  rw [getWord, putWord, getField_putField_self b off v 4 h]
  exact Nat.mod_eq_of_lt hv

theorem getWord_putWord_disjoint (b : Bytes n) {off off' : ℕ} (v : ℕ)
    (h : off' + 4 ≤ off ∨ off + 4 ≤ off') : getWord (putWord b off v) off' = getWord b off' :=
  getField_putField_disjoint b off v 4 h

/-- Store a list of words one after the other from `off`. -/
def putWords (b : Bytes n) (off : ℕ) : List ℕ → Bytes n
  | [] => b
  | v :: vs => putWords (putWord b off v) (off + 4) vs

def getWords (b : Bytes n) (off : ℕ) : ℕ → List ℕ
  | 0 => []
  | k + 1 => getWord b off :: getWords b (off + 4) k

theorem getWord_putWords_before (b : Bytes n) (off : ℕ) (vs : List ℕ) {off' : ℕ}
    (h : off' + 4 ≤ off) : getWord (putWords b off vs) off' = getWord b off' := by
  induction vs generalizing b off with
  | nil => rfl
  | cons v vs ih =>
    rw [putWords, ih _ _ (by omega), getWord_putWord_disjoint b v (.inl h)]

theorem getWords_putWords (b : Bytes n) (off : ℕ) (vs : List ℕ)
    (hroom : off + 4 * vs.length ≤ n) (hv : ∀ v ∈ vs, v < 2 ^ 32) :
    getWords (putWords b off vs) off vs.length = vs := by
  induction vs generalizing b off with
  | nil => rfl
  | cons v vs ih =>
    simp only [List.length_cons] at hroom
    simp only [putWords, List.length_cons, getWords]
    rw [getWord_putWords_before _ _ _ (by omega),
      getWord_putWord_self b (by omega) (hv v (by simp)),
      ih _ _ (by omega) (fun w hw => hv w (by simp [hw]))]

theorem getByte_putWords_outside (b : Bytes n) (off : ℕ) (vs : List ℕ) {i : ℕ}
    (h : i < off ∨ off + 4 * vs.length ≤ i) : getByte (putWords b off vs) i = getByte b i := by
  induction vs generalizing b off with
  | nil => rfl
  | cons v vs ih =>
    simp only [List.length_cons] at h
    rw [putWords, ih _ _ (by omega), putWord, getByte_putField_outside b off v 4 (by omega)]

theorem getWord_putWords_get (b : Bytes n) (off : ℕ) (vs : List ℕ) {k : ℕ}
    (hroom : off + 4 * vs.length ≤ n) (hv : ∀ v ∈ vs, v < 2 ^ 32) (hk : k < vs.length) :
    getWord (putWords b off vs) (off + 4 * k) = vs[k] := by
  induction vs generalizing b off k with
  | nil => simp at hk
  | cons v vs ih =>
    simp only [List.length_cons] at hroom hk
    cases k with
    | zero =>
      rw [putWords, Nat.mul_zero, getWord_putWords_before _ _ _ (by omega)]
      exact getWord_putWord_self b (by omega) (hv v (by simp))
    | succ k =>
      have hoff : off + 4 * (k + 1) = off + 4 + 4 * k := by omega
      rw [putWords, hoff, ih _ _ (by omega) (fun w hw => hv w (by simp [hw])) (by omega)]
      rfl

/-- A signed 16-bit field, the width of the source's `short`. -/
def getShort (b : Bytes n) (off : ℕ) : Int16 := (UInt16.ofNat (getField b off 2)).toInt16

def putShort (b : Bytes n) (off : ℕ) (v : Int16) : Bytes n := putField b off v.toUInt16.toNat 2

theorem getShort_putShort_self (b : Bytes n) {off : ℕ} (v : Int16) (h : off + 2 ≤ n) :
    getShort (putShort b off v) off = v := by
  have hv : v.toUInt16.toNat < 256 ^ 2 := v.toUInt16.toNat_lt
  rw [getShort, putShort, getField_putField_self b off _ 2 h, Nat.mod_eq_of_lt hv]
  simp

def getBytes (b : Bytes n) (off : ℕ) : ℕ → List UInt8
  | 0 => []
  | k + 1 => getByte b off :: getBytes b (off + 1) k

@[simp] theorem length_getBytes (b : Bytes n) (off k : ℕ) : (getBytes b off k).length = k := by
  induction k generalizing off with
  | zero => rfl
  | succ k ih => rw [getBytes, List.length_cons, ih]

theorem getBytes_eq (b : Bytes n) (off : ℕ) (l : List UInt8)
    (h : ∀ k (hk : k < l.length), getByte b (off + k) = l[k]) : getBytes b off l.length = l := by
  induction l generalizing off with
  | nil => rfl
  | cons v l ih =>
    have hhead := h 0 (by simp)
    rw [List.length_cons, getBytes, ih (off + 1)]
    · exact congrArg (· :: l) hhead
    · intro k hk
      have hk' := h (k + 1) (by simpa using hk)
      rwa [show off + 1 + k = off + (k + 1) by omega]

def putBytes (b : Bytes n) (off : ℕ) : List UInt8 → Bytes n
  | [] => b
  | v :: vs => putBytes (putByte b off v) (off + 1) vs

theorem getByte_putBytes_outside (b : Bytes n) (off : ℕ) (vs : List UInt8) {i : ℕ}
    (h : i < off ∨ off + vs.length ≤ i) : getByte (putBytes b off vs) i = getByte b i := by
  induction vs generalizing b off with
  | nil => rfl
  | cons v vs ih =>
    simp only [List.length_cons] at h
    rw [putBytes, ih _ _ (by omega), getByte_putByte_ne b v (by omega)]

theorem getByte_putBytes_inside (b : Bytes n) (off : ℕ) (vs : List UInt8)
    (hroom : off + vs.length ≤ n) {k : ℕ} (hk : k < vs.length) :
    getByte (putBytes b off vs) (off + k) = vs[k] := by
  induction vs generalizing b off k with
  | nil => simp at hk
  | cons v vs ih =>
    simp only [List.length_cons] at hroom hk
    cases k with
    | zero =>
      rw [putBytes, Nat.add_zero, getByte_putBytes_outside _ _ _ (by omega)]
      exact getByte_putByte_self b v (by omega)
    | succ k =>
      rw [putBytes, show off + (k + 1) = off + 1 + k by omega, ih _ _ (by omega) (by omega)]
      rfl

theorem getBytes_putBytes_self (b : Bytes n) (off : ℕ) (vs : List UInt8)
    (hroom : off + vs.length ≤ n) : getBytes (putBytes b off vs) off vs.length = vs :=
  getBytes_eq _ _ _ fun _ hk => getByte_putBytes_inside b off vs hroom hk

def bitMask (i : ℕ) : UInt8 := UInt8.ofNat (2 ^ (i % 8))

/-- Whether bit `i` of the block is set, the low-order bit of each byte first. -/
def getBit (b : Bytes n) (i : ℕ) : Bool := getByte b (i / 8) &&& bitMask i ≠ 0

def setBit (b : Bytes n) (i : ℕ) : Bytes n :=
  putByte b (i / 8) (getByte b (i / 8) ||| bitMask i)

def clearBit (b : Bytes n) (i : ℕ) : Bytes n :=
  putByte b (i / 8) (getByte b (i / 8) &&& ~~~bitMask i)

theorem getLsbD_bitMask (i k : ℕ) :
    (bitMask i).toBitVec.getLsbD k = decide (k = i % 8) := by
  rw [bitMask, UInt8.toBitVec_ofNat', BitVec.getLsbD_ofNat, Nat.testBit_two_pow]
  by_cases h : k = i % 8
  · simp [h, Nat.mod_lt]
  · simp [h, Ne.symm h]

theorem getBit_eq (b : Bytes n) (i : ℕ) :
    getBit b i = (getByte b (i / 8)).toBitVec.getLsbD (i % 8) := by
  have hbit (k : ℕ) : (getByte b (i / 8) &&& bitMask i).toBitVec.getLsbD k =
      ((getByte b (i / 8)).toBitVec.getLsbD (i % 8) && decide (k = i % 8)) := by
    rw [UInt8.toBitVec_and, BitVec.getLsbD_and, getLsbD_bitMask]
    by_cases h : k = i % 8 <;> simp [h]
  rw [getBit]
  cases h : (getByte b (i / 8)).toBitVec.getLsbD (i % 8) with
  | false =>
    have hzero : getByte b (i / 8) &&& bitMask i = 0 := by
      apply UInt8.toBitVec_inj.mp
      apply BitVec.eq_of_getLsbD_eq
      intro k _
      rw [hbit, h]
      simp
    simp [hzero]
  | true =>
    simp only [ne_eq, decide_not, Bool.not_eq_eq_eq_not, Bool.not_true, decide_eq_false_iff_not]
    intro hzero
    have hone := hbit (i % 8)
    rw [hzero, h] at hone
    simp at hone

theorem getBit_putByte_ne (b : Bytes n) {i j : ℕ} (v : UInt8) (h : j / 8 ≠ i / 8) :
    getBit (putByte b (i / 8) v) j = getBit b j := by
  rw [getBit, getBit, getByte_putByte_ne b v h]

theorem getBit_setBit (b : Bytes n) {i j : ℕ} (hi : i / 8 < n) :
    getBit (setBit b i) j = (decide (j = i) || getBit b j) := by
  by_cases h : j / 8 = i / 8
  · rw [getBit_eq, getBit_eq, h, setBit, getByte_putByte_self b _ hi, UInt8.toBitVec_or,
      BitVec.getLsbD_or, getLsbD_bitMask, Bool.or_comm]
    congr 1
    exact decide_eq_decide.mpr (by omega)
  · have hne : j ≠ i := fun hji => h (by rw [hji])
    rw [setBit, getBit_putByte_ne b _ h]
    simp [hne]

theorem getBit_clearBit (b : Bytes n) {i j : ℕ} (hi : i / 8 < n) :
    getBit (clearBit b i) j = (!decide (j = i) && getBit b j) := by
  by_cases h : j / 8 = i / 8
  · rw [getBit_eq, getBit_eq, h, clearBit, getByte_putByte_self b _ hi, UInt8.toBitVec_and,
      UInt8.toBitVec_not, BitVec.getLsbD_and, BitVec.getLsbD_not, getLsbD_bitMask, Bool.and_comm]
    have hji : j % 8 = i % 8 ↔ j = i := by omega
    simp [hji, Nat.mod_lt]
  · have hne : j ≠ i := fun hji => h (by rw [hji])
    rw [clearBit, getBit_putByte_ne b _ h]
    simp [hne]

end Xv6.LittleEndianBlocks
