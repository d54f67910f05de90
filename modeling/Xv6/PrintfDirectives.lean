import Xv6.PositionalNumerals

/-!
# The directives of printf

The loop of `printf` in the kernel and of `vprintf` in user programs over a format. The two differ
in the digits and in the types of the numbers, which are parameters here.
-/

namespace Xv6.Printf

open PositionalNumerals

/-- An argument behind the format: a word, or a pointer to a string, which may be null. -/
inductive Arg where
  | word (w : BitVec 64)
  | str (s : Option (List Char))
  deriving DecidableEq, Repr

/-- Why there is no output: a store behind the end of the array of digits, or an argument that is
missing or of another kind. -/
inductive Stop where
  | overflow
  | argument
  deriving DecidableEq, Repr

/-- How numbers are printed: `printint(va_arg(ap, int), base, sign)`,
`printint(va_arg(ap, uint64), base, sign)` and `printptr`. -/
structure Printer where
  int : (w : BitVec 64) → (base : ℕ) → (sign : Bool) → Except Stop (List Char)
  long : (w : BitVec 64) → (base : ℕ) → (sign : Bool) → Except Stop (List Char)
  ptr : BitVec 64 → List Char

def printArg (print : BitVec 64 → Except Stop (List Char))
    (rest : List Arg → Except Stop (List Char)) : List Arg → Except Stop (List Char)
  | .word w :: args => do return (← print w) ++ (← rest args)
  | _ => .error .argument

/-- The next argument is a string, which is printed, and then the rest. -/
def printStr (rest : List Arg → Except Stop (List Char)) : List Arg → Except Stop (List Char)
  | .str s :: args => do return s.getD "(null)".toList ++ (← rest args)
  | _ => .error .argument

def Printer.format (p : Printer) : List Char → List Arg → Except Stop (List Char)
  | [], _ => .ok []
  | '%' :: 'd' :: fmt, args => printArg (p.int · 10 true) (p.format fmt) args
  | '%' :: 'l' :: 'd' :: fmt, args => printArg (p.long · 10 true) (p.format fmt) args
  | '%' :: 'l' :: 'l' :: 'd' :: fmt, args => printArg (p.long · 10 true) (p.format fmt) args
  | '%' :: 'u' :: fmt, args => printArg (p.int · 10 false) (p.format fmt) args
  | '%' :: 'l' :: 'u' :: fmt, args => printArg (p.long · 10 false) (p.format fmt) args
  | '%' :: 'l' :: 'l' :: 'u' :: fmt, args => printArg (p.long · 10 false) (p.format fmt) args
  | '%' :: 'x' :: fmt, args => printArg (p.int · 16 false) (p.format fmt) args
  | '%' :: 'l' :: 'x' :: fmt, args => printArg (p.long · 16 false) (p.format fmt) args
  | '%' :: 'l' :: 'l' :: 'x' :: fmt, args => printArg (p.long · 16 false) (p.format fmt) args
  | '%' :: 'p' :: fmt, args => printArg (fun w => .ok (p.ptr w)) (p.format fmt) args
  | '%' :: 's' :: fmt, args => printStr (p.format fmt) args
  | '%' :: '%' :: fmt, args => do return '%' :: (← p.format fmt args)
  | ['%'], _ => .ok []
  | '%' :: c :: fmt, args => do return '%' :: c :: (← p.format fmt args)
  | c :: fmt, args => do return c :: (← p.format fmt args)

/-- `printint`, for numbers of `w` bits. -/
def printint (digits : List Char) {w : ℕ} (xx : BitVec w) (base : ℕ) (sign : Bool) :
    Except Stop (List Char) :=
  let sign := sign && decide (xx.toInt < 0)
  let x := if sign then -xx else xx
  match storeDigits (digits.getD · '\x00') base 16 x.toNat [] with
  | none => .error .overflow
  | some buf =>
    if sign then
      if buf.length < 16 then .ok (buf ++ ['-']).reverse else .error .overflow
    else
      .ok buf.reverse

/-- The loop of `printptr` over the hexadecimal digits of a word. -/
def ptrDigits (digits : List Char) : (n : ℕ) → (x : BitVec 64) → List Char
  | 0, _ => []
  | n + 1, x => digits.getD (x >>> 60).toNat '\x00' :: ptrDigits digits n (x <<< 4)

def printptr (digits : List Char) (x : BitVec 64) : List Char := '0' :: 'x' :: ptrDigits digits 16 x

/-- The letters before the conversion: none, `l` or `ll`. -/
inductive Size where
  | int
  | long
  | longLong
  deriving DecidableEq, Repr

/-- The conversions `d`, `u` and `x`. -/
inductive Conv where
  | d
  | u
  | x
  deriving DecidableEq, Repr

structure Directive where
  size : Size
  conv : Conv
  deriving DecidableEq, Repr

def Size.text : Size → List Char
  | int => []
  | long => ['l']
  | longLong => ['l', 'l']

def Conv.char : Conv → Char
  | d => 'd'
  | u => 'u'
  | x => 'x'

def Conv.base : Conv → ℕ
  | d => 10
  | u => 10
  | x => 16

def Conv.signed : Conv → Bool
  | d => true
  | u => false
  | x => false

namespace Directive

def text (dir : Directive) : List Char := '%' :: dir.size.text ++ [dir.conv.char]

def width (dir : Directive) : ℕ :=
  match dir.size with
  | .int => 32
  | _ => 64

def InRange (dir : Directive) (z : ℤ) : Prop :=
  if dir.conv.signed then -2 ^ (dir.width - 1) ≤ z ∧ z < 2 ^ (dir.width - 1)
  else 0 ≤ z ∧ z < 2 ^ dir.width

def Value (dir : Directive) : Type := { z : ℤ // dir.InRange z }

/-- An argument as it is passed: 32 bits are extended with their sign. -/
def word (dir : Directive) (z : ℤ) : BitVec 64 :=
  match dir.size with
  | .int => (BitVec.ofInt 32 z).signExtend 64
  | _ => BitVec.ofInt 64 z

end Directive

def Printer.print (p : Printer) : Size → BitVec 64 → ℕ → Bool → Except Stop (List Char)
  | .int => p.int
  | _ => p.long

theorem Printer.format_directive (p : Printer) (dir : Directive) (w : BitVec 64) (fmt : List Char)
    (args : List Arg) :
    p.format (dir.text ++ fmt) (.word w :: args) = do
      return (← p.print dir.size w dir.conv.base dir.conv.signed) ++ (← p.format fmt args) := by
  obtain ⟨size, conv⟩ := dir
  cases size <;> cases conv <;> rfl

theorem setWidth_signExtend (v : BitVec 32) : (v.signExtend 64).setWidth 32 = v := by
  grind

theorem toNat_ofInt {w : ℕ} {z : ℤ} (h : 0 ≤ z ∧ z < 2 ^ w) :
    ((BitVec.ofInt w z).toNat : ℤ) = z := by
  have hcast : ((2 ^ w : ℕ) : ℤ) = 2 ^ w := Int.natCast_pow 2 w
  rw [BitVec.toNat_ofInt, hcast, Int.emod_eq_of_lt h.1 h.2, Int.toNat_of_nonneg h.1]

theorem toNat_signExtend_iff (v : BitVec 32) :
    (v.signExtend 64).toNat = v.toNat ↔ v.toNat < 2 ^ 31 := by
  have hlt := v.isLt
  rw [BitVec.toNat_signExtend, BitVec.msb_eq_decide, BitVec.toNat_setWidth]
  split <;> rename_i hmsb <;> simp only [decide_eq_true_eq] at hmsb <;> omega

theorem natAbs_toInt {w : ℕ} {xx : BitVec w} (h : xx.toInt < 0) :
    (-xx).toNat = xx.toInt.natAbs := by
  have hlt := xx.isLt
  rw [BitVec.toNat_neg]
  rw [BitVec.toInt_eq_toNat_cond] at h ⊢
  split at h
  · omega
  · rw [Nat.mod_eq_of_lt (by omega)]
    omega

theorem toInt_eq_toNat {w : ℕ} {xx : BitVec w} (h : 0 ≤ xx.toInt) : xx.toInt = xx.toNat := by
  have hlt := xx.isLt
  rw [BitVec.toInt_eq_toNat_cond] at h ⊢
  split
  · rfl
  · omega

theorem printint_eq {digits : List Char} {f : Char → Char} {w base : ℕ} {xx : BitVec w}
    {sign : Bool} (hf : Digits f base)
    (hdigits : ∀ i < base, digits.getD i '\x00' = f i.digitChar) :
    printint digits xx base sign =
      let z : ℤ := if sign then xx.toInt else xx.toNat
      if (signed base z).length ≤ 16 then .ok ((signed base z).map f) else .error .overflow := by
  have hstore (x : ℕ) : storeDigits (digits.getD · '\x00') base 16 x [] =
      if (Nat.toDigits base x).length ≤ 16 then some ((Nat.toDigits base x).map f).reverse
      else none := by
    rw [storeDigits_eq f hf.one_lt hdigits, List.nil_append]
  by_cases hneg : sign = true ∧ xx.toInt < 0
  · obtain ⟨rfl, hneg⟩ := hneg
    simp only [printint, signed, hneg, decide_true, Bool.and_self, if_true, hstore,
      natAbs_toInt hneg, List.length_cons]
    by_cases hlen : (Nat.toDigits base xx.toInt.natAbs).length ≤ 16
    · simp only [if_pos hlen, List.length_reverse, List.length_map, ← Nat.succ_le_iff,
        Nat.succ_eq_add_one]
      simp [hf.minus]
    · rw [if_neg hlen, if_neg (by omega)]
  · have hsign : (sign && decide (xx.toInt < 0)) = false := by simpa using hneg
    have hz : (if sign then xx.toInt else xx.toNat) = (xx.toNat : ℤ) := by
      cases sign with
      | true => exact toInt_eq_toNat (by simpa using hneg)
      | false => rfl
    simp only [printint, hsign, hz, hstore, signed, Int.natAbs_natCast, Bool.false_eq_true,
      if_false, Int.not_lt.mpr (Int.natCast_nonneg _)]
    by_cases hlen : (Nat.toDigits base xx.toNat).length ≤ 16
    · simp [hlen]
    · simp [hlen]

/-- A directive whose argument goes to `printint` as a number of `w` bits is printed as it should be
if and only if that number is the argument's value and its numeral fits into the array. -/
theorem print_iff {p : Printer} {dir : Directive} {digits : List Char} {f : Char → Char} {w : ℕ}
    {xx : BitVec w} {wd : BitVec 64} {z : ℤ} (hf : Digits f dir.conv.base)
    (hdigits : ∀ i < dir.conv.base, digits.getD i '\x00' = f i.digitChar)
    (hp : p.print dir.size wd = printint digits xx) :
    p.format dir.text [.word wd] = .ok ((signed dir.conv.base z).map f) ↔
      (if dir.conv.signed then xx.toInt else xx.toNat) = z ∧
        (signed dir.conv.base z).length ≤ 16 := by
  have hformat := p.format_directive dir wd [] []
  rw [List.append_nil, hp, printint_eq hf hdigits] at hformat
  rw [hformat]
  generalize (if dir.conv.signed then xx.toInt else xx.toNat : ℤ) = y
  dsimp only
  by_cases hlen : (signed dir.conv.base y).length ≤ 16
  · rw [if_pos hlen]
    constructor
    · intro h
      have h := Except.ok.inj h
      rw [List.append_nil] at h
      obtain rfl := hf.signed_inj h
      exact ⟨rfl, hlen⟩
    · rintro ⟨rfl, -⟩
      exact congrArg Except.ok (List.append_nil _)
  · rw [if_neg hlen]
    refine iff_of_false ?_ ?_
    · intro h
      cases h
    · rintro ⟨rfl, h⟩
      exact hlen h

end Xv6.Printf
