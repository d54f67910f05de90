import Xv6.PrintfDirectives

/-!
# Integers printed by the kernel

`printf` of the kernel. Its `printint` takes a `long long` and has an array of 16 bytes.
-/

namespace Xv6.KernelPrintf

open PositionalNumerals Printf

def digits : List Char := "0123456789abcdef".toList

def printint (xx : BitVec 64) (base : ℕ) (sign : Bool) : Except Stop (List Char) :=
  Printf.printint digits xx base sign

/-- The arguments of `printint`: an `int` is extended to a `long long`. -/
def printer : Printer where
  int w := printint ((w.setWidth 32).signExtend 64)
  long w := printint w
  ptr := printptr digits

def printf (fmt : List Char) (args : List Arg) : Except Stop (List Char) := printer.format fmt args

/-- The values that are printed as they should be. An unsigned number of 32 bits must not be taken
for a negative one, and a decimal numeral must fit into 16 bytes with its sign. -/
def Printable (dir : Directive) (z : ℤ) : Prop :=
  match dir.conv with
  | .d => -10 ^ 15 < z ∧ z < 10 ^ 16
  | .u => (dir.size = .int → z < 2 ^ 31) ∧ z < 10 ^ 16
  | .x => dir.size = .int → z < 2 ^ 31

theorem digits_decimal : Digits id 10 where
  one_lt := by decide
  inj := by decide
  minus := rfl
  ne_minus := by decide

theorem digits_hexadecimal : Digits id 16 where
  one_lt := by decide
  inj := by decide
  minus := rfl
  ne_minus := by decide

theorem digits_base (conv : Conv) : Digits id conv.base := by
  cases conv with
  | d => exact digits_decimal
  | u => exact digits_decimal
  | x => exact digits_hexadecimal

theorem getD_digits (conv : Conv) (i : ℕ) (hi : i < conv.base) :
    digits.getD i '\x00' = id i.digitChar := by
  have htable : ∀ i < 16, digits.getD i '\x00' = i.digitChar := by decide
  exact htable i (by cases conv <;> simp only [Conv.base] at hi <;> omega)

theorem print_word (dir : Directive) (z : ℤ) :
    printer.print dir.size (dir.word z) = Printf.printint digits (dir.word z) := by
  obtain ⟨size, conv⟩ := dir
  cases size with
  | int =>
    simp only [Printer.print, printer, Directive.word]
    rw [setWidth_signExtend]
    rfl
  | long => rfl
  | longLong => rfl

/-- The number that `printint` is given is the argument's value, unless an unsigned number of 32
bits is taken for a negative one. -/
theorem number_eq_iff (dir : Directive) (v : dir.Value) :
    (if dir.conv.signed then (dir.word v.1).toInt else (dir.word v.1).toNat) = v.1 ↔
      (dir.conv.signed = false → dir.size = .int → v.1 < 2 ^ 31) := by
  obtain ⟨size, conv⟩ := dir
  obtain ⟨z, hz⟩ := v
  simp only [Directive.InRange, Directive.width] at hz
  cases hsign : conv.signed with
  | true =>
    simp only [hsign, if_true] at hz
    simp only [if_true, Bool.true_eq_false, false_imp_iff, iff_true]
    cases size with
    | int =>
      simp only [Directive.word]
      rw [BitVec.toInt_signExtend_of_le (by decide),
        BitVec.toInt_ofInt_eq_self (by decide) hz.1 hz.2]
    | long => exact BitVec.toInt_ofInt_eq_self (by decide) hz.1 hz.2
    | longLong => exact BitVec.toInt_ofInt_eq_self (by decide) hz.1 hz.2
  | false =>
    simp only [hsign, Bool.false_eq_true, if_false] at hz
    simp only [Bool.false_eq_true, if_false, true_imp_iff]
    cases size with
    | int =>
      have hnat : ((BitVec.ofInt 32 z).toNat : ℤ) = z := toNat_ofInt hz
      have hext := toNat_signExtend_iff (BitVec.ofInt 32 z)
      simp only [Directive.word, true_imp_iff]
      omega
    | long => simpa [Directive.word] using toNat_ofInt hz
    | longLong => simpa [Directive.word] using toNat_ofInt hz

/-- The kernel prints an integer as its numeral if and only if it is one of the values above. -/
theorem printf_iff (dir : Directive) (v : dir.Value) :
    printf dir.text [.word (dir.word v.1)] = .ok (signed dir.conv.base v.1) ↔
      Printable dir v.1 := by
  have hprint := print_iff (z := v.1) (digits_base dir.conv) (getD_digits dir.conv)
    (print_word dir v.1)
  rw [List.map_id] at hprint
  rw [printf, hprint, length_signed_le (k := 15) (digits_base dir.conv).one_lt (by decide),
    number_eq_iff]
  obtain ⟨size, conv⟩ := dir
  obtain ⟨z, hz⟩ := v
  simp only [Directive.InRange, Directive.width] at hz
  cases conv with
  | d =>
    simp only [Conv.signed, Conv.base, Printable, Bool.true_eq_false, false_imp_iff, true_and]
    exact Iff.rfl
  | u =>
    simp only [Conv.signed, Conv.base, Printable, true_imp_iff, Bool.false_eq_true,
      if_false] at hz ⊢
    refine and_congr_right' ?_
    omega
  | x =>
    simp only [Conv.signed, Conv.base, Printable, true_imp_iff, Bool.false_eq_true,
      if_false] at hz ⊢
    refine and_iff_left ?_
    cases size <;> simp only at hz <;> omega

/-- `%x` of 2 ^ 31 prints sixteen digits; `%u` of it and `%lu` of 10 ^ 16 do not fit into the
array. -/
theorem printf_wrong :
    printf "%x".toList [.word (Directive.word ⟨.int, .x⟩ (2 ^ 31))] =
      .ok "ffffffff80000000".toList ∧
    printf "%u".toList [.word (Directive.word ⟨.int, .u⟩ (2 ^ 31))] = .error .overflow ∧
    printf "%lu".toList [.word (Directive.word ⟨.long, .u⟩ (10 ^ 16))] = .error .overflow := by
  refine ⟨?_, ?_, ?_⟩ <;> rfl

end Xv6.KernelPrintf
