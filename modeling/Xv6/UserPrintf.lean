import Xv6.PrintfDirectives

/-!
# Integers printed by user programs

`vprintf` of user programs. Its `printint` takes an `int`, also for the directives of `long`.
-/

namespace Xv6.UserPrintf

open PositionalNumerals Printf

def digits : List Char := "0123456789ABCDEF".toList

def printint (xx : BitVec 32) (base : ℕ) (sgn : Bool) : Except Stop (List Char) :=
  Printf.printint digits xx base sgn

/-- The arguments of `printint`: an `uint64` is cut to an `int`. -/
def printer : Printer where
  int w := printint (w.setWidth 32)
  long w := printint (w.setWidth 32)
  ptr := printptr digits

def vprintf (fmt : List Char) (args : List Arg) : Except Stop (List Char) :=
  printer.format fmt args

/-- How a character of the numeral is written: hexadecimal digits are capital letters. -/
def letter (conv : Conv) : Char → Char :=
  match conv with
  | .x => Char.toUpper
  | _ => id

/-- The values that are printed as they should be: those of 32 bits. -/
def Printable (dir : Directive) (z : ℤ) : Prop :=
  match dir.conv with
  | .d => -2 ^ 31 ≤ z ∧ z < 2 ^ 31
  | _ => z < 2 ^ 32

theorem digits_base (conv : Conv) : Digits (letter conv) conv.base := by
  cases conv <;> exact ⟨by decide, by decide, rfl, by decide⟩

theorem getD_digits (conv : Conv) :
    ∀ i < conv.base, digits.getD i '\x00' = letter conv i.digitChar := by
  cases conv <;> decide

theorem setWidth_ofInt (z : ℤ) : (BitVec.ofInt 64 z).setWidth 32 = BitVec.ofInt 32 z := by
  apply BitVec.eq_of_toNat_eq
  rw [BitVec.toNat_setWidth, BitVec.toNat_ofInt, BitVec.toNat_ofInt]
  omega

theorem print_word (dir : Directive) (z : ℤ) :
    printer.print dir.size (dir.word z) = Printf.printint digits (BitVec.ofInt 32 z) := by
  obtain ⟨size, conv⟩ := dir
  cases size with
  | int =>
    simp only [Printer.print, printer, Directive.word]
    rw [setWidth_signExtend]
    rfl
  | long => exact congrArg (Printf.printint digits) (setWidth_ofInt z)
  | longLong => exact congrArg (Printf.printint digits) (setWidth_ofInt z)

/-- A user program prints an integer as its numeral if and only if it has 32 bits. -/
theorem vprintf_iff (dir : Directive) (v : dir.Value) :
    vprintf dir.text [.word (dir.word v.1)] =
        .ok ((signed dir.conv.base v.1).map (letter dir.conv)) ↔
      Printable dir v.1 := by
  have hprint := print_iff (z := v.1) (digits_base dir.conv) (getD_digits dir.conv)
    (print_word dir v.1)
  rw [vprintf, hprint, length_signed_le (k := 15) (digits_base dir.conv).one_lt (by decide)]
  obtain ⟨size, conv⟩ := dir
  obtain ⟨z, hz⟩ := v
  simp only [Directive.InRange, Directive.width] at hz
  cases conv with
  | d =>
    simp only [Conv.signed, Conv.base, Printable, if_true, BitVec.toInt_ofInt, Int.bmod_def]
    omega
  | u =>
    simp only [Conv.signed, Conv.base, Printable, Bool.false_eq_true, if_false] at hz ⊢
    rw [BitVec.toNat_ofInt]
    omega
  | x =>
    simp only [Conv.signed, Conv.base, Printable, Bool.false_eq_true, if_false] at hz ⊢
    rw [BitVec.toNat_ofInt]
    omega

/-- `%ld` of 2 ^ 31 prints a negative number, and `%lu` of 2 ^ 32 prints 0. -/
theorem vprintf_cuts_long :
    vprintf "%ld".toList [.word (Directive.word ⟨.long, .d⟩ (2 ^ 31))] =
      .ok "-2147483648".toList ∧
    vprintf "%lu".toList [.word (Directive.word ⟨.long, .u⟩ (2 ^ 32))] = .ok "0".toList := by
  constructor <;> rfl

end Xv6.UserPrintf
