import Mathlib.Data.Int.ModEq
import Tyndall.Meta.Strval
import Tyndall.Reflect.PrintFormat

/-!
# The text that a value is printed as

`print_format` hands the value to `printf`, with a conversion that is chosen by
the type and the type's letter behind it. `printf` is not told the type of its
argument: it reads as many low-order bits as the length modifier of the conversion
says. No information is lost as long as these are all bits of the type.

The conversions of floating-point numbers are not modelled.
-/

namespace Tyndall.Reflect

open Tyndall.Alignment Meta

/-- `print_format_printf`. -/
def printFormatPrintf : Scalar → List UInt8
  | .bool => chars "%d"
  | .float => chars "%f"
  | .double => chars "%f"
  | .int => chars "%d"
  | .unsignedInt => chars "%u"
  | .short => chars "%d"
  | .unsignedShort => chars "%u"
  | .char => chars "%c"
  | .unsignedChar => chars "%u"
  | .long => chars "%ld"
  | .unsignedLong => chars "%u"
  | .longLong => chars "%lld"
  | .unsignedLongLong => chars "%llu"

/-- What `printf` makes of an integer argument, with the bits that it reads. -/
inductive Conversion where
  | signed (bits : Nat)
  | unsigned (bits : Nat)
  | character
deriving DecidableEq, Repr

/-- The bits that a conversion reads. -/
def Conversion.bits : Conversion → Nat
  | signed bits => bits
  | unsigned bits => bits
  | character => 8

/-- The decimal text of a signed number. -/
def signedText (n : Int) : List UInt8 :=
  if n < 0 then 45 :: decimal n.natAbs else decimal n.natAbs

/-- The text of an argument. -/
def Conversion.text : Conversion → Int → List UInt8
  | signed bits, argument => signedText (argument.bmod (2 ^ bits))
  | unsigned bits, argument => decimal (argument % 2 ^ bits).toNat
  | character, argument => [UInt8.ofNat (argument % 2 ^ 8).toNat]

/-- The conversion that a format starts with, and what stands behind it: `%d`,
`%u` or `%c`, or one of the first two with the length modifier `l` or `ll`. -/
def conversion : List UInt8 → Option (Conversion × List UInt8)
  | 37 :: 108 :: 108 :: 100 :: rest => some (.signed 64, rest)
  | 37 :: 108 :: 108 :: 117 :: rest => some (.unsigned 64, rest)
  | 37 :: 108 :: 100 :: rest => some (.signed 64, rest)
  | 37 :: 108 :: 117 :: rest => some (.unsigned 64, rest)
  | 37 :: 100 :: rest => some (.signed 32, rest)
  | 37 :: 117 :: rest => some (.unsigned 32, rest)
  | 37 :: 99 :: rest => some (.character, rest)
  | _ => none

/-- `printf` with one integer argument and a format of one conversion. -/
def printf (format : List UInt8) (argument : Int) : Option (List UInt8) :=
  (conversion format).map (fun read => read.1.text argument ++ read.2)

/-- The bytes at an address as a number, the least significant byte first. -/
def load (memory : Nat → UInt8) (address : Nat) : Nat → Nat
  | 0 => 0
  | size + 1 => (memory address).toNat + 256 * load memory (address + 1) size

namespace Scalar

/-- The integer types. -/
def isInteger : Scalar → Bool
  | float | double => false
  | _ => true

/-- The value of an integer type that is stored as a number. A `bool` is false or true:
a byte that is neither 0 nor 1, which no `bool` has, is taken for true, where compiled
code prints the byte. -/
def value (scalar : Scalar) (stored : Nat) : Int :=
  match scalar with
  | bool => if stored = 0 then 0 else 1
  | short | int | char | long | longLong => (stored : Int).bmod (256 ^ scalar.sizeof)
  | _ => stored

/-- The value of an integer type at an address. -/
def valueAt (scalar : Scalar) (memory : Nat → UInt8) (address : Nat) : Int :=
  scalar.value (load memory address scalar.sizeof)

end Scalar

/-- What `print_format(c, data)` writes. -/
def printFormatText (memory : Nat → UInt8) (c : UInt8) (data : Nat) : Option (List UInt8) :=
  match (printFormat c data).2 with
  | some (scalar, address) =>
      printf (printFormatPrintf scalar ++ scalar.typeid) (scalar.valueAt memory address)
  | none => some []

/-- A number of bytes is below the power of 256. -/
theorem load_lt (memory : Nat → UInt8) (address size : Nat) :
    load memory address size < 256 ^ size := by
  induction size generalizing address with
  | zero => exact Nat.one_pos
  | succ size inductionHypothesis =>
    have first := (memory address).toNat_lt
    have others := inductionHypothesis (address + 1)
    rw [load, Nat.pow_succ]
    omega

/-- Different numbers have different texts: no digit is a minus sign. -/
theorem signedText_injective (n m : Int) (same : signedText n = signedText m) : n = m := by
  have no_minus : ∀ k rest, decimal k ≠ 45 :: rest := by
    intro k rest digits
    have digit := (decimal_digits k).2 45 (by simp [digits])
    exact absurd digit (by decide)
  by_cases negative : n < 0
  · by_cases negativeOther : m < 0
    · rw [signedText, signedText, if_pos negative, if_pos negativeOther] at same
      have absolute := decimal_injective _ _ (List.cons.inj same).2
      omega
    · rw [signedText, signedText, if_pos negative, if_neg negativeOther] at same
      exact absurd same.symm (no_minus _ _)
  · by_cases negativeOther : m < 0
    · rw [signedText, signedText, if_neg negative, if_pos negativeOther] at same
      exact absurd same (no_minus _ _)
    · rw [signedText, signedText, if_neg negative, if_neg negativeOther] at same
      have absolute := decimal_injective _ _ same
      omega

/-- Remainders around zero agree exactly when the numbers are congruent. -/
theorem bmod_eq_iff_modEq (n m : Int) (modulus : Nat) :
    n.bmod modulus = m.bmod modulus ↔ n ≡ m [ZMOD modulus] := by
  constructor
  · intro same
    have remainders := congrArg (· % (modulus : Int)) same
    simp only [Int.bmod_emod] at remainders
    exact remainders
  · intro congruent
    rw [← Int.emod_bmod n, ← Int.emod_bmod m, congruent]

/-- Two arguments have one text exactly when the bits that are read are the same. -/
theorem Conversion.text_eq_iff (conversion : Conversion) (argument other : Int) :
    conversion.text argument = conversion.text other ↔
      argument ≡ other [ZMOD 2 ^ conversion.bits] := by
  have nonnegative : ∀ (bits : Nat) (n : Int), 0 ≤ n % 2 ^ bits :=
    fun bits n => Int.emod_nonneg n (pow_ne_zero bits two_ne_zero)
  cases conversion with
  | signed bits =>
    have remainders := bmod_eq_iff_modEq argument other (2 ^ bits)
    rw [Nat.cast_pow, Nat.cast_ofNat] at remainders
    rw [Conversion.text, Conversion.text, Conversion.bits, ← remainders]
    exact ⟨signedText_injective _ _, congrArg signedText⟩
  | unsigned bits =>
    show decimal (argument % 2 ^ bits).toNat = decimal (other % 2 ^ bits).toNat ↔
      argument % 2 ^ bits = other % 2 ^ bits
    constructor
    · intro same
      have numbers := decimal_injective _ _ same
      have low := nonnegative bits argument
      have lowOther := nonnegative bits other
      omega
    · intro congruent
      rw [congruent]
  | character =>
    show [UInt8.ofNat (argument % 2 ^ 8).toNat] = [UInt8.ofNat (other % 2 ^ 8).toNat] ↔
      argument % 2 ^ 8 = other % 2 ^ 8
    constructor
    · intro same
      have bytes := congrArg UInt8.toNat (List.singleton_inj.mp same)
      rw [UInt8.toNat_ofNat', UInt8.toNat_ofNat'] at bytes
      omega
    · intro congruent
      rw [congruent]

/-- A value of an integer type is determined by as many bits as the type has. -/
theorem Scalar.value_determined (scalar : Scalar) (stored other : Nat)
    (inside : stored < 256 ^ scalar.sizeof) (insideOther : other < 256 ^ scalar.sizeof)
    (congruent : scalar.value stored ≡ scalar.value other [ZMOD 2 ^ (8 * scalar.sizeof)]) :
    scalar.value stored = scalar.value other := by
  have modulus : (2 : Int) ^ (8 * scalar.sizeof) = ((256 ^ scalar.sizeof : Nat) : Int) := by
    rw [pow_mul, Nat.cast_pow]
    rfl
  rw [modulus] at congruent
  have around : ∀ n m : Int, n.bmod (256 ^ scalar.sizeof) ≡ m.bmod (256 ^ scalar.sizeof)
      [ZMOD (256 ^ scalar.sizeof : Nat)] →
        n.bmod (256 ^ scalar.sizeof) = m.bmod (256 ^ scalar.sizeof) := by
    intro n m same
    rw [bmod_eq_iff_modEq, Int.ModEq, ← Int.bmod_emod, same, Int.bmod_emod]
  have unsigned : (stored : Int) ≡ other [ZMOD (256 ^ scalar.sizeof : Nat)] →
      (stored : Int) = other := by
    intro same
    rw [Int.natCast_modEq_iff] at same
    rw [same.eq_of_lt_of_lt inside insideOther]
  cases scalar
  case short | int | char | long | longLong =>
    rw [Scalar.value, Scalar.value] at congruent ⊢
    exact around _ _ congruent
  case bool =>
    rw [Scalar.value, Scalar.value] at congruent ⊢
    by_cases zero : stored = 0
    · by_cases zeroOther : other = 0
      · rw [if_pos zero, if_pos zeroOther]
      · rw [if_pos zero, if_neg zeroOther] at congruent
        exact absurd congruent (by decide)
    · by_cases zeroOther : other = 0
      · rw [if_neg zero, if_pos zeroOther] at congruent
        exact absurd congruent (by decide)
      · rw [if_neg zero, if_neg zeroOther]
  all_goals exact unsigned congruent

/-- The format of an integer type is one conversion with the type's letter behind
it. The conversion reads all bits of the type, unless the type is `unsigned long`:
that one's reads 32. -/
theorem printFormatPrintf_reads (scalar : Scalar) (integer : scalar.isInteger = true) :
    ∃ read, conversion (printFormatPrintf scalar ++ scalar.typeid) = some (read, scalar.typeid) ∧
      (scalar ≠ .unsignedLong → 8 * scalar.sizeof ≤ read.bits) ∧
      (scalar = .unsignedLong → read.bits = 32) := by
  cases scalar
  case float | double => contradiction
  case char => exact ⟨.character, rfl, by decide, by decide⟩
  case bool | int | short => exact ⟨.signed 32, rfl, by decide, by decide⟩
  case long | longLong => exact ⟨.signed 64, rfl, by decide, by decide⟩
  case unsignedLongLong => exact ⟨.unsigned 64, rfl, by decide, by decide⟩
  case unsignedInt | unsignedShort | unsignedChar | unsignedLong =>
    exact ⟨.unsigned 32, rfl, by decide, by decide⟩

/-- The letter of a type writes the type's value at the next suitably aligned address. -/
theorem printFormatText_eq (scalar : Scalar) (memory : Nat → UInt8) (data : Nat) :
    printFormatText memory scalar.letter data =
      printf (printFormatPrintf scalar ++ scalar.typeid)
        (scalar.valueAt memory (alignUp data scalar.sizeof)) := by
  simp only [printFormatText, printFormat, scalarOf_letter, printFormatAlignment_eq]

/-- Two different values of an integer type, stored at one place, are written as
different texts if and only if they differ in the low 32 bits in case the type is
`unsigned long`.

Proof: a text has the bits that its conversion reads. They are all bits of the type
but for `unsigned long`. -/
theorem texts_differ_iff (scalar : Scalar) (integer : scalar.isInteger = true)
    (memory other : Nat → UInt8) (data : Nat)
    (different : scalar.valueAt memory (alignUp data scalar.sizeof) ≠
      scalar.valueAt other (alignUp data scalar.sizeof)) :
    printFormatText memory scalar.letter data ≠ printFormatText other scalar.letter data ↔
      (scalar = .unsignedLong →
        scalar.valueAt memory (alignUp data scalar.sizeof) % 2 ^ 32 ≠
          scalar.valueAt other (alignUp data scalar.sizeof) % 2 ^ 32) := by
  obtain ⟨read, parsed, all, low⟩ := printFormatPrintf_reads scalar integer
  have texts : printFormatText memory scalar.letter data =
      printFormatText other scalar.letter data ↔
        scalar.valueAt memory (alignUp data scalar.sizeof) ≡
          scalar.valueAt other (alignUp data scalar.sizeof) [ZMOD 2 ^ read.bits] := by
    rw [printFormatText_eq, printFormatText_eq, printf, printf, parsed, Option.map_some,
      Option.map_some, Option.some_inj, List.append_cancel_right_eq, read.text_eq_iff]
  rw [Ne, texts]
  by_cases unsignedLong : scalar = .unsignedLong
  · rw [low unsignedLong]
    simp only [unsignedLong, true_implies]
    rfl
  · apply iff_of_true
    · intro congruent
      have whole : (2 : Int) ^ (8 * scalar.sizeof) ∣ 2 ^ read.bits :=
        pow_dvd_pow 2 (all unsignedLong)
      exact different (scalar.value_determined _ _ (load_lt _ _ _) (load_lt _ _ _)
        (congruent.of_dvd whole))
    · intro impossible
      contradiction

/-- A byte in front of zeros. -/
def firstByte (byte : UInt8) (address : Nat) : UInt8 := if address = 0 then byte else 0

/-- The values one and two of a `long` have different texts. -/
theorem texts_differ_long :
    printFormatText (firstByte 1) Scalar.long.letter 0 ≠
      printFormatText (firstByte 2) Scalar.long.letter 0 := by
  apply (texts_differ_iff .long (by decide) (firstByte 1) (firstByte 2) 0 (by decide)).mpr
  intro impossible
  contradiction

/-- The values zero and `2 ^ 32` of an `unsigned long` have one text. -/
theorem texts_differ_fails :
    Scalar.unsignedLong.valueAt (fun _ => 0) 0 ≠
        Scalar.unsignedLong.valueAt (fun address => if address = 4 then 1 else 0) 0 ∧
      printFormatText (fun _ => 0) Scalar.unsignedLong.letter 0 = some (chars "0m") ∧
      printFormatText (fun address => if address = 4 then 1 else 0)
        Scalar.unsignedLong.letter 0 = some (chars "0m") := by
  decide

end Tyndall.Reflect
