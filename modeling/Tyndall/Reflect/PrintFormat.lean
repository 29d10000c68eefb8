import Mathlib.Data.List.Basic
import Tyndall.Foundation.Alignment
import Tyndall.Meta.Hash

/-!
# The supported scalar types and their letters

Thirteen scalar types have a letter. `print_format` dispatches on the letter,
skips to the next address that the type's size divides, prints the value there
and returns how many bytes it passed over.
-/

namespace Tyndall.Reflect

open Tyndall.Alignment Meta

/-- The types that `print_format` is specialised for. -/
inductive Scalar where
  | bool
  | float
  | double
  | int
  | unsignedInt
  | short
  | unsignedShort
  | char
  | unsignedChar
  | long
  | unsignedLong
  | longLong
  | unsignedLongLong
deriving DecidableEq, Repr

namespace Scalar

/-- `sizeof` on x86-64. -/
def sizeof : Scalar → Nat
  | bool | char | unsignedChar => 1
  | short | unsignedShort => 2
  | float | int | unsignedInt => 4
  | double | long | unsignedLong | longLong | unsignedLongLong => 8

/-- `print_format_typeid`. -/
def typeid : Scalar → List UInt8
  | bool => chars "b"
  | float => chars "f"
  | double => chars "d"
  | int => chars "i"
  | unsignedInt => chars "j"
  | short => chars "s"
  | unsignedShort => chars "t"
  | char => chars "c"
  | unsignedChar => chars "h"
  | long => chars "l"
  | unsignedLong => chars "m"
  | longLong => chars "x"
  | unsignedLongLong => chars "y"

/-- `print_format_typeid<T>().get<0>()`. -/
def letter (scalar : Scalar) : UInt8 := scalar.typeid.headD 0

/-- The cases of the switch in `print_format`, in their order. -/
def all : List Scalar :=
  [bool, float, double, int, unsignedInt, short, unsignedShort, char, unsignedChar, long,
    unsignedLong, longLong, unsignedLongLong]

theorem sizeof_pos (scalar : Scalar) : 0 < scalar.sizeof := by cases scalar <;> decide

/-- Sizes are powers of two. -/
theorem sizeof_power (scalar : Scalar) : ∃ exponent, scalar.sizeof = 2 ^ exponent := by
  cases scalar
  case bool | char | unsignedChar => exact ⟨0, rfl⟩
  case short | unsignedShort => exact ⟨1, rfl⟩
  case float | int | unsignedInt => exact ⟨2, rfl⟩
  case double | long | unsignedLong | longLong | unsignedLongLong => exact ⟨3, rfl⟩

/-- A cache line is a whole number of scalars of any type. -/
theorem sizeof_dvd_cacheline (scalar : Scalar) : scalar.sizeof ∣ 64 := by
  cases scalar <;> decide

@[simp] theorem typeid_eq (scalar : Scalar) : scalar.typeid = [scalar.letter] := by
  cases scalar <;> rfl

end Scalar

/-- `print_format_alignment<T>(ptr)`. -/
def printFormatAlignment (size ptr : Nat) : Nat :=
  let alignmentError := ptr % size
  if alignmentError > 0 then size - alignmentError else 0

/-- The switch of `print_format(c, data)`. -/
def scalarOf (c : UInt8) : Option Scalar := Scalar.all.find? (fun scalar => scalar.letter = c)

/-- The bytes that `print_format(c, data)` passes over, and the scalar it prints
with the address it reads it from. Other letters pass over nothing. -/
def printFormat (c : UInt8) (data : Nat) : Nat × Option (Scalar × Nat) :=
  match scalarOf c with
  | some scalar =>
      let align := printFormatAlignment scalar.sizeof data
      (scalar.sizeof + align, some (scalar, data + align))
  | none => (0, none)

/-- Each scalar has a letter of its own. -/
@[simp] theorem scalarOf_letter (scalar : Scalar) : scalarOf scalar.letter = some scalar := by
  cases scalar <;> rfl

/-- The value is read at the next address that the size divides. -/
theorem printFormatAlignment_eq (scalar : Scalar) (ptr : Nat) :
    ptr + printFormatAlignment scalar.sizeof ptr = alignUp ptr scalar.sizeof :=
  (alignUp_eq_remainder ptr scalar.sizeof_pos).symm

end Tyndall.Reflect
