import Tyndall.Foundation.PrefixCode
import Tyndall.Reflect.PrintText
import Tyndall.Tools.Print

/-!
# What can be told from the output of the reader tool

The tool writes one line for each copy, either the values that the format names or
the bytes in hexadecimal digits. Nothing separates the bytes, and where `char` is
signed a byte with the sign bit set is written with six more digits.

Both outputs are read back: each item is a word of a delimited set, and so is each
line. In a formatted line that also holds for characters, which may be digits,
commas or line feeds themselves, because the format tells which items are characters.

The text of a floating-point number is the C library's and stays a parameter.
-/

namespace Tyndall.Tools

open Tyndall.Alignment InformationTheory PrefixCode Meta Reflect

/-- `printf("%02x", argument)`. -/
def printfHex (argument : Nat) : List UInt8 :=
  ((Nat.toDigits 16 argument).leftpad 2 '0').map Char.toUInt8

/-- A `char` as the `unsigned` that `printf` reads. -/
def promoted (charSigned : Bool) (c : UInt8) : Nat :=
  if charSigned && 128 ≤ c then c.toNat + (2 ^ 32 - 2 ^ 8) else c.toNat

/-- The digits of one byte of the copy. -/
def hexByte (charSigned : Bool) (c : UInt8) : List UInt8 := printfHex (promoted charSigned c)

/-- What the branch without a format writes. -/
def hexLine (charSigned : Bool) (buf : List UInt8) : List UInt8 :=
  buf.flatMap (hexByte charSigned) ++ chars "\n"

/-- The number that digits stand for. -/
def hexValue (digits : List UInt8) : Nat :=
  digits.foldl (fun value c => 16 * value + (if c ≤ 57 then c.toNat - 48 else c.toNat - 87)) 0

/-- How many digits a byte has is told by the first of them. -/
def hexSize (charSigned : Bool) (head : UInt8) : Nat := if charSigned && head = 102 then 8 else 2

/-- What holds of 256 numbers holds of every byte. -/
theorem every_byte (property : UInt8 → Bool)
    (all : (List.range 256).all (fun n => property (UInt8.ofNat n)) = true) (c : UInt8) :
    property c = true := by
  have member : c.toNat ∈ List.range 256 := List.mem_range.mpr c.toNat_lt
  have here := List.all_eq_true.mp all _ member
  rwa [UInt8.ofNat_toNat] at here

/-- The digits of a byte: they give it back, none is a line feed, and the first tells
how many there are. -/
theorem hexByte_spec (charSigned : Bool) (c : UInt8) :
    UInt8.ofNat (hexValue (hexByte charSigned c)) = c ∧
      (hexByte charSigned c).all (· ≠ 10) = true ∧
      (hexByte charSigned c).length = hexSize charSigned ((hexByte charSigned c).headD 0) ∧
      hexByte charSigned c ≠ [] := by
  have checked := every_byte (fun c => decide (UInt8.ofNat (hexValue (hexByte charSigned c)) = c ∧
      (hexByte charSigned c).all (· ≠ 10) = true ∧
      (hexByte charSigned c).length = hexSize charSigned ((hexByte charSigned c).headD 0) ∧
      hexByte charSigned c ≠ [])) (by cases charSigned <;> decide +kernel) c
  exact of_decide_eq_true checked

/-- The digits of bytes are a delimited set. -/
theorem hexBytes_delimited (charSigned : Bool) : Delimited (Set.range (hexByte charSigned)) := by
  apply delimited_head (hexSize charSigned)
  rintro word ⟨c, rfl⟩
  obtain ⟨-, -, length, nonempty⟩ := hexByte_spec charSigned c
  obtain ⟨head, tail, split⟩ := List.exists_cons_of_ne_nil nonempty
  rw [split] at length ⊢
  exact ⟨head, tail, rfl, length⟩

/-- The digits of a copy determine it. -/
theorem hexDigits_injective (charSigned : Bool) (buf other : List UInt8)
    (same : buf.flatMap (hexByte charSigned) = other.flatMap (hexByte charSigned)) : buf = other := by
  have nonempty : [] ∉ Set.range (hexByte charSigned) := by
    rintro ⟨c, empty⟩
    exact (hexByte_spec charSigned c).2.2.2 empty
  have bytes : Function.Injective (hexByte charSigned) := by
    intro c d equal
    rw [← (hexByte_spec charSigned c).1, equal, (hexByte_spec charSigned d).1]
  apply bytes.list_map
  apply (hexBytes_delimited charSigned).uniquelyDecodable nonempty
  · simp
  · simp
  · rw [← List.flatMap_def, ← List.flatMap_def]
    exact same

/-- The hexadecimal output determines every copy, whether `char` is signed or not.

Proof: the digits of a byte are as many as the first of them says, and a line ends at
the only line feed in it. -/
theorem hexLines_injective (charSigned : Bool) :
    Function.Injective (fun shown : List (List UInt8) => shown.flatMap (hexLine charSigned)) := by
  let lines : Set (List UInt8) :=
    {line | ∃ body : List UInt8, body.all (· ≠ 10) = true ∧ line = body ++ 10 :: []}
  have among : ∀ buf, hexLine charSigned buf ∈ lines := by
    intro buf
    refine ⟨buf.flatMap (hexByte charSigned), ?_, rfl⟩
    rw [List.all_flatMap, List.all_eq_true]
    intro c _
    exact (hexByte_spec charSigned c).2.1
  have delimited : Delimited lines := delimited_stop (fun c : UInt8 => c ≠ 10) 10 [] (by decide)
  have nonempty : [] ∉ lines := by
    rintro ⟨body, _, empty⟩
    simp at empty
  have line : Function.Injective (hexLine charSigned) := by
    intro buf other same
    exact hexDigits_injective charSigned buf other (List.append_cancel_right same)
  intro shown other same
  apply line.list_map
  apply delimited.uniquelyDecodable nonempty
  · simpa using fun buf _ => among buf
  · simpa using fun buf _ => among buf
  · rw [← List.flatMap_def, ← List.flatMap_def]
    exact same

/-- A byte with the sign bit set, and the same byte where `char` is unsigned. -/
example : hexLine true [1, 128] = chars "01ffffff80\n" ∧ hexLine false [1, 128] = chars "0180\n" := by
  decide +kernel

section Formatted

variable (real : Scalar → Nat → List UInt8) (strlen : (Nat → UInt8) → Nat → Nat)

/-- The text of a value. That of a floating-point number depends on its bytes. -/
def valueText (memory : Nat → UInt8) (scalar : Scalar) (address : Nat) : List UInt8 :=
  if scalar.isInteger then
    (printf (printFormatPrintf scalar ++ scalar.typeid) (scalar.valueAt memory address)).getD []
  else real scalar (load memory address scalar.sizeof) ++ scalar.typeid

/-- What the tool writes for one item. -/
def Printed.output (memory : Nat → UInt8) (bufSize : Nat) : Printed → List UInt8
  | .skipped num => chars "<" ++ decimal num ++ chars ">, "
  | .value scalar address => valueText real memory scalar address ++ chars ",\t"
  | .text address =>
      (List.range (strlen memory address)).map (fun k => memory (address + k)) ++ chars "s, "
  | .wrongParameter c => chars "error, wrong parameter: " ++ [c] ++ chars "\n"
  | .tooLarge => chars "fmt is too large for buffer at " ++ decimal bufSize

/-- What `print` writes. -/
def formattedLine (format : List UInt8) (buf bufSize : Nat) (memory : Nat → UInt8) : List UInt8 :=
  (print (strlen memory) format buf bufSize).flatMap (Printed.output real strlen memory bufSize) ++
    chars "\n"

/-- Values that have one text: equal ones, and for `unsigned long` also those that
differ only above the low 32 bits. -/
def Alike (scalar : Scalar) (value other : Int) : Prop :=
  if scalar = .unsignedLong then value % 2 ^ 32 = other % 2 ^ 32 else value = other

/-- The items that values of an integer type can make. -/
def itemsOf (scalar : Scalar) : Set (List UInt8) :=
  {item | ∃ read n, conversion (printFormatPrintf scalar ++ scalar.typeid) =
    some (read, scalar.typeid) ∧ item = Conversion.text read n ++ scalar.letter :: chars ",\t"}

/-- A digit or a minus sign. -/
def numeral (c : UInt8) : Bool := 48 ≤ c && c ≤ 57 || c = 45

/-- Numbers are written in numerals. -/
theorem decimal_numeral (n : Nat) : (decimal n).all numeral = true := by
  rw [List.all_eq_true]
  intro c member
  obtain ⟨low, high⟩ := (decimal_digits n).2 c member
  simp [numeral, low, high]

/-- So are negative ones. -/
theorem signedText_numeral (n : Int) : (signedText n).all numeral = true := by
  rw [signedText]
  split
  · rw [List.all_cons, decimal_numeral]
    rfl
  · exact decimal_numeral _

/-- Items of one integer type are delimited: a number ends at its letter, and a
character is one byte. -/
theorem itemsOf_delimited (scalar : Scalar) : Delimited (itemsOf scalar) := by
  have letter : numeral scalar.letter = false := by cases scalar <;> decide
  have numbers : Delimited {item | ∃ body : List UInt8, body.all numeral = true ∧
      item = body ++ scalar.letter :: chars ",\t"} := delimited_stop numeral _ _ letter
  rintro first ⟨read, n, parsed, rfl⟩ second ⟨readOther, m, parsedOther, rfl⟩ rest other same
  obtain ⟨rfl, -⟩ := Prod.mk.inj (Option.some.inj (parsed.symm.trans parsedOther))
  cases read with
  | signed bits =>
    exact numbers _ ⟨_, signedText_numeral _, rfl⟩ _ ⟨_, signedText_numeral _, rfl⟩ rest other same
  | unsigned bits =>
    exact numbers _ ⟨_, decimal_numeral _, rfl⟩ _ ⟨_, decimal_numeral _, rfl⟩ rest other same
  | character => exact (List.append_inj same rfl).1

/-- The item of an integer is one of its type's, and tells the value. -/
theorem valueText_item (scalar : Scalar) (integer : scalar.isInteger = true)
    (memory : Nat → UInt8) (address : Nat) :
    valueText real memory scalar address ++ chars ",\t" ∈ itemsOf scalar := by
  obtain ⟨read, parsed, -⟩ := printFormatPrintf_reads scalar integer
  refine ⟨read, scalar.valueAt memory address, parsed, ?_⟩
  simp only [valueText, integer, if_true, printf, parsed, Option.map_some, Option.getD_some]
  rw [Scalar.typeid_eq, List.append_assoc]
  rfl

/-- Values have one text exactly when they are alike. -/
theorem valueText_eq_iff (scalar : Scalar) (integer : scalar.isInteger = true)
    (memory other : Nat → UInt8) (address : Nat) :
    valueText real memory scalar address = valueText real other scalar address ↔
      Alike scalar (scalar.valueAt memory address) (scalar.valueAt other address) := by
  obtain ⟨read, parsed, all, low⟩ := printFormatPrintf_reads scalar integer
  have texts : valueText real memory scalar address = valueText real other scalar address ↔
      scalar.valueAt memory address ≡ scalar.valueAt other address [ZMOD 2 ^ read.bits] := by
    simp only [valueText, integer, if_true, printf, parsed, Option.map_some, Option.getD_some,
      List.append_cancel_right_eq, read.text_eq_iff]
  rw [texts, Alike]
  by_cases unsignedLong : scalar = .unsignedLong
  · rw [if_pos unsignedLong, low unsignedLong]
    rfl
  · rw [if_neg unsignedLong]
    constructor
    · intro congruent
      have whole : (2 : Int) ^ (8 * scalar.sizeof) ∣ 2 ^ read.bits :=
        pow_dvd_pow 2 (all unsignedLong)
      exact scalar.value_determined _ _ (load_lt _ _ _) (load_lt _ _ _) (congruent.of_dvd whole)
    · intro same
      rw [same]

/-- A type of integers, the format made for it, and copies of its size in which the format
finds every scalar. -/
structure Described (type : Ty) (format : List UInt8) (buf bufSize : Nat) : Prop where
  made : type.getFormat = some format
  aligned : 64 ∣ buf
  enough : type.size ≤ bufSize
  gaps : GapsFit 0 (type.leaves 0)
  integers : ∀ leaf ∈ type.leaves 0, leaf.1.isInteger = true

/-- Two copies whose values are alike, each scalar's with the same scalar's. -/
def SameValues (type : Ty) (buf : Nat) (memory other : Nat → UInt8) : Prop :=
  ∀ leaf ∈ type.leaves 0,
    Alike leaf.1 (leaf.1.valueAt memory (buf + leaf.2)) (leaf.1.valueAt other (buf + leaf.2))

variable {type : Ty} {format : List UInt8} {buf bufSize : Nat}

/-- A line has an item for each scalar of the type. -/
theorem formattedLine_eq (described : Described type format buf bufSize) (memory : Nat → UInt8) :
    formattedLine real strlen format buf bufSize memory =
      (type.leaves 0).flatMap (fun leaf =>
        valueText real memory leaf.1 (buf + leaf.2) ++ chars ",\t") ++ chars "\n" := by
  have letters := type.getFormat_leaves format 0 described.made
  have whole : cString format = format := by
    apply cString_of_nulFree format
    intro member
    rw [letters] at member
    obtain ⟨leaf, _, zero⟩ := List.mem_map.mp member
    exact (letter_plain leaf.1).2 zero
  have placed := type.leaves_placed 0 (Nat.dvd_zero _)
  rw [Nat.zero_add] at placed
  have items := (print_placed_iff (strlen memory) buf bufSize described.aligned _ 0 type.size placed
    described.enough).mpr described.gaps
  rw [Nat.add_zero] at items
  rw [formattedLine, print, whole, letters, items, List.flatMap_map]
  rfl

/-- The start of a text decides the values of the line it begins with. -/
theorem formattedLine_values (described : Described type format buf bufSize)
    (memory other : Nat → UInt8) (rest after : List UInt8)
    (same : formattedLine real strlen format buf bufSize memory ++ rest =
      formattedLine real strlen format buf bufSize other ++ after) :
    SameValues type buf memory other := by
  have items : ∀ memory, ∀ leaf ∈ type.leaves 0,
      valueText real memory leaf.1 (buf + leaf.2) ++ chars ",\t" ∈ itemsOf leaf.1 :=
    fun memory leaf member => valueText_item real leaf.1 (described.integers leaf member) memory _
  rw [formattedLine_eq real strlen described, formattedLine_eq real strlen described,
    List.append_assoc, List.append_assoc] at same
  intro leaf member
  have texts := flatMap_determined _ _ (fun leaf _ => itemsOf_delimited leaf.1) _ _ (items memory)
    (items other) _ _ same leaf member
  exact (valueText_eq_iff real leaf.1 (described.integers leaf member) memory other _).mp
    (List.append_cancel_right texts)

/-- Values that are alike have one line. -/
theorem formattedLine_same (described : Described type format buf bufSize)
    (memory other : Nat → UInt8) (values : SameValues type buf memory other) :
    formattedLine real strlen format buf bufSize memory =
      formattedLine real strlen format buf bufSize other := by
  rw [formattedLine_eq real strlen described, formattedLine_eq real strlen described]
  congr 1
  apply List.flatMap_congr
  intro leaf member
  rw [(valueText_eq_iff real leaf.1 (described.integers leaf member) memory other _).mpr
    (values leaf member)]

/-- The formatted output determines every value. For a type of integers that the format
describes: two sequences of copies are written as one text if and only if they have the
same length, and the values of two copies in one place are alike, each scalar's with the
same scalar's. So nothing but the high half of an `unsigned long` is lost, though
characters may be written that look like numbers or separators. A `bool` is taken to
hold one of its two values.

Proof: the items of a line are words of delimited sets, which the format tells. So
lines are delimited too. -/
theorem lines_determine_values (described : Described type format buf bufSize)
    (shown others : List (Nat → UInt8)) :
    shown.flatMap (formattedLine real strlen format buf bufSize) =
        others.flatMap (formattedLine real strlen format buf bufSize) ↔
      List.Forall₂ (SameValues type buf) shown others := by
  let line := formattedLine real strlen format buf bufSize
  have delimited : Delimited (Set.range line) := by
    rintro _ ⟨memory, rfl⟩ _ ⟨other, rfl⟩ rest after same
    exact formattedLine_same real strlen described memory other
      (formattedLine_values real strlen described memory other rest after same)
  have nonempty : [] ∉ Set.range line := by
    rintro ⟨memory, empty⟩
    exact absurd (List.append_eq_nil_iff.mp empty).2 (by decide)
  have among : ∀ memories : List (Nat → UInt8), ∀ text ∈ memories.map line,
      text ∈ Set.range line := by
    intro memories text member
    obtain ⟨memory, -, rfl⟩ := List.mem_map.mp member
    exact ⟨memory, rfl⟩
  have values : ∀ memory other, line memory = line other ↔ SameValues type buf memory other := by
    intro memory other
    refine ⟨fun same => ?_, formattedLine_same real strlen described memory other⟩
    exact formattedLine_values real strlen described memory other [] [] (congrArg (· ++ []) same)
  have placewise : shown.map line = others.map line ↔
      List.Forall₂ (SameValues type buf) shown others := by
    rw [← List.forall₂_eq_eq_eq, List.forall₂_map_left_iff, List.forall₂_map_right_iff]
    exact ⟨List.Forall₂.imp (fun _ _ => (values _ _).mp), List.Forall₂.imp (fun _ _ => (values _ _).mpr)⟩
  rw [← placewise, List.flatMap_def, List.flatMap_def]
  refine ⟨delimited.uniquelyDecodable nonempty _ _ (among shown) (among others), ?_⟩
  intro same
  exact congrArg List.flatten same

end Formatted

/-- A character and a `short`. -/
def charAndShort : Ty := .aggregate [.scalar .char, .scalar .short]

/-- Bytes in memory, from a copy at 64 on. -/
def bytesAt (bytes : List UInt8) (address : Nat) : UInt8 := bytes.getD (address - 64) 0

/-- The character `1` and the number 2 are told from the letter `c` and the number 12. -/
theorem lines_determine_values_short :
    [bytesAt [49, 0, 2, 0]].flatMap (formattedLine (fun _ _ => []) (fun _ _ => 0) (chars "cs") 64 4) ≠
      [bytesAt [99, 0, 12, 0]].flatMap
        (formattedLine (fun _ _ => []) (fun _ _ => 0) (chars "cs") 64 4) := by
  have described : Described charAndShort (chars "cs") 64 4 :=
    ⟨by decide, by decide, by decide, by decide, by decide⟩
  intro same
  have values := (lines_determine_values (fun _ _ => []) (fun _ _ => 0) described _ _).mp same
  cases values with
  | cons values _ =>
    have number := values (.short, 2) (by decide)
    rw [Alike, if_neg (by decide)] at number
    exact absurd number (by decide)

end Tyndall.Tools
