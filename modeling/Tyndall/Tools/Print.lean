import Tyndall.Foundation.CString
import Tyndall.Reflect.Reflection

/-!
# Printing an entry from its format

The reader tool walks over the letters of a format and over the bytes of an entry
at the same time. A number skips bytes, a letter prints the value at the next
address that the size of its type divides, and the walk stops at a letter without
a type or behind the end of the buffer.

The addresses depend on the letters alone. They are those of the entry's scalars
as long as the padding in front of each scalar is what the scalar's own alignment
asks for. Padding at the end of a nested aggregate, or in front of one, may be
more than that.
-/

namespace Tyndall.Tools

open Tyndall.Alignment Meta Reflect
open Tyndall.CString (isdigit strtol)

/-- What `print` does, in order. Values and strings are given by their address. -/
inductive Printed where
  | skipped (num : Nat)
  | value (scalar : Scalar) (address : Nat)
  | text (address : Nat)
  | wrongParameter (c : UInt8)
  | tooLarge
deriving DecidableEq, Repr

/-- One letter in the loop of `print`: what is printed and where the next item is
looked for, if the loop goes on. `strlen` stands for the strings in the buffer. -/
def printItem (strlen : Nat → Nat) (c : UInt8) (b : Nat) : List Printed × Option Nat :=
  match printFormat c b with
  | (0, _) =>
      if c = 115 then
        let printed := strlen b
        ([.text b], if printed = 0 then none else some (b + printed))
      else ([.wrongParameter c], none)
  | (printed, value) =>
      (value.toList.map (fun read => .value read.1 read.2), some (b + printed))

/-- The digits in front of a letter, and what stands behind them: `strtol` leaves the
pointer there, since neither a space nor a sign is in front of a digit. -/
def printSkip (f : List UInt8) (b : Nat) : List Printed × List UInt8 × Nat :=
  if isdigit (f.headD 0) then
    let num := (strtol f).toNat
    ([.skipped num], f.dropWhile isdigit, b + num)
  else ([], f, b)

/-- Skipping digits does not lengthen the format. -/
theorem printSkip_length (f : List UInt8) (b : Nat) : (printSkip f b).2.1.length ≤ f.length := by
  rw [printSkip]
  split
  · exact (List.dropWhile_sublist _).length_le
  · exact Nat.le_refl _

/-- The loop of `print`, over the characters of the format. -/
def printFrom (strlen : Nat → Nat) (buf bufSize : Nat) : List UInt8 → Nat → List Printed
  | [], _ => []
  | c :: rest, b =>
      let skip := printSkip (c :: rest) b
      let item := printItem strlen (skip.2.1.headD 0) skip.2.2
      skip.1 ++ item.1 ++
        match item.2 with
        | none => []
        | some next =>
            if next - buf > bufSize then [.tooLarge]
            else printFrom strlen buf bufSize skip.2.1.tail next
termination_by f => f.length
decreasing_by
  have shorter := printSkip_length (c :: rest) b
  rw [List.length_tail]
  rw [List.length_cons] at *
  omega

/-- `print(fmt, buf, buf_size)`. -/
def print (strlen : Nat → Nat) (fmt : List UInt8) (buf bufSize : Nat) : List Printed :=
  printFrom strlen buf bufSize (cString fmt) buf

/-- A letter is not a digit and not a NUL. -/
theorem letter_plain (scalar : Scalar) : isdigit scalar.letter = false ∧ scalar.letter ≠ 0 := by
  cases scalar <;> decide

@[simp] theorem printFrom_nil (strlen : Nat → Nat) (buf bufSize b : Nat) :
    printFrom strlen buf bufSize [] b = [] := by
  rw [printFrom]

/-- A letter prints the value at the next address that its size divides. -/
theorem printFrom_letter (strlen : Nat → Nat) (buf bufSize b : Nat) (scalar : Scalar)
    (rest : List UInt8) :
    printFrom strlen buf bufSize (scalar.letter :: rest) b =
      .value scalar (alignUp b scalar.sizeof) ::
        if alignUp b scalar.sizeof + scalar.sizeof - buf > bufSize then [.tooLarge]
        else printFrom strlen buf bufSize rest (alignUp b scalar.sizeof + scalar.sizeof) := by
  have positive := scalar.sizeof_pos
  have read := printFormatAlignment_eq scalar b
  obtain ⟨passed, printed⟩ : ∃ passed, scalar.sizeof +
      printFormatAlignment scalar.sizeof b = passed + 1 := ⟨_, (Nat.succ_pred (by omega)).symm⟩
  have next : b + (passed + 1) = alignUp b scalar.sizeof + scalar.sizeof := by omega
  have item : printItem strlen scalar.letter b =
      ([.value scalar (alignUp b scalar.sizeof)], some (alignUp b scalar.sizeof + scalar.sizeof)) := by
    simp [printItem, printFormat, printed, read, next]
  rw [printFrom]
  simp [printSkip, (letter_plain scalar).1, item]

/-- In front of each scalar fewer bytes are unused than the scalar has. The first
number is where the scalar before it ended. -/
def GapsFit : Nat → List (Scalar × Nat) → Prop
  | _, [] => True
  | ended, (scalar, offset) :: rest =>
      offset < ended + scalar.sizeof ∧ GapsFit (offset + scalar.sizeof) rest

instance GapsFit.decidable : (ended : Nat) → (leaves : List (Scalar × Nat)) →
    Decidable (GapsFit ended leaves)
  | _, [] => .isTrue trivial
  | ended, (scalar, offset) :: rest =>
      have := GapsFit.decidable (offset + scalar.sizeof) rest
      inferInstanceAs (Decidable (offset < ended + scalar.sizeof ∧ _))

/-- The letters of placed scalars read them at their places if and only if the
gaps in front of them fit.

Proof: by induction on the scalars. The address computed from the letter is the
only multiple of the size less than one size away from the end of the scalar
before, so it is the true one exactly when the gap is smaller than that. -/
theorem print_placed_iff (strlen : Nat → Nat) (buf bufSize : Nat) (aligned : 64 ∣ buf)
    (leaves : List (Scalar × Nat)) (ended finish : Nat) (placed : Placed ended finish leaves)
    (enough : finish ≤ bufSize) :
    printFrom strlen buf bufSize (leaves.map (fun leaf => leaf.1.letter)) (buf + ended) =
        leaves.map (fun leaf => .value leaf.1 (buf + leaf.2)) ↔
      GapsFit ended leaves := by
  induction leaves generalizing ended with
  | nil => simp [GapsFit]
  | cons leaf rest inductionHypothesis =>
    obtain ⟨scalar, offset⟩ := leaf
    obtain ⟨after, divides, following⟩ := placed
    have address : alignUp (buf + ended) scalar.sizeof = buf + alignUp ended scalar.sizeof :=
      alignUp_add buf ended scalar.sizeof_pos (scalar.sizeof_dvd_cacheline.trans aligned)
    have inside := following.ordered
    rw [List.map_cons, List.map_cons, printFrom_letter, address, GapsFit]
    by_cases fits : offset < ended + scalar.sizeof
    · have here : alignUp ended scalar.sizeof = offset := alignUp_eq after fits divides
      have bounded : ¬ buf + offset + scalar.sizeof - buf > bufSize := by omega
      rw [here, if_neg bounded, Nat.add_assoc, List.cons.injEq, inductionHypothesis _ following]
      simp [fits]
    · have elsewhere : alignUp ended scalar.sizeof ≠ offset := by
        have near := alignUp_lt ended scalar.sizeof_pos
        omega
      simp [fits, elsewhere]

/-- The format made for a type reads every scalar of an entry once, in order, as
its own type and at its place, if and only if the gaps in front of them fit. -/
theorem format_describes_layout_iff (type : Ty) (format : List UInt8)
    (made : type.getFormat = some format) (strlen : Nat → Nat) (buf bufSize : Nat)
    (aligned : 64 ∣ buf) (enough : type.size ≤ bufSize) :
    print strlen format buf bufSize =
        (type.leaves 0).map (fun leaf => .value leaf.1 (buf + leaf.2)) ↔
      GapsFit 0 (type.leaves 0) := by
  have placed := type.leaves_placed 0 (Nat.dvd_zero _)
  rw [Nat.zero_add] at placed
  have letters := type.getFormat_leaves format 0 made
  have whole : cString format = format := by
    apply cString_of_nulFree format
    intro member
    rw [letters] at member
    obtain ⟨leaf, _, zero⟩ := List.mem_map.mp member
    exact (letter_plain leaf.1).2 zero
  rw [print, whole, letters]
  exact print_placed_iff strlen buf bufSize aligned _ 0 type.size placed enough

/-- An `int` and a `char` in an aggregate of their own, and another `char`. -/
def nestedTail : Ty :=
  .aggregate [.aggregate [.scalar .int, .scalar .char], .scalar .char]

/-- The struct of the repository's format test. -/
def testStruct : Ty :=
  .aggregate [.scalar .float, .scalar .int, .scalar .int, .scalar .unsignedInt,
    .scalar .unsignedChar, .scalar .unsignedShort, .aggregate [.scalar .int, .scalar .int],
    .array (.scalar .unsignedInt) 3]

/-- The test's struct is printed as it lies in memory. -/
theorem format_describes_layout_test : print (fun _ => 0) (chars "fiijhtiijjj") 64 44 =
    (testStruct.leaves 0).map (fun leaf => .value leaf.1 (64 + leaf.2)) :=
  (format_describes_layout_iff testStruct (chars "fiijhtiijjj") (by decide) (fun _ => 0) 64 44
    (by decide) (by decide)).mpr (by decide)

/-- The inner aggregate ends in three bytes of padding, which its format does not
tell: the last `char` is read at offset 5 instead of 8. -/
theorem format_describes_layout_fails :
    nestedTail.getFormat = some (chars "icc") ∧
      nestedTail.leaves 0 = [(.int, 0), (.char, 4), (.char, 8)] ∧
      print (fun _ => 0) (chars "icc") 64 12 =
        [.value .int 64, .value .char 68, .value .char 69] := by
  refine ⟨by decide, by decide, ?_⟩
  have letters : chars "icc" = [Scalar.int.letter, Scalar.char.letter, Scalar.char.letter] := by
    decide
  have whole : cString (chars "icc") = chars "icc" := by decide
  rw [print, whole, letters]
  simp only [printFrom_letter, printFrom_nil]
  decide

end Tyndall.Tools
