import Tyndall.Foundation.CString
import Tyndall.Foundation.LongestRuns
import Tyndall.Tools.Print

/-!
# The format language of the reader tool

A format is a sequence of letters and counts, where a count is a longest run of
digits. `print` looks for a letter behind each count, and only then at the next
character, so a count at the end leaves it with the terminator for a letter. The
letter `s` stands for a string in the README and for a `short` in the dispatcher,
which is asked first.

The size of the buffer is compared with the end of a scalar that has been read
already, so the message that a format is too large follows the read that it should
prevent, and a count that leaves the buffer is not noticed at all.
-/

namespace Tyndall.Tools

open Tyndall.Alignment Tyndall.LongestRuns Meta Reflect
open Tyndall.CString (decimalValue isdigit isspace isspace_digit signedValue strtol)

/-- The items of a format: its counts, as runs of digits, and its letters. -/
def items (fmt : List UInt8) : List (Piece UInt8) := pieces isdigit fmt

/-- The bytes that `strtol` makes of a count: no more than the largest `long`. -/
def skipped (digits : List UInt8) : Nat := min (decimalValue digits) (2 ^ 63 - 1)

/-- The address behind the last of the items, if they are laid out one after the
other from an address on. Items behind a letter without a type do not count. -/
def itemsEnd : List (Piece UInt8) → Nat → Nat
  | [], b => b
  | .run digits :: rest, b => itemsEnd rest (b + skipped digits)
  | .single c :: rest, b =>
      match scalarOf c with
      | some scalar => itemsEnd rest (alignUp b scalar.sizeof + scalar.sizeof)
      | none => b

/-- A byte of the buffer is read through `print_format`. -/
def Reads (byte : Nat) : Printed → Prop
  | .value scalar address => address ≤ byte ∧ byte < address + scalar.sizeof
  | _ => False

/-- Everything that is read through `print_format` is inside the buffer. -/
def ReadsInside (buf bufSize : Nat) (printed : List Printed) : Prop :=
  ∀ item ∈ printed, ∀ byte, Reads byte item → buf ≤ byte ∧ byte < buf + bufSize

/-- Where the next item is looked for when something has been printed. -/
def Printed.behind (strlen : Nat → Nat) : Printed → Nat → Nat
  | .skipped num, b => b + num
  | .value scalar address, _ => address + scalar.sizeof
  | .text address, _ => address + strlen address
  | .wrongParameter _, b => b
  | .tooLarge, b => b

/-- What is printed stops in time: directly behind what leaves the buffer, which ends
at `finish`, stands the message that the format is too large, and nothing else. -/
def StopsInTime (strlen : Nat → Nat) (finish : Nat) : Nat → List Printed → Prop
  | _, [] => True
  | b, item :: rest =>
      if finish < item.behind strlen b then rest = [.tooLarge]
      else StopsInTime strlen finish (item.behind strlen b) rest

/-- What the README says that a letter stands for. -/
inductive Field where
  | string
  | scalar (scalar : Scalar)
deriving DecidableEq, Repr

/-- The list of type ids in the README. -/
def typeIds : List (UInt8 × Field) :=
  [(115, .string), (98, .scalar .bool), (102, .scalar .float), (100, .scalar .double),
    (105, .scalar .int), (106, .scalar .unsignedInt), (99, .scalar .char),
    (104, .scalar .unsignedChar), (108, .scalar .long), (109, .scalar .unsignedLong),
    (120, .scalar .longLong), (121, .scalar .unsignedLongLong)]

/-- The type that the README assigns to a letter. -/
def fieldOf (c : UInt8) : Option Field := typeIds.lookup c

/-- What is printed for items from an address on, as the README describes them, and
where the last one ends. A string ends with its NUL. -/
def describe (strlen : Nat → Nat) : List (Piece UInt8) → Nat → List Printed × Nat
  | [], b => ([], b)
  | .run digits :: rest, b =>
      let following := describe strlen rest (b + decimalValue digits)
      (.skipped (decimalValue digits) :: following.1, following.2)
  | .single c :: rest, b =>
      match fieldOf c with
      | some (.scalar scalar) =>
          let following := describe strlen rest (alignUp b scalar.sizeof + scalar.sizeof)
          (.value scalar (alignUp b scalar.sizeof) :: following.1, following.2)
      | some .string =>
          let following := describe strlen rest (b + strlen b + 1)
          (.text b :: following.1, following.2)
      | none => ([], b)

/-- A format is read as the README describes it when it asks for no string, does
not end with a count, and has no count that is greater than the largest `long`. -/
structure Understood (fmt : List UInt8) : Prop where
  no_string : 115 ∉ fmt
  no_last_count : ∀ c ∈ fmt.getLast?, isdigit c = false
  counts : ∀ digits, .run digits ∈ items fmt → decimalValue digits < 2 ^ 63

/-- `strtol` makes of the digits that it stands in front of their number. -/
theorem strtol_digits {digits rest : List UInt8} (some_digit : digits ≠ [])
    (all : ∀ c ∈ digits, isdigit c = true) (stops : ∀ c ∈ rest.head?, isdigit c = false) :
    (strtol (digits ++ rest)).toNat = skipped digits := by
  obtain ⟨c, others, rfl⟩ := List.exists_cons_of_ne_nil some_digit
  have digit : isdigit c = true := all c List.mem_cons_self
  have no_space : ((c :: others) ++ rest).dropWhile isspace = (c :: others) ++ rest := by
    rw [List.cons_append, List.dropWhile_cons_of_neg (by simp [isspace_digit digit])]
  have not_minus : c ≠ 45 := by
    rintro rfl
    exact absurd digit (by decide)
  have not_plus : c ≠ 43 := by
    rintro rfl
    exact absurd digit (by decide)
  have no_sign : signedValue ((c :: others) ++ rest) = decimalValue (c :: others) := by
    have number := takeWhile_run all stops
    rw [List.cons_append] at number ⊢
    simp [signedValue, not_minus, not_plus, number]
  rw [strtol, no_space, no_sign, skipped]
  omega

section Loop

variable (strlen : Nat → Nat) (buf bufSize b : Nat)

/-- A letter that is no digit is not skipped. -/
theorem printSkip_letter {c : UInt8} (rest : List UInt8) (letter : isdigit c = false) :
    printSkip (c :: rest) b = ([], c :: rest, b) := by
  simp [printSkip, letter]

/-- The digits in front of a format are skipped together. -/
theorem printSkip_digits {digits rest : List UInt8} (some_digit : digits ≠ [])
    (all : ∀ c ∈ digits, isdigit c = true) (stops : ∀ c ∈ rest.head?, isdigit c = false) :
    printSkip (digits ++ rest) b = ([.skipped (skipped digits)], rest, b + skipped digits) := by
  obtain ⟨c, others, rfl⟩ := List.exists_cons_of_ne_nil some_digit
  have first : isdigit (((c :: others) ++ rest).headD 0) = true := all c List.mem_cons_self
  rw [printSkip, if_pos first, strtol_digits some_digit all stops, dropWhile_run all stops]

/-- A count in front of a letter is skipped, and the loop goes on as if it started
at the letter. -/
theorem printFrom_count {digits : List UInt8} {c : UInt8} (rest : List UInt8)
    (some_digit : digits ≠ []) (all : ∀ c ∈ digits, isdigit c = true)
    (letter : isdigit c = false) :
    printFrom strlen buf bufSize (digits ++ c :: rest) b =
      .skipped (skipped digits) ::
        printFrom strlen buf bufSize (c :: rest) (b + skipped digits) := by
  have stops : ∀ d ∈ (c :: rest).head?, isdigit d = false := by
    rintro d ⟨rfl⟩
    exact letter
  have skip := printSkip_digits b some_digit all stops
  have no_skip := printSkip_letter (b + skipped digits) rest letter
  obtain ⟨d, others, rfl⟩ := List.exists_cons_of_ne_nil some_digit
  rw [List.cons_append] at skip ⊢
  rw [printFrom, printFrom, skip, no_skip]
  rfl

/-- A count at the end is skipped, and then the terminator is taken for a letter. -/
theorem printFrom_last_count {digits : List UInt8} (some_digit : digits ≠ [])
    (all : ∀ c ∈ digits, isdigit c = true) :
    printFrom strlen buf bufSize digits b = [.skipped (skipped digits), .wrongParameter 0] := by
  have skip : printSkip (digits ++ []) b = ([.skipped (skipped digits)], [], b + skipped digits) :=
    printSkip_digits b some_digit all (by simp)
  rw [List.append_nil] at skip
  obtain ⟨d, others, rfl⟩ := List.exists_cons_of_ne_nil some_digit
  rw [printFrom, skip]
  rfl

/-- The letter of a string has a type, and so is no wrong parameter. -/
theorem string_letter : Scalar.short.letter = 115 := rfl

/-- A letter without a type ends the loop. -/
theorem printFrom_wrong {c : UInt8} (rest : List UInt8) (letter : isdigit c = false)
    (wrong : scalarOf c = none) :
    printFrom strlen buf bufSize (c :: rest) b = [.wrongParameter c] := by
  have no_string : c ≠ 115 := by
    rintro rfl
    rw [← string_letter, scalarOf_letter] at wrong
    contradiction
  have item : printItem strlen c b = ([.wrongParameter c], none) := by
    simp [printItem, printFormat, wrong, no_string]
  rw [printFrom, printSkip_letter b rest letter]
  simp [item]

/-- The dispatcher finds a scalar by its own letter. -/
theorem scalarOf_eq_some {c : UInt8} {scalar : Scalar} (found : scalarOf c = some scalar) :
    c = scalar.letter := by
  have named := List.find?_some found
  exact (of_decide_eq_true named).symm

/-- Laying out items does not bring the end back. -/
theorem le_itemsEnd (items : List (Piece UInt8)) : b ≤ itemsEnd items b := by
  induction items generalizing b with
  | nil => exact Nat.le_refl _
  | cons item rest inductionHypothesis =>
    cases item with
    | run digits => exact (Nat.le_add_right _ _).trans (inductionHypothesis _)
    | single c =>
      rw [itemsEnd]
      cases scalarOf c with
      | none => exact Nat.le_refl _
      | some scalar =>
        have next := le_alignUp b scalar.sizeof_pos
        exact (next.trans (Nat.le_add_right _ _)).trans (inductionHypothesis _)

/-- What is printed at a letter does not start with the message. -/
theorem printFrom_no_message {c : UInt8} (rest : List UInt8) (letter : isdigit c = false) :
    printFrom strlen buf bufSize (c :: rest) b ≠ [.tooLarge] := by
  cases found : scalarOf c with
  | none => simp [printFrom_wrong strlen buf bufSize b rest letter found]
  | some scalar =>
    obtain rfl := scalarOf_eq_some found
    simp [printFrom_letter]

/-- A scalar that ends behind the buffer reads a byte there. -/
theorem reads_behind (scalar : Scalar) {address : Nat} (printed : List Printed)
    (outside : buf + bufSize < address + scalar.sizeof) :
    ¬ ReadsInside buf bufSize (.value scalar address :: printed) := by
  intro inside
  have positive := scalar.sizeof_pos
  have final := inside _ List.mem_cons_self (address + scalar.sizeof - 1) ⟨by omega, by omega⟩
  omega

/-- What reads nothing reads nothing outside the buffer. -/
theorem readsInside_cons {item : Printed} (printed : List Printed)
    (inside : ∀ byte, Reads byte item → buf ≤ byte ∧ byte < buf + bufSize) :
    ReadsInside buf bufSize (item :: printed) ↔ ReadsInside buf bufSize printed := by
  rw [ReadsInside, List.forall_mem_cons, and_iff_right inside, ReadsInside]

/-- A loop that starts in the buffer reads inside it, and stops in time, exactly when
its items end inside. The first item that does not is a scalar, which is read before
its end is compared, or a count, behind which nothing is compared. -/
theorem printFrom_inside_iff (f : List UInt8) (start : buf ≤ b) (inside : b ≤ buf + bufSize) :
    ReadsInside buf bufSize (printFrom strlen buf bufSize f b) ∧
        StopsInTime strlen (buf + bufSize) b (printFrom strlen buf bufSize f b) ↔
      itemsEnd (items f) b ≤ buf + bufSize := by
  induction f using pieces_induction isdigit generalizing b with
  | nil => simpa [items, pieces, itemsEnd, ReadsInside, StopsInTime] using inside
  | run digits rest some_digit all stops inductionHypothesis =>
    have ends := le_itemsEnd (b + skipped digits) (items rest)
    rw [items, pieces_run some_digit all stops, itemsEnd, ← items]
    cases rest with
    | nil =>
      rw [List.append_nil, printFrom_last_count strlen buf bufSize b some_digit all]
      simp [items, pieces, itemsEnd, ReadsInside, Reads, StopsInTime, Printed.behind]
    | cons c rest =>
      have letter := stops c rfl
      rw [printFrom_count strlen buf bufSize b rest some_digit all letter,
        readsInside_cons buf bufSize _ (fun _ read => absurd read id), StopsInTime, Printed.behind]
      by_cases further : buf + bufSize < b + skipped digits
      · rw [if_pos further]
        apply iff_of_false
        · exact fun late => printFrom_no_message strlen buf bufSize _ rest letter late.2
        · omega
      · rw [if_neg further]
        exact inductionHypothesis (b + skipped digits) (by omega) (by omega)
  | single c rest letter inductionHypothesis =>
    rw [items, pieces_single rest letter, itemsEnd, ← items]
    cases found : scalarOf c with
    | none =>
      rw [printFrom_wrong strlen buf bufSize b rest letter found]
      simp [ReadsInside, Reads, StopsInTime, Printed.behind, inside]
    | some scalar =>
      obtain rfl := scalarOf_eq_some found
      have next := le_alignUp b scalar.sizeof_pos
      rw [printFrom_letter]
      by_cases fits : alignUp b scalar.sizeof + scalar.sizeof ≤ buf + bufSize
      · have goes_on : ¬ alignUp b scalar.sizeof + scalar.sizeof - buf > bufSize := by omega
        have read : ∀ byte, Reads byte (.value scalar (alignUp b scalar.sizeof)) →
            buf ≤ byte ∧ byte < buf + bufSize := by
          rintro byte ⟨low, high⟩
          omega
        rw [if_neg goes_on, readsInside_cons buf bufSize _ read, StopsInTime, Printed.behind,
          if_neg (Nat.not_lt.mpr fits)]
        exact inductionHypothesis _ (by omega) fits
      · have ends := le_itemsEnd (alignUp b scalar.sizeof + scalar.sizeof) (items rest)
        apply iff_of_false
        · exact fun early => reads_behind buf bufSize scalar _ (Nat.not_le.mp fits) early.1
        · exact fun last => fits (ends.trans last)

/-- The loop says that the format is too large exactly when it has read a byte outside
the buffer. -/
theorem printFrom_message_iff (f : List UInt8) (start : buf ≤ b) :
    .tooLarge ∈ printFrom strlen buf bufSize f b ↔
      ¬ ReadsInside buf bufSize (printFrom strlen buf bufSize f b) := by
  induction f using pieces_induction isdigit generalizing b with
  | nil => simp [ReadsInside]
  | run digits rest some_digit all stops inductionHypothesis =>
    cases rest with
    | nil =>
      rw [List.append_nil, printFrom_last_count strlen buf bufSize b some_digit all]
      simp [ReadsInside, Reads]
    | cons c rest =>
      rw [printFrom_count strlen buf bufSize b rest some_digit all (stops c rfl),
        readsInside_cons buf bufSize _ (fun _ read => absurd read id),
        ← inductionHypothesis (b + skipped digits) (by omega)]
      simp
  | single c rest letter inductionHypothesis =>
    cases found : scalarOf c with
    | none =>
      rw [printFrom_wrong strlen buf bufSize b rest letter found]
      simp [ReadsInside, Reads]
    | some scalar =>
      obtain rfl := scalarOf_eq_some found
      have next := le_alignUp b scalar.sizeof_pos
      rw [printFrom_letter]
      by_cases fits : alignUp b scalar.sizeof + scalar.sizeof ≤ buf + bufSize
      · have goes_on : ¬ alignUp b scalar.sizeof + scalar.sizeof - buf > bufSize := by omega
        have read : ∀ byte, Reads byte (.value scalar (alignUp b scalar.sizeof)) →
            buf ≤ byte ∧ byte < buf + bufSize := by
          rintro byte ⟨low, high⟩
          omega
        rw [if_neg goes_on, readsInside_cons buf bufSize _ read,
          ← inductionHypothesis _ (by omega)]
        simp
      · have stops : alignUp b scalar.sizeof + scalar.sizeof - buf > bufSize := by omega
        rw [if_pos stops]
        apply iff_of_true
        · simp
        · exact reads_behind buf bufSize scalar _ (Nat.not_le.mp fits)

end Loop

/-- `print` reads inside the buffer, and says that the format is too large directly
behind what leaves the buffer, if and only if the items of the format, laid out from
the start of the buffer on, end inside it. It says so if and only if it has read a
byte outside.

Proof: as long as the items end inside, none of them ends the loop. The first scalar
that ends behind the buffer is read before the sizes are compared, and behind a count
that does, a letter is printed before they are. -/
theorem print_inside_iff (strlen : Nat → Nat) (fmt : List UInt8) (buf bufSize : Nat) :
    (ReadsInside buf bufSize (print strlen fmt buf bufSize) ∧
        StopsInTime strlen (buf + bufSize) buf (print strlen fmt buf bufSize) ↔
      itemsEnd (items (cString fmt)) buf ≤ buf + bufSize) ∧
    (.tooLarge ∈ print strlen fmt buf bufSize ↔
      ¬ ReadsInside buf bufSize (print strlen fmt buf bufSize)) := by
  constructor
  · exact printFrom_inside_iff strlen buf bufSize buf (cString fmt) (Nat.le_refl _)
      (Nat.le_add_right _ _)
  · exact printFrom_message_iff strlen buf bufSize buf (cString fmt) (Nat.le_refl _)

/-- The letter of a `long long` reads eight bytes of a buffer of four, and only then
is the format found too large. A count that leaves the buffer is not found to be. -/
theorem print_inside_fails :
    (print (fun _ => 0) (chars "y") 64 4 = [.value .unsignedLongLong 64, .tooLarge] ∧
      Reads 71 (.value .unsignedLongLong 64) ∧ ¬ 71 < 64 + 4) ∧
    print (fun _ => 0) (chars "i99") 64 4 =
      [.value .int 64, .skipped 99, .wrongParameter 0] := by
  have letters : cString (chars "y") = [Scalar.unsignedLongLong.letter] := by decide
  have address : alignUp 64 Scalar.unsignedLongLong.sizeof = 64 := by decide
  have count : cString (chars "i99") = [Scalar.int.letter, 57, 57] := by decide
  refine ⟨⟨?_, ⟨by decide, by decide⟩, by decide⟩, ?_⟩
  · rw [print, letters, printFrom_letter, address]
    rfl
  · rw [print, count, printFrom_letter, printFrom_last_count _ _ _ _ (by simp) (by simp [isdigit])]
    rfl

/-- A letter of the README stands for its scalar, or is the one of a string. -/
theorem fieldOf_cases {c : UInt8} {field : Field} (assigned : fieldOf c = some field) :
    (c = 115 ∧ field = .string) ∨
      (c ≠ 115 ∧ ∃ scalar : Scalar, c = scalar.letter ∧ field = .scalar scalar) := by
  have all : ∀ entry ∈ typeIds, (entry.1 = 115 ∧ entry.2 = .string) ∨
      (entry.1 ≠ 115 ∧ ∃ scalar : Scalar, entry.1 = scalar.letter ∧ entry.2 = .scalar scalar) := by
    intro entry member
    simp only [typeIds, List.mem_cons, List.not_mem_nil, or_false] at member
    rcases member with rfl | rfl | rfl | rfl | rfl | rfl | rfl | rfl | rfl | rfl | rfl | rfl
    · exact Or.inl ⟨rfl, rfl⟩
    all_goals exact Or.inr ⟨by decide, _, rfl, rfl⟩
  obtain ⟨before, after, split, _⟩ := List.lookup_eq_some_iff.mp assigned
  exact all (c, field) (by simp [split])

/-- What is described does not end before it starts. -/
theorem le_describe (strlen : Nat → Nat) (items : List (Piece UInt8)) (b : Nat) :
    b ≤ (describe strlen items b).2 := by
  induction items generalizing b with
  | nil => exact Nat.le_refl _
  | cons item rest inductionHypothesis =>
    cases item with
    | run digits => exact (Nat.le_add_right _ _).trans (inductionHypothesis _)
    | single c =>
      rw [describe]
      cases fieldOf c with
      | none => exact Nat.le_refl _
      | some field =>
        cases field with
        | string => exact (Nat.le_add_right _ _).trans (inductionHypothesis (b + (strlen b + 1)))
        | scalar scalar =>
          have next := le_alignUp b scalar.sizeof_pos
          exact (next.trans (Nat.le_add_right _ _)).trans (inductionHypothesis _)

/-- A format with a count in front is understood exactly when something stands
behind the count, the count is no greater than the largest `long`, and the rest of
the format is understood. -/
theorem understood_count_iff {digits rest : List UInt8} (some_digit : digits ≠ [])
    (all : ∀ c ∈ digits, isdigit c = true) (stops : ∀ c ∈ rest.head?, isdigit c = false) :
    Understood (digits ++ rest) ↔
      rest ≠ [] ∧ decimalValue digits < 2 ^ 63 ∧ Understood rest := by
  have no_string : 115 ∉ digits := by
    intro member
    exact absurd (all 115 member) (by decide)
  have split : items (digits ++ rest) = .run digits :: items rest := by
    rw [items, pieces_run some_digit all stops, items]
  constructor
  · rintro ⟨string, last, counts⟩
    have more : rest ≠ [] := by
      rintro rfl
      rw [List.append_nil] at last
      have digit := all _ (List.getLast_mem some_digit)
      rw [last _ (List.getLast?_eq_some_getLast some_digit)] at digit
      exact Bool.false_ne_true digit
    rw [List.getLast?_append_of_ne_nil digits more] at last
    rw [split] at counts
    refine ⟨more, counts digits List.mem_cons_self, ?_, last, ?_⟩
    · exact fun member => string (List.mem_append_right digits member)
    · exact fun others member => counts others (List.mem_cons_of_mem _ member)
  · rintro ⟨more, bounded, string, last, counts⟩
    constructor
    · rw [List.mem_append, not_or]
      exact ⟨no_string, string⟩
    · rw [List.getLast?_append_of_ne_nil digits more]
      exact last
    · intro others member
      rw [split] at member
      rcases List.mem_cons.mp member with same | later
      · obtain rfl := Piece.run.inj same
        exact bounded
      · exact counts others later

/-- A format with a letter in front is understood exactly when the letter is not the
one of a string and the rest of the format is understood. -/
theorem understood_letter_iff {c : UInt8} (rest : List UInt8) (letter : isdigit c = false) :
    Understood (c :: rest) ↔ c ≠ 115 ∧ Understood rest := by
  have split : items (c :: rest) = .single c :: items rest := by
    rw [items, pieces_single rest letter, items]
  have last : (∀ d ∈ (c :: rest).getLast?, isdigit d = false) ↔
      ∀ d ∈ rest.getLast?, isdigit d = false := by
    cases rest with
    | nil => simp [letter]
    | cons d rest => rw [List.getLast?_cons_cons]
  have counts : (∀ digits, .run digits ∈ items (c :: rest) → decimalValue digits < 2 ^ 63) ↔
      ∀ digits, .run digits ∈ items rest → decimalValue digits < 2 ^ 63 := by
    simp [split]
  constructor
  · rintro ⟨no_string, no_count, bounded⟩
    rw [List.mem_cons, not_or] at no_string
    exact ⟨Ne.symm no_string.1, no_string.2, last.mp no_count, counts.mp bounded⟩
  · rintro ⟨other, no_string, no_count, bounded⟩
    refine ⟨?_, last.mpr no_count, counts.mpr bounded⟩
    rw [List.mem_cons, not_or]
    exact ⟨Ne.symm other, no_string⟩

/-- The empty format is understood. -/
theorem understood_nil : Understood [] where
  no_string := List.not_mem_nil
  no_last_count := by simp
  counts := by simp [items, pieces]

/-- Where the buffer is large enough for what is described, the loop prints just
that if and only if the format is understood. -/
theorem printFrom_describes_iff (strlen : Nat → Nat) (buf bufSize : Nat) (f : List UInt8)
    (readme : ∀ c ∈ f, isdigit c = true ∨ fieldOf c ≠ none) (b : Nat)
    (enough : (describe strlen (items f) b).2 ≤ buf + bufSize) :
    printFrom strlen buf bufSize f b = (describe strlen (items f) b).1 ↔ Understood f := by
  induction f using pieces_induction isdigit generalizing b with
  | nil => simp [items, pieces, describe, understood_nil]
  | run digits rest some_digit all stops inductionHypothesis =>
    have later : ∀ c ∈ rest, isdigit c = true ∨ fieldOf c ≠ none :=
      fun c member => readme c (List.mem_append_right digits member)
    rw [understood_count_iff some_digit all stops]
    rw [items, pieces_run some_digit all stops, describe, ← items] at enough ⊢
    cases rest with
    | nil =>
      rw [List.append_nil, printFrom_last_count strlen buf bufSize b some_digit all]
      simp [items, pieces, describe]
    | cons c rest =>
      rw [printFrom_count strlen buf bufSize b rest some_digit all (stops c rfl)]
      by_cases bounded : decimalValue digits < 2 ^ 63
      · have number : skipped digits = decimalValue digits := by
          rw [skipped]
          omega
        rw [number, List.cons.injEq, inductionHypothesis later _ enough, and_iff_right rfl,
          and_iff_right (List.cons_ne_nil c rest), and_iff_right bounded]
      · have number : skipped digits ≠ decimalValue digits := by
          rw [skipped]
          omega
        apply iff_of_false
        · simp [number]
        · exact fun understood => bounded understood.2.1
  | single c rest letter inductionHypothesis =>
    have later : ∀ d ∈ rest, isdigit d = true ∨ fieldOf d ≠ none :=
      fun d member => readme d (List.mem_cons_of_mem c member)
    have assigned : fieldOf c ≠ none :=
      (readme c List.mem_cons_self).resolve_left (by simp [letter])
    obtain ⟨field, assigned⟩ := Option.ne_none_iff_exists'.mp assigned
    rw [understood_letter_iff rest letter]
    rw [items, pieces_single rest letter, describe, assigned, ← items] at enough ⊢
    rcases fieldOf_cases assigned with ⟨rfl, rfl⟩ | ⟨other, scalar, rfl, rfl⟩
    · apply iff_of_false
      · rw [← string_letter, printFrom_letter]
        simp
      · simp
    · have ends := le_describe strlen (items rest) (alignUp b scalar.sizeof + scalar.sizeof)
      have goes_on : ¬ alignUp b scalar.sizeof + scalar.sizeof - buf > bufSize := by
        have bounded := ends.trans enough
        omega
      rw [printFrom_letter, if_neg goes_on, List.cons.injEq, and_iff_right rfl,
        and_iff_right other]
      exact inductionHypothesis later _ enough

/-- `print` does with a format of the README's letters and counts, over a buffer that
is large enough, just what the README describes, if and only if the format asks for
no string, does not end with a count and has no count above the largest `long`. -/
theorem format_language_iff (strlen : Nat → Nat) (fmt : List UInt8) (buf bufSize : Nat)
    (readme : ∀ c ∈ fmt, isdigit c = true ∨ fieldOf c ≠ none)
    (enough : (describe strlen (items fmt) buf).2 ≤ buf + bufSize) :
    print strlen fmt buf bufSize = (describe strlen (items fmt) buf).1 ↔ Understood fmt := by
  have whole : cString fmt = fmt := by
    apply cString_of_nulFree fmt
    intro member
    exact absurd (readme 0 member) (by decide)
  rw [print, whole]
  exact printFrom_describes_iff strlen buf bufSize fmt readme buf enough

/-- The README's format with a count in it is understood. -/
theorem format_language_readme :
    print (fun _ => 0) (chars "i8f") 64 16 =
      [.value .int 64, .skipped 8, .value .float 76] := by
  have characters : chars "i8f" = [105, 56, 102] := by decide
  have split : items [105, 56, 102] = [.single 105, .run [56], .single 102] := by decide
  have understood : Understood (chars "i8f") := by
    rw [characters]
    constructor
    · decide
    · rintro c ⟨⟩
      decide
    · intro digits member
      have same : digits = [56] := by simpa [split] using member
      rw [same]
      decide
  have readme : ∀ c ∈ chars "i8f", isdigit c = true ∨ fieldOf c ≠ none := by
    rw [characters, List.forall_mem_cons, List.forall_mem_cons, List.forall_mem_singleton]
    exact ⟨by decide, by decide, by decide⟩
  have described := (format_language_iff (fun _ => 0) (chars "i8f") 64 16 readme
    (by decide)).mpr understood
  exact described.trans (by decide)

/-- A string is read as a `short`, and behind a last count the terminator is an
unknown letter. -/
theorem format_language_fails :
    print (fun _ => 2) (chars "s") 64 8 = [.value .short 64] ∧
      (describe (fun _ => 2) (items (chars "s")) 64).1 = [.text 64] ∧
      print (fun _ => 0) (chars "i4") 64 8 =
        [.value .int 64, .skipped 4, .wrongParameter 0] ∧
      (describe (fun _ => 0) (items (chars "i4")) 64).1 = [.value .int 64, .skipped 4] := by
  have string : cString (chars "s") = [Scalar.short.letter] := by decide
  have count : cString (chars "i4") = [Scalar.int.letter, 52] := by decide
  refine ⟨?_, by decide, ?_, by decide⟩
  · rw [print, string, printFrom_letter, printFrom_nil]
    rfl
  · rw [print, count, printFrom_letter, printFrom_last_count _ _ _ _ (by simp) (by simp [isdigit])]
    rfl

end Tyndall.Tools
