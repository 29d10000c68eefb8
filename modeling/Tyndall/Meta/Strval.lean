import Tyndall.Foundation.CString
import Tyndall.Meta.Hash

/-!
# Compile-time strings

A `strval` is its pack of characters. Its member templates recurse over the pack
and `to_strval` recurses over a number, pushing digits in front of the ones it
already has until the remainder is zero. A remainder that is zero from the start
has no digits at all: `to_strval<0>` is the empty string. For every other number
the digits are those of `std::to_string`.
-/

open Tyndall.CString (decimalValue)

namespace Tyndall.Meta

/-- A compile-time string: the characters of its template argument pack. -/
abbrev Strval := List UInt8

namespace Strval

/-- `strval::occurrences`. -/
def occurrences (c : UInt8) : Strval → Nat
  | [] => 0
  | lhs :: rhs => (if lhs = c then 1 else 0) + occurrences c rhs

/-- `strval::replace<pattern, replacement>`. -/
def replace (pattern replacement : UInt8) : Strval → Strval
  | [] => []
  | lhs :: rhs =>
      [if lhs = pattern then replacement else lhs] ++ replace pattern replacement rhs

/-- `strval::remove_leading<pattern>`. -/
def removeLeading (pattern : UInt8) : Strval → Strval
  | [] => []
  | lhs :: rhs => if lhs = pattern then removeLeading pattern rhs else lhs :: rhs

/-- Occurrences are counted. -/
theorem occurrences_eq_count (c : UInt8) (s : Strval) : occurrences c s = s.count c := by
  induction s with
  | nil => rfl
  | cons lhs rhs inductionHypothesis =>
    rw [occurrences, inductionHypothesis, List.count_cons, Nat.add_comm]
    simp only [beq_iff_eq]

/-- Replacement acts on each character. -/
theorem replace_eq_map (pattern replacement : UInt8) (s : Strval) :
    replace pattern replacement s = s.map (fun c => if c = pattern then replacement else c) := by
  induction s with
  | nil => rfl
  | cons lhs rhs inductionHypothesis => simp [replace, inductionHypothesis]

/-- Removing leading characters drops the longest run of them. -/
theorem removeLeading_eq_dropWhile (pattern : UInt8) (s : Strval) :
    removeLeading pattern s = s.dropWhile (· == pattern) := by
  induction s with
  | nil => rfl
  | cons lhs rhs inductionHypothesis =>
    by_cases same : lhs = pattern
    · simp [removeLeading, same, inductionHypothesis]
    · simp [removeLeading, same]

end Strval

/-- `to_strval<remainder, digits...>`. The specialisation for remainder zero ends
the recursion and renders the digits. -/
def toStrvalFrom (remainder : Nat) (digits : List Nat) : Strval :=
  if remainder = 0 then digits.map (fun digit => 48 + UInt8.ofNat digit)
  else toStrvalFrom (remainder / 10) (remainder % 10 :: digits)
termination_by remainder
decreasing_by omega

/-- `to_strval<n>`. -/
def toStrval (n : UInt32) : Strval := toStrvalFrom n.toNat []

/-- `std::to_string` of an unsigned number. -/
def decimal (n : Nat) : List UInt8 := (Nat.toDigits 10 n).map Char.toUInt8

/-- A digit is rendered alike in both. -/
theorem digit_rendered (digit : Nat) (below : digit < 10) :
    (Nat.digitChar digit).toUInt8 = 48 + UInt8.ofNat digit := by
  decide +revert

/-- The last decimal digit splits off. -/
theorem decimal_split (n : Nat) :
    decimal n = (if n < 10 then [] else decimal (n / 10)) ++ [48 + UInt8.ofNat (n % 10)] := by
  by_cases small : n < 10
  · have digit : n % 10 = n := Nat.mod_eq_of_lt small
    simp [decimal, Nat.toDigits_of_lt_base small, small, digit, digit_rendered n small]
  · have last : n % 10 < 10 := Nat.mod_lt n (by decide)
    simp [decimal, Nat.toDigits_of_base_le (by decide) (Nat.le_of_not_lt small), small,
      digit_rendered _ last]

/-- The recursion renders a nonzero remainder in decimal before the digits it
was given, and a zero remainder as nothing. -/
theorem toStrvalFrom_eq (remainder : Nat) (digits : List Nat) :
    toStrvalFrom remainder digits = (if remainder = 0 then [] else decimal remainder) ++
      digits.map (fun digit => 48 + UInt8.ofNat digit) := by
  induction remainder, digits using toStrvalFrom.induct with
  | case1 digits => simp [toStrvalFrom]
  | case2 remainder digits nonzero inductionHypothesis =>
    rw [toStrvalFrom, if_neg nonzero, inductionHypothesis, decimal_split remainder]
    by_cases small : remainder < 10
    · simp [nonzero, small, Nat.div_eq_of_lt small]
    · have more : ¬ remainder / 10 = 0 := by omega
      simp [nonzero, small, more]

/-- A number is read back from its digits. -/
theorem decimalValue_decimal (n : Nat) : decimalValue (decimal n) = n := by
  induction n using Nat.strongRecOn with
  | ind n inductionHypothesis =>
    have last : ∀ digit < 10, (48 + UInt8.ofNat digit).toNat - 48 = digit := by decide
    have digit := last (n % 10) (Nat.mod_lt n (by decide))
    rw [decimal_split, decimalValue, List.foldl_append, List.foldl_cons, List.foldl_nil, digit,
      ← decimalValue]
    by_cases small : n < 10
    · rw [if_pos small, decimalValue, List.foldl_nil]
      omega
    · rw [if_neg small, inductionHypothesis (n / 10) (by omega)]
      omega

/-- Different numbers have different digits. -/
theorem decimal_injective (n m : Nat) (same : decimal n = decimal m) : n = m := by
  rw [← decimalValue_decimal n, same, decimalValue_decimal]

/-- A nonzero number is rendered as `std::to_string` renders it. -/
theorem toStrval_eq_decimal (n : UInt32) (nonzero : n ≠ 0) : toStrval n = decimal n.toNat := by
  have positive : ¬ n.toNat = 0 := fun zero => nonzero (UInt32.toNat_inj.mp zero)
  simp [toStrval, toStrvalFrom_eq, positive]

/-- Zero is rendered as nothing. -/
@[simp] theorem toStrval_zero : toStrval 0 = [] := by
  simp [toStrval, toStrvalFrom_eq]

/-- `std::to_string` always writes at least one digit, and only digits. -/
theorem decimal_digits (n : Nat) : decimal n ≠ [] ∧ ∀ c ∈ decimal n, 48 ≤ c ∧ c ≤ 57 := by
  induction n using Nat.strongRecOn with
  | ind n inductionHypothesis =>
    have last : ∀ digit < 10, 48 ≤ 48 + UInt8.ofNat digit ∧ 48 + UInt8.ofNat digit ≤ 57 := by
      decide
    rw [decimal_split]
    refine ⟨by simp, ?_⟩
    intro c member
    rcases List.mem_append.mp member with leading | final
    · by_cases small : n < 10
      · simp [small] at leading
      · rw [if_neg small] at leading
        exact (inductionHypothesis (n / 10) (by omega)).2 c leading
    · obtain rfl := List.mem_singleton.mp final
      exact last (n % 10) (Nat.mod_lt n (by decide))

/-- `to_strval` writes only digits. -/
theorem toStrval_digits (n : UInt32) : ∀ c ∈ toStrval n, 48 ≤ c ∧ c ≤ 57 := by
  by_cases zero : n = 0
  · simp [zero]
  · rw [toStrval_eq_decimal n zero]
    exact (decimal_digits _).2

/-- Only zero has a leading zero. -/
theorem decimal_leading_zero (n : Nat) (leads : (decimal n).head? = some 48) : n = 0 := by
  induction n using Nat.strongRecOn with
  | ind n inductionHypothesis =>
    have last : ∀ digit < 10, 48 + UInt8.ofNat digit = 48 → digit = 0 := by decide
    rw [decimal_split] at leads
    by_cases small : n < 10
    · rw [if_pos small, List.nil_append, List.head?_cons, Nat.mod_eq_of_lt small] at leads
      exact last n small (Option.some.inj leads)
    · obtain ⟨c, rest, split⟩ := List.exists_cons_of_ne_nil (decimal_digits (n / 10)).1
      have front : (decimal (n / 10)).head? = some 48 := by
        rw [if_neg small, split] at leads
        rw [split]
        exact leads
      have zero := inductionHypothesis (n / 10) (by omega) front
      omega

/-- Different numbers have different renderings, zero included. -/
theorem toStrval_injective (n m : UInt32) (same : toStrval n = toStrval m) : n = m := by
  by_cases zero : n = 0
  · by_cases zeroOther : m = 0
    · rw [zero, zeroOther]
    · rw [zero, toStrval_zero, toStrval_eq_decimal m zeroOther] at same
      exact absurd same.symm (decimal_digits m.toNat).1
  · by_cases zeroOther : m = 0
    · rw [zeroOther, toStrval_zero, toStrval_eq_decimal n zero] at same
      exact absurd same (decimal_digits n.toNat).1
    · rw [toStrval_eq_decimal n zero, toStrval_eq_decimal m zeroOther] at same
      exact UInt32.toNat_inj.mp (decimal_injective _ _ same)

/-- `to_strval` renders a number in decimal: as `std::to_string` does, with at
least one digit and no leading zero, to be read back, and unlike any other number. -/
structure RendersDecimal (n : UInt32) : Prop where
  text : toStrval n = decimal n.toNat
  nonempty : toStrval n ≠ []
  no_leading_zero : (toStrval n).head? = some 48 → n = 0
  value : decimalValue (toStrval n) = n.toNat
  distinct : ∀ m, toStrval n = toStrval m → n = m

/-- Every number is rendered in decimal but zero. -/
theorem to_strval_renders_iff (n : UInt32) : RendersDecimal n ↔ n ≠ 0 := by
  constructor
  · rintro renders rfl
    exact renders.nonempty toStrval_zero
  · intro nonzero
    have text := toStrval_eq_decimal n nonzero
    constructor
    · exact text
    · rw [text]
      exact (decimal_digits n.toNat).1
    · intro leads
      rw [text] at leads
      exact UInt32.toNat_inj.mp (decimal_leading_zero n.toNat leads)
    · rw [text, decimalValue_decimal]
    · exact toStrval_injective n

/-- Zero is rendered as the empty string. -/
theorem to_strval_renders_fails : toStrval 0 = [] ∧ decimal 0 = chars "0" ∧ ¬ RendersDecimal 0 := by
  refine ⟨toStrval_zero, by decide, ?_⟩
  intro renders
  exact renders.nonempty toStrval_zero

end Tyndall.Meta
