import Mathlib.Data.List.TakeWhile

/-!
# Zero-terminated strings and the functions that read them

A zero-terminated string is the list of its characters before the terminator, and
a pointer into it is the suffix that starts there: advancing a pointer drops
characters. A read yields the character at an index, the terminator at the index
of the length, and is out of range beyond it. The functions below are the string
functions of the C library that only read, on such suffixes.
-/

namespace Tyndall.CString

/-- `s[i]`: `none` beyond the terminator, and `some none` for the terminator. -/
def charAt (s : List UInt8) (i : Nat) : Option (Option UInt8) :=
  if i ≤ s.length then some s[i]? else none

/-- `s + k` as a pointer into the string: `none` beyond the terminator. -/
def advance (s : List UInt8) (k : Nat) : Option (List UInt8) :=
  if k ≤ s.length then some (s.drop k) else none

/-- `strchr`: the index of the first occurrence of a character. -/
def strchr (s : List UInt8) (c : UInt8) : Option Nat :=
  s.findIdx? (fun other => other == c)

/-- `strncmp`: the sign of the comparison of at most `n` characters. -/
def strncmp : List UInt8 → List UInt8 → Nat → Int
  | _, _, 0 => 0
  | [], [], _ + 1 => 0
  | [], _ :: _, _ + 1 => -1
  | _ :: _, [], _ + 1 => 1
  | c :: s, d :: t, n + 1 => if c = d then strncmp s t n else if c < d then -1 else 1

/-- `isspace` in the C locale. -/
def isspace (c : UInt8) : Bool := c == 32 || (9 ≤ c && c ≤ 13)

/-- `isdigit`. -/
def isdigit (c : UInt8) : Bool := 48 ≤ c && c ≤ 57

/-- The number that decimal digits stand for. -/
def decimalValue (digits : List UInt8) : Nat :=
  digits.foldl (fun value c => 10 * value + (c.toNat - 48)) 0

/-- What `strtol` reads behind the leading spaces: an optional sign and the
digits up to the first other character. -/
def signedValue (text : List UInt8) : Int :=
  match text with
  | 45 :: rest => -(decimalValue (rest.takeWhile isdigit) : Int)
  | 43 :: rest => decimalValue (rest.takeWhile isdigit)
  | _ => decimalValue (text.takeWhile isdigit)

/-- `strtol(s, NULL, 10)`, saturating at the bounds of a 64-bit `long`. -/
def strtol (s : List UInt8) : Int :=
  max (-9223372036854775808) (min 9223372036854775807 (signedValue (s.dropWhile isspace)))

/-- The character behind a part of the string is read at the part's length. -/
@[simp] theorem charAt_append (before after : List UInt8) :
    charAt (before ++ after) before.length = some after.head? := by
  cases after <;> simp [charAt]

/-- The character behind the next one. -/
theorem charAt_behind (before after : List UInt8) (c : UInt8) :
    charAt (before ++ c :: after) (before.length + 1) = some after.head? := by
  have split := charAt_append (before ++ [c]) after
  simpa using split

/-- A pointer moves over what stands in front of it. -/
@[simp] theorem advance_append (before after : List UInt8) :
    advance (before ++ after) before.length = some after := by
  simp [advance]

/-- A pointer moves behind a character. -/
theorem advance_behind (before after : List UInt8) (c : UInt8) :
    advance (before ++ c :: after) (before.length + 1) = some after := by
  have split := advance_append (before ++ [c]) after
  simpa using split

/-- A pointer moves over the first character. -/
@[simp] theorem advance_one (c : UInt8) (rest : List UInt8) :
    advance (c :: rest) 1 = some rest := advance_behind [] rest c

/-- A pointer inside the string, or at its terminator, moves. -/
theorem advance_eq_some (s t : List UInt8) (i : Nat) :
    advance s i = some t ↔ i ≤ s.length ∧ s.drop i = t := by
  simp [advance]

/-- Moving a pointer twice is moving it by both distances. -/
theorem advance_advance {s t : List UInt8} {i : Nat} (moved : advance s i = some t) (k : Nat) :
    advance s (i + k) = advance t k := by
  obtain ⟨inside, rfl⟩ := (advance_eq_some s t i).mp moved
  rw [advance, advance, List.length_drop, List.drop_drop]
  by_cases further : i + k ≤ s.length
  · rw [if_pos further, if_pos (by omega)]
  · rw [if_neg further, if_neg (by omega)]

/-- A character that does not occur is not found. -/
theorem strchr_eq_none (s : List UInt8) (c : UInt8) : strchr s c = none ↔ c ∉ s := by
  rw [strchr, List.findIdx?_eq_none_iff]
  constructor
  · intro absent member
    simpa using absent c member
  · intro absent other member
    have different : other ≠ c := ne_of_mem_of_not_mem member absent
    simpa using different

/-- The first occurrence is found behind the characters before it. -/
theorem strchr_append (before after : List UInt8) (c : UInt8) (absent : c ∉ before) :
    strchr (before ++ c :: after) c = some before.length := by
  have nothing : before.findIdx? (fun other => other == c) = none :=
    (strchr_eq_none before c).mpr absent
  rw [strchr, List.findIdx?_append, nothing]
  simp [List.findIdx?_cons]

/-- What is found splits the string at its first occurrence. -/
theorem strchr_split {s : List UInt8} {c : UInt8} {k : Nat} (found : strchr s c = some k) :
    ∃ before after, s = before ++ c :: after ∧ before.length = k ∧ c ∉ before := by
  have member : c ∈ s := by
    apply Classical.byContradiction
    intro absent
    rw [(strchr_eq_none s c).mpr absent] at found
    contradiction
  obtain ⟨before, after, split, absent⟩ := List.eq_append_cons_of_mem member
  have position := strchr_append before after c absent
  rw [← split, found] at position
  exact ⟨before, after, split, (Option.some.inj position).symm, absent⟩

/-- A character that stands neither in front nor next is found further behind. -/
theorem strchr_later (before after : List UInt8) (c d : UInt8) (absent : d ∉ before)
    (other : c ≠ d) {k : Nat} (found : strchr (before ++ c :: after) d = some k) :
    before.length < k := by
  obtain ⟨front, rest, split, rfl, _⟩ := strchr_split found
  rcases List.append_eq_append_iff.mp split with ⟨middle, rfl, later⟩ | ⟨middle, rfl, later⟩
  · cases middle with
    | nil => exact absurd (List.cons.inj later).1 other
    | cons e middle => simp
  · cases middle with
    | nil => exact absurd (List.cons.inj later).1.symm other
    | cons e middle =>
      obtain rfl := (List.cons.inj later).1
      exact absurd (by simp) absent

/-- A step of the search. -/
theorem strchr_cons (s : List UInt8) (c d : UInt8) :
    strchr (d :: s) c = if d = c then some 0 else (strchr s c).map (· + 1) := by
  by_cases same : d = c <;> simp [strchr, List.findIdx?_cons, same]

/-- Two strings compare equal when their first `n` characters are the same. -/
theorem strncmp_eq_zero (s t : List UInt8) (n : Nat) :
    strncmp s t n = 0 ↔ s.take n = t.take n := by
  induction s, t, n using strncmp.induct with
  | case1 s t => simp [strncmp]
  | case2 n => simp [strncmp]
  | case3 c t n => simp [strncmp]
  | case4 c s n => simp [strncmp]
  | case5 s t n d inductionHypothesis => simpa [strncmp] using inductionHypothesis
  | case6 s t n c d different below => simp [strncmp, different, below]
  | case7 s t n c d different above => simp [strncmp, different, above]

/-- Comparing as many characters as a text has asks whether it stands in front. -/
theorem strncmp_front (s text rest : List UInt8) :
    strncmp s (text ++ rest) text.length = 0 ↔ text <+: s := by
  rw [strncmp_eq_zero, List.take_left, List.prefix_iff_eq_take, eq_comm]

/-- Comparing with the whole of a text asks the same. -/
theorem strncmp_whole (s text : List UInt8) : strncmp s text text.length = 0 ↔ text <+: s := by
  have front := strncmp_front s text []
  rwa [List.append_nil] at front

/-- Everything stands before a character that does not occur. -/
theorem takeWhile_absent (s : List UInt8) (c : UInt8) (absent : c ∉ s) :
    s.takeWhile (· ≠ c) = s := by
  rw [List.takeWhile_eq_self_iff]
  intro d member
  simpa using ne_of_mem_of_not_mem member absent

/-- A character that fails a test stops what is taken before it. -/
theorem takeWhile_stop (test : UInt8 → Bool) (v r : List UInt8) (c : UInt8)
    (stops : test c = false) : (v ++ c :: r).takeWhile test = v.takeWhile test := by
  induction v with
  | nil => simp [stops]
  | cons d v inductionHypothesis =>
    cases taken : test d <;> simp [taken, inductionHypothesis]

/-- A digit is no space. -/
theorem isspace_digit {c : UInt8} (digit : isdigit c = true) : isspace c = false := by
  have low : 48 ≤ c := by
    rw [isdigit, Bool.and_eq_true, decide_eq_true_eq] at digit
    exact digit.1
  have no_blank : c ≠ 32 := by
    rintro rfl
    exact absurd low (by decide)
  have no_control : ¬ c ≤ 13 := fun below => absurd (UInt8.le_trans low below) (by decide)
  simp [isspace, no_blank, no_control]

/-- Behind the spaces, a character that is no digit and no sign ends the number. -/
theorem signedValue_stop (v r : List UInt8) (c : UInt8) (no_digit : isdigit c = false)
    (no_minus : c ≠ 45) (no_plus : c ≠ 43) : signedValue (v ++ c :: r) = signedValue v := by
  cases v with
  | nil => simp [signedValue, no_minus, no_plus, no_digit]
  | cons d v =>
    have stop := takeWhile_stop isdigit v r c no_digit
    have stop_first := takeWhile_stop isdigit (d :: v) r c no_digit
    by_cases minus : d = 45
    · simp [signedValue, minus, stop]
    · by_cases plus : d = 43
      · simp [signedValue, plus, stop]
      · simp only [List.cons_append] at stop_first
        simp [signedValue, minus, plus, stop_first]

/-- A character that is no space, no digit and no sign ends the number that
`strtol` reads. -/
theorem strtol_stop (v r : List UInt8) (c : UInt8) (no_space : isspace c = false)
    (no_digit : isdigit c = false) (no_minus : c ≠ 45) (no_plus : c ≠ 43) :
    strtol (v ++ c :: r) = strtol v := by
  have behind : signedValue ((v ++ c :: r).dropWhile isspace) =
      signedValue (v.dropWhile isspace) := by
    rw [List.dropWhile_append]
    by_cases spaces : v.dropWhile isspace = []
    · simp only [spaces, List.isEmpty_nil, if_true, List.dropWhile_cons, no_space]
      exact signedValue_stop [] r c no_digit no_minus no_plus
    · rw [if_neg (by simpa using spaces)]
      exact signedValue_stop _ r c no_digit no_minus no_plus
  rw [strtol, strtol, behind]

end Tyndall.CString
