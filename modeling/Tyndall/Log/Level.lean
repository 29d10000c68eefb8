import Tyndall.Foundation.CString
import Tyndall.Meta.Hash

/-!
# Log levels and their names

A level is an `int`: the seven severities are its values from zero, and the
greatest value stands for no level. A level is read from a string whose end is
not known to be the end of the value, so the names are compared as prefixes and
the number is read up to its last digit; only the single digit is compared
together with the length of the string.
-/

namespace Tyndall.Log

open Tyndall.CString
open Tyndall.Meta (chars)

/-- `log_level_t`: an enumeration of underlying type `int`, which holds any `int`. -/
abbrev LogLevel := Int32

/-- The enumerators of `log_level_t` before `n_levels`. -/
inductive Severity where
  | fatal
  | error
  | alarm
  | warning
  | info
  | debug
  | trace
  deriving DecidableEq, Repr

namespace Severity

/-- The value of an enumerator. -/
def index : Severity → Nat
  | fatal => 0
  | error => 1
  | alarm => 2
  | warning => 3
  | info => 4
  | debug => 5
  | trace => 6

/-- An enumerator as a level. -/
def level (severity : Severity) : LogLevel := Int32.ofNat severity.index

/-- The enumerators that the loop from zero to `n_levels` passes, in its order. -/
def all : List Severity := [fatal, error, alarm, warning, info, debug, trace]

end Severity

/-- `log_level_t::invalid`, which is `INT_MAX`. -/
def invalid : LogLevel := 2147483647

/-- `log_level_default`. -/
def logLevelDefault : LogLevel := Severity.info.level

/-- `log_level_to_string`. -/
def logLevelToString : Severity → List UInt8
  | .fatal => chars "fatal"
  | .error => chars "error"
  | .alarm => chars "alarm"
  | .warning => chars "warning"
  | .info => chars "info"
  | .debug => chars "debug"
  | .trace => chars "trace"

/-- The condition under which an iteration of the loop takes its own level: the
name stands in front of the string, or the string is the level's single digit. -/
def namesLevel (string : List UInt8) (i : Severity) : Bool :=
  strncmp string (logLevelToString i) (logLevelToString i).length == 0 ||
    (string.head? == some (48 + UInt8.ofNat i.index) && string.length == 1)

/-- The body of the loop in `log_level_from_string`. -/
def levelStep (string : List UInt8) (ret : LogLevel) (i : Severity) : LogLevel :=
  if namesLevel string i then i.level
  else
    let integerEnv := Int32.ofInt (strtol string)
    if integerEnv ≠ 0 then integerEnv else ret

/-- `log_level_from_string`. -/
def logLevelFromString (string : List UInt8) : LogLevel :=
  Severity.all.foldl (levelStep string) invalid

/-- No level's name has a comma in it. -/
theorem logLevelToString_no_comma (i : Severity) : 44 ∉ logLevelToString i := by
  cases i <;> decide

/-- A text without a comma stands in front of a list of entries exactly when it
stands in front of the first one. -/
theorem prefix_before_comma (text v r : List UInt8) (no_comma : 44 ∉ text) :
    text <+: v ++ 44 :: r ↔ text <+: v := by
  constructor
  · intro in_front
    by_cases short : text.length ≤ v.length
    · exact List.prefix_of_prefix_length_le in_front (List.prefix_append _ _) short
    · exfalso
      apply no_comma
      obtain ⟨rest, split⟩ := List.prefix_of_prefix_length_le
        (show v ++ [44] <+: v ++ 44 :: r from ⟨r, by simp⟩) in_front (by simp; omega)
      rw [← split]
      simp
  · intro in_front
    exact in_front.trans (List.prefix_append _ _)

/-- The number in front of a comma is read without what stands behind it. -/
theorem strtol_comma (v r : List UInt8) : strtol (v ++ 44 :: r) = strtol v := by
  apply strtol_stop <;> decide

/-- Only a single digit is the digit of a level. -/
theorem single_digit (string : List UInt8) (i : Severity) :
    (string.head? == some (48 + UInt8.ofNat i.index) && string.length == 1) = true ↔
      string = [48 + UInt8.ofNat i.index] := by
  cases string with
  | nil => simp
  | cons c rest => simp [List.length_eq_zero_iff]

/-- A value is tested alike in front of a comma, except for the single digit. -/
theorem namesLevel_comma (v r : List UInt8) (i : Severity)
    (no_digit : v ≠ [48 + UInt8.ofNat i.index]) :
    namesLevel (v ++ 44 :: r) i = namesLevel v i := by
  have longer : v ++ 44 :: r ≠ [48 + UInt8.ofNat i.index] := by
    intro single
    have length := congrArg List.length single
    have empty : v = [] := by
      apply List.length_eq_zero_iff.mp
      simp only [List.length_append, List.length_cons, List.length_nil] at length
      omega
    subst empty
    have first : (44 : UInt8) = 48 + UInt8.ofNat i.index := List.head_eq_of_cons_eq single
    revert first
    cases i <;> decide
  rw [Bool.eq_iff_iff, namesLevel, namesLevel, Bool.or_eq_true, Bool.or_eq_true, single_digit,
    single_digit, beq_iff_eq, beq_iff_eq, strncmp_whole, strncmp_whole,
    prefix_before_comma _ _ _ (logLevelToString_no_comma i)]
  simp only [longer, no_digit]

/-- In front of a comma the digit of a level is read as a number, to the same level. -/
theorem levelStep_digit (r : List UInt8) (ret : LogLevel) (i : Severity) (positive : i ≠ .fatal) :
    levelStep ([48 + UInt8.ofNat i.index] ++ 44 :: r) ret i =
      levelStep [48 + UInt8.ofNat i.index] ret i := by
  have number : Int32.ofInt (strtol [48 + UInt8.ofNat i.index]) = i.level := by
    cases i <;> decide
  have nonzero : i.level ≠ 0 := by
    cases i <;> first | contradiction | decide
  rw [levelStep, levelStep, strtol_comma, number, if_pos nonzero, ite_self, ite_self]

/-- An iteration treats a value in front of a comma as it treats the value alone,
unless the value is the digit of the level zero. -/
theorem levelStep_comma (v r : List UInt8) (ret : LogLevel) (i : Severity) (not_zero : v ≠ [48]) :
    levelStep (v ++ 44 :: r) ret i = levelStep v ret i := by
  by_cases digit : v = [48 + UInt8.ofNat i.index]
  · have positive : i ≠ .fatal := by
      rintro rfl
      exact not_zero digit
    rw [digit]
    exact levelStep_digit r ret i positive
  · rw [levelStep, levelStep, namesLevel_comma v r i digit, strtol_comma]

/-- A value other than the single zero is read alike in front of a comma. -/
theorem logLevelFromString_comma (v r : List UInt8) (not_zero : v ≠ [48]) :
    logLevelFromString (v ++ 44 :: r) = logLevelFromString v := by
  have steps : levelStep (v ++ 44 :: r) = levelStep v := by
    funext ret i
    exact levelStep_comma v r ret i not_zero
  rw [logLevelFromString, logLevelFromString, steps]

/-- A string that no name starts and whose number is zero gives no level, unless
it is a single digit. -/
theorem logLevelFromString_nothing (string : List UInt8)
    (no_name : ∀ i, namesLevel string i = false) (no_number : strtol string = 0) :
    logLevelFromString string = invalid := by
  have steps : levelStep string = fun ret _ => ret := by
    funext ret i
    simp [levelStep, no_name i, no_number]
  rw [logLevelFromString, steps]
  rfl

/-- Nothing is no level. -/
theorem logLevelFromString_nil : logLevelFromString [] = invalid := by
  apply logLevelFromString_nothing
  · intro i
    cases i <;> decide
  · decide

/-- An empty value in front of a comma is no level. -/
theorem logLevelFromString_at_comma (r : List UInt8) :
    logLevelFromString (44 :: r) = invalid :=
  (logLevelFromString_comma [] r (by decide)).trans logLevelFromString_nil

/-- The single zero in front of a comma is no level: the string is longer than
one character, and the number that is read is the one that stands for none. -/
theorem logLevelFromString_zero_comma (r : List UInt8) :
    logLevelFromString (48 :: 44 :: r) = invalid := by
  apply logLevelFromString_nothing
  · intro i
    rw [namesLevel, Bool.or_eq_false_iff]
    constructor
    · rw [beq_eq_false_iff_ne, Ne, strncmp_whole]
      have separated := prefix_before_comma _ [48] r (logLevelToString_no_comma i)
      intro in_front
      have alone := separated.mp in_front
      revert alone
      cases i <;> decide
    · simp
  · exact (strtol_comma [48] r).trans (by decide)

/-- Only the single zero is read differently in front of a comma. -/
theorem logLevelFromString_comma_iff (v r : List UInt8) :
    logLevelFromString (v ++ 44 :: r) = logLevelFromString v ↔ v ≠ [48] := by
  constructor
  · rintro same rfl
    rw [List.singleton_append, logLevelFromString_zero_comma] at same
    revert same
    decide
  · exact logLevelFromString_comma v r

/-- A level's value is read alike whatever entries follow it, exactly when it is
not the single zero. -/
theorem value_alone_iff (v r : List UInt8) :
    logLevelFromString (v ++ [44] ++ r) = logLevelFromString v ↔ v ≠ [48] := by
  rw [List.append_assoc, List.singleton_append]
  exact logLevelFromString_comma_iff v r

/-- The fatal level as the global one, before an entry for a category: it is no
level there, and it is one alone. -/
theorem value_alone_fails :
    44 ∉ chars "0" ∧
      logLevelFromString (chars "0" ++ [44] ++ chars "net:debug") ≠
        logLevelFromString (chars "0") := by
  decide

end Tyndall.Log
