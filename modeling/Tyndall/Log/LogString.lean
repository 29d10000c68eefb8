import Tyndall.Foundation.Escapes
import Tyndall.Log.Level
import Tyndall.Meta.Strval

/-!
# Writing a message

`log_string` puts a preamble in front of the message and hands the whole text to
`printf` as its format. The category is handed to `fmt::format` as a format, too,
for its colour. Each of the two reads special characters in what it is given:
braces in the category, and percent signs in the preamble and the message.

The formatting library is not part of the repository. It is a parameter here,
with what is documented of it: a format without arguments stands for itself up to
its braces, a style puts escape sequences around what is formatted, and the
preamble's format inserts its arguments as they are.
-/

namespace Tyndall.Log

open Tyndall.CString Tyndall.Escapes
open Tyndall.Meta (chars decimal decimal_digits)

/-- The enumerators of `fmt::color` that are used. -/
inductive Color where
  | darkRed
  | red
  | darkKhaki
  | yellow
  | lightGreen
  | cyan
  | darkCyan
  | darkViolet
  deriving DecidableEq, Repr

/-- A text style: `fmt::fg(color)`, perhaps together with `fmt::emphasis::bold`. -/
structure Style where
  bold : Bool
  color : Color

/-- What goes wrong: `fmt::format` throws, or `printf` reads an argument that was
not passed. The second stands for an unknown conversion, too, which C leaves undefined
and glibc writes as it is. -/
inductive Fault where
  | formatError
  | missingArgument
  deriving DecidableEq, Repr

/-- The formatting library. -/
structure Fmt where
  /-- `fmt::format(text, args...)`, with each argument as the text it stands for.
  It yields nothing when it throws. -/
  format : List UInt8 → List (List UInt8) → Option (List UInt8)
  /-- The escape sequences that switch a style on. -/
  switchOn : Style → List UInt8
  /-- The escape sequence that switches all styles off. -/
  switchOff : List UInt8

/-- A brace, which is special to `fmt::format`. -/
def brace (c : UInt8) : Bool := c = 123 || c = 125

/-- A percent sign, which is special to `printf`. -/
def percent (c : UInt8) : Bool := c = 37

/-- The format of the preamble. -/
def preambleFormat : List UInt8 := chars "[\x7b\x7d\t\x7b\x7d:\x7b\x7d \x7b\x7d]\t"

/-- The preamble with its arguments. -/
def preambleText (level file line cat : List UInt8) : List UInt8 :=
  91 :: level ++ 9 :: file ++ 58 :: line ++ 32 :: cat ++ [93, 9]

/-- What is documented of the formatting library. -/
structure Fmt.Documented (fmt : Fmt) : Prop where
  no_arguments : ∀ text, fmt.format text [] = unescape brace text
  preamble : ∀ level file line cat, fmt.format preambleFormat [level, file, line, cat] =
    some (preambleText level file line cat)
  switch_on : ∀ style, 0 ∉ fmt.switchOn style ∧ 37 ∉ fmt.switchOn style
  switch_off : 0 ∉ fmt.switchOff ∧ 37 ∉ fmt.switchOff

/-- A text between the escape sequences of a style. -/
def Fmt.styled (fmt : Fmt) (style : Style) (text : List UInt8) : List UInt8 :=
  fmt.switchOn style ++ text ++ fmt.switchOff

/-- `fmt::format(style, text)`. -/
def Fmt.formatStyled (fmt : Fmt) (style : Style) (text : List UInt8) :
    Except Fault (List UInt8) :=
  match fmt.format text [] with
  | none => .error .formatError
  | some formatted => .ok (fmt.styled style formatted)

/-- `fmt::format` with the preamble's arguments. -/
def Fmt.formatPreamble (fmt : Fmt) (args : List (List UInt8)) : Except Fault (List UInt8) :=
  match fmt.format preambleFormat args with
  | none => .error .formatError
  | some formatted => .ok formatted

/-- `printf(format)` without arguments: what it writes. The format ends at its
terminator. -/
def printf (format : List UInt8) : Except Fault (List UInt8) :=
  match unescape percent (format.takeWhile (· ≠ 0)) with
  | none => .error .missingArgument
  | some written => .ok written

/-- The style of a level. -/
def levelStyle : Severity → Style
  | .fatal => ⟨true, .darkRed⟩
  | .error => ⟨true, .red⟩
  | .alarm => ⟨true, .darkKhaki⟩
  | .warning => ⟨true, .yellow⟩
  | .info => ⟨true, .lightGreen⟩
  | .debug => ⟨true, .cyan⟩
  | .trace => ⟨true, .darkCyan⟩

/-- `log_level_to_color_string`. -/
def logLevelToColorString (fmt : Fmt) (lvl : Severity) : Except Fault (List UInt8) :=
  fmt.formatStyled (levelStyle lvl) (logLevelToString lvl)

/-- An `int` as an argument of a format. -/
def intText (n : Int) : List UInt8 :=
  if n < 0 then 45 :: decimal n.natAbs else decimal n.natAbs

/-- `log_string`: what is written to the standard output. -/
def logString (fmt : Fmt) (s : List UInt8) (lvl : Severity) (cat file : List UInt8)
    (line : Int) : Except Fault (List UInt8) := do
  let coloredCat ← fmt.formatStyled ⟨false, .darkViolet⟩ cat
  let level ← logLevelToColorString fmt lvl
  let preamble ← fmt.formatPreamble [level, file, intText line, coloredCat]
  let result := preamble ++ s
  printf result

/-- The message behind its preamble, every text as it was given. -/
def verbatim (fmt : Fmt) (s : List UInt8) (lvl : Severity) (cat file : List UInt8)
    (line : Int) : List UInt8 :=
  preambleText (fmt.styled (levelStyle lvl) (logLevelToString lvl)) file (intText line)
    (fmt.styled ⟨false, .darkViolet⟩ cat) ++ s

/-- A level's name has no special characters. -/
theorem logLevelToString_plain (lvl : Severity) :
    ∀ c ∈ logLevelToString lvl, c ≠ 0 ∧ brace c = false ∧ percent c = false := by
  have plain : (logLevelToString lvl).all (fun c => c != 0 && (!brace c && !percent c)) = true := by
    cases lvl <;> decide
  simpa using plain

/-- A line number has no special characters. -/
theorem intText_plain (n : Int) : ∀ c ∈ intText n, c ≠ 0 ∧ percent c = false := by
  have digit : ∀ c : UInt8, 48 ≤ c ∧ c ≤ 57 → c ≠ 0 ∧ percent c = false := by
    rintro c ⟨low, _⟩
    constructor
    · rintro rfl
      exact absurd low (by decide)
    · apply decide_eq_false
      rintro rfl
      exact absurd low (by decide)
  intro c member
  rw [intText] at member
  split at member
  · rcases List.mem_cons.mp member with rfl | member
    · decide
    · exact digit c ((decimal_digits _).2 c member)
  · exact digit c ((decimal_digits _).2 c member)

/-- The level is coloured as it is. -/
theorem logLevelToColorString_eq (fmt : Fmt) (documented : fmt.Documented) (lvl : Severity) :
    logLevelToColorString fmt lvl =
      .ok (fmt.styled (levelStyle lvl) (logLevelToString lvl)) := by
  have plain := unescape_plain brace (logLevelToString lvl)
    (fun c member => (logLevelToString_plain lvl c member).2.1)
  rw [logLevelToColorString, Fmt.formatStyled, documented.no_arguments, plain]

/-- A category that is no format makes `log_string` throw. -/
theorem logString_throws (fmt : Fmt) (documented : fmt.Documented) (s : List UInt8)
    (lvl : Severity) (cat file : List UInt8) (line : Int) (unread : unescape brace cat = none) :
    logString fmt s lvl cat file line = .error .formatError := by
  have category : fmt.formatStyled ⟨false, .darkViolet⟩ cat = .error .formatError := by
    rw [Fmt.formatStyled, documented.no_arguments, unread]
  rw [logString, category]
  rfl

/-- What is written when the category is read as a format at all. -/
theorem logString_formatted (fmt : Fmt) (documented : fmt.Documented) (s : List UInt8)
    (lvl : Severity) (cat file : List UInt8) (line : Int) {formatted : List UInt8}
    (read : unescape brace cat = some formatted) :
    logString fmt s lvl cat file line = printf (verbatim fmt s lvl formatted file line) := by
  have category : fmt.formatStyled ⟨false, .darkViolet⟩ cat =
      .ok (fmt.styled ⟨false, .darkViolet⟩ formatted) := by
    rw [Fmt.formatStyled, documented.no_arguments, read]
  have preamble : ∀ level file line cat, fmt.formatPreamble [level, file, line, cat] =
      .ok (preambleText level file line cat) := by
    intro level file line cat
    rw [Fmt.formatPreamble, documented.preamble]
  rw [logString, category, logLevelToColorString_eq fmt documented]
  exact congrArg (fun text => text.bind (fun preamble => printf (preamble ++ s))) (preamble _ _ _ _)

/-- The message has a terminator, or a percent sign, only where one of the texts
that are given has one. -/
theorem verbatim_character (fmt : Fmt) (documented : fmt.Documented) (s : List UInt8)
    (lvl : Severity) (cat file : List UInt8) (line : Int) (c : UInt8)
    (kind : c = 0 ∨ c = 37) :
    c ∈ verbatim fmt s lvl cat file line ↔ c ∈ s ∨ c ∈ cat ∨ c ∈ file := by
  have on : ∀ style, c ∉ fmt.switchOn style := by
    intro style
    rcases kind with rfl | rfl
    · exact (documented.switch_on style).1
    · exact (documented.switch_on style).2
  have off : c ∉ fmt.switchOff := by
    rcases kind with rfl | rfl
    · exact documented.switch_off.1
    · exact documented.switch_off.2
  have name : c ∉ logLevelToString lvl := by
    intro member
    have plain := logLevelToString_plain lvl c member
    rcases kind with rfl | rfl
    · exact plain.1 rfl
    · exact absurd plain.2.2 (by decide)
  have number : c ∉ intText line := by
    intro member
    have plain := intText_plain line c member
    rcases kind with rfl | rfl
    · exact plain.1 rfl
    · exact absurd plain.2 (by decide)
  have brackets : c ∉ [91, 9, 58, 32, 93] := by
    rcases kind with rfl | rfl <;> decide
  simp only [List.mem_cons, List.not_mem_nil, or_false, not_or] at brackets
  obtain ⟨opening, tab, colon, space, closing⟩ := brackets
  simp only [verbatim, preambleText, Fmt.styled, List.mem_append, List.mem_cons, List.not_mem_nil,
    on, off, name, number, opening, tab, colon, space, closing, or_false, false_or]
  tauto

/-- Without a terminator in it the whole text is read by `printf`. -/
theorem printf_whole (text : List UInt8) (no_terminator : 0 ∉ text) :
    printf text =
      match unescape percent text with
      | none => .error .missingArgument
      | some written => .ok written := by
  rw [printf, takeWhile_absent text 0 no_terminator]

/-- A message is as long as its texts. -/
theorem verbatim_length (fmt : Fmt) (s : List UInt8) (lvl : Severity) (cat other file : List UInt8)
    (line : Int) : (verbatim fmt s lvl cat file line).length + other.length =
      (verbatim fmt s lvl other file line).length + cat.length := by
  simp only [verbatim, preambleText, Fmt.styled, List.length_append, List.length_cons]
  omega

/-- Texts without a terminator are written as far as `printf` reads them. -/
theorem logString_read (fmt : Fmt) (documented : fmt.Documented) (s : List UInt8)
    (lvl : Severity) (cat file : List UInt8) (line : Int)
    (no_terminator : 0 ∉ s ∧ 0 ∉ cat ∧ 0 ∉ file) {formatted : List UInt8}
    (read : unescape brace cat = some formatted) :
    logString fmt s lvl cat file line =
      match unescape percent (verbatim fmt s lvl formatted file line) with
      | none => .error .missingArgument
      | some written => .ok written := by
  obtain ⟨no_s, no_cat, no_file⟩ := no_terminator
  obtain ⟨within, _, _⟩ := unescape_shape brace read
  have whole : 0 ∉ verbatim fmt s lvl formatted file line := by
    rw [verbatim_character fmt documented s lvl formatted file line 0 (Or.inl rfl)]
    rintro (member | member | member)
    · exact no_s member
    · exact no_cat (within 0 member)
    · exact no_file member
  rw [logString_formatted fmt documented s lvl cat file line read, printf_whole _ whole]

/-- A message that is written at full length has no special characters: reading one
makes the text shorter. -/
theorem written_plain (fmt : Fmt) (documented : fmt.Documented) (s : List UInt8)
    (lvl : Severity) (cat file : List UInt8) (line : Int) {formatted : List UInt8}
    (read : unescape brace cat = some formatted)
    (output : unescape percent (verbatim fmt s lvl formatted file line) =
      some (verbatim fmt s lvl cat file line)) :
    (∀ c ∈ cat, brace c = false) ∧ 37 ∉ s ∧ 37 ∉ cat ∧ 37 ∉ file := by
  obtain ⟨_, shorter, no_brace⟩ := unescape_shape brace read
  obtain ⟨_, no_longer, no_percent⟩ := unescape_shape percent output
  have lengths := verbatim_length fmt s lvl cat formatted file line
  have plain := no_brace (by omega)
  have same : cat = formatted :=
    Option.some.inj ((unescape_plain brace cat plain).symm.trans read)
  have absent : 37 ∉ verbatim fmt s lvl cat file line := by
    intro member
    rw [← same] at no_percent
    exact absurd (no_percent rfl 37 member) (by decide)
  rw [verbatim_character fmt documented s lvl cat file line 37 (Or.inr rfl)] at absent
  simp only [not_or] at absent
  exact ⟨plain, absent⟩

/-- A message is written as it was given exactly when there is no brace in the
category and no percent sign in the message, the category or the file's name.
Reading a special character makes the text shorter, so a text that is read
differently cannot be written at full length. -/
theorem prints_verbatim_iff (fmt : Fmt) (documented : fmt.Documented) (s : List UInt8)
    (lvl : Severity) (cat file : List UInt8) (line : Int)
    (no_terminator : 0 ∉ s ∧ 0 ∉ cat ∧ 0 ∉ file) :
    logString fmt s lvl cat file line = .ok (verbatim fmt s lvl cat file line) ↔
      (∀ c ∈ cat, brace c = false) ∧ 37 ∉ s ∧ 37 ∉ cat ∧ 37 ∉ file := by
  constructor
  · intro written
    cases read : unescape brace cat with
    | none =>
      rw [logString_throws fmt documented s lvl cat file line read] at written
      contradiction
    | some formatted =>
      rw [logString_read fmt documented s lvl cat file line no_terminator read] at written
      cases output : unescape percent (verbatim fmt s lvl formatted file line) with
      | none =>
        rw [output] at written
        contradiction
      | some result =>
        rw [output] at written
        obtain rfl := Except.ok.inj written
        exact written_plain fmt documented s lvl cat file line read output
  · rintro ⟨no_brace, percent_s, percent_cat, percent_file⟩
    have no_percent : 37 ∉ verbatim fmt s lvl cat file line := by
      rw [verbatim_character fmt documented s lvl cat file line 37 (Or.inr rfl)]
      simp [percent_s, percent_cat, percent_file]
    have output := unescape_plain percent (verbatim fmt s lvl cat file line)
      (fun c member => decide_eq_false (ne_of_mem_of_not_mem member no_percent))
    rw [logString_read fmt documented s lvl cat file line no_terminator
      (unescape_plain brace cat no_brace), output]

/-- Format a text with arguments for its fields, each of them the empty pair of braces. -/
def fillFields : List UInt8 → List (List UInt8) → Option (List UInt8)
  | [], _ => some []
  | [c], _ => if brace c then none else some [c]
  | c :: d :: rest, args =>
      if c = 123 ∧ d = 125 then
        match args with
        | [] => none
        | arg :: args => (fillFields rest args).map (arg ++ ·)
      else if brace c then
        if d = c then (fillFields rest args).map (c :: ·) else none
      else (fillFields (d :: rest) args).map (c :: ·)

/-- The escape sequence of a colour. -/
def foreground : Color → List UInt8
  | .darkRed => chars "\x1b[38;2;139;000;000m"
  | .red => chars "\x1b[38;2;255;000;000m"
  | .darkKhaki => chars "\x1b[38;2;189;183;107m"
  | .yellow => chars "\x1b[38;2;255;255;000m"
  | .lightGreen => chars "\x1b[38;2;144;238;144m"
  | .cyan => chars "\x1b[38;2;000;255;255m"
  | .darkCyan => chars "\x1b[38;2;000;139;139m"
  | .darkViolet => chars "\x1b[38;2;148;000;211m"

/-- A formatting library that fills fields and writes the sequences of a terminal. -/
def terminalFmt : Fmt where
  format := fillFields
  switchOn := fun style => (if style.bold then chars "\x1b[1m" else []) ++ foreground style.color
  switchOff := chars "\x1b[0m"

/-- Without arguments there is nothing to fill in. -/
theorem fillFields_no_arguments (text : List UInt8) :
    fillFields text [] = unescape brace text := by
  induction text using unescape.induct brace with
  | case1 => rfl
  | case2 c is_special => rfl
  | case3 c is_plain => rfl
  | case4 d rest is_special inductionHypothesis =>
    have no_field : ¬ (d = 123 ∧ d = 125) := by
      rintro ⟨rfl, impossible⟩
      exact absurd impossible (by decide)
    rw [fillFields, unescape, if_neg no_field, if_pos is_special, if_pos is_special,
      inductionHypothesis]
  | case5 c d rest is_special different =>
    rw [fillFields, unescape, if_pos is_special, if_pos is_special, if_neg different,
      if_neg different, ite_self]
  | case6 c d rest is_plain inductionHypothesis =>
    have no_field : ¬ (c = 123 ∧ d = 125) := by
      rintro ⟨rfl, _⟩
      exact is_plain (by decide)
    rw [fillFields, unescape, if_neg no_field, if_neg is_plain, if_neg is_plain,
      inductionHypothesis]

/-- It does what is documented. -/
theorem terminalFmt_documented : terminalFmt.Documented := by
  constructor
  · exact fillFields_no_arguments
  · intro level file line cat
    have format : preambleFormat =
        [91, 123, 125, 9, 123, 125, 58, 123, 125, 32, 123, 125, 93, 9] := by
      decide
    simp [terminalFmt, format, fillFields, brace, preambleText]
  · rintro ⟨bold, color⟩
    cases bold <;> cases color <;> decide
  · decide

/-- A plain message of a plain category is written as it was given. -/
theorem prints_verbatim_ready :
    logString terminalFmt (chars "ready\n") .info (chars "net") (chars "main.cpp") 7 =
      .ok (verbatim terminalFmt (chars "ready\n") .info (chars "net") (chars "main.cpp") 7) := by
  apply (prints_verbatim_iff terminalFmt terminalFmt_documented (chars "ready\n") .info
    (chars "net") (chars "main.cpp") 7 (by decide)).mpr
  have no_brace : (chars "net").all (fun c => !brace c) = true := by
    decide
  have no_percent : 37 ∉ chars "ready\n" ∧ 37 ∉ chars "net" ∧ 37 ∉ chars "main.cpp" := by
    decide
  constructor
  · simpa using no_brace
  · exact no_percent

/-- A percent sign in the message asks `printf` for an argument, and the name of a
function in an unnamed namespace is no format. -/
theorem prints_verbatim_fails :
    logString terminalFmt (chars "50%s\n") .info (chars "net") (chars "main.cpp") 7 =
        .error .missingArgument ∧
      logString terminalFmt (chars "ready\n") .info (chars "void \x7banonymous\x7d::f()")
        (chars "main.cpp") 7 = .error .formatError := by
  constructor <;> rfl

end Tyndall.Log
