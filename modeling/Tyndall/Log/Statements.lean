import Tyndall.Foundation.Runs
import Tyndall.Log.LogLevel

/-!
# Log statements

Every log statement is a place in the program with a variable of its own, which
keeps whether the statement logs. It is set when the statement is executed first,
from the level of the category of that execution, and it is not set again: the
level is read only once. A statement whose category changes from one execution to
the next therefore keeps the decision for the first category.

A run executes statements in any order and any number of times. A level that
cannot be read without leaving the strings ends the run.
-/

namespace Tyndall.Log

open Tyndall.Runs
open Tyndall.Meta (chars)

/-- The families of macros: `log_X(...)` and `log_cat_X(category, ...)`. -/
inductive Family where
  | log
  | logCat
  deriving DecidableEq, Repr

/-- The level that each macro passes on to `log_cat_log`. -/
def macroLevel : Family → Severity → Severity
  | .log, .fatal => .fatal
  | .log, .error => .error
  | .log, .alarm => .fatal
  | .log, .warning => .warning
  | .log, .info => .info
  | .log, .debug => .debug
  | .log, .trace => .trace
  | .logCat, .fatal => .fatal
  | .logCat, .error => .error
  | .logCat, .alarm => .alarm
  | .logCat, .warning => .warning
  | .logCat, .info => .info
  | .logCat, .debug => .debug
  | .logCat, .trace => .trace

/-- A log statement: its macro, and the function around it. -/
structure Statement where
  family : Family
  severity : Severity
  /-- `__PRETTY_FUNCTION__`. -/
  prettyFunction : List UInt8

/-- The level `lvl` of a statement. -/
def Statement.lvl (statement : Statement) : LogLevel :=
  (macroLevel statement.family statement.severity).level

/-- The argument `category` of an execution: `log_log` passes the empty string, and
`log_cat_X` the value of its expression, which may be a null pointer. -/
def Statement.category (statement : Statement) (given : Option (List UInt8)) :
    Option (List UInt8) :=
  match statement.family with
  | .log => some []
  | .logCat => given

/-- The string `cat` of an execution: the category, or the function without one. -/
def Statement.cat (statement : Statement) (given : Option (List UInt8)) : List UInt8 :=
  match statement.category given with
  | some (c :: rest) => c :: rest
  | _ => statement.prettyFunction

/-- What is seen of an execution: the statement, its category, and whether the
message is handed to `log_string`. -/
structure Execution (Site : Type) where
  site : Site
  cat : List UInt8
  emitted : Bool
  deriving DecidableEq

/-- The variable `should_log` of each statement, once it is set. -/
abbrev ShouldLog (Site : Type) := Site → Option Bool

/-- Before the run no statement has been executed. -/
def fresh (Site : Type) : ShouldLog Site := fun _ => none

section Runs

variable {Site : Type} [DecidableEq Site] (env : Option (List UInt8))
  (statements : Site → Statement)

/-- Execute a statement with a value of its category expression: `log_cat_log`. -/
def executeStatement (shouldLog : ShouldLog Site) (action : Site × Option (List UInt8)) :
    Option (Execution Site × ShouldLog Site) := do
  let statement := statements action.1
  let cat := statement.cat action.2
  let decision ← match shouldLog action.1 with
    | some decision => some decision
    | none => (logLevel env cat).map (fun level => decide (statement.lvl ≤ level))
  some (⟨action.1, cat, decision⟩, Function.update shouldLog action.1 (some decision))

/-- The category of the first execution of a statement. -/
def firstCategory (site : Site) (events : List (Execution Site)) : Option (List UInt8) :=
  (events.find? (fun event => event.site = site)).map Execution.cat

/-- The decision of a statement is the one for the category of its first execution. -/
def DecidedFirst (events : List (Execution Site)) (site : Site) (decision : Bool) : Prop :=
  ∃ cat level, firstCategory site events = some cat ∧ logLevel env cat = some level ∧
    (decision = true ↔ (statements site).lvl ≤ level)

/-- The variables keep what was decided first, and every execution has followed them. -/
structure Decisions (events : List (Execution Site)) (shouldLog : ShouldLog Site) : Prop where
  unset : ∀ site, shouldLog site = none → firstCategory site events = none
  set : ∀ site decision, shouldLog site = some decision →
    DecidedFirst env statements events site decision
  followed : ∀ event ∈ events, shouldLog event.site = some event.emitted

/-- A later execution does not change the category of the first one. -/
theorem firstCategory_kept {site : Site} {events : List (Execution Site)} {cat : List UInt8}
    (first : firstCategory site events = some cat) (event : Execution Site) :
    firstCategory site (events ++ [event]) = some cat := by
  obtain ⟨found, search, rfl⟩ := Option.map_eq_some_iff.mp first
  rw [firstCategory, List.find?_append, search]
  rfl

/-- The first execution of a statement is found when it was not executed before. -/
theorem firstCategory_new {events : List (Execution Site)} (event : Execution Site)
    (new : firstCategory event.site events = none) :
    firstCategory event.site (events ++ [event]) = some event.cat := by
  have nothing := Option.map_eq_none_iff.mp new
  rw [firstCategory, List.find?_append, nothing]
  simp

/-- An execution of another statement is not found. -/
theorem firstCategory_other {site : Site} (events : List (Execution Site)) (event : Execution Site)
    (other : event.site ≠ site) :
    firstCategory site (events ++ [event]) = firstCategory site events := by
  rw [firstCategory, firstCategory, List.find?_append]
  simp [other]

/-- A later execution does not change what was decided first. -/
theorem DecidedFirst.kept {events : List (Execution Site)} {site : Site} {decision : Bool}
    (decided : DecidedFirst env statements events site decision) (event : Execution Site) :
    DecidedFirst env statements (events ++ [event]) site decision := by
  obtain ⟨cat, level, first, read, follows⟩ := decided
  exact ⟨cat, level, firstCategory_kept first event, read, follows⟩

/-- What an execution does: it follows a decision that is there, and otherwise it
decides with its own category. -/
theorem executeStatement_cases {shouldLog next : ShouldLog Site}
    {action : Site × Option (List UInt8)} {event : Execution Site}
    (executed : executeStatement env statements shouldLog action = some (event, next)) :
    next = Function.update shouldLog event.site (some event.emitted) ∧
      (shouldLog event.site = some event.emitted ∨
        (shouldLog event.site = none ∧ ∃ level, logLevel env event.cat = some level ∧
          (event.emitted = true ↔ (statements event.site).lvl ≤ level))) := by
  cases decided : shouldLog action.1 with
  | some decision =>
    simp only [executeStatement, decided, Option.bind_eq_bind, Option.bind_some,
      Option.some.injEq, Prod.mk.injEq] at executed
    obtain ⟨rfl, rfl⟩ := executed
    exact ⟨rfl, Or.inl decided⟩
  | none =>
    simp only [executeStatement, decided, Option.bind_eq_bind, Option.bind_eq_some_iff,
      Option.map_eq_some_iff, Option.some.injEq, Prod.mk.injEq] at executed
    obtain ⟨decision, ⟨level, read, rfl⟩, rfl, rfl⟩ := executed
    exact ⟨rfl, Or.inr ⟨decided, level, read, decide_eq_true_iff⟩⟩

/-- One execution keeps the decisions. -/
theorem Decisions.step {events : List (Execution Site)} {shouldLog next : ShouldLog Site}
    {event : Execution Site} (decisions : Decisions env statements events shouldLog)
    (taken : Steps (executeStatement env statements) shouldLog event next) :
    Decisions env statements (events ++ [event]) next := by
  obtain ⟨action, executed⟩ := taken
  obtain ⟨rfl, known⟩ := executeStatement_cases env statements executed
  constructor
  · intro site not_set
    by_cases same : site = event.site
    · rw [same, Function.update_self] at not_set
      contradiction
    · rw [Function.update_of_ne same] at not_set
      rw [firstCategory_other events event (Ne.symm same)]
      exact decisions.unset site not_set
  · intro site decision is_set
    by_cases same : site = event.site
    · subst same
      rw [Function.update_self] at is_set
      obtain rfl := Option.some.inj is_set
      rcases known with before | ⟨not_set, level, read, follows⟩
      · exact (decisions.set event.site event.emitted before).kept env statements event
      · have new := decisions.unset event.site not_set
        exact ⟨event.cat, level, firstCategory_new event new, read, follows⟩
    · rw [Function.update_of_ne same] at is_set
      exact (decisions.set site decision is_set).kept env statements event
  · intro earlier member
    rcases List.mem_append.mp member with before | newest
    · have followed := decisions.followed earlier before
      by_cases same : earlier.site = event.site
      · rcases known with decided | ⟨not_set, _⟩
        · rw [same, decided] at followed
          rw [same, Function.update_self, followed]
        · rw [same, not_set] at followed
          contradiction
      · rw [Function.update_of_ne same]
        exact followed
    · rw [List.mem_singleton.mp newest, Function.update_self]

/-- Every run keeps the decisions. -/
theorem run_decisions {events : List (Execution Site)} {final : ShouldLog Site}
    (run : Run (Steps (executeStatement env statements)) (fresh Site) events final) :
    Decisions env statements events final := by
  induction run with
  | refl =>
    constructor
    · intro site _
      rfl
    · intro site decision is_set
      contradiction
    · intro event member
      contradiction
  | snoc events event state next _ taken inductionHypothesis =>
    exact inductionHypothesis.step env statements taken

/-- The level that a macro passes on is the one of its name, for all macros but
`log_alarm`. -/
theorem macroLevel_name (statement : Statement)
    (not_alarm : ¬ (statement.family = .log ∧ statement.severity = .alarm)) :
    statement.lvl = statement.severity.level := by
  obtain ⟨family, severity, _⟩ := statement
  cases family <;> cases severity <;> first | rfl | exact absurd ⟨rfl, rfl⟩ not_alarm

/-- In every run, an execution of a statement hands its message on exactly when
the statement's severity is within the level of the category that the first
execution of the same statement had. -/
theorem emits_iff (events : List (Execution Site)) (final : ShouldLog Site)
    (run : Run (Steps (executeStatement env statements)) (fresh Site) events final)
    (event : Execution Site) (member : event ∈ events)
    (not_alarm : ¬ ((statements event.site).family = .log ∧
      (statements event.site).severity = .alarm)) :
    ∃ cat level, firstCategory event.site events = some cat ∧ logLevel env cat = some level ∧
      (event.emitted = true ↔ (statements event.site).severity.level ≤ level) := by
  have decisions := run_decisions env statements run
  have followed := decisions.followed event member
  obtain ⟨cat, level, first, read, follows⟩ := decisions.set event.site event.emitted followed
  rw [macroLevel_name (statements event.site) not_alarm] at follows
  exact ⟨cat, level, first, read, follows⟩

end Runs

/-- `log_cat_debug` with a category that is computed. -/
def debugStatement : Statement where
  family := .logCat
  severity := .debug
  prettyFunction := chars "int main()"

/-- The statement executed with one category and then with another. -/
theorem debugStatement_run :
    ∃ final, Run (Steps (executeStatement (some (chars "info,net:debug"))
        (fun _ : Unit => debugStatement))) (fresh Unit)
      [⟨(), chars "net", true⟩, ⟨(), chars "db", true⟩] final := by
  have executed : ∃ final, execute (executeStatement (some (chars "info,net:debug"))
      (fun _ : Unit => debugStatement)) (fresh Unit)
      [((), some (chars "net")), ((), some (chars "db"))] =
        some ([⟨(), chars "net", true⟩, ⟨(), chars "db", true⟩], final) := ⟨_, rfl⟩
  obtain ⟨final, executed⟩ := executed
  exact ⟨final, execute_run _ _ _ _ _ executed⟩

/-- The second execution follows the category of the first one. -/
theorem emits_iff_first_net :
    ∃ cat level, firstCategory () [⟨(), chars "net", true⟩, ⟨(), chars "db", true⟩] = some cat ∧
      logLevel (some (chars "info,net:debug")) cat = some level ∧
      (true = true ↔ debugStatement.severity.level ≤ level) := by
  obtain ⟨final, run⟩ := debugStatement_run
  exact emits_iff _ _ _ final run ⟨(), chars "db", true⟩ (by simp) (by decide)

/-- The second execution emits, and its own category's level is below its severity. -/
theorem emits_fails :
    ∃ events final, Run (Steps (executeStatement (some (chars "info,net:debug"))
        (fun _ : Unit => debugStatement))) (fresh Unit) events final ∧
      ∃ event ∈ events, event.emitted = true ∧
        logLevel (some (chars "info,net:debug")) event.cat = some Severity.info.level ∧
        ¬ debugStatement.severity.level ≤ Severity.info.level := by
  obtain ⟨final, run⟩ := debugStatement_run
  refine ⟨_, final, run, ⟨(), chars "db", true⟩, by simp, rfl, ?_, ?_⟩
  · decide
  · decide

end Tyndall.Log
