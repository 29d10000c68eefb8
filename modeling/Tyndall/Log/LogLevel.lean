import Tyndall.Foundation.Separated
import Tyndall.Log.Glob
import Tyndall.Log.Level

/-!
# The level of a category

`log_level` walks the value of `LOG_LEVEL` with one pointer. The pointer starts at
the value and then stands at commas; each round steps over one comma, handles the
entry there and searches the next comma behind the entry's first character. What
a round does depends on the rest of the value, since neither the entry nor its
parts are cut out of it.

Every read is modelled with its index, and a read beyond a terminator makes the
result `none`. There are two of them: the guard of the loop looks one character
ahead, also in an empty value, and the search of a pattern's next part starts
where a part that was not found would have ended.
-/

namespace Tyndall.Log

open Tyndall.CString Tyndall.Parts Tyndall.Separated
open Tyndall.Meta (chars)

/-- The condition of the "field=value" branch. It yields the pointer to the value
when the branch is taken. -/
def fieldValue (cat e : List UInt8) : Option (Option (List UInt8)) :=
  match strchr e 58 with
  | none => some none
  | some colon => do
      if (← charAt e (colon + 1)) ≠ none ∧ (strchr e 44).all (fun comma => colon < comma) then
        if ← logGlobMatch e cat colon then (advance e (colon + 1)).map some
        else some none
      else some none

/-- The entry at `e`: a value for the category, or a value for all categories as
long as there is none. -/
def entryStep (cat : List UInt8) (refLvl : LogLevel) (e : List UInt8) : Option LogLevel := do
  match ← fieldValue cat e with
  | some value => some (logLevelFromString value)
  | none => some (if refLvl = invalid then logLevelFromString e else refLvl)

/-- The loop through the entries, as many rounds as the fuel allows. -/
def entryLoop (cat : List UInt8) : Nat → List UInt8 → LogLevel → Option LogLevel
  | 0, _, _ => none
  | fuel + 1, e, refLvl => do
      if (← charAt e 1) = none then some refLvl
      else
        let e ← if e.head? = some 44 then advance e 1 else some e
        let refLvl ← entryStep cat refLvl e
        let behind ← advance e 1
        match strchr behind 44 with
        | none => some refLvl
        | some comma => entryLoop cat fuel (behind.drop comma) refLvl

/-- `log_level`, with the value of the environment variable if it is set. -/
def logLevel (env : Option (List UInt8)) (cat : List UInt8) : Option LogLevel := do
  let refLvl ← match env with
    | none => some invalid
    | some env => entryLoop cat (env.length + 1) env invalid
  some (if refLvl = invalid then logLevelDefault else refLvl)

/-- The entries that the loop handles, each with everything behind it. -/
def entriesRead (env : List UInt8) : List (List UInt8) :=
  if env.length = 1 then []
  else if env.head? = some 44 then walk 44 true env.tail
  else walk 44 true env

/-- Handling entries one after the other. -/
def runEntries (cat : List UInt8) (entries : List (List UInt8)) (refLvl : LogLevel) :
    Option LogLevel :=
  entries.foldlM (entryStep cat) refLvl

/-- The level when all entries are handled. -/
def orDefault (refLvl : LogLevel) : LogLevel :=
  if refLvl = invalid then logLevelDefault else refLvl

/-- At a comma there is no entry, and the round changes nothing. -/
theorem entryStep_comma (cat : List UInt8) (refLvl : LogLevel) (rest : List UInt8) :
    entryStep cat refLvl (44 :: rest) = some refLvl := by
  have no_value : fieldValue cat (44 :: rest) = some none := by
    cases found : strchr (44 :: rest) 58 with
    | none => simp [fieldValue, found]
    | some colon =>
      have at_comma : strchr (44 :: rest) 44 = some 0 := by simp [strchr_cons]
      obtain ⟨before, after, split, position, _⟩ := strchr_split found
      have readable : charAt (44 :: rest) (colon + 1) = some (44 :: rest)[colon + 1]? := by
        apply if_pos
        rw [split, List.length_append, List.length_cons, position]
        omega
      simp only [fieldValue, found, readable, at_comma]
      simp
  rw [entryStep, no_value]
  simp only [Option.bind_eq_bind, Option.bind_some, logLevelFromString_at_comma]
  split
  · rename_i none_yet
    rw [none_yet]
  · rfl

/-- The walk that is searching goes on behind the next comma, if there is one. -/
theorem walk_strchr (rest : List UInt8) :
    walk 44 false rest =
      match strchr rest 44 with
      | none => []
      | some comma => walk 44 true (rest.drop (comma + 1)) := by
  induction rest with
  | nil => rfl
  | cons c rest inductionHypothesis =>
    by_cases same : c = 44
    · simp [same, walk_separator, strchr_cons]
    · rw [walk_element false rest same, inductionHypothesis, strchr_cons, if_neg same]
      cases strchr rest 44 <;> rfl

/-- The round at an element handles the entry there, if it is one, and goes on
behind the element. -/
theorem runEntries_walk (cat : List UInt8) (c : UInt8) (rest : List UInt8) (refLvl : LogLevel) :
    runEntries cat (walk 44 true (c :: rest)) refLvl =
      (entryStep cat refLvl (c :: rest)).bind (runEntries cat (walk 44 false rest)) := by
  by_cases comma : c = 44
  · rw [comma, walk_separator, entryStep_comma]
    rfl
  · rw [walk_element true rest comma]
    rfl

/-- At a comma that is left, the loop handles what the walk sees behind it. -/
theorem entriesRead_comma (rest : List UInt8) : entriesRead (44 :: rest) = walk 44 true rest := by
  cases rest <;> simp [entriesRead, walk]

/-- At another character the loop handles what the walk sees from it on, unless the
character is alone. -/
theorem entriesRead_element (d : UInt8) (rest : List UInt8) {c : UInt8} (other : c ≠ 44) :
    entriesRead (c :: d :: rest) = walk 44 true (c :: d :: rest) := by
  simp [entriesRead, other]

/-- With enough fuel the loop handles the entries it reads, and nothing else. The
induction is on the fuel: each round leaves the pointer at a later comma. -/
theorem entryLoop_entries (cat : List UInt8) (fuel : Nat) :
    ∀ (e : List UInt8) (refLvl : LogLevel), e ≠ [] → e.length ≤ fuel →
      entryLoop cat fuel e refLvl = runEntries cat (entriesRead e) refLvl := by
  induction fuel with
  | zero =>
    intro e refLvl nonempty enough
    exact absurd (List.length_eq_zero_iff.mp (Nat.le_zero.mp enough)) nonempty
  | succ fuel inductionHypothesis =>
    intro e refLvl nonempty enough
    have behind : ∀ (rest : List UInt8) (refLvl : LogLevel), rest.length ≤ fuel →
        (match strchr rest 44 with
          | none => some refLvl
          | some comma => entryLoop cat fuel (rest.drop comma) refLvl) =
          runEntries cat (walk 44 false rest) refLvl := by
      intro rest refLvl shorter
      rw [walk_strchr]
      cases found : strchr rest 44 with
      | none => rfl
      | some comma =>
        obtain ⟨before, after, rfl, rfl, _⟩ := strchr_split found
        have skipped : (before ++ 44 :: after).drop (before.length + 1) = after := by simp
        rw [List.length_append, List.length_cons] at shorter
        simp only [List.drop_left, skipped]
        rw [← entriesRead_comma]
        apply inductionHypothesis
        · simp
        · rw [List.length_cons]
          omega
    have round : ∀ (c : UInt8) (rest : List UInt8), rest.length ≤ fuel →
        ((entryStep cat refLvl (c :: rest)).bind (fun refLvl =>
          (advance (c :: rest) 1).bind (fun behind =>
            match strchr behind 44 with
            | none => some refLvl
            | some comma => entryLoop cat fuel (behind.drop comma) refLvl))) =
          runEntries cat (walk 44 true (c :: rest)) refLvl := by
      intro c rest shorter
      rw [runEntries_walk, advance_one]
      congr 1
      funext refLvl
      exact behind rest refLvl shorter
    cases e with
    | nil => contradiction
    | cons c rest =>
      cases rest with
      | nil => simp [entryLoop, charAt, entriesRead, runEntries]
      | cons d rest =>
        simp only [List.length_cons] at enough
        have ahead : charAt (c :: d :: rest) 1 = some (some d) := by simp [charAt]
        rw [entryLoop, ahead]
        simp only [Option.bind_eq_bind, Option.bind_some, reduceCtorEq, if_false, List.head?_cons,
          Option.some.injEq]
        by_cases comma : c = 44
        · rw [if_pos comma, advance_one, comma, entriesRead_comma]
          exact round d rest (by omega)
        · rw [if_neg comma, entriesRead_element d rest comma]
          exact round c (d :: rest) (by rw [List.length_cons]; omega)

/-- The level of a category under a value that is not empty is what the entries
that are read leave, or the default. -/
theorem logLevel_entries (cat env : List UInt8) (nonempty : env ≠ []) :
    logLevel (some env) cat = (runEntries cat (entriesRead env) invalid).map orDefault := by
  have entries := entryLoop_entries cat (env.length + 1) env invalid nonempty (Nat.le_succ _)
  simp only [logLevel, Option.bind_eq_bind, entries]
  cases runEntries cat (entriesRead env) invalid <;> rfl

/-- The guard of the loop looks beyond the end of an empty value. -/
theorem logLevel_empty (cat : List UInt8) : logLevel (some []) cat = none := rfl

/-- Without the variable the level is the default. -/
theorem logLevel_unset (cat : List UInt8) : logLevel none cat = some logLevelDefault := rfl

/-- An entry with a field and a value: the branch is taken when the category
matches what stands in front of the first colon. -/
theorem fieldValue_field (cat p rest : List UInt8) (no_colon : 58 ∉ p) (no_comma : 44 ∉ p)
    (nonempty : rest ≠ []) :
    fieldValue cat (p ++ 58 :: rest) =
      (matchParts (globParts p) cat true).map (fun found => if found then some rest else none) := by
  have colon : strchr (p ++ 58 :: rest) 58 = some p.length := strchr_append p rest 58 no_colon
  have comma : (strchr (p ++ 58 :: rest) 44).all (fun comma => p.length < comma) = true := by
    cases found : strchr (p ++ 58 :: rest) 44 with
    | none => rfl
    | some comma => simpa using strchr_later p rest 58 44 no_comma (by decide) found
  have next : rest.head? ≠ none := by simpa using nonempty
  have field := logGlobMatch_parts p (58 :: rest) cat (by simp)
  simp only [fieldValue, colon, charAt_behind, advance_behind, comma, field, Option.bind_eq_bind,
    Option.bind_some, next, ne_eq, not_false_eq_true, and_self, if_true]
  cases matchParts (globParts p) cat true with
  | none => rfl
  | some found => cases found <;> rfl

/-- An entry without a value is no entry for a category. -/
theorem fieldValue_no_value (cat p : List UInt8) (no_colon : 58 ∉ p) :
    fieldValue cat (p ++ [58]) = some none := by
  have colon : strchr (p ++ [58]) 58 = some p.length := strchr_append p [] 58 no_colon
  simp [fieldValue, colon, charAt_behind]

/-- An entry whose first colon stands behind a comma has none of its own. -/
theorem fieldValue_later_colon (cat p rest : List UInt8) (no_colon : 58 ∉ p) (comma : 44 ∈ p) :
    fieldValue cat (p ++ 58 :: rest) = some none := by
  have colon : strchr (p ++ 58 :: rest) 58 = some p.length := strchr_append p rest 58 no_colon
  obtain ⟨front, behind, rfl, absent⟩ := List.eq_append_cons_of_mem comma
  have before : strchr (front ++ 44 :: behind ++ 58 :: rest) 44 = some front.length := by
    rw [List.append_assoc, List.cons_append, strchr_append front _ 44 absent]
  simp only [fieldValue, colon, charAt_behind, before]
  simp

/-- An entry without a colon is a value for all categories. -/
theorem fieldValue_no_colon (cat e : List UInt8) (no_colon : 58 ∉ e) :
    fieldValue cat e = some none := by
  rw [fieldValue, (strchr_eq_none e 58).mpr no_colon]

/-- Handling an entry reads inside the strings exactly when finding its value does. -/
theorem entryStep_eq_none (cat e : List UInt8) (refLvl : LogLevel) :
    entryStep cat refLvl e = none ↔ fieldValue cat e = none := by
  rw [entryStep]
  cases fieldValue cat e with
  | none => simp
  | some value => cases value <;> simp

/-- An entry for categories reads inside the strings exactly when the search for
its pattern stays within the category. -/
theorem entryStep_reads (cat e : List UInt8) (refLvl : LogLevel) :
    entryStep cat refLvl e ≠ none ↔
      ∀ p rest, e = p ++ 58 :: rest → 58 ∉ p → 44 ∉ p → rest ≠ [] →
        StaysWithin (globParts p) cat := by
  rw [Ne, entryStep_eq_none]
  constructor
  · rintro read p rest rfl no_colon no_comma nonempty
    rw [fieldValue_field cat p rest no_colon no_comma nonempty, Option.map_eq_none_iff] at read
    exact (matchParts_reads _ cat true).mp read
  · intro stays
    by_cases colon : 58 ∈ e
    · obtain ⟨p, rest, rfl, no_colon⟩ := List.eq_append_cons_of_mem colon
      by_cases comma : 44 ∈ p
      · simp [fieldValue_later_colon cat p rest no_colon comma]
      · by_cases empty : rest = []
        · simp [empty, fieldValue_no_value cat p no_colon]
        · have within := stays p rest rfl no_colon comma empty
          rw [fieldValue_field cat p rest no_colon comma empty, Option.map_eq_none_iff]
          exact (matchParts_reads _ cat true).mpr within
    · simp [fieldValue_no_colon cat e colon]

/-- Handling entries reads inside the strings exactly when handling each does. -/
theorem runEntries_reads (cat : List UInt8) (entries : List (List UInt8)) (refLvl : LogLevel) :
    runEntries cat entries refLvl ≠ none ↔
      ∀ e ∈ entries, ∀ p rest, e = p ++ 58 :: rest → 58 ∉ p → 44 ∉ p → rest ≠ [] →
        StaysWithin (globParts p) cat := by
  induction entries generalizing refLvl with
  | nil => simp [runEntries]
  | cons e entries inductionHypothesis =>
    rw [List.forall_mem_cons, ← entryStep_reads cat e refLvl]
    cases step : entryStep cat refLvl e with
    | none => simp [runEntries, step]
    | some level =>
      rw [← inductionHypothesis level]
      simp [runEntries, step]

/-- The level of a category is found without a read out of range exactly when the
variable is not set to an empty value, and the search for the pattern of each
entry that is read for categories stays within the category. -/
theorem reads_inside_iff (env : Option (List UInt8)) (cat : List UInt8) :
    logLevel env cat ≠ none ↔
      ∀ value ∈ env, value ≠ [] ∧ ∀ e ∈ entriesRead value,
        ∀ p rest, e = p ++ 58 :: rest → 58 ∉ p → 44 ∉ p → rest ≠ [] →
          StaysWithin (globParts p) cat := by
  cases env with
  | none => simp [logLevel_unset]
  | some value =>
    by_cases empty : value = []
    · simp [empty, logLevel_empty]
    · rw [logLevel_entries cat value empty, Ne, Option.map_eq_none_iff]
      simp [empty, ← runEntries_reads cat _ invalid]

/-- An empty value is read behind its terminator, and so is a short category when
a part that it does not have is followed by another one. -/
theorem reads_inside_fails :
    logLevel (some []) (chars "net") = none ∧
      logLevel (some (chars "zzzz*a:debug")) (chars "net") = none := by
  decide

end Tyndall.Log
