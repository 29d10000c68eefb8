import Tyndall.Log.Entries

/-!
# Entries that should have no effect

An entry for categories that does not match the category, or whose value is no
level, has nothing to say about the category's level. Two runs are compared, with
the entry and without it. They differ because such an entry is not dropped: one
that does not match is tried as a plain level, with its pattern as the text, and
one that matches stores what its value was read as, which is no level, over the
level that stood before.

The entry also takes part in how its neighbours are read. As the last entry it
puts a comma behind the entry in front of it, and together with a single other
entry it makes the value longer than one character.
-/

namespace Tyndall.Log

open Tyndall.CString Tyndall.Parts Tyndall.Separated
open Tyndall.Meta (chars)

/-- An entry of the value: a text between commas that is not empty. -/
structure Entry where
  /-- The characters of the entry. -/
  text : List UInt8
  nonempty : text ≠ []
  no_comma : 44 ∉ text

/-- The environment with the entries: the variable counts as unset without one. -/
def environment : List Entry → Option (List UInt8)
  | [] => none
  | entry :: entries => some (List.intercalate [44] ((entry :: entries).map Entry.text))

/-- The text of an entry as it stands in front of the entries behind it. -/
def placed (entry : Entry) : List Entry → List UInt8
  | [] => entry.text
  | _ :: _ => entry.text ++ [44]

/-- Handling the entries of a value in their order. -/
def runOn (cat : List UInt8) : List Entry → LogLevel → Option LogLevel
  | [], refLvl => some refLvl
  | entry :: entries, refLvl =>
      (entryStep cat refLvl (placed entry entries)).bind (runOn cat entries)

/-- Handling entries that are all followed by another one. -/
def runFollowed (cat : List UInt8) (entries : List Entry) (refLvl : LogLevel) : Option LogLevel :=
  entries.foldlM (fun refLvl entry => entryStep cat refLvl (entry.text ++ [44])) refLvl

/-- What stands behind the comma does not change how a value is read. -/
theorem logLevelFromString_followed (v r : List UInt8) :
    logLevelFromString (v ++ 44 :: r) = logLevelFromString (v ++ [44]) := by
  by_cases zero : v = [48]
  · rw [zero]
    exact (logLevelFromString_zero_comma r).trans (logLevelFromString_zero_comma []).symm
  · rw [logLevelFromString_comma v r zero, logLevelFromString_comma v [] zero]

/-- What stands behind the comma does not change how an entry is handled. -/
theorem entryStep_followed (cat e rest : List UInt8) (refLvl : LogLevel) (no_comma : 44 ∉ e) :
    entryStep cat refLvl (e ++ 44 :: rest) = entryStep cat refLvl (e ++ [44]) := by
  by_cases colon : 58 ∈ e
  · obtain ⟨p, v, rfl, no_colon⟩ := List.eq_append_cons_of_mem colon
    have no_comma_field : 44 ∉ p := fun member => no_comma (by simp [member])
    have text := logLevelFromString_followed (p ++ 58 :: v) rest
    rw [List.append_assoc, List.cons_append] at text ⊢
    rw [List.append_assoc, List.cons_append] at text ⊢
    have longer := fieldValue_field cat p (v ++ 44 :: rest) no_colon no_comma_field (by simp)
    have shorter := fieldValue_field cat p (v ++ [44]) no_colon no_comma_field (by simp)
    cases found : matchParts (globParts p) cat true with
    | none =>
      rw [found] at longer shorter
      rw [entryStep_out longer, entryStep_out shorter]
    | some matched =>
      rw [found] at longer shorter
      cases matched with
      | false => rw [entryStep_plain longer, entryStep_plain shorter, text]
      | true =>
        rw [entryStep_value longer, entryStep_value shorter, logLevelFromString_followed]
  · rw [entryStep_plain (fieldValue_followed cat e rest colon),
      entryStep_plain (fieldValue_followed cat e [] colon), logLevelFromString_followed]

/-- The walk sees an entry and goes on behind the comma that follows it. -/
theorem walk_entry (entry : Entry) (rest : List UInt8) :
    walk 44 true (entry.text ++ 44 :: rest) = (entry.text ++ 44 :: rest) :: walk 44 true rest := by
  obtain ⟨text, nonempty, no_comma⟩ := entry
  cases text with
  | nil => contradiction
  | cons c text =>
    obtain ⟨other, absent⟩ := List.ne_and_not_mem_of_not_mem_cons no_comma
    rw [List.cons_append, walk_element true _ (Ne.symm other), walk_search rest absent]
    rfl

/-- The walk sees a last entry, and nothing behind it. -/
theorem walk_last (entry : Entry) : walk 44 true entry.text = [entry.text] := by
  obtain ⟨text, nonempty, no_comma⟩ := entry
  cases text with
  | nil => contradiction
  | cons c text =>
    obtain ⟨other, absent⟩ := List.ne_and_not_mem_of_not_mem_cons no_comma
    rw [walk_element true _ (Ne.symm other), walk_nothing absent]
    rfl

/-- The walk over the entries of a value handles each of them in its place. -/
theorem runEntries_entries (cat : List UInt8) (entries : List Entry) (refLvl : LogLevel) :
    runEntries cat (walk 44 true (List.intercalate [44] (entries.map Entry.text))) refLvl =
      runOn cat entries refLvl := by
  induction entries generalizing refLvl with
  | nil => rfl
  | cons entry entries inductionHypothesis =>
    cases entries with
    | nil =>
      rw [List.map_singleton, List.intercalate_singleton, walk_last]
      rfl
    | cons next entries =>
      rw [List.map_cons, List.map_cons, List.intercalate_cons_cons, List.append_assoc,
        List.singleton_append, walk_entry]
      simp only [runEntries, List.foldlM_cons, Option.bind_eq_bind,
        entryStep_followed cat entry.text _ refLvl entry.no_comma]
      congr 1
      funext level
      exact inductionHypothesis level

/-- A value of one character is one entry. -/
theorem single_character (entry : Entry) (entries : List Entry)
    (length : (List.intercalate [44] ((entry :: entries).map Entry.text)).length = 1) :
    entries = [] ∧ ∃ c, entry.text = [c] := by
  cases entries with
  | nil =>
    rw [List.map_singleton, List.intercalate_singleton] at length
    exact ⟨rfl, List.length_eq_one_iff.mp length⟩
  | cons next entries =>
    exfalso
    have positive := List.length_pos_iff.mpr entry.nonempty
    rw [List.map_cons, List.map_cons, List.intercalate_cons_cons] at length
    simp only [List.length_append, List.length_singleton] at length
    omega

/-- A value with entries starts with a character of the first one. -/
theorem starts_with_entry (entry : Entry) (entries : List Entry) :
    ∃ c rest, List.intercalate [44] ((entry :: entries).map Entry.text) = c :: rest ∧ c ≠ 44 := by
  obtain ⟨text, nonempty, no_comma⟩ := entry
  cases text with
  | nil => contradiction
  | cons c text =>
    have other : c ≠ 44 := Ne.symm (List.ne_of_not_mem_cons no_comma)
    exact ⟨c, List.intercalate [44] (text :: entries.map Entry.text),
      List.intercalate_cons_cons_left, other⟩

/-- An entry of one character is no entry for categories. -/
theorem fieldValue_character (cat : List UInt8) (c : UInt8) : fieldValue cat [c] = some none := by
  by_cases colon : c = 58
  · rw [colon]
    exact fieldValue_no_value cat [] (by simp)
  · apply fieldValue_no_colon
    simpa using Ne.symm colon

/-- The level of a category under a list of entries is what handling them leaves,
or the default, unless the list is a single character that is a level. -/
theorem logLevel_environment (cat : List UInt8) (entries : List Entry)
    (read : ∀ entry c, entries = [entry] → entry.text = [c] → logLevelFromString [c] = invalid) :
    logLevel (environment entries) cat = (runOn cat entries invalid).map orDefault := by
  cases entries with
  | nil => rfl
  | cons entry entries =>
    rw [← runEntries_entries]
    by_cases length : (List.intercalate [44] ((entry :: entries).map Entry.text)).length = 1
    · obtain ⟨rfl, c, single⟩ := single_character entry entries length
      have no_level := read entry c rfl single
      rw [environment, List.map_singleton, List.intercalate_singleton, walk_last, single,
        logLevel_entries cat [c] (by simp)]
      simp [entriesRead, runEntries, entryStep_plain (fieldValue_character cat c), no_level]
    · obtain ⟨c, rest, value, other⟩ := starts_with_entry entry entries
      rw [value] at length
      rw [environment, value, logLevel_entries cat _ (by simp), entriesRead, if_neg length,
        List.head?_cons, if_neg (by simpa using other)]

/-- The entries in front are handled as followed ones when some entry is behind. -/
theorem runOn_append (cat : List UInt8) (before after : List Entry) (refLvl : LogLevel)
    (behind : after ≠ []) :
    runOn cat (before ++ after) refLvl =
      (runFollowed cat before refLvl).bind (runOn cat after) := by
  induction before generalizing refLvl with
  | nil => rfl
  | cons entry before inductionHypothesis =>
    have followed : placed entry (before ++ after) = entry.text ++ [44] := by
      cases before with
      | nil =>
        cases after with
        | nil => contradiction
        | cons next after => rfl
      | cons next before => rfl
    rw [List.cons_append, runOn, followed, runFollowed, List.foldlM_cons, Option.bind_eq_bind,
      Option.bind_assoc]
    congr 1
    funext level
    exact inductionHypothesis level

/-- Entries whose last one is read alone at the level in front of it are handled as
followed ones. -/
theorem runOn_alone (cat : List UInt8) (entries : List Entry) (refLvl : LogLevel)
    (alone : ∀ front last, entries = front ++ [last] → ∀ level,
      runFollowed cat front refLvl = some level → ReadAlone cat level last.text) :
    runOn cat entries refLvl = runFollowed cat entries refLvl := by
  rcases List.eq_nil_or_concat entries with rfl | ⟨front, last, rfl⟩
  · rfl
  · have appended : runFollowed cat (front ++ [last]) refLvl =
        (runFollowed cat front refLvl).bind
          (fun level => entryStep cat level (last.text ++ [44])) := by
      simp [runFollowed, List.foldlM_append]
    rw [List.concat_eq_append, runOn_append cat front [last] refLvl (by simp), appended]
    cases standing : runFollowed cat front refLvl with
    | none => rfl
    | some level =>
      have read := alone front last (List.concat_eq_append ..) level standing
      have same := (step_followed_iff cat last.text [] level last.no_comma).mpr read
      rw [Option.bind_some, Option.bind_some, same, runOn, placed]
      cases entryStep cat level last.text <;> rfl

/-- An entry for this category, or one that reads out of range, is among the
entries: what stands before it does not matter. -/
def Decides (cat : List UInt8) : List Entry → Prop
  | [] => False
  | entry :: entries => fieldValue cat (placed entry entries) ≠ some none ∨ Decides cat entries

/-- The first entry that is read as a plain level. -/
def firstLevel : List Entry → LogLevel
  | [] => invalid
  | entry :: entries =>
      if logLevelFromString (placed entry entries) = invalid then firstLevel entries
      else logLevelFromString (placed entry entries)

/-- The level that plain entries leave of the level before them. -/
def settle (entries : List Entry) (refLvl : LogLevel) : LogLevel :=
  if refLvl = invalid then firstLevel entries else refLvl

/-- Entries that decide leave the same level of every level before them. -/
theorem runOn_decided (cat : List UInt8) (entries : List Entry) (decided : Decides cat entries)
    (refLvl other : LogLevel) : runOn cat entries refLvl = runOn cat entries other := by
  induction entries generalizing refLvl other with
  | nil => exact decided.elim
  | cons entry entries inductionHypothesis =>
    rw [runOn, runOn]
    cases field : fieldValue cat (placed entry entries) with
    | none => rw [entryStep_out field, entryStep_out field]
    | some found =>
      cases found with
      | some value => rw [entryStep_value field, entryStep_value field]
      | none =>
        have later : Decides cat entries := decided.resolve_left (fun not_plain => not_plain field)
        rw [entryStep_plain field, entryStep_plain field, Option.bind_some, Option.bind_some]
        exact inductionHypothesis later _ _

/-- Plain entries only settle a level that is not there yet. -/
theorem runOn_undecided (cat : List UInt8) (entries : List Entry)
    (undecided : ¬ Decides cat entries) (refLvl : LogLevel) :
    runOn cat entries refLvl = some (settle entries refLvl) := by
  induction entries generalizing refLvl with
  | nil =>
    by_cases none_yet : refLvl = invalid <;> simp [runOn, settle, firstLevel, none_yet]
  | cons entry entries inductionHypothesis =>
    obtain ⟨plain, later⟩ := not_or.mp undecided
    rw [runOn, entryStep_plain (not_not.mp plain), Option.bind_some, inductionHypothesis later]
    by_cases none_yet : refLvl = invalid
    · simp [settle, none_yet, firstLevel]
    · simp [settle, none_yet]

/-- The entry does not change how the others are read, and is read in range. As the
last entry it puts a comma behind the one in front of it, which matters only at the
level that stands there. -/
structure ReadApart (cat : List UInt8) (before : List Entry) (entry : Entry)
    (after : List Entry) : Prop where
  inside : fieldValue cat (placed entry after) ≠ none
  alone : after = [] → ∀ front last, before = front ++ [last] → ∀ refLvl,
    runFollowed cat front invalid = some refLvl → ReadAlone cat refLvl last.text
  not_single : ∀ other c, before ++ after = [other] → other.text = [c] →
    logLevelFromString [c] = invalid

/-- The entry leaves the level that the entries behind it would give anyway. As a
plain entry it has an effect when no level stands before it and its text is read
as another level than the one that is given without it; as an entry for this
category it removes the level that stands before it. -/
def Unnoticed (cat : List UInt8) (entry : Entry) (after : List Entry) (refLvl : LogLevel) : Prop :=
  if fieldValue cat (placed entry after) = some none then
    refLvl ≠ invalid ∨ logLevelFromString (placed entry after) = invalid ∨
      logLevelFromString (placed entry after) = orDefault (firstLevel after)
  else refLvl = invalid ∨ refLvl = orDefault (firstLevel after)

/-- A level that is there is no default. -/
theorem orDefault_level {refLvl : LogLevel} (level : refLvl ≠ invalid) :
    orDefault refLvl = refLvl := if_neg level

/-- What a plain entry adds is not noticed exactly when a level stands before it,
its text is no level, or its level is the one that is given anyway. -/
theorem plain_unnoticed (entries : List Entry) (refLvl level : LogLevel) :
    orDefault (settle entries (if refLvl = invalid then level else refLvl)) =
        orDefault (settle entries refLvl) ↔
      refLvl ≠ invalid ∨ level = invalid ∨ level = orDefault (firstLevel entries) := by
  by_cases none_yet : refLvl = invalid
  · by_cases no_level : level = invalid
    · simp [none_yet, no_level]
    · simp [none_yet, no_level, settle, orDefault_level no_level]
  · simp [none_yet]

/-- A level that is removed is not missed exactly when there was none, or when it
is the one that is given anyway. -/
theorem removed_unnoticed (entries : List Entry) (refLvl : LogLevel) :
    orDefault (settle entries invalid) = orDefault (settle entries refLvl) ↔
      refLvl = invalid ∨ refLvl = orDefault (firstLevel entries) := by
  by_cases none_yet : refLvl = invalid
  · simp [none_yet]
  · simp [none_yet, settle, orDefault_level none_yet, eq_comm]

/-- A value that is no level is none in front of a comma either. -/
theorem no_level_followed (v rest : List UInt8) (no_level : logLevelFromString v = invalid) :
    logLevelFromString (v ++ 44 :: rest) = invalid := by
  have not_zero : v ≠ [48] := by
    rintro rfl
    revert no_level
    decide
  rw [logLevelFromString_comma v rest not_zero, no_level]

/-- An entry with nothing to say about the category's level, when it is taken for
the category's, stores that there is no level. -/
theorem irrelevant_value (cat p v : List UInt8) (entry : Entry) (after : List Entry)
    (text : entry.text = p ++ 58 :: v) (no_colon : 58 ∉ p)
    (irrelevant : logGlobMatch entry.text cat p.length = some false ∨
      logLevelFromString v = invalid)
    {value : List UInt8} (taken : fieldValue cat (placed entry after) = some (some value)) :
    logLevelFromString value = invalid := by
  have no_comma : 44 ∉ p := by
    have absent := entry.no_comma
    rw [text] at absent
    exact fun member => absent (by simp [member])
  have taken_value : ∀ rest, rest ≠ [] → fieldValue cat (p ++ 58 :: rest) = some (some value) →
      logLevelFromString v = invalid ∧ value = rest := by
    intro rest nonempty taken
    rw [fieldValue_field cat p rest no_colon no_comma nonempty] at taken
    rw [text, logGlobMatch_parts p (58 :: v) cat (by simp)] at irrelevant
    cases found : matchParts (globParts p) cat true with
    | none => simp [found] at taken
    | some matched =>
      cases matched with
      | false => simp [found] at taken
      | true =>
        have same : rest = value := by simpa [found] using taken
        exact ⟨irrelevant.resolve_left (by simp [found]), same.symm⟩
  cases after with
  | nil =>
    rw [placed, text] at taken
    by_cases empty : v = []
    · rw [empty, fieldValue_no_value cat p no_colon] at taken
      exact absurd (Option.some.inj taken) (by simp)
    · obtain ⟨no_level, rfl⟩ := taken_value v empty taken
      exact no_level
  | cons next after =>
    rw [placed, text, List.append_assoc, List.cons_append] at taken
    obtain ⟨no_level, rfl⟩ := taken_value (v ++ [44]) (by simp) taken
    exact no_level_followed v [] no_level

/-- The two runs meet in front of the entry, and differ by its step alone. -/
theorem runs_meet (cat : List UInt8) (before : List Entry) (entry : Entry) (after : List Entry)
    (apart : ReadApart cat before entry after) (colon : 58 ∈ entry.text) :
    logLevel (environment (before ++ entry :: after)) cat =
        ((runFollowed cat before invalid).bind (fun refLvl =>
          (entryStep cat refLvl (placed entry after)).bind (runOn cat after))).map orDefault ∧
      logLevel (environment (before ++ after)) cat =
        ((runFollowed cat before invalid).bind (runOn cat after)).map orDefault := by
  constructor
  · rw [logLevel_environment cat, runOn_append cat before (entry :: after) invalid (by simp)]
    · rfl
    · intro other c single text
      have same : entry ∈ [other] := by
        rw [← single]
        simp
      rw [List.mem_singleton.mp same, text, List.mem_singleton] at colon
      rw [← colon]
      decide
  · rw [logLevel_environment cat _ apart.not_single]
    cases after with
    | nil =>
      rw [List.append_nil, runOn_alone cat before invalid (apart.alone rfl)]
      cases runFollowed cat before invalid <;> rfl
    | cons next after => rw [runOn_append cat before (next :: after) invalid (by simp)]

/-- Before an entry that decides, the step of an entry makes no difference. -/
theorem step_decided (cat : List UInt8) (entry : Entry) (after : List Entry) (refLvl : LogLevel)
    (inside : fieldValue cat (placed entry after) ≠ none) (decided : Decides cat after) :
    (entryStep cat refLvl (placed entry after)).bind (runOn cat after) =
      runOn cat after refLvl := by
  have step_inside : entryStep cat refLvl (placed entry after) ≠ none :=
    fun out => inside ((entryStep_eq_none cat _ refLvl).mp out)
  obtain ⟨level, step⟩ := Option.ne_none_iff_exists'.mp step_inside
  rw [step, Option.bind_some]
  exact runOn_decided cat after decided level refLvl

/-- Before entries that do not decide, the step of an entry that stores no level
makes no difference exactly when it is not noticed. -/
theorem step_unnoticed_iff (cat : List UInt8) (entry : Entry) (after : List Entry)
    (refLvl : LogLevel) (inside : fieldValue cat (placed entry after) ≠ none)
    (stores : ∀ value, fieldValue cat (placed entry after) = some (some value) →
      logLevelFromString value = invalid)
    (undecided : ¬ Decides cat after) :
    ((entryStep cat refLvl (placed entry after)).bind (runOn cat after)).map orDefault =
        (runOn cat after refLvl).map orDefault ↔ Unnoticed cat entry after refLvl := by
  obtain ⟨found, field⟩ := Option.ne_none_iff_exists'.mp inside
  rw [Unnoticed, runOn_undecided cat after undecided, field]
  cases found with
  | none =>
    rw [entryStep_plain field, Option.bind_some, runOn_undecided cat after undecided, if_pos rfl,
      ← plain_unnoticed]
    exact Option.some_inj
  | some value =>
    rw [entryStep_value field, Option.bind_some, stores value field,
      runOn_undecided cat after undecided, if_neg (by simp), ← removed_unnoticed]
    exact Option.some_inj

/-- Removing an entry that has nothing to say about the category's level, and that
stands apart from the others, leaves the level exactly when a later entry decides
the level or the entry is not noticed at the level that stands before it. -/
theorem inert_entry_iff (cat p v : List UInt8) (before : List Entry) (entry : Entry)
    (after : List Entry) (text : entry.text = p ++ 58 :: v) (no_colon : 58 ∉ p)
    (irrelevant : logGlobMatch entry.text cat p.length = some false ∨
      logLevelFromString v = invalid)
    (apart : ReadApart cat before entry after) :
    logLevel (environment (before ++ entry :: after)) cat =
        logLevel (environment (before ++ after)) cat ↔
      Decides cat after ∨
        ∀ refLvl, runFollowed cat before invalid = some refLvl → Unnoticed cat entry after refLvl := by
  have colon : 58 ∈ entry.text := by
    rw [text]
    simp
  obtain ⟨with_entry, without⟩ := runs_meet cat before entry after apart colon
  rw [with_entry, without]
  cases standing : runFollowed cat before invalid with
  | none => simp
  | some refLvl =>
    rw [Option.bind_some, Option.bind_some]
    simp only [Option.some.injEq, forall_eq']
    by_cases decided : Decides cat after
    · apply iff_of_true _ (Or.inl decided)
      rw [step_decided cat entry after refLvl apart.inside decided]
    · rw [or_iff_right decided]
      apply step_unnoticed_iff cat entry after refLvl apart.inside _ decided
      intro value taken
      exact irrelevant_value cat p v entry after text no_colon irrelevant taken

/-- A global level. -/
def errorEntry : Entry where
  text := chars "error"
  nonempty := by decide
  no_comma := by decide

/-- A level for another category. -/
def databaseEntry : Entry where
  text := chars "db:debug"
  nonempty := by decide
  no_comma := by decide

/-- A level for another category, whose pattern starts like a level. -/
def errorCategoryEntry : Entry where
  text := chars "error_cat:debug"
  nonempty := by decide
  no_comma := by decide

/-- A value that is no level, for the category. -/
def loudEntry : Entry where
  text := chars "net:loud"
  nonempty := by decide
  no_comma := by decide

/-- Behind a global level an entry for another category can be removed. -/
theorem inert_entry_behind_global :
    logLevel (environment [errorEntry, databaseEntry]) (chars "net") =
      logLevel (environment [errorEntry]) (chars "net") := by
  have apart : ReadApart (chars "net") [errorEntry] databaseEntry [] := {
    inside := by decide
    alone := by
      intro _ front last split refLvl _
      obtain rfl : errorEntry = last := by simpa using congrArg List.getLast? split
      exact (readAlone_plain (chars "net") refLvl (chars "error") (by decide)).mpr
        (fun _ => by decide)
    not_single := by
      intro other c same text
      obtain rfl := List.singleton_inj.mp same
      have length : (chars "error").length = 1 := congrArg List.length text
      exact absurd length (by decide) }
  apply (inert_entry_iff (chars "net") (chars "db") (chars "debug") [errorEntry] databaseEntry []
    (by decide) (by decide) (Or.inl (by decide)) apart).mpr
  apply Or.inr
  intro refLvl standing
  have level : runFollowed (chars "net") [errorEntry] invalid = some Severity.error.level := by
    decide
  rw [level] at standing
  obtain rfl := Option.some.inj standing
  exact Or.inl (by decide)

/-- An entry for another category becomes the global level, and a value that is no
level removes the one before it. -/
theorem inert_entry_fails :
    logGlobMatch errorCategoryEntry.text (chars "net") 9 = some false ∧
      logLevel (environment [errorCategoryEntry]) (chars "net") ≠
        logLevel (environment []) (chars "net") ∧
      logLevelFromString (chars "loud") = invalid ∧
      logLevel (environment [errorEntry, loudEntry]) (chars "net") ≠
        logLevel (environment [errorEntry]) (chars "net") := by
  decide

end Tyndall.Log
