import Tyndall.Log.LogLevel

/-!
# Reading the value entry by entry

What `LOG_LEVEL` is documented to mean is given by its entries: the value is
split at its commas, and each entry that is not empty is handled once, in order,
as a string of its own. The loop leaves the same level behind each entry only when
two conditions hold. An entry that it does not find, behind an even number of
adjacent commas or in a value of one character, has nothing to change at the level
that stands there. And an entry that a comma follows is read in front of the comma
as it would be alone, as far as that level lets it be read.
-/

namespace Tyndall.Log

open Tyndall.CString Tyndall.Parts Tyndall.Separated
open Tyndall.Meta (chars)

/-- The entries of a value that are not empty, each as a string of its own. -/
def fields (env : List UInt8) : List (List UInt8) :=
  (env.splitOn 44).filter (· ≠ [])

/-- The level of a category by the entries of the value. -/
def levelByFields (env cat : List UInt8) : Option LogLevel :=
  (runEntries cat (fields env) invalid).map orDefault

/-- The entries of a value, each with everything behind it and with whether the
loop reads it. It steps over a comma at the start, looks at the start otherwise,
and does not look into a value of one character. -/
def entriesMarked (env : List UInt8) : List (Bool × List UInt8) :=
  if env.length = 1 then (starts 44 true env).map (fun e => (false, e))
  else marks 44 (if env.head? = some 44 then 0 else 1) env

/-- What the loop makes of the level at an entry: one that it does not read leaves
the level as it is. -/
def markedStep (cat : List UInt8) (refLvl : LogLevel) (entry : Bool × List UInt8) :
    Option LogLevel :=
  if entry.1 then entryStep cat refLvl entry.2 else some refLvl

/-- The levels in front of, between and behind the entries as the loop leaves them. -/
def levelsRead (env cat : List UInt8) : List (Option LogLevel) :=
  (entriesMarked env).scanl (fun refLvl entry => refLvl.bind (markedStep cat · entry)) (some invalid)

/-- The levels in front of, between and behind the entries when each is handled as a
string of its own. -/
def levelsByFields (env cat : List UInt8) : List (Option LogLevel) :=
  (fields env).scanl (fun refLvl entry => refLvl.bind (entryStep cat · entry)) (some invalid)

/-- At the level `refLvl` an entry is read in front of a comma as it is read alone.
A single zero is no level in front of a comma, which matters only where a level is
read; and an entry for this category without a value is one with a value there. -/
def ReadAlone (cat : List UInt8) (refLvl : LogLevel) (entry : List UInt8) : Prop :=
  (refLvl = invalid → entry ≠ [48]) ∧ ∀ colon ∈ strchr entry 58,
    (logGlobMatch entry cat colon = some true → entry.drop (colon + 1) ≠ [48]) ∧
      (entry.drop (colon + 1) = [] → logGlobMatch entry cat colon = some false ∨
        (logGlobMatch entry cat colon = some true ∧ refLvl = invalid ∧
          logLevelFromString entry = invalid))

instance (cat : List UInt8) (refLvl : LogLevel) (entry : List UInt8) :
    Decidable (ReadAlone cat refLvl entry) :=
  inferInstanceAs (Decidable (_ ∧ _))

/-- At the level `refLvl` an entry has nothing to change: a level stands there, or
the entry is none, or it gives the category the level that stands there. -/
def NothingMissed (cat : List UInt8) (refLvl : LogLevel) (entry : List UInt8) : Prop :=
  match fieldValue cat entry with
  | none => False
  | some none => refLvl ≠ invalid ∨ logLevelFromString entry = invalid
  | some (some value) => logLevelFromString value = refLvl

/-- At the level `refLvl` the loop makes of an entry what the entry alone gives. -/
def HandledAlike (cat : List UInt8) (refLvl : LogLevel) (entry : Bool × List UInt8) : Prop :=
  if entry.1 then 44 ∈ entry.2 → ReadAlone cat refLvl (entry.2.takeWhile (· ≠ 44))
  else NothingMissed cat refLvl (entry.2.takeWhile (· ≠ 44))

/-- Every entry is handled alike at the level that the entries in front of it give
when each is handled as a string of its own. -/
def AllAlike (cat : List UInt8) : Option LogLevel → List (Bool × List UInt8) → Prop
  | _, [] => True
  | refLvl, entry :: later => ∀ level ∈ refLvl,
      HandledAlike cat level entry ∧
        AllAlike cat (entryStep cat level (entry.2.takeWhile (· ≠ 44))) later

/-- The entries of a value stand apart for a category: the value is not empty, and
at the level that stands there each entry that the loop does not find changes
nothing, and each that a comma follows is read in front of it as alone. -/
def EntriesApart (cat env : List UInt8) : Prop :=
  env ≠ [] ∧ AllAlike cat (some invalid) (entriesMarked env)

/-- A colon of a later entry makes no entry for categories of the one at hand. -/
theorem fieldValue_followed (cat entry rest : List UInt8) (no_colon : 58 ∉ entry) :
    fieldValue cat (entry ++ 44 :: rest) = some none := by
  by_cases colon : 58 ∈ rest
  · obtain ⟨front, behind, rfl, absent⟩ := List.eq_append_cons_of_mem colon
    have later := fieldValue_later_colon cat (entry ++ 44 :: front) behind
      (by simp [no_colon, absent]) (by simp)
    simpa using later
  · apply fieldValue_no_colon
    simp [no_colon, colon]

/-- An entry that is no entry for this category is a plain one. -/
theorem entryStep_plain {cat e : List UInt8} (no_value : fieldValue cat e = some none)
    (refLvl : LogLevel) :
    entryStep cat refLvl e = some (if refLvl = invalid then logLevelFromString e else refLvl) := by
  rw [entryStep, no_value]
  rfl

/-- An entry for this category sets its level. -/
theorem entryStep_value {cat e value : List UInt8} (field : fieldValue cat e = some (some value))
    (refLvl : LogLevel) : entryStep cat refLvl e = some (logLevelFromString value) := by
  rw [entryStep, field]
  rfl

/-- An entry that reads out of range gives no level. -/
theorem entryStep_out {cat e : List UInt8} (out : fieldValue cat e = none) (refLvl : LogLevel) :
    entryStep cat refLvl e = none :=
  (entryStep_eq_none cat e refLvl).mpr out

/-- Two plain readings of an entry are alike exactly when a level stands there or its
text is read alike. -/
theorem plain_steps_iff (cat e other : List UInt8) (no_value : fieldValue cat e = some none)
    (no_other : fieldValue cat other = some none) (refLvl : LogLevel) :
    entryStep cat refLvl e = entryStep cat refLvl other ↔
      (refLvl = invalid → logLevelFromString e = logLevelFromString other) := by
  rw [entryStep_plain no_value, entryStep_plain no_other, Option.some_inj]
  by_cases none_yet : refLvl = invalid <;> simp [none_yet]

/-- An entry without a colon is read alone unless it is the single zero and no level
stands there. -/
theorem readAlone_plain (cat : List UInt8) (refLvl : LogLevel) (entry : List UInt8)
    (no_colon : 58 ∉ entry) : ReadAlone cat refLvl entry ↔ (refLvl = invalid → entry ≠ [48]) := by
  simp [ReadAlone, (strchr_eq_none entry 58).mpr no_colon]

/-- An entry with a colon is longer than the single zero. -/
theorem field_ne_zero (p v : List UInt8) : p ++ 58 :: v ≠ [48] := by
  cases p <;> simp

/-- Whether an entry with a field is read alone depends on its value when the
category matches, and on an empty value when it does not. -/
theorem readAlone_field (cat p v : List UInt8) (refLvl : LogLevel) (no_colon : 58 ∉ p) :
    ReadAlone cat refLvl (p ++ 58 :: v) ↔
      (matchParts (globParts p) cat true = some true → v ≠ [48]) ∧
        (v = [] → matchParts (globParts p) cat true = some false ∨
          (matchParts (globParts p) cat true = some true ∧ refLvl = invalid ∧
            logLevelFromString (p ++ 58 :: v) = invalid)) := by
  have colon : strchr (p ++ 58 :: v) 58 = some p.length := strchr_append p v 58 no_colon
  have value : (p ++ 58 :: v).drop (p.length + 1) = v := by simp
  have field := logGlobMatch_parts p (58 :: v) cat (by simp)
  simp only [ReadAlone, colon, Option.mem_some_iff, forall_eq', value, field, field_ne_zero, ne_eq,
    not_false_eq_true, implies_true, true_and]

/-- The text of an entry with a colon is read alike as a plain level. -/
theorem text_followed (p v rest : List UInt8) :
    logLevelFromString (p ++ 58 :: (v ++ 44 :: rest)) = logLevelFromString (p ++ 58 :: v) := by
  have followed := logLevelFromString_comma (p ++ 58 :: v) rest (field_ne_zero p v)
  simpa using followed

/-- A field without a value is handled alike in front of a comma and alone exactly
when the category does not match, or when it does and neither the entry nor what
stands before it is a level: in front of a comma the value is there, and it is no
level. -/
theorem step_followed_no_value (cat p rest : List UInt8) (refLvl : LogLevel) (no_colon : 58 ∉ p)
    (no_comma : 44 ∉ p) :
    entryStep cat refLvl (p ++ 58 :: 44 :: rest) = entryStep cat refLvl (p ++ [58]) ↔
      matchParts (globParts p) cat true = some false ∨
        (matchParts (globParts p) cat true = some true ∧ refLvl = invalid ∧
          logLevelFromString (p ++ [58]) = invalid) := by
  have followed := fieldValue_field cat p (44 :: rest) no_colon no_comma (by simp)
  have alone := fieldValue_no_value cat p no_colon
  cases found : matchParts (globParts p) cat true with
  | none =>
    rw [found] at followed
    simp [entryStep_out followed, entryStep_plain alone]
  | some matched =>
    rw [found] at followed
    cases matched with
    | false =>
      apply iff_of_true _ (Or.inl rfl)
      exact (plain_steps_iff cat _ _ followed alone refLvl).mpr (fun _ => text_followed p [] rest)
    | true =>
      rw [entryStep_value followed, entryStep_plain alone, logLevelFromString_at_comma]
      by_cases none_yet : refLvl = invalid
      · simp [none_yet, eq_comm]
      · simp [none_yet, Ne.symm none_yet]

/-- A field with a value is handled alike in front of a comma and alone exactly
when the value is read alike, or the category does not match. -/
theorem step_followed_value (cat p v rest : List UInt8) (refLvl : LogLevel) (no_colon : 58 ∉ p)
    (no_comma : 44 ∉ p) (nonempty : v ≠ []) :
    entryStep cat refLvl (p ++ 58 :: (v ++ 44 :: rest)) = entryStep cat refLvl (p ++ 58 :: v) ↔
      (matchParts (globParts p) cat true = some true → v ≠ [48]) := by
  have followed := fieldValue_field cat p (v ++ 44 :: rest) no_colon no_comma (by simp)
  have alone := fieldValue_field cat p v no_colon no_comma nonempty
  cases found : matchParts (globParts p) cat true with
  | none =>
    rw [found] at followed alone
    simp [entryStep_out followed, entryStep_out alone]
  | some matched =>
    rw [found] at followed alone
    cases matched with
    | false =>
      apply iff_of_true _ (by simp)
      exact (plain_steps_iff cat _ _ followed alone refLvl).mpr (fun _ => text_followed p v rest)
    | true =>
      simp [entryStep_value followed, entryStep_value alone, logLevelFromString_comma_iff]

/-- At a level an entry is handled alike in front of a comma and alone exactly when
it is read alone there. -/
theorem step_followed_iff (cat entry rest : List UInt8) (refLvl : LogLevel)
    (no_comma : 44 ∉ entry) :
    entryStep cat refLvl (entry ++ 44 :: rest) = entryStep cat refLvl entry ↔
      ReadAlone cat refLvl entry := by
  by_cases colon : 58 ∈ entry
  · obtain ⟨p, v, rfl, no_colon⟩ := List.eq_append_cons_of_mem colon
    have no_comma_field : 44 ∉ p := fun member => no_comma (by simp [member])
    rw [readAlone_field cat p v refLvl no_colon, List.append_assoc, List.cons_append]
    by_cases empty : v = []
    · subst empty
      rw [List.nil_append, step_followed_no_value cat p rest refLvl no_colon no_comma_field]
      simp
    · rw [step_followed_value cat p v rest refLvl no_colon no_comma_field empty]
      simp [empty]
  · rw [plain_steps_iff cat _ _ (fieldValue_followed cat entry rest colon)
      (fieldValue_no_colon cat entry colon), logLevelFromString_comma_iff,
      readAlone_plain cat refLvl entry colon]

/-- An entry leaves the level that stands there exactly when it has nothing to
change. -/
theorem nothing_missed_iff (cat entry : List UInt8) (refLvl : LogLevel) :
    entryStep cat refLvl entry = some refLvl ↔ NothingMissed cat refLvl entry := by
  rw [NothingMissed]
  cases field : fieldValue cat entry with
  | none => simp [entryStep_out field]
  | some found =>
    cases found with
    | none =>
      rw [entryStep_plain field, Option.some_inj]
      by_cases none_yet : refLvl = invalid <;> simp [none_yet]
    | some value => simp [entryStep_value field]

instance (cat : List UInt8) (refLvl : LogLevel) (entry : List UInt8) :
    Decidable (NothingMissed cat refLvl entry) :=
  decidable_of_iff _ (nothing_missed_iff cat entry refLvl)

instance (cat : List UInt8) (refLvl : LogLevel) (entry : Bool × List UInt8) :
    Decidable (HandledAlike cat refLvl entry) :=
  inferInstanceAs (Decidable (if entry.1 = true then _ else _))

/-- Whether all entries are handled alike is found by handling them. -/
instance decidableAllAlike (cat : List UInt8) (refLvl : Option LogLevel)
    (entries : List (Bool × List UInt8)) : Decidable (AllAlike cat refLvl entries) :=
  match refLvl, entries with
  | _, [] => isTrue trivial
  | none, _ :: _ => isTrue (by simp [AllAlike])
  | some level, entry :: later =>
      have := decidableAllAlike cat (entryStep cat level (entry.2.takeWhile (· ≠ 44))) later
      decidable_of_iff (HandledAlike cat level entry ∧
        AllAlike cat (entryStep cat level (entry.2.takeWhile (· ≠ 44))) later) (by simp [AllAlike])

instance (cat env : List UInt8) : Decidable (EntriesApart cat env) :=
  inferInstanceAs (Decidable (_ ∧ _))

/-- The loop reads the entries that are marked. -/
theorem entriesMarked_read (env : List UInt8) :
    ((entriesMarked env).filter Prod.fst).map Prod.snd = entriesRead env := by
  rw [entriesMarked, entriesRead]
  by_cases single : env.length = 1
  · simp [single]
  · rw [if_neg single, if_neg single, marks_walk]
    cases env with
    | nil => rfl
    | cons c rest =>
      by_cases comma : c = 44
      · simp [comma, walk_separator]
      · simp [comma]

/-- Every entry of the value is marked as read or as not read. -/
theorem entriesMarked_starts (env : List UInt8) :
    (entriesMarked env).map Prod.snd = starts 44 true env := by
  rw [entriesMarked]
  by_cases single : env.length = 1
  · simp [single]
  · rw [if_neg single, marks_starts]
    cases env with
    | nil => rfl
    | cons c rest =>
      by_cases comma : c = 44
      · simp [comma, starts_separator]
      · simp [comma]

/-- The entries that are seen from their first characters on are the fields of the
value. -/
theorem fields_eq (env : List UInt8) :
    fields env = (starts 44 true env).map (fun e => e.takeWhile (· ≠ 44)) :=
  (starts_entries env).symm

/-- The fields of the value are the fields that the marked entries start. -/
theorem fields_marked (env : List UInt8) :
    fields env = (entriesMarked env).map (fun entry => entry.2.takeWhile (· ≠ 44)) := by
  rw [fields_eq, ← entriesMarked_starts, List.map_map]
  rfl

/-- The loop makes of an entry what the field it starts gives alone, exactly when
the entry is handled alike. -/
theorem step_field_iff (cat : List UInt8) (refLvl : LogLevel) (entry : Bool × List UInt8) :
    markedStep cat refLvl entry = entryStep cat refLvl (entry.2.takeWhile (· ≠ 44)) ↔
      HandledAlike cat refLvl entry := by
  obtain ⟨read, e⟩ := entry
  cases read with
  | false =>
    rw [eq_comm]
    exact nothing_missed_iff cat _ refLvl
  | true =>
    simp only [markedStep, HandledAlike, if_true]
    by_cases comma : 44 ∈ e
    · obtain ⟨entry, rest, rfl, no_comma⟩ := List.eq_append_cons_of_mem comma
      have first : (entry ++ 44 :: rest).takeWhile (· ≠ 44) = entry := by
        rw [takeWhile_stop _ entry rest 44 (by simp), takeWhile_absent entry 44 no_comma]
      rw [first, step_followed_iff cat entry rest refLvl no_comma]
      exact ⟨fun alone _ => alone, fun alone => alone comma⟩
    · rw [takeWhile_absent e 44 comma]
      exact iff_of_true rfl (fun member => absurd member comma)

/-- Out of range there is no level behind any entry. -/
theorem scanl_out {Item : Type} (handle : LogLevel → Item → Option LogLevel) (items : List Item) :
    items.scanl (fun refLvl item => refLvl.bind (handle · item)) none =
      List.replicate (items.length + 1) none := by
  induction items with
  | nil => rfl
  | cons item items inductionHypothesis =>
    rw [List.scanl_cons, Option.bind_none, inductionHypothesis]
    rfl

/-- The loop leaves the levels of the fields behind the entries exactly when all
entries are handled alike. The induction is on the entries; the level that stands
in front of them is the same in both runs, since otherwise they differ already. -/
theorem levels_alike_iff (cat : List UInt8) (entries : List (Bool × List UInt8))
    (refLvl : Option LogLevel) :
    entries.scanl (fun refLvl entry => refLvl.bind (markedStep cat · entry)) refLvl =
        (entries.map (fun entry => entry.2.takeWhile (· ≠ 44))).scanl
          (fun refLvl entry => refLvl.bind (entryStep cat · entry)) refLvl ↔
      AllAlike cat refLvl entries := by
  induction entries generalizing refLvl with
  | nil => simp [AllAlike]
  | cons entry later inductionHypothesis =>
    cases refLvl with
    | none => simp [scanl_out, AllAlike]
    | some refLvl =>
      simp only [AllAlike, Option.mem_some_iff, forall_eq']
      rw [← step_field_iff, ← inductionHypothesis, List.map_cons, List.scanl_cons,
        List.scanl_cons, Option.bind_some, Option.bind_some]
      constructor
      · intro same
        have behind := List.tail_eq_of_cons_eq same
        have level := congrArg List.head? behind
        rw [List.head?_scanl, List.head?_scanl, Option.some_inj] at level
        exact ⟨level, level ▸ behind⟩
      · rintro ⟨level, behind⟩
        rw [level, behind]

/-- Handling items that stops out of range is handling them on an optional level. -/
theorem foldlM_bind {Item : Type} (handle : LogLevel → Item → Option LogLevel)
    (items : List Item) (refLvl : Option LogLevel) :
    items.foldl (fun refLvl item => refLvl.bind (handle · item)) refLvl =
      refLvl.bind (fun refLvl => items.foldlM handle refLvl) := by
  induction items generalizing refLvl with
  | nil => cases refLvl <;> rfl
  | cons item items inductionHypothesis =>
    rw [List.foldl_cons, inductionHypothesis]
    cases refLvl <;> rfl

/-- What the loop leaves of the entries it reads is what it makes of all entries. -/
theorem runEntries_marked (cat : List UInt8) (entries : List (Bool × List UInt8))
    (refLvl : LogLevel) :
    runEntries cat ((entries.filter Prod.fst).map Prod.snd) refLvl =
      entries.foldlM (markedStep cat) refLvl := by
  induction entries generalizing refLvl with
  | nil => rfl
  | cons entry later inductionHypothesis =>
    obtain ⟨read, e⟩ := entry
    cases read with
    | false => exact inductionHypothesis refLvl
    | true =>
      rw [List.foldlM_cons]
      simp only [markedStep, if_true, ← inductionHypothesis]
      rfl

/-- The level of a category is the last of the levels that the loop leaves. -/
theorem logLevel_levels (cat env : List UInt8) (nonempty : env ≠ []) :
    some (logLevel (some env) cat) =
      (levelsRead env cat).getLast?.map (fun refLvl => refLvl.map orDefault) := by
  rw [logLevel_entries cat env nonempty, ← entriesMarked_read, runEntries_marked, levelsRead,
    List.getLast?_scanl, foldlM_bind]
  rfl

/-- The level by the entries is the last of the levels that the fields give. -/
theorem levelByFields_levels (cat env : List UInt8) :
    some (levelByFields env cat) =
      (levelsByFields env cat).getLast?.map (fun refLvl => refLvl.map orDefault) := by
  rw [levelByFields, levelsByFields, List.getLast?_scanl, foldlM_bind]
  rfl

/-- The loop leaves the levels of the value's entries, each handled once, in order
and as a string of its own, exactly when the entries stand apart; and then the level
of a category is the level by the entries. -/
theorem level_by_entries_iff (env cat : List UInt8) :
    ((env ≠ [] ∧ levelsRead env cat = levelsByFields env cat) ↔ EntriesApart cat env) ∧
      (EntriesApart cat env → logLevel (some env) cat = levelByFields env cat) := by
  have levels : (env ≠ [] ∧ levelsRead env cat = levelsByFields env cat) ↔
      EntriesApart cat env := by
    rw [EntriesApart, ← levels_alike_iff, levelsRead, levelsByFields, fields_marked]
  constructor
  · exact levels
  · intro apart
    obtain ⟨nonempty, same⟩ := levels.mpr apart
    have last := logLevel_levels cat env nonempty
    rw [same, ← levelByFields_levels] at last
    exact Option.some.inj last

/-- A global level and a level for a category stand apart. -/
theorem level_by_entries_global_and_category :
    logLevel (some (chars "error,net:debug")) (chars "net") =
      levelByFields (chars "error,net:debug") (chars "net") :=
  (level_by_entries_iff (chars "error,net:debug") (chars "net")).2 (by decide)

/-- A value of one character is not read, and an entry behind two commas is skipped. -/
theorem level_by_entries_fails :
    logLevel (some (chars "1")) (chars "net") ≠ levelByFields (chars "1") (chars "net") ∧
      logLevel (some (chars "error,,net:debug")) (chars "net") ≠
        levelByFields (chars "error,,net:debug") (chars "net") := by
  decide

end Tyndall.Log
