import Mathlib.Data.Nat.Basic
import Mathlib.Data.List.TakeWhile

/-!
# Entries between separators

A text is a sequence of entries with separators between them, and an entry is
seen from its first element on, together with everything that stands behind it.
Two walks over the entries are compared. One sees every entry that is not empty.
The other steps over one separator, looks at what stands there, and then searches
the next separator behind the element it looked at: of two adjacent separators it
takes the second one for the start of an entry and misses what stands behind it.
-/

namespace Tyndall.Separated

variable {Element : Type} [DecidableEq Element] (separator : Element)

/-- The ends of the text that start at the first element of an entry, where
`behind` says that a separator, or nothing, stands in front of the text. -/
def starts : (behind : Bool) → List Element → List (List Element)
  | _, [] => []
  | true, c :: rest =>
      if c = separator then starts true rest else (c :: rest) :: starts false rest
  | false, c :: rest => starts (c = separator) rest

/-- The ends of the text that the other walk sees, where `behind` says that it
has stepped over a separator, and otherwise it is searching one. -/
def walk : (behind : Bool) → List Element → List (List Element)
  | _, [] => []
  | true, c :: rest =>
      if c = separator then walk false rest else (c :: rest) :: walk false rest
  | false, c :: rest => walk (c = separator) rest

/-- The entries that `starts` sees, each with whether the other walk sees it too:
the number of adjacent separators in front of it is odd. Of these separators `run`
stand in front of the text. -/
def marks : (run : Nat) → List Element → List (Bool × List Element)
  | _, [] => []
  | run, c :: rest =>
      if c = separator then marks (run + 1) rest
      else if run = 0 then marks 0 rest
      else (decide (run % 2 = 1), c :: rest) :: marks 0 rest

variable {separator}

/-- The walk stands behind every other one of adjacent separators. -/
theorem walk_separator (behind : Bool) (rest : List Element) :
    walk separator behind (separator :: rest) = walk separator (!behind) rest := by
  cases behind <;> simp [walk]

/-- Behind each separator an entry can start. -/
theorem starts_separator (behind : Bool) (rest : List Element) :
    starts separator behind (separator :: rest) = starts separator true rest := by
  cases behind <;> simp [starts]

/-- An element behind a separator starts an entry that the walk sees. -/
theorem walk_element (behind : Bool) {c : Element} (rest : List Element) (other : c ≠ separator) :
    walk separator behind (c :: rest) =
      (if behind then [c :: rest] else []) ++ walk separator false rest := by
  cases behind <;> simp [walk, other]

/-- An element behind a separator starts an entry. -/
theorem starts_element (behind : Bool) {c : Element} (rest : List Element)
    (other : c ≠ separator) :
    starts separator behind (c :: rest) =
      (if behind then [c :: rest] else []) ++ starts separator false rest := by
  cases behind <;> simp [starts, other]

/-- The walk that is searching sees nothing where no separator is left. -/
theorem walk_nothing {rest : List Element} (none_left : separator ∉ rest) :
    walk separator false rest = [] := by
  induction rest with
  | nil => rfl
  | cons c rest inductionHypothesis =>
    obtain ⟨other, none_left⟩ := List.ne_and_not_mem_of_not_mem_cons none_left
    rw [walk_element false rest (Ne.symm other), inductionHypothesis none_left]
    rfl

/-- The walk that is searching goes on behind the first separator. -/
theorem walk_search {front : List Element} (rest : List Element) (none_before : separator ∉ front) :
    walk separator false (front ++ separator :: rest) = walk separator true rest := by
  induction front with
  | nil => exact walk_separator false rest
  | cons c front inductionHypothesis =>
    obtain ⟨other, none_before⟩ := List.ne_and_not_mem_of_not_mem_cons none_before
    rw [List.cons_append, walk_element false _ (Ne.symm other), inductionHypothesis none_before]
    rfl

/-- A separator makes the run in front of the text longer. -/
theorem marks_separator (run : Nat) (rest : List Element) :
    marks separator run (separator :: rest) = marks separator (run + 1) rest := by
  simp [marks]

/-- An element behind separators starts an entry, and the run begins anew. -/
theorem marks_element (run : Nat) {c : Element} (rest : List Element) (other : c ≠ separator) :
    marks separator run (c :: rest) =
      (if run = 0 then [] else [(decide (run % 2 = 1), c :: rest)]) ++ marks separator 0 rest := by
  by_cases none : run = 0 <;> simp [marks, other, none]

/-- Without their marks the entries are all that start in the text. -/
theorem marks_starts (run : Nat) (text : List Element) :
    (marks separator run text).map Prod.snd = starts separator (0 < run) text := by
  induction text generalizing run with
  | nil => simp [marks, starts]
  | cons c rest inductionHypothesis =>
    by_cases same : c = separator
    · subst same
      have longer := inductionHypothesis (run + 1)
      rw [decide_eq_true (Nat.succ_pos run)] at longer
      rw [marks_separator, starts_separator, longer]
    · have behind : (marks separator 0 rest).map Prod.snd = starts separator false rest :=
        inductionHypothesis 0
      rw [marks_element run rest same, starts_element _ rest same, List.map_append, behind]
      by_cases none : run = 0
      · simp [none]
      · simp [none, Nat.pos_of_ne_zero none]

/-- The marked entries are those that the other walk sees: it steps over every
other one of adjacent separators, and stands behind one after an odd number. -/
theorem marks_walk (run : Nat) (text : List Element) :
    ((marks separator run text).filter Prod.fst).map Prod.snd =
      walk separator (run % 2 = 1) text := by
  induction text generalizing run with
  | nil => simp [marks, walk]
  | cons c rest inductionHypothesis =>
    by_cases same : c = separator
    · subst same
      have parity : (!decide (run % 2 = 1)) = decide ((run + 1) % 2 = 1) := by
        rw [← decide_not, decide_eq_decide]
        omega
      rw [marks_separator, walk_separator, parity, inductionHypothesis (run + 1)]
    · have behind : ((marks separator 0 rest).filter Prod.fst).map Prod.snd =
          walk separator false rest := inductionHypothesis 0
      rw [marks_element run rest same, walk_element _ rest same, List.filter_append,
        List.map_append, behind]
      by_cases none : run = 0
      · simp [none]
      · by_cases odd : run % 2 = 1 <;> simp [none, odd]

/-- The part in front of the first separator and the parts behind it: both walks
over entries see those that are not empty, and the one that starts inside the
first part leaves that part out. -/
theorem splitOn_entries (text : List Element) :
    ∃ later, text.splitOn separator = text.takeWhile (· ≠ separator) :: later ∧
      (starts separator true text).map (fun entry => entry.takeWhile (· ≠ separator)) =
        (text.takeWhile (· ≠ separator) :: later).filter (· ≠ []) ∧
      (starts separator false text).map (fun entry => entry.takeWhile (· ≠ separator)) =
        later.filter (· ≠ []) := by
  induction text with
  | nil => exact ⟨[], by simp, by simp [starts], by simp [starts]⟩
  | cons c rest inductionHypothesis =>
    obtain ⟨later, split, behind, inside⟩ := inductionHypothesis
    by_cases same : c = separator
    · subst same
      refine ⟨rest.splitOn c, by simp [List.splitOn_cons_eq_if_modifyHead], ?_, ?_⟩
      · rw [starts_separator, behind, split]
        simp
      · rw [starts_separator, behind, split]
    · refine ⟨later, ?_, ?_, ?_⟩
      · simp [List.splitOn_cons_eq_if_modifyHead, same, split]
      · simpa [starts_element _ _ same, same] using inside
      · simpa [starts_element _ _ same] using inside

/-- The entries that are seen are the parts of the text between the separators
that are not empty. -/
theorem starts_entries (text : List Element) :
    (starts separator true text).map (fun entry => entry.takeWhile (· ≠ separator)) =
      (text.splitOn separator).filter (· ≠ []) := by
  obtain ⟨later, split, behind, _⟩ := @splitOn_entries Element _ separator text
  rw [behind, split]

end Tyndall.Separated
