import Mathlib.Data.List.TakeWhile

/-!
# Longest runs in a sequence

Some elements of a sequence are marked, and neighbours that are marked belong
together. A sequence is read as its longest runs of marked elements and its other
elements, and statements about sequences are proved one such piece at a time.
-/

namespace Tyndall.LongestRuns

variable {Element : Type} (marked : Element → Bool)

/-- A longest run of marked elements, or another element. -/
inductive Piece (Element : Type) where
  | run (elements : List Element)
  | single (element : Element)
deriving DecidableEq, Repr

/-- A marked element in front of pieces: it belongs to a run that starts there. -/
def joinRun (element : Element) : List (Piece Element) → List (Piece Element)
  | .run elements :: rest => .run (element :: elements) :: rest
  | rest => .run [element] :: rest

/-- The pieces of a sequence. -/
def pieces : List Element → List (Piece Element)
  | [] => []
  | element :: rest =>
      if marked element then joinRun element (pieces rest) else .single element :: pieces rest

variable {marked}

/-- An element that is not marked is a piece of its own. -/
theorem pieces_single {element : Element} (rest : List Element)
    (unmarked : marked element = false) :
    pieces marked (element :: rest) = .single element :: pieces marked rest := by
  rw [pieces, if_neg (by simp [unmarked])]

/-- A sequence that does not start with a marked element does not start with a run. -/
theorem pieces_no_run {rest : List Element}
    (stops : ∀ element ∈ rest.head?, marked element = false) (run : List Element)
    (behind : List (Piece Element)) : pieces marked rest ≠ .run run :: behind := by
  cases rest with
  | nil => simp [pieces]
  | cons element rest =>
    rw [pieces_single rest (stops element rfl)]
    simp

/-- Marked elements in front of another one are one piece. -/
theorem pieces_run {run rest : List Element} (some_element : run ≠ [])
    (all : ∀ element ∈ run, marked element = true)
    (stops : ∀ element ∈ rest.head?, marked element = false) :
    pieces marked (run ++ rest) = .run run :: pieces marked rest := by
  induction run with
  | nil => contradiction
  | cons element run inductionHypothesis =>
    obtain ⟨here, later⟩ := List.forall_mem_cons.mp all
    rw [List.cons_append, pieces, if_pos here]
    by_cases last : run = []
    · rw [last, List.nil_append]
      cases starts : pieces marked rest with
      | nil => rfl
      | cons first behind =>
        cases first with
        | run longer => exact absurd starts (pieces_no_run stops longer behind)
        | single other => rfl
    · rw [inductionHypothesis last later, joinRun]

/-- Taking marked elements takes the run in front. -/
theorem takeWhile_run {run rest : List Element} (all : ∀ element ∈ run, marked element = true)
    (stops : ∀ element ∈ rest.head?, marked element = false) :
    (run ++ rest).takeWhile marked = run := by
  rw [List.takeWhile_append_of_pos all]
  cases rest with
  | nil => simp
  | cons element rest => simp [stops element rfl]

/-- Dropping marked elements drops the run in front. -/
theorem dropWhile_run {run rest : List Element} (all : ∀ element ∈ run, marked element = true)
    (stops : ∀ element ∈ rest.head?, marked element = false) :
    (run ++ rest).dropWhile marked = rest := by
  rw [List.dropWhile_append_of_pos all]
  cases rest with
  | nil => rfl
  | cons element rest => simp [stops element rfl]

variable (marked) in
/-- Induction over a sequence, piece by piece: what stands behind a run does not
start with a marked element. -/
@[elab_as_elim]
theorem pieces_induction {motive : List Element → Prop} (nil : motive [])
    (run : ∀ run rest, run ≠ [] → (∀ element ∈ run, marked element = true) →
      (∀ element ∈ rest.head?, marked element = false) → motive rest → motive (run ++ rest))
    (single : ∀ element rest, marked element = false → motive rest → motive (element :: rest))
    (sequence : List Element) : motive sequence := by
  induction length : sequence.length using Nat.strongRecOn generalizing sequence with
  | ind n inductionHypothesis =>
    subst length
    cases sequence with
    | nil => exact nil
    | cons element rest =>
      cases here : marked element with
      | false => exact single element rest here (inductionHypothesis rest.length (by simp) rest rfl)
      | true =>
        have split := List.takeWhile_append_dropWhile (p := marked) (l := element :: rest)
        have some_element : (element :: rest).takeWhile marked ≠ [] := by simp [here]
        have shorter : ((element :: rest).dropWhile marked).length < (element :: rest).length := by
          have positive := List.length_pos_iff.mpr some_element
          have lengths := congrArg List.length split
          rw [List.length_append] at lengths
          omega
        rw [← split]
        apply run _ _ some_element
        · exact fun other member => List.mem_takeWhile_imp member
        · intro other first
          have stops := List.head?_dropWhile_not marked (element :: rest)
          rw [Option.mem_def.mp first] at stops
          simpa using stops
        · exact inductionHypothesis _ shorter _ rfl

end Tyndall.LongestRuns
