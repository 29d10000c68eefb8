import Mathlib.Data.List.TakeWhile

/-!
# Parts that occur in order

A sequence of parts occurs in a text when each part stands somewhere behind the
part before it. Taking the first place for the first part leaves the most text
for the others, so a search that never looks back misses nothing. A search that
tries only the places in front of an element, and never the end of the text,
misses the occurrences that need an empty last part at the very end.
-/

namespace Tyndall.Parts

variable {Element : Type}

/-- The parts occur in the text in order and without overlap. An empty part
occurs at every place, the end of the text included. -/
def InOrder : List (List Element) → List Element → Prop
  | [], _ => True
  | part :: parts, text =>
      ∃ before after, text = before ++ part ++ after ∧ InOrder parts after

/-- The parts occur in order, each of them at the place of some element. -/
def Inside : List (List Element) → List Element → Prop
  | [], _ => True
  | part :: parts, text =>
      ∃ before after, text = before ++ part ++ after ∧ part ++ after ≠ [] ∧ Inside parts after

/-- A part stands at its first place, which is the place of some element. -/
structure First (part before after : List Element) : Prop where
  nonempty : part ++ after ≠ []
  first : ∀ earlier later, before ++ part ++ after = earlier ++ part ++ later →
    before.length ≤ earlier.length

/-- A search that goes on after a part it did not find, as if the part stood at the
start of what is left, never starts beyond the end of the text. Where the last
part ends does not matter. -/
def StaysWithin : List (List Element) → List Element → Prop
  | [], _ => True
  | [_], _ => True
  | part :: next :: parts, text =>
      (∃ before after, text = before ++ part ++ after ∧ First part before after ∧
        StaysWithin (next :: parts) after) ∨
      ((∀ before after, text = before ++ part ++ after → part ++ after = []) ∧
        ∃ missed after, text = missed ++ after ∧ missed.length = part.length ∧
          StaysWithin (next :: parts) after)

/-- What occurs inside the end of a text occurs inside the text. -/
theorem Inside.extend {parts : List (List Element)} {text : List Element}
    (occurs : Inside parts text) (front : List Element) : Inside parts (front ++ text) := by
  cases parts with
  | nil => trivial
  | cons part parts =>
    obtain ⟨before, after, split, nonempty, rest⟩ := occurs
    exact ⟨front ++ before, after, by simp [split], nonempty, rest⟩

/-- Behind the first place of a part stands everything that stands behind any
other place of it. -/
theorem First.leaves_most {part before after earlier later : List Element}
    (first : First part before after)
    (other : before ++ part ++ after = earlier ++ part ++ later) :
    ∃ front, after = front ++ later := by
  have shorter := first.first earlier later other
  have later_suffix : later <:+ before ++ part ++ after := ⟨earlier ++ part, other.symm⟩
  have after_suffix : after <:+ before ++ part ++ after := ⟨before ++ part, rfl⟩
  have lengths := congrArg List.length other
  simp only [List.length_append] at lengths
  obtain ⟨front, split⟩ :=
    List.suffix_of_suffix_length_le later_suffix after_suffix (by omega)
  exact ⟨front, split.symm⟩

/-- A part has one first place. -/
theorem First.unique {part before after earlier later : List Element}
    (first : First part before after) (other : First part earlier later)
    (same : before ++ part ++ after = earlier ++ part ++ later) : after = later := by
  have no_later := first.first earlier later same
  have no_earlier := other.first before after same.symm
  have parts : before ++ part = earlier ++ part ∧ after = later := by
    apply List.append_inj same
    simp only [List.length_append]
    omega
  exact parts.2

/-- Placing the first part first misses nothing: the parts occur inside the text
exactly when the others occur inside what is left behind its first place. -/
theorem First.greedy {part before after : List Element} (parts : List (List Element))
    (first : First part before after) :
    Inside (part :: parts) (before ++ part ++ after) ↔ Inside parts after := by
  constructor
  · rintro ⟨earlier, later, other, _, rest⟩
    obtain ⟨front, split⟩ := first.leaves_most other
    rw [split]
    exact rest.extend front
  · intro rest
    exact ⟨before, after, rfl, first.nonempty, rest⟩

/-- What occurs inside a text occurs in it. -/
theorem Inside.inOrder {parts : List (List Element)} {text : List Element}
    (occurs : Inside parts text) : InOrder parts text := by
  induction parts generalizing text with
  | nil => trivial
  | cons part parts inductionHypothesis =>
    obtain ⟨before, after, split, _, rest⟩ := occurs
    exact ⟨before, after, split, inductionHypothesis rest⟩

/-- At least one part occurs inside a text only when the text has an element. -/
theorem Inside.text_ne_nil {parts : List (List Element)} {text : List Element}
    (occurs : Inside parts text) (some_part : parts ≠ []) : text ≠ [] := by
  cases parts with
  | nil => contradiction
  | cons part parts =>
    obtain ⟨before, after, rfl, nonempty, _⟩ := occurs
    simpa [List.append_assoc] using fun _ => nonempty

/-- A last part that is not empty keeps every part away from the end. -/
theorem inside_of_last (parts : List (List Element)) (last text : List Element)
    (nonempty : last ≠ []) (occurs : InOrder (parts ++ [last]) text) :
    Inside (parts ++ [last]) text := by
  have ends_inside : ∀ (parts : List (List Element)) (text : List Element),
      InOrder (parts ++ [last]) text → text ≠ [] := by
    intro parts
    induction parts with
    | nil =>
      rintro text ⟨before, after, rfl, _⟩
      simp [nonempty]
    | cons part parts inductionHypothesis =>
      rintro text ⟨before, after, rfl, rest⟩
      simp [inductionHypothesis after rest]
  induction parts generalizing text with
  | nil =>
    obtain ⟨before, after, split, _⟩ := occurs
    exact ⟨before, after, split, by simp [nonempty], trivial⟩
  | cons part parts inductionHypothesis =>
    obtain ⟨before, after, split, rest⟩ := occurs
    have behind : after ≠ [] := ends_inside parts after rest
    exact ⟨before, after, split, by simp [behind], inductionHypothesis after rest⟩

/-- With an empty last part the parts occur inside a text exactly when they
occur in it without its last element. -/
theorem inside_snoc_nil (parts : List (List Element)) (text : List Element) (element : Element) :
    Inside (parts ++ [[]]) (text ++ [element]) ↔ InOrder (parts ++ [[]]) text := by
  induction parts generalizing text with
  | nil =>
    constructor
    · intro _
      exact ⟨text, [], by simp, trivial⟩
    · intro _
      exact ⟨[], text ++ [element], by simp, by simp, trivial⟩
  | cons part parts inductionHypothesis =>
    constructor
    · rintro ⟨before, after, split, _, rest⟩
      have behind : after ≠ [] := rest.text_ne_nil (by simp)
      obtain ⟨shorter, last, rfl⟩ := (List.eq_nil_or_concat after).resolve_left behind
      rw [List.concat_eq_append, ← List.append_assoc] at split
      obtain ⟨rfl, same⟩ := List.append_inj' split rfl
      obtain rfl : element = last := List.singleton_inj.mp same
      rw [List.concat_eq_append] at rest
      exact ⟨before, shorter, rfl, (inductionHypothesis shorter).mp rest⟩
    · rintro ⟨before, after, rfl, rest⟩
      exact ⟨before, after ++ [element], by simp, by simp,
        (inductionHypothesis after).mpr rest⟩

end Tyndall.Parts
