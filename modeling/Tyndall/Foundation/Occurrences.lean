import Mathlib.Data.List.DropRight

/-!
# First and last occurrences in a sequence

What stands in a sequence before the first element that meets a condition, and
what stands before the last one. Extending the sequence at its end moves neither
border unless the new element is the first, or the new last, of its kind.
-/

namespace Tyndall.Occurrences

variable {Element : Type} (marked : Element → Bool)

/-- The elements before the first marked one, or all elements. -/
def beforeFirst (elements : List Element) : List Element :=
  elements.takeWhile (fun element => !marked element)

/-- The elements before the last marked one, or none. -/
def beforeLast (elements : List Element) : List Element :=
  (elements.rdropWhile (fun element => !marked element)).dropLast

/-- Without a marked element all elements stand before the first one. -/
theorem beforeFirst_none (elements : List Element)
    (none_marked : ∀ element ∈ elements, marked element = false) :
    beforeFirst marked elements = elements := by
  rw [beforeFirst, List.takeWhile_eq_self_iff]
  intro element member
  simp [none_marked element member]

/-- Behind a marked element nothing changes what stands before the first one. -/
theorem beforeFirst_append (elements rest : List Element)
    (some_marked : ∃ element ∈ elements, marked element = true) :
    beforeFirst marked (elements ++ rest) = beforeFirst marked elements := by
  obtain ⟨element, member, holds⟩ := some_marked
  rw [beforeFirst, List.takeWhile_append, if_neg]
  · rfl
  · intro whole
    have all := List.takeWhile_eq_self_iff.mp
      ((List.takeWhile_prefix _).eq_of_length whole)
    simpa [holds] using all element member

/-- Up to a marked element nothing behind it changes what stands before the first one. -/
theorem beforeFirst_split (elements rest : List Element) (element : Element)
    (holds : marked element = true) :
    beforeFirst marked (elements ++ element :: rest) = beforeFirst marked elements := by
  by_cases earlier : ∃ other ∈ elements, marked other = true
  · exact beforeFirst_append marked elements _ earlier
  · have none_marked : ∀ other ∈ elements, marked other = false := by
      simpa using earlier
    rw [beforeFirst_none marked elements none_marked, beforeFirst, List.takeWhile_append_of_pos]
    · simp [holds]
    · simpa using none_marked

@[simp] theorem beforeLast_nil : beforeLast marked [] = [] := by simp [beforeLast]

/-- A new marked element has everything before it. -/
theorem beforeLast_snoc (elements : List Element) (element : Element) :
    beforeLast marked (elements ++ [element]) =
      if marked element then elements else beforeLast marked elements := by
  rw [beforeLast, List.rdropWhile_concat]
  cases marked element <;> simp [beforeLast]

/-- What stands before the last marked element starts the sequence. -/
theorem beforeLast_prefix (elements : List Element) :
    ∃ rest, elements = beforeLast marked elements ++ rest := by
  obtain ⟨rest, split⟩ := (List.dropLast_prefix _).trans
    (List.rdropWhile_prefix (fun element => !marked element) (l := elements))
  exact ⟨rest, split.symm⟩

/-- A split of a sequence with one more element at its end is a split of the
sequence before, or splits off just that element. -/
theorem snoc_split {elements before after : List Element} {element newest : Element}
    (split : elements ++ [newest] = before ++ element :: after) :
    (before = elements ∧ element = newest ∧ after = []) ∨
      ∃ rest, elements = before ++ element :: rest := by
  rcases List.eq_nil_or_concat after with rfl | ⟨rest, last, rfl⟩
  · obtain ⟨same, last⟩ := List.append_inj' split rfl
    exact Or.inl ⟨same.symm, (List.singleton_inj.mp last).symm, rfl⟩
  · have longer : elements ++ [newest] = (before ++ element :: rest) ++ [last] := by
      rw [split]
      simp
    exact Or.inr ⟨rest, (List.append_inj' longer rfl).1⟩

/-- What follows the last separator is determined, and so is what stands before it. -/
theorem last_separator_split {separator : Element} {first second tail other : List Element}
    (fresh : separator ∉ tail) (freshOther : separator ∉ other)
    (same : first ++ separator :: tail = second ++ separator :: other) :
    first = second ∧ tail = other := by
  rcases List.append_eq_append_iff.mp same with ⟨middle, rfl, later⟩ | ⟨middle, rfl, later⟩
  · cases middle with
    | nil => exact ⟨by simp, (List.cons.inj later).2⟩
    | cons head rest =>
      obtain ⟨rfl, rfl⟩ := List.cons.inj later
      exact absurd (by simp) fresh
  · cases middle with
    | nil => exact ⟨by simp, (List.cons.inj later).2.symm⟩
    | cons head rest =>
      obtain ⟨rfl, rfl⟩ := List.cons.inj later
      exact absurd (by simp) freshOther

end Tyndall.Occurrences
