import Mathlib.Data.List.Basic

/-!
# Texts with escaped characters

Format strings have special characters. A special character that is doubled
stands for one of its kind, and every other use of it asks for something that is
not in the text. Reading a text without anything to insert therefore yields a
text that is shorter by each doubled character, or nothing.
-/

namespace Tyndall.Escapes

variable {Element : Type} [DecidableEq Element] (special : Element → Bool)

/-- Read a text into which nothing can be inserted. -/
def unescape : List Element → Option (List Element)
  | [] => some []
  | [c] => if special c then none else some [c]
  | c :: d :: rest =>
      if special c then
        if d = c then (unescape rest).map (c :: ·) else none
      else (unescape (d :: rest)).map (c :: ·)

/-- A text without special characters is read as it is. -/
theorem unescape_plain (text : List Element) (plain : ∀ c ∈ text, special c = false) :
    unescape special text = some text := by
  induction text with
  | nil => rfl
  | cons c rest inductionHypothesis =>
    obtain ⟨here, later⟩ := List.forall_mem_cons.mp plain
    cases rest with
    | nil => simp [unescape, here]
    | cons d rest => simp [unescape, here, inductionHypothesis later]

/-- What is read has no other characters than the text, and no more. -/
theorem unescape_shape {text read : List Element} (found : unescape special text = some read) :
    (∀ c ∈ read, c ∈ text) ∧ read.length ≤ text.length ∧
      (read.length = text.length → ∀ c ∈ text, special c = false) := by
  induction text using unescape.induct special generalizing read with
  | case1 =>
    obtain rfl : [] = read := by simpa [unescape] using found
    simp
  | case2 c is_special => simp [unescape, is_special] at found
  | case3 c is_plain =>
    obtain rfl : [c] = read := by simpa [unescape, is_plain] using found
    simpa using is_plain
  | case4 d rest is_special inductionHypothesis =>
    rw [unescape, if_pos is_special, if_pos rfl, Option.map_eq_some_iff] at found
    obtain ⟨shorter, found, rfl⟩ := found
    obtain ⟨within, length, _⟩ := inductionHypothesis found
    refine ⟨?_, ?_, ?_⟩
    · intro c member
      rcases List.mem_cons.mp member with rfl | member
      · simp
      · simp [within c member]
    · simp only [List.length_cons]
      omega
    · intro same
      simp only [List.length_cons] at same
      omega
  | case5 c d rest is_special different => simp [unescape, is_special, different] at found
  | case6 c d rest is_plain inductionHypothesis =>
    rw [unescape, if_neg is_plain, Option.map_eq_some_iff] at found
    obtain ⟨shorter, found, rfl⟩ := found
    obtain ⟨within, length, plain⟩ := inductionHypothesis found
    refine ⟨?_, ?_, ?_⟩
    · intro e member
      rcases List.mem_cons.mp member with rfl | member
      · simp
      · exact List.mem_cons_of_mem c (within e member)
    · exact Nat.succ_le_succ length
    · intro same
      exact List.forall_mem_cons.mpr ⟨by simpa using is_plain, plain (Nat.succ.inj same)⟩

end Tyndall.Escapes
