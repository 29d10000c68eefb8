import Mathlib.Data.List.TakeWhile
import Mathlib.InformationTheory.Coding.UniquelyDecodable

/-!
# Texts that can be told from what follows them

A set of words is delimited when the start of a text decides which of them it
begins with, if any. Words whose first letter tells their length are delimited, and
so are words that end at the first letter of another kind. A sequence of delimited
words is determined by its text.
-/

namespace Tyndall.PrefixCode

open InformationTheory

variable {Letter Symbol : Type}

/-- No word starts a text that another one starts. -/
def Delimited (words : Set (List Letter)) : Prop :=
  ∀ first ∈ words, ∀ second ∈ words, ∀ rest other, first ++ rest = second ++ other → first = second

/-- Words whose length is told by their first letter. -/
theorem delimited_head {words : Set (List Letter)} (size : Letter → Nat)
    (length : ∀ word ∈ words, ∃ head tail, word = head :: tail ∧ word.length = size head) :
    Delimited words := by
  intro first inside second insideOther rest other same
  obtain ⟨head, tail, rfl, long⟩ := length first inside
  obtain ⟨headOther, tailOther, rfl, longOther⟩ := length second insideOther
  obtain ⟨rfl, -⟩ := List.cons.inj same
  exact (List.append_inj same (long.trans longOther.symm)).1

/-- A text of letters of a kind that ends in a fixed text, which starts with another. -/
theorem delimited_stop (kind : Letter → Bool) (stop : Letter) (tail : List Letter)
    (stops : kind stop = false) :
    Delimited {word | ∃ body : List Letter, body.all kind = true ∧ word = body ++ stop :: tail} := by
  have body : ∀ (body : List Letter) (rest : List Letter), body.all kind = true →
      ((body ++ stop :: tail) ++ rest).takeWhile kind = body := by
    intro body rest all
    rw [List.append_assoc, List.takeWhile_append_of_pos (by simpa using all), List.cons_append,
      List.takeWhile_cons_of_neg (by simp [stops]), List.append_nil]
  rintro first ⟨text, all, rfl⟩ second ⟨textOther, allOther, rfl⟩ rest other same
  rw [← body text rest all, same, body textOther other allOther]

/-- Of two texts with delimited words at the places of one pattern, the start of a text
decides every word. -/
theorem flatMap_determined (pattern : List Symbol) (words : Symbol → Set (List Letter))
    (delimited : ∀ symbol ∈ pattern, Delimited (words symbol)) (word wordOther : Symbol → List Letter)
    (inside : ∀ symbol ∈ pattern, word symbol ∈ words symbol)
    (insideOther : ∀ symbol ∈ pattern, wordOther symbol ∈ words symbol) (rest other : List Letter)
    (same : pattern.flatMap word ++ rest = pattern.flatMap wordOther ++ other) :
    ∀ symbol ∈ pattern, word symbol = wordOther symbol := by
  induction pattern with
  | nil => simp
  | cons first pattern inductionHypothesis =>
    rw [List.flatMap_cons, List.flatMap_cons, List.append_assoc, List.append_assoc] at same
    rw [List.forall_mem_cons] at delimited inside insideOther ⊢
    have here : word first = wordOther first :=
      delimited.1 _ inside.1 _ insideOther.1 _ _ same
    rw [here] at same
    exact ⟨here, inductionHypothesis delimited.2 inside.2 insideOther.2
      (List.append_cancel_left same)⟩

/-- A sequence of delimited words is determined by its text. -/
theorem Delimited.uniquelyDecodable {words : Set (List Letter)} (delimited : Delimited words)
    (nonempty : [] ∉ words) : UniquelyDecodable words := by
  intro first
  induction first with
  | nil =>
    intro second _ inside same
    cases second with
    | nil => rfl
    | cons word rest =>
      obtain ⟨rfl, -⟩ := List.append_eq_nil_iff.mp same.symm
      exact absurd (inside [] List.mem_cons_self) nonempty
  | cons word rest inductionHypothesis =>
    intro second inside insideOther same
    cases second with
    | nil =>
      obtain ⟨rfl, -⟩ := List.append_eq_nil_iff.mp same
      exact absurd (inside [] List.mem_cons_self) nonempty
    | cons wordOther restOther =>
      obtain rfl := delimited word (inside word List.mem_cons_self) wordOther
        (insideOther wordOther List.mem_cons_self) _ _ same
      have behind : rest.flatten = restOther.flatten := List.append_cancel_left same
      rw [inductionHypothesis restOther (fun other member => inside other (.tail _ member))
        (fun other member => insideOther other (.tail _ member)) behind]

end Tyndall.PrefixCode
