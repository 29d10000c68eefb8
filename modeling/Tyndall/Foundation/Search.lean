import Mathlib.Algebra.Order.Ring.Nat
import Mathlib.Data.Nat.Log

/-!
# Searches along a sequence of numbers

A search tries one number after the other, each computed from the one before,
until one is accepted. Two sequences are of use where exactly the numbers up to
some greatest one are accepted: going down by one finds the greatest one from
any number above it, and halving finds from there a number that is at most the
greatest one and no less than about half of it, in few steps.
-/

namespace Tyndall.Search

variable (accepts : Nat → Bool)

/-- The first number that is accepted, as far as the fuel allows. -/
def search (next : Nat → Nat) : Nat → Nat → Option Nat
  | 0, _ => none
  | fuel + 1, number => if accepts number then some number else search next fuel (next number)

variable {accepts} {greatest : Nat}

/-- A number that is accepted ends the search. -/
theorem search_accepted (next : Nat → Nat) (fuel : Nat) {number : Nat}
    (accepted : accepts number = true) : search accepts next (fuel + 1) number = some number := by
  rw [search, if_pos accepted]

/-- A number that is rejected is passed over. -/
theorem search_rejected (next : Nat → Nat) (fuel : Nat) {number : Nat}
    (rejected : ¬ accepts number = true) :
    search accepts next (fuel + 1) number = search accepts next fuel (next number) := by
  rw [search, if_neg rejected]

/-- What is found is accepted, and no greater than the start if the numbers do not grow. -/
theorem search_found {next : Nat → Nat} (shrinks : ∀ number, next number ≤ number)
    {fuel number found : Nat} (ends : search accepts next fuel number = some found) :
    accepts found = true ∧ found ≤ number := by
  induction fuel generalizing number with
  | zero => contradiction
  | succ fuel inductionHypothesis =>
    by_cases accepted : accepts number = true
    · rw [search_accepted next fuel accepted] at ends
      obtain rfl := Option.some.inj ends
      exact ⟨accepted, Nat.le_refl _⟩
    · rw [search_rejected next fuel accepted] at ends
      obtain ⟨good, below⟩ := inductionHypothesis ends
      exact ⟨good, below.trans (shrinks number)⟩

/-- Going down by one finds the greatest number that is accepted, or the start if that
is below it. -/
theorem search_down (accepted : ∀ number, accepts number = true ↔ number ≤ greatest)
    {next : Nat → Nat} {fuel number : Nat} (enough : number ≤ greatest + fuel)
    (down : ∀ k, greatest < k → k ≤ number → next k = k - 1) :
    search accepts next (fuel + 1) number = some (min number greatest) := by
  induction fuel generalizing number with
  | zero =>
    have here : number ≤ greatest := enough
    rw [search_accepted next 0 ((accepted number).mpr here), Nat.min_eq_left here]
  | succ fuel inductionHypothesis =>
    by_cases here : number ≤ greatest
    · rw [search_accepted next _ ((accepted number).mpr here), Nat.min_eq_left here]
    · have rejected : ¬ accepts number = true := fun good => here ((accepted number).mp good)
      have smaller : min (number - 1) greatest = min number greatest := by omega
      rw [search_rejected next _ rejected, down number (by omega) (Nat.le_refl _), ← smaller]
      apply inductionHypothesis
      · omega
      · exact fun k above below => down k above (by omega)

/-- Halving finds an accepted number whose double, plus one, is not below the
greatest one: the number that was rejected before is at most that, and above the
greatest one. -/
theorem search_halves (accepted : ∀ number, accepts number = true ↔ number ≤ greatest)
    {fuel number : Nat} (above : greatest ≤ number) (enough : number < 2 ^ fuel) :
    ∃ found, search accepts (· / 2) (fuel + 1) number = some found ∧
      found ≤ greatest ∧ greatest ≤ found * 2 + 1 := by
  induction fuel generalizing number with
  | zero =>
    obtain rfl : number = 0 := by simpa using enough
    refine ⟨0, search_accepted _ 0 ((accepted 0).mpr (Nat.zero_le _)), Nat.zero_le _, ?_⟩
    omega
  | succ fuel inductionHypothesis =>
    by_cases here : number ≤ greatest
    · exact ⟨number, search_accepted _ _ ((accepted number).mpr here), here, by omega⟩
    · rw [search_rejected _ _ (fun good => here ((accepted number).mp good))]
      by_cases passed : greatest ≤ number / 2
      · rw [Nat.pow_succ] at enough
        exact inductionHypothesis passed (by omega)
      · have half : number / 2 ≤ greatest := by omega
        exact ⟨number / 2, search_accepted _ _ ((accepted _).mpr half), half, by omega⟩

end Tyndall.Search
