import Tyndall.Foundation.CString
import Tyndall.Foundation.Parts
import Tyndall.Meta.Hash

/-!
# Matching a category against a glob pattern

The pattern is the text before the colon of a `LOG_LEVEL` entry, so it ends at a
length and not at a terminator. Its parts between the stars are searched one
after the other, each from where the part before it ended. A part that is not
found does not end the loop: the place in the category still advances by the
part's length, and only the result is lost.

The search stops at the category's terminator before it compares. An empty part
therefore needs a character to stand at, which the end of the category is not.
-/

namespace Tyndall.Log

open Tyndall.CString Tyndall.Parts
open Tyndall.Meta (chars)

/-- The inner loop of `log_glob_match`: the distance to the first place before
the terminator at which `len` characters of the pattern stand. -/
def globSearch (part : List UInt8) (len : Nat) : List UInt8 → Option Nat
  | [] => none
  | c :: s =>
      if strncmp (c :: s) part len = 0 then some 0
      else (globSearch part len s).map (· + 1)

/-- The end of the part that starts at `patStart`: the next star, but no further
than the end of the pattern. -/
def globPartEnd (part : List UInt8) (patStart n : Nat) : Nat :=
  match strchr part 42 with
  | some star => if n < patStart + star then n else patStart + star
  | none => n

/-- The outer loop of `log_glob_match`, as many rounds as the fuel allows. The
result is `none` when a read is out of range. -/
def globLoop (pat str : List UInt8) (n : Nat) : Nat → Nat → Nat → Bool → Option Bool
  | 0, _, _, _ => none
  | fuel + 1, patStart, strIndex, ret => do
      let part ← advance pat patStart
      let patEnd := globPartEnd part patStart n
      let s ← advance str strIndex
      let found := globSearch part (patEnd - patStart) s
      let ret := ret && found.isSome
      let strIndex := strIndex + found.getD 0 + (patEnd - patStart)
      if (← charAt pat patEnd) = some 42 then
        globLoop pat str n fuel (patEnd + 1) strIndex ret
      else some ret

/-- `log_glob_match`. Each round but the last passes a star of the pattern. -/
def logGlobMatch (pat str : List UInt8) (n : Nat) : Option Bool :=
  globLoop pat str n (n + 1) 0 0 true

/-- The parts of a pattern: what stands between its stars. -/
def globParts (pattern : List UInt8) : List (List UInt8) := pattern.splitOn 42

/-- The rounds of the loop on the parts of the pattern: the place in the category
is what is left of it, and a round beyond its end is out of range. -/
def matchParts : List (List UInt8) → List UInt8 → Bool → Option Bool
  | [], _, ret => some ret
  | [part], s, ret => some (ret && (globSearch part part.length s).isSome)
  | part :: next :: parts, s, ret => do
      let found := globSearch part part.length s
      let s ← advance s (found.getD 0 + part.length)
      matchParts (next :: parts) s (ret && found.isSome)

/-- The search looks at as many characters of the pattern as the part has. -/
theorem globSearch_part (part rest s : List UInt8) :
    globSearch (part ++ rest) part.length s = globSearch part part.length s := by
  induction s with
  | nil => rfl
  | cons c s inductionHypothesis =>
    simp only [globSearch, strncmp_front, strncmp_whole, inductionHypothesis]

/-- A pattern without a star is one part. -/
theorem globParts_single (part : List UInt8) (no_star : 42 ∉ part) : globParts part = [part] := by
  rw [globParts, List.splitOn_eq_singleton no_star]

/-- The first star ends the first part. -/
theorem globParts_star (part rest : List UInt8) (no_star : 42 ∉ part) :
    globParts (part ++ 42 :: rest) = part :: globParts rest := by
  rw [globParts, List.splitOn_append_cons_self_of_not_mem no_star, globParts]

/-- A pattern has a part. -/
theorem globParts_ne_nil (pattern : List UInt8) : globParts pattern ≠ [] :=
  List.splitOn_ne_nil 42 pattern

/-- A star inside the pattern ends the part. -/
theorem globPartEnd_star (part rest : List UInt8) (patStart n : Nat) (no_star : 42 ∉ part)
    (inside : patStart + part.length ≤ n) :
    globPartEnd (part ++ 42 :: rest) patStart n = patStart + part.length := by
  rw [globPartEnd, strchr_append part rest 42 no_star]
  exact if_neg (Nat.not_lt.mpr inside)

/-- A part without a star ends with the pattern, whatever stars stand behind it. -/
theorem globPartEnd_last (part rest : List UInt8) (patStart : Nat) (no_star : 42 ∉ part) :
    globPartEnd (part ++ rest) patStart (patStart + part.length) = patStart + part.length := by
  cases found : strchr (part ++ rest) 42 with
  | none => simp [globPartEnd, found]
  | some star =>
    obtain ⟨before, after, split, position, absent⟩ := strchr_split found
    have behind : part.length ≤ star := by
      by_contra within
      apply no_star
      have prefixed : before ++ [42] <+: part := by
        have whole : before ++ [42] <+: part ++ rest := ⟨after, by simp [split]⟩
        apply List.prefix_of_prefix_length_le whole (List.prefix_append part rest)
        simp only [List.length_append, List.length_singleton]
        omega
      obtain ⟨other, same⟩ := prefixed
      rw [← same]
      simp
    simp only [globPartEnd, found]
    split <;> omega

/-- A round with parts behind it moves over its own part. -/
theorem matchParts_cons (part : List UInt8) (parts : List (List UInt8)) (s : List UInt8)
    (ret : Bool) (more : parts ≠ []) :
    matchParts (part :: parts) s ret =
      (advance s ((globSearch part part.length s).getD 0 + part.length)).bind
        (fun behind =>
          matchParts parts behind (ret && (globSearch part part.length s).isSome)) := by
  cases parts with
  | nil => contradiction
  | cons next parts => rfl

/-- A round that ends at a star goes on behind it. -/
theorem globLoop_star (done part after str : List UInt8) (n fuel strIndex : Nat) (ret : Bool)
    (no_star : 42 ∉ part) (inside : done.length + part.length ≤ n) :
    globLoop (done ++ part ++ 42 :: after) str n (fuel + 1) done.length strIndex ret =
      (advance str strIndex).bind (fun s =>
        globLoop (done ++ part ++ 42 :: after) str n fuel (done.length + part.length + 1)
          (strIndex + (globSearch part part.length s).getD 0 + part.length)
          (ret && (globSearch part part.length s).isSome)) := by
  have start : advance (done ++ part ++ 42 :: after) done.length = some (part ++ 42 :: after) := by
    rw [List.append_assoc, advance_append]
  have at_star : charAt (done ++ part ++ 42 :: after) (done.length + part.length) =
      some (some 42) := by
    rw [← List.length_append, charAt_append, List.head?_cons]
  rw [globLoop, start]
  simp only [Option.bind_eq_bind, Option.bind_some, at_star, if_true, Nat.add_sub_cancel_left,
    globPartEnd_star part after done.length n no_star inside, globSearch_part]

/-- A round that ends at the end of the pattern is the last one. -/
theorem globLoop_last (done part rest str : List UInt8) (fuel strIndex : Nat) (ret : Bool)
    (no_star : 42 ∉ part) (ends : rest.head? ≠ some 42) :
    globLoop (done ++ part ++ rest) str (done.length + part.length) (fuel + 1) done.length
        strIndex ret =
      (advance str strIndex).bind (fun s =>
        some (ret && (globSearch part part.length s).isSome)) := by
  have start : advance (done ++ part ++ rest) done.length = some (part ++ rest) := by
    rw [List.append_assoc, advance_append]
  have at_end : charAt (done ++ part ++ rest) (done.length + part.length) = some rest.head? := by
    rw [← List.length_append, charAt_append]
  rw [globLoop, start]
  simp only [Option.bind_eq_bind, Option.bind_some, at_end, if_neg ends, Nat.add_sub_cancel_left,
    globPartEnd_last part rest done.length no_star, globSearch_part]

/-- The loop matches the parts of what is left of the pattern against what is
left of the category. The induction is on the fuel: a round that goes on has
passed a star, so less of the pattern is left. -/
theorem globLoop_parts (str rest : List UInt8) (ends : rest.head? ≠ some 42) (fuel : Nat) :
    ∀ (done p : List UInt8) (strIndex : Nat) (ret : Bool), p.length < fuel →
      globLoop (done ++ p ++ rest) str (done.length + p.length) fuel done.length strIndex ret =
        (advance str strIndex).bind (fun s => matchParts (globParts p) s ret) := by
  induction fuel with
  | zero =>
    intro done p strIndex ret enough
    contradiction
  | succ fuel inductionHypothesis =>
    intro done p strIndex ret enough
    by_cases star : 42 ∈ p
    · obtain ⟨part, after, rfl, no_star⟩ := List.eq_append_cons_of_mem star
      rw [List.length_append, List.length_cons] at enough
      have again : ∀ strIndex ret,
          globLoop (done ++ part ++ 42 :: (after ++ rest)) str
              (done.length + (part ++ 42 :: after).length) fuel
              (done.length + part.length + 1) strIndex ret =
            (advance str strIndex).bind (fun s => matchParts (globParts after) s ret) := by
        intro strIndex ret
        have behind := inductionHypothesis (done ++ part ++ [42]) after strIndex ret (by omega)
        simp only [List.length_append, List.length_cons, List.length_nil, List.append_assoc,
          List.singleton_append] at behind ⊢
        rw [← behind]
        congr 1
        omega
      have same : done ++ (part ++ 42 :: after) ++ rest =
          done ++ part ++ 42 :: (after ++ rest) := by
        simp
      rw [same, globLoop_star done part (after ++ rest) str _ fuel strIndex ret no_star
        (by simp), globParts_star part after no_star]
      cases moved : advance str strIndex with
      | none => rfl
      | some s =>
        rw [Option.bind_some, Option.bind_some, again, Nat.add_assoc, advance_advance moved,
          matchParts_cons part _ s ret (globParts_ne_nil after)]
    · rw [globLoop_last done p rest str fuel strIndex ret star ends, globParts_single p star]
      rfl

/-- `log_glob_match` matches the parts of the pattern that stands in front of any
other character than a star. -/
theorem logGlobMatch_parts (p rest s : List UInt8) (ends : rest.head? ≠ some 42) :
    logGlobMatch (p ++ rest) s p.length = matchParts (globParts p) s true := by
  have whole := globLoop_parts s rest ends (p.length + 1) [] p 0 true (Nat.lt_succ_self _)
  simpa [logGlobMatch, advance] using whole

/-- The search finds a part at its first place before the terminator. -/
theorem globSearch_found {part s : List UInt8} {k : Nat}
    (found : globSearch part part.length s = some k) :
    ∃ before after, s = before ++ part ++ after ∧ before.length = k ∧ First part before after := by
  induction s generalizing k with
  | nil => contradiction
  | cons c s inductionHypothesis =>
    simp only [globSearch, strncmp_whole] at found
    by_cases in_front : part <+: c :: s
    · rw [if_pos in_front] at found
      obtain ⟨after, split⟩ := in_front
      have first : First part [] after := {
        nonempty := by simp [split]
        first := fun earlier _ _ => Nat.zero_le earlier.length }
      exact ⟨[], after, split.symm, Option.some.inj found, first⟩
    · rw [if_neg in_front, Option.map_eq_some_iff] at found
      obtain ⟨distance, later, rfl⟩ := found
      obtain ⟨before, after, rfl, rfl, first⟩ := inductionHypothesis later
      have still_first : First part (c :: before) after := by
        constructor
        · exact first.nonempty
        · intro earlier later other
          cases earlier with
          | nil => exact absurd ⟨later, other.symm⟩ in_front
          | cons d earlier =>
            have shorter := first.first earlier later (List.cons.inj other).2
            exact Nat.succ_le_succ shorter
      exact ⟨c :: before, after, rfl, rfl, still_first⟩

/-- Where the search finds nothing, the part stands at no place before the terminator. -/
theorem globSearch_missed {part s : List UInt8} (missed : globSearch part part.length s = none)
    (before after : List UInt8) (split : s = before ++ part ++ after) : part ++ after = [] := by
  induction s generalizing before with
  | nil =>
    rw [List.append_assoc] at split
    exact (List.append_eq_nil_iff.mp split.symm).2
  | cons c s inductionHypothesis =>
    simp only [globSearch, strncmp_whole, ite_eq_iff] at missed
    obtain ⟨_, impossible⟩ | ⟨differs, missed⟩ := missed
    · contradiction
    · cases before with
      | nil => exact absurd ⟨after, split.symm⟩ differs
      | cons d before =>
        exact inductionHypothesis (Option.map_eq_none_iff.mp missed) before (List.cons.inj split).2

/-- Once the result is lost it stays lost. -/
theorem matchParts_lost (parts : List (List UInt8)) (s : List UInt8) :
    matchParts parts s false ≠ some true := by
  induction parts generalizing s with
  | nil => simp [matchParts]
  | cons part parts inductionHypothesis =>
    by_cases more : parts = []
    · simp [more, matchParts]
    · rw [matchParts_cons part parts s false more, Bool.false_and]
      intro accepted
      obtain ⟨behind, _, accepted⟩ := Option.bind_eq_some_iff.mp accepted
      exact inductionHypothesis behind accepted

/-- The rounds accept a category exactly when the parts occur inside it: each
round takes the first place of its part, which leaves the most to the others. -/
theorem matchParts_accepts (parts : List (List UInt8)) (s : List UInt8) (some_part : parts ≠ []) :
    matchParts parts s true = some true ↔ Inside parts s := by
  induction parts generalizing s with
  | nil => contradiction
  | cons part parts inductionHypothesis =>
    cases found : globSearch part part.length s with
    | none =>
      have nowhere : ¬ Inside (part :: parts) s := by
        rintro ⟨before, after, split, nonempty, _⟩
        exact nonempty (globSearch_missed found before after split)
      apply iff_of_false _ nowhere
      by_cases more : parts = []
      · simp [more, matchParts, found]
      · rw [matchParts_cons part parts s true more, found]
        intro accepted
        obtain ⟨behind, _, accepted⟩ := Option.bind_eq_some_iff.mp accepted
        exact matchParts_lost parts behind accepted
    | some k =>
      obtain ⟨before, after, rfl, rfl, first⟩ := globSearch_found found
      rw [first.greedy parts]
      by_cases more : parts = []
      · rw [more, matchParts, found]
        exact iff_of_true rfl trivial
      · have behind : advance (before ++ part ++ after) (before.length + part.length) =
            some after := by
          rw [← List.length_append, advance_append]
        rw [matchParts_cons part parts _ true more, found, Option.getD_some, behind]
        exact inductionHypothesis after more

/-- The rounds read inside the category exactly when the search stays within it. -/
theorem matchParts_reads (parts : List (List UInt8)) (s : List UInt8) (ret : Bool) :
    matchParts parts s ret ≠ none ↔ StaysWithin parts s := by
  induction parts generalizing s ret with
  | nil => simp [matchParts, StaysWithin]
  | cons part parts inductionHypothesis =>
    cases parts with
    | nil => simp [matchParts, StaysWithin]
    | cons next parts =>
      have round : ∀ (distance : Nat) (ret : Bool),
          (advance s distance).bind (fun behind => matchParts (next :: parts) behind ret) ≠ none ↔
            ∃ behind, advance s distance = some behind ∧ StaysWithin (next :: parts) behind := by
        intro distance ret
        simp only [Ne, Option.bind_eq_none_iff, not_forall, exists_prop]
        exact exists_congr fun behind => and_congr_right fun _ => inductionHypothesis behind ret
      rw [matchParts_cons part (next :: parts) s ret (by simp), round, StaysWithin]
      cases found : globSearch part part.length s with
      | none =>
        have missed := fun before after => globSearch_missed found before after
        rw [Option.getD_none, Nat.zero_add]
        constructor
        · rintro ⟨behind, moved, stays⟩
          obtain ⟨inside, rfl⟩ := (advance_eq_some s behind part.length).mp moved
          apply Or.inr
          exact ⟨missed, s.take part.length, s.drop part.length, by simp, by simpa using inside,
            stays⟩
        · rintro (⟨before, after, split, first, _⟩ | ⟨_, skipped, after, rfl, length, stays⟩)
          · exact absurd (missed before after split) first.nonempty
          · exact ⟨after, by rw [← length, advance_append], stays⟩
      | some k =>
        obtain ⟨before, after, rfl, rfl, first⟩ := globSearch_found found
        have moved : advance (before ++ part ++ after) (before.length + part.length) =
            some after := by
          rw [← List.length_append, advance_append]
        rw [Option.getD_some]
        constructor
        · rintro ⟨behind, same, stays⟩
          obtain rfl : after = behind := Option.some.inj (moved.symm.trans same)
          exact Or.inl ⟨before, after, rfl, first, stays⟩
        · rintro (⟨earlier, later, same, other, stays⟩ | ⟨nowhere, _⟩)
          · rw [← first.unique other same] at stays
            exact ⟨after, moved, stays⟩
          · exact absurd (nowhere before after rfl) first.nonempty

/-- A pattern that ends with a star has an empty last part. -/
theorem globParts_ends_with_star (pattern : List UInt8) :
    globParts (pattern ++ [42]) = globParts pattern ++ [[]] := by
  rw [globParts, List.splitOn_append_cons_self, List.splitOn_nil, globParts]

/-- A pattern that ends with another character has a last part that is not empty. -/
theorem globParts_last (pattern : List UInt8) (c : UInt8) (no_star : c ≠ 42) :
    ∃ parts last, globParts (pattern ++ [c]) = parts ++ [last] ∧ last ≠ [] := by
  by_cases star : 42 ∈ pattern
  · obtain ⟨part, after, rfl, absent⟩ := List.eq_append_cons_of_mem star
    obtain ⟨parts, last, split, nonempty⟩ := globParts_last after c no_star
    refine ⟨part :: parts, last, ?_, nonempty⟩
    rw [List.append_assoc, List.cons_append, globParts_star part _ absent, split, List.cons_append]
  · refine ⟨[], pattern ++ [c], ?_, by simp⟩
    rw [globParts_single, List.nil_append]
    simp [star, Ne.symm no_star]
termination_by pattern.length
decreasing_by
  rename_i split
  rw [split, List.length_append, List.length_cons]
  omega

/-- Without a last star nothing that occurs is missed. -/
theorem inside_iff_no_last_star (p s : List UInt8) (nonempty : s ≠ [])
    (no_star : p.getLast? ≠ some 42) : Inside (globParts p) s ↔ InOrder (globParts p) s := by
  constructor
  · exact Inside.inOrder
  · intro occurs
    rcases List.eq_nil_or_concat p with rfl | ⟨pattern, c, rfl⟩
    · rw [globParts_single [] (by simp)]
      exact ⟨[], s, rfl, nonempty, trivial⟩
    · rw [List.concat_eq_append] at no_star occurs ⊢
      have other : c ≠ 42 := by simpa using no_star
      obtain ⟨parts, last, split, last_nonempty⟩ := globParts_last pattern c other
      rw [split] at occurs ⊢
      exact inside_of_last parts last s last_nonempty occurs

/-- With a last star only what occurs before the last character is found. -/
theorem inside_iff_last_star (p s : List UInt8) (nonempty : s ≠ [])
    (star : p.getLast? = some 42) :
    Inside (globParts p) s ↔ InOrder (globParts p) s.dropLast := by
  obtain ⟨pattern, rfl⟩ := List.getLast?_eq_some_iff.mp star
  obtain ⟨text, c, rfl⟩ := (List.eq_nil_or_concat s).resolve_left nonempty
  rw [globParts_ends_with_star, List.concat_eq_append, List.dropLast_concat]
  exact inside_snoc_nil (globParts pattern) text c

/-- A category is accepted exactly when the parts of the pattern occur in it in
order, if and only if a pattern with a last star that matches the category also
matches it without its last character. -/
theorem glob_match_iff (p rest s : List UInt8) (nonempty : s ≠ [])
    (ends : rest.head? ≠ some 42) :
    (logGlobMatch (p ++ rest) s p.length = some true ↔ InOrder (globParts p) s) ↔
      (p.getLast? = some 42 → InOrder (globParts p) s → InOrder (globParts p) s.dropLast) := by
  rw [logGlobMatch_parts p rest s ends, matchParts_accepts _ s (globParts_ne_nil p)]
  by_cases star : p.getLast? = some 42
  · have found := inside_iff_last_star p s nonempty star
    constructor
    · intro exact_match _ occurs
      exact found.mp (exact_match.mpr occurs)
    · intro shorter
      constructor
      · exact Inside.inOrder
      · intro occurs
        exact found.mpr (shorter star occurs)
  · apply iff_of_true (inside_iff_no_last_star p s nonempty star)
    intro ends_with_star
    contradiction

/-- A pattern without a last star is matched, by a category in which its parts
stand in order. -/
theorem glob_match_iff_middle_star :
    ((logGlobMatch (chars "ne*rk" ++ chars ":debug") (chars "network") 5 = some true ↔
      InOrder (globParts (chars "ne*rk")) (chars "network"))) := by
  have ends : (chars ":debug").head? ≠ some 42 := by decide
  have no_star : (chars "ne*rk").getLast? ≠ some 42 := by decide
  apply (glob_match_iff (chars "ne*rk") (chars ":debug") (chars "network") (by decide) ends).mpr
  intro star
  exact absurd star no_star

/-- The pattern `net*` does not match the category `net`, in which its part and
the empty run behind it stand. -/
theorem glob_match_fails :
    logGlobMatch (chars "net*" ++ chars ":debug") (chars "net") 4 = some false ∧
      InOrder (globParts (chars "net*")) (chars "net") := by
  constructor
  · decide
  · exact ⟨[], [], by decide, ⟨[], [], by decide, trivial⟩⟩

end Tyndall.Log
