import Tyndall.Foundation.Occurrences
import Tyndall.Ipc.Id

/-!
# Ids that share memory

Two ids share memory when they have one name. A name ends in the decimal digits of
the hash, so the last underscore of a name separates the hash from the text, and
both are determined. The text tells slashes from underscores no longer; the hash
does, as far as it goes. It always tells two ids apart that differ in one place:
one step of the hash is a bijection for each character, so a difference is never
undone by equal characters behind it.
-/

namespace Tyndall.Ipc

open Meta Occurrences

/-- Texts of one length that differ only where one has a slash and the other an
underscore. -/
structure SlashAlike (first second : List UInt8) : Prop where
  length : first.length = second.length
  differ : ∀ i, first.getD i 0 ≠ second.getD i 0 →
    first.getD i 0 = slash ∧ second.getD i 0 = underscore ∨
      first.getD i 0 = underscore ∧ second.getD i 0 = slash

/-- Replacing slashes makes two characters equal that were equal, or a slash and
an underscore. -/
theorem replaced_same_iff (c other : UInt8) :
    (if c = slash then underscore else c) = (if other = slash then underscore else other) ↔
      (c ≠ other → c = slash ∧ other = underscore ∨ c = underscore ∧ other = slash) := by
  have apart : slash ≠ underscore := by decide
  by_cases first : c = slash
  · by_cases second : other = slash
    · simp [first, second]
    · simp [first, second, apart, Ne.symm second, eq_comm]
  · by_cases second : other = slash
    · simp [first, second]
    · simp only [first, second, if_false, false_and, and_false, or_self, imp_false, not_not]

/-- The texts of two names agree exactly when the stripped ids are alike. -/
theorem replaced_agree_iff (first second : Strval) :
    idReplaceSlashesWithUnderscores first = idReplaceSlashesWithUnderscores second ↔
      SlashAlike first second := by
  rw [idReplaceSlashesWithUnderscores, idReplaceSlashesWithUnderscores, Strval.replace_eq_map,
    Strval.replace_eq_map, List.ext_getElem_iff]
  constructor
  · rintro ⟨length, same⟩
    rw [List.length_map, List.length_map] at length
    refine ⟨length, ?_⟩
    intro i different
    by_cases inside : i < first.length
    · have insideOther : i < second.length := length ▸ inside
      have here := same i (by simpa using inside) (by simpa using insideOther)
      rw [List.getElem_map, List.getElem_map, replaced_same_iff] at here
      rw [List.getD_eq_getElem _ _ inside, List.getD_eq_getElem _ _ insideOther] at different ⊢
      exact here different
    · rw [List.getD_eq_default _ _ (Nat.le_of_not_lt inside),
        List.getD_eq_default _ _ (by omega)] at different
      exact absurd rfl different
  · rintro ⟨length, differ⟩
    refine ⟨by simpa using length, ?_⟩
    intro i inside insideOther
    rw [List.length_map] at inside insideOther
    rw [List.getElem_map, List.getElem_map, replaced_same_iff, ← List.getD_eq_getElem _ 0 inside,
      ← List.getD_eq_getElem _ 0 insideOther]
    exact differ i

/-- The run-time names of two ids agree exactly when their texts and their hashes do. -/
theorem idRtidPrepare_eq_iff (id other : List UInt8) (nulFree : 0 ∉ id) (nulFreeOther : 0 ∉ other) :
    idRtidPrepare id = idRtidPrepare other ↔
      idReplaceSlashesWithUnderscores (idRemoveLeadingSlashes id) =
          idReplaceSlashesWithUnderscores (idRemoveLeadingSlashes other) ∧
        hashFnv1a32 (idRemoveLeadingSlashes id) (idRemoveLeadingSlashes id).length =
          hashFnv1a32 (idRemoveLeadingSlashes other) (idRemoveLeadingSlashes other).length := by
  have digits : ∀ n, underscore ∉ decimal n := by
    intro n member
    exact absurd ((decimal_digits n).2 underscore member).2 (by decide)
  rw [idRtidPrepare_parts id nulFree, idRtidPrepare_parts other nulFreeOther]
  constructor
  · intro same
    simp only [List.append_assoc, List.append_cancel_left_eq, List.singleton_append] at same
    obtain ⟨text, hash⟩ := last_separator_split (digits _) (digits _) same
    exact ⟨(List.cons.inj text).2, UInt32.toNat_inj.mp (decimal_injective _ _ hash)⟩
  · rintro ⟨text, hash⟩
    rw [text, hash]

/-- Ids share memory if and only if the stripped ids are alike up to slashes and
underscores and have one hash. Stripped ids that differ in a single place never do.

Proof: the name is parsed from its end, where the digits of the hash stand behind
the last underscore. A single changed character changes the hash. -/
theorem names_shared_iff (id other : List UInt8) (nulFree : 0 ∉ id) (nulFreeOther : 0 ∉ other) :
    (idRtidPrepare id = idRtidPrepare other ↔
      SlashAlike (idRemoveLeadingSlashes id) (idRemoveLeadingSlashes other) ∧
        hashFnv1a32 (idRemoveLeadingSlashes id) (idRemoveLeadingSlashes id).length =
          hashFnv1a32 (idRemoveLeadingSlashes other) (idRemoveLeadingSlashes other).length) ∧
    ∀ before c changed after, idRemoveLeadingSlashes id = before ++ c :: after →
      idRemoveLeadingSlashes other = before ++ changed :: after → c ≠ changed →
        idRtidPrepare id ≠ idRtidPrepare other := by
  have names := idRtidPrepare_eq_iff id other nulFree nulFreeOther
  constructor
  · rw [names, replaced_agree_iff]
  · intro before c changed after stripped strippedOther different same
    have hash := (names.mp same).2
    rw [stripped, strippedOther] at hash
    exact hashFnv1a32_changed before after c changed different hash

/-- `my/topic` and `my_topic` are alike and do not share memory. -/
theorem names_shared_my_topic : SlashAlike (chars "my/topic") (chars "my_topic") ∧
    idRtidPrepare (chars "/my/topic") ≠ idRtidPrepare (chars "my_topic") := by
  constructor
  · rw [← replaced_agree_iff]
    decide
  · exact (names_shared_iff (chars "/my/topic") (chars "my_topic") (by decide) (by decide)).2
      (chars "my") slash underscore (chars "topic") (by decide) (by decide) (by decide)

/-- A name decides its text and the digits behind its last underscore. -/
theorem names_split {text other digits digitsOther : List UInt8} (fresh : underscore ∉ digits)
    (freshOther : underscore ∉ digitsOther) :
    ipcShmemPrefix ++ [underscore] ++ text ++ [underscore] ++ digits =
        ipcShmemPrefix ++ [underscore] ++ other ++ [underscore] ++ digitsOther ↔
      text = other ∧ digits = digitsOther := by
  constructor
  · intro same
    simp only [List.append_assoc, List.append_cancel_left_eq, List.singleton_append] at same
    obtain ⟨front, back⟩ := last_separator_split fresh freshOther same
    exact ⟨(List.cons.inj front).2, back⟩
  · rintro ⟨rfl, rfl⟩
    rfl

/-- Rendered numbers have no underscores. -/
theorem digits_fresh (n : Nat) (m : UInt32) : underscore ∉ decimal n ∧ underscore ∉ toStrval m := by
  constructor
  · intro member
    exact absurd ((decimal_digits n).2 underscore member).2 (by decide)
  · intro member
    exact absurd (toStrval_digits m underscore member).2 (by decide)

/-- `to_strval` renders a number as `std::to_string` renders another one exactly when
they are equal and not zero. -/
theorem toStrval_decimal_iff (n m : UInt32) : toStrval n = decimal m.toNat ↔ n = m ∧ n ≠ 0 := by
  by_cases zero : n = 0
  · subst zero
    simp [toStrval_zero, Ne.symm (decimal_digits m.toNat).1]
  · rw [toStrval_eq_decimal n zero]
    refine ⟨fun same => ⟨UInt32.toNat_inj.mp (decimal_injective _ _ same), zero⟩, ?_⟩
    rintro ⟨rfl, -⟩
    rfl

/-- The hash behind a name. -/
def nameHash (id : Strval) : UInt32 :=
  hashFnv1a32 (idRemoveLeadingSlashes id) (idRemoveLeadingSlashes id).length

/-- Which ids share memory when both encoders are in use. Two compile-time names are one
if and only if the stripped ids are alike up to slashes and underscores and have one
hash. A compile-time and a run-time name are one under the same condition, unless that
hash is zero: then a program that writes by the one never reaches a reader by the other,
whatever ids they use.

Proof: every name is parsed from its end. A zero hash is rendered as nothing by the one
encoder, and as some digits by the other whatever the hash. -/
theorem encoders_shared_iff (id other : Strval) (nulFree : 0 ∉ other) :
    (idPrepare id = idPrepare other ↔
      SlashAlike (idRemoveLeadingSlashes id) (idRemoveLeadingSlashes other) ∧
        nameHash id = nameHash other) ∧
    (idPrepare id = idRtidPrepare other ↔
      SlashAlike (idRemoveLeadingSlashes id) (idRemoveLeadingSlashes other) ∧
        nameHash id = nameHash other ∧ nameHash id ≠ 0) := by
  have static : ∀ id : Strval, underscore ∉ idHash (idRemoveLeadingSlashes id) :=
    fun id => (digits_fresh 0 _).2
  constructor
  · rw [idPrepare, idPrepare, names_split (static id) (static other), replaced_agree_iff]
    refine and_congr_right fun _ => ⟨toStrval_injective _ _, ?_⟩
    intro same
    exact congrArg toStrval same
  · rw [idPrepare, idRtidPrepare_parts other nulFree,
      names_split (static id) (digits_fresh _ 0).1, replaced_agree_iff]
    exact and_congr_right fun _ => toStrval_decimal_iff _ _

/-- The hash of `ppkttia` is zero: its two compile-time names are one, and no run-time
name is the same. -/
theorem encoders_shared_zero : idPrepare (chars "/ppkttia") = idPrepare (chars "ppkttia") ∧
    idPrepare (chars "ppkttia") ≠ idRtidPrepare (chars "ppkttia") := by
  obtain ⟨-, mixed⟩ := encoders_shared_iff (chars "ppkttia") (chars "ppkttia") (by decide)
  refine ⟨idPrepare_congr _ _ (by decide), fun same => ?_⟩
  exact (mixed.mp same).2.2 (by decide)

end Tyndall.Ipc
