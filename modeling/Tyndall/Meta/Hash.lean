import Mathlib.Data.List.GetD
import Mathlib.Data.List.Induction
import Mathlib.Data.List.TakeWhile
import Mathlib.Data.UInt

/-!
# Characters and the FNV-1a hash

A `char` is the byte it occupies. On x86-64 plain `char` is signed, so converting
it to `uint32_t` extends its sign. A C string is the bytes before its NUL.

The hash is FNV-1a where no byte has its sign bit set. The conversion extends the
sign, and FNV-1a is defined with bytes as they are.
-/

namespace Tyndall.Meta

/-- The bytes of a text, one for each of its characters. -/
def chars (text : String) : List UInt8 := text.toList.map Char.toUInt8

/-- The characters of a C string: everything before the terminating NUL. -/
def cString (memory : List UInt8) : List UInt8 := memory.takeWhile (· ≠ 0)

/-- `static_cast<uint32_t>(char)` where `char` is signed. -/
def charToUint32 (c : UInt8) : UInt32 := c.toInt8.toInt32.toUInt32

/-- `hash_fnv1a_32(s, count)`, which recurses from the end of the string. -/
def hashFnv1a32 (s : List UInt8) : Nat → UInt32
  | 0 => 2166136261
  | count + 1 => (hashFnv1a32 s count ^^^ charToUint32 (s.getD count 0)) * 16777619

/-- A string without NULs is its own C string. -/
theorem cString_of_nulFree (s : List UInt8) (nulFree : 0 ∉ s) : cString s = s := by
  rw [cString, List.takeWhile_eq_self_iff]
  intro c member
  have nonzero : c ≠ 0 := fun zero => nulFree (zero ▸ member)
  simpa using nonzero

/-- Characters behind the hashed ones do not change a hash. -/
theorem hashFnv1a32_append (s rest : List UInt8) (count : Nat) (inside : count ≤ s.length) :
    hashFnv1a32 (s ++ rest) count = hashFnv1a32 s count := by
  induction count with
  | zero => rfl
  | succ count inductionHypothesis =>
    have here : count < s.length := inside
    rw [hashFnv1a32, hashFnv1a32, inductionHypothesis (Nat.le_of_lt here),
      List.getD_append _ _ _ _ here]

/-- One more character is xored in and the result is multiplied. -/
theorem hashFnv1a32_snoc (s : List UInt8) (c : UInt8) :
    hashFnv1a32 (s ++ [c]) (s ++ [c]).length =
      (hashFnv1a32 s s.length ^^^ charToUint32 c) * 16777619 := by
  rw [List.length_append, List.length_singleton, hashFnv1a32,
    hashFnv1a32_append s [c] s.length (Nat.le_refl _)]
  simp

/-- Different characters convert to different words. -/
theorem charToUint32_injective (c other : UInt8) (same : charToUint32 c = charToUint32 other) :
    c = other := by
  have back : ∀ c : UInt8, (charToUint32 c).toInt32.toInt8.toUInt8 = c := by
    intro c
    simp [charToUint32]
  rw [← back c, same, back other]

/-- The prime has an inverse modulo `2 ^ 32`. -/
theorem mul_prime_injective (state other : UInt32) (same : state * 16777619 = other * 16777619) :
    state = other := by
  have back : ∀ state : UInt32, state * 16777619 * 899433627 = state := by
    intro state
    rw [mul_assoc, show (16777619 : UInt32) * 899433627 = 1 from rfl, mul_one]
  rw [← back state, same, back other]

/-- Two hashes that differ go on to differ over equal characters. -/
theorem hashFnv1a32_suffix (first second suffix : List UInt8)
    (different : hashFnv1a32 first first.length ≠ hashFnv1a32 second second.length) :
    hashFnv1a32 (first ++ suffix) (first ++ suffix).length ≠
      hashFnv1a32 (second ++ suffix) (second ++ suffix).length := by
  induction suffix using List.reverseRecOn with
  | nil => simpa using different
  | append_singleton suffix c inductionHypothesis =>
    rw [← List.append_assoc, ← List.append_assoc, hashFnv1a32_snoc, hashFnv1a32_snoc]
    intro same
    exact inductionHypothesis ((UInt32.xor_left_inj _).mp (mul_prime_injective _ _ same))

/-- A single changed character changes the hash. -/
theorem hashFnv1a32_changed (before after : List UInt8) (c other : UInt8) (different : c ≠ other) :
    hashFnv1a32 (before ++ c :: after) (before ++ c :: after).length ≠
      hashFnv1a32 (before ++ other :: after) (before ++ other :: after).length := by
  have here : hashFnv1a32 (before ++ [c]) (before ++ [c]).length ≠
      hashFnv1a32 (before ++ [other]) (before ++ [other]).length := by
    rw [hashFnv1a32_snoc, hashFnv1a32_snoc]
    intro same
    have words := (UInt32.xor_right_inj _).mp (mul_prime_injective _ _ same)
    exact different (charToUint32_injective _ _ words)
  simpa using hashFnv1a32_suffix _ _ after here

/-- The reference FNV-1a hash: each byte is xored in as it is, from the first one on. -/
def fnv1a32 (bytes : List UInt8) : UInt32 :=
  bytes.foldl (fun state byte => (state ^^^ byte.toUInt32) * 16777619) 2166136261

/-- One more byte is xored in and the result is multiplied. -/
theorem fnv1a32_snoc (bytes : List UInt8) (byte : UInt8) :
    fnv1a32 (bytes ++ [byte]) = (fnv1a32 bytes ^^^ byte.toUInt32) * 16777619 := by
  rw [fnv1a32, List.foldl_append]
  rfl

/-- Converting a signed `char` keeps the byte exactly when its sign bit is zero. -/
theorem charToUint32_iff (c : UInt8) : charToUint32 c = c.toUInt32 ↔ c < 128 := by
  have all : ∀ n < 256, charToUint32 (UInt8.ofNat n) = (UInt8.ofNat n).toUInt32 ↔
      UInt8.ofNat n < 128 := by decide +kernel
  simpa using all c.toNat c.toNat_lt

/-- A hash of as many characters as the string has is the hash of these characters. -/
theorem hashFnv1a32_take (s : List UInt8) (count : Nat) (inside : count ≤ s.length) :
    hashFnv1a32 s count = hashFnv1a32 (s.take count) (s.take count).length := by
  have length : (s.take count).length = count := List.length_take_of_le inside
  have front := hashFnv1a32_append (s.take count) (s.drop count) count (Nat.le_of_eq length.symm)
  rw [List.take_append_drop] at front
  rw [length, front]

/-- On bytes without a sign bit the recursion from the end agrees with the fold. -/
theorem hashFnv1a32_plain (s : List UInt8) (plain : ∀ c ∈ s, c < 128) :
    hashFnv1a32 s s.length = fnv1a32 s := by
  induction s using List.reverseRecOn with
  | nil => rfl
  | append_singleton s c inductionHypothesis =>
    obtain ⟨before, last⟩ := List.forall_mem_append.mp plain
    rw [hashFnv1a32_snoc, fnv1a32_snoc, inductionHypothesis before,
      (charToUint32_iff c).mpr (last c (List.mem_singleton_self c))]

/-- The hash of a string is FNV-1a at every length exactly when no byte of the
string has its sign bit set.

Proof: the first such byte is xored into equal states as different words, and the
multiplication does not undo that. -/
theorem hash_is_fnv1a_iff (s : List UInt8) :
    (∀ count ≤ s.length, hashFnv1a32 s count = fnv1a32 (s.take count)) ↔ ∀ c ∈ s, c < 128 := by
  constructor
  · intro same c member
    obtain ⟨before, after, rfl⟩ := List.append_of_mem member
    have earlier := same before.length (by simp)
    have next := same (before ++ [c]).length (by simp)
    have split : before ++ c :: after = (before ++ [c]) ++ after := by simp
    rw [hashFnv1a32_take _ _ (by simp), List.take_left] at earlier
    rw [hashFnv1a32_take _ _ (by simp), split, List.take_left, hashFnv1a32_snoc, fnv1a32_snoc,
      earlier] at next
    exact (charToUint32_iff c).mp ((UInt32.xor_right_inj _).mp (mul_prime_injective _ _ next))
  · intro plain count inside
    rw [hashFnv1a32_take s count inside]
    exact hashFnv1a32_plain _ (fun c member => plain c (List.mem_of_mem_take member))

/-- Two such bytes can undo each other, so the hash of a whole string alone does
not tell whether it has any. -/
example : hashFnv1a32 [97, 172, 169] 3 = fnv1a32 [97, 172, 169] := by decide

/-- The single byte 0x80 has another hash. -/
theorem hash_is_fnv1a_fails : hashFnv1a32 [128] 1 ≠ fnv1a32 [128] := by
  decide

end Tyndall.Meta
