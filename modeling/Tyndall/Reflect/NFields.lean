import Tyndall.Foundation.Search

/-!
# Counting the fields of an aggregate

`n_fields` asks the compiler whether the type can be initialised with a number
of placeholders. It cannot have more fields than bits, so that many are tried
first and then half as many, until a number is accepted. From twice that number
plus one the search goes down by one.

The compiler's answers are a parameter. The searches are recursive templates: one
more instantiation is nested for each number that is rejected, and the depth up to
which the compiler does that is their fuel. The numbers are of type `size_t`, and
the number of bits is greater than that from `2 ^ 61` bytes on.
-/

namespace Tyndall.Reflect

open Search

variable (constructible : Nat → Bool)

/-- `n_fields_linear<T, N>(0l)`. -/
def nFieldsLinear (depth N : Nat) : Option Nat :=
  search constructible (fun N => (N + (2 ^ 64 - 1)) % 2 ^ 64) depth N

/-- `n_fields_binary<T, N>(0l)`. -/
def nFieldsBinary (depth N : Nat) : Option Nat := search constructible (· / 2) depth N

/-- `max_field_count`. -/
def maxFieldCount (sizeof : Nat) : Nat := sizeof * 8 % 2 ^ 64

/-- `n_fields<T>()`. -/
def nFields (sizeof depth : Nat) : Option Nat := do
  let binarySearch ← nFieldsBinary constructible depth (maxFieldCount sizeof)
  nFieldsLinear constructible depth ((binarySearch * 2 + 1) % 2 ^ 64)

variable {constructible}

/-- A type of less than `2 ^ 60` bytes has that many bits, and twice the number is
still one. -/
theorem maxFieldCount_small {sizeof : Nat} (small : sizeof < 2 ^ 60) :
    maxFieldCount sizeof = sizeof * 8 ∧ maxFieldCount sizeof < 2 ^ 63 := by
  rw [maxFieldCount]
  omega

/-- The halving stops at a number that is accepted. It is the first one where that is
accepted, and otherwise at most half of it and at least about half of the fields. -/
theorem nFieldsBinary_found (n N depth : Nat) (accepted : ∀ k, constructible k = true ↔ k ≤ n)
    (deep : Nat.log2 N + 2 ≤ depth) :
    ∃ found, nFieldsBinary constructible depth N = some found ∧
      (N ≤ n → found = N) ∧ (n < N → found ≤ n ∧ n ≤ found * 2 + 1 ∧ found ≤ N / 2) := by
  obtain ⟨rest, rfl⟩ := Nat.exists_eq_add_of_le deep
  have fuel : Nat.log2 N + 2 + rest = Nat.log2 N + 1 + rest + 1 := by omega
  rw [nFieldsBinary, fuel]
  by_cases first : N ≤ n
  · refine ⟨N, search_accepted _ _ ((accepted N).mpr first), fun _ => rfl, ?_⟩
    omega
  · have rejected : ¬ constructible N = true := fun good => first ((accepted N).mp good)
    have logarithm : N < 2 ^ (Nat.log2 N + 1 + rest) := by
      apply Nat.lt_log2_self.trans_le
      exact Nat.pow_le_pow_right (by decide) (by omega)
    have halves : ∀ number, number / 2 ≤ number := fun number => Nat.div_le_self number 2
    obtain ⟨found, ends, below, above⟩ := search_halves accepted (by omega) logarithm
    have behind := ends
    rw [search_rejected _ _ rejected] at behind
    exact ⟨found, ends, fun accepted => absurd accepted first,
      fun _ => ⟨below, above, (search_found halves behind).2⟩⟩

/-- Where exactly the numbers of placeholders up to the number of fields are
accepted, the count is the number of fields if and only if there are fewer fields
than bits, as a `size_t` counts these, or the double of that number plus one is a
`size_t` and no less than the fields. For a type of less than `2 ^ 60` bytes, with
no more fields than bits, it always is. The depth that is needed grows with the
fields and with the logarithm of the size only.

Proof: where the first number is rejected, the last one that the halving rejects is
at most twice the accepted one plus one, so the number of fields lies between the
two. Where it is accepted, only the fields up to twice that number are found. -/
theorem n_fields_counts_iff (n sizeof depth : Nat)
    (accepted : ∀ k, constructible k = true ↔ k ≤ n)
    (deep : n + Nat.log2 (maxFieldCount sizeof) + 2 ≤ depth) :
    (nFields constructible sizeof depth = some n ↔
      n < maxFieldCount sizeof ∨
        (maxFieldCount sizeof < 2 ^ 63 ∧ n ≤ maxFieldCount sizeof * 2 + 1)) ∧
    (sizeof < 2 ^ 60 → n ≤ sizeof * 8 → nFields constructible sizeof depth = some n) := by
  obtain ⟨found, binary, whole, halved⟩ :=
    nFieldsBinary_found n (maxFieldCount sizeof) depth accepted (by omega)
  have bits : maxFieldCount sizeof < 2 ^ 64 ∧ 8 ∣ maxFieldCount sizeof := by
    rw [maxFieldCount]
    omega
  have count : nFields constructible sizeof depth =
      some (min ((found * 2 + 1) % 2 ^ 64) n) := by
    obtain ⟨rest, depth_eq⟩ := Nat.exists_eq_add_of_le deep
    have fuel : depth = n + Nat.log2 (maxFieldCount sizeof) + 1 + rest + 1 := by omega
    rw [nFields, binary, Option.bind_eq_bind, Option.bind_some, nFieldsLinear, fuel]
    apply search_down accepted
    · omega
    · intro k above below
      omega
  have counts : nFields constructible sizeof depth = some n ↔
      n < maxFieldCount sizeof ∨
        (maxFieldCount sizeof < 2 ^ 63 ∧ n ≤ maxFieldCount sizeof * 2 + 1) := by
    rw [count, Option.some_inj, min_eq_right_iff]
    omega
  refine ⟨counts, ?_⟩
  intro small bounded
  obtain ⟨exact, half⟩ := maxFieldCount_small small
  rw [counts]
  omega

/-- The struct of the repository's test has five fields and 88 bytes. -/
theorem n_fields_counts_test : nFields (fun k => decide (k ≤ 5)) 88 16 = some 5 :=
  (n_fields_counts_iff 5 88 16 (fun k => decide_eq_true_iff) (by decide)).2 (by decide) (by decide)

/-- A type of `2 ^ 61` bytes has three fields and counts one: the number of its bits
is zero as a `size_t`, and the search goes down from one. -/
theorem n_fields_counts_fails : 3 ≤ 2 ^ 61 * 8 ∧
    ∀ depth, nFields (fun k => decide (k ≤ 3)) (2 ^ 61) (depth + 1) = some 1 := by
  refine ⟨by decide, ?_⟩
  intro depth
  rfl

end Tyndall.Reflect
