import Mathlib.Algebra.Order.Floor.Div
import Mathlib.Data.Nat.Basic

/-!
# Rounding offsets up to an alignment

The first multiple of an alignment at or after an offset. Compilers place
members there, and code that recomputes a layout from addresses does so by the
remainder, adding what is missing to the next multiple.
-/

namespace Tyndall.Alignment

variable {offset alignment target : Nat}

/-- The least multiple of the alignment that is not below the offset. -/
def alignUp (offset alignment : Nat) : Nat := alignment * (offset ⌈/⌉ alignment)

/-- Rounding up does not go below the offset. -/
theorem le_alignUp (offset : Nat) (positive : 0 < alignment) : offset ≤ alignUp offset alignment :=
  le_smul_ceilDiv positive

/-- The result is aligned. -/
theorem dvd_alignUp (offset alignment : Nat) : alignment ∣ alignUp offset alignment :=
  Dvd.intro _ rfl

/-- Every aligned target at or after the offset is at or after the result. -/
theorem alignUp_le (positive : 0 < alignment) (after : offset ≤ target)
    (aligned : alignment ∣ target) : alignUp offset alignment ≤ target := by
  obtain ⟨quotient, rfl⟩ := aligned
  exact Nat.mul_le_mul_left alignment ((ceilDiv_le_iff_le_mul positive).mpr after)

/-- The result is the only aligned target less than one alignment away. -/
theorem alignUp_eq (after : offset ≤ target) (near : target < offset + alignment)
    (aligned : alignment ∣ target) : alignUp offset alignment = target := by
  have positive : 0 < alignment := by omega
  have below := alignUp_le positive after aligned
  have above := le_alignUp offset positive
  obtain ⟨first, sameFirst⟩ := dvd_alignUp offset alignment
  obtain ⟨second, rfl⟩ := aligned
  rw [sameFirst] at below above ⊢
  have close : alignment * second < alignment * (first + 1) := by
    rw [Nat.mul_succ]
    omega
  have ordered := Nat.le_of_mul_le_mul_left below positive
  have next := Nat.lt_of_mul_lt_mul_left close
  rw [Nat.le_antisymm ordered (Nat.le_of_lt_succ next)]

/-- An aligned offset stays. -/
theorem alignUp_of_dvd (positive : 0 < alignment) (aligned : alignment ∣ offset) :
    alignUp offset alignment = offset :=
  alignUp_eq (le_refl offset) (by omega) aligned

/-- Rounding up by the remainder: what is missing to the next multiple is added. -/
theorem alignUp_eq_remainder (offset : Nat) (positive : 0 < alignment) :
    alignUp offset alignment =
      offset + (if offset % alignment > 0 then alignment - offset % alignment else 0) := by
  have inside := Nat.mod_lt offset positive
  have parts := Nat.div_add_mod offset alignment
  split
  · next missing =>
    refine alignUp_eq (by omega) (by omega) ⟨offset / alignment + 1, ?_⟩
    rw [Nat.mul_succ]
    omega
  · next whole => exact alignUp_of_dvd positive (Nat.dvd_of_mod_eq_zero (by omega))

/-- Less than one alignment is added. -/
theorem alignUp_lt (offset : Nat) (positive : 0 < alignment) :
    alignUp offset alignment < offset + alignment := by
  rw [alignUp_eq_remainder offset positive]
  split <;> omega

/-- An aligned base moves through. -/
theorem alignUp_add (base offset : Nat) (positive : 0 < alignment) (aligned : alignment ∣ base) :
    alignUp (base + offset) alignment = base + alignUp offset alignment := by
  have low := le_alignUp offset positive
  have high := alignUp_lt offset positive
  exact alignUp_eq (by omega) (by omega) (Nat.dvd_add aligned (dvd_alignUp offset alignment))

end Tyndall.Alignment
