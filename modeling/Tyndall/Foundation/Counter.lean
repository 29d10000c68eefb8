import Mathlib.Data.UInt

/-!
# A wrapping 32-bit counter that advances by two

`UInt32.ofNat n` is the machine value of a counter that has advanced `n` times.
A completed update advances it twice, so the machine value is even exactly
between updates, and two even values agree exactly when the numbers of updates
agree modulo `2 ^ 31`. Values fewer than `2 ^ 31` updates apart are distinct.
-/

namespace Tyndall.Counter

/-- The machine value after `n` completed updates. -/
def doubled (n : Nat) : UInt32 := UInt32.ofNat (2 * n)

@[simp] theorem doubled_zero : doubled 0 = 0 := rfl

/-- The first half of an update makes the value odd; the second half completes it. -/
@[simp] theorem doubled_succ (n : Nat) : doubled n + 1 + 1 = doubled (n + 1) := by
  rw [← UInt32.toNat_inj]
  simp [doubled]
  omega

/-- A completed count has its low bit clear. -/
@[simp] theorem doubled_low_bit (n : Nat) : doubled n &&& 1 = 0 := by
  rw [← UInt32.toNat_inj]
  simp [doubled]

/-- A value halfway through an update has its low bit set. -/
@[simp] theorem halfway_low_bit (n : Nat) : (doubled n + 1) &&& 1 = 1 := by
  rw [← UInt32.toNat_inj]
  simp [doubled, Nat.and_one_is_mod]

/-- No completed count reads like a value halfway through an update. -/
theorem doubled_ne_halfway (n m : Nat) : doubled n ≠ doubled m + 1 := by
  intro same
  have bits : doubled n &&& 1 = (doubled m + 1) &&& 1 := by rw [same]
  simp at bits

/-- Completed counts collide exactly when they agree modulo half the word. -/
theorem doubled_eq_iff (n m : Nat) : doubled n = doubled m ↔ n % 2 ^ 31 = m % 2 ^ 31 := by
  rw [← UInt32.toNat_inj]
  simp [doubled]
  omega

/-- A completed count reads as zero exactly at the multiples of `2 ^ 31`. -/
theorem doubled_eq_zero_iff (n : Nat) : doubled n = 0 ↔ n % 2 ^ 31 = 0 := by
  rw [← doubled_zero, doubled_eq_iff, Nat.zero_mod]

/-- Counts fewer than `2 ^ 31` updates apart collide only when they are equal. -/
theorem doubled_eq_near {earlier later : Nat} (ordered : earlier ≤ later)
    (near : later - earlier < 2 ^ 31) : doubled later = doubled earlier ↔ later = earlier := by
  rw [doubled_eq_iff]
  omega

end Tyndall.Counter
