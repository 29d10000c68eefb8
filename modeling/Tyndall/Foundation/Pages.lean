import Mathlib.Data.Nat.ModEq
import Mathlib.Order.Interval.Finset.Nat
import Tyndall.Foundation.Alignment

/-!
# Ranges of whole pages

A range of bytes is mapped and unmapped in whole pages, its end rounded up. Two
ranges from one address that end less than a page apart may or may not cover the
same pages: where the shorter one ends on the boundary of a page, the longer one
reaches into one more.
-/

namespace Tyndall.Pages

open Tyndall.Alignment

/-- The pages of a range of bytes. -/
def pagesOf (pageSize address length : Nat) : Finset Nat :=
  Finset.Ico (address / pageSize) (alignUp (address + length) pageSize / pageSize)

section Tail

variable {pageSize address length tail : Nat} (positive : 0 < pageSize)
include positive

/-- A range of bytes touches the page that it starts in. -/
theorem first_mem_pagesOf (address : Nat) (some_bytes : 0 < length) :
    address / pageSize ∈ pagesOf pageSize address length := by
  have reached := le_alignUp (address + length) positive
  refine Finset.mem_Ico.mpr ⟨Nat.le_refl _, Nat.div_lt_of_lt_mul ?_⟩
  rw [Nat.mul_div_cancel' (dvd_alignUp _ _)]
  omega

/-- A tail that fits behind a range in its last page adds no page. All three lengths
are counted in a unit that the tail fits into. -/
theorem pagesOf_tail {unit : Nat} (tail_fits : tail ≤ unit) (page_units : unit ∣ pageSize)
    (units : unit ∣ address + length) (inside : ¬ pageSize ∣ address + length) :
    pagesOf pageSize address (length + tail) = pagesOf pageSize address length := by
  have low := le_alignUp (address + length) positive
  have high := alignUp_lt (address + length) positive
  have different : alignUp (address + length) pageSize ≠ address + length :=
    fun same => inside (same ▸ dvd_alignUp _ _)
  -- Both ends are whole units, so a whole unit lies between them.
  have room : address + length + unit ≤ alignUp (address + length) pageSize := by
    have rounded := page_units.trans (dvd_alignUp (address + length) pageSize)
    have remainders : address + length ≡ alignUp (address + length) pageSize [MOD unit] :=
      (Nat.modEq_zero_iff_dvd.mpr units).trans (Nat.modEq_zero_iff_dvd.mpr rounded).symm
    exact remainders.add_le_of_lt (Nat.lt_of_le_of_ne low different.symm)
  have same : alignUp (address + (length + tail)) pageSize =
      alignUp (address + length) pageSize :=
    alignUp_eq (by omega) (by omega) (dvd_alignUp _ _)
  rw [pagesOf, pagesOf, same]

/-- A tail behind a range of whole pages takes one more page. -/
theorem pagesOf_tail_whole (some_tail : 0 < tail) (tail_fits : tail ≤ pageSize)
    (whole : pageSize ∣ address + length) :
    (address + length) / pageSize ∈ pagesOf pageSize address (length + tail) ∧
      (address + length) / pageSize ∉ pagesOf pageSize address length := by
  have last : alignUp (address + (length + tail)) pageSize = address + length + pageSize :=
    alignUp_eq (by omega) (by omega) (Nat.dvd_add whole (Nat.dvd_refl _))
  have next : (address + length + pageSize) / pageSize = (address + length) / pageSize + 1 :=
    Nat.add_div_right _ positive
  have from_start : address / pageSize ≤ (address + length) / pageSize :=
    Nat.div_le_div_right (Nat.le_add_right _ _)
  constructor
  · rw [pagesOf, last, next]
    exact Finset.mem_Ico.mpr ⟨from_start, Nat.lt_succ_self _⟩
  · rw [pagesOf, alignUp_of_dvd positive whole]
    exact Finset.right_notMem_Ico

end Tail

end Tyndall.Pages
