import Mathlib.Data.List.GetD
import Mathlib.Tactic.IntervalCases

/-!
# Memory objects of a changing size

A block is a finite run of bytes that can be cut and extended. Cutting it
discards the bytes past the new end and extending it appends zeros, so what is
cut off does not come back. Stores past the end have no effect. Words are stored
least significant byte first.
-/

namespace Tyndall

/-- A block of bytes. Past its end there is nothing but zeros. -/
@[ext]
structure Block where
  size : Nat
  byte : Nat → UInt8
  beyond : ∀ i, size ≤ i → byte i = 0

namespace Block

/-- The block without bytes. -/
def empty : Block := { size := 0, byte := fun _ => 0, beyond := fun _ _ => rfl }

/-- Cut or extend a block to a size. -/
def resize (block : Block) (size : Nat) : Block where
  size := size
  byte i := if i < size then block.byte i else 0
  beyond i past := by simp [Nat.not_lt.mpr past]

/-- Store one byte. -/
def set (block : Block) (offset : Nat) (value : UInt8) : Block where
  size := block.size
  byte i := if i = offset ∧ i < block.size then value else block.byte i
  beyond i past := by simp [Nat.not_lt.mpr past, block.beyond i past]

/-- Store bytes one after the other, from an offset on. -/
def setAll (block : Block) (offset : Nat) : List UInt8 → Block
  | [] => block
  | value :: rest => (block.set offset value).setAll (offset + 1) rest

/-- The bytes of a range. -/
def bytes (block : Block) (offset count : Nat) : List UInt8 :=
  (List.range count).map (fun i => block.byte (offset + i))

/-- The bytes of a 32-bit word in memory. -/
def wordBytes (value : UInt32) : List UInt8 :=
  [UInt8.ofNat value.toNat, UInt8.ofNat (value.toNat / 256),
    UInt8.ofNat (value.toNat / 256 ^ 2), UInt8.ofNat (value.toNat / 256 ^ 3)]

/-- Load a 32-bit word. -/
def load32 (block : Block) (offset : Nat) : UInt32 :=
  UInt32.ofNat ((block.byte offset).toNat + 256 * (block.byte (offset + 1)).toNat +
    256 ^ 2 * (block.byte (offset + 2)).toNat + 256 ^ 3 * (block.byte (offset + 3)).toNat)

/-- Store a 32-bit word. -/
def store32 (block : Block) (offset : Nat) (value : UInt32) : Block :=
  block.setAll offset (wordBytes value)

@[simp] theorem empty_byte (i : Nat) : empty.byte i = 0 := rfl

@[simp] theorem resize_size (block : Block) (size : Nat) : (block.resize size).size = size := rfl

@[simp] theorem resize_byte (block : Block) (size i : Nat) :
    (block.resize size).byte i = if i < size then block.byte i else 0 := rfl

@[simp] theorem set_size (block : Block) (offset : Nat) (value : UInt8) :
    (block.set offset value).size = block.size := rfl

@[simp] theorem set_byte (block : Block) (offset i : Nat) (value : UInt8) :
    (block.set offset value).byte i =
      if i = offset ∧ i < block.size then value else block.byte i := rfl

@[simp] theorem setAll_size (block : Block) (offset : Nat) (values : List UInt8) :
    (block.setAll offset values).size = block.size := by
  induction values generalizing block offset with
  | nil => rfl
  | cons value rest inductionHypothesis => rw [setAll, inductionHypothesis, set_size]

/-- A range can be stored in two parts. -/
theorem setAll_append (block : Block) (offset : Nat) (first second : List UInt8) :
    block.setAll offset (first ++ second) =
      (block.setAll offset first).setAll (offset + first.length) second := by
  induction first generalizing block offset with
  | nil => rfl
  | cons value rest inductionHypothesis =>
    rw [List.cons_append, setAll, inductionHypothesis, setAll, List.length_cons,
      Nat.add_assoc, Nat.add_comm 1]

/-- A range store changes the bytes of its range that the block has. -/
theorem setAll_byte (block : Block) (offset i : Nat) (values : List UInt8) :
    (block.setAll offset values).byte i =
      if offset ≤ i ∧ i < offset + values.length ∧ i < block.size then values.getD (i - offset) 0
      else block.byte i := by
  induction values generalizing block offset with
  | nil =>
    have outside : ¬ (offset ≤ i ∧ i < offset + 0 ∧ i < block.size) := by omega
    rw [setAll, List.length_nil, if_neg outside]
  | cons value rest inductionHypothesis =>
    rw [setAll, inductionHypothesis, set_size, List.length_cons]
    by_cases first : i = offset
    · subst first
      simp
    · by_cases later : offset + 1 ≤ i ∧ i < offset + 1 + rest.length ∧ i < block.size
      · have inside : offset ≤ i ∧ i < offset + (rest.length + 1) ∧ i < block.size := by omega
        obtain ⟨next, shifted⟩ : ∃ next, i - offset = next + 1 := ⟨i - offset - 1, by omega⟩
        have same : i - (offset + 1) = next := by omega
        simp [later, inside, shifted, same]
      · have outside : ¬ (offset ≤ i ∧ i < offset + (rest.length + 1) ∧ i < block.size) := by
          omega
        rw [if_neg later, if_neg outside, set_byte, if_neg (fun here => first here.1)]

/-- A range store leaves everything outside its range. -/
theorem setAll_byte_outside (block : Block) (offset i : Nat) (values : List UInt8)
    (outside : i < offset ∨ offset + values.length ≤ i) :
    (block.setAll offset values).byte i = block.byte i := by
  rw [setAll_byte, if_neg (by omega)]

/-- A range store that repeats what is there changes nothing. -/
theorem setAll_same (block : Block) (offset : Nat) (values : List UInt8)
    (same : ∀ k < values.length, block.byte (offset + k) = values.getD k 0) :
    block.setAll offset values = block := by
  refine Block.ext (setAll_size block offset values) (funext fun i => ?_)
  rw [setAll_byte]
  split
  · next inside =>
    rw [← same (i - offset) (by omega), Nat.add_sub_cancel' inside.1]
  · rfl

/-- A block of its own size is not changed by resizing. -/
theorem resize_same (block : Block) : block.resize block.size = block := by
  refine Block.ext rfl (funext fun i => ?_)
  rw [resize_byte]
  split
  · rfl
  · next past => exact (block.beyond i (by omega)).symm

/-- A word load depends on its four bytes only. -/
theorem load32_congr (block other : Block) (offset : Nat)
    (same : ∀ k < 4, block.byte (offset + k) = other.byte (offset + k)) :
    block.load32 offset = other.load32 offset := by
  have first := same 0 (by decide)
  have second := same 1 (by decide)
  have third := same 2 (by decide)
  have fourth := same 3 (by decide)
  simp only [load32, Nat.add_zero] at first ⊢
  rw [first, second, third, fourth]

/-- Zero bytes make a zero word. -/
theorem load32_zero (block : Block) (offset : Nat) (zero : ∀ k < 4, block.byte (offset + k) = 0) :
    block.load32 offset = 0 :=
  load32_congr block empty offset zero

/-- A word stored inside the block is loaded back. -/
theorem load32_store32 (block : Block) (offset : Nat) (value : UInt32)
    (inside : offset + 4 ≤ block.size) : (block.store32 offset value).load32 offset = value := by
  have stored : ∀ k < 4, (block.store32 offset value).byte (offset + k) =
      (wordBytes value).getD k 0 := by
    intro k below
    have length : (wordBytes value).length = 4 := rfl
    rw [store32, setAll_byte, if_pos (by omega), Nat.add_sub_cancel_left]
  have first := stored 0 (by decide)
  have second := stored 1 (by decide)
  have third := stored 2 (by decide)
  have fourth := stored 3 (by decide)
  apply UInt32.toNat_inj.mp
  simp only [wordBytes, List.getD_cons_zero, List.getD_cons_succ, Nat.add_zero]
    at first second third fourth
  simp only [load32, first, second, third, fourth, UInt8.toNat_ofNat', UInt32.toNat_ofNat']
  have bounded := value.toNat_lt
  omega

/-- A word stored back where it was loaded changes nothing. -/
theorem store32_load32 (block : Block) (offset : Nat) :
    block.store32 offset (block.load32 offset) = block := by
  apply setAll_same block offset
  intro k below
  have first := (block.byte offset).toNat_lt
  have second := (block.byte (offset + 1)).toNat_lt
  have third := (block.byte (offset + 2)).toNat_lt
  have fourth := (block.byte (offset + 3)).toNat_lt
  have bounded : k < 4 := below
  apply UInt8.toNat_inj.mp
  simp only [wordBytes, load32, UInt32.toNat_ofNat']
  interval_cases k
  all_goals
    simp only [List.getD_cons_zero, List.getD_cons_succ, UInt8.toNat_ofNat', Nat.add_zero]
    omega

/-- A word store leaves everything outside its four bytes. -/
theorem store32_byte_outside (block : Block) (offset i : Nat) (value : UInt32)
    (outside : i < offset ∨ offset + 4 ≤ i) :
    (block.store32 offset value).byte i = block.byte i :=
  setAll_byte_outside block offset i (wordBytes value) outside

@[simp] theorem store32_size (block : Block) (offset : Nat) (value : UInt32) :
    (block.store32 offset value).size = block.size := setAll_size _ _ _

end Block

end Tyndall
