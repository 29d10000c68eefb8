import Mathlib.Algebra.Order.Ring.Nat
import Tyndall.Foundation.Alignment

/-!
# Sizes in a topic's shared memory

A topic's object holds a `seq_lock<STORAGE>` and behind it a tailer with the
type's hash and, where there is one, its debug format. All sizes follow from the
storage type: its size and alignment, and the length of its format. The sizes are
those of x86-64, where a cache line has 64 bytes.
-/

namespace Tyndall.Ipc

open Tyndall.Alignment

/-- `CACHELINE_BYTES`. -/
def cachelineBytes : Nat := 64

/-- `sizeof(tailer)` for a debug format: the atomic hash, the format's characters
and the padding to the alignment of the hash. An empty format has no storage,
and with `IPC_NO_DEBUG_DATA` there is no such member. -/
def sizeofTailer (format : List UInt8) : Nat := alignUp (4 + format.length) 4

/-- What a buffer's code depends on of its storage type. `hash` is
`typeinfo_hash(seq_lock<STORAGE>)` and `format` is the debug format, empty where
none is stored. The conditions are the language's and the code's own assertion. -/
structure StorageType where
  size : Nat
  align : Nat
  hash : UInt32
  format : List UInt8
  size_pos : 0 < size
  align_power : ∃ exponent, align = 2 ^ exponent
  align_dvd : align ∣ size
  format_nulFree : 0 ∉ format
  tailer_fits : sizeofTailer format < cachelineBytes
deriving DecidableEq

namespace StorageType

variable (type : StorageType)

/-- `alignof(seq_lock<STORAGE>)`. -/
def lockAlign : Nat := max cachelineBytes type.align

/-- `offsetof(seq_lock<STORAGE>, entry)`: behind the number and its padding. -/
def entryOffset : Nat := alignUp cachelineBytes type.align

/-- `sizeof(seq_lock<STORAGE>)`. -/
def sizeofLock : Nat := alignUp (type.entryOffset + type.size) type.lockAlign

/-- The size that `shmem_buf::init` gives the object. -/
def objectSize : Nat := type.sizeofLock + sizeofTailer type.format

theorem align_pos : 0 < type.align := by
  obtain ⟨exponent, power⟩ := type.align_power
  rw [power]
  exact Nat.two_pow_pos exponent

/-- A cache line and an alignment divide each other one way or the other. -/
theorem cacheline_or_align : cachelineBytes ∣ type.align ∨ type.align ∣ cachelineBytes := by
  obtain ⟨exponent, power⟩ := type.align_power
  rw [power, show cachelineBytes = 2 ^ 6 from rfl]
  rcases Nat.le_total 6 exponent with large | small
  · exact .inl (pow_dvd_pow 2 large)
  · exact .inr (pow_dvd_pow 2 small)

/-- The entry stands at the larger of a cache line and its alignment. -/
theorem entryOffset_eq : type.entryOffset = type.lockAlign := by
  have positive := type.align_pos
  rcases type.cacheline_or_align with large | small
  · have ordered := Nat.le_of_dvd positive large
    rw [lockAlign, Nat.max_eq_right ordered]
    exact alignUp_eq ordered (Nat.lt_add_of_pos_left (by decide)) (Nat.dvd_refl _)
  · rw [lockAlign, Nat.max_eq_left (Nat.le_of_dvd (by decide) small)]
    exact alignUp_of_dvd positive small

theorem lockAlign_pos : 0 < type.lockAlign := Nat.lt_of_lt_of_le (by decide) (Nat.le_max_left _ _)

/-- Whole cache lines make up the alignment of the lock. -/
theorem cacheline_dvd_lockAlign : cachelineBytes ∣ type.lockAlign := by
  rcases type.cacheline_or_align with large | small
  · rwa [lockAlign, Nat.max_eq_right (Nat.le_of_dvd type.align_pos large)]
  · rw [lockAlign, Nat.max_eq_left (Nat.le_of_dvd (by decide) small)]

/-- The first cache line belongs to the number. -/
theorem cacheline_le_entryOffset : cachelineBytes ≤ type.entryOffset := by
  rw [entryOffset_eq]
  exact Nat.le_max_left _ _

/-- The number lies in front of the entry. -/
theorem four_le_entryOffset : 4 ≤ type.entryOffset :=
  Nat.le_trans (by decide) type.cacheline_le_entryOffset

/-- The entry lies inside the lock. -/
theorem entry_inside : type.entryOffset + type.size ≤ type.sizeofLock :=
  le_alignUp _ type.lockAlign_pos

/-- The lock is a whole number of cache lines. -/
theorem cacheline_dvd_sizeofLock : cachelineBytes ∣ type.sizeofLock :=
  type.cacheline_dvd_lockAlign.trans (dvd_alignUp _ _)

/-- The tailer holds the hash and all characters of the format. -/
theorem tailer_holds : 4 + type.format.length ≤ sizeofTailer type.format :=
  le_alignUp _ (by decide)

/-- The object's last, incomplete cache line is the tailer. -/
theorem objectSize_mod : type.objectSize % cachelineBytes = sizeofTailer type.format := by
  obtain ⟨lines, whole⟩ := type.cacheline_dvd_sizeofLock
  rw [objectSize, whole, Nat.mul_add_mod, Nat.mod_eq_of_lt type.tailer_fits]

/-- Of two locks of different sizes the larger reaches past the smaller's tailer. -/
theorem objectSize_le_of_lt (other : StorageType) (smaller : type.sizeofLock < other.sizeofLock) :
    type.objectSize ≤ other.sizeofLock := by
  obtain ⟨lines, whole⟩ := type.cacheline_dvd_sizeofLock
  obtain ⟨others, wholeOther⟩ := other.cacheline_dvd_sizeofLock
  have fits := type.tailer_fits
  rw [whole, wholeOther] at smaller
  rw [objectSize, whole, wholeOther]
  have more := Nat.lt_of_mul_lt_mul_left smaller
  have next := Nat.mul_le_mul_left cachelineBytes more
  rw [Nat.mul_succ] at next
  omega

end StorageType

/-- A single `int`. -/
def oneInt : StorageType where
  size := 4
  align := 4
  hash := 1
  format := [105]
  size_pos := by decide
  align_power := ⟨2, rfl⟩
  align_dvd := by decide
  format_nulFree := by decide
  tailer_fits := by decide

/-- A single `float`. -/
def oneFloat : StorageType where
  size := 4
  align := 4
  hash := 2
  format := [102]
  size_pos := by decide
  align_power := ⟨2, rfl⟩
  align_dvd := by decide
  format_nulFree := by decide
  tailer_fits := by decide

/-- An `int` and a `float`. -/
def intAndFloat : StorageType where
  size := 8
  align := 4
  hash := 5
  format := [105, 102]
  size_pos := by decide
  align_power := ⟨2, rfl⟩
  align_dvd := by decide
  format_nulFree := by decide
  tailer_fits := by decide

/-- Nine `double`s. -/
def nineDoubles : StorageType where
  size := 72
  align := 8
  hash := 3
  format := List.replicate 9 100
  size_pos := by decide
  align_power := ⟨3, rfl⟩
  align_dvd := by decide
  format_nulFree := by decide
  tailer_fits := by decide

/-- Sixteen `float`s, as they are stored without debug data. -/
def bareFloats : StorageType where
  size := 64
  align := 4
  hash := 4
  format := []
  size_pos := by decide
  align_power := ⟨2, rfl⟩
  align_dvd := by decide
  format_nulFree := by decide
  tailer_fits := by decide

/-- An `int` in a `struct` that is aligned to 2048 bytes. -/
def alignedInt : StorageType where
  size := 2048
  align := 2048
  hash := 6
  format := [105]
  size_pos := by decide
  align_power := ⟨11, rfl⟩
  align_dvd := by decide
  format_nulFree := by decide
  tailer_fits := by decide

end Tyndall.Ipc
