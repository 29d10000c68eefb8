import Tyndall.Ipc.Shmem

/-!
# What a rejected buffer leaves behind

`shmem_buf::init` sizes the object and stores its debug format before it compares
the hashes. A buffer whose hash is refused has done both by then, and the process
that established the topic goes on using the object. Nothing has changed only where
the sizes are equal and the characters stored were there already.
-/

namespace Tyndall.Ipc

open SeqLock

/-- A refused buffer has sized the object and stored its format. -/
theorem initObject_rejected (type : StorageType) (block : Block)
    (rejected : (initObject type block).1 = false) :
    (initObject type block).2 = formatted type block := by
  by_cases vacant : (formatted type block).load32 type.sizeofLock = 0
  · rw [initObject_vacant type block vacant] at rejected
    cases rejected
  · rw [initObject_taken type block vacant]

/-- Objects of one size have their locks end at one place. -/
theorem sizeofLock_of_objectSize (type other : StorageType)
    (same : other.objectSize = type.objectSize) : other.sizeofLock = type.sizeofLock := by
  have tailers : sizeofTailer other.format = sizeofTailer type.format := by
    rw [← type.objectSize_mod, ← other.objectSize_mod, same]
  rw [StorageType.objectSize, StorageType.objectSize, tailers] at same
  exact Nat.add_right_cancel same

/-- Sizing and storing a format change nothing exactly when the sizes agree and the
characters stored are there already. -/
theorem formatted_same_iff (type : StorageType) (block : Block) :
    formatted type block = block ↔ type.objectSize = block.size ∧
      ∀ k < type.format.length, block.byte (type.sizeofLock + 4 + k) = type.format.getD k 0 := by
  have inside := tailer_inside type
  constructor
  · intro same
    have size : type.objectSize = block.size := by
      rw [← same, formatted, Block.setAll_size, Block.resize_size]
    refine ⟨size, ?_⟩
    intro k below
    rw [← same, formatted, Block.setAll_byte, if_pos, Nat.add_sub_cancel_left]
    rw [Block.resize_size]
    omega
  · rintro ⟨size, characters⟩
    rw [formatted, size, Block.resize_same]
    exact Block.setAll_same block _ _ characters

/-- The characters behind the hash of a topic start with a format exactly when the
topic's own format does: a format has no NULs and zeros follow it. -/
theorem TopicOf.starts_iff {type : StorageType} {object : Block} (topic : TopicOf type object)
    (format : List UInt8) (nulFree : 0 ∉ format) :
    (∀ k < format.length, object.byte (type.sizeofLock + 4 + k) = format.getD k 0) ↔
      format <+: type.format := by
  obtain ⟨established, padding⟩ := topic.holds
  constructor
  · intro characters
    have shorter : format.length ≤ type.format.length := by
      by_contra longer
      have here := characters type.format.length (by omega)
      rw [padding _ (Nat.le_refl _), List.getD_eq_getElem _ _ (by omega)] at here
      exact nulFree (here ▸ List.getElem_mem _)
    rw [List.prefix_iff_eq_take]
    apply List.ext_getElem
    · rw [List.length_take, Nat.min_eq_left shorter]
    · intro k below _
      rw [List.getElem_take, ← List.getD_eq_getElem _ 0 below, ← characters k below,
        established.format k (by omega), List.getD_eq_getElem]
  · rintro ⟨rest, whole⟩ k below
    have inside : k < type.format.length := by
      rw [← whole, List.length_append]
      omega
    rw [established.format k inside, ← whole, List.getD_append _ _ _ _ below]

/-- A refused buffer leaves an object as it was if and only if it gives the object
the size that it has and the characters of its debug format stand where it stores
them. The object of a topic that only buffers of one type have touched is left alone
if and only if the sizes of the types agree and the topic's format starts with the
other.

Proof: a refused buffer has stored nothing but its size and its format. Equal sizes
put both formats at one place. -/
theorem rejected_unchanged_iff (other : StorageType) (object : Block)
    (rejected : (initObject other object).1 = false) :
    ((initObject other object).2 = object ↔ other.objectSize = object.size ∧
      ∀ k < other.format.length,
        object.byte (other.sizeofLock + 4 + k) = other.format.getD k 0) ∧
    ∀ type, TopicOf type object → ((initObject other object).2 = object ↔
      other.objectSize = type.objectSize ∧ other.format <+: type.format) := by
  rw [initObject_rejected other object rejected]
  constructor
  · exact formatted_same_iff other object
  · intro type topic
    rw [formatted_same_iff, topic.holds.1.size]
    constructor
    · rintro ⟨size, characters⟩
      rw [sizeofLock_of_objectSize type other size,
        topic.starts_iff other.format other.format_nulFree] at characters
      exact ⟨size, characters⟩
    · rintro ⟨size, starts⟩
      rw [sizeofLock_of_objectSize type other size,
        topic.starts_iff other.format other.format_nulFree]
      exact ⟨size, starts⟩

/-- An `int` is refused on the topic of an `int` and a `float` and leaves it alone. -/
theorem rejected_unchanged_prefix :
    (initObject oneInt (initObject intAndFloat Block.empty).2).2 =
      (initObject intAndFloat Block.empty).2 :=
  ((rejected_unchanged_iff oneInt _ (by decide)).2 intAndFloat .created).mpr
    ⟨by decide, [102], rfl⟩

/-- A `float` is refused on the topic of an `int` and leaves its format there. -/
theorem rejected_unchanged_fails : TopicOf oneInt (initObject oneInt Block.empty).2 ∧
    (initObject oneFloat (initObject oneInt Block.empty).2).1 = false ∧
    (initObject oneInt Block.empty).2.byte 132 = 105 ∧
    (initObject oneFloat (initObject oneInt Block.empty).2).2.byte 132 = 102 :=
  ⟨.created, by decide, by decide, by decide⟩

end Tyndall.Ipc
