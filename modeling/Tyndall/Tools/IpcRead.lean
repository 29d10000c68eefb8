import Tyndall.Ipc.Shmem
import Tyndall.Meta.Hash

/-!
# What the reader tool makes of an object's size

The reader tool knows of a topic only the size of its object. It takes the entry
to start behind one cache line and to end eight bytes before the object, and the
last incomplete cache line to be the tailer, with a format if it is longer than
the hash. The writer's sizes come from the storage type and its format.
-/

namespace Tyndall.Tools

open Tyndall.Alignment Ipc Meta SeqLock

/-- `ipc_buf`, from the start of the mapping. -/
def ipcBuf : Nat := cachelineBytes

/-- `buf_size`. The two `int`s stand for the sequence number and the hash. -/
def bufSize (ipcSize : Nat) : Nat := ipcSize - 2 * 4 - cachelineBytes

/-- `debug_tail_size`. -/
def debugTailSize (ipcSize : Nat) : Nat := ipcSize % cachelineBytes

/-- `type_info_hash_size`. -/
def typeInfoHashSize : Nat := 4

/-- The condition of the formatted branch. -/
def printsFormatted (ipcSize : Nat) : Bool := debugTailSize ipcSize > typeInfoHashSize

/-- `debug_format_loc`, from the start of the mapping. -/
def debugFormatLoc (ipcSize : Nat) : Nat := ipcSize - (debugTailSize ipcSize - typeInfoHashSize)

/-- The C string at `debug_format_loc`. The byte behind the object is on its last
page and zero. -/
def debugFormat (object : Block) : List UInt8 :=
  cString (object.bytes (debugFormatLoc object.size)
    (object.size + 1 - debugFormatLoc object.size))

/-- The tool's arithmetic on the size of an object agrees with the layout of the
storage type it was made for. -/
structure Agrees (type : StorageType) (object : Block) : Prop where
  starts : ipcBuf = type.entryOffset
  contains : type.entryOffset + type.size ≤ ipcBuf + bufSize object.size
  inside : ipcBuf + bufSize object.size ≤ object.size
  branch : printsFormatted object.size = true ↔ type.format ≠ []
  text : type.format ≠ [] → debugFormat object = type.format

/-- A topic's object after a sequence of writes. -/
def topicObject (type : StorageType) (entries : List (Entry UInt8 type.size)) : Block :=
  entries.foldl (fun object entry => putShared type object (write (sharedOf type object) entry))
    (initObject type Block.empty).2

/-- It is an object that the type established. -/
theorem topicObject_topic (type : StorageType) (entries : List (Entry UInt8 type.size)) :
    TopicOf type (topicObject type entries) := by
  induction entries using List.reverseRecOn with
  | nil => exact .created
  | append_singleton entries entry inductionHypothesis =>
    rw [topicObject, List.foldl_append]
    exact .stored _ _ inductionHypothesis

/-- There is a format behind the hash exactly when the tailer is longer than the hash. -/
theorem tailer_longer_iff (format : List UInt8) :
    sizeofTailer format > typeInfoHashSize ↔ format ≠ [] := by
  have whole := alignUp_eq_remainder (4 + format.length) (show 0 < 4 by decide)
  rw [sizeofTailer, typeInfoHashSize, whole, ← List.length_pos_iff]
  split <;> omega

/-- The format is found behind the hash. -/
theorem debugFormatLoc_eq (type : StorageType) :
    debugFormatLoc type.objectSize = type.sizeofLock + 4 := by
  have holds := type.tailer_holds
  rw [debugFormatLoc, debugTailSize, type.objectSize_mod, typeInfoHashSize, StorageType.objectSize]
  omega

/-- The string found there is the format: its characters are no NULs and what
follows them is zero. -/
theorem debugFormat_eq (type : StorageType) (entries : List (Entry UInt8 type.size)) :
    debugFormat (topicObject type entries) = type.format := by
  obtain ⟨established, padding⟩ := (topicObject_topic type entries).holds
  have holds := type.tailer_holds
  let count := type.objectSize + 1 - (type.sizeofLock + 4)
  have room : type.format.length < count := by
    simp only [count, StorageType.objectSize]
    omega
  have content : (topicObject type entries).bytes (type.sizeofLock + 4) count =
      type.format ++ List.replicate (count - type.format.length) 0 := by
    apply List.ext_getElem (by simp [Block.bytes]; omega)
    intro k below _
    simp only [Block.bytes, List.getElem_map, List.getElem_range]
    by_cases inside : k < type.format.length
    · rw [established.format k inside, List.getElem_append_left inside,
        List.getD_eq_getElem _ _ inside]
    · rw [padding _ (by omega), List.getElem_append_right (Nat.le_of_not_lt inside),
        List.getElem_replicate]
  rw [debugFormat, established.size, debugFormatLoc_eq, content, cString,
    List.takeWhile_append_of_pos]
  · obtain ⟨rest, more⟩ : ∃ rest, count - type.format.length = rest + 1 :=
      ⟨count - type.format.length - 1, by omega⟩
    simp [more, List.replicate_succ]
  · intro c member
    have nonzero : c ≠ 0 := fun zero => type.format_nulFree (zero ▸ member)
    simpa using nonzero

/-- The entry stands behind one cache line unless its alignment is larger. -/
theorem entryOffset_cacheline_iff (type : StorageType) :
    ipcBuf = type.entryOffset ↔ type.align ≤ cachelineBytes := by
  rw [type.entryOffset_eq, StorageType.lockAlign, ipcBuf]
  omega

/-- With such an alignment the lock's padding behind the entry has room for four
bytes exactly when the entry's last cache line has. -/
theorem padding_iff (type : StorageType) (small : type.align ≤ cachelineBytes) :
    type.entryOffset + type.size + 4 ≤ type.sizeofLock ↔
      0 < type.size % cachelineBytes ∧ type.size % cachelineBytes + 4 ≤ cachelineBytes := by
  have offset := (entryOffset_cacheline_iff type).mpr small
  have positive : 0 < cachelineBytes := by decide
  have low := le_alignUp (cachelineBytes + type.size) positive
  have high := alignUp_lt (cachelineBytes + type.size) positive
  have whole := dvd_alignUp (cachelineBytes + type.size) cachelineBytes
  rw [StorageType.sizeofLock, ← type.entryOffset_eq, ← offset, ipcBuf]
  simp only [cachelineBytes] at *
  omega

/-- The tool agrees with the writer if and only if the entry needs no larger
alignment than a cache line, and either a format is stored or the last cache line
of the entry has at least four bytes of padding.

Proof: the format is always found. The copied region ends eight bytes before the
object, of which the hash alone makes up four. -/
theorem tool_agrees_iff (type : StorageType) (entries : List (Entry UInt8 type.size)) :
    Agrees type (topicObject type entries) ↔ type.align ≤ cachelineBytes ∧
      (type.format ≠ [] ∨
        0 < type.size % cachelineBytes ∧ type.size % cachelineBytes + 4 ≤ cachelineBytes) := by
  have size := (topicObject_topic type entries).holds.1.size
  have longer := tailer_longer_iff type.format
  have holds := type.tailer_holds
  have entry := type.entry_inside
  have line := type.cacheline_le_entryOffset
  have some_bytes := type.size_pos
  obtain ⟨lines, whole⟩ := type.cacheline_dvd_sizeofLock
  have fours : 4 ∣ sizeofTailer type.format := dvd_alignUp _ _
  rw [typeInfoHashSize] at longer
  have copied : ipcBuf + bufSize (topicObject type entries).size =
      type.sizeofLock + sizeofTailer type.format - 8 := by
    rw [size, ipcBuf, bufSize, StorageType.objectSize]
    simp only [cachelineBytes] at *
    omega
  constructor
  · intro agrees
    have small := (entryOffset_cacheline_iff type).mp agrees.starts
    refine ⟨small, ?_⟩
    by_cases stored : type.format = []
    · right
      have bare : ¬ sizeofTailer type.format > 4 := fun more => longer.mp more stored
      have contains := agrees.contains
      rw [copied] at contains
      exact (padding_iff type small).mp (by omega)
    · exact .inl stored
  · rintro ⟨small, room⟩
    constructor
    case starts => exact (entryOffset_cacheline_iff type).mpr small
    case contains =>
      rw [copied]
      rcases room with stored | padded
      · have more := longer.mpr stored
        omega
      · have behind := (padding_iff type small).mpr padded
        omega
    case inside =>
      rw [copied, size, StorageType.objectSize]
      exact Nat.sub_le _ _
    case branch =>
      rw [printsFormatted, debugTailSize, size, type.objectSize_mod, decide_eq_true_eq]
      exact longer
    case text => exact fun _ => debugFormat_eq type entries

/-- The copied region ends four bytes before the end of the last `float`. -/
theorem tool_agrees_fails : (topicObject bareFloats []).size = 132 ∧
    ipcBuf + bufSize 132 = 124 ∧ bareFloats.entryOffset + bareFloats.size = 128 ∧
    ¬ Agrees bareFloats (topicObject bareFloats []) := by
  have size : (topicObject bareFloats []).size = 132 := (topicObject_topic bareFloats []).holds.1.size
  refine ⟨size, by decide, by decide, fun agrees => ?_⟩
  have contains := agrees.contains
  rw [size] at contains
  exact absurd contains (by decide)

end Tyndall.Tools
