import Mathlib.Logic.Function.Basic
import Tyndall.Foundation.Block
import Tyndall.Ipc.Layout
import Tyndall.Ipc.SeqLock

/-!
# Shared memory objects and their initialisation

Names in `/dev/shm` lead to memory objects. Unlinking removes a name and leaves
the object to those who have mapped it, and opening a name that is not there
creates an empty object. `shmem_buf::init` opens a topic's object, gives it the
size for the buffer's type, stores the debug format and installs the type's hash
where no hash is yet. The system calls are taken to succeed.
-/

namespace Tyndall.Ipc

open SeqLock

/-- A name in `/dev/shm`. -/
abbrev Name := List UInt8

/-- The shared memory of a machine: the names, and every object ever created. -/
structure Shm where
  directory : List (Name × Nat) := []
  object : Nat → Block := fun _ => Block.empty
  next : Nat := 0

namespace Shm

/-- The object a name leads to. -/
def find (shm : Shm) (name : Name) : Option Nat := shm.directory.lookup name

/-- Change one object. -/
def modify (shm : Shm) (id : Nat) (change : Block → Block) : Shm :=
  { shm with object := Function.update shm.object id (change (shm.object id)) }

end Shm

/-- `shm_open` with `O_CREAT`. -/
def shmOpen (shm : Shm) (name : Name) : Nat × Shm :=
  match shm.find name with
  | some id => (id, shm)
  | none =>
    (shm.next,
      { directory := (name, shm.next) :: shm.directory,
        object := Function.update shm.object shm.next Block.empty,
        next := shm.next + 1 })

/-- `shmem_create`: open the object, set its size and map it. The mapping stays
with the object. -/
def shmemCreate (shm : Shm) (name : Name) (size : Nat) : Nat × Shm :=
  let (id, shm) := shmOpen shm name
  (id, shm.modify id (fun block => block.resize size))

/-- `shmem_unlink`, where it succeeds. -/
def shmemUnlink (shm : Shm) (name : Name) : Shm :=
  { shm with directory := shm.directory.filter (fun entry => entry.1 ≠ name) }

/-- The inner loop of `shmem_unlink_all`. A directory entry's name ends in a NUL. -/
def matchesPrefix (dirName wanted : Name) : Bool :=
  (List.range wanted.length).all (fun i => dirName.getD i 0 == wanted.getD i 0)

/-- `shmem_unlink_all`: unlink every matching name that `readdir` returns. -/
def shmemUnlinkAll (shm : Shm) (wanted : Name) : Shm :=
  (shm.directory.map Prod.fst).foldl
    (fun shm dirName => if matchesPrefix dirName wanted then shmemUnlink shm dirName else shm) shm

/-- `smp_cmp_xch` on the word at an offset. -/
def smpCmpXch (block : Block) (offset : Nat) (expected desired : UInt32) : Int × Block :=
  if block.load32 offset = expected then (0, block.store32 offset desired) else (-1, block)

/-- `shmem_buf::init` once the object is created: store the debug format, put the
hash where none is and compare otherwise. The flag says whether the assertion on
the type hash passed. -/
def validate (type : StorageType) (block : Block) : Bool × Block :=
  let block := block.setAll (type.sizeofLock + 4) type.format
  let exchanged := smpCmpXch block type.sizeofLock 0 type.hash
  if exchanged.1 = -1 then
    (exchanged.2.load32 type.sizeofLock == type.hash, exchanged.2)
  else (true, exchanged.2)

/-- `shmem_buf::init`. A failed assertion ends the process. -/
def shmemBufInit (shm : Shm) (type : StorageType) (name : Name) : Option (Nat × Shm) :=
  let (id, shm) := shmemCreate shm name type.objectSize
  let (passed, block) := validate type (shm.object id)
  if passed then some (id, shm.modify id (fun _ => block)) else none

/-- What `shmem_buf::init` does to the object it opens. -/
def initObject (type : StorageType) (block : Block) : Bool × Block :=
  validate type (block.resize type.objectSize)

/-- The object once `init` has sized it and stored the format. -/
def formatted (type : StorageType) (block : Block) : Block :=
  (block.resize type.objectSize).setAll (type.sizeofLock + 4) type.format

/-- The lock that a mapped object holds for a type. -/
def sharedOf (type : StorageType) (block : Block) : Shared UInt8 type.size where
  seq := block.load32 0
  entry i := block.byte (type.entryOffset + i)

/-- Store a lock into a mapped object. -/
def putShared (type : StorageType) (block : Block) (lock : Shared UInt8 type.size) : Block :=
  (block.store32 0 lock.seq).setAll type.entryOffset (List.ofFn lock.entry)

/-- An object initialised for a type: it has the type's size and in its tailer
the type's hash and format. -/
structure Established (type : StorageType) (block : Block) : Prop where
  size : block.size = type.objectSize
  hash : block.load32 type.sizeofLock = type.hash
  format : ∀ k < type.format.length,
    block.byte (type.sizeofLock + 4 + k) = type.format.getD k 0

section Objects

variable (type : StorageType) (block : Block)

/-- The tailer lies inside the object. -/
theorem tailer_inside : type.sizeofLock + 4 + type.format.length ≤ type.objectSize := by
  have holds := type.tailer_holds
  rw [StorageType.objectSize]
  omega

/-- Where there is no hash yet `init` stores its own and passes. -/
theorem initObject_vacant (vacant : (formatted type block).load32 type.sizeofLock = 0) :
    initObject type block = (true, (formatted type block).store32 type.sizeofLock type.hash) := by
  rw [formatted] at vacant ⊢
  simp [initObject, validate, smpCmpXch, vacant]

/-- Where there is a hash `init` stores nothing and compares. -/
theorem initObject_taken (taken : (formatted type block).load32 type.sizeofLock ≠ 0) :
    initObject type block =
      ((formatted type block).load32 type.sizeofLock == type.hash, formatted type block) := by
  rw [formatted] at taken ⊢
  simp [initObject, validate, smpCmpXch, taken]

/-- Initialising an established object again changes nothing and passes. -/
theorem initObject_established (established : Established type block) :
    initObject type block = (true, block) := by
  have same : formatted type block = block := by
    rw [formatted, ← established.size, Block.resize_same]
    exact Block.setAll_same block _ _ established.format
  by_cases vacant : block.load32 type.sizeofLock = 0
  · rw [initObject_vacant type block (by rw [same, vacant]), same, ← established.hash,
      Block.store32_load32]
  · rw [initObject_taken type block (by rwa [same]), same, established.hash, beq_self_eq_true]

/-- Initialising an object whose bytes at the hash are zero installs the type,
and leaves what stands before the hash and behind the format. -/
theorem initObject_installs
    (zero : ∀ k < 4, (block.resize type.objectSize).byte (type.sizeofLock + k) = 0) :
    (initObject type block).1 = true ∧ Established type (initObject type block).2 ∧
      ∀ i, i < type.sizeofLock ∨ type.sizeofLock + 4 + type.format.length ≤ i →
        (initObject type block).2.byte i = (block.resize type.objectSize).byte i := by
  have inside := tailer_inside type
  have size : (formatted type block).size = type.objectSize := Block.setAll_size _ _ _
  have vacant : (formatted type block).load32 type.sizeofLock = 0 := by
    apply Block.load32_zero
    intro k below
    rw [formatted, Block.setAll_byte_outside _ _ _ _ (.inl (by omega))]
    exact zero k below
  rw [initObject_vacant type block vacant]
  refine ⟨rfl, ⟨?_, ?_, ?_⟩, ?_⟩
  · rw [Block.store32_size, size]
  · exact Block.load32_store32 _ _ _ (by omega)
  · intro k below
    rw [Block.store32_byte_outside _ _ _ _ (.inr (by omega)), formatted, Block.setAll_byte,
      if_pos ⟨by omega, by omega, by rw [Block.resize_size]; omega⟩, Nat.add_sub_cancel_left]
  · intro i outside
    rw [Block.store32_byte_outside _ _ _ _ (by omega), formatted,
      Block.setAll_byte_outside _ _ _ _ (by omega)]

/-- Initialising a new object establishes the type with a zeroed lock, and leaves
the padding behind the format zero. -/
theorem initObject_empty :
    (initObject type Block.empty).1 = true ∧ Established type (initObject type Block.empty).2 ∧
      sharedOf type (initObject type Block.empty).2 = created ∧
      ∀ i, type.sizeofLock + 4 + type.format.length ≤ i →
        (initObject type Block.empty).2.byte i = 0 := by
  have zero : ∀ i, (Block.empty.resize type.objectSize).byte i = 0 := by simp
  obtain ⟨passed, established, kept⟩ :=
    initObject_installs type Block.empty (fun k _ => zero (type.sizeofLock + k))
  have inside := type.entry_inside
  have number := type.four_le_entryOffset
  refine ⟨passed, established, ?_, ?_⟩
  · rw [sharedOf, created, Shared.mk.injEq]
    constructor
    · apply Block.load32_zero
      intro k below
      rw [kept (0 + k) (by omega), zero]
    · funext i
      rw [kept (type.entryOffset + i) (by omega), zero]
  · intro i behind
    rw [kept i (.inr behind), zero]

/-- A lock is stored in front of the tailer. -/
theorem putShared_tailer (lock : Shared UInt8 type.size) (i : Nat) (behind : type.sizeofLock ≤ i) :
    (putShared type block lock).byte i = block.byte i := by
  have inside := type.entry_inside
  have number := type.four_le_entryOffset
  rw [putShared, Block.setAll_byte_outside _ _ _ _ (.inr (by rw [List.length_ofFn]; omega)),
    Block.store32_byte_outside _ _ _ _ (.inr (by omega))]

/-- A lock stored into an established object is there, and the object stays established. -/
theorem putShared_established (established : Established type block)
    (lock : Shared UInt8 type.size) :
    sharedOf type (putShared type block lock) = lock ∧
      Established type (putShared type block lock) := by
  have inside := type.entry_inside
  have number := type.four_le_entryOffset
  have room : type.sizeofLock ≤ type.objectSize := Nat.le_add_right _ _
  have size := established.size
  have tailer := putShared_tailer type block lock
  refine ⟨?_, ?_, ?_, ?_⟩
  · cases lock with
    | mk seq entry =>
      rw [sharedOf, Shared.mk.injEq]
      constructor
      · refine (Block.load32_congr _ _ _ fun k below => ?_).trans
          (Block.load32_store32 block 0 seq (by omega))
        exact Block.setAll_byte_outside _ _ _ _ (.inl (by omega))
      · funext i
        have bounded := i.isLt
        rw [putShared, Block.setAll_byte, if_pos, Nat.add_sub_cancel_left, List.getD_eq_getElem]
        · simp
        · rw [List.length_ofFn]
          exact bounded
        · rw [List.length_ofFn, Block.store32_size]
          omega
  · rw [putShared, Block.setAll_size, Block.store32_size, size]
  · rw [← established.hash]
    exact Block.load32_congr _ _ _ fun k _ => tailer _ (by omega)
  · intro k below
    rw [tailer _ (by omega)]
    exact established.format k below

end Objects

/-- The objects of a topic that a type established: created by its `init`, opened by
more of its buffers, and with any lock stored through them. -/
inductive TopicOf (type : StorageType) : Block → Prop where
  | created : TopicOf type (initObject type Block.empty).2
  | opened (object : Block) (before : TopicOf type object) : TopicOf type (initObject type object).2
  | stored (object : Block) (lock : Shared UInt8 type.size) (before : TopicOf type object) :
      TopicOf type (putShared type object lock)

/-- They hold the type's hash and format, and zeros behind the format. -/
theorem TopicOf.holds {type : StorageType} {object : Block} (topic : TopicOf type object) :
    Established type object ∧
      ∀ i, type.sizeofLock + 4 + type.format.length ≤ i → object.byte i = 0 := by
  induction topic with
  | created =>
    obtain ⟨-, established, -, padding⟩ := initObject_empty type
    exact ⟨established, padding⟩
  | opened object _ inductionHypothesis =>
    rw [initObject_established type object inductionHypothesis.1]
    exact inductionHypothesis
  | stored object lock _ inductionHypothesis =>
    obtain ⟨established, padding⟩ := inductionHypothesis
    refine ⟨(putShared_established type object established lock).2, ?_⟩
    intro i behind
    rw [putShared_tailer type object lock i (by omega), padding i behind]

section Opening

variable (shm : Shm) (type : StorageType) (name : Name)

@[simp] theorem Shm.modify_object (id : Nat) (change : Block → Block) :
    (shm.modify id change).object id = change (shm.object id) := by
  simp [Shm.modify]

/-- A change that leaves the object as it is. -/
theorem Shm.modify_same (id : Nat) : shm.modify id (fun _ => shm.object id) = shm := by
  simp [Shm.modify]

/-- Constructing a buffer opens the object and initialises it. -/
theorem shmemBufInit_eq :
    shmemBufInit shm type name =
      if (initObject type ((shmOpen shm name).2.object (shmOpen shm name).1)).1 then
        some ((shmOpen shm name).1, (shmOpen shm name).2.modify (shmOpen shm name).1
          (fun _ => (initObject type ((shmOpen shm name).2.object (shmOpen shm name).1)).2))
      else none := by
  simp only [shmemBufInit, shmemCreate, Shm.modify_object, initObject]
  split <;> next passed => simp [passed, Shm.modify]

/-- Opening an established topic again changes nothing. -/
theorem shmemBufInit_found (id : Nat) (found : shm.find name = some id)
    (established : Established type (shm.object id)) :
    shmemBufInit shm type name = some (id, shm) := by
  have opened : shmOpen shm name = (id, shm) := by rw [shmOpen, found]
  rw [shmemBufInit_eq, opened]
  simp only [initObject_established type _ established, if_true, Shm.modify_same]

/-- Opening a name that is not there creates an established object without entries. -/
theorem shmemBufInit_missing (missing : shm.find name = none) :
    ∃ object, Established type object ∧ sharedOf type object = created ∧
      shmemBufInit shm type name = some (shm.next,
        { directory := (name, shm.next) :: shm.directory,
          object := Function.update shm.object shm.next object,
          next := shm.next + 1 }) := by
  obtain ⟨passed, established, zeroed, -⟩ := initObject_empty type
  refine ⟨_, established, zeroed, ?_⟩
  rw [shmemBufInit_eq, shmOpen, missing]
  simp [passed, Shm.modify]

end Opening

section Directory

/-- The loop compares exactly the prefix. -/
theorem matchesPrefix_append (wanted rest : Name) : matchesPrefix (wanted ++ rest) wanted = true := by
  simp only [matchesPrefix, List.all_eq_true, List.mem_range, beq_iff_eq]
  intro i inside
  exact List.getD_append _ _ _ _ inside

/-- Once every name has the prefix, unlinking all leaves no name. Objects stay. -/
theorem shmemUnlinkAll_clears (shm : Shm) (wanted : Name)
    (all : ∀ entry ∈ shm.directory, matchesPrefix entry.1 wanted = true) :
    shmemUnlinkAll shm wanted = { shm with directory := [] } := by
  suffices unlinked : ∀ (names : List Name) (shm : Shm),
      (∀ entry ∈ shm.directory, matchesPrefix entry.1 wanted = true) →
      (∀ name ∈ names, matchesPrefix name wanted = true) →
      names.foldl (fun shm dirName =>
          if matchesPrefix dirName wanted then shmemUnlink shm dirName else shm) shm =
        { shm with directory := shm.directory.filter (fun entry => entry.1 ∉ names) } by
    have names : ∀ name ∈ shm.directory.map Prod.fst, matchesPrefix name wanted = true := by
      intro name member
      obtain ⟨entry, inside, rfl⟩ := List.mem_map.mp member
      exact all entry inside
    rw [shmemUnlinkAll, unlinked _ shm all names]
    have none_left : shm.directory.filter (fun entry => entry.1 ∉ shm.directory.map Prod.fst) = [] := by
      rw [List.filter_eq_nil_iff]
      intro entry inside
      simpa using ⟨entry.2, inside⟩
    rw [none_left]
  intro names
  induction names with
  | nil => simp
  | cons name rest inductionHypothesis =>
    intro shm all wantedNames
    rw [List.foldl_cons, if_pos (wantedNames name List.mem_cons_self), inductionHypothesis]
    · simp [shmemUnlink, List.filter_filter, not_or, Bool.and_comm]
    · exact fun entry member => all entry (List.mem_of_mem_filter member)
    · exact fun other member => wantedNames other (List.mem_cons_of_mem _ member)

end Directory

end Tyndall.Ipc
