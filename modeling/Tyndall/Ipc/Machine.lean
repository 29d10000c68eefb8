import Tyndall.Ipc.Linearization
import Tyndall.Ipc.TypeCheck

/-!
# A machine of processes, names and buffers

Any number of buffers, in any processes, are constructed with names, write and
read, and are destroyed or die with their processes at any point. Names are
unlinked at any time, one after another as a cleanup does it, and the reader tool
may open a name before anyone else. Every access to shared memory is an atomic
step on the bytes of an object: a byte of the debug format or of an entry, or the
word of the hash or of the sequence number.

A name is used with one storage type. The object a name leads to may change when
the name is unlinked; a buffer keeps the object it has mapped.
-/

namespace Tyndall.Ipc.Machines

open Runs SeqLock

variable {H : Type} {kind : Name → StorageType}

/-- One `shmem_buf`: the object it has opened, how far `init` has come, and where
its thread stands in `write` and in `read`. A writer's place is `dead` once the
buffer is gone. -/
structure Handle (type : StorageType) where
  buf : Option Nat := none
  attach : Attach := .idle
  writer : Writer UInt8 type.size := .idle
  reader : Reader UInt8 type.size := {}

/-- The object of a buffer that is still there. -/
def Handle.mapped {type : StorageType} (handle : Handle type) : Option Nat :=
  match handle.writer with
  | .dead => none
  | _ => handle.buf

/-- The shared memory, the name each object was created under, and the buffers that
are constructed with each name. -/
structure Machine (H : Type) (kind : Name → StorageType) where
  shm : Shm := {}
  origin : Nat → Option Name := fun _ => none
  handle : (name : Name) → H → Handle (kind name) := fun _ _ => {}

/-- Scheduling choices. A buffer opens its name, takes its next step in `init`,
`write` or `read`, calls `write` or `read`, or vanishes. -/
inductive Action (H : Type) (kind : Name → StorageType) where
  | create (name : Name) (h : H)
  | init (name : Name) (h : H)
  | write (name : Name) (h : H) (entry : Entry UInt8 (kind name).size)
  | writer (name : Name) (h : H)
  | read (name : Name) (h : H) (copy : Entry UInt8 (kind name).size)
  | reader (name : Name) (h : H)
  | vanish (name : Name) (h : H)
  | unlink (name : Name)
  | peek (name : Name)

/-- What a step reports: a step inside `write` or `read`, with the object it acted
on, or one of the others. -/
inductive Event (H : Type) (kind : Name → StorageType) where
  | acted (name : Name) (h : H) (object : Nat) (event : SeqLock.Event H UInt8 (kind name).size)
  | created (name : Name) (h : H)
  | inited (name : Name) (h : H)
  | vanished (name : Name) (h : H)
  | unlinked (name : Name)
  | peeked (name : Name)

/-- The next atomic step of a writer inside `write`, on the bytes of its object. -/
def advanceStores (type : StorageType) (block : Block) : Writer UInt8 type.size →
    Option (SeqLock.Event H UInt8 type.size × Block × Writer UInt8 type.size)
  | .dead => none
  | .idle => none
  | .beginning entry =>
      some (.loaded (block.load32 0), block, .raising entry (seqLockWriteBegin (block.load32 0)))
  | .raising entry seq1 => some (.raised, block.store32 0 seq1, .storing entry seq1 0)
  | .storing entry seq1 next =>
      if inside : next < type.size then
        some (.stored next, block.set (type.entryOffset + next) (entry ⟨next, inside⟩),
          .storing entry seq1 (next + 1))
      else some (.completed entry, block.store32 0 (seqLockWriteEnd seq1), .idle)

namespace Machine

/-- `shm_open` with `O_CREAT`. A new object remembers its name. -/
def openName (machine : Machine H kind) (name : Name) : Nat × Machine H kind :=
  match machine.shm.find name with
  | some object => (object, machine)
  | none =>
    ((shmOpen machine.shm name).1,
      { machine with
        shm := (shmOpen machine.shm name).2,
        origin := Function.update machine.origin machine.shm.next (some name) })

variable [DecidableEq H]

/-- Replace one buffer. -/
def put (machine : Machine H kind) (name : Name) (h : H) (handle : Handle (kind name)) :
    Machine H kind :=
  { machine with
    handle := Function.update machine.handle name
      (Function.update (machine.handle name) h handle) }

/-- Replace one buffer and the contents of an object. -/
def act (machine : Machine H kind) (name : Name) (h : H) (object : Nat) (block : Block)
    (handle : Handle (kind name)) : Machine H kind :=
  { machine.put name h handle with shm := machine.shm.modify object (fun _ => block) }

/-- One atomic step. -/
def perform (machine : Machine H kind) : Action H kind → Option (Event H kind × Machine H kind)
  | .create name h =>
      match (machine.handle name h).buf, (machine.handle name h).writer with
      | none, .idle =>
          let (object, opened) := machine.openName name
          some (.created name h,
            opened.put name h { machine.handle name h with buf := some object })
      | _, _ => none
  | .init name h => do
      let object ← (machine.handle name h).mapped
      let (block, attach) ←
        advanceInit (kind name) (machine.shm.object object) (machine.handle name h).attach
      pure (.inited name h,
        machine.act name h object block { machine.handle name h with attach := attach })
  | .write name h entry => do
      let object ← (machine.handle name h).mapped
      match (machine.handle name h).attach, (machine.handle name h).writer with
      | .attached, .idle =>
          some (.acted name h object (.called entry),
            machine.put name h { machine.handle name h with writer := .beginning entry })
      | _, _ => none
  | .writer name h => do
      let object ← (machine.handle name h).mapped
      let (event, block, writer) ←
        advanceStores (kind name) (machine.shm.object object) (machine.handle name h).writer
      pure (.acted name h object event,
        machine.act name h object block { machine.handle name h with writer := writer })
  | .read name h copy => do
      let object ← (machine.handle name h).mapped
      match (machine.handle name h).attach, (machine.handle name h).reader.phase with
      | .attached, .idle =>
          some (.acted name h object (.readCalled h),
            machine.put name h { machine.handle name h with
              reader := { (machine.handle name h).reader with phase := .spinning copy } })
      | _, _ => none
  | .reader name h => do
      let object ← (machine.handle name h).mapped
      let (event, reader) ← advanceReader (sharedOf (kind name) (machine.shm.object object)) h
        (machine.handle name h).reader
      pure (.acted name h object event,
        machine.put name h { machine.handle name h with reader := reader })
  | .vanish name h =>
      match (machine.handle name h).writer with
      | .dead => none
      | .idle =>
          some (.vanished name h,
            machine.put name h { machine.handle name h with writer := .dead })
      | .beginning _ | .raising _ _ | .storing _ _ _ => do
          let object ← (machine.handle name h).buf
          pure (.acted name h object .died,
            machine.put name h { machine.handle name h with writer := .dead })
  | .unlink name => some (.unlinked name, { machine with shm := shmemUnlink machine.shm name })
  | .peek name => some (.peeked name, (machine.openName name).2)

end Machine

/-- What the library asks of its users: one writer at a time on an object, and no
write that begins on a number which a dead writer left odd. -/
def Disciplined (machine : Machine H kind) : Event H kind → Prop
  | .acted name h object (.called _) => ∀ other, other ≠ h →
      (machine.handle name other).mapped = some object →
      (machine.handle name other).writer.inside = false
  | .acted _ _ _ (.loaded seq) => seq &&& 1 = 0
  | _ => True

/-- Runs of a machine whose users keep to that. -/
abbrev DisciplinedRun [DecidableEq H] (events : List (Event H kind)) (final : Machine H kind) :
    Prop :=
  Run (Guarded Disciplined (Steps Machine.perform)) {} events final

section Objects

variable (type : StorageType) (block : Block)

/-- An object made under a name: empty or of its type's size, with no hash or its
type's. -/
structure Tailored : Prop where
  size : block.size = 0 ∨ block.size = type.objectSize
  hash : block.load32 type.sizeofLock = 0 ∨ block.load32 type.sizeofLock = type.hash

/-- What a call of `init` has established by the time it has come so far. -/
def Reached : Attach → Prop
  | .idle => True
  | .storing next => block.size = type.objectSize ∧ next ≤ type.format.length ∧
      ∀ k < next, block.byte (type.sizeofLock + 4 + k) = type.format.getD k 0
  | .checking | .attached => Established type block
  | .failed => False

variable {type block}

/-- Two objects with one tailer are alike in all that `init` establishes. -/
theorem tailer_congr {other : Block} (size : other.size = block.size)
    (bytes : ∀ i, type.sizeofLock ≤ i → other.byte i = block.byte i) :
    (Tailored type block → Tailored type other) ∧
      ∀ attach, Reached type block attach → Reached type other attach := by
  have hash : other.load32 type.sizeofLock = block.load32 type.sizeofLock :=
    Block.load32_congr _ _ _ (fun k _ => bytes _ (by omega))
  constructor
  · rintro ⟨sized, hashed⟩
    exact ⟨by rwa [size], by rwa [hash]⟩
  · intro attach reached
    cases attach with
    | idle => trivial
    | failed => exact reached
    | storing next =>
      obtain ⟨sized, bounded, stored⟩ := reached
      exact ⟨size.trans sized, bounded, fun k below => by rw [bytes _ (by omega), stored k below]⟩
    | checking | attached =>
      obtain ⟨sized, hashed, stored⟩ := reached
      exact ⟨size.trans sized, hash.trans hashed,
        fun k below => by rw [bytes _ (by omega), stored k below]⟩

/-- Sizing an object of a type leaves its bytes. -/
theorem Tailored.resize (tailored : Tailored type block) (i : Nat) :
    (block.resize type.objectSize).byte i = block.byte i := by
  rw [Block.resize_byte]
  split
  · rfl
  · rcases tailored.size with empty | whole
    · exact (block.beyond i (by omega)).symm
    · exact (block.beyond i (by omega)).symm

/-- A lock lies in front of the tailer. -/
theorem sharedOf_congr {other : Block}
    (bytes : ∀ i, i < type.sizeofLock → other.byte i = block.byte i) :
    sharedOf type other = sharedOf type block := by
  have inside := type.entry_inside
  have number := type.four_le_entryOffset
  rw [sharedOf, sharedOf, Shared.mk.injEq]
  constructor
  · exact Block.load32_congr _ _ _ (fun k _ => bytes _ (by omega))
  · funext i
    exact bytes _ (by omega)

/-- Storing a character of the format again, or for the first time. -/
theorem stored_format {count : Nat} (more : count < type.format.length)
    (sized : block.size = type.objectSize) (k : Nat) :
    (block.set (type.sizeofLock + 4 + count) (type.format.getD count 0)).byte
        (type.sizeofLock + 4 + k) =
      if k = count then type.format.getD k 0 else block.byte (type.sizeofLock + 4 + k) := by
  have inside := tailer_inside type
  rw [Block.set_byte]
  by_cases same : k = count
  · rw [if_pos ⟨by omega, by omega⟩, if_pos same, same]
  · rw [if_neg (by omega), if_neg same]

/-- A character that `init` stores. -/
theorem store_format (tailored : Tailored type block) {count : Nat}
    (more : count < type.format.length) (reached : Reached type block (.storing count)) :
    let next := block.set (type.sizeofLock + 4 + count) (type.format.getD count 0)
    Tailored type next ∧ Reached type next (.storing (count + 1)) ∧
      sharedOf type next = sharedOf type block ∧
      ∀ other, Reached type block other → Reached type next other := by
  intro next
  obtain ⟨sized, _, stored⟩ := reached
  have format : ∀ k, next.byte (type.sizeofLock + 4 + k) =
      if k = count then type.format.getD k 0 else block.byte (type.sizeofLock + 4 + k) :=
    stored_format more sized
  have kept : ∀ k, block.byte (type.sizeofLock + 4 + k) = type.format.getD k 0 →
      next.byte (type.sizeofLock + 4 + k) = type.format.getD k 0 := by
    intro k here
    rw [format]
    split
    · rfl
    · exact here
  have front : ∀ i, i < type.sizeofLock + 4 → next.byte i = block.byte i := by
    intro i before
    rw [Block.set_byte, if_neg (by omega)]
  have hash : next.load32 type.sizeofLock = block.load32 type.sizeofLock :=
    Block.load32_congr _ _ _ (fun k _ => front _ (by omega))
  refine ⟨⟨tailored.size, by rw [hash]; exact tailored.hash⟩, ⟨sized, more, ?_⟩,
    sharedOf_congr (fun i before => front i (by omega)), ?_⟩
  · intro k below
    by_cases newest : k = count
    · rw [format, if_pos newest]
    · exact kept k (stored k (by omega))
  · intro other before
    cases other with
    | idle => trivial
    | failed => exact before
    | storing reached => exact ⟨sized, before.2.1, fun k below => kept k (before.2.2 k below)⟩
    | checking | attached =>
      exact ⟨sized, hash.trans before.hash, fun k below => kept k (before.format k below)⟩

/-- The hash that `init` installs. -/
theorem store_hash (tailored : Tailored type block)
    (reached : Reached type block (.storing type.format.length)) :
    let next := block.store32 type.sizeofLock type.hash
    Tailored type next ∧ Reached type next .attached ∧ sharedOf type next = sharedOf type block ∧
      ∀ other, Reached type block other → Reached type next other := by
  intro next
  have inside := tailer_inside type
  obtain ⟨sized, _, stored⟩ := reached
  have hash : next.load32 type.sizeofLock = type.hash := Block.load32_store32 _ _ _ (by omega)
  have size : next.size = block.size := Block.store32_size _ _ _
  have format : ∀ k, next.byte (type.sizeofLock + 4 + k) = block.byte (type.sizeofLock + 4 + k) :=
    fun k => Block.store32_byte_outside _ _ _ _ (.inr (by omega))
  refine ⟨⟨by rw [size]; exact tailored.size, .inr hash⟩,
    ⟨size.trans sized, hash, fun k below => (format k).trans (stored k below)⟩,
    sharedOf_congr (fun i before => Block.store32_byte_outside _ _ _ _ (.inl before)), ?_⟩
  intro other before
  cases other with
  | idle => trivial
  | failed => exact before
  | storing count =>
    exact ⟨size.trans sized, before.2.1, fun k below => (format k).trans (before.2.2 k below)⟩
  | checking | attached =>
    exact ⟨size.trans sized, hash, fun k below => (format k).trans (before.format k below)⟩

/-- One step of `init` on an object of its own type. It does not fail, leaves the
lock alone, and what other calls have established stays. -/
theorem advanceInit_tailored (tailored : Tailored type block) {attach after : Attach} {next : Block}
    (reached : Reached type block attach)
    (taken : advanceInit type block attach = some (next, after)) :
    Tailored type next ∧ Reached type next after ∧ sharedOf type next = sharedOf type block ∧
      ∀ other, Reached type block other → Reached type next other := by
  cases attach with
  | idle =>
    simp only [advanceInit, Option.some.injEq, Prod.mk.injEq] at taken
    obtain ⟨rfl, rfl⟩ := taken
    have same := tailored.resize
    have hash : (block.resize type.objectSize).load32 type.sizeofLock =
        block.load32 type.sizeofLock := Block.load32_congr _ _ _ (fun k _ => same _)
    refine ⟨⟨.inr rfl, by rw [hash]; exact tailored.hash⟩,
      ⟨rfl, Nat.zero_le _, fun k below => absurd below (Nat.not_lt_zero k)⟩,
      sharedOf_congr (fun i _ => same i), ?_⟩
    intro other before
    cases other with
    | idle => trivial
    | failed => exact before
    | storing count => exact ⟨rfl, before.2.1, fun k below => (same _).trans (before.2.2 k below)⟩
    | checking | attached =>
      exact ⟨rfl, hash.trans before.hash, fun k below => (same _).trans (before.format k below)⟩
  | storing count =>
    simp only [advanceInit] at taken
    split at taken
    · next more =>
      simp only [Option.some.injEq, Prod.mk.injEq] at taken
      obtain ⟨rfl, rfl⟩ := taken
      exact store_format tailored more reached
    · next finished =>
      have whole : count = type.format.length := Nat.le_antisymm reached.2.1 (by omega)
      subst whole
      by_cases vacant : block.load32 type.sizeofLock = 0
      · simp only [smpCmpXch, vacant, ↓reduceIte, Option.some.injEq, Prod.mk.injEq] at taken
        obtain ⟨rfl, rfl⟩ := taken
        exact store_hash tailored reached
      · simp only [smpCmpXch, vacant, ↓reduceIte, Option.some.injEq, Prod.mk.injEq] at taken
        obtain ⟨rfl, rfl⟩ := taken
        have installed := tailored.hash.resolve_left vacant
        exact ⟨tailored, ⟨reached.1, installed, reached.2.2⟩, rfl, fun _ before => before⟩
  | checking =>
    simp only [advanceInit, Option.some.injEq, Prod.mk.injEq] at taken
    obtain ⟨rfl, rfl⟩ := taken
    rw [if_pos reached.hash]
    exact ⟨tailored, reached, rfl, fun _ before => before⟩
  | attached => simp [advanceInit] at taken
  | failed => simp [advanceInit] at taken

/-- A word stored as the number is the lock's number and nothing else. -/
theorem sharedOf_store32 (sized : block.size = type.objectSize) (seq : UInt32) :
    sharedOf type (block.store32 0 seq) = { sharedOf type block with seq := seq } := by
  have inside := type.entry_inside
  have number := type.four_le_entryOffset
  have room : type.sizeofLock ≤ type.objectSize := Nat.le_add_right _ _
  rw [sharedOf, sharedOf, Shared.mk.injEq]
  constructor
  · exact Block.load32_store32 _ _ _ (by omega)
  · funext i
    exact Block.store32_byte_outside _ _ _ _ (.inr (by omega))

/-- A byte stored in the entry is one word of the lock's entry and nothing else. -/
theorem sharedOf_set (sized : block.size = type.objectSize) (index : Fin type.size) (word : UInt8) :
    sharedOf type (block.set (type.entryOffset + index) word) =
      (sharedOf type block).store index word := by
  have inside := type.entry_inside
  have number := type.four_le_entryOffset
  have room : type.sizeofLock ≤ type.objectSize := Nat.le_add_right _ _
  rw [sharedOf, sharedOf, Shared.store, Shared.mk.injEq]
  constructor
  · refine Block.load32_congr _ _ _ (fun k below => ?_)
    rw [Block.set_byte, if_neg (by omega)]
  · funext i
    have bounded := i.isLt
    rw [Block.set_byte]
    by_cases same : i = index
    · rw [same, if_pos ⟨rfl, by omega⟩, Function.update_self]
    · have apart : i.val ≠ index.val := fun equal => same (Fin.ext equal)
      rw [if_neg (by omega), Function.update_of_ne same]

/-- Bytes stored by a writer are what the lock's writer stores, in front of the
tailer. -/
theorem advanceStores_spec (sized : block.size = type.objectSize)
    (writer : Writer UInt8 type.size) {event : SeqLock.Event H UInt8 type.size} {next : Block}
    {after : Writer UInt8 type.size}
    (taken : advanceStores type block writer = some (event, next, after)) :
    advanceWriter (sharedOf type block) writer = some (event, sharedOf type next, after) ∧
      next.size = block.size ∧ ∀ i, type.sizeofLock ≤ i → next.byte i = block.byte i := by
  have inside := type.entry_inside
  have number := type.four_le_entryOffset
  cases writer with
  | dead => simp [advanceStores] at taken
  | idle => simp [advanceStores] at taken
  | beginning entry =>
    simp only [advanceStores, Option.some.injEq, Prod.mk.injEq] at taken
    obtain ⟨rfl, rfl, rfl⟩ := taken
    exact ⟨rfl, rfl, fun _ _ => rfl⟩
  | raising entry seq1 =>
    simp only [advanceStores, Option.some.injEq, Prod.mk.injEq] at taken
    obtain ⟨rfl, rfl, rfl⟩ := taken
    refine ⟨by rw [advanceWriter, sharedOf_store32 sized], Block.store32_size _ _ _, ?_⟩
    intro i behind
    exact Block.store32_byte_outside _ _ _ _ (.inr (by omega))
  | storing entry seq1 index =>
    simp only [advanceStores] at taken
    split at taken
    · next more =>
      simp only [Option.some.injEq, Prod.mk.injEq] at taken
      obtain ⟨rfl, rfl, rfl⟩ := taken
      refine ⟨?_, rfl, ?_⟩
      · rw [advanceWriter, dif_pos more]
        exact congrArg (fun lock => some (_, lock, _))
          (sharedOf_set sized ⟨index, more⟩ (entry ⟨index, more⟩)).symm
      · intro i behind
        rw [Block.set_byte, if_neg (by omega)]
    · next finished =>
      simp only [Option.some.injEq, Prod.mk.injEq] at taken
      obtain ⟨rfl, rfl, rfl⟩ := taken
      refine ⟨by rw [advanceWriter, dif_neg finished, sharedOf_store32 sized],
        Block.store32_size _ _ _, ?_⟩
      intro i behind
      exact Block.store32_byte_outside _ _ _ _ (.inr (by omega))

end Objects

end Tyndall.Ipc.Machines
