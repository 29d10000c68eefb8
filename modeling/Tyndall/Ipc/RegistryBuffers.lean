import Tyndall.Foundation.Moves
import Tyndall.Foundation.Runs
import Tyndall.Ipc.Registry

/-!
# The buffers of the registry

A buffer holds a pointer to its mapping, which it unmaps when it is destroyed. It
cannot be copied: its move constructor takes the pointer and the state over and
nulls the pointer of its source. The registry of one kind of buffer and one
storage type is a vector, so a new item is moved into it from a temporary, and all
items are moved when the vector's storage grows, at moments that the vector
chooses.

A run of one process looks up, writes and reads in any order, while others change
the shared memory as they like. The registry has one item for each prepared id,
with a live mapping of the object that opening this id gave when the item was added,
and a state that its own reads of this object have left. With the pointers replaced
by what they point to, it is the list that the lazy interface was modelled with.
-/

namespace Tyndall.Ipc.Mapped

open Meta Moves Runs SeqLock

/-- A mapping of the process: the name it was opened with, and the object. -/
structure Mapping where
  name : Name
  object : Nat

/-- The mappings of the process, by address. An address is not used again. -/
structure AddressSpace where
  mapped : Nat → Option Mapping := fun _ => none
  next : Nat := 0

/-- `mmap`. -/
def AddressSpace.map (space : AddressSpace) (mapping : Mapping) : Nat × AddressSpace :=
  (space.next,
    { mapped := Function.update space.mapped space.next (some mapping), next := space.next + 1 })

/-- `shmem_unmap`. -/
def AddressSpace.unmap (space : AddressSpace) (address : Nat) : AddressSpace :=
  { space with mapped := Function.update space.mapped address none }

/-- `shmem_buf`: the pointer to the mapping, unless it is null, and the state. -/
structure ShmemBuf where
  buf : Option Nat
  state : State := {}

/-- `shmem_buf(shmem_buf&&)`: the new buffer, and what is left of the source. -/
def ShmemBuf.move (other : ShmemBuf) : ShmemBuf × ShmemBuf :=
  ({ buf := other.buf, state := other.state }, { other with buf := none })

/-- `shmem_buf::uninit`, which is all that the destructor does. -/
def ShmemBuf.uninit (self : ShmemBuf) (space : AddressSpace) : AddressSpace :=
  match self.buf with
  | none => space
  | some address => space.unmap address

/-- `registry_item`. -/
structure RegistryItem where
  id : Name
  transport : ShmemBuf

/-- Moving an item moves its members, and destroying it destroys them. -/
def registryItem : Movable RegistryItem AddressSpace where
  move item :=
    ({ id := item.id, transport := item.transport.move.1 },
      { id := [], transport := item.transport.move.2 })
  destroy item space := item.transport.uninit space

/-- The shared memory, and a process with its mappings and its registry. -/
structure Process where
  shm : Shm := {}
  space : AddressSpace := {}
  registry : GrowingArray RegistryItem := {}

/-- Constructing a buffer with an id. -/
def ShmemBuf.create (process : Process) (type : StorageType) (name : Name) :
    Option (ShmemBuf × Process) := do
  let (object, shm) ← shmemBufInit process.shm type name
  let (address, space) := process.space.map { name := name, object := object }
  pure ({ buf := some address }, { process with shm := shm, space := space })

section Calls

variable (growth : Nat → Nat) (type : StorageType)

/-- `create_ipc_rtid_lazy`: the index of the item whose buffer is returned. A new
item is built as a temporary, moved to the end of the vector and destroyed. -/
def createIpcRtidLazy (process : Process) (id : List UInt8) : Option (Nat × Process) :=
  let preparedId := idRtidPrepare id
  match process.registry.items.findIdx? (fun item => item.id = preparedId) with
  | some index => some (index, process)
  | none => do
      let (transport, process) ← ShmemBuf.create process type (cString preparedId)
      let (registry, temporary, space) := pushBack registryItem growth process.registry
        { id := preparedId, transport := transport } process.space
      let space := registryItem.destroy temporary space
      pure (registry.items.length - 1, { process with space := space, registry := registry })

/-- What a process does with the registry, and what others do to the shared memory. -/
inductive Action (size : Nat) where
  | lookup (id : List UInt8)
  | write (id : List UInt8) (entry : Entry UInt8 size)
  | read (id : List UInt8)
  | others (shm : Shm)

/-- What is seen of it: the index of the item that is returned for an id, and of a
read the lock that it found, too. -/
inductive Event (size : Nat) where
  | returned (id : List UInt8) (index : Nat)
  | read (id : List UInt8) (index : Nat) (lock : Shared UInt8 size) (rc : Code)
      (entry : Entry UInt8 size)
  | others

/-- The object behind an item's pointer. A null pointer, or one to nothing that is
mapped, cannot be followed. -/
def RegistryItem.object (item : RegistryItem) (space : AddressSpace) : Option Nat :=
  (item.transport.buf.bind space.mapped).map Mapping.object

/-- The item with the state that a read has left. -/
def RegistryItem.after (item : RegistryItem) (state : State) : RegistryItem :=
  { item with transport := { item.transport with state := state } }

/-- Execute one action. -/
def perform (process : Process) : Action type.size → Option (Event type.size × Process)
  | .lookup id => do
      let (index, process) ← createIpcRtidLazy growth type process id
      pure (.returned id index, process)
  | .write id entry => do
      let (index, process) ← createIpcRtidLazy growth type process id
      let item ← process.registry.items[index]?
      let object ← item.object process.space
      let shm := process.shm.modify object
        (fun block => putShared type block (SeqLock.write (sharedOf type block) entry))
      pure (.returned id index, { process with shm := shm })
  | .read id => do
      let (index, process) ← createIpcRtidLazy growth type process id
      let item ← process.registry.items[index]?
      let object ← item.object process.space
      let lock := sharedOf type (process.shm.object object)
      let (rc, entry, state) ← SeqLock.read lock item.transport.state
      let items := process.registry.items.set index (item.after state)
      pure (.read id index lock rc entry,
        { process with registry := { process.registry with items := items } })
  | .others shm => some (.others, { process with shm := shm })

end Calls

/-- The state that the reads for one name leave, each from the lock it found. -/
def stateLeft {size : Nat} (name : Name) (events : List (Event size)) : State :=
  events.foldl
    (fun state event =>
      match event with
      | .read id _ lock _ _ =>
          if idRtidPrepare id = name then
            match SeqLock.read lock state with
            | some (_, _, after) => after
            | none => state
          else state
      | _ => state) {}

/-- The id and the index of a call that has returned a buffer. -/
def Event.call {size : Nat} : Event size → Option (List UInt8 × Nat)
  | .returned id index => some (id, index)
  | .read id index _ _ _ => some (id, index)
  | .others => none

/-- An item has a live mapping, which was opened for its id. -/
def Owns (space : AddressSpace) (item : RegistryItem) : Prop :=
  ∃ address mapping, item.transport.buf = some address ∧ address < space.next ∧
    space.mapped address = some mapping ∧ mapping.name = cString item.id

/-- The registry after a run: one item for each prepared id, no two with the same
mapping, each with its own live mapping and the state that its own reads have
left. An id without an item has not been read. -/
structure Sound {size : Nat} (events : List (Event size)) (process : Process) : Prop where
  one_for_id : (process.registry.items.map RegistryItem.id).Nodup
  one_for_mapping : (process.registry.items.map (fun item => item.transport.buf)).Nodup
  owned : ∀ item ∈ process.registry.items, Owns process.space item
  own_reads : ∀ item ∈ process.registry.items, item.transport.state = stateLeft item.id events
  unread : ∀ name, name ∉ process.registry.items.map RegistryItem.id →
    stateLeft name events = {}

/-- A call for an id opens it: there is no item for the id, and `shmem_buf::init`
gives the object. -/
def Opens (type : StorageType) (process : Process) (event : Event type.size) (id : Name)
    (object : Nat) : Prop :=
  event.call.map (fun call => idRtidPrepare call.1) = some id ∧
    id ∉ process.registry.items.map RegistryItem.id ∧
    ∃ shm, shmemBufInit process.shm type (cString id) = some (object, shm)

/-- The object was given for the id by a call of the run. -/
def OpenedFor (growth : Nat → Nat) (type : StorageType) (events : List (Event type.size))
    (process : Process) (id : Name) (object : Nat) : Prop :=
  ∃ before event after earlier, events = before ++ event :: after ∧
    Run (Steps (perform growth type)) {} before earlier ∧
    Run (Steps (perform growth type)) earlier (event :: after) process ∧
    Opens type earlier event id object

/-- The buffer that is returned is the item of the id that was asked for, and a read
has found the lock in the object that the item has mapped. -/
def Returns (type : StorageType) (event : Event type.size) (process : Process) : Prop :=
  ∀ id index, event.call = some (id, index) →
    ∃ item, process.registry.items[index]? = some item ∧ item.id = idRtidPrepare id ∧
      ∀ lock rc entry, event = .read id index lock rc entry → ∃ object,
        item.object process.space = some object ∧
          lock = sharedOf type (process.shm.object object)

/-- A move carries the pointer and the state over and leaves nothing to unmap. -/
theorem registryItem_lawful : registryItem.Lawful where
  carries _ := rfl
  empties _ _ := rfl

/-- What looking an id up does: there is an item for it, and nothing changes, or
there is none and one is added at the end, with a new mapping. -/
theorem createIpcRtidLazy_cases {growth : Nat → Nat} {type : StorageType} {process next : Process}
    {id : List UInt8} {index : Nat}
    (created : createIpcRtidLazy growth type process id = some (index, next)) :
    (next = process ∧ ∃ item, process.registry.items[index]? = some item ∧
        item.id = idRtidPrepare id) ∨
      (idRtidPrepare id ∉ process.registry.items.map RegistryItem.id ∧
        index = process.registry.items.length ∧
        ∃ object shm capacity,
          shmemBufInit process.shm type (cString (idRtidPrepare id)) = some (object, shm) ∧
          next = {
            shm := shm
            space := (process.space.map { name := cString (idRtidPrepare id), object := object }).2
            registry := {
              items := process.registry.items ++
                [{ id := idRtidPrepare id, transport := { buf := some process.space.next } }]
              capacity := capacity } }) := by
  cases found : process.registry.items.findIdx? (fun item => item.id = idRtidPrepare id) with
  | some position =>
    simp only [createIpcRtidLazy, found, Option.some.injEq, Prod.mk.injEq] at created
    obtain ⟨rfl, rfl⟩ := created
    obtain ⟨inside, named, _⟩ := List.findIdx?_eq_some_iff_getElem.mp found
    apply Or.inl
    exact ⟨rfl, _, List.getElem?_eq_getElem inside, by simpa using named⟩
  | none =>
    simp only [createIpcRtidLazy, found, ShmemBuf.create, Option.bind_eq_bind,
      Option.bind_eq_some_iff, Option.pure_def, Option.some.injEq, Prod.exists,
      Prod.mk.injEq] at created
    obtain ⟨transport, opened, ⟨object, shm, initialised, rfl, rfl⟩, rfl, rfl⟩ := created
    obtain ⟨capacity, appended⟩ := pushBack_eq registryItem_lawful growth process.registry
      { id := idRtidPrepare id, transport := { buf := some process.space.next } }
      (process.space.map { name := cString (idRtidPrepare id), object := object }).2
    apply Or.inr
    refine ⟨?_, ?_, object, shm, capacity, initialised, ?_⟩
    · simpa using List.findIdx?_eq_none_iff.mp found
    · simp only [AddressSpace.map] at appended ⊢
      simp only [appended, List.length_append, List.length_singleton, Nat.add_sub_cancel]
    · simp only [AddressSpace.map] at appended ⊢
      simp only [appended, registryItem_lawful.empties]

/-- A new mapping takes no other one's place. -/
theorem Owns.map {space : AddressSpace} {item : RegistryItem} (owns : Owns space item)
    (mapping : Mapping) : Owns (space.map mapping).2 item := by
  obtain ⟨address, own, pointer, below, live, named⟩ := owns
  have other : address ≠ space.next := Nat.ne_of_lt below
  have kept : (space.map mapping).2.mapped address = some own :=
    (Function.update_of_ne other _ _).trans live
  exact ⟨address, own, pointer, Nat.lt_succ_of_lt below, kept, named⟩

/-- An item with the newest mapping, opened for its id. -/
theorem owns_newest (space : AddressSpace) (id : Name) (object : Nat) (state : State) :
    Owns (space.map { name := cString id, object := object }).2
      { id := id, transport := { buf := some space.next, state := state } } := by
  have live : (space.map { name := cString id, object := object }).2.mapped space.next =
      some { name := cString id, object := object } := Function.update_self _ _ _
  exact ⟨space.next, _, rfl, Nat.lt_succ_self _, live, rfl⟩

/-- A new item at the end, with a new mapping, keeps the registry sound. -/
theorem Sound.add {size : Nat} {events : List (Event size)} {process : Process}
    (sound : Sound events process) (id : Name)
    (absent : id ∉ process.registry.items.map RegistryItem.id) (object capacity : Nat) (shm : Shm) :
    Sound events {
      shm := shm
      space := (process.space.map { name := cString id, object := object }).2
      registry := {
        items := process.registry.items ++
          [{ id := id, transport := { buf := some process.space.next } }]
        capacity := capacity } } := by
  have unused : some process.space.next ∉
      process.registry.items.map (fun item => item.transport.buf) := by
    intro member
    obtain ⟨item, inside, held⟩ := List.mem_map.mp member
    obtain ⟨address, _, pointer, below, _⟩ := sound.owned item inside
    rw [pointer] at held
    exact absurd (Option.some.inj held) (Nat.ne_of_lt below)
  constructor
  · rw [List.map_append, List.map_singleton, ← List.concat_eq_append]
    exact sound.one_for_id.concat absent
  · rw [List.map_append, List.map_singleton, ← List.concat_eq_append]
    exact sound.one_for_mapping.concat unused
  · intro item member
    rcases List.mem_append.mp member with before | newest
    · exact (sound.owned item before).map _
    · rw [List.mem_singleton.mp newest]
      exact owns_newest process.space id object {}
  · intro item member
    rcases List.mem_append.mp member with before | newest
    · exact sound.own_reads item before
    · rw [List.mem_singleton.mp newest]
      exact (sound.unread id absent).symm
  · intro name missing
    rw [List.map_append, List.mem_append, not_or] at missing
    exact sound.unread name missing.1

/-- Looking an id up keeps the registry sound, and finds the item of the id. -/
theorem Sound.lookup {growth : Nat → Nat} {type : StorageType} {size : Nat}
    {events : List (Event size)} {process next : Process} (sound : Sound events process)
    {id : List UInt8} {index : Nat}
    (created : createIpcRtidLazy growth type process id = some (index, next)) :
    Sound events next ∧
      ∃ item, next.registry.items[index]? = some item ∧ item.id = idRtidPrepare id := by
  rcases createIpcRtidLazy_cases created with ⟨rfl, found⟩ |
    ⟨absent, rfl, object, shm, capacity, _, rfl⟩
  · exact ⟨sound, found⟩
  · exact ⟨sound.add _ absent object capacity shm, _, List.getElem?_concat_length, rfl⟩

/-- An event that is no read leaves the states alone. -/
theorem stateLeft_other {size : Nat} (name : Name) (events : List (Event size))
    (event : Event size) (no_read : ∀ id index lock rc entry, event ≠ .read id index lock rc entry) :
    stateLeft name (events ++ [event]) = stateLeft name events := by
  rw [stateLeft, stateLeft, List.foldl_append]
  cases event with
  | read id index lock rc entry => exact absurd rfl (no_read id index lock rc entry)
  | returned id index => rfl
  | others => rfl

/-- A read moves the state of its own name. -/
theorem stateLeft_read {size : Nat} (name : Name) (events : List (Event size)) (id : List UInt8)
    (index : Nat) (lock : Shared UInt8 size) (rc : Code) (entry : Entry UInt8 size)
    {state after : State} (before : stateLeft (idRtidPrepare id) events = state)
    (read : SeqLock.read lock state = some (rc, entry, after)) :
    stateLeft name (events ++ [.read id index lock rc entry]) =
      if idRtidPrepare id = name then after else stateLeft name events := by
  rw [stateLeft, List.foldl_append]
  by_cases same : idRtidPrepare id = name
  · subst same
    rw [stateLeft] at before
    simp only [List.foldl_cons, List.foldl_nil, if_true, before, read]
  · simp only [List.foldl_cons, List.foldl_nil, if_neg same]
    rfl

/-- An event that is no read keeps the registry sound. -/
theorem Sound.silent {size : Nat} {events : List (Event size)} {process : Process}
    (sound : Sound events process) (event : Event size)
    (no_read : ∀ id index lock rc entry, event ≠ .read id index lock rc entry) :
    Sound (events ++ [event]) process := by
  constructor
  · exact sound.one_for_id
  · exact sound.one_for_mapping
  · exact sound.owned
  · intro item member
    rw [stateLeft_other _ events event no_read]
    exact sound.own_reads item member
  · intro name missing
    rw [stateLeft_other _ events event no_read]
    exact sound.unread name missing

/-- The shared memory takes no part in the registry. -/
theorem Sound.of_shm {size : Nat} {events : List (Event size)} {process : Process}
    (sound : Sound events process) (shm : Shm) : Sound events { process with shm := shm } :=
  ⟨sound.one_for_id, sound.one_for_mapping, sound.owned, sound.own_reads, sound.unread⟩

/-- Replacing an item by one that differs in a member alone keeps the other members. -/
theorem map_set_same {Member : Type} (member : RegistryItem → Member) (items : List RegistryItem)
    {index : Nat} {item changed : RegistryItem} (standing : items[index]? = some item)
    (same : member changed = member item) :
    (items.set index changed).map member = items.map member := by
  obtain ⟨inside, _⟩ := List.getElem?_eq_some_iff.mp standing
  apply List.ext_getElem?
  intro position
  rw [List.getElem?_map, List.getElem?_map, List.getElem?_set]
  by_cases here : index = position
  · rw [if_pos here, if_pos inside, ← here, standing, Option.map_some, Option.map_some, same]
  · rw [if_neg here]

/-- Among distinct ids, an item of the replaced list is the new one or has another id. -/
theorem mem_set_cases {items : List RegistryItem} (distinct : (items.map RegistryItem.id).Nodup)
    {index : Nat} {item changed other : RegistryItem} (standing : items[index]? = some item)
    (member : other ∈ items.set index changed) :
    other = changed ∨ (other ∈ items ∧ other.id ≠ item.id) := by
  obtain ⟨position, found⟩ := List.mem_iff_getElem?.mp member
  rw [List.getElem?_set] at found
  obtain ⟨inside, value⟩ := List.getElem?_eq_some_iff.mp standing
  by_cases here : index = position
  · rw [if_pos here, if_pos inside] at found
    exact Or.inl (Option.some.inj found).symm
  · rw [if_neg here] at found
    apply Or.inr
    refine ⟨List.mem_of_getElem? found, ?_⟩
    intro equal
    have ids : (items.map RegistryItem.id)[index]? = (items.map RegistryItem.id)[position]? := by
      rw [List.getElem?_map, List.getElem?_map, standing, found, Option.map_some, Option.map_some,
        equal]
    exact here ((List.getElem?_inj (by simpa using inside) distinct).mp ids)

/-- A read keeps the registry sound: its own item takes the state that the read
leaves, and no other item is touched. -/
theorem Sound.read {size : Nat} {events : List (Event size)} {process : Process}
    (sound : Sound events process) {id : List UInt8} {index : Nat} {item : RegistryItem}
    (standing : process.registry.items[index]? = some item) (own : item.id = idRtidPrepare id)
    {lock : Shared UInt8 size} {rc : Code} {entry : Entry UInt8 size} {after : State}
    (read : SeqLock.read lock item.transport.state = some (rc, entry, after)) :
    Sound (events ++ [.read id index lock rc entry])
      { process with registry := { process.registry with
          items := process.registry.items.set index (item.after after) } } := by
  have member : item ∈ process.registry.items := List.mem_of_getElem? standing
  have before : stateLeft (idRtidPrepare id) events = item.transport.state := by
    rw [sound.own_reads item member, own]
  have left := fun name => stateLeft_read name events id index lock rc entry before read
  have ids : (process.registry.items.set index (item.after after)).map RegistryItem.id =
      process.registry.items.map RegistryItem.id := map_set_same _ _ standing rfl
  have pointers : (process.registry.items.set index (item.after after)).map
        (fun item => item.transport.buf) =
      process.registry.items.map (fun item => item.transport.buf) := map_set_same _ _ standing rfl
  constructor
  · rw [ids]
    exact sound.one_for_id
  · rw [pointers]
    exact sound.one_for_mapping
  · intro other inside
    rcases mem_set_cases sound.one_for_id standing inside with rfl | ⟨elsewhere, _⟩
    · exact sound.owned item member
    · exact sound.owned other elsewhere
  · intro other inside
    rw [left]
    rcases mem_set_cases sound.one_for_id standing inside with rfl | ⟨elsewhere, different⟩
    · exact (if_pos own.symm).symm
    · rw [if_neg (fun same => different (same.symm.trans own.symm))]
      exact sound.own_reads other elsewhere
  · intro name missing
    have missing : name ∉ process.registry.items.map RegistryItem.id := by
      rw [← ids]
      exact missing
    have different : idRtidPrepare id ≠ name := by
      rintro rfl
      apply missing
      rw [← own]
      exact List.mem_map_of_mem member
    rw [left, if_neg different]
    exact sound.unread name missing

/-- A call returns the buffer of its id when the item at its index has that id. -/
theorem returns_item {type : StorageType} {event : Event type.size} {process : Process}
    {id : List UInt8} {index : Nat} {item : RegistryItem} (call : event.call = some (id, index))
    (standing : process.registry.items[index]? = some item) (own : item.id = idRtidPrepare id)
    (reads : ∀ lock rc entry, event = .read id index lock rc entry → ∃ object,
      item.object process.space = some object ∧ lock = sharedOf type (process.shm.object object)) :
    Returns type event process := by
  intro other position same
  obtain ⟨rfl, rfl⟩ := Prod.mk.inj (Option.some.inj (call.symm.trans same))
  exact ⟨item, standing, own, reads⟩

/-- One action keeps the registry sound, and returns the buffer of the id. -/
theorem Sound.step {growth : Nat → Nat} {type : StorageType} {events : List (Event type.size)}
    {process next : Process} {event : Event type.size} (sound : Sound events process)
    (taken : Steps (perform growth type) process event next) :
    Sound (events ++ [event]) next ∧ Returns type event next := by
  obtain ⟨action, performed⟩ := taken
  cases action with
  | lookup id =>
    simp only [perform, Option.bind_eq_bind, Option.bind_eq_some_iff, Option.pure_def,
      Option.some.injEq, Prod.exists, Prod.mk.injEq] at performed
    obtain ⟨index, _, created, rfl, rfl⟩ := performed
    obtain ⟨kept, item, standing, own⟩ := sound.lookup created
    exact ⟨kept.silent _ (by simp), returns_item rfl standing own (by simp)⟩
  | write id entry =>
    simp only [perform, Option.bind_eq_bind, Option.bind_eq_some_iff, Option.pure_def,
      Option.some.injEq, Prod.exists, Prod.mk.injEq] at performed
    obtain ⟨index, _, created, _, _, object, _, rfl, rfl⟩ := performed
    obtain ⟨kept, item, standing, own⟩ := sound.lookup created
    exact ⟨(kept.of_shm _).silent _ (by simp), returns_item rfl standing own (by simp)⟩
  | read id =>
    simp only [perform, Option.bind_eq_bind, Option.bind_eq_some_iff, Option.pure_def,
      Option.some.injEq, Prod.exists, Prod.mk.injEq] at performed
    obtain ⟨index, between, created, item, standing, object, points, rc, entry, after, read, rfl,
      rfl⟩ := performed
    obtain ⟨kept, found, standing', own⟩ := sound.lookup created
    obtain rfl := Option.some.inj (standing.symm.trans standing')
    obtain ⟨inside, _⟩ := List.getElem?_eq_some_iff.mp standing
    constructor
    · exact kept.read standing own read
    · have stands : (between.registry.items.set index (item.after after))[index]? =
          some (item.after after) := List.getElem?_set_self inside
      have named : (item.after after).id = idRtidPrepare id := own
      apply returns_item rfl stands named
      rintro _ _ _ ⟨⟩
      exact ⟨object, points, rfl⟩
  | others shm =>
    simp only [perform, Option.some.injEq, Prod.mk.injEq] at performed
    obtain ⟨rfl, rfl⟩ := performed
    constructor
    · exact (sound.of_shm shm).silent _ (by simp)
    · intro id index call
      contradiction

/-- Before the first call the registry is empty. -/
theorem sound_start {size : Nat} : Sound ([] : List (Event size)) {} := by
  constructor
  · exact List.nodup_nil
  · exact List.nodup_nil
  · intro item member
    contradiction
  · intro item member
    contradiction
  · intro name _
    rfl

/-- After every run the registry is sound, and the last call has returned the buffer
of its id. -/
theorem sound_run {growth : Nat → Nat} {type : StorageType} {events : List (Event type.size)}
    {process : Process} (run : Run (Steps (perform growth type)) {} events process) :
    Sound events process ∧ ∀ event, events.getLast? = some event → Returns type event process := by
  induction run with
  | refl => exact ⟨sound_start, by simp⟩
  | snoc events event state next _ taken inductionHypothesis =>
    obtain ⟨kept, returned⟩ := inductionHypothesis.1.step taken
    refine ⟨kept, ?_⟩
    intro last newest
    rw [List.getLast?_concat] at newest
    obtain rfl := Option.some.inj newest
    exact returned

/-- A new mapping changes no other item's object. -/
theorem object_map {space : AddressSpace} {item : RegistryItem} (owns : Owns space item)
    (mapping : Mapping) : item.object (space.map mapping).2 = item.object space := by
  obtain ⟨address, own, pointer, below, live, _⟩ := owns
  have kept : (space.map mapping).2.mapped address = space.mapped address :=
    Function.update_of_ne (Nat.ne_of_lt below) _ _
  rw [RegistryItem.object, RegistryItem.object, pointer, Option.bind_some, Option.bind_some, kept]

/-- The newest item has mapped the object that it was created with. -/
theorem object_newest (space : AddressSpace) (id name : Name) (object : Nat) :
    RegistryItem.object { id := id, transport := { buf := some space.next } }
      (space.map { name := name, object := object }).2 = some object := by
  simp [RegistryItem.object, AddressSpace.map]

/-- Looking an id up leaves every item the object it has mapped, and a new item has
mapped the one that opening its id has given. -/
theorem createIpcRtidLazy_objects {growth : Nat → Nat} {type : StorageType} {size : Nat}
    {events : List (Event size)} {process next : Process} (sound : Sound events process)
    {id : List UInt8} {index : Nat}
    (created : createIpcRtidLazy growth type process id = some (index, next)) :
    ∀ item ∈ next.registry.items,
      (item ∈ process.registry.items ∧ item.object next.space = item.object process.space) ∨
        (item.id = idRtidPrepare id ∧ item.id ∉ process.registry.items.map RegistryItem.id ∧
          ∃ object shm, shmemBufInit process.shm type (cString item.id) = some (object, shm) ∧
            item.object next.space = some object) := by
  intro item member
  rcases createIpcRtidLazy_cases created with ⟨rfl, _⟩ |
    ⟨absent, _, object, shm, capacity, initialised, rfl⟩
  · exact Or.inl ⟨member, rfl⟩
  · rcases List.mem_append.mp member with before | newest
    · exact Or.inl ⟨before, object_map (sound.owned item before) _⟩
    · obtain rfl := List.mem_singleton.mp newest
      exact Or.inr ⟨rfl, absent, object, shm, initialised, object_newest _ _ _ object⟩

/-- After one action each item has the object that an item with its id had before, or
the action has opened its id. -/
theorem objects_step {growth : Nat → Nat} {type : StorageType} {events : List (Event type.size)}
    {process next : Process} {event : Event type.size} (sound : Sound events process)
    (taken : Steps (perform growth type) process event next) :
    ∀ item ∈ next.registry.items,
      (∃ old ∈ process.registry.items, old.id = item.id ∧
          item.object next.space = old.object process.space) ∨
        ∃ object, item.object next.space = some object ∧
          Opens type process event item.id object := by
  have looked : ∀ {id index between}, createIpcRtidLazy growth type process id =
        some (index, between) → event.call = some (id, index) →
      ∀ item ∈ between.registry.items,
        (∃ old ∈ process.registry.items, old.id = item.id ∧
            item.object between.space = old.object process.space) ∨
          ∃ object, item.object between.space = some object ∧
            Opens type process event item.id object := by
    intro id index between created call item member
    rcases createIpcRtidLazy_objects sound created item member with
      ⟨before, same⟩ | ⟨own, absent, object, shm, initialised, points⟩
    · exact Or.inl ⟨item, before, rfl, same⟩
    · refine Or.inr ⟨object, points, ?_, absent, shm, initialised⟩
      rw [call, Option.map_some, own]
  obtain ⟨action, performed⟩ := taken
  cases action with
  | lookup id =>
    simp only [perform, Option.bind_eq_bind, Option.bind_eq_some_iff, Option.pure_def,
      Option.some.injEq, Prod.exists, Prod.mk.injEq] at performed
    obtain ⟨index, between, created, rfl, rfl⟩ := performed
    exact looked created rfl
  | write id entry =>
    simp only [perform, Option.bind_eq_bind, Option.bind_eq_some_iff, Option.pure_def,
      Option.some.injEq, Prod.exists, Prod.mk.injEq] at performed
    obtain ⟨index, between, created, _, _, _, _, rfl, rfl⟩ := performed
    exact fun item member => looked created rfl item member
  | read id =>
    simp only [perform, Option.bind_eq_bind, Option.bind_eq_some_iff, Option.pure_def,
      Option.some.injEq, Prod.exists, Prod.mk.injEq] at performed
    obtain ⟨index, between, created, item, standing, _, _, _, _, state, _, rfl, rfl⟩ := performed
    intro other member
    rcases List.mem_or_eq_of_mem_set member with elsewhere | rfl
    · exact looked created rfl other elsewhere
    · exact looked created rfl item (List.mem_of_getElem? standing)
  | others shm =>
    simp only [perform, Option.some.injEq, Prod.mk.injEq] at performed
    obtain ⟨rfl, rfl⟩ := performed
    exact fun item member => Or.inl ⟨item, member, rfl, rfl⟩

/-- What a call has opened stays opened. -/
theorem OpenedFor.later {growth : Nat → Nat} {type : StorageType} {events : List (Event type.size)}
    {process next : Process} {event : Event type.size} {id : Name} {object : Nat}
    (opened : OpenedFor growth type events process id object)
    (taken : Steps (perform growth type) process event next) :
    OpenedFor growth type (events ++ [event]) next id object := by
  obtain ⟨before, first, after, earlier, rfl, front, behind, opens⟩ := opened
  refine ⟨before, first, after ++ [event], earlier, ?_, front, ?_, opens⟩
  · rw [List.append_assoc, List.cons_append]
  · exact .snoc (first :: after) event process next behind taken

/-- After every run each item has mapped an object that opening its id has given. -/
theorem opened_run {growth : Nat → Nat} {type : StorageType} {events : List (Event type.size)}
    {process : Process} (run : Run (Steps (perform growth type)) {} events process) :
    ∀ item ∈ process.registry.items, ∃ object, item.object process.space = some object ∧
      OpenedFor growth type events process item.id object := by
  induction run with
  | refl =>
    intro item member
    contradiction
  | snoc events event state next run taken inductionHypothesis =>
    intro item member
    rcases objects_step (sound_run run).1 taken item member with
      ⟨old, before, same, kept⟩ | ⟨object, points, opens⟩
    · obtain ⟨object, points, opened⟩ := inductionHypothesis old before
      exact ⟨object, kept.trans points, same ▸ opened.later taken⟩
    · exact ⟨object, points, events, event, [], state, rfl, run, .single taken, opens⟩

/-- An item with what its pointer points to. -/
def RegistryItem.listed (item : RegistryItem) (space : AddressSpace) : Ipc.RegistryItem where
  id := item.id
  transport := { buf := (item.object space).getD 0, state := item.transport.state }

/-- The registry with what its pointers point to. -/
def Process.listed (process : Process) : List Ipc.RegistryItem :=
  process.registry.items.map (fun item => item.listed process.space)

/-- Looking an id up in the vector is looking it up in the list of what the
pointers point to: the list that the lazy interface was modelled with forgets the
moves, and nothing else. -/
theorem createIpcRtidLazy_listed {growth : Nat → Nat} {type : StorageType} {size : Nat}
    {events : List (Event size)} {process next : Process} (sound : Sound events process)
    {id : List UInt8} {index : Nat}
    (created : createIpcRtidLazy growth type process id = some (index, next)) :
    Ipc.createIpcRtidLazy process.shm type process.listed id =
      some (index, next.listed, next.shm) := by
  have search : process.listed.findIdx? (fun item => item.id = idRtidPrepare id) =
      process.registry.items.findIdx? (fun item => item.id = idRtidPrepare id) := by
    rw [Process.listed, List.findIdx?_map]
    rfl
  cases found : process.registry.items.findIdx? (fun item => item.id = idRtidPrepare id) with
  | some position =>
    simp only [createIpcRtidLazy, found, Option.some.injEq, Prod.mk.injEq] at created
    obtain ⟨rfl, rfl⟩ := created
    simp only [Ipc.createIpcRtidLazy, search, found]
  | none =>
    rcases createIpcRtidLazy_cases created with ⟨_, item, standing, own⟩ |
      ⟨absent, rfl, object, shm, capacity, initialised, rfl⟩
    · have none_found := List.findIdx?_eq_none_iff.mp found item (List.mem_of_getElem? standing)
      exact absurd own (by simpa using none_found)
    · have kept : ∀ item ∈ process.registry.items, item.listed
          (process.space.map { name := cString (idRtidPrepare id), object := object }).2 =
            item.listed process.space :=
        fun item member => by
          rw [RegistryItem.listed, RegistryItem.listed, object_map (sound.owned item member)]
      have newest : RegistryItem.listed
          { id := idRtidPrepare id, transport := { buf := some process.space.next } }
          (process.space.map { name := cString (idRtidPrepare id), object := object }).2 =
            { id := idRtidPrepare id, transport := { buf := object } } := by
        rw [RegistryItem.listed, object_newest]
        rfl
      have length : process.listed.length = process.registry.items.length := List.length_map _
      simp only [Ipc.createIpcRtidLazy, search, found, Ipc.ShmemBuf.create, initialised,
        Option.bind_eq_bind, Option.bind_some, Option.pure_def, length]
      rw [Process.listed, Process.listed, List.map_append, List.map_singleton, newest,
        List.map_congr_left kept]

/-- The actions on the shared memory and the list that the lazy interface was
modelled with. -/
def performListed (type : StorageType) (state : Shm × List Ipc.RegistryItem) :
    Action type.size → Option (Event type.size × Shm × List Ipc.RegistryItem)
  | .lookup id => do
      let (index, registry, shm) ← Ipc.createIpcRtidLazy state.1 type state.2 id
      pure (.returned id index, shm, registry)
  | .write id entry => do
      let (index, registry, shm) ← Ipc.createIpcRtidLazy state.1 type state.2 id
      let item ← registry[index]?
      pure (.returned id index, item.transport.write type shm entry, registry)
  | .read id => do
      let (index, registry, shm) ← Ipc.createIpcRtidLazy state.1 type state.2 id
      let item ← registry[index]?
      let (rc, entry, transport) ← item.transport.read type shm
      pure (.read id index (sharedOf type (shm.object item.transport.buf)) rc entry, shm,
        registry.set index { item with transport := transport })
  | .others shm => some (.others, shm, state.2)

/-- An item that has mapped an object is listed with it. -/
theorem listed_points {item : RegistryItem} {process : Process} {index object : Nat}
    (standing : process.registry.items[index]? = some item)
    (points : item.object process.space = some object) :
    process.listed[index]? = some ⟨item.id, ⟨object, item.transport.state⟩⟩ := by
  rw [Process.listed, List.getElem?_map, standing, Option.map_some, RegistryItem.listed, points]
  rfl

/-- One action on the vector is the action on the list of what the pointers point to. -/
theorem perform_listed {growth : Nat → Nat} {type : StorageType} {events : List (Event type.size)}
    {process next : Process} {event : Event type.size} (sound : Sound events process)
    (taken : Steps (perform growth type) process event next) :
    Steps (performListed type) (process.shm, process.listed) event (next.shm, next.listed) := by
  obtain ⟨action, performed⟩ := taken
  refine ⟨action, ?_⟩
  cases action with
  | lookup id =>
    simp only [perform, Option.bind_eq_bind, Option.bind_eq_some_iff, Option.pure_def,
      Option.some.injEq, Prod.exists, Prod.mk.injEq] at performed
    obtain ⟨index, _, created, rfl, rfl⟩ := performed
    simp only [performListed, createIpcRtidLazy_listed sound created, Option.bind_eq_bind,
      Option.bind_some, Option.pure_def]
  | write id entry =>
    simp only [perform, Option.bind_eq_bind, Option.bind_eq_some_iff, Option.pure_def,
      Option.some.injEq, Prod.exists, Prod.mk.injEq] at performed
    obtain ⟨index, _, created, item, standing, object, points, rfl, rfl⟩ := performed
    simp only [performListed, createIpcRtidLazy_listed sound created, Option.bind_eq_bind,
      Option.bind_some, Option.pure_def, listed_points standing points]
    rfl
  | read id =>
    simp only [perform, Option.bind_eq_bind, Option.bind_eq_some_iff, Option.pure_def,
      Option.some.injEq, Prod.exists, Prod.mk.injEq] at performed
    obtain ⟨index, between, created, item, standing, object, points, rc, entry, state, read, rfl,
      rfl⟩ := performed
    have same : (item.after state).object between.space = some object := points
    have changed : Process.listed { between with registry := { between.registry with
          items := between.registry.items.set index (item.after state) } } =
        between.listed.set index ⟨item.id, ⟨object, state⟩⟩ := by
      rw [Process.listed, Process.listed, List.map_set, RegistryItem.listed, same]
      rfl
    simp only [performListed, createIpcRtidLazy_listed sound created, Option.bind_eq_bind,
      Option.bind_some, Option.pure_def, listed_points standing points, ShmemBuf.read, read,
      changed]
  | others shm =>
    simp only [perform, Option.some.injEq, Prod.mk.injEq] at performed
    obtain ⟨rfl, rfl⟩ := performed
    rfl

/-- A run on the vector is a run on the list of what the pointers point to. -/
theorem listed_run {growth : Nat → Nat} {type : StorageType} {events : List (Event type.size)}
    {process : Process} (run : Run (Steps (perform growth type)) {} events process) :
    Run (Steps (performListed type)) ({}, []) events (process.shm, process.listed) := by
  induction run with
  | refl => exact .refl
  | snoc events event state next run taken inductionHypothesis =>
    exact .snoc events event _ _ inductionHypothesis (perform_listed (sound_run run).1 taken)

/-- After every run of calls, on any ids and with any growth of the vector, the
registry has at most one item for each prepared id. Each item has a live mapping
of its own, of the object that was given for its id when it was opened, and the
state that its own reads have left; and the last call has returned the buffer of its
id, and read from it what it has read. The run is one of the lazy interface's list.

Proof: one action keeps the registry sound, since appending to the vector moves
the items without effect, whether or not its storage grows. -/
theorem registry_owns_buffers (growth : Nat → Nat) (type : StorageType)
    (events : List (Event type.size)) (process : Process)
    (run : Run (Steps (perform growth type)) {} events process) :
    Sound events process ∧
      (∀ item ∈ process.registry.items, ∃ object, item.object process.space = some object ∧
        OpenedFor growth type events process item.id object) ∧
      (∀ event, events.getLast? = some event → Returns type event process) ∧
      Run (Steps (performListed type)) ({}, []) events (process.shm, process.listed) := by
  obtain ⟨sound, returned⟩ := sound_run run
  exact ⟨sound, opened_run run, returned, listed_run run⟩

/-- A program reads two topics, and then the first one again. -/
theorem two_topics_run :
    ∃ events process, Run (Steps (perform (fun size => 2 * size) intAndFloat)) {} events process ∧
      events.map Event.call =
        [some (chars "/my/topic", 0), some (chars "my_topic", 1), some (chars "//my/topic", 0)] := by
  have executed : ∃ events process, execute (perform (fun size => 2 * size) intAndFloat) {}
      [.read (chars "/my/topic"), .read (chars "my_topic"), .read (chars "//my/topic")] =
        some (events, process) ∧
      events.map Event.call =
        [some (chars "/my/topic", 0), some (chars "my_topic", 1), some (chars "//my/topic", 0)] :=
    ⟨_, _, rfl, rfl⟩
  obtain ⟨events, process, executed, calls⟩ := executed
  exact ⟨events, process, execute_run _ _ _ _ _ executed, calls⟩

/-- Both topics have a buffer of their own after that. -/
theorem registry_owns_buffers_two_topics :
    ∃ events process, events.map Event.call =
        [some (chars "/my/topic", 0), some (chars "my_topic", 1), some (chars "//my/topic", 0)] ∧
      Sound events process ∧
      (∀ item ∈ process.registry.items, ∃ object, item.object process.space = some object ∧
        OpenedFor (fun size => 2 * size) intAndFloat events process item.id object) ∧
      (∀ event, events.getLast? = some event → Returns intAndFloat event process) ∧
      Run (Steps (performListed intAndFloat)) ({}, []) events (process.shm, process.listed) := by
  obtain ⟨events, process, run, calls⟩ := two_topics_run
  exact ⟨events, process, calls, registry_owns_buffers _ intAndFloat events process run⟩

end Tyndall.Ipc.Mapped
