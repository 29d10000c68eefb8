import Tyndall.Ipc.Topics

/-!
# The lazy interface with run-time ids

`ipc_rtid_write` and `ipc_rtid_read` look their buffer up in a vector of named
buffers, one vector for each kind of buffer and storage type in each process. An
id that is not found gets a new item at the end. The vector is a static of a static
inline template, so a process stands for one translation unit here, too.

The vectors hold what function-local statics would hold if there were one for
each topic: for every id in use the first item with its prepared name is the
static of its topic. The interface with one static for each topic and process
therefore has the same outcomes.
-/

namespace Tyndall.Ipc

open Meta Runs SeqLock

/-- `registry_item`. -/
structure RegistryItem where
  id : Name
  transport : ShmemBuf

/-- The shared memory and the registries of all processes. -/
structure Registries (Process : Type) where
  shm : Shm := {}
  writers : Process → StorageType → List RegistryItem := fun _ _ => []
  readers : Process → StorageType → List RegistryItem := fun _ _ => []

/-- `create_ipc_rtid_lazy`: the index of the item for an id. The loop returns the
first item with the prepared id, and otherwise an item is pushed back. -/
def createIpcRtidLazy (shm : Shm) (type : StorageType) (registry : List RegistryItem)
    (id : List UInt8) : Option (Nat × List RegistryItem × Shm) :=
  let preparedId := idRtidPrepare id
  match registry.findIdx? (fun item => item.id = preparedId) with
  | some index => some (index, registry, shm)
  | none => do
      let (transport, shm) ← ShmemBuf.create shm type (cString preparedId)
      pure (registry.length, registry ++ [{ id := preparedId, transport := transport }], shm)

variable {Process : Type} [DecidableEq Process] (type : Strval → StorageType)

/-- Replace one process's registry for one storage type. -/
def putRegistry (registries : Process → StorageType → List RegistryItem) (process : Process)
    (storage : StorageType) (registry : List RegistryItem) :
    Process → StorageType → List RegistryItem :=
  Function.update registries process (Function.update (registries process) storage registry)

/-- The run-time interface as an interface with statics: one for each topic in
each process. -/
abbrev rtidInterface (Process : Type) (type : Strval → StorageType) :
    Interface (Process × Strval) (Process × Strval) Strval where
  topic id := idRemoveLeadingSlashes id.2
  type := type
  slot id := (id.1, idRemoveLeadingSlashes id.2)
  name id := cString (idRtidPrepare id.2)

/-- `ipc_rtid_write`. -/
def ipcRtidWrite (registries : Registries Process) (id : Process × Strval)
    (entry : Entry UInt8 ((rtidInterface Process type).typeOf id).size) :
    Option (Registries Process) := do
  let storage := (rtidInterface Process type).typeOf id
  let (index, registry, shm) ← createIpcRtidLazy registries.shm storage
    (registries.writers id.1 storage) id.2
  let item ← registry[index]?
  pure { registries with
    shm := item.transport.write storage shm entry,
    writers := putRegistry registries.writers id.1 storage registry }

/-- `ipc_rtid_read`. -/
def ipcRtidRead (registries : Registries Process) (id : Process × Strval) :
    Option (Code × Entry UInt8 ((rtidInterface Process type).typeOf id).size ×
      Registries Process) := do
  let storage := (rtidInterface Process type).typeOf id
  let (index, registry, shm) ← createIpcRtidLazy registries.shm storage
    (registries.readers id.1 storage) id.2
  let item ← registry[index]?
  let (rc, entry, transport) ← item.transport.read storage shm
  pure (rc, entry, { registries with
    shm := shm,
    readers := putRegistry registries.readers id.1 storage
      (registry.set index { item with transport := transport }) })

/-- Execute one call of a program through the run-time interface. -/
def Registries.perform (registries : Registries Process) :
    (rtidInterface Process type).Call →
      Option ((rtidInterface Process type).Outcome × Registries Process)
  | .write id entry => do
      let registries ← ipcRtidWrite type registries id entry
      pure (.done, registries)
  | .read id => do
      let (rc, entry, registries) ← ipcRtidRead type registries id
      pure (.returned id rc entry, registries)
  | .cleanup =>
      some (.done, { registries with shm := shmemUnlinkAll registries.shm ipcShmemPrefix })

/-- The buffer a registry has for a name. -/
def transportOf (registry : List RegistryItem) (name : Name) : Option ShmemBuf :=
  (registry.find? (fun item => item.id = name)).map RegistryItem.transport

/-- Replacing the item found for a name changes what is found for that name only. -/
theorem transportOf_set (registry : List RegistryItem) (name : Name) (index : Nat)
    (found : registry.findIdx? (fun item => item.id = name) = some index) (buf : ShmemBuf)
    (other : Name) :
    transportOf (registry.set index { id := name, transport := buf }) other =
      if other = name then some buf else transportOf registry other := by
  induction registry generalizing index with
  | nil => simp at found
  | cons item rest inductionHypothesis =>
    rw [List.findIdx?_cons] at found
    by_cases here : item.id = name
    · obtain rfl : 0 = index := by simpa [here] using found
      by_cases same : other = name
      · simp [transportOf, same]
      · simp [transportOf, same, Ne.symm same, here]
    · obtain ⟨later, foundLater, rfl⟩ : ∃ later,
          rest.findIdx? (fun item => item.id = name) = some later ∧ later + 1 = index := by
        simpa [here] using found
      have after := inductionHypothesis later foundLater
      by_cases first : item.id = other
      · have different : other ≠ name := first ▸ here
        simp [transportOf, first, different]
      · simpa [transportOf, first] using after

/-- Looking up and creating in a registry is entering a function with a static:
the item is the one the name finds, and replacing it replaces the static. -/
theorem createIpcRtidLazy_enters (shm shm' : Shm) (storage : StorageType)
    (registry : List RegistryItem) (id : List UInt8) (buf : ShmemBuf)
    (entered : enter shm storage (cString (idRtidPrepare id))
      (transportOf registry (idRtidPrepare id)) = some (buf, shm')) :
    ∃ index registry', createIpcRtidLazy shm storage registry id = some (index, registry', shm') ∧
      registry'[index]? = some { id := idRtidPrepare id, transport := buf } ∧
      ∀ changed other,
        transportOf (registry'.set index { id := idRtidPrepare id, transport := changed }) other =
          if other = idRtidPrepare id then some changed else transportOf registry other := by
  cases found : registry.findIdx? (fun item => item.id = idRtidPrepare id) with
  | some index =>
    have item : registry[index]? = registry.find? (fun item => item.id = idRtidPrepare id) := by
      rw [List.find?_eq_bind_findIdx?_getElem?, found]
      rfl
    cases stands : registry.find? (fun item => item.id = idRtidPrepare id) with
    | none =>
      rw [List.findIdx?_eq_some_iff_getElem] at found
      obtain ⟨inside, _⟩ := found
      rw [stands, List.getElem?_eq_none_iff] at item
      omega
    | some first =>
      have named : first.id = idRtidPrepare id := by simpa using List.find?_some stands
      obtain ⟨rfl, rfl⟩ : first.transport = buf ∧ shm = shm' := by
        simpa [enter, transportOf, stands] using entered
      refine ⟨index, registry, by simp [createIpcRtidLazy, found], ?_, ?_⟩
      · rw [item, stands, ← named]
      · exact fun changed other => transportOf_set registry _ index found changed other
  | none =>
    have missing : transportOf registry (idRtidPrepare id) = none := by
      have absent := List.findIdx?_eq_none_iff.mp found
      simpa [transportOf] using absent
    have created : ShmemBuf.create shm storage (cString (idRtidPrepare id)) = some (buf, shm') := by
      simpa [enter, missing] using entered
    refine ⟨registry.length, registry ++ [{ id := idRtidPrepare id, transport := buf }],
      by simp [createIpcRtidLazy, found, created], by simp, ?_⟩
    intro changed other
    rw [transportOf_set _ _ _ (by simp [List.findIdx?_append, found])]
    by_cases same : other = idRtidPrepare id
    · rw [if_pos same, if_pos same]
    · rw [if_neg same, if_neg same]
      simp [transportOf, List.find?_append, Ne.symm same]

/-- Registries that hold, for every id in use, what its topic's static holds. -/
structure Holds (used : Process × Strval → Prop) (registries : Registries Process)
    (statics : Statics (Process × Strval)) : Prop where
  shm : registries.shm = statics.shm
  writers : ∀ id, used id → transportOf
    (registries.writers id.1 ((rtidInterface Process type).typeOf id)) (idRtidPrepare id.2) =
      statics.writers ((rtidInterface Process type).slot id)
  readers : ∀ id, used id → transportOf
    (registries.readers id.1 ((rtidInterface Process type).typeOf id)) (idRtidPrepare id.2) =
      statics.readers ((rtidInterface Process type).slot id)

variable {type} {used : Process × Strval → Prop}

/-- Replacing the item of one id replaces the static of its topic: other topics
have other names, and other processes other registries. -/
theorem held_put (named : ∀ id other, used id → used other →
      (idRtidPrepare id.2 = idRtidPrepare other.2 ↔
        idRemoveLeadingSlashes id.2 = idRemoveLeadingSlashes other.2))
    (registries : Process → StorageType → List RegistryItem)
    (slots : Process × Strval → Option ShmemBuf)
    (held : ∀ id, used id → transportOf
      (registries id.1 ((rtidInterface Process type).typeOf id)) (idRtidPrepare id.2) =
        slots ((rtidInterface Process type).slot id))
    (id : Process × Strval) (inUse : used id) (registry : List RegistryItem) (changed : ShmemBuf)
    (replaced : ∀ other, transportOf registry other = if other = idRtidPrepare id.2 then some changed
      else transportOf (registries id.1 ((rtidInterface Process type).typeOf id)) other) :
    ∀ other, used other → transportOf
      (putRegistry registries id.1 ((rtidInterface Process type).typeOf id) registry other.1
        ((rtidInterface Process type).typeOf other)) (idRtidPrepare other.2) =
      Function.update slots ((rtidInterface Process type).slot id) (some changed)
        ((rtidInterface Process type).slot other) := by
  intro other otherUsed
  have before := held other otherUsed
  by_cases process : other.1 = id.1
  · by_cases topic : idRemoveLeadingSlashes other.2 = idRemoveLeadingSlashes id.2
    · have name := (named other id otherUsed inUse).mpr topic
      have slot : (rtidInterface Process type).slot other = (rtidInterface Process type).slot id :=
        Prod.ext process topic
      have storage : (rtidInterface Process type).typeOf other =
          (rtidInterface Process type).typeOf id := congrArg type topic
      rw [slot, Function.update_self, process, storage, putRegistry, Function.update_self,
        Function.update_self, replaced, if_pos name]
    · have name := mt (named other id otherUsed inUse).mp topic
      have slot : (rtidInterface Process type).slot other ≠ (rtidInterface Process type).slot id :=
        fun same => topic (Prod.mk.inj same).2
      rw [Function.update_of_ne slot, ← before, process, putRegistry, Function.update_self]
      by_cases storage : (rtidInterface Process type).typeOf other =
          (rtidInterface Process type).typeOf id
      · rw [storage, Function.update_self, replaced, if_neg name]
      · rw [Function.update_of_ne storage]
  · have slot : (rtidInterface Process type).slot other ≠ (rtidInterface Process type).slot id :=
      fun same => process (Prod.mk.inj same).1
    rw [Function.update_of_ne slot, ← before, putRegistry, Function.update_of_ne process]

/-- A call through the run-time interface does what it does with a static for
each topic. -/
theorem Holds.perform (named : ∀ id other, used id → used other →
      (idRtidPrepare id.2 = idRtidPrepare other.2 ↔
        idRemoveLeadingSlashes id.2 = idRemoveLeadingSlashes other.2))
    {registries : Registries Process} {statics statics' : Statics (Process × Strval)}
    (holds : Holds type used registries statics) (call : (rtidInterface Process type).Call)
    (inUse : ∀ id, call.Names id → used id) (outcome : (rtidInterface Process type).Outcome)
    (performed : statics.perform (rtidInterface Process type) call = some (outcome, statics')) :
    ∃ registries', registries.perform type call = some (outcome, registries') ∧
      Holds type used registries' statics' := by
  cases call with
  | write id entry =>
    simp only [Statics.perform, ipcLazyWrite, Option.bind_eq_bind, Option.bind_eq_some_iff,
      Option.pure_def, Option.some.injEq, Prod.exists, Prod.mk.injEq] at performed
    obtain ⟨_, ⟨buf, shm', entered, rfl⟩, rfl, rfl⟩ := performed
    rw [← holds.writers id (inUse id rfl), ← holds.shm] at entered
    obtain ⟨index, registry', looked, item, replaced⟩ :=
      createIpcRtidLazy_enters _ _ _ _ id.2 buf entered
    obtain ⟨inside, value⟩ := List.getElem?_eq_some_iff.mp item
    have kept := replaced buf
    rw [← value, List.set_getElem_self] at kept
    refine ⟨{ registries with
        shm := buf.write ((rtidInterface Process type).typeOf id) shm' entry,
        writers := putRegistry registries.writers id.1 ((rtidInterface Process type).typeOf id)
          registry' }, ?_, rfl, ?_, holds.readers⟩
    · simp only [Registries.perform, ipcRtidWrite, looked, item, Option.bind_eq_bind,
        Option.bind_some, Option.pure_def]
    · exact held_put named _ _ holds.writers id (inUse id rfl) registry' buf kept
  | read id =>
    simp only [Statics.perform, ipcLazyRead, Option.bind_eq_bind, Option.bind_eq_some_iff,
      Option.pure_def, Option.some.injEq, Prod.exists, Prod.mk.injEq] at performed
    obtain ⟨rc, entry, _, ⟨buf, shm', entered, _, _, reader, returned, rfl, rfl, rfl⟩, rfl, rfl⟩ :=
      performed
    rw [← holds.readers id (inUse id rfl), ← holds.shm] at entered
    obtain ⟨index, registry', looked, item, replaced⟩ :=
      createIpcRtidLazy_enters _ _ _ _ id.2 buf entered
    refine ⟨{ registries with
        shm := shm',
        readers := putRegistry registries.readers id.1 ((rtidInterface Process type).typeOf id)
          (registry'.set index { id := idRtidPrepare id.2, transport := reader }) },
      ?_, rfl, holds.writers, ?_⟩
    · simp only [Registries.perform, ipcRtidRead, looked, item, returned, Option.bind_eq_bind,
        Option.bind_some, Option.pure_def]
    · exact held_put named _ _ holds.readers id (inUse id rfl) _ reader (replaced reader)
  | cleanup =>
    obtain ⟨rfl, rfl⟩ : .done = outcome ∧ ipcCleanup statics = statics' := by
      simpa [Statics.perform] using performed
    exact ⟨_, rfl, by rw [ipcCleanup, holds.shm], holds.writers, holds.readers⟩

omit [DecidableEq Process] in
/-- The run-time interface is lawful for NUL-free ids whose names differ where
the topics do. -/
theorem rtid_lawful (type : Strval → StorageType) (nulFree : ∀ id, used id → 0 ∉ id.2)
    (named : ∀ id other, used id → used other → (idRtidPrepare id.2 = idRtidPrepare other.2 ↔
      idRemoveLeadingSlashes id.2 = idRemoveLeadingSlashes other.2)) :
    Lawful (rtidInterface Process type) used := by
  refine prepared_lawful (fun id => idRtidPrepare id.2) (fun _ _ same => (Prod.mk.inj same).2)
    (fun _ => rfl) ?_ ?_ named
  · exact fun id inUse => idRtidPrepare_nulFree id.2 (nulFree id inUse)
  · intro id inUse
    simp only [idRtidPrepare_parts id.2 (nulFree id inUse), List.append_assoc]
    exact List.prefix_append _ _

/-- A program of the run-time interface runs to its end with the outcomes the
topics say, where each process has one static for each topic. -/
theorem rtid_program_outcomes (nulFree : ∀ id, used id → 0 ∉ id.2)
    (distinct : ∀ id other, used id → used other → idRtidPrepare id.2 = idRtidPrepare other.2 →
      idRemoveLeadingSlashes id.2 = idRemoveLeadingSlashes other.2)
    (program : List (rtidInterface Process type).Call)
    (inUse : ∀ call ∈ program, ∀ id, call.Names id → used id) :
    ∃ final, execute (Registries.perform type) {} program =
      some ((replay (Topics.perform (rtidInterface Process type)) {} program).1, final) := by
  have named : ∀ id other, used id → used other → (idRtidPrepare id.2 = idRtidPrepare other.2 ↔
      idRemoveLeadingSlashes id.2 = idRemoveLeadingSlashes other.2) :=
    fun id other inUse otherUsed => ⟨distinct id other inUse otherUsed,
      idRtidPrepare_congr id.2 other.2 (nulFree id inUse) (nulFree other otherUsed)⟩
  obtain ⟨final, executed, -⟩ := execute_simulates (Registries.perform type)
    (Topics.perform (rtidInterface Process type))
    (fun registries topics => ∃ statics object, Holds type used registries statics ∧
      Represents (rtidInterface Process type) used object statics topics)
    (fun call => ∀ id, call.Names id → used id)
    (by
      rintro registries topics call ⟨statics, object, holds, represents⟩ allowed
      obtain ⟨statics', object', performed, represents'⟩ :=
        represents.perform (rtid_lawful type nulFree named) call allowed
      obtain ⟨registries', performed', holds'⟩ := holds.perform named call allowed _ performed
      exact ⟨registries', performed', statics', object', holds', represents'⟩)
    program inUse {} {} ⟨{}, _, ⟨rfl, fun _ _ => rfl, fun _ _ => rfl⟩, represents_start⟩
  exact ⟨final, executed⟩

end Tyndall.Ipc
