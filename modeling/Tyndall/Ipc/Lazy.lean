import Tyndall.Foundation.Runs
import Tyndall.Ipc.Id
import Tyndall.Ipc.Shmem

/-!
# The lazy interface

`ipc_write` and `ipc_read` create their buffer on the first call and keep it in a
function-local static, one for each storage type and spelling of the id, in each
process. `ipc_cleanup` unlinks every name with the library's prefix. The functions are
static inline templates, so each translation unit has its own statics: what is called
a process here is one translation unit of a process.

An interface says how calls find their memory: the topic a call means, the type
stored under it, the static the call uses and the name it opens. Everything else
is the same for every interface of this kind.
-/

namespace Tyndall.Ipc

open Meta SeqLock

/-- How the calls of a program find their memory. -/
structure Interface (Id Key Topic : Type) where
  topic : Id → Topic
  type : Topic → StorageType
  slot : Id → Key
  name : Id → Name

variable {Id Key Topic : Type}

/-- The storage type behind an id. -/
abbrev Interface.typeOf (interface : Interface Id Key Topic) (id : Id) : StorageType :=
  interface.type (interface.topic id)

/-- A call of a program, with entries of the size its id requires. -/
inductive Call (Id : Type) (size : Id → Nat) where
  | write (id : Id) (entry : Entry UInt8 (size id))
  | read (id : Id)
  | cleanup

/-- A call that names an id. -/
def Call.Names {size : Id → Nat} (id : Id) : Call Id size → Prop
  | .write other _ => other = id
  | .read other => other = id
  | .cleanup => False

/-- What a call gives back to the program. -/
inductive Outcome (Id : Type) (size : Id → Nat) where
  | done
  | returned (id : Id) (rc : Code) (entry : Entry UInt8 (size id))

/-- The calls of an interface's programs. -/
abbrev Interface.Call (interface : Interface Id Key Topic) : Type :=
  Ipc.Call Id (fun id => (interface.typeOf id).size)

/-- Their outcomes. -/
abbrev Interface.Outcome (interface : Interface Id Key Topic) : Type :=
  Ipc.Outcome Id (fun id => (interface.typeOf id).size)

/-- `shmem_buf`: the object it has mapped and the state it keeps. -/
structure ShmemBuf where
  buf : Nat
  state : State := {}

/-- Constructing a `shmem_buf` with an id. -/
def ShmemBuf.create (shm : Shm) (type : StorageType) (name : Name) : Option (ShmemBuf × Shm) := do
  let (buf, shm) ← shmemBufInit shm type name
  pure ({ buf := buf }, shm)

/-- `shmem_buf::write`. -/
def ShmemBuf.write (self : ShmemBuf) (type : StorageType) (shm : Shm)
    (entry : Entry UInt8 type.size) : Shm :=
  shm.modify self.buf
    (fun block => putShared type block (SeqLock.write (sharedOf type block) entry))

/-- `shmem_buf::read`. -/
def ShmemBuf.read (self : ShmemBuf) (type : StorageType) (shm : Shm) :
    Option (Code × Entry UInt8 type.size × ShmemBuf) := do
  let (rc, entry, state) ← SeqLock.read (sharedOf type (shm.object self.buf)) self.state
  pure (rc, entry, { self with state := state })

/-- The shared memory and the function-local statics of all processes. A static
holds nothing until its function is first called. -/
structure Statics (Key : Type) where
  shm : Shm := {}
  writers : Key → Option ShmemBuf := fun _ => none
  readers : Key → Option ShmemBuf := fun _ => none

/-- Enter a function with a local static: construct it on the first call. -/
def enter (shm : Shm) (type : StorageType) (name : Name) :
    Option ShmemBuf → Option (ShmemBuf × Shm)
  | some buf => some (buf, shm)
  | none => ShmemBuf.create shm type name

variable [DecidableEq Key] (interface : Interface Id Key Topic)

/-- `ipc_lazy_write`. -/
def ipcLazyWrite (statics : Statics Key) (id : Id)
    (entry : Entry UInt8 (interface.typeOf id).size) : Option (Statics Key) := do
  let (writer, shm) ← enter statics.shm (interface.typeOf id) (interface.name id)
    (statics.writers (interface.slot id))
  pure { statics with
    shm := writer.write (interface.typeOf id) shm entry,
    writers := Function.update statics.writers (interface.slot id) (some writer) }

/-- `ipc_lazy_read`. -/
def ipcLazyRead (statics : Statics Key) (id : Id) :
    Option (Code × Entry UInt8 (interface.typeOf id).size × Statics Key) := do
  let (reader, shm) ← enter statics.shm (interface.typeOf id) (interface.name id)
    (statics.readers (interface.slot id))
  let (rc, entry, reader) ← reader.read (interface.typeOf id) shm
  pure (rc, entry, { statics with
    shm := shm,
    readers := Function.update statics.readers (interface.slot id) (some reader) })

/-- `ipc_cleanup`. -/
def ipcCleanup (statics : Statics Key) : Statics Key :=
  { statics with shm := shmemUnlinkAll statics.shm ipcShmemPrefix }

/-- Execute one call of a program. -/
def Statics.perform (statics : Statics Key) :
    interface.Call → Option (interface.Outcome × Statics Key)
  | .write id entry => do
      let statics ← ipcLazyWrite interface statics id entry
      pure (.done, statics)
  | .read id => do
      let (rc, entry, statics) ← ipcLazyRead interface statics id
      pure (.returned id rc entry, statics)
  | .cleanup => some (.done, ipcCleanup statics)

/-- The compile-time interface for processes of one translation unit each that share a
machine: an id is a string literal in a process, and each spelling has its own template
instance. -/
abbrev ipcInterface (Process : Type) (type : Strval → StorageType) :
    Interface (Process × Strval) (Process × Strval) Strval where
  topic id := idRemoveLeadingSlashes id.2
  type := type
  slot id := id
  name id := cString (idPrepare id.2)

end Tyndall.Ipc
