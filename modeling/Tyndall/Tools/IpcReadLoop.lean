import Tyndall.Ipc.MachineTopics
import Tyndall.Tools.IpcRead

/-!
# The reader tool at work

Any number of reader tools run beside the processes of a machine. A tool opens a
name, maps the object as large as it finds it, and polls it: it copies the bytes
behind the first cache line one after another between two loads of the number, and
hands the copy to its printing branches when the number is not the last one it saw.
It registers nowhere, has no storage type and never checks the hash.

A tool stands for a reader of the lock of its object, whose entry is the part of
its copy where the storage type puts one.
-/

namespace Tyndall.SeqLock

open Runs

variable {R Q W : Type} {width : Nat}

/-- A writer's step, for other readers to see. -/
def Event.unread : Event R W width → List (Event Q W width)
  | .called entry => [.called entry]
  | .loaded seq => [.loaded seq]
  | .raised => [.raised]
  | .stored next => [.stored next]
  | .completed entry => [.completed entry]
  | .died => [.died]
  | .attached => [.attached]
  | .readCalled _ | .spun _ | .begun _ | .copied _ _ | .retried _ | .returned _ _ _ => []

/-- Systems with one memory and one writer, and readers of their own. -/
structure SharesWriter (system : System R W width) (other : System Q W width) : Prop where
  lock : other.lock = system.lock
  writer : other.writer = system.writer

/-- A writer takes its steps whoever reads. -/
theorem advanceWriter_unread {lock after : Shared W width} {writer later : Writer W width}
    {event : Event R W width} (taken : advanceWriter lock writer = some (event, after, later)) :
    ∃ seen : Event Q W width, event.unread = [seen] ∧
      advanceWriter lock writer = some (seen, after, later) := by
  cases writer with
  | dead => simp [advanceWriter] at taken
  | idle => simp [advanceWriter] at taken
  | beginning entry | raising entry seq1 =>
    simp only [advanceWriter, Option.some.injEq, Prod.mk.injEq] at taken
    obtain ⟨rfl, rfl, rfl⟩ := taken
    exact ⟨_, rfl, rfl⟩
  | storing entry seq1 next =>
    by_cases inside : next < width
    all_goals
      simp only [advanceWriter, inside, ↓reduceDIte, Option.some.injEq, Prod.mk.injEq] at taken
      obtain ⟨rfl, rfl, rfl⟩ := taken
      exact ⟨_, rfl, by simp only [advanceWriter, inside, ↓reduceDIte]⟩

/-- A step of a reader means nothing to other readers. -/
theorem advanceReader_unread {lock : Shared W width} {name : R} {reader later : Reader W width}
    {event : Event R W width} (taken : advanceReader lock name reader = some (event, later)) :
    (event.unread : List (Event Q W width)) = [] := by
  simp only [advanceReader] at taken
  split at taken
  · cases taken
  · split at taken
    all_goals
      simp only [Option.some.injEq, Prod.mk.injEq] at taken
      obtain ⟨rfl, -⟩ := taken
      rfl
  · split at taken
    · simp only [Option.some.injEq, Prod.mk.injEq] at taken
      obtain ⟨rfl, -⟩ := taken
      rfl
    · split at taken
      all_goals
        simp only [Option.some.injEq, Prod.mk.injEq] at taken
        obtain ⟨rfl, -⟩ := taken
        rfl

/-- A write begins on an even number whoever reads. -/
theorem evenStart_unread {system : System R W width} {other : System Q W width}
    {event : Event R W width} {seen : Event Q W width} (shares : SharesWriter system other)
    (visible : event.unread = [seen]) (evenStart : EvenStart system event) :
    EvenStart other seen := by
  cases event with
  | loaded seq =>
    obtain rfl := List.singleton_inj.mp visible
    rw [EvenStart, shares.lock]
    exact evenStart
  | called | raised | stored | completed | died | attached =>
    obtain rfl := List.singleton_inj.mp visible
    trivial
  | readCalled | spun | begun | copied | retried | returned => cases visible

variable [DecidableEq R] [DecidableEq Q]

/-- One step, with other readers in the place of those that there are. -/
theorem unread_step {system next : System R W width} {other : System Q W width}
    {event : Event R W width} (shares : SharesWriter system other)
    (taken : Guarded EvenStart CrashStep system event next) :
    ∃ later, Run (Guarded EvenStart CrashStep) other event.unread later ∧
      SharesWriter next later ∧ later.readers = other.readers := by
  obtain ⟨evenStart, action, advanced⟩ := taken
  cases action with
  | die =>
    simp only [advanceCrash] at advanced
    split at advanced
    · cases advanced
    · simp only [Option.some.injEq, Prod.mk.injEq] at advanced
      obtain ⟨rfl, rfl⟩ := advanced
      refine ⟨{ other with writer := .dead }, .single ⟨trivial, .die, ?_⟩, ⟨shares.lock, rfl⟩, rfl⟩
      simp only [advanceCrash, shares.writer]
  | attach =>
    simp only [advanceCrash] at advanced
    split at advanced
    · next gone =>
      simp only [Option.some.injEq, Prod.mk.injEq] at advanced
      obtain ⟨rfl, rfl⟩ := advanced
      refine ⟨{ other with writer := .idle }, .single ⟨trivial, .attach, ?_⟩, ⟨shares.lock, rfl⟩, rfl⟩
      simp only [advanceCrash, shares.writer, gone]
    · cases advanced
  | live action =>
    cases action with
    | write entry =>
      simp only [advanceCrash, advance] at advanced
      split at advanced
      · next ready =>
        simp only [Option.some.injEq, Prod.mk.injEq] at advanced
        obtain ⟨rfl, rfl⟩ := advanced
        refine ⟨{ other with writer := .beginning entry },
          .single ⟨trivial, .live (.write entry), ?_⟩, ⟨shares.lock, rfl⟩, rfl⟩
        simp only [advanceCrash, advance, shares.writer, ready]
      · cases advanced
    | writer =>
      simp only [advanceCrash, advance, Option.bind_eq_bind, Option.bind_eq_some_iff,
        Option.pure_def, Option.some.injEq, Prod.exists, Prod.mk.injEq] at advanced
      obtain ⟨_, lock, writer, stepped, rfl, rfl⟩ := advanced
      obtain ⟨seen, visible, same⟩ := advanceWriter_unread (Q := Q) stepped
      rw [visible]
      refine ⟨{ other with lock := lock, writer := writer },
        .single ⟨evenStart_unread shares visible evenStart, .live .writer, ?_⟩, ⟨rfl, rfl⟩, rfl⟩
      simp [advanceCrash, advance, shares.lock, shares.writer, same]
    | read name copy =>
      simp only [advanceCrash, advance] at advanced
      split at advanced
      · simp only [Option.some.injEq, Prod.mk.injEq] at advanced
        obtain ⟨rfl, rfl⟩ := advanced
        exact ⟨other, .refl, ⟨shares.lock, shares.writer⟩, rfl⟩
      · cases advanced
    | reader name =>
      simp only [advanceCrash, advance, Option.bind_eq_bind, Option.bind_eq_some_iff,
        Option.pure_def, Option.some.injEq, Prod.exists, Prod.mk.injEq] at advanced
      obtain ⟨_, reader, stepped, rfl, rfl⟩ := advanced
      rw [advanceReader_unread stepped]
      exact ⟨other, .refl, ⟨shares.lock, shares.writer⟩, rfl⟩

/-- A run, with other readers in the place of those that there are. -/
theorem unread_run {system next : System R W width} {other : System Q W width}
    {events : List (Event R W width)} (shares : SharesWriter system other)
    (run : Run (Guarded EvenStart CrashStep) system events next) :
    ∃ later, Run (Guarded EvenStart CrashStep) other (projected Event.unread events) later ∧
      SharesWriter next later ∧ later.readers = other.readers := by
  refine run.projects Event.unread
    (fun state current => SharesWriter state current ∧ current.readers = other.readers)
    ⟨shares, rfl⟩ ?_
  rintro state event following current ⟨together, readers⟩ taken
  obtain ⟨later, matching, after, same⟩ := unread_step together taken
  exact ⟨later, matching, after, same.trans readers⟩

end Tyndall.SeqLock

namespace Tyndall.Tools

open Runs Meta Ipc SeqLock Ipc.Machines

/-- `ipc_prefix`. -/
def ipcPrefix : List UInt8 := chars "/dev/shm/"

/-- `ipc_id`, without the directory. -/
def ipcId (argument : List UInt8) : Name :=
  if ipcPrefix.isPrefixOf argument then argument.drop ipcPrefix.length else argument

/-- Where a tool stands in its loop: before `seq_lock_read_begin`, inside it, or inside
`memcpy` with what it has copied so far. -/
inductive Place where
  | looping
  | spinning
  | copying (seq1 : UInt32) (buf : List UInt8)

/-- A tool in `main`, with the object it has mapped. Its output is kept as the copies
it printed. -/
structure Tool where
  object : Nat
  ipcSize : Nat
  seq : UInt32 := 0
  place : Place := .looping
  shown : List (List UInt8) := []

/-- What a tool remembers, in the terms of `seq_lock::state`. -/
def Tool.state (tool : Tool) : State :=
  { prevSeq := tool.seq, hasReadOnce := !tool.shown.isEmpty }

/-- What a step of the loop reports. The end of an attempt reports its number, what
the tool remembered before, and the copy. -/
inductive Glance where
  | entered
  | spun
  | begun
  | copied (position : Nat)
  | retried
  | ended (seq1 : UInt32) (before : State) (buf : List UInt8)

/-- The next atomic step of `while(1)`. -/
def Tool.advance (object : Block) (tool : Tool) : Glance × Tool :=
  match tool.place with
  | .looping => (.entered, { tool with place := .spinning })
  | .spinning =>
      match seqLockReadBegin (object.load32 0) with
      | none => (.spun, tool)
      | some seq1 => (.begun, { tool with place := .copying seq1 [] })
  | .copying seq1 buf =>
      if buf.length < bufSize tool.ipcSize then
        (.copied buf.length,
          { tool with place := .copying seq1 (buf ++ [object.byte (ipcBuf + buf.length)]) })
      else if seqLockReadRetry (object.load32 0) seq1 then
        (.retried, { tool with place := .spinning })
      else
        (.ended seq1 tool.state buf,
          if seq1 ≠ tool.seq then
            { tool with seq := seq1, place := .looping, shown := tool.shown ++ [buf] }
          else { tool with place := .looping })

/-- A machine and the tools that are running. -/
structure Watched (H T : Type) (kind : Name → StorageType) where
  machine : Machine H kind := {}
  tools : T → Option Tool := fun _ => none

/-- Scheduling choices. -/
inductive WatchedAction (H T : Type) (kind : Name → StorageType) where
  | machine (action : Ipc.Machines.Action H kind)
  | start (t : T) (argument : List UInt8)
  | tool (t : T)

/-- A step of the machine, the start of a tool on a name, or a step of a tool on the
object it has mapped. -/
inductive WatchedEvent (H T : Type) (kind : Name → StorageType) where
  | machine (event : Ipc.Machines.Event H kind)
  | started (t : T) (name : Name)
  | looked (t : T) (object : Nat) (glance : Glance)

variable {H T : Type} {kind : Name → StorageType} [DecidableEq H] [DecidableEq T]

/-- One atomic step. An empty object cannot be mapped, and the assertion on that ends
the tool, after it has made the object if there was none. -/
def Watched.perform (watched : Watched H T kind) :
    WatchedAction H T kind → Option (WatchedEvent H T kind × Watched H T kind)
  | .machine action => do
      let (event, machine) ← watched.machine.perform action
      pure (.machine event, { watched with machine := machine })
  | .start t argument =>
      match watched.tools t with
      | some _ => none
      | none =>
        let (object, opened) := watched.machine.openName (ipcId argument)
        let ipcSize := (opened.shm.object object).size
        some (.started t (ipcId argument),
          { machine := opened
            tools := if ipcSize = 0 then watched.tools else
              Function.update watched.tools t (some { object := object, ipcSize := ipcSize }) })
  | .tool t => do
      let tool ← watched.tools t
      let (glance, later) := tool.advance (watched.machine.shm.object tool.object)
      pure (.looked t tool.object glance,
        { watched with tools := Function.update watched.tools t (some later) })

/-- The machine's users keep to the discipline; tools are under no obligation. -/
def WatchedDiscipline (watched : Watched H T kind) : WatchedEvent H T kind → Prop
  | .machine event => Disciplined watched.machine event
  | .started _ _ | .looked _ _ _ => True

/-- Runs of a machine whose users keep to the discipline, with tools looking on. -/
abbrev WatchedRun (events : List (WatchedEvent H T kind)) (final : Watched H T kind) : Prop :=
  Run (Guarded WatchedDiscipline (Steps Watched.perform)) {} events final

/-- The machine's own steps. -/
def WatchedEvent.own : WatchedEvent H T kind → Option (Ipc.Machines.Event H kind)
  | .machine event => some event
  | .started _ _ | .looked _ _ _ => none

/-- Everything a step can do. A tool that is started on an empty object does not run. -/
inductive WatchedEffect (watched : Watched H T kind) :
    WatchedEvent H T kind → Watched H T kind → Prop where
  | machine (event : Ipc.Machines.Event H kind) (machine : Machine H kind)
      (taken : Steps Machine.perform watched.machine event machine) :
      WatchedEffect watched (.machine event) { watched with machine := machine }
  | refused (t : T) (name : Name) :
      WatchedEffect watched (.started t name)
        { watched with machine := (watched.machine.openName name).2 }
  | started (t : T) (name : Name) (idle : watched.tools t = none)
      (mappable : ((watched.machine.openName name).2.shm.object
        (watched.machine.openName name).1).size ≠ 0) :
      WatchedEffect watched (.started t name)
        { machine := (watched.machine.openName name).2
          tools := Function.update watched.tools t (some
            { object := (watched.machine.openName name).1
              ipcSize := ((watched.machine.openName name).2.shm.object
                (watched.machine.openName name).1).size }) }
  | looked (t : T) (tool : Tool) (running : watched.tools t = some tool) :
      WatchedEffect watched
        (.looked t tool.object (tool.advance (watched.machine.shm.object tool.object)).1)
        { watched with
          tools := Function.update watched.tools t
            (some (tool.advance (watched.machine.shm.object tool.object)).2) }

/-- Every step has one of these effects. -/
theorem watched_effect {watched next : Watched H T kind} {event : WatchedEvent H T kind}
    (taken : Steps Watched.perform watched event next) : WatchedEffect watched event next := by
  obtain ⟨action, performed⟩ := taken
  cases action with
  | machine action =>
    simp only [Watched.perform, Option.bind_eq_bind, Option.bind_eq_some_iff, Option.pure_def,
      Option.some.injEq, Prod.exists, Prod.mk.injEq] at performed
    obtain ⟨own, machine, stepped, rfl, rfl⟩ := performed
    exact .machine own machine ⟨action, stepped⟩
  | start t argument =>
    simp only [Watched.perform] at performed
    split at performed
    · cases performed
    · next idle =>
      simp only [Option.some.injEq, Prod.mk.injEq] at performed
      obtain ⟨rfl, rfl⟩ := performed
      split
      · exact .refused t _
      · next mappable => exact .started t _ idle mappable
  | tool t =>
    simp only [Watched.perform, Option.bind_eq_bind, Option.bind_eq_some_iff, Option.pure_def,
      Option.some.injEq, Prod.mk.injEq] at performed
    obtain ⟨tool, running, rfl, rfl⟩ := performed
    exact .looked t tool running

section Lock

variable (type : StorageType)

/-- Where the entry begins in a copy. -/
def gap : Nat := type.entryOffset - ipcBuf

/-- The part of a copy that lies where the type has its entry. -/
def entryIn (buf : List UInt8) : Entry UInt8 type.size := fun i => buf.getD (gap type + i) 0

/-- The tool copies no less than the entry. -/
def Covers (ipcSize : Nat) : Prop := gap type + type.size ≤ bufSize ipcSize

instance (ipcSize : Nat) : Decidable (Covers type ipcSize) :=
  inferInstanceAs (Decidable (gap type + type.size ≤ bufSize ipcSize))

/-- What a step of the tool means to the lock of its object. -/
def Glance.on : Glance → List (SeqLock.Event Unit UInt8 type.size)
  | .entered => [.readCalled ()]
  | .spun => [.spun ()]
  | .begun => [.begun ()]
  | .copied position =>
      if gap type ≤ position ∧ position < gap type + type.size then
        [.copied () (position - gap type)] else []
  | .retried => [.retried ()]
  | .ended seq1 before buf => [.returned () (conclude seq1 before).1 (entryIn type buf)]

/-- A tool stands where a reader of the lock does. -/
def Stands (tool : Tool) (reader : Reader UInt8 type.size) : Prop :=
  reader.state = tool.state ∧
    match tool.place with
    | .looping => reader.phase = .idle
    | .spinning => ∃ copy, reader.phase = .spinning copy
    | .copying seq1 buf =>
        ∃ copy, reader.phase = .copying seq1 copy (min (buf.length - gap type) type.size) ∧
          ∀ i : Fin type.size, i.val < buf.length - gap type → copy i = entryIn type buf i

variable {type}

/-- The entry of a mapped object begins where the copy has it. -/
theorem gap_address (k : Nat) : ipcBuf + (gap type + k) = type.entryOffset + k := by
  have line := type.cacheline_le_entryOffset
  rw [gap, ipcBuf]
  omega

/-- What has been copied stays as it is. -/
theorem entryIn_append (buf : List UInt8) (byte : UInt8) (i : Fin type.size)
    (copied : i.val < buf.length - gap type) :
    entryIn type (buf ++ [byte]) i = entryIn type buf i := by
  rw [entryIn, entryIn, List.getD_append _ _ _ _ (by omega)]

/-- What a reader of the lock can do, it can do next. -/
theorem reader_takes {system : System Unit UInt8 type.size} {reader : Reader UInt8 type.size}
    {event : SeqLock.Event Unit UInt8 type.size} (even : EvenStart system event)
    (taken : advanceReader system.lock () (system.readers ()) = some (event, reader)) :
    Run (Guarded EvenStart CrashStep) system [event] (system.setReader () reader) :=
  .single ⟨even, .live (.reader ()), by simp [advanceCrash, SeqLock.advance, taken]⟩

/-- Replacing a reader by itself changes nothing. -/
theorem setReader_self (system : System Unit UInt8 type.size) :
    system.setReader () (system.readers ()) = system := by
  cases system
  simp [System.setReader]

/-- What a tool remembers of an attempt is what `seq_lock::read` would. -/
theorem stands_looping (tool : Tool) (seq1 : UInt32) (buf : List UInt8) :
    Stands type
      (if seq1 ≠ tool.seq then
        { tool with seq := seq1, place := .looping, shown := tool.shown ++ [buf] }
      else { tool with place := .looping })
      { phase := .idle, state := (conclude seq1 tool.state).2 } := by
  by_cases same : seq1 = tool.seq
  · have unmoved : seq1 = tool.state.prevSeq := same
    simp only [same, ne_eq, not_true_eq_false, if_false]
    refine ⟨?_, rfl⟩
    rw [← same, unmoved]
    exact conclude_same tool.state
  · have moved : seq1 ≠ tool.state.prevSeq := same
    simp only [same, ne_eq, not_false_eq_true, if_true]
    refine ⟨?_, rfl⟩
    simp only [conclude, moved, ne_eq, not_false_eq_true, if_true]
    cases received : tool.state.hasReadOnce <;> simp [Tool.state]

/-- One more byte of a copy is one more byte of the entry, or none. -/
theorem copied_step {system : System Unit UInt8 type.size} {object : Block} {seq1 : UInt32}
    {buf : List UInt8} {copy : Entry UInt8 type.size} (lock : system.lock = sharedOf type object)
    (phase : (system.readers ()).phase =
      .copying seq1 copy (min (buf.length - gap type) type.size))
    (copied : ∀ i : Fin type.size, i.val < buf.length - gap type → copy i = entryIn type buf i) :
    let longer := buf ++ [object.byte (ipcBuf + buf.length)]
    ∃ reader : Reader UInt8 type.size, reader.state = (system.readers ()).state ∧
      Run (Guarded EvenStart CrashStep) system ((Glance.copied buf.length).on type)
        (system.setReader () reader) ∧
      ∃ copy, reader.phase = .copying seq1 copy (min (longer.length - gap type) type.size) ∧
        ∀ i : Fin type.size, i.val < longer.length - gap type → copy i = entryIn type longer i := by
  intro longer
  have length : longer.length = buf.length + 1 := by simp [longer]
  by_cases within : gap type ≤ buf.length ∧ buf.length < gap type + type.size
  · obtain ⟨k, reached⟩ := Nat.exists_eq_add_of_le within.1
    have inside : k < type.size := by omega
    have here : min (buf.length - gap type) type.size = k := by omega
    have there : min (longer.length - gap type) type.size = k + 1 := by omega
    rw [here] at phase
    rw [there]
    have word : system.lock.entry ⟨k, inside⟩ = entryIn type longer ⟨k, inside⟩ := by
      have address : object.byte (type.entryOffset + k) = object.byte (ipcBuf + buf.length) := by
        rw [reached, gap_address]
      have last : longer.getD (gap type + k) 0 = object.byte (ipcBuf + buf.length) := by
        rw [← reached]
        simp [longer]
      rw [lock, entryIn, last, ← address]
      rfl
    refine ⟨{ system.readers () with
      phase := .copying seq1 (Function.update copy ⟨k, inside⟩ (system.lock.entry ⟨k, inside⟩))
        (k + 1) }, rfl, ?_, _, rfl, ?_⟩
    · rw [Glance.on, if_pos within, reached, Nat.add_sub_cancel_left]
      exact reader_takes trivial (by simp [advanceReader, phase, inside])
    · intro i below
      refine stored_next inside _ word ?_ i (by omega)
      intro earlier before
      rw [copied earlier (by omega), entryIn_append _ _ _ (by omega)]
  · have same : min (longer.length - gap type) type.size =
        min (buf.length - gap type) type.size := by omega
    refine ⟨system.readers (), rfl, ?_, copy, by rw [same]; exact phase, ?_⟩
    · rw [Glance.on, if_neg within, setReader_self]
      exact .refl
    · intro i below
      have before : i.val < buf.length - gap type := by omega
      rw [copied i before, entryIn_append _ _ _ before]

/-- A step of the tool is taken by the reader it stands for.

Proof: by cases on the place. A byte in front of the entry or behind it means nothing
to the reader, and at the end of the copy the entry is complete. -/
theorem tool_step {system : System Unit UInt8 type.size} {object : Block} {tool : Tool}
    (lock : system.lock = sharedOf type object) (covers : Covers type tool.ipcSize)
    (stands : Stands type tool (system.readers ())) :
    ∃ reader, Run (Guarded EvenStart CrashStep) system ((tool.advance object).1.on type)
        (system.setReader () reader) ∧ Stands type (tool.advance object).2 reader := by
  obtain ⟨state, stands⟩ := stands
  have number : system.lock.seq = object.load32 0 := congrArg Shared.seq lock
  cases place : tool.place with
  | looping =>
    simp only [place] at stands
    refine ⟨{ system.readers () with phase := .spinning (fun _ => 0) }, ?_, ?_⟩
    · simp only [Tool.advance, place, Glance.on]
      refine .single ⟨trivial, .live (.read () (fun _ => 0)), ?_⟩
      simp [advanceCrash, SeqLock.advance, stands]
    · simp only [Tool.advance, place]
      exact ⟨state, _, rfl⟩
  | spinning =>
    simp only [place] at stands
    obtain ⟨copy, phase⟩ := stands
    cases loaded : seqLockReadBegin (object.load32 0) with
    | none =>
      refine ⟨system.readers (), ?_, ?_⟩
      · simp only [Tool.advance, place, loaded, Glance.on]
        exact reader_takes trivial (by simp [advanceReader, phase, number, loaded])
      · simp only [Tool.advance, place, loaded]
        exact ⟨state, by simpa [place] using ⟨copy, phase⟩⟩
    | some seq1 =>
      refine ⟨{ system.readers () with phase := .copying seq1 copy 0 }, ?_, ?_⟩
      · simp only [Tool.advance, place, loaded, Glance.on]
        exact reader_takes trivial (by simp [advanceReader, phase, number, loaded])
      · simp only [Tool.advance, place, loaded]
        exact ⟨state, copy, by simp, fun i below => absurd below (by simp)⟩
  | copying seq1 buf =>
    simp only [place] at stands
    obtain ⟨copy, phase, copied⟩ := stands
    by_cases more : buf.length < bufSize tool.ipcSize
    · obtain ⟨reader, same, run, position⟩ := copied_step lock phase copied
      refine ⟨reader, ?_, ?_⟩
      · simp only [Tool.advance, place, more, if_true]
        exact run
      · simp only [Tool.advance, place, more, if_true]
        exact ⟨same.trans state, position⟩
    · have complete : gap type + type.size ≤ buf.length :=
        Nat.le_trans covers (Nat.le_of_not_lt more)
      have finished : min (buf.length - gap type) type.size = type.size := by omega
      have whole : copy = entryIn type buf := funext fun i => copied i (by omega)
      rw [finished, whole] at phase
      by_cases moved : seqLockReadRetry (object.load32 0) seq1 = true
      · refine ⟨{ system.readers () with phase := .spinning (entryIn type buf) }, ?_, ?_⟩
        · simp only [Tool.advance, place, more, moved, if_true, if_false, Glance.on]
          exact reader_takes trivial (by simp [advanceReader, phase, number, moved])
        · simp only [Tool.advance, place, more, moved, if_true, if_false]
          exact ⟨state, _, rfl⟩
      · refine ⟨{ phase := .idle, state := (conclude seq1 tool.state).2 }, ?_, ?_⟩
        · simp only [Tool.advance, place, more, moved, if_false, Glance.on]
          refine reader_takes trivial ?_
          simp [advanceReader, phase, number, moved, state]
        · simp only [Tool.advance, place, more, moved, if_false]
          exact stands_looping tool seq1 buf

/-- A tool keeps its mapping. -/
theorem advance_mapping (tool : Tool) (object : Block) :
    (tool.advance object).2.object = tool.object ∧ (tool.advance object).2.ipcSize = tool.ipcSize := by
  cases place : tool.place with
  | looping => simp [Tool.advance, place]
  | spinning => cases loaded : seqLockReadBegin (object.load32 0) <;> simp [Tool.advance, place, loaded]
  | copying seq1 buf =>
    simp only [Tool.advance, place]
    split
    · exact ⟨rfl, rfl⟩
    · split
      · exact ⟨rfl, rfl⟩
      · split <;> exact ⟨rfl, rfl⟩

/-- A tool prints exactly when the reader it stands for receives. -/
theorem shown_step (tool : Tool) (object : Block) :
    (tool.advance object).2.shown.map (entryIn type) = tool.shown.map (entryIn type) ++
      (projected Event.operation ((tool.advance object).1.on type)).filterMap
        (Operation.receivedBy ()) := by
  cases place : tool.place with
  | looping => simp [Tool.advance, place, Glance.on, projected, Event.operation]
  | spinning =>
    cases loaded : seqLockReadBegin (object.load32 0) <;>
      simp [Tool.advance, place, loaded, Glance.on, projected, Event.operation]
  | copying seq1 buf =>
    by_cases more : buf.length < bufSize tool.ipcSize
    · simp only [Tool.advance, place, more, if_true, Glance.on]
      split <;> simp [projected, Event.operation]
    · by_cases moved : seqLockReadRetry (object.load32 0) seq1 = true
      · simp [Tool.advance, place, more, moved, Glance.on, projected, Event.operation]
      · have news := conclude_success_iff seq1 tool.state
        by_cases same : seq1 = tool.seq
        · have stale : (conclude seq1 tool.state).1 ≠ .success := mt news.mp (not_not_intro same)
          subst same
          simp [Tool.advance, place, more, moved, Glance.on, projected, Event.operation,
            Operation.receivedBy, stale]
        · have success : (conclude seq1 tool.state).1 = .success := news.mpr same
          simp [Tool.advance, place, more, moved, Glance.on, projected, Event.operation, same,
            Operation.receivedBy, success]

end Lock

section Machines

/-- What a step means to the lock of an object that one tool watches. -/
def WatchedEvent.on (t : T) (name : Name) (object : Nat) :
    WatchedEvent H T kind → List (SeqLock.Event Unit UInt8 (kind name).size)
  | .machine event => projected Event.unread (event.on name object)
  | .started _ _ => []
  | .looked other id glance => if other = t ∧ id = object then glance.on (kind name) else []

/-- What the reader that a tool stands for has received. -/
abbrev receivedIn (t : T) (name : Name) (object : Nat) (events : List (WatchedEvent H T kind)) :
    List (Entry UInt8 (kind name).size) :=
  (projected Event.operation (projected (WatchedEvent.on t name object) events)).filterMap
    (Operation.receivedBy ())

omit [DecidableEq H] in
/-- What is received at one more step. -/
theorem receivedIn_snoc (t : T) (name : Name) (object : Nat) (events : List (WatchedEvent H T kind))
    (event : WatchedEvent H T kind) :
    receivedIn t name object (events ++ [event]) = receivedIn t name object events ++
      (projected Event.operation (event.on t name object)).filterMap (Operation.receivedBy ()) := by
  rw [receivedIn, projected_snoc, projected_append, List.filterMap_append]

/-- Nobody receives anything by a writer's steps. -/
theorem unread_received {R W : Type} {width : Nat} (events : List (SeqLock.Event R W width)) :
    (projected Event.operation
      (projected (Event.unread (Q := Unit)) events)).filterMap (Operation.receivedBy ()) = [] := by
  induction events with
  | nil => rfl
  | cons event events inductionHypothesis =>
    rw [← List.singleton_append, projected_append, projected_append, List.filterMap_append,
      inductionHypothesis, List.append_nil]
    cases event <;> rfl

/-- Everybody sees the same writes. -/
theorem unread_writes {R W : Type} {width : Nat} (events : List (SeqLock.Event R W width)) :
    (projected Event.operation
      (projected (Event.unread (Q := Unit)) events)).filterMap Operation.entry =
      (projected Event.operation events).filterMap Operation.entry := by
  induction events with
  | nil => rfl
  | cons event events inductionHypothesis =>
    rw [← List.singleton_append, projected_append, projected_append, projected_append,
      List.filterMap_append, List.filterMap_append, inductionHypothesis]
    congr 1
    cases event <;> rfl

/-- A tool writes nothing. -/
theorem glance_writes (type : StorageType) (glance : Glance) :
    (projected Event.operation (glance.on type)).filterMap Operation.entry = [] := by
  cases glance with
  | copied position =>
    rw [Glance.on]
    split <;> rfl
  | _ => rfl

/-- Tools have mapped objects of their full size. -/
def Sized (watched : Watched H T kind) : Prop :=
  ∀ t tool, watched.tools t = some tool → ∃ name, watched.machine.origin tool.object = some name ∧
    tool.ipcSize = (kind name).objectSize

/-- A tool and an object are a lock with one reader, which has received what the tool
has printed. -/
structure Attends (t : T) (name : Name) (object : Nat) (events : List (WatchedEvent H T kind))
    (watched : Watched H T kind) (system : System Unit UInt8 (kind name).size) : Prop where
  hosted : ∃ hosted, Hosts watched.machine name object hosted ∧ SharesWriter hosted system
  stands : ∀ tool, watched.tools t = some tool → tool.object = object →
    Stands (kind name) tool (system.readers ()) ∧
      tool.shown.map (entryIn (kind name)) = receivedIn t name object events
  absent : (∀ tool, watched.tools t = some tool → tool.object ≠ object) →
    system.readers () = {} ∧ receivedIn t name object events = []

variable {watched : Watched H T kind} {t : T} {name : Name} {object : Nat}
  {events : List (WatchedEvent H T kind)} {system : System Unit UInt8 (kind name).size}

omit [DecidableEq H] in
/-- Who runs after one tool has been replaced. -/
theorem running_iff (tools : T → Option Tool) (t other : T) (later tool : Tool) :
    Function.update tools t (some later) other = some tool ↔
      other = t ∧ tool = later ∨ other ≠ t ∧ tools other = some tool := by
  by_cases here : other = t
  · subst here
    simp [eq_comm]
  · simp [here]

/-- A step keeps what the machine keeps, the tools' sizes and the objects' names. -/
theorem watched_kept {next : Watched H T kind} {event : WatchedEvent H T kind}
    (kept : Kept watched.machine) (sized : Sized watched)
    (effect : WatchedEffect watched event next) :
    Kept next.machine ∧ Sized next ∧ ∀ object name, watched.machine.origin object = some name →
      next.machine.origin object = some name := by
  cases effect with
  | machine event machine taken =>
    have effect := machine_effect taken
    refine ⟨kept_step kept effect, ?_, fun _ _ made => origin_kept kept effect made⟩
    intro t tool running
    obtain ⟨name, made, size⟩ := sized t tool running
    exact ⟨name, origin_kept kept effect made, size⟩
  | refused t name =>
    obtain ⟨after, -, -, origin⟩ := kept.openName name
    refine ⟨after, ?_, fun _ _ made => origin _ _ made⟩
    intro other tool running
    obtain ⟨known, made, size⟩ := sized other tool running
    exact ⟨known, origin _ _ made, size⟩
  | started t name idle mappable =>
    obtain ⟨after, opened, -, origin⟩ := kept.openName name
    refine ⟨after, ?_, fun _ _ made => origin _ _ made⟩
    intro other tool running
    rcases (running_iff _ _ _ _ _).mp running with ⟨-, rfl⟩ | ⟨-, before⟩
    · exact ⟨name, opened, (after.tailored opened).size.resolve_left mappable⟩
    · obtain ⟨known, made, size⟩ := sized other tool before
      exact ⟨known, origin _ _ made, size⟩
  | looked t tool running =>
    refine ⟨kept, ?_, fun _ _ made => made⟩
    intro other later there
    rcases (running_iff _ _ _ _ _).mp there with ⟨-, rfl⟩ | ⟨-, before⟩
    · obtain ⟨object, ipcSize⟩ := advance_mapping tool (watched.machine.shm.object tool.object)
      rw [object, ipcSize]
      exact sized t tool running
    · exact sized other later before

/-- A step of the machine. -/
theorem attends_machine {event : Ipc.Machines.Event H kind} {machine : Machine H kind}
    (attends : Attends t name object events watched system) (kept : Kept watched.machine)
    (disciplined : Disciplined watched.machine event)
    (taken : Steps Machine.perform watched.machine event machine)
    (own : ∀ other, machine.origin object = some other → other = name) :
    ∃ later, Run (Guarded EvenStart CrashStep) system (projected Event.unread (event.on name object))
        later ∧ (∃ hosted, Hosts machine name object hosted ∧ SharesWriter hosted later) ∧
      later.readers = system.readers := by
  obtain ⟨hosted, hosts, shares⟩ := attends.hosted
  obtain ⟨next, run, after⟩ := hosted_step kept hosts disciplined (machine_effect taken) own
  obtain ⟨later, seen, together, readers⟩ := unread_run shares run
  exact ⟨later, seen, ⟨next, after, together⟩, readers⟩

/-- Opening a name. -/
theorem attends_opened (attends : Attends t name object events watched system)
    (kept : Kept watched.machine) (opened : Name)
    (own : ∀ other, (watched.machine.openName opened).2.origin object = some other → other = name) :
    ∃ later, Run (Guarded EvenStart CrashStep) system [] later ∧
      (∃ hosted, Hosts (watched.machine.openName opened).2 name object hosted ∧
        SharesWriter hosted later) ∧ later.readers = system.readers :=
  attends_machine attends kept (show Disciplined watched.machine (.peeked opened) from trivial)
    ⟨.peek opened, rfl⟩ own

/-- One step is matched by the lock that the tool watches. -/
theorem attended_step {event : WatchedEvent H T kind} {next : Watched H T kind}
    (covers : Covers (kind name) (kind name).objectSize)
    (kept : Kept watched.machine) (sized : Sized watched)
    (attends : Attends t name object events watched system)
    (disciplined : WatchedDiscipline watched event) (effect : WatchedEffect watched event next)
    (own : ∀ other, next.machine.origin object = some other → other = name) :
    ∃ later, Run (Guarded EvenStart CrashStep) system (event.on t name object) later ∧
      Attends t name object (events ++ [event]) next later := by
  cases effect with
  | machine event machine taken =>
    obtain ⟨later, run, hosted, readers⟩ := attends_machine attends kept disciplined taken own
    have same : receivedIn t name object (events ++ [.machine event]) =
        receivedIn t name object events := by
      rw [receivedIn_snoc, WatchedEvent.on, unread_received, List.append_nil]
    refine ⟨later, run, hosted, ?_, ?_⟩
    · rw [readers, same]
      exact attends.stands
    · rw [readers, same]
      exact attends.absent
  | refused other opened =>
    obtain ⟨later, run, hosted, readers⟩ := attends_opened attends kept opened own
    have same : receivedIn t name object (events ++ [.started other opened]) =
        receivedIn t name object events := by
      rw [receivedIn_snoc]
      exact List.append_nil _
    refine ⟨later, run, hosted, ?_, ?_⟩
    · rw [readers, same]
      exact attends.stands
    · rw [readers, same]
      exact attends.absent
  | started other opened idle mappable =>
    obtain ⟨later, run, hosted, readers⟩ := attends_opened attends kept opened own
    have same : receivedIn t name object (events ++ [.started other opened]) =
        receivedIn t name object events := by
      rw [receivedIn_snoc]
      exact List.append_nil _
    refine ⟨later, run, hosted, ?_, ?_⟩
    · intro tool there watching
      rw [readers, same]
      rcases (running_iff _ _ _ _ _).mp there with ⟨rfl, rfl⟩ | ⟨-, before⟩
      · obtain ⟨unread, nothing⟩ := attends.absent (by simp [idle])
        rw [unread, nothing]
        exact ⟨⟨rfl, rfl⟩, rfl⟩
      · exact attends.stands tool before watching
    · intro elsewhere
      rw [readers, same]
      apply attends.absent
      intro tool before
      have apart : t ≠ other := by
        rintro rfl
        rw [idle] at before
        cases before
      exact elsewhere tool ((running_iff _ _ _ _ _).mpr (.inr ⟨apart, before⟩))
  | looked other tool running =>
    obtain ⟨mapped, -⟩ := advance_mapping tool (watched.machine.shm.object tool.object)
    by_cases here : other = t ∧ tool.object = object
    · obtain ⟨rfl, rfl⟩ := here
      obtain ⟨hosted, hosts, shares⟩ := attends.hosted
      obtain ⟨stands, shown⟩ := attends.stands tool running rfl
      obtain ⟨made, origin, size⟩ := sized other tool running
      obtain rfl := own made origin
      obtain ⟨reader, run, after⟩ := tool_step (shares.lock.trans hosts.lock.symm)
        (show Covers (kind made) tool.ipcSize from size ▸ covers) stands
      refine ⟨system.setReader () reader, ?_, ⟨hosted, hosts, shares.lock, shares.writer⟩, ?_, ?_⟩
      · rw [WatchedEvent.on, if_pos ⟨rfl, rfl⟩]
        exact run
      · intro later there _
        obtain ⟨-, rfl⟩ := ((running_iff _ _ _ _ _).mp there).resolve_right (fun away => away.1 rfl)
        rw [setReader_same, shown_step, shown, receivedIn_snoc, WatchedEvent.on,
          if_pos ⟨rfl, rfl⟩]
        exact ⟨after, rfl⟩
      · intro elsewhere
        exact absurd mapped (elsewhere _ ((running_iff _ _ _ _ _).mpr (.inl ⟨rfl, rfl⟩)))
    · have same : receivedIn t name object (events ++ [.looked other tool.object
          (tool.advance (watched.machine.shm.object tool.object)).1]) =
          receivedIn t name object events := by
        rw [receivedIn_snoc, WatchedEvent.on, if_neg here]
        exact List.append_nil _
      refine ⟨system, ?_, attends.hosted, ?_, ?_⟩
      · rw [WatchedEvent.on, if_neg here]
        exact .refl
      · intro later there watching
        rw [same]
        rcases (running_iff _ _ _ _ _).mp there with ⟨rfl, rfl⟩ | ⟨-, before⟩
        · exact absurd ⟨rfl, mapped.symm.trans watching⟩ here
        · exact attends.stands later before watching
      · intro elsewhere
        rw [same]
        apply attends.absent
        intro before there watching
        by_cases who : t = other
        · subst who
          obtain rfl := Option.some.inj (running.symm.trans there)
          exact here ⟨rfl, watching⟩
        · exact elsewhere before ((running_iff _ _ _ _ _).mpr (.inr ⟨who, there⟩)) watching

omit [DecidableEq H] in
/-- The writes that a tool's lock sees are those of the machine. -/
theorem watched_writes (t : T) (name : Name) (object : Nat)
    (events : List (WatchedEvent H T kind)) :
    (projected Event.operation (projected (WatchedEvent.on t name object) events)).filterMap
      Operation.entry = writesOn name object (events.filterMap WatchedEvent.own) := by
  induction events with
  | nil => rfl
  | cons event events inductionHypothesis =>
    rw [← List.singleton_append, projected_append, projected_append, List.filterMap_append,
      inductionHypothesis, List.filterMap_append, writesOn, writesOn, operationsOn, operationsOn,
      projected_append, projected_append, List.filterMap_append]
    congr 1
    cases event with
    | machine event =>
      have seen := unread_writes (event.on name object)
      simpa [projected, WatchedEvent.on, WatchedEvent.own] using seen
    | started other opened => rfl
    | looked other id glance =>
      have alone : projected (WatchedEvent.on t name object)
          [(.looked other id glance : WatchedEvent H T kind)] =
          if other = t ∧ id = object then glance.on (kind name) else [] :=
        List.flatMap_singleton _ _
      rw [alone]
      split
      · exact glance_writes (kind name) glance
      · rfl

/-- A tool and its object are a lock with one reader throughout. -/
theorem run_attends (t : T) (name : Name) (object : Nat) {final : Watched H T kind}
    (covers : Covers (kind name) (kind name).objectSize) (run : WatchedRun events final) :
    Kept final.machine ∧ Sized final ∧
      ((∀ other, final.machine.origin object = some other → other = name) →
        ∃ system, EvenRun (projected (WatchedEvent.on t name object) events) system ∧
          Attends t name object events final system) := by
  induction run with
  | refl =>
    refine ⟨kept_initial, fun _ _ running => (by cases running), fun _ => ⟨System.initial, .refl, ?_⟩⟩
    exact ⟨⟨System.initial, hosts_initial name object, rfl, rfl⟩, fun _ running => (by cases running),
      fun _ => ⟨rfl, rfl⟩⟩
  | snoc events event state next _ taken inductionHypothesis =>
    obtain ⟨kept, sized, attended⟩ := inductionHypothesis
    have effect := watched_effect taken.2
    obtain ⟨keptNext, sizedNext, origin⟩ := watched_kept kept sized effect
    refine ⟨keptNext, sizedNext, ?_⟩
    intro own
    obtain ⟨system, before, attends⟩ := attended fun other made => own other (origin _ _ made)
    obtain ⟨later, matching, after⟩ := attended_step covers kept sized attends taken.1 effect own
    refine ⟨later, ?_, after⟩
    rw [projected_snoc]
    exact before.append matching

/-- Tools print what was written. In every run of a machine with any number of names,
objects and buffers, whose users keep to the discipline, and of any number of tools that
are started on any names at any point: the entries in the copies that a tool prints are
a subsequence of those whose writes complete on its object, in their order. So it
prints nothing torn, nothing of another topic and nothing twice. As soon as an attempt
of it has ended it has printed the newest entry, while fewer than `2 ^ 31` writes have
completed. It is assumed that the copy covers the entry, and that no final attempt of
the tool overlaps `2 ^ 31` writes or more.

Proof: the tool stands for the one reader of a lock, and prints what that receives. -/
theorem tool_prints_writes (events : List (WatchedEvent H T kind)) (final : Watched H T kind)
    (run : WatchedRun events final) (t : T) (tool : Tool) (running : final.tools t = some tool)
    (name : Name) (made : final.machine.origin tool.object = some name)
    (covers : Covers (kind name) (kind name).objectSize)
    (short : ∀ read ∈ (history (projected (WatchedEvent.on t name tool.object) events)).reads,
      read.overlap < 2 ^ 31) :
    (tool.shown.map (entryIn (kind name))).Sublist
        (writesOn name tool.object (events.filterMap WatchedEvent.own)) ∧
      ∀ before seq1 state buf, events = before ++ [.looked t tool.object (.ended seq1 state buf)] →
        (writesOn name tool.object (events.filterMap WatchedEvent.own)).length < 2 ^ 31 →
        (tool.shown.map (entryIn (kind name))).getLast? =
          (writesOn name tool.object (events.filterMap WatchedEvent.own)).getLast? := by
  obtain ⟨-, -, attended⟩ := run_attends t name tool.object covers run
  obtain ⟨system, lockRun, attends⟩ := attended (by
    intro other origin
    exact Option.some.inj (origin.symm.trans made))
  obtain ⟨topic, sequential, -⟩ := explained_run _ system lockRun short
  obtain ⟨upTo, receives, atEnd⟩ := resting_received sequential ()
  obtain ⟨-, shown⟩ := attends.stands tool running rfl
  rw [watched_writes] at receives atEnd
  rw [shown]
  constructor
  · exact receives.delivered.trans (List.take_sublist _ _)
  · intro before seq1 state buf last few
    have all : upTo = (writesOn name tool.object (events.filterMap WatchedEvent.own)).length := by
      apply atEnd
      rw [last, projected_snoc, projected_append, WatchedEvent.on, if_pos ⟨rfl, rfl⟩]
      rfl
    rw [receives.newest few, all, List.take_length]

/-- Where there are finitely many buffers, discipline can be checked. -/
instance [Fintype H] (watched : Watched H T kind) : (event : WatchedEvent H T kind) →
    Decidable (WatchedDiscipline watched event)
  | .machine event => inferInstanceAs (Decidable (Disciplined watched.machine event))
  | .started _ _ | .looked _ _ _ => isTrue trivial

end Machines

/-- A tool is started with the path of an object, on which a write begins and completes. -/
def lookingOn : List (WatchedAction Bool Unit (fun _ => oneInt)) :=
  List.flatten [
    [.machine (.create someName false)], List.replicate 3 (.machine (.init someName false)),
    [.start () (chars "/dev/shm/a"), .tool (), .machine (.write someName false ![5, 6, 7, 8])],
    List.replicate 3 (.machine (.writer someName false)), [.tool ()],
    List.replicate 4 (.machine (.writer someName false)), List.replicate 66 (.tool ())]

/-- It waits for the write and prints it. -/
theorem tool_prints_writes_once :
    ∃ (events : List (WatchedEvent Bool Unit (fun _ => oneInt)))
      (final : Watched Bool Unit (fun _ => oneInt)) (tool : Tool),
    WatchedRun events final ∧ final.tools () = some tool ∧
    (writesOn someName tool.object (events.filterMap WatchedEvent.own)).map List.ofFn =
      [[5, 6, 7, 8]] ∧ tool.shown.map (List.take 4) = [[5, 6, 7, 8]] ∧
    (tool.shown.map (entryIn oneInt)).Sublist
      (writesOn someName tool.object (events.filterMap WatchedEvent.own)) := by
  let executed := execute (guardedBy WatchedDiscipline Watched.perform)
    ({} : Watched Bool Unit (fun _ => oneInt)) lookingOn
  have running : executed.map (fun result => (result.2.tools ()).map (fun tool =>
      (tool.object, tool.shown.map (List.take 4)))) = some (some (0, [[5, 6, 7, 8]])) := by
    decide +kernel
  have origin : executed.map (fun result => result.2.machine.origin 0) = some (some someName) := by
    decide +kernel
  have wrote : executed.map (fun result =>
      (writesOn someName 0 (result.1.filterMap WatchedEvent.own)).map List.ofFn) =
      some [[5, 6, 7, 8]] := by decide +kernel
  have overlaps : executed.map (fun result =>
      (history (projected (WatchedEvent.on () someName 0) result.1)).reads.map Read.overlap) =
      some [0] := by decide +kernel
  obtain ⟨⟨events, final⟩, reached, made⟩ := Option.map_eq_some_iff.mp origin
  simp only [reached, Option.map_some, Option.some.injEq] at running wrote overlaps
  obtain ⟨tool, there, same⟩ := Option.map_eq_some_iff.mp running
  obtain ⟨object, shown⟩ := Prod.mk.inj same
  have run : WatchedRun events final := (execute_run _ _ _ _ _ reached).ofGuarded
  have printed := tool_prints_writes events final run () tool there someName (object ▸ made)
    (by decide) (by
      intro read member
      rw [object] at member
      have among : read.overlap ∈ (history (projected (WatchedEvent.on () someName 0)
          events)).reads.map Read.overlap := List.mem_map.mpr ⟨read, member, rfl⟩
      rw [overlaps, List.mem_singleton] at among
      rw [among]
      decide)
  exact ⟨events, final, tool, run, there, by rw [object]; exact wrote, shown, printed.1⟩

end Tyndall.Tools
