import Mathlib.Logic.Function.Basic
import Tyndall.Foundation.Runs
import Tyndall.Ipc.SeqLock

/-!
# The sequence lock in atomic steps

One writer calls `write` again and again and any number of readers call `read`.
Every load and every store of the shared memory is one atomic step, in program
order; the entry is stored and copied one word at a time. A schedule chooses
whose step comes next and with which arguments a call is made; the code decides
everything else. Each step reports what it did as an event.

The crash extension adds two steps: the writer's process may die between any two
of its steps, leaving the memory as it is, and a new writer may then attach to
the same memory.
-/

namespace Tyndall.SeqLock

open Counter Runs

variable {R W : Type} {width : Nat}

/-- Where the writer stands in `write`. After the load it holds the incremented
`seq1`; while storing, the words below `next` have been stored. -/
inductive Writer (W : Type) (width : Nat) where
  | dead
  | idle
  | beginning (entry : Entry W width)
  | raising (entry : Entry W width) (seq1 : UInt32)
  | storing (entry : Entry W width) (seq1 : UInt32) (next : Nat)

/-- Where a reader stands in `read`: spinning in `read_begin`, or copying with
the words below `next` copied into the caller's entry. -/
inductive Phase (W : Type) (width : Nat) where
  | idle
  | spinning (copy : Entry W width)
  | copying (seq1 : UInt32) (copy : Entry W width) (next : Nat)

/-- A reader's thread and the state it keeps from one read to the next. -/
structure Reader (W : Type) (width : Nat) where
  phase : Phase W width := .idle
  state : State := {}

/-- The shared memory, the writer and the readers, indexed by an arbitrary type. -/
structure System (R W : Type) (width : Nat) where
  lock : Shared W width
  writer : Writer W width
  readers : R → Reader W width

/-- A fresh topic: zeroed memory, an idle writer and readers that never read. -/
def System.initial [Zero W] : System R W width :=
  { lock := created, writer := .idle, readers := fun _ => {} }

/-- Replace one reader. -/
def System.setReader [DecidableEq R] (system : System R W width) (name : R)
    (reader : Reader W width) : System R W width :=
  { system with readers := Function.update system.readers name reader }

/-- What a step reports. A completed write reports its entry and a returning read
its code and the entry handed back. -/
inductive Event (R W : Type) (width : Nat) where
  | called (entry : Entry W width)
  | loaded (seq : UInt32)
  | raised
  | stored (index : Nat)
  | completed (entry : Entry W width)
  | died
  | attached
  | readCalled (reader : R)
  | spun (reader : R)
  | begun (reader : R)
  | copied (reader : R) (index : Nat)
  | retried (reader : R)
  | returned (reader : R) (code : Code) (entry : Entry W width)

/-- Store one word of the entry. -/
def Shared.store (lock : Shared W width) (index : Fin width) (word : W) : Shared W width :=
  { lock with entry := Function.update lock.entry index word }

/-- An entry that agrees with another below a word agrees up to that word once the
word is stored. -/
theorem stored_next {copy target : Entry W width} {next : Nat} (inside : next < width) (word : W)
    (here : word = target ⟨next, inside⟩)
    (stored : ∀ index : Fin width, index.val < next → copy index = target index)
    (index : Fin width) (below : index.val < next + 1) :
    Function.update copy ⟨next, inside⟩ word index = target index := by
  by_cases newest : index = ⟨next, inside⟩
  · rw [newest, Function.update_self, here]
  · have distinct : index.val ≠ next := fun equal => newest (Fin.ext equal)
    rw [Function.update_of_ne newest]
    exact stored index (by omega)

/-- The next atomic step of a writer inside `write`. -/
def advanceWriter (lock : Shared W width) :
    Writer W width → Option (Event R W width × Shared W width × Writer W width)
  | .dead => none
  | .idle => none
  | .beginning entry =>
      some (.loaded lock.seq, lock, .raising entry (seqLockWriteBegin lock.seq))
  | .raising entry seq1 => some (.raised, { lock with seq := seq1 }, .storing entry seq1 0)
  | .storing entry seq1 next =>
      if inside : next < width then
        some (.stored next, lock.store ⟨next, inside⟩ (entry ⟨next, inside⟩),
          .storing entry seq1 (next + 1))
      else some (.completed entry, { lock with seq := seqLockWriteEnd seq1 }, .idle)

/-- The next atomic step of a reader inside `read`. Readers store nothing in the
shared memory. -/
def advanceReader (lock : Shared W width) (name : R) (reader : Reader W width) :
    Option (Event R W width × Reader W width) :=
  match reader.phase with
  | .idle => none
  | .spinning copy =>
      match seqLockReadBegin lock.seq with
      | none => some (.spun name, reader)
      | some seq1 => some (.begun name, { reader with phase := .copying seq1 copy 0 })
  | .copying seq1 copy next =>
      if inside : next < width then
        let copied := Function.update copy ⟨next, inside⟩ (lock.entry ⟨next, inside⟩)
        some (.copied name next, { reader with phase := .copying seq1 copied (next + 1) })
      else if seqLockReadRetry lock.seq seq1 then
        some (.retried name, { reader with phase := .spinning copy })
      else
        let (code, state) := conclude seq1 reader.state
        some (.returned name code copy, { phase := .idle, state := state })

/-- A scheduling choice: who acts next. A call names its argument; the entry a
reader passes by reference holds anything at the call. -/
inductive Action (R W : Type) (width : Nat) where
  | write (entry : Entry W width)
  | writer
  | read (reader : R) (copy : Entry W width)
  | reader (reader : R)

/-- One atomic step of the chosen thread. -/
def advance [DecidableEq R] (system : System R W width) :
    Action R W width → Option (Event R W width × System R W width)
  | .write entry =>
      match system.writer with
      | .idle => some (.called entry, { system with writer := .beginning entry })
      | _ => none
  | .writer => do
      let (event, lock, writer) ← advanceWriter system.lock system.writer
      pure (event, { system with lock := lock, writer := writer })
  | .read name copy =>
      match (system.readers name).phase with
      | .idle =>
          some (.readCalled name,
            system.setReader name { system.readers name with phase := .spinning copy })
      | _ => none
  | .reader name => do
      let (event, reader) ← advanceReader system.lock name (system.readers name)
      pure (event, system.setReader name reader)

/-- Scheduling choices when the writer's process may die and be replaced. -/
inductive CrashAction (R W : Type) (width : Nat) where
  | live (action : Action R W width)
  | die
  | attach

/-- One atomic step, a death of the writer's process at whatever point it has
reached, or the attachment of a new writer to the memory as it was left. -/
def advanceCrash [DecidableEq R] (system : System R W width) :
    CrashAction R W width → Option (Event R W width × System R W width)
  | .live action => advance system action
  | .die =>
      match system.writer with
      | .dead => none
      | _ => some (.died, { system with writer := .dead })
  | .attach =>
      match system.writer with
      | .dead => some (.attached, { system with writer := .idle })
      | _ => none

/-- Runs of a writer that never dies. -/
abbrev LiveStep [DecidableEq R] :
    System R W width → Event R W width → System R W width → Prop := Steps advance

/-- Runs in which the writer's process may die and be replaced. -/
abbrev CrashStep [DecidableEq R] :
    System R W width → Event R W width → System R W width → Prop := Steps advanceCrash

section Readers

variable [DecidableEq R] (system : System R W width) (name : R) (reader : Reader W width)

@[simp] theorem setReader_lock : (system.setReader name reader).lock = system.lock := rfl

@[simp] theorem setReader_writer : (system.setReader name reader).writer = system.writer := rfl

@[simp] theorem setReader_same : (system.setReader name reader).readers name = reader := by
  simp [System.setReader]

theorem setReader_other (other : R) (distinct : other ≠ name) :
    (system.setReader name reader).readers other = system.readers other := by
  simp [System.setReader, distinct]

end Readers

/-- Everything a live step can do, one constructor for each atomic action. -/
inductive Effect [DecidableEq R] (system : System R W width) :
    Event R W width → System R W width → Prop where
  | called (entry : Entry W width) (ready : system.writer = .idle) :
      Effect system (.called entry) { system with writer := .beginning entry }
  | loaded (entry : Entry W width) (stands : system.writer = .beginning entry) :
      Effect system (.loaded system.lock.seq)
        { system with writer := .raising entry (system.lock.seq + 1) }
  | raised (entry : Entry W width) (seq1 : UInt32) (stands : system.writer = .raising entry seq1) :
      Effect system .raised
        { system with lock := { system.lock with seq := seq1 }, writer := .storing entry seq1 0 }
  | stored (entry : Entry W width) (seq1 : UInt32) (next : Nat) (inside : next < width)
      (stands : system.writer = .storing entry seq1 next) :
      Effect system (.stored next)
        { system with
          lock := system.lock.store ⟨next, inside⟩ (entry ⟨next, inside⟩),
          writer := .storing entry seq1 (next + 1) }
  | completed (entry : Entry W width) (seq1 : UInt32) (next : Nat) (finished : width ≤ next)
      (stands : system.writer = .storing entry seq1 next) :
      Effect system (.completed entry)
        { system with lock := { system.lock with seq := seq1 + 1 }, writer := .idle }
  | readCalled (name : R) (copy : Entry W width) (ready : (system.readers name).phase = .idle) :
      Effect system (.readCalled name)
        (system.setReader name { system.readers name with phase := .spinning copy })
  | spun (name : R) (copy : Entry W width) (stands : (system.readers name).phase = .spinning copy)
      (odd : system.lock.seq &&& 1 ≠ 0) :
      Effect system (.spun name) (system.setReader name (system.readers name))
  | begun (name : R) (copy : Entry W width) (stands : (system.readers name).phase = .spinning copy)
      (even : system.lock.seq &&& 1 = 0) :
      Effect system (.begun name)
        (system.setReader name
          { system.readers name with phase := .copying system.lock.seq copy 0 })
  | copied (name : R) (seq1 : UInt32) (copy : Entry W width) (next : Nat) (inside : next < width)
      (stands : (system.readers name).phase = .copying seq1 copy next) :
      Effect system (.copied name next)
        (system.setReader name
          { system.readers name with
            phase := .copying seq1
              (Function.update copy ⟨next, inside⟩ (system.lock.entry ⟨next, inside⟩)) (next + 1) })
  | retried (name : R) (seq1 : UInt32) (copy : Entry W width) (next : Nat)
      (finished : width ≤ next) (moved : system.lock.seq ≠ seq1)
      (stands : (system.readers name).phase = .copying seq1 copy next) :
      Effect system (.retried name)
        (system.setReader name { system.readers name with phase := .spinning copy })
  | returned (name : R) (seq1 : UInt32) (copy : Entry W width) (next : Nat)
      (finished : width ≤ next) (unmoved : system.lock.seq = seq1)
      (stands : (system.readers name).phase = .copying seq1 copy next) :
      Effect system (.returned name (conclude seq1 (system.readers name).state).1 copy)
        (system.setReader name
          { phase := .idle, state := (conclude seq1 (system.readers name).state).2 })

/-- Everything a step of the crash extension can do. -/
inductive CrashEffect [DecidableEq R] (system : System R W width) :
    Event R W width → System R W width → Prop where
  | live (event : Event R W width) (next : System R W width) (effect : Effect system event next) :
      CrashEffect system event next
  | died (alive : system.writer ≠ .dead) : CrashEffect system .died { system with writer := .dead }
  | attached (gone : system.writer = .dead) :
      CrashEffect system .attached { system with writer := .idle }

section Inversion

variable [DecidableEq R] {system next : System R W width} {event : Event R W width}

/-- A writer's step has one of the writer's effects. -/
theorem advance_writer_effect (advanced : advance system .writer = some (event, next)) :
    Effect system event next := by
  cases stands : system.writer with
  | dead => simp [advance, advanceWriter, stands] at advanced
  | idle => simp [advance, advanceWriter, stands] at advanced
  | beginning entry =>
    have same : Event.loaded system.lock.seq = event ∧
        { system with writer := .raising entry (system.lock.seq + 1) } = next := by
      simpa [advance, advanceWriter, stands, seqLockWriteBegin] using advanced
    obtain ⟨rfl, rfl⟩ := same
    exact .loaded entry stands
  | raising entry seq1 =>
    have same : Event.raised = event ∧ { system with
        lock := { system.lock with seq := seq1 }, writer := .storing entry seq1 0 } = next := by
      simpa [advance, advanceWriter, stands] using advanced
    obtain ⟨rfl, rfl⟩ := same
    exact .raised entry seq1 stands
  | storing entry seq1 index =>
    by_cases inside : index < width
    · simp only [advance, advanceWriter, stands, inside, ↓reduceDIte, Option.bind_eq_bind,
        Option.bind_some, Option.pure_def, Option.some.injEq, Prod.mk.injEq] at advanced
      obtain ⟨rfl, rfl⟩ := advanced
      exact .stored entry seq1 index inside stands
    · simp only [advance, advanceWriter, stands, inside, ↓reduceDIte, Option.bind_eq_bind,
        Option.bind_some, Option.pure_def, Option.some.injEq, Prod.mk.injEq] at advanced
      obtain ⟨rfl, rfl⟩ := advanced
      exact .completed entry seq1 index (Nat.le_of_not_lt inside) stands

/-- A reader's step has one of the reader's effects. -/
theorem advance_reader_effect (name : R)
    (advanced : advance system (.reader name) = some (event, next)) :
    Effect system event next := by
  cases stands : (system.readers name).phase with
  | idle => simp [advance, advanceReader, stands] at advanced
  | spinning copy =>
    by_cases even : system.lock.seq &&& 1 = 0
    · simp only [advance, advanceReader, stands, seqLockReadBegin, even, ne_eq, not_true_eq_false,
        ↓reduceIte, Option.bind_eq_bind, Option.bind_some, Option.pure_def, Option.some.injEq,
        Prod.mk.injEq] at advanced
      obtain ⟨rfl, rfl⟩ := advanced
      exact .begun name copy stands even
    · simp only [advance, advanceReader, stands, seqLockReadBegin, even, ne_eq, not_false_eq_true,
        ↓reduceIte, Option.bind_eq_bind, Option.bind_some, Option.pure_def, Option.some.injEq,
        Prod.mk.injEq] at advanced
      obtain ⟨rfl, rfl⟩ := advanced
      exact .spun name copy stands even
  | copying seq1 copy index =>
    by_cases inside : index < width
    · simp only [advance, advanceReader, stands, inside, ↓reduceDIte, Option.bind_eq_bind,
        Option.bind_some, Option.pure_def, Option.some.injEq, Prod.mk.injEq] at advanced
      obtain ⟨rfl, rfl⟩ := advanced
      exact .copied name seq1 copy index inside stands
    · have finished : width ≤ index := Nat.le_of_not_lt inside
      by_cases unmoved : system.lock.seq = seq1
      · simp only [advance, advanceReader, stands, inside, seqLockReadRetry, unmoved, bne_self_eq_false,
          Bool.false_eq_true, ↓reduceDIte, ↓reduceIte, Option.bind_eq_bind, Option.bind_some,
          Option.pure_def, Option.some.injEq, Prod.mk.injEq] at advanced
        obtain ⟨rfl, rfl⟩ := advanced
        exact .returned name seq1 copy index finished unmoved stands
      · have moved : (system.lock.seq != seq1) = true := by simpa using unmoved
        simp only [advance, advanceReader, stands, inside, seqLockReadRetry, moved,
          ↓reduceDIte, ↓reduceIte, Option.bind_eq_bind, Option.bind_some,
          Option.pure_def, Option.some.injEq, Prod.mk.injEq] at advanced
        obtain ⟨rfl, rfl⟩ := advanced
        exact .retried name seq1 copy index finished unmoved stands

/-- Every live step has one of the listed effects. -/
theorem live_effect (taken : LiveStep system event next) : Effect system event next := by
  obtain ⟨action, advanced⟩ := taken
  cases action with
  | write entry =>
    cases ready : system.writer with
    | idle =>
      simp only [advance, ready, Option.some.injEq, Prod.mk.injEq] at advanced
      obtain ⟨rfl, rfl⟩ := advanced
      exact .called entry ready
    | _ => simp [advance, ready] at advanced
  | writer => exact advance_writer_effect advanced
  | read name copy =>
    cases ready : (system.readers name).phase with
    | idle =>
      simp only [advance, ready, Option.some.injEq, Prod.mk.injEq] at advanced
      obtain ⟨rfl, rfl⟩ := advanced
      exact .readCalled name copy ready
    | _ => simp [advance, ready] at advanced
  | reader name => exact advance_reader_effect name advanced

/-- Every step of the crash extension has one of the listed effects. -/
theorem crash_effect (taken : CrashStep system event next) : CrashEffect system event next := by
  obtain ⟨action, advanced⟩ := taken
  cases action with
  | live action => exact .live event next (live_effect ⟨action, advanced⟩)
  | die =>
    cases stands : system.writer with
    | dead => simp [advanceCrash, stands] at advanced
    | _ =>
      simp only [advanceCrash, stands, Option.some.injEq, Prod.mk.injEq] at advanced
      obtain ⟨rfl, rfl⟩ := advanced
      exact .died (by simp [stands])
  | attach =>
    cases stands : system.writer with
    | dead =>
      simp only [advanceCrash, stands, Option.some.injEq, Prod.mk.injEq] at advanced
      obtain ⟨rfl, rfl⟩ := advanced
      exact .attached stands
    | _ => simp [advanceCrash, stands] at advanced

/-- The crash extension allows every live step. -/
theorem live_crash (taken : LiveStep system event next) : CrashStep system event next := by
  obtain ⟨action, advanced⟩ := taken
  exact ⟨.live action, advanced⟩

end Inversion

end Tyndall.SeqLock
