import Tyndall.Ipc.SeqLockSteps

/-!
# The sequential functions are the atomic steps taken alone

A writer whose call is not interleaved with anything leaves the memory exactly as
`write` computes it, and a reader running alone on an even number returns exactly
what `read` computes. So the sequential functions may stand for whole calls
wherever calls do not overlap. From any point inside `read`, a reader that runs
alone on an even number returns after finitely many steps.
-/

namespace Tyndall.SeqLock

open Counter Runs

variable {R W : Type} {width : Nat}

/-- The events of one reader. -/
def Event.byReader (name : R) : Event R W width → Prop
  | .readCalled reader | .spun reader | .begun reader | .copied reader _ | .retried reader
  | .returned reader _ _ => reader = name
  | .called _ | .loaded _ | .raised | .stored _ | .completed _ | .died | .attached => False

variable [DecidableEq R]

/-- Steps in which only the named reader acts. -/
abbrev AloneStep (name : R) : System R W width → Event R W width → System R W width → Prop :=
  Guarded (fun _ event => event.byReader name) LiveStep

@[simp] theorem setReader_setReader (system : System R W width) (name : R)
    (first second : Reader W width) :
    (system.setReader name first).setReader name second = system.setReader name second := by
  simp [System.setReader]

/-- A reader's own step, as a step in which only it acts. -/
theorem alone_step (system : System R W width) (name : R) (event : Event R W width)
    (reader : Reader W width) (owned : event.byReader name)
    (advanced : advanceReader system.lock name (system.readers name) = some (event, reader)) :
    AloneStep name system event (system.setReader name reader) :=
  ⟨owned, .reader name, by simp [advance, advanced]⟩

/-- Copying alone runs to its end. Words copied from the memory as it is now stay
right, so a copy that matched below `next` ends as the whole entry. -/
theorem copy_alone (system : System R W width) (name : R) (seq1 : UInt32) (copy : Entry W width)
    (next : Nat) (stands : (system.readers name).phase = .copying seq1 copy next) :
    ∃ events final last, width ≤ last ∧
      Run (AloneStep name) system events (system.setReader name
        { system.readers name with phase := .copying seq1 final last }) ∧
      ((∀ index : Fin width, index.val < next → copy index = system.lock.entry index) →
        final = system.lock.entry) := by
  induction remaining : width - next generalizing system copy next with
  | zero =>
    have finished : width ≤ next := by omega
    refine ⟨[], copy, next, finished, ?_, ?_⟩
    · have unchanged : system.setReader name
          { system.readers name with phase := .copying seq1 copy next } = system := by
        rw [← stands]
        simp [System.setReader]
      rw [unchanged]
      exact .refl
    · intro matched
      funext index
      exact matched index (Nat.lt_of_lt_of_le index.isLt finished)
  | succ remaining inductionHypothesis =>
    have inside : next < width := by omega
    have advanced : advanceReader system.lock name (system.readers name) =
        some (.copied name next,
          { system.readers name with
            phase := .copying seq1
              (Function.update copy ⟨next, inside⟩ (system.lock.entry ⟨next, inside⟩))
              (next + 1) }) := by
      simp [advanceReader, stands, inside]
    have first := Run.single (alone_step system name (.copied name next) _ rfl advanced)
    obtain ⟨events, final, last, finished, run, whole⟩ :=
      inductionHypothesis
        (system.setReader name
          { system.readers name with
            phase := .copying seq1
              (Function.update copy ⟨next, inside⟩ (system.lock.entry ⟨next, inside⟩))
              (next + 1) })
        (Function.update copy ⟨next, inside⟩ (system.lock.entry ⟨next, inside⟩)) (next + 1)
        (by simp) (by omega)
    refine ⟨.copied name next :: events, final, last, finished, ?_, ?_⟩
    · simpa using first.append run
    · intro matched
      exact whole (stored_next inside _ rfl matched)

/-- A reader about to load an even number returns the whole entry. -/
theorem spinning_alone (system : System R W width) (name : R) (copy : Entry W width)
    (stands : (system.readers name).phase = .spinning copy) (even : system.lock.seq &&& 1 = 0) :
    ∃ events, Run (AloneStep name) system
      (events ++ [.returned name (conclude system.lock.seq (system.readers name).state).1
        system.lock.entry])
      (system.setReader name
        { phase := .idle, state := (conclude system.lock.seq (system.readers name).state).2 }) := by
  have advanced : advanceReader system.lock name (system.readers name) =
      some (.begun name, { system.readers name with phase := .copying system.lock.seq copy 0 }) := by
    simp [advanceReader, stands, seqLockReadBegin, even]
  have begun := Run.single (alone_step system name (.begun name) _ rfl advanced)
  obtain ⟨events, final, last, finished, copied, whole⟩ :=
    copy_alone (system.setReader name
      { system.readers name with phase := .copying system.lock.seq copy 0 })
      name system.lock.seq copy 0 (by simp)
  obtain rfl : final = system.lock.entry :=
    whole (fun index below => absurd below (Nat.not_lt_zero _))
  have concluded : advanceReader system.lock name
      { system.readers name with phase := .copying system.lock.seq system.lock.entry last } =
      some (.returned name (conclude system.lock.seq (system.readers name).state).1
        system.lock.entry,
        { phase := .idle, state := (conclude system.lock.seq (system.readers name).state).2 }) := by
    simp [advanceReader, Nat.not_lt.mpr finished, seqLockReadRetry]
  have returned := Run.single (alone_step
    (system.setReader name
      { system.readers name with phase := .copying system.lock.seq system.lock.entry last })
    name (.returned name _ _) _ rfl (by simpa using concluded))
  refine ⟨.begun name :: events, ?_⟩
  simpa using (begun.append copied).append (by simpa using returned)

/-- A whole call of `read` made alone returns what the sequential `read` returns
and keeps the state it computes. -/
theorem read_alone (system : System R W width) (name : R) (copy : Entry W width) (code : Code)
    (entry : Entry W width) (state : State) (ready : (system.readers name).phase = .idle)
    (sequential : read system.lock (system.readers name).state = some (code, entry, state)) :
    ∃ events, Run (AloneStep name) system (events ++ [.returned name code entry])
      (system.setReader name { phase := .idle, state := state }) := by
  have even : system.lock.seq &&& 1 = 0 := by
    by_cases odd : system.lock.seq &&& 1 = 0
    · exact odd
    · simp [read, seqLockReadBegin, odd] at sequential
  rw [read_even system.lock _ even] at sequential
  obtain ⟨rfl, rfl, rfl⟩ : (conclude system.lock.seq (system.readers name).state).1 = code ∧
      system.lock.entry = entry ∧
      (conclude system.lock.seq (system.readers name).state).2 = state := by
    simpa using sequential
  have called : Run (AloneStep name) system [.readCalled name]
      (system.setReader name { system.readers name with phase := .spinning copy }) :=
    .single ⟨rfl, .read name copy, by simp [advance, ready]⟩
  obtain ⟨events, run⟩ := spinning_alone
    (system.setReader name { system.readers name with phase := .spinning copy }) name copy
    (by simp) even
  refine ⟨.readCalled name :: events, ?_⟩
  simpa using called.append run

/-- Wherever a reader stands, it returns when it runs alone on an even number. An
attempt begun on another number is retried once. -/
theorem alone_returns (system : System R W width) (name : R) (even : system.lock.seq &&& 1 = 0) :
    ∃ events code entry final,
      Run (AloneStep name) system (events ++ [.returned name code entry]) final := by
  cases stands : (system.readers name).phase with
  | idle =>
    obtain ⟨events, run⟩ := read_alone system name system.lock.entry _ _ _ stands
      (read_even system.lock (system.readers name).state even)
    exact ⟨events, _, _, _, run⟩
  | spinning copy =>
    obtain ⟨events, run⟩ := spinning_alone system name copy stands even
    exact ⟨events, _, _, _, run⟩
  | copying seq1 copy next =>
    obtain ⟨events, final, last, finished, copied, _⟩ :=
      copy_alone system name seq1 copy next stands
    have outside : ¬ last < width := Nat.not_lt.mpr finished
    by_cases unmoved : system.lock.seq = seq1
    · have concluded : advanceReader system.lock name
          { system.readers name with phase := .copying seq1 final last } =
          some (.returned name (conclude seq1 (system.readers name).state).1 final,
            { phase := .idle, state := (conclude seq1 (system.readers name).state).2 }) := by
        simp [advanceReader, outside, seqLockReadRetry, unmoved]
      have returned := Run.single (alone_step
        (system.setReader name { system.readers name with phase := .copying seq1 final last })
        name (.returned name _ _) _ rfl (by simpa using concluded))
      exact ⟨events, _, _, _, copied.append returned⟩
    · have retry : advanceReader system.lock name
          { system.readers name with phase := .copying seq1 final last } =
          some (.retried name, { system.readers name with phase := .spinning final }) := by
        simp [advanceReader, outside, seqLockReadRetry, unmoved]
      have retried := Run.single (alone_step
        (system.setReader name { system.readers name with phase := .copying seq1 final last })
        name (.retried name) _ rfl (by simpa using retry))
      obtain ⟨later, run⟩ := spinning_alone
        (system.setReader name { system.readers name with phase := .spinning final })
        name final (by simp) even
      rw [setReader_setReader] at retried run
      have whole := (copied.append retried).append run
      rw [← List.append_assoc] at whole
      exact ⟨events ++ [.retried name] ++ later, _, _, _, whole⟩

/-- The stores of a write that runs alone fill in the entry word by word. -/
theorem store_alone (system : System R W width) (entry : Entry W width) (seq1 : UInt32) (next : Nat)
    (stands : system.writer = .storing entry seq1 next)
    (stored : ∀ index : Fin width, index.val < next → system.lock.entry index = entry index) :
    ∃ events, Run LiveStep system (events ++ [.completed entry])
      { system with lock := { seq := seqLockWriteEnd seq1, entry := entry }, writer := .idle } := by
  induction remaining : width - next generalizing system next with
  | zero =>
    have finished : ¬ next < width := by omega
    have inPlace : system.lock.entry = entry := by
      funext index
      exact stored index (by have inside := index.isLt; omega)
    refine ⟨[], .single ⟨.writer, ?_⟩⟩
    simp [advance, advanceWriter, stands, finished, inPlace]
  | succ remaining inductionHypothesis =>
    have inside : next < width := by omega
    have first : Run LiveStep system [.stored next] { system with
        lock := system.lock.store ⟨next, inside⟩ (entry ⟨next, inside⟩),
        writer := .storing entry seq1 (next + 1) } :=
      .single ⟨.writer, by simp [advance, advanceWriter, stands, inside]⟩
    obtain ⟨events, run⟩ := inductionHypothesis
      { system with lock := system.lock.store ⟨next, inside⟩ (entry ⟨next, inside⟩),
                    writer := .storing entry seq1 (next + 1) } (next + 1) rfl
      (stored_next inside _ rfl stored) (by omega)
    refine ⟨.stored next :: events, ?_⟩
    simpa using first.append run

/-- A whole call of `write` made alone leaves the memory as the sequential
`write` computes it. -/
theorem write_alone (system : System R W width) (entry : Entry W width)
    (ready : system.writer = .idle) :
    ∃ events, Run LiveStep system (events ++ [.completed entry])
      { system with lock := write system.lock entry } := by
  have called : Run LiveStep system [.called entry] { system with writer := .beginning entry } :=
    .single ⟨.write entry, by simp [advance, ready]⟩
  have loaded : Run LiveStep { system with writer := .beginning entry } [.loaded system.lock.seq]
      { system with writer := .raising entry (seqLockWriteBegin system.lock.seq) } :=
    .single ⟨.writer, by simp [advance, advanceWriter]⟩
  have raised : Run LiveStep
      { system with writer := .raising entry (seqLockWriteBegin system.lock.seq) } [.raised]
      { system with
        lock := { system.lock with seq := seqLockWriteBegin system.lock.seq },
        writer := .storing entry (seqLockWriteBegin system.lock.seq) 0 } :=
    .single ⟨.writer, by simp [advance, advanceWriter]⟩
  obtain ⟨events, stored⟩ := store_alone
    { system with
      lock := { system.lock with seq := seqLockWriteBegin system.lock.seq },
      writer := .storing entry (seqLockWriteBegin system.lock.seq) 0 }
    entry (seqLockWriteBegin system.lock.seq) 0 rfl
    (fun index below => absurd below (Nat.not_lt_zero _))
  refine ⟨[.called entry] ++ [.loaded system.lock.seq] ++ [.raised] ++ events, ?_⟩
  have run := ((called.append loaded).append raised).append stored
  have same : { system with lock := write system.lock entry } =
      { system with
        lock := { seq := seqLockWriteEnd (seqLockWriteBegin system.lock.seq), entry := entry },
        writer := .idle } := by
    rw [← ready]
    rfl
  rw [same]
  simpa using run

end Tyndall.SeqLock
