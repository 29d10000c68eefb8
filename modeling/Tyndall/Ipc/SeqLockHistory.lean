import Tyndall.Ipc.SeqLockSteps

/-!
# What a run of the sequence lock has done

An observer counts writes and records reads from the events of a run alone. A
completed read is recorded with its version, the number of writes that had
completed when its final attempt loaded the even sequence number; with its
overlap, the number of writes in progress at any time between that load and the
reload; and with the times of its call and return.

`WriterConsistent` ties the shared memory to the completed writes and
`ReaderConsistent` ties a partial copy to the version it started from. One step
preserves both, so they hold throughout every run. The only obligation on a run
is that a write begins on an even number; with a writer that never dies this is
a consequence, and the crash extension has to assume it.
-/

namespace Tyndall.SeqLock

open Counter Runs

variable {R W : Type} {width : Nat}

/-- A completed read, as the observer records it. -/
structure Read (R W : Type) (width : Nat) where
  reader : R
  code : Code
  entry : Entry W width
  version : Nat
  overlap : Nat
  called : Nat
  returned : Nat

/-- The observer's record. A write is counted as begun at its call and as ended
when it completes or its writer dies. -/
structure Log (R W : Type) (width : Nat) where
  clock : Nat := 0
  begun : Nat := 0
  ended : Nat := 0
  writes : List (Entry W width) := []
  deaths : Nat := 0
  sinceDeath : Nat := 0
  calledAt : R → Nat := fun _ => 0
  version : R → Nat := fun _ => 0
  endedAt : R → Nat := fun _ => 0
  reads : List (Read R W width) := []

/-- The part of the record an event changes, its time apart. -/
def Log.record [DecidableEq R] (log : Log R W width) : Event R W width → Log R W width
  | .called _ => { log with begun := log.begun + 1 }
  | .completed entry =>
      { log with
        ended := log.ended + 1
        writes := log.writes ++ [entry]
        sinceDeath := log.sinceDeath + 1 }
  | .died => { log with ended := log.begun, deaths := log.deaths + 1, sinceDeath := 0 }
  | .readCalled name => { log with calledAt := Function.update log.calledAt name log.clock }
  | .begun name =>
      { log with
        version := Function.update log.version name log.writes.length
        endedAt := Function.update log.endedAt name log.ended }
  | .returned name code entry =>
      { log with
        reads := log.reads ++
          [{ reader := name, code := code, entry := entry, version := log.version name,
             overlap := log.begun - log.endedAt name, called := log.calledAt name,
             returned := log.clock }] }
  | .loaded _ | .raised | .stored _ | .attached | .spun _ | .copied _ _ | .retried _ => log

/-- Record an event and let time pass. -/
def observe [DecidableEq R] (log : Log R W width) (event : Event R W width) : Log R W width :=
  { log.record event with clock := log.clock + 1 }

/-- The record of a whole run. -/
abbrev history [DecidableEq R] (events : List (Event R W width)) : Log R W width :=
  observed observe {} events

/-- Whether a writer is inside `write`. -/
def Writer.inside : Writer W width → Bool
  | .dead | .idle => false
  | .beginning _ | .raising _ _ | .storing _ _ _ => true

section Consistency

variable [Zero W]

/-- No store is pending: the number counts the completed writes and the entry is
the last of them. -/
def Quiet (log : Log R W width) (lock : Shared W width) : Prop :=
  lock.seq = doubled log.writes.length ∧ lock.entry = entryAfter log.writes log.writes.length

/-- A write has made the number odd and has not completed. -/
def Halfway (log : Log R W width) (lock : Shared W width) : Prop :=
  lock.seq = doubled log.writes.length + 1

/-- A writer died halfway and nobody has completed a write since. -/
def Wedged (log : Log R W width) (lock : Shared W width) : Prop :=
  Halfway log lock ∧ 0 < log.deaths ∧ log.sinceDeath = 0

/-- The shared memory agrees with the completed writes and the writer's position. -/
def WriterConsistent (log : Log R W width) (system : System R W width) : Prop :=
  match system.writer with
  | .raising _ seq1 => Quiet log system.lock ∧ seq1 = doubled log.writes.length + 1
  | .storing entry seq1 next =>
      Halfway log system.lock ∧ seq1 = doubled log.writes.length + 1 ∧
        ∀ index : Fin width, index.val < next → system.lock.entry index = entry index
  | .dead | .idle | .beginning _ => Quiet log system.lock ∨ Wedged log system.lock

/-- While no write has completed or started storing since the reader's load, the
copied words are words of the version it loaded. -/
def ReaderConsistent (log : Log R W width) (system : System R W width) (name : R) : Prop :=
  ∀ seq1 copy next, (system.readers name).phase = .copying seq1 copy next →
    seq1 = doubled (log.version name) ∧
      (log.writes.length = log.version name → system.lock.seq = seq1 →
        ∀ index : Fin width, index.val < next →
          copy index = entryAfter log.writes (log.version name) index)

/-- A write never starts from an odd number. -/
def EvenStart (system : System R W width) : Event R W width → Prop
  | .loaded _ => system.lock.seq &&& 1 = 0
  | _ => True

/-- An even number rules out that a dead writer left the memory halfway. -/
theorem quiet_of_even {log : Log R W width} {lock : Shared W width}
    (either : Quiet log lock ∨ Wedged log lock) (even : lock.seq &&& 1 = 0) : Quiet log lock := by
  rcases either with quiet | wedged
  · exact quiet
  · rw [wedged.1, halfway_low_bit] at even
    exact absurd even (by decide)

/-- In a consistent state an even number means that no store is pending. -/
theorem consistent_quiet {log : Log R W width} {system : System R W width}
    (consistent : WriterConsistent log system) (even : system.lock.seq &&& 1 = 0) :
    Quiet log system.lock := by
  cases stands : system.writer with
  | raising entry seq1 =>
    simp only [WriterConsistent, stands] at consistent
    exact consistent.1
  | storing entry seq1 next =>
    simp only [WriterConsistent, stands] at consistent
    have odd : system.lock.seq = doubled log.writes.length + 1 := consistent.1
    rw [odd, halfway_low_bit] at even
    exact absurd even (by decide)
  | dead | idle | beginning =>
    simp only [WriterConsistent, stands] at consistent
    exact quiet_of_even consistent even

/-- Consistency speaks of the memory, the writer and the writes only. -/
theorem WriterConsistent.frame {log later : Log R W width} {system next : System R W width}
    (consistent : WriterConsistent log system) (lock : next.lock = system.lock)
    (writer : next.writer = system.writer) (writes : later.writes = log.writes)
    (deaths : later.deaths = log.deaths) (since : later.sinceDeath = log.sinceDeath) :
    WriterConsistent later next := by
  simpa only [WriterConsistent, Quiet, Wedged, Halfway, lock, writer, writes, deaths, since]
    using consistent

variable [DecidableEq R]

/-- One live step that does not start a write from an odd number keeps the
shared memory consistent with the completed writes. -/
theorem writer_step {log : Log R W width} {system next : System R W width} {event : Event R W width}
    (consistent : WriterConsistent log system) (effect : Effect system event next)
    (evenStart : EvenStart system event) : WriterConsistent (observe log event) next := by
  cases effect with
  | called entry ready =>
    simp only [WriterConsistent, ready] at consistent
    exact consistent
  | loaded entry stands =>
    have quiet : Quiet log system.lock := consistent_quiet consistent evenStart
    exact ⟨quiet, by rw [quiet.1]; rfl⟩
  | raised entry seq1 stands =>
    simp only [WriterConsistent, stands] at consistent
    exact ⟨consistent.2, consistent.2, fun index below => absurd below (Nat.not_lt_zero _)⟩
  | stored entry seq1 index inside stands =>
    simp only [WriterConsistent, stands] at consistent
    obtain ⟨halfway, numbered, stored⟩ := consistent
    exact ⟨halfway, numbered, stored_next inside _ rfl stored⟩
  | completed entry seq1 index finished stands =>
    simp only [WriterConsistent, stands] at consistent
    obtain ⟨halfway, numbered, stored⟩ := consistent
    refine Or.inl ⟨?_, ?_⟩
    · simp [observe, Log.record, numbered]
    · simp only [observe, Log.record, List.length_append, List.length_singleton, entryAfter_last]
      funext tested
      exact stored tested (Nat.lt_of_lt_of_le tested.isLt finished)
  | readCalled | spun | begun | copied | retried | returned =>
    exact consistent.frame rfl rfl rfl rfl rfl

/-- A death leaves the memory as it is: quiet, or wedged when it interrupted the
stores. -/
theorem writer_died {log : Log R W width} {system : System R W width}
    (consistent : WriterConsistent log system) :
    WriterConsistent (observe log .died) { system with writer := .dead } := by
  cases stands : system.writer with
  | raising entry seq1 =>
    simp only [WriterConsistent, stands] at consistent
    exact Or.inl consistent.1
  | storing entry seq1 index =>
    simp only [WriterConsistent, stands] at consistent
    exact Or.inr ⟨consistent.1, Nat.succ_pos _, rfl⟩
  | dead | idle | beginning =>
    simp only [WriterConsistent, stands] at consistent
    rcases consistent with quiet | wedged
    · exact Or.inl quiet
    · exact Or.inr ⟨wedged.1, Nat.succ_pos _, rfl⟩

/-- A new writer finds the memory as the dead one left it. -/
theorem writer_attached {log : Log R W width} {system : System R W width}
    (consistent : WriterConsistent log system) (gone : system.writer = .dead) :
    WriterConsistent (observe log .attached) { system with writer := .idle } := by
  simp only [WriterConsistent, gone] at consistent
  exact consistent

end Consistency

/-- Counts and times: every begun write has ended or is in progress, and what was
noted for a reader is not later than now. -/
structure Timed (log : Log R W width) (system : System R W width) : Prop where
  counted : log.begun = log.ended + system.writer.inside.toNat
  versioned : ∀ name, log.version name ≤ log.writes.length
  overlapped : ∀ name, log.writes.length + log.endedAt name ≤ log.version name + log.ended
  called : ∀ name, log.calledAt name ≤ log.clock

/-- One live step preserves the counts and times. -/
theorem timed_step [DecidableEq R] {log : Log R W width} {system next : System R W width}
    {event : Event R W width} (timed : Timed log system) (effect : Effect system event next) :
    Timed (observe log event) next := by
  obtain ⟨counted, versioned, overlapped, called⟩ := timed
  have passed : ∀ name, log.calledAt name ≤ log.clock + 1 := fun name => Nat.le_succ_of_le (called name)
  cases effect with
  | called entry ready =>
    refine ⟨?_, versioned, overlapped, passed⟩
    simp [observe, Log.record, Writer.inside, counted, ready]
  | loaded entry stands | raised entry seq1 stands | stored entry seq1 index inside stands =>
    refine ⟨?_, versioned, overlapped, passed⟩
    simpa [observe, Log.record, Writer.inside, stands] using counted
  | completed entry seq1 index finished stands =>
    refine ⟨?_, ?_, ?_, passed⟩
    · simpa [observe, Log.record, Writer.inside, stands] using counted
    · intro name
      have bound := versioned name
      simp only [observe, Log.record, List.length_append, List.length_singleton]
      omega
    · intro name
      have bound := overlapped name
      simp only [observe, Log.record, List.length_append, List.length_singleton]
      omega
  | readCalled name copy ready =>
    refine ⟨counted, versioned, overlapped, ?_⟩
    intro other
    by_cases same : other = name
    · simp [observe, Log.record, same]
    · simpa [observe, Log.record, same] using passed other
  | begun name copy stands even =>
    refine ⟨counted, ?_, ?_, passed⟩
    · intro other
      by_cases same : other = name
      · simp [observe, Log.record, same]
      · simpa [observe, Log.record, same] using versioned other
    · intro other
      by_cases same : other = name
      · simp [observe, Log.record, same]
      · simpa [observe, Log.record, same] using overlapped other
  | spun | copied | retried | returned => exact ⟨counted, versioned, overlapped, passed⟩

/-- A death ends the write in progress, and an attachment begins none. -/
theorem timed_died [DecidableEq R] {log : Log R W width} {system : System R W width}
    (timed : Timed log system) : Timed (observe log .died) { system with writer := .dead } := by
  refine ⟨rfl, timed.versioned, ?_, fun name => Nat.le_succ_of_le (timed.called name)⟩
  intro name
  have bound := timed.overlapped name
  have counted := timed.counted
  simp only [observe, Log.record]
  omega

theorem timed_attached [DecidableEq R] {log : Log R W width} {system : System R W width}
    (timed : Timed log system) (gone : system.writer = .dead) :
    Timed (observe log .attached) { system with writer := .idle } := by
  refine ⟨?_, timed.versioned, timed.overlapped, fun name => Nat.le_succ_of_le (timed.called name)⟩
  simpa [observe, Log.record, Writer.inside, gone] using timed.counted

end Tyndall.SeqLock
