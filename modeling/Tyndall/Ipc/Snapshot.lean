import Mathlib.Data.Fin.VecNotation
import Tyndall.Ipc.SeqLockHistory

/-!
# Reads hand back whole entries, and never go back in time

A read that returns reloaded the number its attempt started from. Consistency
bounds how that can happen: the number counts completed writes modulo `2 ^ 31`,
so unless that many writes overlapped the attempt, none completed and none was
storing, and every copied word belongs to the version the attempt loaded.

The invariants are proved for steps of the crash extension whose writes begin on
an even number. A writer that never dies always begins on one.
-/

namespace Tyndall.SeqLock

open Counter Runs

variable {R W : Type} {width : Nat}

section Copies

variable [Zero W]

/-- A reader untouched by a step keeps its copy consistent when the memory, the
writes and its own version stay. -/
theorem ReaderConsistent.frame {log later : Log R W width} {system next : System R W width}
    {name : R} (consistent : ReaderConsistent log system name) (lock : next.lock = system.lock)
    (reader : next.readers name = system.readers name) (writes : later.writes = log.writes)
    (version : later.version name = log.version name) : ReaderConsistent later next name := by
  simpa only [ReaderConsistent, lock, reader, writes, version] using consistent

/-- A reader that is not copying has no copy to keep consistent. -/
theorem reader_not_copying {log : Log R W width} {system : System R W width} {name : R}
    (elsewhere : ∀ seq1 copy next, (system.readers name).phase ≠ .copying seq1 copy next) :
    ReaderConsistent log system name := by
  intro seq1 copy next stands
  exact absurd stands (elsewhere seq1 copy next)

/-- Stores of a write in progress keep every copy consistent: the odd number
differs from the one a copy started from. -/
theorem reader_during_write {log later : Log R W width} {system next : System R W width} {name : R}
    (consistent : ReaderConsistent log system name) (odd : Halfway log next.lock)
    (reader : next.readers name = system.readers name)
    (version : later.version name = log.version name) : ReaderConsistent later next name := by
  intro seq1 copy index stands
  rw [reader] at stands
  obtain ⟨numbered, _⟩ := consistent seq1 copy index stands
  rw [version]
  refine ⟨numbered, ?_⟩
  intro _ same
  rw [odd, numbered] at same
  exact absurd same.symm (doubled_ne_halfway _ _)

/-- A completed write leaves older copies behind. -/
theorem reader_after_write {log later : Log R W width} {system next : System R W width} {name : R}
    (consistent : ReaderConsistent log system name) (behind : log.version name < later.writes.length)
    (reader : next.readers name = system.readers name)
    (version : later.version name = log.version name) : ReaderConsistent later next name := by
  intro seq1 copy index stands
  rw [reader] at stands
  obtain ⟨numbered, _⟩ := consistent seq1 copy index stands
  rw [version]
  refine ⟨numbered, ?_⟩
  intro current
  omega

/-- What a returning attempt hands back. Fewer than `2 ^ 31` overlapping writes
leave no room for the number to wrap, so no write completed during the attempt. -/
theorem returned_whole {log : Log R W width} {system : System R W width} {name : R}
    {seq1 : UInt32} {copy : Entry W width} {next : Nat}
    (writer : WriterConsistent log system) (timed : Timed log system)
    (consistent : ReaderConsistent log system name)
    (stands : (system.readers name).phase = .copying seq1 copy next) (finished : width ≤ next)
    (unmoved : system.lock.seq = seq1) (short : log.begun - log.endedAt name < 2 ^ 31) :
    copy = entryAfter log.writes (log.version name) := by
  obtain ⟨numbered, copied⟩ := consistent seq1 copy next stands
  have even : system.lock.seq &&& 1 = 0 := by
    rw [unmoved, numbered]
    exact doubled_low_bit _
  have collide : doubled log.writes.length = doubled (log.version name) := by
    rw [← (consistent_quiet writer even).1, unmoved, numbered]
  have current : log.writes.length = log.version name := by
    have ordered := timed.versioned name
    have counted := timed.counted
    have overlapped := timed.overlapped name
    exact (doubled_eq_near ordered (by omega)).mp collide
  funext index
  exact copied current unmoved index (Nat.lt_of_lt_of_le index.isLt finished)

end Copies

section Steps

variable [Zero W] [DecidableEq R]

/-- Copying one more word keeps a copy consistent: while the number is even and
unmoved the word in memory belongs to the version the copy started from. -/
theorem reader_copied {log : Log R W width} {system : System R W width} {name : R} {seq1 : UInt32}
    {copy : Entry W width} {next : Nat} (writer : WriterConsistent log system)
    (consistent : ReaderConsistent log system name) (inside : next < width)
    (stands : (system.readers name).phase = .copying seq1 copy next) :
    ReaderConsistent (observe log (.copied name next))
      (system.setReader name { system.readers name with
        phase := .copying seq1
          (Function.update copy ⟨next, inside⟩ (system.lock.entry ⟨next, inside⟩)) (next + 1) })
      name := by
  intro number held position at_
  simp only [setReader_same, Phase.copying.injEq] at at_
  obtain ⟨rfl, rfl, rfl⟩ := at_
  obtain ⟨numbered, copied⟩ := consistent seq1 copy next stands
  refine ⟨numbered, ?_⟩
  intro current unmoved
  have even : system.lock.seq &&& 1 = 0 := by
    rw [show system.lock.seq = seq1 from unmoved, numbered]
    exact doubled_low_bit _
  have inPlace : system.lock.entry = entryAfter log.writes (log.version name) := by
    rw [← (show log.writes.length = log.version name from current)]
    exact (consistent_quiet writer even).2
  exact stored_next inside _ (congrFun inPlace _) (copied current unmoved)

/-- One live step keeps every partial copy consistent. -/
theorem reader_step {log : Log R W width} {system next : System R W width} {event : Event R W width}
    (writer : WriterConsistent log system) (timed : Timed log system)
    (consistent : ∀ name, ReaderConsistent log system name) (effect : Effect system event next)
    (tested : R) : ReaderConsistent (observe log event) next tested := by
  have kept : ∀ {name : R} {reader : Reader W width} {later : Log R W width}, tested ≠ name →
      later.writes = log.writes → later.version tested = log.version tested →
      ReaderConsistent later (system.setReader name reader) tested :=
    fun other writes version =>
      (consistent tested).frame rfl (setReader_other _ _ _ _ other) writes version
  cases effect with
  | called | loaded => exact (consistent tested).frame rfl rfl rfl rfl
  | raised entry seq1 stands =>
    simp only [WriterConsistent, stands] at writer
    exact reader_during_write (consistent tested) writer.2 rfl rfl
  | stored entry seq1 index inside stands =>
    simp only [WriterConsistent, stands] at writer
    exact reader_during_write (consistent tested) writer.1 rfl rfl
  | completed entry seq1 index finished stands =>
    have behind : log.version tested < (observe log (.completed entry)).writes.length := by
      have bound := timed.versioned tested
      simp only [observe, Log.record, List.length_append, List.length_singleton]
      omega
    exact reader_after_write (consistent tested) behind rfl rfl
  | readCalled name copy ready =>
    by_cases same : tested = name
    · exact reader_not_copying (by simp [same])
    · exact kept same rfl rfl
  | spun name copy stands odd =>
    by_cases same : tested = name
    · exact reader_not_copying (by simp [same, stands])
    · exact kept same rfl rfl
  | begun name copy stands even =>
    by_cases same : tested = name
    · intro seq1 held index position
      simp only [same, setReader_same, Phase.copying.injEq] at position
      obtain ⟨rfl, rfl, rfl⟩ := position
      refine ⟨?_, fun _ _ index below => absurd below (Nat.not_lt_zero _)⟩
      simpa [observe, Log.record, same] using (consistent_quiet writer even).1
    · exact kept same rfl (by simp [observe, Log.record, same])
  | copied name seq1 copy index inside stands =>
    by_cases same : tested = name
    · subst same
      exact reader_copied writer (consistent tested) inside stands
    · exact kept same rfl rfl
  | retried name seq1 copy index finished moved stands =>
    by_cases same : tested = name
    · exact reader_not_copying (by simp [same])
    · exact kept same rfl rfl
  | returned name seq1 copy index finished unmoved stands =>
    by_cases same : tested = name
    · exact reader_not_copying (by simp [same])
    · exact kept same rfl rfl

/-- What is recorded of reads: each belongs to a version that exists, was called
and returned before now and, unless too many writes overlapped it, handed back
its version. -/
def Recorded (log : Log R W width) : Prop :=
  ∀ read ∈ log.reads, read.version ≤ log.writes.length ∧
    (read.called ≤ read.returned ∧ read.returned < log.clock) ∧
    (read.overlap < 2 ^ 31 → read.entry = entryAfter log.writes read.version)

/-- Reads that had returned before a call have no newer version than the copy
that call is making, or than the read it became. -/
structure Ordered (log : Log R W width) (system : System R W width) : Prop where
  pending : ∀ name seq1 copy next, (system.readers name).phase = .copying seq1 copy next →
    ∀ read ∈ log.reads, read.returned < log.calledAt name → read.version ≤ log.version name
  done : ∀ first ∈ log.reads, ∀ second ∈ log.reads,
    first.returned < second.called → first.version ≤ second.version

/-- Everything the observer's record says about a system. -/
structure Consistent (log : Log R W width) (system : System R W width) : Prop where
  writer : WriterConsistent log system
  timed : Timed log system
  reader : ∀ name, ReaderConsistent log system name
  recorded : Recorded log
  ordered : Ordered log system

omit [DecidableEq R] in
/-- Records stay right when nothing is returned. -/
theorem Recorded.extend {log later : Log R W width} (recorded : Recorded log)
    (reads : later.reads = log.reads) (clock : later.clock = log.clock + 1)
    (writes : later.writes = log.writes ∨ ∃ entry, later.writes = log.writes ++ [entry]) :
    Recorded later := by
  intro read member
  rw [reads] at member
  obtain ⟨versioned, past, whole⟩ := recorded read member
  rcases writes with same | ⟨entry, longer⟩
  · rw [same, clock]
    exact ⟨versioned, ⟨past.1, Nat.lt_succ_of_lt past.2⟩, whole⟩
  · rw [longer, clock]
    refine ⟨?_, ⟨past.1, Nat.lt_succ_of_lt past.2⟩, ?_⟩
    · simp only [List.length_append, List.length_singleton]
      omega
    · intro short
      rw [entryAfter_snoc _ _ _ versioned]
      exact whole short

/-- One live step keeps the records right. -/
theorem recorded_step {log : Log R W width} {system next : System R W width} {event : Event R W width}
    (consistent : Consistent log system) (effect : Effect system event next) :
    Recorded (observe log event) := by
  cases effect with
  | completed entry seq1 index finished stands =>
    exact consistent.recorded.extend rfl rfl (Or.inr ⟨entry, rfl⟩)
  | returned name seq1 copy index finished unmoved stands =>
    intro read member
    rcases List.mem_append.mp member with earlier | newest
    · obtain ⟨versioned, past, whole⟩ := consistent.recorded read earlier
      exact ⟨versioned, ⟨past.1, Nat.lt_succ_of_lt past.2⟩, whole⟩
    · obtain rfl := List.mem_singleton.mp newest
      refine ⟨consistent.timed.versioned name, ⟨consistent.timed.called name, Nat.lt_succ_self _⟩, ?_⟩
      exact returned_whole consistent.writer consistent.timed (consistent.reader name) stands
        finished unmoved
  | called | loaded | raised | stored | readCalled | spun | begun | copied | retried =>
    exact consistent.recorded.extend rfl rfl (Or.inl rfl)

omit [Zero W] [DecidableEq R] in
/-- A step that returns nothing keeps the order if every copy it leaves was
already being made for the same version and call. -/
theorem Ordered.extend {log later : Log R W width} {system next : System R W width}
    (ordered : Ordered log system) (reads : later.reads = log.reads)
    (copies : ∀ name seq1 copy index, (next.readers name).phase = .copying seq1 copy index →
      (∃ seq1 copy index, (system.readers name).phase = .copying seq1 copy index) ∧
        later.calledAt name = log.calledAt name ∧ later.version name = log.version name) :
    Ordered later next := by
  constructor
  · intro name seq1 copy index stands read member before
    obtain ⟨⟨_, _, _, position⟩, called, version⟩ := copies name seq1 copy index stands
    rw [reads] at member
    rw [called] at before
    rw [version]
    exact ordered.pending name _ _ _ position read member before
  · rw [reads]
    exact ordered.done

omit [Zero W] in
/-- A reader that is not copying after the step has no copy to keep in order. -/
theorem Ordered.not_copying {log later : Log R W width} {system : System R W width} {name : R}
    {reader : Reader W width} (ordered : Ordered log system) (reads : later.reads = log.reads)
    (elsewhere : ∀ seq1 copy next, reader.phase ≠ .copying seq1 copy next)
    (called : ∀ other, other ≠ name → later.calledAt other = log.calledAt other)
    (version : later.version = log.version) : Ordered later (system.setReader name reader) := by
  refine ordered.extend reads ?_
  intro other seq1 copy index stands
  by_cases same : other = name
  · rw [same, setReader_same] at stands
    exact absurd stands (elsewhere seq1 copy index)
  · rw [setReader_other _ _ _ _ same] at stands
    exact ⟨⟨_, _, _, stands⟩, called other same, by rw [version]⟩

/-- One live step keeps reads in order. -/
theorem ordered_step {log : Log R W width} {system next : System R W width} {event : Event R W width}
    (consistent : Consistent log system) (effect : Effect system event next) :
    Ordered (observe log event) next := by
  have ordered := consistent.ordered
  cases effect with
  | called | loaded | raised | stored | completed =>
    exact ordered.extend rfl (fun _ _ _ _ stands => ⟨⟨_, _, _, stands⟩, rfl, rfl⟩)
  | readCalled name copy ready =>
    refine ordered.not_copying rfl (by simp) ?_ rfl
    intro other different
    simp [observe, Log.record, different]
  | spun name copy position odd =>
    exact ordered.not_copying rfl (by simp [position]) (fun _ _ => rfl) rfl
  | begun name copy position even =>
    refine ⟨?_, ordered.done⟩
    intro other seq1 held index stands read member before
    by_cases same : other = name
    · -- the version just loaded counts every completed write
      subst same
      simpa [observe, Log.record] using (consistent.recorded read member).1
    · rw [setReader_other _ _ _ _ same] at stands
      simpa [observe, Log.record, same] using
        ordered.pending other seq1 held index stands read member before
  | copied name number held index inside position =>
    refine ordered.extend rfl ?_
    intro other seq1 copy next stands
    by_cases same : other = name
    · exact ⟨⟨_, _, _, same ▸ position⟩, rfl, rfl⟩
    · rw [setReader_other _ _ _ _ same] at stands
      exact ⟨⟨_, _, _, stands⟩, rfl, rfl⟩
  | retried name number held index finished moved position =>
    exact ordered.not_copying rfl (by simp) (fun _ _ => rfl) rfl
  | returned name number held index finished unmoved position =>
    constructor
    · intro other seq1 copy next stands read member before
      by_cases same : other = name
      · simp [same] at stands
      · rw [setReader_other _ _ _ _ same] at stands
        rcases List.mem_append.mp member with earlier | newest
        · exact ordered.pending other seq1 copy next stands read earlier before
        · obtain rfl := List.mem_singleton.mp newest
          have called := consistent.timed.called other
          exact absurd (Nat.lt_of_lt_of_le before called) (Nat.lt_irrefl _)
    · intro first firstMember second secondMember before
      rcases List.mem_append.mp firstMember with firstEarlier | firstNewest
      · rcases List.mem_append.mp secondMember with secondEarlier | secondNewest
        · exact ordered.done first firstEarlier second secondEarlier before
        · obtain rfl := List.mem_singleton.mp secondNewest
          exact ordered.pending name _ _ _ position first firstEarlier before
      · obtain rfl := List.mem_singleton.mp firstNewest
        rcases List.mem_append.mp secondMember with secondEarlier | secondNewest
        · obtain ⟨_, ⟨called, past⟩, _⟩ := consistent.recorded second secondEarlier
          have before' : log.clock < second.called := before
          omega
        · obtain rfl := List.mem_singleton.mp secondNewest
          exact Nat.le_refl _

/-- One step of the crash extension that starts no write from an odd number
preserves everything. -/
theorem consistent_step {log : Log R W width} {system next : System R W width}
    {event : Event R W width} (consistent : Consistent log system)
    (effect : CrashEffect system event next) (evenStart : EvenStart system event) :
    Consistent (observe log event) next := by
  cases effect with
  | live _ _ effect =>
    exact ⟨writer_step consistent.writer effect evenStart, timed_step consistent.timed effect,
      reader_step consistent.writer consistent.timed consistent.reader effect,
      recorded_step consistent effect, ordered_step consistent effect⟩
  | died alive =>
    exact ⟨writer_died consistent.writer, timed_died consistent.timed,
      fun name => (consistent.reader name).frame rfl rfl rfl rfl,
      consistent.recorded.extend rfl rfl (Or.inl rfl),
      consistent.ordered.extend rfl (fun _ _ _ _ stands => ⟨⟨_, _, _, stands⟩, rfl, rfl⟩)⟩
  | attached gone =>
    exact ⟨writer_attached consistent.writer gone, timed_attached consistent.timed gone,
      fun name => (consistent.reader name).frame rfl rfl rfl rfl,
      consistent.recorded.extend rfl rfl (Or.inl rfl),
      consistent.ordered.extend rfl (fun _ _ _ _ stands => ⟨⟨_, _, _, stands⟩, rfl, rfl⟩)⟩

omit [DecidableEq R] in
/-- A fresh topic is consistent with the empty record. -/
theorem consistent_initial : Consistent ({} : Log R W width) (System.initial : System R W width) where
  writer := Or.inl ⟨rfl, rfl⟩
  timed := ⟨rfl, fun _ => Nat.le_refl 0, fun _ => Nat.le_refl 0, fun _ => Nat.le_refl 0⟩
  reader _ := reader_not_copying (by simp [System.initial])
  recorded := by intro read member; cases member
  ordered := by
    constructor
    · intro name seq1 copy next stands
      cases stands
    · intro first member
      cases member

/-- Runs of the crash extension in which no write starts from an odd number. -/
abbrev EvenRun (events : List (Event R W width)) (final : System R W width) : Prop :=
  Run (Guarded EvenStart CrashStep) System.initial events final

/-- The record is consistent with the state after every such run. -/
theorem even_run_consistent {events : List (Event R W width)} {final : System R W width}
    (run : EvenRun events final) : Consistent (history events) final :=
  run.invariant observe {} Consistent consistent_initial
    (fun _ _ _ _ consistent taken => consistent_step consistent (crash_effect taken.2) taken.1)

/-- A writer that never dies never starts a write from an odd number. -/
theorem live_run_even {events : List (Event R W width)} {final : System R W width}
    (run : Run LiveStep System.initial events final) :
    EvenRun events final ∧ (history events).deaths = 0 := by
  induction run with
  | refl => exact ⟨.refl, rfl⟩
  | snoc events event state next _ taken inductionHypothesis =>
    obtain ⟨evenRun, deathless⟩ := inductionHypothesis
    have writer : WriterConsistent (history events) state := (even_run_consistent evenRun).writer
    have evenStart : EvenStart state event := by
      cases live_effect taken with
      | loaded entry stands =>
        simp only [WriterConsistent, stands] at writer
        rcases writer with quiet | wedged
        · rw [EvenStart, quiet.1]
          exact doubled_low_bit _
        · have died : 0 < (history events).deaths := wedged.2.1
          omega
      | _ => exact trivial
    have survived : (observe (history events) event).deaths = 0 := by
      cases live_effect taken <;> exact deathless
    refine ⟨.snoc events event state next evenRun ⟨evenStart, live_crash taken⟩, ?_⟩
    rw [history, observed_snoc]
    exact survived

/-- Snapshot safety. In every interleaving of one writer and any readers, a read
whose final attempt overlaps fewer than `2 ^ 31` writes returns the whole entry in
place after the writes that had completed when that attempt loaded the number.
A read called after another returned belongs to no earlier version.

Proof: both parts are read off the consistency of the record, which one step
preserves; a live run satisfies its only obligation. -/
theorem snapshot_safety (events : List (Event R W width)) (final : System R W width)
    (run : Run LiveStep System.initial events final) :
    (∀ read ∈ (history events).reads, read.version ≤ (history events).writes.length ∧
      (read.overlap < 2 ^ 31 → read.entry = entryAfter (history events).writes read.version)) ∧
    ∀ first ∈ (history events).reads, ∀ second ∈ (history events).reads,
      first.returned < second.called → first.version ≤ second.version := by
  have consistent : Consistent (history events) final :=
    even_run_consistent (live_run_even run).1
  refine ⟨?_, consistent.ordered.done⟩
  intro read member
  obtain ⟨versioned, _, whole⟩ := consistent.recorded read member
  exact ⟨versioned, whole⟩

end Steps

/-- One write and one read. The read's first attempt overlaps the stores and is
retried; the second finds the write completed. -/
def overlappedRead : List (Action Unit Nat 2) :=
  [.write ![7, 8], .read () ![0, 0], .writer, .reader (), .writer, .writer, .reader (), .reader (),
    .writer, .reader (), .writer, .reader (), .reader (), .reader (), .reader ()]

/-- The retried read returns the whole entry of the write. -/
theorem snapshot_safety_retried : ∃ events final,
    Run LiveStep (System.initial : System Unit Nat 2) events final ∧
    (history events).reads.map (fun read => (read.version, read.entry 0, read.entry 1)) =
      [(1, 7, 8)] ∧
    (∀ read ∈ (history events).reads, read.version ≤ (history events).writes.length ∧
      (read.overlap < 2 ^ 31 → read.entry = entryAfter (history events).writes read.version)) ∧
    ∀ first ∈ (history events).reads, ∀ second ∈ (history events).reads,
      first.returned < second.called → first.version ≤ second.version := by
  have run := execute_run advance (System.initial : System Unit Nat 2) _ overlappedRead _ rfl
  exact ⟨_, _, run, by decide, snapshot_safety _ _ run⟩

end Tyndall.SeqLock
