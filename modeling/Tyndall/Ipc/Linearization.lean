import Tyndall.Foundation.Simulation
import Tyndall.Ipc.Delivery

/-!
# Concurrent calls are the sequential ones in some order

A topic at rest has its memory and what each reader remembers, and a call on it is
one application of the sequential `write` or `read`. Any interleaving of calls is
explained by a run of such a topic: a write takes effect when it completes, and a
read when it returns. Both points lie inside their calls, so calls that do not
overlap keep their order.

A read that returns reloaded the number its attempt began with. If too few writes
overlap the attempt for the number to wrap, none completed during it, so what it
copied is what the sequential `read` returns where it stands.
-/

namespace Tyndall.SeqLock

open Counter Runs

variable {R W : Type} {width : Nat}

/-- A topic between calls. -/
structure Resting (R W : Type) (width : Nat) where
  lock : Shared W width
  state : R → State

/-- A fresh topic, and readers that never read. -/
def Resting.initial [Zero W] : Resting R W width := { lock := created, state := fun _ => {} }

/-- A call on a topic at rest. -/
inductive Request (R W : Type) (width : Nat) where
  | write (entry : Entry W width)
  | read (reader : R)

/-- What a call did, as its caller sees it. -/
inductive Operation (R W : Type) (width : Nat) where
  | wrote (entry : Entry W width)
  | read (reader : R) (code : Code) (entry : Entry W width)

/-- One whole call by the sequential functions. -/
def Resting.perform [DecidableEq R] (topic : Resting R W width) :
    Request R W width → Option (Operation R W width × Resting R W width)
  | .write entry => some (.wrote entry, { topic with lock := write topic.lock entry })
  | .read name => do
      let (code, entry, state) ← read topic.lock (topic.state name)
      pure (.read name code entry,
        { topic with state := Function.update topic.state name state })

/-- The call that takes effect at an event. -/
def Event.operation : Event R W width → List (Operation R W width)
  | .completed entry => [.wrote entry]
  | .returned name code entry => [.read name code entry]
  | .called _ | .loaded _ | .raised | .stored _ | .died | .attached | .readCalled _ | .spun _
  | .begun _ | .copied _ _ | .retried _ => []

section Explanations

variable [Zero W]

/-- A topic at rest that explains a system: its memory is what the completed writes
leave, and its readers remember what they remember there. -/
structure Explains (log : Log R W width) (system : System R W width) (topic : Resting R W width) :
    Prop where
  lock : topic.lock = written log.writes
  state : ∀ name, topic.state name = (system.readers name).state

/-- The number and the entry of an explaining topic. -/
theorem Explains.memory {log : Log R W width} {system : System R W width}
    {topic : Resting R W width} (explains : Explains log system topic) :
    topic.lock.seq = doubled log.writes.length ∧
      topic.lock.entry = entryAfter log.writes log.writes.length := by
  rw [explains.lock]
  exact written_state log.writes

/-- A step that completes no call changes nothing that has to be explained. -/
theorem Explains.frame {log later : Log R W width} {system next : System R W width}
    {topic : Resting R W width} (explains : Explains log system topic)
    (writes : later.writes = log.writes)
    (states : ∀ name, (next.readers name).state = (system.readers name).state) :
    Explains later next topic :=
  ⟨by rw [writes]; exact explains.lock, fun name => by rw [states]; exact explains.state name⟩

/-- An attempt that few writes overlap began on the number of completed writes, so
it copied what they left. -/
theorem returned_current {log : Log R W width} {system : System R W width} {name : R}
    {seq1 : UInt32} {copy : Entry W width} {next : Nat}
    (writer : WriterConsistent log system) (timed : Timed log system)
    (consistent : ReaderConsistent log system name)
    (stands : (system.readers name).phase = .copying seq1 copy next) (finished : width ≤ next)
    (unmoved : system.lock.seq = seq1) (short : log.begun - log.endedAt name < 2 ^ 31) :
    seq1 = doubled log.writes.length ∧ copy = entryAfter log.writes log.writes.length := by
  obtain ⟨numbered, _⟩ := consistent seq1 copy next stands
  have even : system.lock.seq &&& 1 = 0 := by
    rw [unmoved, numbered]
    exact doubled_low_bit _
  have number : seq1 = doubled log.writes.length := by
    rw [← unmoved]
    exact (consistent_quiet writer even).1
  have ordered := timed.versioned name
  have counted := timed.counted
  have overlapped := timed.overlapped name
  have current : log.writes.length = log.version name :=
    (doubled_eq_near ordered (by omega)).mp (number.symm.trans numbered)
  refine ⟨number, ?_⟩
  rw [current]
  exact returned_whole writer timed consistent stands finished unmoved short

end Explanations

section Serial

variable [DecidableEq R]

/-- A sequential write. -/
theorem perform_write (topic : Resting R W width) (entry : Entry W width) :
    Run (Steps Resting.perform) topic [.wrote entry]
      { topic with lock := write topic.lock entry } :=
  .single ⟨.write entry, rfl⟩

/-- A sequential read of an even number returns. -/
theorem perform_read (topic : Resting R W width) (name : R) (even : topic.lock.seq &&& 1 = 0) :
    Run (Steps Resting.perform) topic
      [.read name (conclude topic.lock.seq (topic.state name)).1 topic.lock.entry]
      { topic with
        state := Function.update topic.state name
          (conclude topic.lock.seq (topic.state name)).2 } :=
  .single ⟨.read name, by simp [Resting.perform, read_even topic.lock _ even]⟩

/-- A read of an even number returns what the sequential functions conclude. -/
theorem perform_read_eq {topic next : Resting R W width} {name : R}
    {operation : Operation R W width} (even : topic.lock.seq &&& 1 = 0)
    (performed : topic.perform (.read name) = some (operation, next)) :
    operation = .read name (conclude topic.lock.seq (topic.state name)).1 topic.lock.entry ∧
      next = { topic with
        state := Function.update topic.state name
          (conclude topic.lock.seq (topic.state name)).2 } := by
  simp only [Resting.perform, read_even topic.lock _ even, Option.bind_eq_bind, Option.bind_some,
    Option.pure_def, Option.some.injEq, Prod.mk.injEq] at performed
  exact ⟨performed.1.symm, performed.2.symm⟩

/-- Replacing a reader by one with the same state leaves every state. -/
theorem setReader_states (system : System R W width) (name : R) (reader : Reader W width)
    (same : reader.state = (system.readers name).state) (other : R) :
    ((system.setReader name reader).readers other).state = (system.readers other).state := by
  by_cases here : other = name
  · rw [here, setReader_same, same]
  · rw [setReader_other _ _ _ _ here]

/-- What was recorded stays recorded. -/
theorem reads_earlier (events : List (Event R W width)) (event : Event R W width) :
    (history events).reads <+: (history (events ++ [event])).reads := by
  have newest : history (events ++ [event]) = observe (history events) event :=
    observed_snoc observe {} events event
  rw [newest]
  cases event with
  | returned name code entry => exact List.prefix_append _ _
  | _ => exact List.prefix_refl _

variable [Zero W]

/-- One step is matched by the calls that take effect at it. -/
theorem explained_step {log : Log R W width} {system next : System R W width}
    {event : Event R W width} {topic : Resting R W width} (consistent : Consistent log system)
    (explains : Explains log system topic) (effect : CrashEffect system event next)
    (short : ∀ read ∈ (observe log event).reads, read.overlap < 2 ^ 31) :
    ∃ later, Run (Steps Resting.perform) topic event.operation later ∧
      Explains (observe log event) next later := by
  cases effect with
  | died alive => exact ⟨topic, .refl, explains.frame rfl (fun _ => rfl)⟩
  | attached gone => exact ⟨topic, .refl, explains.frame rfl (fun _ => rfl)⟩
  | live _ _ effect =>
    cases effect with
    | called | loaded | raised | stored => exact ⟨topic, .refl, explains.frame rfl (fun _ => rfl)⟩
    | readCalled | spun | begun | copied | retried =>
      exact ⟨topic, .refl, explains.frame rfl (setReader_states system _ _ rfl)⟩
    | completed entry seq1 index finished stands =>
      refine ⟨_, perform_write topic entry, ?_, explains.state⟩
      simp only [observe, Log.record, written_snoc, explains.lock]
    | returned name seq1 copy index finished unmoved stands =>
      obtain ⟨number, entry⟩ := explains.memory
      obtain ⟨current, whole⟩ := returned_current consistent.writer consistent.timed
        (consistent.reader name) stands finished unmoved
        (short _ (List.mem_append_right _ (List.mem_singleton_self _)))
      have taken := perform_read topic name (by rw [number]; exact doubled_low_bit _)
      rw [number, entry, ← current, ← whole, explains.state name] at taken
      refine ⟨_, taken, explains.lock, ?_⟩
      intro other
      by_cases same : other = name
      · simp [same]
      · rw [setReader_other _ _ _ _ same]
        simpa [same] using explains.state other

/-- The completed calls of a run are a sequential run that explains where it ends. -/
theorem explained_run (events : List (Event R W width)) (final : System R W width)
    (run : EvenRun events final)
    (short : ∀ read ∈ (history events).reads, read.overlap < 2 ^ 31) :
    ∃ topic, Run (Steps Resting.perform) Resting.initial (projected Event.operation events) topic ∧
      Consistent (history events) final ∧ Explains (history events) final topic := by
  have fresh : Consistent (history []) (System.initial : System R W width) ∧
      Explains (history []) System.initial (Resting.initial : Resting R W width) :=
    ⟨consistent_initial, rfl, fun _ => rfl⟩
  refine run.simulated Event.operation
    (fun events => ∀ read ∈ (history events).reads, read.overlap < 2 ^ 31)
    (fun events event all read member => all read ((reads_earlier events event).subset member))
    (fun events system topic =>
      Consistent (history events) system ∧ Explains (history events) system topic)
    fresh ?_ short
  rintro events system event next topic few ⟨consistent, explains⟩ ⟨evenStart, taken⟩
  have effect := crash_effect taken
  rw [history, observed_snoc] at few ⊢
  obtain ⟨later, matching, after⟩ := explained_step consistent explains effect few
  exact ⟨later, matching, consistent_step consistent effect evenStart, after⟩

omit [DecidableEq R] in
/-- On an even number the memory is that of the topic that explains the system. -/
theorem Explains.lock_quiet {log : Log R W width} {system : System R W width}
    {topic : Resting R W width} (explains : Explains log system topic)
    (consistent : Consistent log system) (even : system.lock.seq &&& 1 = 0) :
    topic.lock = system.lock := by
  obtain ⟨number, entry⟩ := consistent_quiet consistent.writer even
  obtain ⟨seq, whole⟩ := explains.memory
  cases memory : topic.lock with
  | mk seq' entry' =>
    cases last : system.lock with
    | mk seq'' entry'' =>
      simp_all

/-- Linearization. In every run in which writers may die and be replaced and no
write begins on an odd number, while every final attempt of a read overlaps fewer
than `2 ^ 31` writes, the completed writes and the returned reads are, in the order
of their completions, a run of the sequential functions on a fresh topic. The
readers end in the states of that run, and on an even number so does the memory.

Proof: the topic that explains the system takes one step when a call completes and
none otherwise. A completed write is appended, and a returned read is answered by
the newest version, because none completed during its final attempt. -/
theorem linearizable (events : List (Event R W width)) (final : System R W width)
    (run : EvenRun events final)
    (short : ∀ read ∈ (history events).reads, read.overlap < 2 ^ 31) :
    ∃ topic, Run (Steps Resting.perform) Resting.initial (projected Event.operation events) topic ∧
      (∀ name, topic.state name = (final.readers name).state) ∧
      (final.lock.seq &&& 1 = 0 → topic.lock = final.lock) := by
  obtain ⟨topic, sequential, consistent, explains⟩ := explained_run events final run short
  exact ⟨topic, sequential, explains.state, explains.lock_quiet consistent⟩

end Serial

section Registers

variable [DecidableEq R]

/-- The entry that an operation wrote. -/
def Operation.entry : Operation R W width → Option (Entry W width)
  | .wrote entry => some entry
  | .read _ _ _ => none

variable [Zero W]

/-- The memory of a topic at rest is what the writes made on it leave. -/
theorem resting_written {operations : List (Operation R W width)} {topic : Resting R W width}
    (run : Run (Steps Resting.perform) Resting.initial operations topic) :
    topic.lock = written (operations.filterMap Operation.entry) := by
  induction run with
  | refl => rfl
  | snoc operations operation state next _ taken inductionHypothesis =>
    obtain ⟨request, performed⟩ := taken
    rw [List.filterMap_append]
    cases request with
    | write entry =>
      simp only [Resting.perform, Option.some.injEq, Prod.mk.injEq] at performed
      obtain ⟨rfl, rfl⟩ := performed
      rw [inductionHypothesis]
      exact (written_snoc _ entry).symm
    | read name =>
      simp only [Resting.perform, Option.bind_eq_bind, Option.bind_eq_some_iff, Option.pure_def,
        Option.some.injEq, Prod.exists, Prod.mk.injEq] at performed
      obtain ⟨code, entry, after, _, rfl, rfl⟩ := performed
      rw [List.filterMap_cons_none rfl, List.filterMap_nil, List.append_nil]
      exact inductionHypothesis

/-- A read of a topic at rest returns the newest entry, or zeros where there is none. -/
theorem resting_newest {before after : List (Operation R W width)} {name : R} {code : Code}
    {entry : Entry W width} {topic : Resting R W width}
    (run : Run (Steps Resting.perform) Resting.initial (before ++ .read name code entry :: after)
      topic) :
    entry = entryAfter (before.filterMap Operation.entry)
      (before.filterMap Operation.entry).length := by
  rw [← List.singleton_append, ← List.append_assoc] at run
  obtain ⟨middle, here, -⟩ := run.split
  obtain ⟨state, earlier, request, performed⟩ := here.last
  obtain ⟨number, newest⟩ := written_state (before.filterMap Operation.entry)
  rw [← resting_written earlier] at number newest
  cases request with
  | write => simp [Resting.perform] at performed
  | read reader =>
    obtain ⟨same, -⟩ := perform_read_eq (number ▸ doubled_low_bit _) performed
    rw [(Operation.read.inj same).2.2, newest]

/-- How many writes there were, and how many there were at each reader's last read. -/
structure Seen (R : Type) where
  writes : Nat := 0
  upTo : R → Nat := fun _ => 0

/-- Take note of an operation. -/
def Seen.note (seen : Seen R) : Operation R W width → Seen R
  | .wrote _ => { seen with writes := seen.writes + 1 }
  | .read name _ _ => { seen with upTo := Function.update seen.upTo name seen.writes }

/-- What was seen in the course of some operations. -/
abbrev seenIn (operations : List (Operation R W width)) : Seen R :=
  observed Seen.note {} operations

/-- A topic at rest knows what its readers have seen, while the number has not wrapped. -/
structure Knows (seen : Seen R) (topic : Resting R W width) : Prop where
  number : topic.lock.seq = doubled seen.writes
  past : ∀ name, seen.upTo name ≤ seen.writes
  states : seen.writes < 2 ^ 31 → ∀ name, topic.state name =
    { prevSeq := doubled (seen.upTo name), hasReadOnce := decide (0 < seen.upTo name) }

omit [DecidableEq R] [Zero W] in
/-- What a read of a known topic concludes. -/
theorem Knows.conclude {seen : Seen R} {topic : Resting R W width} (knows : Knows seen topic)
    (few : seen.writes < 2 ^ 31) (name : R) :
    SeqLock.conclude topic.lock.seq (topic.state name) =
      (if seen.upTo name < seen.writes then .success else if seen.writes = 0 then .enomsg else .eagain,
        { prevSeq := doubled seen.writes, hasReadOnce := decide (0 < seen.writes) }) := by
  have past := knows.past name
  have same := doubled_eq_near past (by omega)
  have zero := doubled_eq_zero_iff seen.writes
  rw [knows.states few name, knows.number, SeqLock.conclude]
  by_cases news : seen.upTo name < seen.writes
  · have moved : doubled seen.writes ≠ doubled (seen.upTo name) := mt same.mp (by omega)
    have some_written : 0 < seen.writes := by omega
    simp only [moved, ne_eq, not_false_eq_true, if_true, news]
    simp only [some_written, decide_true]
    split
    · rfl
    · next received =>
      have nonzero : ¬ seen.upTo name = 0 := by simpa using received
      simpa using Nat.pos_of_ne_zero nonzero
  · have equal : seen.upTo name = seen.writes := by omega
    by_cases nothing : seen.writes = 0
    · simp [equal, nothing]
    · have positive : 0 < seen.writes := by omega
      have nonzero : doubled seen.writes ≠ 0 := mt zero.mp (by omega)
      simp [equal, nothing, positive, nonzero]

omit [Zero W] in
/-- One operation is noted and known. -/
theorem knows_step {seen : Seen R} {topic next : Resting R W width}
    {operation : Operation R W width} (knows : Knows seen topic)
    (taken : Steps Resting.perform topic operation next) : Knows (seen.note operation) next := by
  obtain ⟨request, performed⟩ := taken
  cases request with
  | write entry =>
    simp only [Resting.perform, Option.some.injEq, Prod.mk.injEq] at performed
    obtain ⟨rfl, rfl⟩ := performed
    refine ⟨?_, fun name => Nat.le_succ_of_le (knows.past name), ?_⟩
    · simp [write, seqLockWriteBegin, seqLockWriteEnd, knows.number, Seen.note]
    · intro few name
      have fewer : seen.writes + 1 < 2 ^ 31 := few
      exact knows.states (by omega) name
  | read name =>
    obtain ⟨rfl, rfl⟩ := perform_read_eq (knows.number ▸ doubled_low_bit _) performed
    refine ⟨knows.number, ?_, ?_⟩
    · intro other
      by_cases same : other = name
      · simp [Seen.note, same]
      · simpa [Seen.note, same] using knows.past other
    · intro few other
      by_cases same : other = name
      · simp [Seen.note, same, knows.conclude few]
      · simpa [Seen.note, same] using knows.states few other

/-- A read tells what has happened since the reader's previous read. -/
theorem resting_codes {before after : List (Operation R W width)} {name : R} {code : Code}
    {entry : Entry W width} {topic : Resting R W width}
    (run : Run (Steps Resting.perform) Resting.initial (before ++ .read name code entry :: after)
      topic) (few : (seenIn before).writes < 2 ^ 31) :
    code = if (seenIn before).upTo name < (seenIn before).writes then .success
      else if (seenIn before).writes = 0 then .enomsg else .eagain := by
  rw [← List.singleton_append, ← List.append_assoc] at run
  obtain ⟨middle, here, -⟩ := run.split
  obtain ⟨state, earlier, request, performed⟩ := here.last
  have fresh : Knows {} (Resting.initial : Resting R W width) :=
    ⟨rfl, fun _ => Nat.le_refl 0, fun _ _ => rfl⟩
  have knows : Knows (seenIn before) state := earlier.invariant Seen.note {} Knows fresh
    (fun _ _ _ _ knows taken => knows_step knows taken)
  cases request with
  | write => simp [Resting.perform] at performed
  | read reader =>
    obtain ⟨same, -⟩ := perform_read_eq (knows.number ▸ doubled_low_bit _) performed
    obtain ⟨rfl, rfl, -⟩ := Operation.read.inj same
    rw [knows.conclude few]

/-- The entry that a reader received by an operation. -/
def Operation.receivedBy (name : R) : Operation R W width → Option (Entry W width)
  | .wrote _ => none
  | .read other code entry => if other = name ∧ code = .success then some entry else none

/-- A reader of a topic at rest remembers the number of its last read, and has received
a subsequence of what had been written by then. While the number has not wrapped, the
last of it is the newest of that. -/
structure Receives (writes received : List (Entry W width)) (upTo : Nat)
    (topic : Resting R W width) (name : R) : Prop where
  lock : topic.lock = written writes
  remembered : (topic.state name).prevSeq = doubled upTo
  past : upTo ≤ writes.length
  delivered : received.Sublist (writes.take upTo)
  newest : writes.length < 2 ^ 31 → received.getLast? = (writes.take upTo).getLast?

omit [DecidableEq R] in
/-- A write is not received yet. -/
theorem Receives.wrote {writes received : List (Entry W width)} {upTo : Nat}
    {topic : Resting R W width} {name : R} (receives : Receives writes received upTo topic name)
    (entry : Entry W width) :
    Receives (writes ++ [entry]) received upTo { topic with lock := write topic.lock entry } name := by
  have earlier : (writes ++ [entry]).take upTo = writes.take upTo :=
    List.take_append_of_le_length receives.past
  constructor
  case lock => rw [receives.lock, written_snoc]
  case remembered => exact receives.remembered
  case past => exact Nat.le_trans receives.past (by simp)
  case delivered => rw [earlier]; exact receives.delivered
  case newest =>
    intro few
    rw [earlier]
    exact receives.newest (by rw [List.length_append] at few; omega)

omit [DecidableEq R] in
/-- Where something was written behind what a reader read, it is in the memory. -/
theorem Receives.behind {writes received : List (Entry W width)} {upTo : Nat}
    {topic : Resting R W width} {name : R} (receives : Receives writes received upTo topic name)
    (behind : upTo ≠ writes.length) :
    ∃ init, writes = init ++ [topic.lock.entry] ∧ received.Sublist init := by
  rcases List.eq_nil_or_concat' writes with rfl | ⟨init, last, rfl⟩
  · exact absurd (Nat.le_zero.mp receives.past) behind
  · have past := receives.past
    rw [List.length_append, List.length_singleton] at past behind
    refine ⟨init, ?_, ?_⟩
    · rw [receives.lock, written_snoc, write]
    · have delivered := receives.delivered
      rw [List.take_append_of_le_length (by omega)] at delivered
      exact delivered.trans (List.take_sublist _ _)

/-- A reader's own read gives it the newest entry, if it has not read that yet. -/
theorem Receives.own {writes received : List (Entry W width)} {upTo : Nat}
    {topic : Resting R W width} {name : R} (receives : Receives writes received upTo topic name) :
    Receives writes
      (if (conclude topic.lock.seq (topic.state name)).1 = .success then
        received ++ [topic.lock.entry] else received) writes.length
      { topic with
        state := Function.update topic.state name
          (conclude topic.lock.seq (topic.state name)).2 } name := by
  have number : topic.lock.seq = doubled writes.length := receives.lock ▸ (written_state writes).1
  have news : (conclude topic.lock.seq (topic.state name)).1 = .success ↔
      doubled writes.length ≠ doubled upTo := by
    rw [conclude_success_iff, receives.remembered, number]
  refine ⟨receives.lock, by simp [number], Nat.le_refl _, ?_, ?_⟩
  case refine_1 =>
    rw [List.take_length]
    split
    · next success =>
      obtain ⟨init, split, delivered⟩ :=
        receives.behind (fun equal => news.mp success (congrArg doubled equal.symm))
      rw [split]
      exact delivered.append (List.Sublist.refl _)
    · exact receives.delivered.trans (List.take_sublist _ _)
  case refine_2 =>
    intro few
    rw [List.take_length]
    split
    · next success =>
      obtain ⟨init, split, delivered⟩ :=
        receives.behind (fun equal => news.mp success (congrArg doubled equal.symm))
      rw [split, List.getLast?_concat, List.getLast?_concat]
    · next stale =>
      have equal : doubled writes.length = doubled upTo := by simpa using mt news.mpr stale
      have same : writes.length = upTo := (doubled_eq_near receives.past (by omega)).mp equal
      rw [receives.newest few, ← same, List.take_length]

/-- One operation, seen from a reader. -/
theorem receives_step {writes received : List (Entry W width)} {upTo : Nat}
    {topic next : Resting R W width} {name : R} {operation : Operation R W width}
    (receives : Receives writes received upTo topic name)
    (taken : Steps Resting.perform topic operation next) :
    ∃ later, Receives (writes ++ operation.entry.toList)
        (received ++ (operation.receivedBy name).toList) later next name ∧
      ∀ code entry, operation = .read name code entry → later = writes.length := by
  obtain ⟨request, performed⟩ := taken
  cases request with
  | write entry =>
    simp only [Resting.perform, Option.some.injEq, Prod.mk.injEq] at performed
    obtain ⟨rfl, rfl⟩ := performed
    refine ⟨upTo, ?_, fun _ _ same => (by cases same)⟩
    simpa [Operation.receivedBy, Operation.entry] using receives.wrote entry
  | read reader =>
    have number : topic.lock.seq = doubled writes.length := receives.lock ▸ (written_state writes).1
    obtain ⟨rfl, rfl⟩ := perform_read_eq (number ▸ doubled_low_bit _) performed
    by_cases here : reader = name
    · subst here
      refine ⟨writes.length, ?_, fun _ _ _ => rfl⟩
      have own := receives.own
      by_cases success : (conclude topic.lock.seq (topic.state reader)).1 = .success
      · simpa [Operation.receivedBy, Operation.entry, success] using own
      · simpa [Operation.receivedBy, Operation.entry, success] using own
    · refine ⟨upTo, ?_, fun code entry same => absurd (Operation.read.inj same).1 here⟩
      simp only [Operation.receivedBy, Operation.entry, here, false_and, if_false,
        Option.toList_none, List.append_nil]
      refine ⟨receives.lock, ?_, receives.past, receives.delivered, receives.newest⟩
      have same : Function.update topic.state reader
          (conclude topic.lock.seq (topic.state reader)).2 name = topic.state name :=
        Function.update_of_ne (Ne.symm here) _ _
      exact (congrArg State.prevSeq same).trans receives.remembered

omit [DecidableEq R] [Zero W] in
/-- What is picked from one operation. -/
theorem filterMap_singleton {Picked : Type} (pick : Operation R W width → Option Picked)
    (operation : Operation R W width) : [operation].filterMap pick = (pick operation).toList := by
  cases picked : pick operation <;> simp [picked]

/-- Over a whole run each reader receives a subsequence of the writes, and right after
its own read that includes the newest. -/
theorem resting_received {operations : List (Operation R W width)} {topic : Resting R W width}
    (run : Run (Steps Resting.perform) Resting.initial operations topic) (name : R) :
    ∃ upTo, Receives (operations.filterMap Operation.entry)
        (operations.filterMap (Operation.receivedBy name)) upTo topic name ∧
      ∀ before code entry, operations = before ++ [.read name code entry] →
        upTo = (operations.filterMap Operation.entry).length := by
  induction run with
  | refl =>
    refine ⟨0, ⟨rfl, rfl, Nat.le_refl 0, List.Sublist.refl _, fun _ => rfl⟩, ?_⟩
    intro before code entry same
    simp at same
  | snoc operations operation state next _ taken inductionHypothesis =>
    obtain ⟨upTo, receives, -⟩ := inductionHypothesis
    obtain ⟨later, after, read⟩ := receives_step receives taken
    refine ⟨later, ?_, ?_⟩
    · rw [List.filterMap_append, List.filterMap_append, filterMap_singleton, filterMap_singleton]
      exact after
    · intro before code entry same
      obtain ⟨rfl, last⟩ := List.append_inj' same rfl
      obtain rfl := List.singleton_inj.mp last
      rw [read code entry rfl, List.filterMap_append, List.filterMap_cons_none rfl,
        List.filterMap_nil, List.append_nil]

end Registers

/-- One reader returns while a write is being made, and the other's first attempt is
retried until the write is completed. -/
def racingReads : List (Action Bool Nat 2) :=
  [.read false ![0, 0], .reader false, .read true ![0, 0], .reader true, .reader true,
    .write ![7, 8], .writer, .reader true, .reader true, .writer, .writer, .reader false,
    .reader false, .writer, .reader false, .writer, .reader false, .reader false, .reader false,
    .reader false]

/-- The words of an operation, and whose read it was with which code. -/
def Operation.words : Operation Bool Nat 2 → Option (Bool × Code) × List Nat
  | .wrote entry => (none, List.ofFn entry)
  | .read name code entry => (some (name, code), List.ofFn entry)

/-- They are a read without a message, the write, and a read of it. -/
theorem linearizable_racing : ∃ (events : List (Event Bool Nat 2)) (final : System Bool Nat 2)
    (topic : Resting Bool Nat 2), Run LiveStep System.initial events final ∧
    (projected Event.operation events).map Operation.words =
      [(some (true, .enomsg), [0, 0]), (none, [7, 8]), (some (false, .success), [7, 8])] ∧
    Run (Steps Resting.perform) Resting.initial (projected Event.operation events) topic ∧
    (∀ name, topic.state name = (final.readers name).state) ∧
    (final.lock.seq &&& 1 = 0 → topic.lock = final.lock) := by
  have run := execute_run advance (System.initial : System Bool Nat 2) _ racingReads _ rfl
  obtain ⟨topic, explained⟩ := linearizable _ _ (live_run_even run).1 (by decide)
  exact ⟨_, _, topic, run, by decide, explained⟩

end Tyndall.SeqLock
