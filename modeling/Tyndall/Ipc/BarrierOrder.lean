import Tyndall.Foundation.Simulation
import Tyndall.Ipc.BarrierReads
import Tyndall.Ipc.SeqLockSteps

/-!
# Program order is one of the orders

Every interleaving of the atomic steps of `Tyndall.Ipc.SeqLockSteps` is a run of the
machine whose accesses overtake each other, with one memory that all readers share:
each store arrives as soon as it is issued, and no load overtakes another. What is
proved of every run of that machine therefore says something about every
interleaving too.
-/

namespace Tyndall.SeqLock.Barriers

open Counter Runs Windows

variable {R W : Type} {width : Nat}

/-- The one memory of all readers, and all four barriers. -/
abbrev shared (R : Type) : Setting R Unit := { sees := fun _ => () }

/-- What an atomic step stands for. -/
def inOrder : SeqLock.Event R W width → List (Event R Unit W width)
  | .called entry => [.called entry]
  | .loaded _ => [.loaded]
  | .raised => [.issued, .arrived (), .issued]
  | .stored _ => [.issued, .arrived ()]
  | .completed entry => [.issued, .issued, .completed (), .wrote entry]
  | .died | .attached => []
  | .readCalled name => [.readCalled name]
  | .spun name => [.spun name]
  | .begun name => [.begun name]
  | .copied name index => if inside : index < width then [.copied name ⟨index, inside⟩] else []
  | .retried name => [.reloaded name, .retried name]
  | .returned name code entry => [.reloaded name, .returned name code entry]

/-- The stores left when the words below `next` have been stored. -/
def storesFrom (entry : Entry W width) (seq1 : UInt32) (next : Nat) :
    List (Item (Store W width)) :=
  accesses (((List.finRange width).drop next).map fun index => .word index (entry index)) ++
    .barrier :: [.access (.seq (seqLockWriteEnd seq1))]

/-- Where a writer stands in both machines, by the number in memory. -/
inductive WriterMatches : UInt32 → SeqLock.Writer W width → Writer W width → Prop where
  | idle (count : Nat) : WriterMatches (doubled count) .idle .idle
  | beginning (count : Nat) (entry : Entry W width) :
      WriterMatches (doubled count) (.beginning entry) (.beginning entry)
  | raising (count : Nat) (entry : Entry W width) :
      WriterMatches (doubled count) (.raising entry (doubled count + 1))
        (.issuing entry (stores {} (doubled count + 1) entry))
  | storing (count : Nat) (entry : Entry W width) (next : Nat) :
      WriterMatches (doubled count + 1) (.storing entry (doubled count + 1) next)
        (.issuing entry (storesFrom entry (doubled count + 1) next))

/-- Where a reader stands in both machines. -/
inductive PhaseMatches : SeqLock.Phase W width → Phase W width → Prop where
  | idle : PhaseMatches .idle .idle
  | spinning (copy : Entry W width) (window : List (Item (Load width))) (seq1 seq2 : UInt32)
      (left : settled window = loads {}) :
      PhaseMatches (.spinning copy) (.loading window seq1 seq2 copy)
  | copying (seq1 seq2 : UInt32) (copy : Entry W width) (next : Nat)
      (window : List (Item (Load width)))
      (left : settled window = settled (copyRest ((List.finRange width).drop next))) :
      PhaseMatches (.copying seq1 copy next) (.loading window seq1 seq2 copy)

/-- Both machines in the same situation: whatever was issued has arrived. -/
structure Matches (system : SeqLock.System R W width) (other : System R Unit W width) : Prop where
  own : other.own = system.lock
  shown : other.views () = system.lock
  arrived : settled (other.pending ()) = []
  writer : WriterMatches system.lock.seq system.writer other.writer
  states : ∀ name, (other.readers name).state = (system.readers name).state
  phases : ∀ name, PhaseMatches (system.readers name).phase (other.readers name).phase

/-- A fresh topic in both. -/
theorem matches_initial [Zero W] :
    Matches (SeqLock.System.initial : SeqLock.System R W width) System.initial :=
  ⟨rfl, rfl, rfl, .idle 0, fun _ => rfl, fun _ => .idle⟩

/-- The next word in order. -/
theorem drop_finRange {next : Nat} (inside : next < width) :
    (List.finRange width).drop next = ⟨next, inside⟩ :: (List.finRange width).drop (next + 1) := by
  rw [List.drop_eq_getElem_cons (by simpa using inside)]
  simp

variable [DecidableEq R]

section Writer

variable {other : System R Unit W width} {lock : Shared W width} {entry : Entry W width}
  {todo : List (Item (Store W width))}

/-- The writer issues a barrier, which has nothing to keep back. -/
theorem issues_barrier (stands : other.writer = .issuing entry (.barrier :: todo))
    (arrived : settled (other.pending ()) = []) :
    ∃ next, Run (Step (shared R)) other [.issued] next ∧ next.own = other.own ∧
      next.views = other.views ∧ settled (next.pending ()) = [] ∧
      next.writer = .issuing entry todo ∧ next.readers = other.readers := by
  have issued : Step (shared R) other .issued
      { other.issue [.barrier] with writer := .issuing entry todo } :=
    ⟨.writer, by simp only [advance, advanceWriter, stands]⟩
  refine ⟨_, .single issued, rfl, rfl, ?_, rfl, rfl⟩
  simp [System.issue, settled_append (other.pending ()), arrived]

/-- The writer issues a store, and it arrives at once. -/
theorem issues_store {store : Store W width}
    (stands : other.writer = .issuing entry (.access store :: todo))
    (own : other.own = lock) (shown : other.views () = lock)
    (arrived : settled (other.pending ()) = []) :
    ∃ next, Run (Step (shared R)) other
        [.issued, if store.completes then .completed () else .arrived ()] next ∧
      next.own = store.apply lock ∧ next.views () = store.apply lock ∧
      settled (next.pending ()) = [] ∧ next.writer = .issuing entry todo ∧
      next.readers = other.readers := by
  have issued : Step (shared R) other .issued
      { other.issue [.access store] with writer := .issuing entry todo } :=
    ⟨.writer, by simp only [advance, advanceWriter, stands]⟩
  have taken : perform Store.place (other.pending () ++ [.access store]) 0 = some (store, []) := by
    have alone : settled (other.pending () ++ [.access store]) = [.access store] := by
      rw [settled_append, arrived]
      rfl
    rw [perform, alone]
    rfl
  have arrives : Step (shared R)
      { other.issue [.access store] with writer := .issuing entry todo }
      (if store.completes then .completed () else .arrived ())
      ({ other.issue [.access store] with writer := .issuing entry todo }.arrive () store []) :=
    ⟨.arrive () 0, by simp [advance, System.issue, taken]⟩
  refine ⟨_, (Run.single issued).append (.single arrives), ?_, ?_, ?_, rfl, rfl⟩
  · simp [System.arrive, System.issue, own]
  · simp [System.issue, shown]
  · simp

end Writer

/-- A reader of both machines moves, and nothing else does. -/
theorem Matches.reader {system : SeqLock.System R W width} {other : System R Unit W width}
    (alike : Matches system other) (name : R) {reader : SeqLock.Reader W width}
    {replaced : Reader W width} (state : replaced.state = reader.state)
    (phase : PhaseMatches reader.phase replaced.phase) :
    Matches (system.setReader name reader) (other.setReader name replaced) := by
  refine ⟨alike.own, alike.shown, alike.arrived, alike.writer, ?_, ?_⟩
  · intro tested
    by_cases same : tested = name
    · subst same
      simpa using state
    · simpa [SeqLock.System.setReader, System.setReader, same] using alike.states tested
  · intro tested
    by_cases same : tested = name
    · subst same
      simpa using phase
    · simpa [SeqLock.System.setReader, System.setReader, same] using alike.phases tested

/-- A step that moves a reader from one point in `read` to another. -/
theorem Matches.moved {system : SeqLock.System R W width} {other : System R Unit W width}
    (alike : Matches system other) (name : R) {phase : SeqLock.Phase W width}
    {reached : Phase W width} (matched : PhaseMatches phase reached) :
    Matches (system.setReader name { system.readers name with phase := phase })
      (other.setPhase name reached) :=
  alike.reader name (alike.states name) matched

omit [DecidableEq R] in
/-- A reader that spins has loaded nothing. -/
theorem Matches.spinning {system : SeqLock.System R W width} {other : System R Unit W width}
    (alike : Matches system other) {name : R} {copy : Entry W width}
    (stands : (system.readers name).phase = .spinning copy) :
    ∃ window seq1 seq2, (other.readers name).phase = .loading window seq1 seq2 copy ∧
      settled window = settled (loads {}) := by
  have phase := alike.phases name
  rw [stands] at phase
  generalize (other.readers name).phase = there at phase
  cases phase with
  | spinning _ window seq1 seq2 left => exact ⟨window, seq1, seq2, rfl, left⟩

omit [DecidableEq R] in
/-- A reader that copies has the words left that it has not copied. -/
theorem Matches.copying {system : SeqLock.System R W width} {other : System R Unit W width}
    (alike : Matches system other) {name : R} {seq1 : UInt32} {copy : Entry W width} {next : Nat}
    (stands : (system.readers name).phase = .copying seq1 copy next) :
    ∃ window seq2, (other.readers name).phase = .loading window seq1 seq2 copy ∧
      settled window = settled (copyRest ((List.finRange width).drop next)) := by
  have phase := alike.phases name
  rw [stands] at phase
  generalize (other.readers name).phase = there at phase
  cases phase with
  | copying _ seq2 _ _ window left => exact ⟨window, seq2, rfl, left⟩

/-- The reload of an attempt that has copied every word. -/
theorem reloads_last {system : SeqLock.System R W width} {other : System R Unit W width}
    (alike : Matches system other) {name : R} {seq1 : UInt32} {copy : Entry W width}
    {next : Nat} (finished : width ≤ next)
    (stands : (system.readers name).phase = .copying seq1 copy next) :
    Step (shared R) other (.reloaded name)
      (other.setPhase name (.loading [] seq1 system.lock.seq copy)) := by
  obtain ⟨window, seq2, there, left⟩ := alike.copying stands
  have taken : perform Load.place window 0 = some (.second, []) := by
    rw [perform_settled left, List.drop_eq_nil_of_le (by simpa using finished)]
    rfl
  have reloaded := step_happened (shared R) there taken
  simpa only [Load.happen, alike.shown] using reloaded

omit [DecidableEq R] in
/-- Steps of the writer leave both machines in the same situation. -/
theorem Matches.written {system : SeqLock.System R W width} {other after : System R Unit W width}
    (alike : Matches system other) {lock : Shared W width} {position : SeqLock.Writer W width}
    (own : after.own = lock) (shown : after.views () = lock)
    (arrived : settled (after.pending ()) = [])
    (stands : WriterMatches lock.seq position after.writer)
    (readers : after.readers = other.readers) :
    Matches { system with lock := lock, writer := position } after :=
  ⟨own, shown, arrived, stands, by rw [readers]; exact alike.states,
    by rw [readers]; exact alike.phases⟩

/-- Every atomic step is matched by steps in order. -/
theorem matched_step {system next : SeqLock.System R W width} {event : SeqLock.Event R W width}
    {other : System R Unit W width} (alike : Matches system other)
    (effect : SeqLock.Effect system event next) :
    ∃ after, Run (Step (shared R)) other (inOrder event) after ∧ Matches next after := by
  have position := alike.writer
  generalize number : system.lock.seq = seq at position
  generalize here : other.writer = there at position
  cases effect with
  | called entry ready =>
    rw [ready] at position
    cases position with
    | idle count =>
      have called : Step (shared R) other (.called entry)
          { other with writer := .beginning entry } := ⟨.write entry, by simp [advance, here]⟩
      exact ⟨_, .single called, alike.written alike.own alike.shown alike.arrived
        (by rw [number]; exact .beginning count entry) rfl⟩
  | loaded entry stands =>
    rw [stands] at position
    cases position with
    | beginning count =>
      have loaded : Step (shared R) other .loaded { other with
          writer := .issuing entry (stores {} (seqLockWriteBegin other.own.seq) entry) } :=
        ⟨.writer, by simp only [advance, advanceWriter, here]⟩
      have counted : stores {} (seqLockWriteBegin other.own.seq) entry =
          stores {} (doubled count + 1) entry := by rw [alike.own, number]; rfl
      rw [counted] at loaded
      exact ⟨_, .single loaded, alike.written alike.own alike.shown alike.arrived
        (by rw [number]; exact .raising count entry) rfl⟩
  | raised entry seq1 stands =>
    rw [stands] at position
    cases position with
    | raising count =>
      obtain ⟨raised, issued, own, shown, arrived, rest, readers⟩ :=
        issues_store here alike.own alike.shown alike.arrived
      obtain ⟨after, barrier, own', views, arrived', rest', readers'⟩ :=
        issues_barrier rest arrived
      have odd : (Store.seq (doubled count + 1) : Store W width).completes = false := by
        simp [Store.completes]
      rw [odd] at issued
      refine ⟨after, issued.append barrier, alike.written (own'.trans own)
        (by rw [views, shown]; rfl) arrived' ?_ (readers'.trans readers)⟩
      rw [rest']
      exact .storing count entry 0
  | stored entry seq1 index inside stands =>
    rw [stands] at position
    cases position with
    | storing count =>
      rw [storesFrom, drop_finRange inside] at here
      obtain ⟨after, issued, own, shown, arrived, rest, readers⟩ :=
        issues_store here alike.own alike.shown alike.arrived
      refine ⟨after, issued, alike.written own shown arrived ?_ readers⟩
      rw [rest]
      show WriterMatches system.lock.seq _ _
      rw [number]
      exact .storing count entry (index + 1)
  | completed entry seq1 index finished stands =>
    rw [stands] at position
    cases position with
    | storing count =>
      rw [storesFrom, List.drop_eq_nil_of_le (by simpa using finished)] at here
      obtain ⟨first, barrier, own, views, arrived, todo, readers⟩ :=
        issues_barrier here alike.arrived
      obtain ⟨second, issued, own', shown, arrived', last, readers'⟩ :=
        issues_store todo (own.trans alike.own) (by rw [views]; exact alike.shown) arrived
      have even : (Store.seq (doubled count + 1 + 1) : Store W width).completes = true := by
        simp [Store.completes]
      rw [seqLockWriteEnd, even] at issued
      have wrote : Step (shared R) second (.wrote entry) { second with writer := .idle } :=
        ⟨.writer, by simp only [advance, advanceWriter, last]⟩
      refine ⟨_, (barrier.append issued).append (.single wrote), alike.written own' shown arrived'
        ?_ (readers'.trans readers)⟩
      show WriterMatches (doubled count + 1 + 1) _ _
      rw [doubled_succ]
      exact .idle (count + 1)
  | readCalled name copy ready =>
    have phase := alike.phases name
    rw [ready] at phase
    generalize here : (other.readers name).phase = there at phase
    cases phase
    exact ⟨_, .single (step_called (shared R) copy here),
      alike.moved name (.spinning copy _ 0 0 rfl)⟩
  | spun name copy stands odd =>
    obtain ⟨window, seq1, seq2, there, left⟩ := alike.spinning stands
    have taken : perform Load.place window 0 =
        some (.first, .barrier :: copyRest (List.finRange width)) := perform_settled left 0
    have spun := step_happened (shared R) there taken
    simp only [Load.happen, alike.shown, seqLockReadBegin, ne_eq, odd, not_false_eq_true,
      ↓reduceIte] at spun
    refine ⟨_, .single spun, alike.reader name (alike.states name) ?_⟩
    rw [stands]
    exact .spinning copy _ _ _ rfl
  | begun name copy stands even =>
    obtain ⟨window, seq1, seq2, there, left⟩ := alike.spinning stands
    have taken : perform Load.place window 0 =
        some (.first, .barrier :: copyRest (List.finRange width)) := perform_settled left 0
    have begun := step_happened (shared R) there taken
    simp only [Load.happen, alike.shown, seqLockReadBegin, ne_eq, even, not_true_eq_false,
      ↓reduceIte] at begun
    exact ⟨_, .single begun, alike.moved name (.copying _ _ _ 0 _ rfl)⟩
  | copied name seq1 copy index inside stands =>
    obtain ⟨window, seq2, there, left⟩ := alike.copying stands
    have taken : perform Load.place window 0 =
        some (.word ⟨index, inside⟩, copyRest ((List.finRange width).drop (index + 1))) := by
      rw [perform_settled left, drop_finRange inside]
      rfl
    have copied := step_happened (shared R) there taken
    simp only [Load.happen, alike.shown] at copied
    refine ⟨_, ?_, alike.moved name (.copying _ seq2 _ (index + 1) _ rfl)⟩
    simpa only [inOrder, inside, ↓reduceDIte] using Run.single copied
  | retried name seq1 copy index finished moved stands =>
    have reloaded := reloads_last alike finished stands
    have retried := step_retried (shared R) (setPhase_phase other name
      (.loading [] seq1 system.lock.seq copy)) rfl moved
    rw [setPhase_setPhase] at retried
    exact ⟨_, (Run.single reloaded).append (.single retried),
      alike.moved name (.spinning copy _ _ _ rfl)⟩
  | returned name seq1 copy index finished unmoved stands =>
    have reloaded := reloads_last alike finished stands
    rw [unmoved] at reloaded
    have returned := step_returned (shared R) (setPhase_phase other name
      (.loading [] seq1 seq1 copy)) rfl
    rw [setPhase_state, setPhase_setReader, alike.states name] at returned
    exact ⟨_, (Run.single reloaded).append (.single returned), alike.reader name rfl .idle⟩

/-- Every interleaving of atomic steps is a run of the machine whose accesses overtake
each other, of the same calls with the same results. -/
theorem interleavings_in_order [Zero W] (events : List (SeqLock.Event R W width))
    (final : SeqLock.System R W width) (run : Run LiveStep SeqLock.System.initial events final) :
    ∃ after, Run (Step (shared R)) System.initial (projected inOrder events) after ∧
      after.views () = final.lock ∧
      ∀ name, (after.readers name).state = (final.readers name).state := by
  obtain ⟨after, reached, alike⟩ := run.projects inOrder Matches matches_initial
    (fun _ _ _ _ alike taken => matched_step alike (SeqLock.live_effect taken))
  exact ⟨after, reached, alike.shown, alike.states⟩

/-- A write, and a read whose first attempt overlaps it. -/
def overlappedRead : List (SeqLock.Action Bool Nat 2) :=
  [.read true ![0, 0], .reader true, .write ![7, 8], .writer, .writer, .reader true, .writer,
    .reader true, .writer, .reader true, .writer, .reader true, .reader true, .reader true,
    .reader true]

/-- In program order it retries and returns what was written. -/
theorem interleavings_in_order_overlapped :
    ∃ (events : List (SeqLock.Event Bool Nat 2)) (final : SeqLock.System Bool Nat 2)
      (after : System Bool Unit Nat 2), Run LiveStep SeqLock.System.initial events final ∧
      Run (Step (shared Bool)) System.initial (projected inOrder events) after ∧
      (history (fun _ => ()) (projected inOrder events)).reads.map Read.words =
        [(true, .success, [7, 8])] ∧
      after.views () = final.lock ∧
      ∀ name, (after.readers name).state = (final.readers name).state := by
  have run := execute_run SeqLock.advance (SeqLock.System.initial : SeqLock.System Bool Nat 2) _
    overlappedRead _ rfl
  obtain ⟨after, reached, same⟩ := interleavings_in_order _ _ run
  exact ⟨_, _, after, run, reached, by decide, same⟩

end Tyndall.SeqLock.Barriers
