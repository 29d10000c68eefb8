import Tyndall.Foundation.Simulation
import Tyndall.Ipc.Snapshot

/-!
# Who waits for whom

Readers store nothing, so a run without some of its readers is a run that leaves
the same memory and gives the others the same entries. A writer inside `write` has
a fixed number of steps left, whatever readers do. A reader is held up by writers
only: each attempt that it has to repeat was overtaken by a store of the number
that no earlier attempt was repeated for.
-/

namespace Tyndall.SeqLock

open Counter Runs

variable {R W : Type} {width : Nat} [DecidableEq R]

/-- The reader that took a step. -/
def Event.actor : Event R W width → Option R
  | .readCalled name | .spun name | .begun name | .copied name _ | .retried name
  | .returned name _ _ => some name
  | .called _ | .loaded _ | .raised | .stored _ | .completed _ | .died | .attached => none

/-- The steps of the writers and of the readers that are kept. -/
def Event.keptBy (keep : R → Bool) (event : Event R W width) : List (Event R W width) :=
  match event.actor with
  | some name => if keep name then [event] else []
  | none => [event]

omit [DecidableEq R] in
/-- A step that is no reader's is kept. -/
theorem keptBy_none (keep : R → Bool) {event : Event R W width} (nobody : event.actor = none) :
    event.keptBy keep = [event] := by
  simp [Event.keptBy, nobody]

omit [DecidableEq R] in
/-- A reader's steps are kept with it. -/
theorem keptBy_some {keep : R → Bool} {event : Event R W width} {name : R}
    (actor : event.actor = some name) :
    event.keptBy keep = if keep name then [event] else [] := by
  simp [Event.keptBy, actor]

/-- Systems that differ only in readers that are not kept. -/
structure SameBut (keep : R → Bool) (system other : System R W width) : Prop where
  lock : other.lock = system.lock
  writer : other.writer = system.writer
  readers : ∀ name, keep name = true → other.readers name = system.readers name

omit [DecidableEq R] in
/-- A writer's step is nobody's read. -/
theorem advanceWriter_actor {lock after : Shared W width} {writer later : Writer W width}
    {event : Event R W width} (taken : advanceWriter lock writer = some (event, after, later)) :
    event.actor = none := by
  cases writer with
  | dead => simp [advanceWriter] at taken
  | idle => simp [advanceWriter] at taken
  | beginning entry | raising entry seq1 =>
    simp only [advanceWriter, Option.some.injEq, Prod.mk.injEq] at taken
    obtain ⟨rfl, -⟩ := taken
    rfl
  | storing entry seq1 next =>
    simp only [advanceWriter] at taken
    split at taken
    all_goals
      simp only [Option.some.injEq, Prod.mk.injEq] at taken
      obtain ⟨rfl, -⟩ := taken
      rfl

omit [DecidableEq R] in
/-- A reader's step is its own. -/
theorem advanceReader_actor {lock : Shared W width} {name : R} {reader later : Reader W width}
    {event : Event R W width} (taken : advanceReader lock name reader = some (event, later)) :
    event.actor = some name := by
  simp only [advanceReader] at taken
  split at taken
  · cases taken
  · split at taken
    all_goals
      simp only [Option.some.injEq, Prod.mk.injEq] at taken
      obtain ⟨rfl, -⟩ := taken
      rfl
  · split at taken
    · simp only [Option.some.injEq, Prod.mk.injEq] at taken
      obtain ⟨rfl, -⟩ := taken
      rfl
    · split at taken
      all_goals
        simp only [Option.some.injEq, Prod.mk.injEq] at taken
        obtain ⟨rfl, -⟩ := taken
        rfl

/-- A step of a reader that is not kept changes nothing for the others. -/
theorem SameBut.skip {keep : R → Bool} {system other : System R W width}
    (same : SameBut keep system other) {name : R} (gone : keep name = false)
    (reader : Reader W width) : SameBut keep (system.setReader name reader) other := by
  refine ⟨same.lock, same.writer, ?_⟩
  intro each kept
  have different : each ≠ name := by
    rintro rfl
    rw [gone] at kept
    cases kept
  rw [setReader_other _ _ _ _ different]
  exact same.readers each kept

/-- A step of a reader that is kept is taken by both. -/
theorem SameBut.both {keep : R → Bool} {system other : System R W width}
    (same : SameBut keep system other) (name : R) (reader : Reader W width) :
    SameBut keep (system.setReader name reader) (other.setReader name reader) := by
  refine ⟨same.lock, same.writer, ?_⟩
  intro each kept
  by_cases here : each = name
  · rw [here, setReader_same, setReader_same]
  · rw [setReader_other _ _ _ _ here, setReader_other _ _ _ _ here]
    exact same.readers each kept

/-- A step is taken by a system with fewer readers, or is a step of one it lacks. -/
theorem erased_step (keep : R → Bool) {system next other : System R W width}
    {event : Event R W width} (same : SameBut keep system other)
    (taken : CrashStep system event next) :
    ∃ later, Run CrashStep other (event.keptBy keep) later ∧ SameBut keep next later := by
  obtain ⟨action, advanced⟩ := taken
  cases action with
  | die =>
    simp only [advanceCrash] at advanced
    split at advanced
    · cases advanced
    · next alive =>
      simp only [Option.some.injEq, Prod.mk.injEq] at advanced
      obtain ⟨rfl, rfl⟩ := advanced
      refine ⟨{ other with writer := .dead }, .single ⟨.die, ?_⟩, same.lock, rfl, same.readers⟩
      simp only [advanceCrash, same.writer]
  | attach =>
    simp only [advanceCrash] at advanced
    split at advanced
    · next gone =>
      simp only [Option.some.injEq, Prod.mk.injEq] at advanced
      obtain ⟨rfl, rfl⟩ := advanced
      refine ⟨{ other with writer := .idle }, .single ⟨.attach, ?_⟩, same.lock, rfl, same.readers⟩
      simp only [advanceCrash, same.writer, gone]
    · cases advanced
  | live action =>
    cases action with
    | write entry =>
      simp only [advanceCrash, advance] at advanced
      split at advanced
      · next ready =>
        simp only [Option.some.injEq, Prod.mk.injEq] at advanced
        obtain ⟨rfl, rfl⟩ := advanced
        refine ⟨{ other with writer := .beginning entry }, .single ⟨.live (.write entry), ?_⟩,
          same.lock, rfl, same.readers⟩
        simp only [advanceCrash, advance, same.writer, ready]
      · cases advanced
    | writer =>
      simp only [advanceCrash, advance, Option.bind_eq_bind, Option.bind_eq_some_iff,
        Option.pure_def, Option.some.injEq, Prod.exists, Prod.mk.injEq] at advanced
      obtain ⟨event, lock, writer, stepped, rfl, rfl⟩ := advanced
      rw [keptBy_none keep (advanceWriter_actor stepped)]
      refine ⟨{ other with lock := lock, writer := writer }, .single ⟨.live .writer, ?_⟩,
        rfl, rfl, same.readers⟩
      simp [advanceCrash, advance, same.lock, same.writer, stepped]
    | read name copy =>
      simp only [advanceCrash, advance] at advanced
      split at advanced
      · next ready =>
        simp only [Option.some.injEq, Prod.mk.injEq] at advanced
        obtain ⟨rfl, rfl⟩ := advanced
        rw [keptBy_some (show (Event.readCalled name).actor = some name from rfl)]
        cases kept : keep name with
        | false => exact ⟨other, .refl, same.skip kept _⟩
        | true =>
          refine ⟨_, .single ⟨.live (.read name copy), ?_⟩, same.both name _⟩
          simp [advanceCrash, advance, same.readers name kept, ready]
      · cases advanced
    | reader name =>
      simp only [advanceCrash, advance, Option.bind_eq_bind, Option.bind_eq_some_iff,
        Option.pure_def, Option.some.injEq, Prod.exists, Prod.mk.injEq] at advanced
      obtain ⟨event, reader, stepped, rfl, rfl⟩ := advanced
      rw [keptBy_some (advanceReader_actor stepped)]
      cases kept : keep name with
      | false => exact ⟨other, .refl, same.skip kept _⟩
      | true =>
        refine ⟨_, .single ⟨.live (.reader name), ?_⟩, same.both name reader⟩
        simp [advanceCrash, advance, same.lock, same.readers name kept, stepped]

/-- Readers do not disturb. Without the steps of any of its readers, a run with deaths
and attachments of writers is still a run: it leaves the same memory, the same writer
and the other readers as they were, with everything that these were given.

Proof: only the memory, the writer and the acting reader decide a step. -/
theorem readers_erased (keep : R → Bool) (events : List (Event R W width))
    (start final : System R W width) (run : Run CrashStep start events final) :
    ∃ last, Run CrashStep start (projected (Event.keptBy keep) events) last ∧
      last.lock = final.lock ∧ last.writer = final.writer ∧
      ∀ name, keep name = true → last.readers name = final.readers name := by
  obtain ⟨last, erased, same⟩ := run.projects (Event.keptBy keep)
    (fun system other => SameBut keep system other) ⟨rfl, rfl, fun _ _ => rfl⟩
    (fun _ _ _ _ same taken => erased_step keep same taken)
  exact ⟨last, erased, same.lock, same.writer, same.readers⟩

/-- A read begins, a write is made, another reader reads it, and the first read's
attempt goes on. -/
def overtakenRead : List (Action Bool Nat 2) :=
  [.read false ![0, 0], .reader false, .write ![7, 8], .writer, .writer, .writer, .writer, .writer,
    .read true ![0, 0], .reader true, .reader true, .reader true, .reader true, .reader false,
    .reader false]

/-- The other reader's read is the same without the first one's. -/
theorem readers_erased_overtaken : ∃ (events : List (Event Bool Nat 2))
    (final : System Bool Nat 2), Run CrashStep System.initial events final ∧
    events.filterMap Event.actor = [false, false, true, true, true, true, true, false, false] ∧
    (projected (Event.keptBy id) events).filterMap Event.actor = [true, true, true, true, true] ∧
    ∃ last, Run CrashStep System.initial (projected (Event.keptBy id) events) last ∧
      last.lock = final.lock ∧ last.writer = final.writer ∧
      ∀ name, id name = true → last.readers name = final.readers name := by
  have run := execute_run advance (System.initial : System Bool Nat 2) _ overtakenRead _ rfl
  have crashRun := run.mono (fun _ _ _ taken => live_crash taken)
  exact ⟨_, _, crashRun, rfl, rfl, readers_erased id _ _ _ crashRun⟩

/-- The steps a writer has left inside `write`. -/
def Writer.remaining : Writer W width → Nat
  | .dead | .idle => 0
  | .beginning _ => width + 3
  | .raising _ _ => width + 2
  | .storing _ _ next => width - next + 1

/-- A step that the writer takes inside `write`. -/
def Event.byWriter : Event R W width → Bool
  | .loaded _ | .raised | .stored _ | .completed _ => true
  | .called _ | .died | .attached | .readCalled _ | .spun _ | .begun _ | .copied _ _ | .retried _
  | .returned _ _ _ => false

/-- One step takes one from what a writer inside `write` has left, or is not its own. -/
theorem remaining_step {system next : System R W width} {event : Event R W width}
    (effect : Effect system event next) (inside : system.writer.inside = true)
    (unfinished : ∀ entry, event ≠ .completed entry) :
    next.writer.inside = true ∧
      event.byWriter.toNat + next.writer.remaining = system.writer.remaining := by
  cases effect with
  | called entry ready =>
    rw [ready] at inside
    cases inside
  | loaded entry stands =>
    simp [Writer.inside, Writer.remaining, Event.byWriter, stands]
    omega
  | raised entry seq1 stands =>
    simp [Writer.inside, Writer.remaining, Event.byWriter, stands]
    omega
  | stored entry seq1 index more stands =>
    simp [Writer.inside, Writer.remaining, Event.byWriter, stands]
    omega
  | completed entry seq1 index finished stands => exact absurd rfl (unfinished entry)
  | readCalled | spun | begun | copied | retried | returned => simpa [Event.byWriter] using inside

/-- A writer inside `write` can always take its next step. -/
theorem writer_enabled (system : System R W width) (inside : system.writer.inside = true) :
    (advance system .writer).isSome = true := by
  cases stands : system.writer with
  | dead | idle =>
    rw [stands] at inside
    cases inside
  | beginning entry | raising entry seq1 => simp [advance, advanceWriter, stands]
  | storing entry seq1 index =>
    by_cases more : index < width
    · simp [advance, advanceWriter, stands, more]
    · simp [advance, advanceWriter, stands, more]

/-- A write is wait-free. From inside `write`, in any interleaving with readers, the
writer can always take its next step, and as long as it has not completed it has taken
exactly those steps that it has fewer left. There are never more than `width + 3`.

Proof: one step takes one from what is left, or is a reader's. -/
theorem write_wait_free (events : List (Event R W width)) (start final : System R W width)
    (run : Run LiveStep start events final) (inside : start.writer.inside = true)
    (unfinished : ∀ entry, .completed entry ∉ events) :
    (advance final .writer).isSome = true ∧
      events.countP Event.byWriter + final.writer.remaining = start.writer.remaining ∧
      start.writer.remaining ≤ width + 3 := by
  have counted : final.writer.inside = true ∧
      events.countP Event.byWriter + final.writer.remaining = start.writer.remaining := by
    induction run with
    | refl => exact ⟨inside, by simp⟩
    | snoc events event state next _ taken inductionHypothesis =>
      obtain ⟨within, count⟩ := inductionHypothesis
        (fun entry member => unfinished entry (List.mem_append_left _ member))
      obtain ⟨after, taken⟩ := remaining_step (live_effect taken) within
        (fun entry same => unfinished entry (by simp [same]))
      refine ⟨after, ?_⟩
      have newest : [event].countP Event.byWriter = event.byWriter.toNat := by
        cases counts : event.byWriter <;> simp [counts]
      rw [List.countP_append, newest]
      omega
  refine ⟨writer_enabled final counted.1, counted.2, ?_⟩
  cases start.writer with
  | dead | idle => exact Nat.zero_le _
  | beginning | raising => simp [Writer.remaining]
  | storing entry seq1 next =>
    simp only [Writer.remaining]
    omega

/-- Two steps into a write that a reader races with, its width and one step are left. -/
theorem write_wait_free_racing : ∃ (events : List (Event Unit Nat 2)) (start final : System Unit Nat 2),
    Run LiveStep start events final ∧ start.writer.remaining = 5 ∧ events.length = 5 ∧
    (advance final .writer).isSome = true ∧
    events.countP Event.byWriter + final.writer.remaining = start.writer.remaining ∧
    start.writer.remaining ≤ 2 + 3 := by
  have run := execute_run advance
    ({ System.initial with writer := .beginning ![7, 8] } : System Unit Nat 2) _
    [.read () ![0, 0], .writer, .reader (), .writer, .reader ()] _ rfl
  exact ⟨_, _, _, run, rfl, rfl, write_wait_free _ _ _ run rfl (by
    intro entry member
    simp at member)⟩

/-- What one reader's attempts and the writers' stores of the number add up to. -/
structure Tally where
  raised : Nat := 0
  begun : Nat := 0
  copied : Nat := 0
  retried : Nat := 0
  returned : Nat := 0

/-- Count an event. -/
def Tally.count (name : R) (tally : Tally) : Event R W width → Tally
  | .raised => { tally with raised := tally.raised + 1 }
  | .begun other =>
      if other = name then { tally with begun := tally.begun + 1 } else tally
  | .copied other _ =>
      if other = name then { tally with copied := tally.copied + 1 } else tally
  | .retried other =>
      if other = name then { tally with retried := tally.retried + 1 } else tally
  | .returned other _ _ =>
      if other = name then { tally with returned := tally.returned + 1 } else tally
  | .called _ | .loaded _ | .stored _ | .completed _ | .died | .attached | .readCalled _
  | .spun _ => tally

/-- The tally of a run. -/
abbrev tallyOf (name : R) (events : List (Event R W width)) : Tally :=
  observed (Tally.count name) {} events

/-- A tally agrees with where the reader stands. An attempt whose number has moved is
owed a retry, and a store of the number pays for it. -/
def Accounted (tally : Tally) (system : System R W width) (name : R) : Prop :=
  match (system.readers name).phase with
  | .idle | .spinning _ =>
      tally.begun = tally.returned + tally.retried ∧ tally.copied = width * tally.begun ∧
        tally.retried ≤ tally.raised
  | .copying seq1 _ next =>
      tally.begun = tally.returned + tally.retried + 1 ∧
        tally.copied + width = width * tally.begun + next ∧ next ≤ width ∧
        tally.retried ≤ tally.raised ∧
        (system.lock.seq ≠ seq1 → tally.retried + 1 ≤ tally.raised)

omit [DecidableEq R] in
/-- A step that is not counted and leaves the number and the reader's place. -/
theorem Accounted.frame {tally later : Tally} {system next : System R W width} {name : R}
    (accounted : Accounted tally system name) (same : later = tally)
    (phase : (next.readers name).phase = (system.readers name).phase)
    (seq : next.lock.seq = system.lock.seq) : Accounted later next name := by
  simpa only [Accounted, same, phase, seq] using accounted

/-- Another reader's step. -/
theorem Accounted.other {tally : Tally} {system : System R W width} {name other : R}
    (accounted : Accounted tally system name) (different : name ≠ other)
    (reader : Reader W width) : Accounted tally (system.setReader other reader) name :=
  accounted.frame rfl (by rw [setReader_other _ _ _ _ different]) rfl

/-- One step keeps the account. -/
theorem accounted_step [Zero W] {log : Log R W width} {tally : Tally}
    {system next : System R W width} {event : Event R W width} {name : R}
    (consistent : Consistent log system) (accounted : Accounted tally system name)
    (effect : CrashEffect system event next) :
    Accounted (tally.count name event) next name := by
  cases effect with
  | died alive => exact accounted.frame rfl rfl rfl
  | attached gone => exact accounted.frame rfl rfl rfl
  | live _ _ effect =>
    cases effect with
    | called | loaded | stored => exact accounted.frame rfl rfl rfl
    | raised entry seq1 stands =>
      cases phase : (system.readers name).phase with
      | idle | spinning =>
        simp only [Accounted, phase, Tally.count] at accounted ⊢
        omega
      | copying number copy index =>
        simp only [Accounted, phase, Tally.count] at accounted ⊢
        omega
    | completed entry seq1 index finished stands =>
      cases phase : (system.readers name).phase with
      | idle | spinning =>
        simp only [Accounted, phase, Tally.count] at accounted ⊢
        exact accounted
      | copying number copy index =>
        have moved : system.lock.seq ≠ number := by
          have halfway := consistent.writer
          simp only [WriterConsistent, stands] at halfway
          rw [halfway.1, (consistent.reader name number copy index phase).1]
          exact (doubled_ne_halfway _ _).symm
        simp only [Accounted, phase, Tally.count] at accounted ⊢
        obtain ⟨attempts, copies, inside, paid, owed⟩ := accounted
        exact ⟨attempts, copies, inside, paid, fun _ => owed moved⟩
    | readCalled other copy ready =>
      by_cases same : name = other
      · subst same
        simp only [Accounted, ready, Tally.count, setReader_same] at accounted ⊢
        exact accounted
      · exact accounted.other same _
    | spun other copy stands odd =>
      by_cases same : name = other
      · subst same
        simp only [Accounted, stands, Tally.count, setReader_same] at accounted ⊢
        exact accounted
      · exact accounted.other same _
    | begun other copy stands even =>
      by_cases same : name = other
      · subst same
        simp only [Accounted, stands, Tally.count, setReader_same, setReader_lock, if_true]
          at accounted ⊢
        obtain ⟨attempts, copies, paid⟩ := accounted
        refine ⟨by omega, by rw [copies, Nat.mul_succ]; omega, Nat.zero_le _, paid,
          fun moved => absurd rfl moved⟩
      · rw [Tally.count, if_neg (Ne.symm same)]
        exact accounted.other same _
    | copied other number copy index inside stands =>
      by_cases same : name = other
      · subst same
        simp only [Accounted, stands, Tally.count, setReader_same, setReader_lock, if_true]
          at accounted ⊢
        obtain ⟨attempts, copies, -, paid, owed⟩ := accounted
        exact ⟨attempts, by omega, inside, paid, owed⟩
      · rw [Tally.count, if_neg (Ne.symm same)]
        exact accounted.other same _
    | retried other number copy index finished moved stands =>
      by_cases same : name = other
      · subst same
        simp only [Accounted, stands, Tally.count, setReader_same, if_true] at accounted ⊢
        obtain ⟨attempts, copies, inside, -, owed⟩ := accounted
        exact ⟨by omega, by omega, owed moved⟩
      · rw [Tally.count, if_neg (Ne.symm same)]
        exact accounted.other same _
    | returned other number copy index finished unmoved stands =>
      by_cases same : name = other
      · subst same
        simp only [Accounted, stands, Tally.count, setReader_same, if_true] at accounted ⊢
        obtain ⟨attempts, copies, inside, paid, -⟩ := accounted
        exact ⟨by omega, by omega, paid⟩
      · rw [Tally.count, if_neg (Ne.symm same)]
        exact accounted.other same _

/-- Only writers hold a reader up. In every run in which no write begins on an odd
number, a reader has repeated no more attempts than writes have made the number odd,
has begun at most one attempt more than it has finished, and has copied each word of
the entry at most once for an attempt.

Proof: an attempt begins on an even number. When the number moves away from it, that
is a write's first store, and no earlier attempt was repeated for it. -/
theorem retries_bounded [Zero W] (events : List (Event R W width)) (final : System R W width)
    (run : EvenRun events final) (name : R) :
    (tallyOf name events).retried ≤ (tallyOf name events).raised ∧
      (tallyOf name events).begun ≤
        (tallyOf name events).returned + (tallyOf name events).retried + 1 ∧
      (tallyOf name events).copied ≤ width * (tallyOf name events).begun := by
  have accounted : Accounted (tallyOf name events) final name := by
    induction run with
    | refl => exact ⟨rfl, rfl, Nat.le_refl _⟩
    | snoc events event state next run taken inductionHypothesis =>
      rw [tallyOf, observed_snoc]
      exact accounted_step (even_run_consistent run) inductionHypothesis (crash_effect taken.2)
  cases phase : (final.readers name).phase with
  | idle | spinning =>
    simp only [Accounted, phase] at accounted
    exact ⟨by omega, by omega, by omega⟩
  | copying number copy index =>
    simp only [Accounted, phase] at accounted
    exact ⟨by omega, by omega, by omega⟩

/-- The retried read is repeated once, for one write. -/
theorem retries_bounded_once : ∃ (events : List (Event Unit Nat 2)) (final : System Unit Nat 2),
    Run LiveStep System.initial events final ∧ (tallyOf () events).retried = 1 ∧
    (tallyOf () events).retried ≤ (tallyOf () events).raised ∧
    (tallyOf () events).begun ≤
      (tallyOf () events).returned + (tallyOf () events).retried + 1 ∧
    (tallyOf () events).copied ≤ 2 * (tallyOf () events).begun := by
  have run := execute_run advance (System.initial : System Unit Nat 2) _ overlappedRead _ rfl
  exact ⟨_, _, run, rfl, retries_bounded _ _ (live_run_even run).1 ()⟩

end Tyndall.SeqLock
