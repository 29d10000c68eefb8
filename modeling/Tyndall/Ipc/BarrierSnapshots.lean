import Tyndall.Ipc.Barriers

/-!
# With its four barriers, the sequence lock hands back whole entries

An observer counts the writes that are visible in each view and records what reads
hand back. Whatever the barriers are, no store is lost: once everything has arrived
a view shows what the sequential writes leave.

With all four barriers a view goes through the writes one after the other. It is
quiet after a number of writes, or it is in the middle of the next, and then its
number is odd. A copy that was made while the number did not move is the copy of a
quiet view.
-/

namespace Tyndall.SeqLock.Barriers

open Counter Runs Windows

variable {R V W : Type} {width : Nat}

/-- A completed read. Its version is the number of writes visible to the reader when
its last attempt loaded the number, and the previous one is that of the same
reader's read before. The overlap counts the writes that became visible until the
number was loaded again. -/
structure Read (R W : Type) (width : Nat) where
  reader : R
  code : Code
  entry : Entry W width
  version : Nat
  previous : Nat
  overlap : Nat

/-- The observer's record. -/
structure Log (R V W : Type) (width : Nat) where
  writes : List (Entry W width) := []
  visible : V → Nat := fun _ => 0
  version : R → Nat := fun _ => 0
  previous : R → Nat := fun _ => 0
  overlap : R → Nat := fun _ => 0
  reads : List (Read R W width) := []

/-- Record an event. -/
def observe [DecidableEq R] [DecidableEq V] (sees : R → V) (log : Log R V W width) :
    Event R V W width → Log R V W width
  | .called entry => { log with writes := log.writes ++ [entry] }
  | .completed view =>
      { log with visible := Function.update log.visible view (log.visible view + 1) }
  | .begun name =>
      { log with version := Function.update log.version name (log.visible (sees name)) }
  | .reloaded name =>
      { log with
        overlap := Function.update log.overlap name
          (log.visible (sees name) - log.version name) }
  | .returned name code entry =>
      { log with
        previous := Function.update log.previous name (log.version name)
        reads := log.reads ++
          [{ reader := name, code := code, entry := entry, version := log.version name,
             previous := log.previous name, overlap := log.overlap name }] }
  | .loaded | .issued | .wrote _ | .arrived _ | .readCalled _ | .spun _ | .copied _ _
  | .retried _ => log

/-- The record of a whole run. -/
abbrev history [DecidableEq R] [DecidableEq V] (sees : R → V)
    (events : List (Event R V W width)) : Log R V W width :=
  observed (observe sees) {} events

/-- The stores that have not arrived at a view, issued or not. -/
def System.outstanding (fences : Fences) (system : System R V W width) (view : V) :
    List (Item (Store W width)) :=
  system.pending view ++ system.writer.todo fences system.own

section Accounts

variable [Zero W]

/-- Where the stores that are to come lead, for the writer and in every view. -/
structure Accounted (fences : Fences) (log : Log R V W width) (system : System R V W width) :
    Prop where
  own : drained Store.apply system.own (system.writer.todo fences system.own) = written log.writes
  views : ∀ view, drained Store.apply (system.views view) (system.outstanding fences view) =
    written log.writes

/-- A fresh topic has no stores to come. -/
theorem accounted_initial (fences : Fences) :
    Accounted fences ({} : Log R V W width) System.initial := ⟨rfl, fun _ => rfl⟩

/-- An idle writer sees what the sequential writes leave. -/
theorem Accounted.idle {fences : Fences} {log : Log R V W width} {system : System R V W width}
    (accounted : Accounted fences log system) (ready : system.writer = .idle) :
    system.own = written log.writes := by
  have own := accounted.own
  rwa [ready] at own

/-- What a step leaves alone stays accounted for. -/
theorem Accounted.frame {fences : Fences} {log later : Log R V W width}
    {system next : System R V W width} (accounted : Accounted fences log system)
    (own : next.own = system.own)
    (todo : next.writer.todo fences next.own = system.writer.todo fences system.own)
    (views : next.views = system.views) (pending : next.pending = system.pending)
    (writes : later.writes = log.writes) : Accounted fences later next := by
  constructor
  · rw [todo, own, writes]
    exact accounted.own
  · intro view
    rw [System.outstanding, todo, views, pending, writes]
    exact accounted.views view

variable [DecidableEq R] [DecidableEq V] (setting : Setting R V)

omit [Zero W] in
/-- A load changes nothing that is written. -/
theorem observe_happened_writes (sees : R → V) (log : Log R V W width) (fences : Fences)
    (lock : Shared W width) (name : R) (left : List (Item (Load width))) (seq1 seq2 : UInt32)
    (copy : Entry W width) (load : Load width) :
    (observe sees log (load.happen fences lock name left seq1 seq2 copy).1).writes = log.writes := by
  cases load with
  | first =>
    simp only [Load.happen]
    split <;> rfl
  | word | second => rfl

/-- No step loses a store, whatever the barriers are. -/
theorem accounted_step {log : Log R V W width} {system next : System R V W width}
    {event : Event R V W width} (accounted : Accounted setting.fences log system)
    (effect : Effect setting system event next) :
    Accounted setting.fences (observe setting.sees log event) next := by
  cases effect with
  | called entry ready =>
    have own := accounted.idle ready
    have leads : drained Store.apply (written log.writes)
        (stores setting.fences (seqLockWriteBegin system.own.seq) entry) =
          written (log.writes ++ [entry]) := by
      rw [own, drained_stores, written_snoc]
    constructor
    · simpa only [observe, Writer.todo, own] using leads
    · intro view
      have view := accounted.views view
      simp only [System.outstanding, ready, Writer.todo, List.append_nil] at view
      simpa only [observe, System.outstanding, Writer.todo, drained_append, view] using leads
  | loaded entry stands =>
    refine accounted.frame rfl ?_ rfl rfl rfl
    rw [stands]
    rfl
  | issued entry item todo stands =>
    have own := accounted.own
    rw [stands] at own
    constructor
    · simpa only [observe, System.issue, Writer.todo, ← drained_append, List.cons_append,
        List.nil_append] using own
    · intro view
      have view := accounted.views view
      rw [System.outstanding, stands] at view
      simpa [observe, System.outstanding, System.issue, Writer.todo] using view
  | wrote entry stands =>
    refine accounted.frame rfl ?_ rfl rfl rfl
    rw [stands]
    rfl
  | arrived view before store left taken =>
    have writes : (observe setting.sees log
        (if store.completes then .completed view else .arrived view)).writes = log.writes := by
      split <;> rfl
    constructor
    · rw [writes]
      exact accounted.own
    · intro other
      rw [writes]
      have here := accounted.views other
      by_cases same : other = view
      · subst same
        simp only [System.outstanding, System.arrive, Function.update_self]
        rw [← here]
        exact drained_perform apply_commute _ (perform_append taken _)
      · simpa only [System.outstanding, System.arrive, Function.update_of_ne same] using here
  | readCalled | retried | returned => exact accounted.frame rfl rfl rfl rfl rfl
  | happened =>
    exact accounted.frame rfl rfl rfl rfl (observe_happened_writes _ _ _ _ _ _ _ _ _ _)

/-- No run loses a store. -/
theorem accounted_run {events : List (Event R V W width)} {final : System R V W width}
    (run : Run (Step setting) System.initial events final) :
    Accounted setting.fences (history setting.sees events) final :=
  run.invariant (observe setting.sees) {} (Accounted setting.fences) (accounted_initial _)
    (fun _ _ _ _ accounted taken => accounted_step setting accounted (step_effect taken))

/-- Once every store has arrived, a view shows what the sequential writes leave,
whatever order the stores arrived in and whatever barriers there are. -/
theorem nothing_lost (events : List (Event R V W width))
    (final : System R V W width) (run : Run (Step setting) System.initial events final) (view : V)
    (ready : final.writer = .idle) (arrived : settled (final.pending view) = []) :
    final.views view = written (history setting.sees events).writes := by
  have leads := (accounted_run setting run).views view
  rw [System.outstanding, ready, Writer.todo, List.append_nil, ← drained_settled, arrived] at leads
  exact leads

end Accounts

/-- The stores of a call without any barrier arrive in the opposite order. -/
def backwards : List (Action Bool Bool Nat 2) :=
  [.write ![7, 8], .writer, .writer, .writer, .writer, .writer, .writer, .arrive true 2,
    .arrive true 1, .arrive true 0, .arrive true 0]

/-- Nothing of it is lost. -/
theorem nothing_lost_backwards :
    ∃ (events : List (Event Bool Bool Nat 2)) (final : System Bool Bool Nat 2),
      Run (Step { fences := ⟨false, false, false, false⟩, sees := id }) System.initial
        events final ∧
      final.views true = written (history id events).writes ∧
      List.ofFn (final.views true).entry = [7, 8] ∧ List.ofFn (final.views false).entry = [0, 0] := by
  have run := execute_run (advance { fences := ⟨false, false, false, false⟩, sees := id })
    (System.initial : System Bool Bool Nat 2) _ backwards _ rfl
  exact ⟨_, _, run, nothing_lost _ _ _ run true rfl rfl, by decide, by decide⟩

section Views

/-- The stores of writes from a number of them on, with all barriers. -/
def stream (number : Nat) : List (Entry W width) → List (Item (Store W width))
  | [] => []
  | entry :: rest => stores {} (doubled number + 1) entry ++ stream (number + 1) rest

@[simp] theorem stream_nil (number : Nat) : stream number ([] : List (Entry W width)) = [] := rfl

/-- One more write adds its stores at the end. -/
theorem stream_snoc (number : Nat) (writes : List (Entry W width)) (entry : Entry W width) :
    stream number (writes ++ [entry]) =
      stream number writes ++ stores {} (doubled (number + writes.length) + 1) entry := by
  induction writes generalizing number with
  | nil => simp [stream]
  | cons first rest inductionHypothesis =>
    rw [List.cons_append, stream, inductionHypothesis, stream, List.length_cons, List.append_assoc,
      Nat.add_right_comm, Nat.add_assoc number]

/-- No barrier of a write has done its work before its first store arrives. -/
@[simp] theorem settled_stream (number : Nat) (writes : List (Entry W width)) :
    settled (stream number writes) = stream number writes := by
  cases writes <;> rfl

/-- The stores of a write that are left when it has made the number odd and some
words have arrived, and those of the writes after it. -/
def remainder (number : Nat) (entry : Entry W width) (todo : List (Fin width))
    (later : List (Entry W width)) : List (Item (Store W width)) :=
  accesses (todo.map fun index => .word index (entry index)) ++
    .barrier :: .access (.seq (doubled (number + 1))) :: stream (number + 1) later

/-- A write before any of its words arrives. -/
theorem stream_cons (number : Nat) (entry : Entry W width) (later : List (Entry W width)) :
    stream number (entry :: later) =
      .access (.seq (doubled number + 1)) :: .barrier ::
        remainder number entry (List.finRange width) later := by
  simp [stream, stores, remainder, entryStores, seqLockWriteEnd]

/-- One more write joins what is left. -/
theorem remainder_snoc (number : Nat) (current : Entry W width) (todo : List (Fin width))
    (later : List (Entry W width)) (entry : Entry W width) :
    remainder number current todo (later ++ [entry]) =
      remainder number current todo later ++
        stores {} (doubled (number + 1 + later.length) + 1) entry := by
  simp [remainder, stream_snoc]

/-- The first store of a stream makes the number odd, and a barrier stands behind it. -/
theorem stream_perform {number before : Nat} {writes : List (Entry W width)}
    {store : Store W width} {left : List (Item (Store W width))}
    (taken : perform Store.place (stream number writes) before = some (store, left)) :
    ∃ entry later, writes = entry :: later ∧ store = .seq (doubled number + 1) ∧
      left = .barrier :: remainder number entry (List.finRange width) later := by
  cases writes with
  | nil => simp [perform, overtaking] at taken
  | cons entry later =>
    rw [stream_cons] at taken
    obtain ⟨rfl, rfl⟩ := perform_alone taken
    exact ⟨entry, later, rfl, rfl, rfl⟩

/-- In the middle of a write one of its words arrives, or, when all have, the store
that completes it. The next write cannot begin before that: it stores in the same
place. -/
theorem remainder_perform {number before : Nat} {entry : Entry W width} {todo : List (Fin width)}
    {later : List (Entry W width)} {store : Store W width} {left : List (Item (Store W width))}
    (taken : perform Store.place (remainder number entry todo later) before = some (store, left)) :
    (∃ first index rest, todo = first ++ index :: rest ∧ store = .word index (entry index) ∧
      left = remainder number entry (first ++ rest) later) ∨
    (todo = [] ∧ store = .seq (doubled (number + 1)) ∧ left = stream (number + 1) later) := by
  obtain ⟨overtaken, remaining, parts, rfl, -⟩ | ⟨none, taken⟩ := perform_fenced _ taken
  · obtain ⟨first, others, rfl, rfl, others_eq⟩ := List.map_eq_append_iff.mp parts
    obtain ⟨index, rest, rfl, rfl, rfl⟩ := List.map_eq_cons_iff.mp others_eq
    exact .inl ⟨first, index, rest, rfl, rfl, by simp [remainder]⟩
  · refine .inr ⟨by simpa using none, ?_⟩
    obtain ⟨rfl, rfl⟩ | ⟨apart, fewer, other, passed⟩ := perform_cons taken
    · exact ⟨rfl, rfl⟩
    · rw [← settled_stream] at passed
      obtain ⟨_, _, _, rfl, _⟩ := stream_perform passed
      exact absurd rfl apart

variable [Zero W]

/-- Where a view stands in the stream of stores: at rest after a number of writes,
or in the middle of the next. -/
inductive Standing (writes : List (Entry W width)) (number : Nat) (lock : Shared W width)
    (items : List (Item (Store W width))) : Prop where
  | quiet (seq : lock.seq = doubled number) (entry : lock.entry = entryAfter writes number)
      (made : number ≤ writes.length)
      (left : settled items = settled (stream number (writes.drop number)))
  | storing (entry : Entry W width) (todo : List (Fin width)) (write : writes[number]? = some entry)
      (seq : lock.seq = doubled number + 1)
      (stored : ∀ index, index ∈ todo ∨ lock.entry index = entry index)
      (left : settled items = settled (remainder number entry todo (writes.drop (number + 1))))

/-- No view is ahead of the writes. -/
theorem Standing.made {writes : List (Entry W width)} {number : Nat} {lock : Shared W width}
    {items : List (Item (Store W width))} (standing : Standing writes number lock items) :
    number ≤ writes.length := by
  cases standing with
  | quiet seq entry made left => exact made
  | storing entry todo write seq stored left =>
    exact Nat.le_of_lt (List.getElem?_eq_some_iff.mp write).1

/-- A view with an even number is at rest. -/
theorem Standing.even {writes : List (Entry W width)} {number : Nat} {lock : Shared W width}
    {items : List (Item (Store W width))} (standing : Standing writes number lock items)
    (even : lock.seq &&& 1 = 0) :
    lock.seq = doubled number ∧ lock.entry = entryAfter writes number := by
  cases standing with
  | quiet seq entry made left => exact ⟨seq, entry⟩
  | storing entry todo write seq stored left =>
    rw [seq, halfway_low_bit] at even
    exact absurd even (by decide)

/-- A call puts its stores behind all others. -/
theorem Standing.called {writes : List (Entry W width)} {number : Nat} {lock : Shared W width}
    {items : List (Item (Store W width))} (standing : Standing writes number lock items)
    (entry : Entry W width) :
    Standing (writes ++ [entry]) number lock
      (items ++ stores {} (doubled writes.length + 1) entry) := by
  have made := standing.made
  cases standing with
  | quiet seq here _ left =>
    refine .quiet seq (by rw [entryAfter_snoc _ _ _ made, here]) (by simp; omega) ?_
    rw [List.drop_append_of_le_length made, stream_snoc, List.length_drop,
      Nat.add_sub_cancel' made]
    exact settled_join left _
  | storing current todo write seq stored left =>
    have inside := (List.getElem?_eq_some_iff.mp write).1
    refine .storing current todo ?_ seq stored ?_
    · rw [List.getElem?_append_left inside, write]
    · rw [List.drop_append_of_le_length inside, remainder_snoc, List.length_drop,
        Nat.add_sub_cancel' inside]
      exact settled_join left _

/-- A store that arrives takes a view to where it has to be: in the middle of the
next write, or at rest after it. -/
theorem Standing.arrived {writes : List (Entry W width)} {number before : Nat}
    {lock : Shared W width} {items left : List (Item (Store W width))} {store : Store W width}
    (standing : Standing writes number lock items)
    (taken : perform Store.place items before = some (store, left)) :
    (store.completes = false ∧ (store.apply lock).seq = doubled number + 1 ∧
      Standing writes number (store.apply lock) left) ∨
    (store.completes = true ∧ Standing writes (number + 1) (store.apply lock) left) := by
  cases standing with
  | quiet seq here made behind =>
    rw [perform_settled behind] at taken
    obtain ⟨entry, later, parts, rfl, rfl⟩ := stream_perform taken
    have write : writes[number]? = some entry := by
      have head := congrArg List.head? parts
      simpa using head
    have after : writes.drop (number + 1) = later := by
      have tail := congrArg List.tail parts
      simpa using tail
    refine .inl ⟨by simp [Store.completes], rfl, ?_⟩
    exact .storing entry (List.finRange width) write rfl (fun index => .inl (List.mem_finRange index))
      (by rw [settled_barrier, after])
  | storing entry todo write seq stored behind =>
    rw [perform_settled behind] at taken
    obtain ⟨first, index, rest, rfl, rfl, rfl⟩ | ⟨rfl, rfl, rfl⟩ := remainder_perform taken
    · refine .inl ⟨rfl, seq, .storing entry (first ++ rest) write seq ?_ rfl⟩
      intro tested
      by_cases same : tested = index
      · subst same
        exact .inr (by simp [Store.apply])
      · have either := stored tested
        simp only [List.mem_append, List.mem_cons, same, false_or] at either
        simpa [Store.apply, Function.update_of_ne same] using either
    · have inside := (List.getElem?_eq_some_iff.mp write).1
      refine .inr ⟨by simp [Store.completes], .quiet rfl ?_ inside rfl⟩
      funext index
      have all := stored index
      simpa [Store.apply, entryAfter, List.getD, write] using all

end Views

end Tyndall.SeqLock.Barriers
