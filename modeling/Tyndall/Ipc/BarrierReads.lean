import Tyndall.Ipc.BarrierSnapshots

/-!
# What reads hand back when accesses overtake each other

With all four barriers an attempt loads the number, then the words in some order,
then the number again. While the number in the reader's view has not moved, and no
write has become visible there, the words copied are those of the version that the
attempt began with. Nothing more is needed of the memory.
-/

namespace Tyndall.SeqLock.Barriers

open Counter Runs Windows

variable {R V W : Type} {width : Nat} [Zero W]

/-- The loads left of an attempt that has loaded the number and some of the words. -/
def copyRest (todo : List (Fin width)) : List (Item (Load width)) :=
  accesses (todo.map .word) ++ .barrier :: [.access .second]

/-- Where an attempt of a reader stands: nothing is loaded, or the number and some
words are, or everything is. -/
inductive Attempt (log : Log R V W width) (visible : Nat) (lock : Shared W width) (name : R) :
    List (Item (Load width)) → UInt32 → UInt32 → Entry W width → Prop where
  | fresh (window : List (Item (Load width))) (seq1 seq2 : UInt32) (copy : Entry W width)
      (left : settled window = loads {}) : Attempt log visible lock name window seq1 seq2 copy
  | copying (window : List (Item (Load width))) (seq1 seq2 : UInt32) (copy : Entry W width)
      (todo : List (Fin width)) (left : settled window = settled (copyRest todo))
      (numbered : seq1 = doubled (log.version name))
      (copied : visible = log.version name → lock.seq = seq1 →
        ∀ index, index ∈ todo ∨ copy index = entryAfter log.writes (log.version name) index) :
      Attempt log visible lock name window seq1 seq2 copy
  | finished (window : List (Item (Load width))) (seq1 seq2 : UInt32) (copy : Entry W width)
      (left : settled window = []) (numbered : seq1 = doubled (log.version name))
      (whole : seq2 = seq1 → log.overlap name < 2 ^ 31 →
        copy = entryAfter log.writes (log.version name)) :
      Attempt log visible lock name window seq1 seq2 copy

/-- What is recorded of a read: its version exists, no later read of the same reader
has an older one, its code tells whether the two numbers differ and, unless too many
writes became visible while it loaded, it handed back its version. -/
structure Read.Right (writes : List (Entry W width)) (read : Read R W width) : Prop where
  available : read.version ≤ writes.length
  forward : read.previous ≤ read.version
  news : read.code = .success ↔ read.version % 2 ^ 31 ≠ read.previous % 2 ^ 31
  whole : read.overlap < 2 ^ 31 → read.entry = entryAfter writes read.version

/-- Everything the record says about a system with all four barriers. -/
structure Consistent (sees : R → V) (log : Log R V W width) (system : System R V W width) :
    Prop where
  accounted : Accounted {} log system
  standing : ∀ view,
    Standing log.writes (log.visible view) (system.views view) (system.outstanding {} view)
  attempt : ∀ name window seq1 seq2 copy,
    (system.readers name).phase = .loading window seq1 seq2 copy →
    Attempt log (log.visible (sees name)) (system.views (sees name)) name window seq1 seq2 copy
  versions : ∀ name, log.previous name ≤ log.version name ∧
    log.version name ≤ log.visible (sees name)
  states : ∀ name, (system.readers name).state.prevSeq = doubled (log.previous name)
  reads : ∀ read ∈ log.reads, read.Right log.writes

/-- A fresh topic. -/
theorem consistent_initial (sees : R → V) :
    Consistent sees ({} : Log R V W width) System.initial where
  accounted := accounted_initial {}
  standing _ := .quiet rfl rfl (Nat.le_refl _) rfl
  attempt name window seq1 seq2 copy stands := by simp [System.initial] at stands
  versions _ := ⟨Nat.le_refl _, Nat.le_refl _⟩
  states _ := rfl
  reads _ among := by simp at among

/-- More writes do not change what an attempt has copied. -/
theorem Attempt.called {log later : Log R V W width} {visible : Nat} {lock : Shared W width}
    {name : R} {window : List (Item (Load width))} {seq1 seq2 : UInt32} {copy : Entry W width}
    (attempt : Attempt log visible lock name window seq1 seq2 copy) (entry : Entry W width)
    (writes : later.writes = log.writes ++ [entry]) (version : later.version = log.version)
    (overlap : later.overlap = log.overlap) (made : log.version name ≤ log.writes.length) :
    Attempt later visible lock name window seq1 seq2 copy := by
  have same : entryAfter later.writes (later.version name) =
      entryAfter log.writes (log.version name) := by
    rw [writes, version, entryAfter_snoc _ _ _ made]
  cases attempt with
  | fresh left => exact .fresh _ _ _ _ left
  | copying todo left numbered copied =>
    exact .copying _ _ _ _ todo left (by rw [version, numbered])
      (by rw [same, version]; exact copied)
  | finished left numbered whole =>
    exact .finished _ _ _ _ left (by rw [version, numbered]) (by rw [same, overlap]; exact whole)

/-- A record that says the same about a reader leaves its attempt as it is. -/
theorem Attempt.frame {log later : Log R V W width} {visible : Nat} {lock : Shared W width}
    {name : R} {window : List (Item (Load width))} {seq1 seq2 : UInt32} {copy : Entry W width}
    (attempt : Attempt log visible lock name window seq1 seq2 copy)
    (writes : later.writes = log.writes) (version : later.version name = log.version name)
    (overlap : later.overlap name = log.overlap name) :
    Attempt later visible lock name window seq1 seq2 copy := by
  cases attempt with
  | fresh left => exact .fresh _ _ _ _ left
  | copying todo left numbered copied =>
    exact .copying _ _ _ _ todo left (by rw [version, numbered]) (by rwa [writes, version])
  | finished left numbered whole =>
    exact .finished _ _ _ _ left (by rw [version, numbered]) (by rwa [writes, version, overlap])

/-- A store that arrives at a reader's view either completes a write, and leaves the
attempt's version behind, or leaves an odd number there. -/
theorem Attempt.arrived {log later : Log R V W width} {visible after : Nat}
    {lock next : Shared W width} {name : R} {window : List (Item (Load width))}
    {seq1 seq2 : UInt32} {copy : Entry W width}
    (attempt : Attempt log visible lock name window seq1 seq2 copy)
    (moved : log.version name < after ∨ next.seq = doubled visible + 1)
    (writes : later.writes = log.writes) (version : later.version = log.version)
    (overlap : later.overlap = log.overlap) :
    Attempt later after next name window seq1 seq2 copy := by
  cases attempt with
  | fresh left => exact .fresh _ _ _ _ left
  | copying todo left numbered copied =>
    refine .copying _ _ _ _ todo left (by rw [version, numbered]) ?_
    intro current unmoved
    rw [version] at current
    rcases moved with ahead | odd
    · omega
    · rw [odd, numbered] at unmoved
      exact absurd unmoved.symm (doubled_ne_halfway _ _)
  | finished left numbered whole =>
    exact .finished _ _ _ _ left (by rw [version, numbered])
      (by rw [writes, version, overlap]; exact whole)

section Loads

omit [Zero W] in
/-- An attempt with all barriers loads the number before anything else. -/
theorem loads_all : (loads {} : List (Item (Load width))) =
    .access .first :: .barrier :: copyRest (List.finRange width) := rfl

omit [Zero W] in
/-- Between the two loads of the number one of the words is loaded, and the second
load waits for all of them. -/
theorem copyRest_perform {todo : List (Fin width)} {load : Load width}
    {left : List (Item (Load width))} {before : Nat}
    (taken : perform Load.place (copyRest todo) before = some (load, left)) :
    (∃ first index rest, todo = first ++ index :: rest ∧ load = .word index ∧
      left = copyRest (first ++ rest)) ∨
    (todo = [] ∧ load = .second ∧ left = []) := by
  obtain ⟨overtaken, remaining, parts, rfl, -⟩ | ⟨none, taken⟩ := perform_fenced _ taken
  · obtain ⟨first, others, rfl, rfl, others_eq⟩ := List.map_eq_append_iff.mp parts
    obtain ⟨index, rest, rfl, rfl, rfl⟩ := List.map_eq_cons_iff.mp others_eq
    exact .inl ⟨first, index, rest, rfl, rfl, by simp [copyRest]⟩
  · refine .inr ⟨by simpa using none, ?_⟩
    obtain ⟨rfl, rfl⟩ | ⟨-, fewer, other, passed⟩ := perform_cons taken
    · exact ⟨rfl, rfl⟩
    · simp [overtaking] at passed

variable [DecidableEq R] [DecidableEq V]

/-- A load leaves an attempt where an attempt can stand, seen by an observer who
notes the version at the first load and the overlap at the second. -/
theorem Attempt.happened {sees : R → V} {log : Log R V W width} {lock : Shared W width}
    {items : List (Item (Store W width))} {name : R} {window left : List (Item (Load width))}
    {seq1 seq2 : UInt32} {copy : Entry W width} {load : Load width} {before : Nat}
    (standing : Standing log.writes (log.visible (sees name)) lock items)
    (attempt : Attempt log (log.visible (sees name)) lock name window seq1 seq2 copy)
    (taken : perform Load.place window before = some (load, left))
    (behind : log.version name ≤ log.visible (sees name)) :
    ∃ window seq1' seq2' copy',
      (load.happen (R := R) (V := V) {} lock name left seq1 seq2 copy).2 =
        .loading window seq1' seq2' copy' ∧
      Attempt (observe sees log (load.happen {} lock name left seq1 seq2 copy).1)
        (log.visible (sees name)) lock name window seq1' seq2' copy' := by
  cases attempt with
  | fresh begins =>
    have begins : settled window = settled (loads {}) := begins
    rw [perform_settled begins, loads_all] at taken
    obtain ⟨rfl, rfl⟩ := perform_alone taken
    by_cases even : lock.seq &&& 1 = 0
    · simp only [Load.happen, seqLockReadBegin, even, ne_eq, not_true_eq_false, ↓reduceIte]
      refine ⟨_, _, _, _, rfl, .copying _ _ _ _ (List.finRange width) rfl ?_ ?_⟩
      · simpa [observe] using (standing.even even).1
      · exact fun _ _ index => .inl (List.mem_finRange index)
    · simp only [Load.happen, seqLockReadBegin, ne_eq, even, not_false_eq_true, ↓reduceIte]
      exact ⟨_, _, _, _, rfl, .fresh _ _ _ _ rfl⟩
  | copying todo rest numbered copied =>
    rw [perform_settled rest] at taken
    have even : seq1 &&& 1 = 0 := by
      rw [numbered]
      exact doubled_low_bit _
    obtain ⟨first, index, others, rfl, rfl, rfl⟩ | ⟨rfl, rfl, rfl⟩ := copyRest_perform taken
    · refine ⟨_, _, _, _, rfl, .copying _ _ _ _ (first ++ others) rfl numbered ?_⟩
      intro current unmoved tested
      by_cases same : tested = index
      · right
        have here := (standing.even (by rw [unmoved]; exact even)).2
        rw [same, Function.update_self, here, current]
        rfl
      · have either := copied current unmoved tested
        simp only [List.mem_append, List.mem_cons, same, false_or] at either
        simpa [Function.update_of_ne same, observe, Load.happen] using either
    · refine ⟨_, _, _, _, rfl, .finished _ _ _ _ rfl numbered ?_⟩
      intro unmoved short
      have number := (standing.even (by rw [unmoved]; exact even)).1
      have near : log.visible (sees name) - log.version name < 2 ^ 31 := by
        simpa [observe, Load.happen] using short
      have current : log.visible (sees name) = log.version name :=
        (doubled_eq_near behind near).mp (by rw [← number, unmoved, numbered])
      funext index
      simpa [observe, Load.happen] using copied current unmoved index
  | finished done numbered whole =>
    simp [perform, done, overtaking] at taken

end Loads

section Steps

variable [DecidableEq R] [DecidableEq V] {sees : R → V}

omit [DecidableEq R] [DecidableEq V] in
/-- What a call, or a step of the writer, does to the stores that are to come. -/
theorem Consistent.writer {log later : Log R V W width} {system next : System R V W width}
    (consistent : Consistent sees log system) (accounted : Accounted {} later next)
    (views : next.views = system.views)
    (outstanding : ∀ view, next.outstanding {} view = system.outstanding {} view)
    (readers : next.readers = system.readers) (same : later = log) :
    Consistent sees later next := by
  subst same
  refine ⟨accounted, ?_, ?_, consistent.versions, ?_, consistent.reads⟩
  · intro view
    rw [views, outstanding]
    exact consistent.standing view
  · rw [readers, views]
    exact consistent.attempt
  · rw [readers]
    exact consistent.states

/-- A call adds its stores to those to come and its entry to the writes. -/
theorem consistent_called {log : Log R V W width} {system : System R V W width}
    (consistent : Consistent sees log system) (entry : Entry W width)
    (ready : system.writer = .idle) :
    Consistent sees (observe sees log (.called entry)) { system with writer := .beginning entry } := by
  have made : ∀ name, log.version name ≤ log.writes.length := fun name =>
    (consistent.versions name).2.trans (consistent.standing (sees name)).made
  refine ⟨?_, ?_, ?_, consistent.versions, consistent.states, ?_⟩
  · exact accounted_step { sees := sees } consistent.accounted (.called entry ready)
  · intro view
    have standing := (consistent.standing view).called entry
    have number : system.own.seq = doubled log.writes.length := by
      rw [consistent.accounted.idle ready]
      exact (written_state log.writes).1
    rw [System.outstanding, ready, Writer.todo, List.append_nil] at standing
    simpa only [observe, System.outstanding, Writer.todo, seqLockWriteBegin, number] using standing
  · intro name window seq1 seq2 copy stands
    exact (consistent.attempt name window seq1 seq2 copy stands).called entry rfl rfl rfl (made name)
  · intro read among
    have right := consistent.reads read among
    refine ⟨right.available.trans (by simp [observe]), right.forward, right.news, ?_⟩
    intro short
    rw [right.whole short]
    exact (entryAfter_snoc _ _ _ right.available).symm

/-- A store that arrives at a view moves that view on and leaves every other as it is. -/
theorem consistent_arrived {log : Log R V W width} {system : System R V W width} {view : V}
    {before : Nat} {store : Store W width} {left : List (Item (Store W width))}
    (consistent : Consistent sees log system)
    (taken : perform Store.place (system.pending view) before = some (store, left)) :
    Consistent sees
      (observe sees log (if store.completes then .completed view else .arrived view))
      (system.arrive view store left) := by
  have accounted := accounted_step { sees := sees } consistent.accounted
    (.arrived view before store left taken)
  have moved := (consistent.standing view).arrived (perform_append taken _)
  have elsewhere : ∀ other, other ≠ view → (system.arrive view store left).views other =
      system.views other ∧ (system.arrive view store left).outstanding {} other =
        system.outstanding {} other := by
    intro other distinct
    simp [System.arrive, System.outstanding, distinct]
  obtain ⟨open_, odd, standing⟩ | ⟨closes, standing⟩ := moved
  · simp only [open_, Bool.false_eq_true, ↓reduceIte] at accounted ⊢
    refine ⟨accounted, ?_, ?_, consistent.versions, consistent.states, consistent.reads⟩
    · intro other
      by_cases same : other = view
      · subst same
        simpa [observe, System.arrive, System.outstanding] using standing
      · rw [(elsewhere other same).1, (elsewhere other same).2]
        exact consistent.standing other
    · intro name window seq1 seq2 copy stands
      have attempt := consistent.attempt name window seq1 seq2 copy stands
      by_cases same : sees name = view
      · refine attempt.arrived (.inr ?_) rfl rfl rfl
        simpa [System.arrive, same] using odd
      · rw [(elsewhere _ same).1]
        exact attempt
  · simp only [closes, ↓reduceIte] at accounted ⊢
    refine ⟨accounted, ?_, ?_, ?_, consistent.states, consistent.reads⟩
    · intro other
      by_cases same : other = view
      · subst same
        simpa [observe, System.arrive, System.outstanding] using standing
      · rw [(elsewhere other same).1, (elsewhere other same).2]
        simpa [observe, same] using consistent.standing other
    · intro name window seq1 seq2 copy stands
      have attempt := consistent.attempt name window seq1 seq2 copy stands
      by_cases same : sees name = view
      · refine attempt.arrived (.inl ?_) rfl rfl rfl
        have behind := (consistent.versions name).2
        simp only [observe, same, Function.update_self] at behind ⊢
        omega
      · rw [(elsewhere _ same).1]
        have kept : Attempt (observe sees log (.completed view)) (log.visible (sees name))
            (system.views (sees name)) name window seq1 seq2 copy := attempt.frame rfl rfl rfl
        simpa [observe, same] using kept
    · intro name
      obtain ⟨forward, behind⟩ := consistent.versions name
      refine ⟨forward, ?_⟩
      by_cases same : sees name = view
      · simp only [observe, same, Function.update_self] at behind ⊢
        omega
      · simpa [observe, same] using behind

omit [DecidableEq V] in
/-- A step of one reader concerns that reader alone. -/
theorem Consistent.reader {log later : Log R V W width} {system : System R V W width} {name : R}
    {reader : Reader W width} (consistent : Consistent sees log system)
    (writes : later.writes = log.writes) (visible : later.visible = log.visible)
    (others : ∀ other, other ≠ name → later.version other = log.version other ∧
      later.overlap other = log.overlap other ∧ later.previous other = log.previous other)
    (attempt : ∀ window seq1 seq2 copy, reader.phase = .loading window seq1 seq2 copy →
      Attempt later (log.visible (sees name)) (system.views (sees name)) name
        window seq1 seq2 copy)
    (versions : later.previous name ≤ later.version name ∧
      later.version name ≤ log.visible (sees name))
    (state : reader.state.prevSeq = doubled (later.previous name))
    (reads : ∀ read ∈ later.reads, read.Right log.writes) :
    Consistent sees later (system.setReader name reader) := by
  refine ⟨consistent.accounted.frame rfl rfl rfl rfl writes, ?_, ?_, ?_, ?_, ?_⟩
  · intro view
    rw [writes, visible]
    exact consistent.standing view
  · intro other window seq1 seq2 copy stands
    rw [visible]
    by_cases same : other = name
    · subst same
      simp only [System.setReader, Function.update_self] at stands
      exact attempt window seq1 seq2 copy stands
    · simp only [System.setReader, Function.update_of_ne same] at stands
      obtain ⟨version, overlap, -⟩ := others other same
      exact (consistent.attempt other window seq1 seq2 copy stands).frame writes version overlap
  · intro other
    rw [visible]
    by_cases same : other = name
    · subst same
      exact versions
    · obtain ⟨version, -, previous⟩ := others other same
      rw [version, previous]
      exact consistent.versions other
  · intro other
    by_cases same : other = name
    · subst same
      simpa [System.setReader] using state
    · obtain ⟨-, -, previous⟩ := others other same
      simpa [System.setReader, same, previous] using consistent.states other
  · rw [writes]
    exact reads

omit [Zero W] in
/-- A load changes nothing in the record but what it notes about its own attempt. -/
theorem observe_happened (log : Log R V W width) (fences : Fences) (lock : Shared W width)
    (name : R) (left : List (Item (Load width))) (seq1 seq2 : UInt32) (copy : Entry W width)
    (load : Load width) (behind : log.previous name ≤ log.version name ∧
      log.version name ≤ log.visible (sees name)) :
    let later := observe sees log (load.happen fences lock name left seq1 seq2 copy).1
    later.visible = log.visible ∧ later.previous = log.previous ∧ later.reads = log.reads ∧
      (later.previous name ≤ later.version name ∧
        later.version name ≤ log.visible (sees name)) ∧
      ∀ other, other ≠ name →
        later.version other = log.version other ∧ later.overlap other = log.overlap other := by
  cases load with
  | first =>
    simp only [Load.happen]
    split
    · exact ⟨rfl, rfl, rfl, behind, fun _ _ => ⟨rfl, rfl⟩⟩
    · refine ⟨rfl, rfl, rfl, ?_, fun other distinct => ?_⟩
      · simpa [observe] using behind.1.trans behind.2
      · simp [observe, distinct]
  | word index => exact ⟨rfl, rfl, rfl, behind, fun _ _ => ⟨rfl, rfl⟩⟩
  | second =>
    refine ⟨rfl, rfl, rfl, behind, fun other distinct => ?_⟩
    simp [observe, Load.happen, distinct]

/-- One step of the machine with all four barriers keeps the record true. -/
theorem consistent_step {log : Log R V W width} {system next : System R V W width}
    {event : Event R V W width} (consistent : Consistent sees log system)
    (effect : Effect { sees := sees } system event next) :
    Consistent sees (observe sees log event) next := by
  have accounted := accounted_step { sees := sees } consistent.accounted effect
  cases effect with
  | called entry ready => exact consistent_called consistent entry ready
  | loaded entry stands =>
    refine consistent.writer accounted rfl (fun view => ?_) rfl rfl
    rw [System.outstanding, System.outstanding, stands]
    rfl
  | issued entry item todo stands =>
    refine consistent.writer accounted rfl (fun view => ?_) rfl rfl
    rw [System.outstanding, System.outstanding, stands]
    simp [System.issue, Writer.todo]
  | wrote entry stands =>
    refine consistent.writer accounted rfl (fun view => ?_) rfl rfl
    rw [System.outstanding, System.outstanding, stands]
    rfl
  | arrived view before store left taken => exact consistent_arrived consistent taken
  | readCalled name copy ready =>
    refine consistent.reader rfl rfl (fun _ _ => ⟨rfl, rfl, rfl⟩) ?_ (consistent.versions name)
      (consistent.states name) consistent.reads
    intro window seq1 seq2 held stands
    obtain ⟨rfl, rfl, rfl, rfl⟩ := Phase.loading.inj stands
    exact .fresh _ _ _ _ rfl
  | happened name window left seq1 seq2 copy before load stands taken =>
    have behind := consistent.versions name
    have attempt := consistent.attempt name window seq1 seq2 copy stands
    obtain ⟨_, _, _, _, phase, after⟩ :=
      attempt.happened (consistent.standing (sees name)) taken behind.2
    obtain ⟨visible, previous, reads, versions, others⟩ :=
      observe_happened log {} (system.views (sees name)) name left seq1 seq2 copy load behind
    refine consistent.reader (observe_happened_writes _ _ _ _ _ _ _ _ _ _) visible
      (fun other distinct => ⟨(others other distinct).1, (others other distinct).2, by rw [previous]⟩)
      ?_ versions ?_ ?_
    · intro window seq1 seq2 copy stands
      rw [phase] at stands
      obtain ⟨rfl, rfl, rfl, rfl⟩ := Phase.loading.inj stands
      exact after
    · rw [previous]
      exact consistent.states name
    · rw [reads]
      exact consistent.reads
  | retried name window seq1 seq2 copy stands finished moved =>
    refine consistent.reader rfl rfl (fun _ _ => ⟨rfl, rfl, rfl⟩) ?_ (consistent.versions name)
      (consistent.states name) consistent.reads
    intro window seq1 seq2 held stands
    obtain ⟨rfl, rfl, rfl, rfl⟩ := Phase.loading.inj stands
    exact .fresh _ _ _ _ rfl
  | returned name window seq1 copy stands finished =>
    have attempt := consistent.attempt name window seq1 seq1 copy stands
    obtain ⟨forward, behind⟩ := consistent.versions name
    have made := behind.trans (consistent.standing (sees name)).made
    cases attempt with
    | fresh begins => simp [finished, loads_all] at begins
    | copying todo rest => cases todo <;> simp [finished, copyRest] at rest
    | finished done numbered whole =>
      refine consistent.reader rfl rfl ?_ (fun _ _ _ _ stands => by simp at stands) ?_ ?_ ?_
      · intro other distinct
        simp [observe, distinct]
      · simpa [observe] using behind
      · simp [observe, numbered]
      · intro read among
        rcases List.mem_append.mp among with earlier | newest
        · exact consistent.reads read earlier
        · obtain rfl := List.mem_singleton.mp newest
          refine ⟨made, forward, ?_, whole rfl⟩
          rw [conclude_success_iff, consistent.states name, numbered, ne_eq, doubled_eq_iff]

/-- The record stays true in every run of the machine with all four barriers. -/
theorem consistent_run {events : List (Event R V W width)} {final : System R V W width}
    (run : Run (Step { sees := sees }) System.initial events final) :
    Consistent sees (history sees events) final :=
  run.invariant (observe sees) {} (Consistent sees) (consistent_initial sees)
    (fun _ _ _ _ consistent taken => consistent_step consistent (step_effect taken))

/-- With its four barriers the sequence lock needs no order of memory accesses that
the machine does not keep. A read hands back the entry of a version that exists,
unless `2 ^ 31` writes or more became visible to it between its two loads of the
number; no read of the same reader after it has an older version; and its code says
whether its version differs from the one before, modulo `2 ^ 31`. -/
theorem overtaking_snapshots (sees : R → V) (events : List (Event R V W width))
    (final : System R V W width)
    (run : Run (Step { sees := sees }) System.initial events final) :
    ∀ read ∈ (history sees events).reads, read.Right (history sees events).writes :=
  (consistent_run run).reads

end Steps

/-- A reader in a view that nothing has reached, and one in a view where the second
word of a write arrives before the first. Both load their second word first. -/
def overtakenWrite : List (Action Bool Bool Nat 2) :=
  [.read false ![0, 0], .reader false 0, .write ![7, 8], .writer, .writer, .writer, .writer,
    .writer, .writer, .writer, .writer, .arrive true 0, .arrive true 1, .reader false 1,
    .reader false 0, .reader false 0, .reader false 0, .read true ![0, 0], .reader true 0,
    .arrive true 0, .arrive true 0, .reader true 0, .reader true 1, .reader true 0,
    .reader true 0, .reader true 0]

/-- What a read handed back, as plain values. -/
def Read.words (read : Read Bool Nat 2) : Bool × Code × List Nat :=
  (read.reader, read.code, List.ofFn read.entry)

/-- The first reader gets no message and the second the whole write. -/
theorem overtaking_snapshots_words :
    ∃ (events : List (Event Bool Bool Nat 2)) (final : System Bool Bool Nat 2),
      Run (Step { sees := id }) System.initial events final ∧
      (history id events).reads.map Read.words =
        [(false, .enomsg, [0, 0]), (true, .success, [7, 8])] ∧
      ∀ read ∈ (history id events).reads, read.Right (history id events).writes := by
  have run := execute_run (advance { sees := id }) (System.initial : System Bool Bool Nat 2) _
    overtakenWrite _ rfl
  exact ⟨_, _, run, by decide, overtaking_snapshots id _ _ run⟩

end Tyndall.SeqLock.Barriers
