import Mathlib.Data.List.FinRange
import Tyndall.Foundation.Runs
import Tyndall.Foundation.Windows
import Tyndall.Ipc.SeqLock

/-!
# The sequence lock where memory accesses overtake each other

The atomic steps of `Tyndall.Ipc.SeqLockSteps` happen in program order. On the
machines `smp.h` is written for they need not: a store becomes visible to a reader
when it arrives there, and a load takes its value when it happens, and both may
happen early or late. What the four helpers add to the accesses is one barrier
each. `smp_wmb` keeps stores behind it from overtaking stores before it, and
`smp_rmb` does the same for loads. Accesses of one place stay in order.

Readers look at the memory through views. With a single view there is one shared
memory, as on x86_64 and aarch64; with a view for each reader a store may reach
one reader before another, as armv7 allows. Only the writer stores, and it sees
its own stores at once. Whether each of the four barriers is there is a parameter.
-/

namespace Tyndall.SeqLock.Barriers

open Runs Windows

variable {R V W : Type} {width : Nat}

/-- Which of the barriers are there: `smp_wmb` in `seq_lock_write_begin` and in
`seq_lock_write_end`, `smp_rmb` in `seq_lock_read_begin` and in
`seq_lock_read_retry`. The code has all four. -/
structure Fences where
  writeBegin : Bool := true
  writeEnd : Bool := true
  readBegin : Bool := true
  readRetry : Bool := true
deriving DecidableEq, Repr

/-- The barriers that are there, and the view each reader looks through. -/
structure Setting (R V : Type) where
  fences : Fences := {}
  sees : R → V

/-- The places in memory that are accessed. -/
inductive Place (width : Nat) where
  | seq
  | word (index : Fin width)
deriving DecidableEq

/-- A store of the sequence number or of one word of the entry. -/
inductive Store (W : Type) (width : Nat) where
  | seq (value : UInt32)
  | word (index : Fin width) (value : W)

/-- Where a store stores. -/
def Store.place : Store W width → Place width
  | .seq _ => .seq
  | .word index _ => .word index

/-- What a store does where it arrives. -/
def Store.apply : Store W width → Shared W width → Shared W width
  | .seq value, lock => { lock with seq := value }
  | .word index value, lock => { lock with entry := Function.update lock.entry index value }

/-- Whether a store makes the sequence number even. -/
def Store.completes : Store W width → Bool
  | .seq value => value &&& 1 = 0
  | .word _ _ => false

/-- A load of an attempt to read: of the sequence number in `seq_lock_read_begin`,
of one word of the entry, and of the number again in `seq_lock_read_retry`. -/
inductive Load (width : Nat) where
  | first
  | word (index : Fin width)
  | second

/-- Where a load loads. -/
def Load.place : Load width → Place width
  | .first | .second => .seq
  | .word index => .word index

/-- `this->entry = entry` in `write`, word by word. -/
def entryStores (entry : Entry W width) : List (Store W width) :=
  (List.finRange width).map (fun index => .word index (entry index))

/-- The stores of `write`, once `seq_lock_write_begin` has incremented `seq1`. -/
def stores (fences : Fences) (seq1 : UInt32) (entry : Entry W width) :
    List (Item (Store W width)) :=
  .access (.seq seq1) :: (fence fences.writeBegin ++ (accesses (entryStores entry) ++
    (fence fences.writeEnd ++ [.access (.seq (seqLockWriteEnd seq1))])))

/-- The loads of one turn of the loop in `read`. -/
def loads (fences : Fences) : List (Item (Load width)) :=
  .access .first :: (fence fences.readBegin ++ (accesses ((List.finRange width).map .word) ++
    (fence fences.readRetry ++ [.access .second])))

/-- Where the writer stands in `write`: before the load of `*seq`, or with stores
still to issue. -/
inductive Writer (W : Type) (width : Nat) where
  | idle
  | beginning (entry : Entry W width)
  | issuing (entry : Entry W width) (todo : List (Item (Store W width)))

/-- Where a reader stands in `read`. The loads that have not happened stand in a
window; the others have left their values in the two sequence numbers and the copy. -/
inductive Phase (W : Type) (width : Nat) where
  | idle
  | loading (window : List (Item (Load width))) (seq1 seq2 : UInt32) (copy : Entry W width)

/-- A reader's thread and the state it keeps from one read to the next. -/
structure Reader (W : Type) (width : Nat) where
  phase : Phase W width := .idle
  state : State := {}

/-- The memory as the writer sees it and as each view shows it, with the stores
that have not arrived there; the writer and the readers. -/
structure System (R V W : Type) (width : Nat) where
  own : Shared W width
  writer : Writer W width
  views : V → Shared W width
  pending : V → List (Item (Store W width))
  readers : R → Reader W width

/-- A fresh topic. -/
def System.initial [Zero W] : System R V W width :=
  { own := created, writer := .idle, views := fun _ => created, pending := fun _ => [],
    readers := fun _ => {} }

/-- Replace one reader. -/
def System.setReader [DecidableEq R] (system : System R V W width) (name : R)
    (reader : Reader W width) : System R V W width :=
  { system with readers := Function.update system.readers name reader }

/-- Move one reader to a point in `read`. -/
def System.setPhase [DecidableEq R] (system : System R V W width) (name : R)
    (phase : Phase W width) : System R V W width :=
  system.setReader name { system.readers name with phase := phase }

/-- Issue stores: every view has them to come. -/
def System.issue (system : System R V W width) (items : List (Item (Store W width))) :
    System R V W width :=
  { system with
    own := drained Store.apply system.own items
    pending := fun view => system.pending view ++ items }

/-- Let a store arrive at a view. -/
def System.arrive [DecidableEq V] (system : System R V W width) (view : V)
    (store : Store W width) (left : List (Item (Store W width))) : System R V W width :=
  { system with
    views := Function.update system.views view (store.apply (system.views view))
    pending := Function.update system.pending view left }

/-- What a step reports. -/
inductive Event (R V W : Type) (width : Nat) where
  | called (entry : Entry W width)
  | loaded
  | issued
  | wrote (entry : Entry W width)
  | arrived (view : V)
  | completed (view : V)
  | readCalled (reader : R)
  | spun (reader : R)
  | begun (reader : R)
  | copied (reader : R) (index : Fin width)
  | reloaded (reader : R)
  | retried (reader : R)
  | returned (reader : R) (code : Code) (entry : Entry W width)

/-- What the writer has still to issue. -/
def Writer.todo (fences : Fences) (own : Shared W width) :
    Writer W width → List (Item (Store W width))
  | .idle => []
  | .beginning entry => stores fences (seqLockWriteBegin own.seq) entry
  | .issuing _ todo => todo

/-- The next step of a writer inside `write`. -/
def advanceWriter (fences : Fences) (system : System R V W width) :
    Option (Event R V W width × System R V W width) :=
  match system.writer with
  | .idle => none
  | .beginning entry =>
      some (.loaded, { system with
        writer := .issuing entry (stores fences (seqLockWriteBegin system.own.seq) entry) })
  | .issuing entry (item :: todo) =>
      some (.issued, { system.issue [item] with writer := .issuing entry todo })
  | .issuing entry [] => some (.wrote entry, { system with writer := .idle })

/-- A load of an attempt happens. An odd number in `seq_lock_read_begin` starts
the attempt again. -/
def Load.happen (fences : Fences) (lock : Shared W width) (name : R)
    (left : List (Item (Load width))) (seq1 seq2 : UInt32) (copy : Entry W width) :
    Load width → Event R V W width × Phase W width
  | .first =>
      match seqLockReadBegin lock.seq with
      | none => (.spun name, .loading (loads fences) lock.seq seq2 copy)
      | some seq1 => (.begun name, .loading left seq1 seq2 copy)
  | .word index =>
      (.copied name index, .loading left seq1 seq2 (Function.update copy index (lock.entry index)))
  | .second => (.reloaded name, .loading left seq1 lock.seq copy)

/-- The next step of a reader inside `read`: the load that overtakes a number of
others happens, or, when all loads have, the two numbers are compared. -/
def advanceReader (fences : Fences) (lock : Shared W width) (name : R) (reader : Reader W width)
    (before : Nat) : Option (Event R V W width × Reader W width) :=
  match reader.phase with
  | .idle => none
  | .loading window seq1 seq2 copy =>
      match settled window, perform Load.place window before with
      | [], _ =>
          if seqLockReadRetry seq2 seq1 then
            some (.retried name, { reader with phase := .loading (loads fences) seq1 seq2 copy })
          else
            let (code, state) := conclude seq1 reader.state
            some (.returned name code copy, { phase := .idle, state := state })
      | _, none => none
      | _, some (load, left) =>
          let (event, phase) := load.happen fences lock name left seq1 seq2 copy
          some (event, { reader with phase := phase })

/-- A choice of who acts next: a call, the writer's next step, the arrival of a
pending store, or a reader's next load. A call finds anything in the caller's entry. -/
inductive Action (R V W : Type) (width : Nat) where
  | write (entry : Entry W width)
  | writer
  | arrive (view : V) (before : Nat)
  | read (reader : R) (copy : Entry W width)
  | reader (reader : R) (before : Nat)

/-- One step. -/
def advance [DecidableEq R] [DecidableEq V] (setting : Setting R V) (system : System R V W width) :
    Action R V W width → Option (Event R V W width × System R V W width)
  | .write entry =>
      match system.writer with
      | .idle => some (.called entry, { system with writer := .beginning entry })
      | _ => none
  | .writer => advanceWriter setting.fences system
  | .arrive view before => do
      let (store, left) ← perform Store.place (system.pending view) before
      pure (if store.completes then .completed view else .arrived view,
        system.arrive view store left)
  | .read name copy =>
      match (system.readers name).phase with
      | .idle =>
          some (.readCalled name, system.setReader name
            { system.readers name with phase := .loading (loads setting.fences) 0 0 copy })
      | _ => none
  | .reader name before => do
      let (event, reader) ← advanceReader setting.fences (system.views (setting.sees name)) name
        (system.readers name) before
      pure (event, system.setReader name reader)

/-- The steps of the machine. -/
abbrev Step [DecidableEq R] [DecidableEq V] (setting : Setting R V) :
    System R V W width → Event R V W width → System R V W width → Prop := Steps (advance setting)

section Readers

variable [DecidableEq R] (system : System R V W width) (name : R) (reader other : Reader W width)

@[simp] theorem setReader_same : (system.setReader name reader).readers name = reader := by
  simp [System.setReader]

@[simp] theorem setReader_setReader :
    (system.setReader name reader).setReader name other = system.setReader name other := by
  simp [System.setReader]

/-- A reader that is replaced by itself. -/
@[simp] theorem setReader_self : system.setReader name (system.readers name) = system := by
  simp [System.setReader]

@[simp] theorem setPhase_phase (phase : Phase W width) :
    ((system.setPhase name phase).readers name).phase = phase := by
  simp [System.setPhase]

@[simp] theorem setPhase_state (phase : Phase W width) :
    ((system.setPhase name phase).readers name).state = (system.readers name).state := by
  simp [System.setPhase]

@[simp] theorem setPhase_setReader (phase : Phase W width) :
    (system.setPhase name phase).setReader name reader = system.setReader name reader := by
  simp [System.setPhase]

@[simp] theorem setPhase_views (phase : Phase W width) :
    (system.setPhase name phase).views = system.views := rfl

@[simp] theorem setPhase_setPhase (phase next : Phase W width) :
    (system.setPhase name phase).setPhase name next = system.setPhase name next := by
  simp [System.setPhase]

/-- A reader that is moved to where it stands. -/
theorem setPhase_self {system : System R V W width} {name : R} {phase : Phase W width}
    (stands : (system.readers name).phase = phase) : system.setPhase name phase = system := by
  rw [← stands]
  exact setReader_self system name

end Readers

section Arrivals

variable [DecidableEq V] (system : System R V W width) (view : V) (store : Store W width)
  (left : List (Item (Store W width)))

@[simp] theorem arrive_pending : (system.arrive view store left).pending view = left := by
  simp [System.arrive]

@[simp] theorem arrive_views :
    (system.arrive view store left).views view = store.apply (system.views view) := by
  simp [System.arrive]

end Arrivals

section Taken

variable [DecidableEq R] [DecidableEq V] (setting : Setting R V) {system : System R V W width}
  {name : R} {window left : List (Item (Load width))} {seq1 seq2 : UInt32} {copy : Entry W width}

/-- An idle reader can be called. -/
theorem step_called (copy : Entry W width) (ready : (system.readers name).phase = .idle) :
    Step setting system (.readCalled name)
      (system.setPhase name (.loading (loads setting.fences) 0 0 copy)) :=
  ⟨.read name copy, by simp [advance, ready, System.setPhase]⟩

/-- A load that its window lets happen can happen. -/
theorem step_happened {before : Nat} {load : Load width}
    (stands : (system.readers name).phase = .loading window seq1 seq2 copy)
    (taken : perform Load.place window before = some (load, left)) :
    Step setting system
      (load.happen setting.fences (system.views (setting.sees name)) name left seq1 seq2 copy).1
      (system.setPhase name (load.happen (R := R) (V := V) setting.fences
        (system.views (setting.sees name)) name left seq1 seq2 copy).2) := by
  refine ⟨.reader name before, ?_⟩
  cases rest : settled window with
  | nil => simp [perform, rest, overtaking] at taken
  | cons item items => simp [advance, advanceReader, stands, rest, taken, System.setPhase]

/-- An attempt whose two numbers differ starts again. -/
theorem step_retried (stands : (system.readers name).phase = .loading window seq1 seq2 copy)
    (finished : settled window = []) (moved : seq2 ≠ seq1) :
    Step setting system (.retried name)
      (system.setPhase name (.loading (loads setting.fences) seq1 seq2 copy)) := by
  have retry : seqLockReadRetry seq2 seq1 = true := by simpa [seqLockReadRetry] using moved
  exact ⟨.reader name 0, by
    simp [advance, advanceReader, stands, finished, retry, System.setPhase]⟩

/-- An attempt that has loaded the same number twice returns. -/
theorem step_returned (stands : (system.readers name).phase = .loading window seq1 seq1 copy)
    (finished : settled window = []) :
    Step setting system (.returned name (conclude seq1 (system.readers name).state).1 copy)
      (system.setReader name
        { phase := .idle, state := (conclude seq1 (system.readers name).state).2 }) :=
  ⟨.reader name 0, by simp [advance, advanceReader, stands, finished, seqLockReadRetry]⟩

end Taken

/-- Stores of different places commute. -/
theorem apply_commute (first second : Store W width) (lock : Shared W width)
    (apart : first.place ≠ second.place) :
    first.apply (second.apply lock) = second.apply (first.apply lock) := by
  cases first with
  | seq value =>
    cases second with
    | seq other => exact absurd rfl apart
    | word index word => rfl
  | word index word =>
    cases second with
    | seq value => rfl
    | word other value =>
      have distinct : index ≠ other := fun same => apart (by rw [same]; rfl)
      simp only [Store.apply, Function.update_comm distinct]

/-- The stores of an entry, in any part, store that part. -/
theorem drained_words (lock : Shared W width) (entry : Entry W width)
    (indices : List (Fin width)) :
    drained Store.apply lock (accesses (indices.map fun index => .word index (entry index))) =
      { seq := lock.seq,
        entry := fun index => if index ∈ indices then entry index else lock.entry index } := by
  induction indices generalizing lock with
  | nil => rfl
  | cons first rest inductionHypothesis =>
    rw [List.map_cons, accesses_cons, drained_access, inductionHypothesis]
    simp only [Store.apply, Shared.mk.injEq, true_and]
    funext index
    by_cases same : index = first
    · simp [same]
    · simp [same]

/-- Issued in program order, the stores of a call are the sequential `write`,
whatever barriers stand between them. -/
theorem drained_stores (fences : Fences) (lock : Shared W width) (entry : Entry W width) :
    drained Store.apply lock (stores fences (seqLockWriteBegin lock.seq) entry) =
      write lock entry := by
  simp [stores, entryStores, drained_words, write, Store.apply]

/-- Everything a step can do, one constructor for each kind. -/
inductive Effect [DecidableEq R] [DecidableEq V] (setting : Setting R V)
    (system : System R V W width) : Event R V W width → System R V W width → Prop where
  | called (entry : Entry W width) (ready : system.writer = .idle) :
      Effect setting system (.called entry) { system with writer := .beginning entry }
  | loaded (entry : Entry W width) (stands : system.writer = .beginning entry) :
      Effect setting system .loaded { system with
        writer := .issuing entry
          (stores setting.fences (seqLockWriteBegin system.own.seq) entry) }
  | issued (entry : Entry W width) (item : Item (Store W width))
      (todo : List (Item (Store W width))) (stands : system.writer = .issuing entry (item :: todo)) :
      Effect setting system .issued { system.issue [item] with writer := .issuing entry todo }
  | wrote (entry : Entry W width) (stands : system.writer = .issuing entry []) :
      Effect setting system (.wrote entry) { system with writer := .idle }
  | arrived (view : V) (before : Nat) (store : Store W width) (left : List (Item (Store W width)))
      (taken : perform Store.place (system.pending view) before = some (store, left)) :
      Effect setting system (if store.completes then .completed view else .arrived view)
        (system.arrive view store left)
  | readCalled (name : R) (copy : Entry W width) (ready : (system.readers name).phase = .idle) :
      Effect setting system (.readCalled name) (system.setReader name
        { system.readers name with phase := .loading (loads setting.fences) 0 0 copy })
  | happened (name : R) (window left : List (Item (Load width))) (seq1 seq2 : UInt32)
      (copy : Entry W width) (before : Nat) (load : Load width)
      (stands : (system.readers name).phase = .loading window seq1 seq2 copy)
      (taken : perform Load.place window before = some (load, left)) :
      Effect setting system
        (load.happen setting.fences (system.views (setting.sees name)) name left seq1 seq2 copy).1
        (system.setReader name { system.readers name with
          phase := (load.happen (R := R) (V := V) setting.fences
            (system.views (setting.sees name)) name left seq1 seq2 copy).2 })
  | retried (name : R) (window : List (Item (Load width))) (seq1 seq2 : UInt32)
      (copy : Entry W width) (stands : (system.readers name).phase = .loading window seq1 seq2 copy)
      (finished : settled window = []) (moved : seq2 ≠ seq1) :
      Effect setting system (.retried name) (system.setReader name
        { system.readers name with phase := .loading (loads setting.fences) seq1 seq2 copy })
  | returned (name : R) (window : List (Item (Load width))) (seq1 : UInt32)
      (copy : Entry W width) (stands : (system.readers name).phase = .loading window seq1 seq1 copy)
      (finished : settled window = []) :
      Effect setting system
        (.returned name (conclude seq1 (system.readers name).state).1 copy)
        (system.setReader name
          { phase := .idle, state := (conclude seq1 (system.readers name).state).2 })

section Inversion

variable [DecidableEq R] [DecidableEq V] {setting : Setting R V}
  {system next : System R V W width} {event : Event R V W width}

/-- A writer's step has one of the writer's effects. -/
theorem advance_writer_effect
    (advanced : advanceWriter setting.fences system = some (event, next)) :
    Effect setting system event next := by
  unfold advanceWriter at advanced
  split at advanced
  · simp at advanced
  · next entry stands =>
    obtain ⟨rfl, rfl⟩ := Prod.mk.inj (Option.some.inj advanced)
    exact .loaded entry stands
  · next entry item todo stands =>
    obtain ⟨rfl, rfl⟩ := Prod.mk.inj (Option.some.inj advanced)
    exact .issued entry item todo stands
  · next entry stands =>
    obtain ⟨rfl, rfl⟩ := Prod.mk.inj (Option.some.inj advanced)
    exact .wrote entry stands

/-- A reader's step has one of the reader's effects. -/
theorem advance_reader_effect (name : R) (before : Nat)
    (advanced : advance setting system (.reader name before) = some (event, next)) :
    Effect setting system event next := by
  cases stands : (system.readers name).phase with
  | idle => simp [advance, advanceReader, stands] at advanced
  | loading window seq1 seq2 copy =>
    simp only [advance, advanceReader, stands] at advanced
    split at advanced
    · next finished =>
      by_cases moved : seq2 = seq1
      · subst moved
        simp only [seqLockReadRetry, bne_self_eq_false, Bool.false_eq_true, ↓reduceIte,
          Option.bind_eq_bind, Option.bind_some, Option.pure_def, Option.some.injEq,
          Prod.mk.injEq] at advanced
        obtain ⟨rfl, rfl⟩ := advanced
        exact .returned name window seq2 copy stands finished
      · have retry : seqLockReadRetry seq2 seq1 = true := by simpa [seqLockReadRetry] using moved
        simp only [retry, ↓reduceIte, Option.bind_eq_bind, Option.bind_some, Option.pure_def,
          Option.some.injEq, Prod.mk.injEq] at advanced
        obtain ⟨rfl, rfl⟩ := advanced
        exact .retried name window seq1 seq2 copy stands finished moved
    · simp at advanced
    · next load left taken _ =>
      simp only [Option.bind_eq_bind, Option.bind_some, Option.pure_def, Option.some.injEq,
        Prod.mk.injEq] at advanced
      obtain ⟨rfl, rfl⟩ := advanced
      exact .happened name window left seq1 seq2 copy before load stands taken

/-- Every step has one of the listed effects. -/
theorem step_effect (taken : Step setting system event next) :
    Effect setting system event next := by
  obtain ⟨action, advanced⟩ := taken
  cases action with
  | write entry =>
    cases ready : system.writer with
    | idle =>
      simp only [advance, ready, Option.some.injEq, Prod.mk.injEq] at advanced
      obtain ⟨rfl, rfl⟩ := advanced
      exact .called entry ready
    | _ => simp [advance, ready] at advanced
  | writer => exact advance_writer_effect advanced
  | arrive view before =>
    simp only [advance, Option.bind_eq_bind, Option.bind_eq_some_iff, Option.pure_def,
      Option.some.injEq, Prod.exists, Prod.mk.injEq] at advanced
    obtain ⟨store, left, taken, rfl, rfl⟩ := advanced
    exact .arrived view before store left taken
  | read name copy =>
    cases ready : (system.readers name).phase with
    | idle =>
      simp only [advance, ready, Option.some.injEq, Prod.mk.injEq] at advanced
      obtain ⟨rfl, rfl⟩ := advanced
      exact .readCalled name copy ready
    | loading => simp [advance, ready] at advanced
  | reader name before => exact advance_reader_effect name before advanced

end Inversion

end Tyndall.SeqLock.Barriers
