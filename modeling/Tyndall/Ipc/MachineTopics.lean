import Tyndall.Ipc.MachineInvariant

/-!
# Every object of a machine is a topic of its own

The steps on one object are a run of a single sequence lock, with a crash for every
buffer that vanishes inside `write`. What happens on other objects and to names
does not matter. So the calls of all buffers that have mapped one object are the
sequential ones in some order, on a topic that was fresh when the object was made.
-/

namespace Tyndall.Ipc.Machines

open Runs SeqLock

variable {H : Type} {kind : Name → StorageType}

/-- What a step of a buffer means to the lock of its object. A buffer that vanishes
inside `write` leaves its place to the next writer. -/
def settle {R W : Type} {width : Nat} : SeqLock.Event R W width → List (SeqLock.Event R W width)
  | .died => [.died, .attached]
  | event => [event]

/-- What a step of the machine means to the lock of one object. -/
def Event.on (name : Name) (object : Nat) :
    Event H kind → List (SeqLock.Event H UInt8 (kind name).size)
  | .acted other _ id event =>
      if same : other = name ∧ id = object then settle (same.1 ▸ event) else []
  | .created _ _ | .inited _ _ | .vanished _ _ | .unlinked _ | .peeked _ => []

/-- A buffer of the name is inside `write` on the object. -/
def Writing (machine : Machine H kind) (name : Name) (object : Nat) (h : H) : Prop :=
  (machine.handle name h).mapped = some object ∧ (machine.handle name h).writer.inside = true

/-- An object holds the memory of a lock, the buffers that have mapped it are the
lock's readers, and whichever of them is inside `write` is its writer. -/
structure Hosts (machine : Machine H kind) (name : Name) (object : Nat)
    (system : System H UInt8 (kind name).size) : Prop where
  lock : sharedOf (kind name) (machine.shm.object object) = system.lock
  readers : ∀ h, system.readers h =
    if (machine.handle name h).buf = some object then (machine.handle name h).reader else {}
  busy : ∀ h, Writing machine name object h → system.writer = (machine.handle name h).writer
  single : ∀ h other, Writing machine name object h → Writing machine name object other → h = other
  rest : (∀ h, ¬ Writing machine name object h) → system.writer = .idle

variable {machine next : Machine H kind} {name : Name} {object : Nat}
  {system : System H UInt8 (kind name).size}

/-- What does not change the object's lock nor its readers and writers. -/
theorem Hosts.frame (hosts : Hosts machine name object system)
    (lock : sharedOf (kind name) (next.shm.object object) =
      sharedOf (kind name) (machine.shm.object object))
    (readers : ∀ h, (if (next.handle name h).buf = some object then (next.handle name h).reader
        else {}) =
      if (machine.handle name h).buf = some object then (machine.handle name h).reader else {})
    (writers : ∀ h, (next.handle name h).writer = (machine.handle name h).writer ∧
        (next.handle name h).mapped = (machine.handle name h).mapped ∨
      ¬ Writing next name object h ∧ ¬ Writing machine name object h) :
    Hosts next name object system := by
  have same : ∀ h, Writing next name object h →
      Writing machine name object h ∧ (next.handle name h).writer = (machine.handle name h).writer := by
    rintro h ⟨mapped, inside⟩
    rcases writers h with ⟨writer, mapping⟩ | ⟨neither, _⟩
    · exact ⟨⟨mapping ▸ mapped, writer ▸ inside⟩, writer⟩
    · exact absurd ⟨mapped, inside⟩ neither
  refine ⟨lock.trans hosts.lock, fun h => (hosts.readers h).trans (readers h).symm, ?_, ?_, ?_⟩
  · intro h writing
    obtain ⟨before, writer⟩ := same h writing
    rw [writer]
    exact hosts.busy h before
  · exact fun h other first second => hosts.single h other (same h first).1 (same other second).1
  · intro nobody
    apply hosts.rest
    rintro h ⟨mapped, inside⟩
    rcases writers h with ⟨writer, mapping⟩ | ⟨_, neither⟩
    · exact nobody h ⟨mapping.trans mapped, by rw [writer]; exact inside⟩
    · exact neither ⟨mapped, inside⟩

variable [DecidableEq H]

/-- A step of a buffer on another object. -/
theorem Hosts.elsewhere (hosts : Hosts machine name object system) {other : Name} {h : H} {id : Nat}
    {block : Block} {handle : Handle (kind other)}
    (opened : (machine.handle other h).buf = some id) (same : handle.buf = some id)
    (different : id ≠ object) :
    Hosts (machine.act other h id block handle) name object system := by
  have apart : ∀ {later : Handle (kind other)}, later.buf = some id → later.buf ≠ some object := by
    intro later buf equal
    exact different (Option.some.inj (buf.symm.trans equal))
  apply hosts.frame
  · rw [act_object_other _ _ _ _ _ _ _ different.symm]
  · intro later
    rw [act_handles]
    by_cases here : name = other ∧ later = h
    · obtain ⟨rfl, rfl⟩ := here
      rw [put_handle, if_neg (apart same), if_neg (apart opened)]
    · rw [put_handle_other _ _ _ _ _ _ here]
  · intro later
    rw [Writing, Writing, act_handles]
    by_cases here : name = other ∧ later = h
    · obtain ⟨rfl, rfl⟩ := here
      rw [put_handle]
      exact .inr ⟨fun writing => apart same (mapped_buf writing.1),
        fun writing => apart opened (mapped_buf writing.1)⟩
    · rw [put_handle_other _ _ _ _ _ _ here]
      exact .inl ⟨rfl, rfl⟩

/-- A step of a buffer that is, or was, the only one inside `write`. -/
theorem Hosts.wrote (hosts : Hosts machine name object system) {h : H} (block : Block)
    (handle : Handle (kind name)) (opened : (machine.handle name h).buf = some object)
    (same : handle.buf = some object) (reader : handle.reader = (machine.handle name h).reader)
    (alone : ∀ other, other ≠ h → ¬ Writing machine name object other)
    (writer : Writer UInt8 (kind name).size)
    (stands : handle.writer.inside = true ∧ writer = handle.writer ∨
      handle.writer.inside = false ∧ writer = .idle) :
    Hosts (machine.act name h object block handle) name object
      { system with lock := sharedOf (kind name) block, writer := writer } := by
  have only : ∀ other, Writing (machine.act name h object block handle) name object other →
      other = h := by
    intro other writing
    by_contra different
    rw [Writing, act_handles, put_handle_same _ _ _ _ _ different] at writing
    exact alone other different writing
  constructor
  case lock => rw [act_object]
  case readers =>
    intro other
    rw [act_handles]
    by_cases here : other = h
    · subst here
      rw [put_handle, if_pos same, reader]
      exact (hosts.readers other).trans (if_pos opened)
    · rw [put_handle_same _ _ _ _ _ here]
      exact hosts.readers other
  case busy =>
    intro other writing
    obtain rfl := only other writing
    rw [Writing, act_handles, put_handle] at writing
    rw [act_handles, put_handle]
    rcases stands with ⟨_, equal⟩ | ⟨outside, _⟩
    · exact equal
    · rw [outside] at writing
      cases writing.2
  case single =>
    intro first second here there
    rw [only first here, only second there]
  case rest =>
    intro nobody
    rcases stands with ⟨inside, _⟩ | ⟨_, idle⟩
    · refine absurd ⟨?_, ?_⟩ (nobody h)
      · rw [act_handles, put_handle, Handle.mapped]
        split
        · next dead => simp [dead, Writer.inside] at inside
        · exact same
      · rw [act_handles, put_handle]
        exact inside
    · exact idle

/-- A step of a buffer inside `read`, or its call. -/
theorem Hosts.looked (hosts : Hosts machine name object system) {h : H}
    (opened : (machine.handle name h).buf = some object) (reader : Reader UInt8 (kind name).size) :
    Hosts (machine.put name h { machine.handle name h with reader := reader }) name object
      (system.setReader h reader) := by
  have writers : ∀ other,
      Writing (machine.put name h { machine.handle name h with reader := reader }) name object other ↔
        Writing machine name object other := by
    intro other
    rw [Writing, Writing]
    by_cases here : other = h
    · subst here
      rw [put_handle]
      rfl
    · rw [put_handle_same _ _ _ _ _ here]
  constructor
  case lock => exact hosts.lock
  case readers =>
    intro other
    by_cases here : other = h
    · subst here
      rw [setReader_same, put_handle, if_pos opened]
    · rw [setReader_other _ _ _ _ here, put_handle_same _ _ _ _ _ here]
      exact hosts.readers other
  case busy =>
    intro other writing
    rw [setReader_writer, hosts.busy other ((writers other).mp writing)]
    by_cases here : other = h
    · subst here
      rw [put_handle]
    · rw [put_handle_same _ _ _ _ _ here]
  case single =>
    exact fun first second here there =>
      hosts.single first second ((writers first).mp here) ((writers second).mp there)
  case rest =>
    exact fun nobody => hosts.rest (fun other writing => nobody other ((writers other).mpr writing))

omit [DecidableEq H] in
/-- A writer's step loads the number it sees, does not die, and leaves it inside
`write` or done. -/
theorem advanceWriter_cases {R : Type} {width : Nat} {lock after : Shared UInt8 width}
    {writer later : Writer UInt8 width} {event : SeqLock.Event R UInt8 width}
    (taken : advanceWriter lock writer = some (event, after, later)) :
    (∀ seq, event = .loaded seq → seq = lock.seq) ∧ settle event = [event] ∧
      (later.inside = true ∨ later.inside = false ∧ later = .idle) := by
  cases writer with
  | dead => simp [advanceWriter] at taken
  | idle => simp [advanceWriter] at taken
  | beginning entry =>
    simp only [advanceWriter, Option.some.injEq, Prod.mk.injEq] at taken
    obtain ⟨rfl, -, rfl⟩ := taken
    refine ⟨?_, rfl, .inl rfl⟩
    intro seq same
    cases same
    rfl
  | raising entry seq1 =>
    simp only [advanceWriter, Option.some.injEq, Prod.mk.injEq] at taken
    obtain ⟨rfl, -, rfl⟩ := taken
    exact ⟨fun _ same => (by cases same), rfl, .inl rfl⟩
  | storing entry seq1 index =>
    simp only [advanceWriter] at taken
    split at taken
    · simp only [Option.some.injEq, Prod.mk.injEq] at taken
      obtain ⟨rfl, -, rfl⟩ := taken
      exact ⟨fun _ same => (by cases same), rfl, .inl rfl⟩
    · simp only [Option.some.injEq, Prod.mk.injEq] at taken
      obtain ⟨rfl, -, rfl⟩ := taken
      exact ⟨fun _ same => (by cases same), rfl, .inr ⟨rfl, rfl⟩⟩

omit [DecidableEq H] in
/-- A reader's step is a step of its lock as it stands. -/
theorem advanceReader_cases {R : Type} {width : Nat} {lock : Shared UInt8 width} {h : R}
    {reader later : Reader UInt8 width} {event : SeqLock.Event R UInt8 width}
    (taken : advanceReader lock h reader = some (event, later)) :
    (∀ seq, event ≠ .loaded seq) ∧ settle event = [event] := by
  simp only [advanceReader] at taken
  split at taken
  · cases taken
  · split at taken
    · simp only [Option.some.injEq, Prod.mk.injEq] at taken
      obtain ⟨rfl, -⟩ := taken
      exact ⟨fun _ same => (by cases same), rfl⟩
    · simp only [Option.some.injEq, Prod.mk.injEq] at taken
      obtain ⟨rfl, -⟩ := taken
      exact ⟨fun _ same => (by cases same), rfl⟩
  · split at taken
    · simp only [Option.some.injEq, Prod.mk.injEq] at taken
      obtain ⟨rfl, -⟩ := taken
      exact ⟨fun _ same => (by cases same), rfl⟩
    · split at taken
      · simp only [Option.some.injEq, Prod.mk.injEq] at taken
        obtain ⟨rfl, -⟩ := taken
        exact ⟨fun _ same => (by cases same), rfl⟩
      · simp only [Option.some.injEq, Prod.mk.injEq] at taken
        obtain ⟨rfl, -⟩ := taken
        exact ⟨fun _ same => (by cases same), rfl⟩

/-- A step that starts no write may be taken from any number. -/
theorem evenStart_of_not_loaded {R W : Type} {width : Nat} {system : System R W width}
    {event : SeqLock.Event R W width} (other : ∀ seq, event ≠ .loaded seq) :
    EvenStart system event := by
  cases event with
  | loaded seq => exact absurd rfl (other seq)
  | _ => trivial

/-- A step of a buffer on its own object is a step of the lock. -/
theorem hosted_acted (kept : Kept machine) (hosts : Hosts machine name object system) {h : H}
    {event : SeqLock.Event H UInt8 (kind name).size}
    (disciplined : Disciplined machine (.acted name h object event))
    (effect : Effect machine (.acted name h object event) next) :
    ∃ later, Run (Guarded EvenStart CrashStep) system (settle event) later ∧
      Hosts next name object later := by
  cases effect with
  | called _ _ _ entry mapped attached ready =>
    have alone : ∀ other, other ≠ h → ¬ Writing machine name object other := by
      rintro other different ⟨mapping, inside⟩
      rw [disciplined other different mapping] at inside
      cases inside
    have idle : system.writer = .idle := by
      apply hosts.rest
      intro other writing
      by_cases same : other = h
      · rw [same, Writing, ready] at writing
        cases writing.2
      · exact alone other same writing
    have taken : CrashStep system (.called entry) { system with writer := .beginning entry } :=
      ⟨.live (.write entry), by simp [advanceCrash, SeqLock.advance, idle]⟩
    refine ⟨_, .single ⟨trivial, taken⟩, ?_⟩
    rw [put_eq_act _ _ _ object]
    have opened := mapped_buf mapped
    have after := hosts.wrote (machine.shm.object object)
      { machine.handle name h with writer := .beginning entry } opened opened rfl alone
      (.beginning entry) (.inl ⟨rfl, rfl⟩)
    rwa [hosts.lock] at after
  | stored _ _ _ _ block writer mapped taken =>
    have opened := mapped_buf mapped
    have writing : Writing machine name object h := ⟨mapped, advanceStores_inside taken⟩
    obtain ⟨-, established⟩ := kept.busy mapped (.inl writing.2)
    obtain ⟨stepped, -, -⟩ := advanceStores_spec established.size _ taken
    rw [hosts.lock, ← hosts.busy h writing] at stepped
    obtain ⟨loads, lives, stands⟩ := advanceWriter_cases stepped
    have even : EvenStart system event := by
      cases event with
      | loaded seq =>
        rw [EvenStart, ← loads seq rfl]
        exact disciplined
      | _ => trivial
    rw [lives]
    refine ⟨_, .single ⟨even, .live .writer, ?_⟩, hosts.wrote block
      { machine.handle name h with writer := writer } opened opened rfl ?_ writer ?_⟩
    · simp [advanceCrash, SeqLock.advance, stepped]
    · exact fun other different there => different (hosts.single other h there writing)
    · exact stands.imp (fun inside => ⟨inside, rfl⟩) id
  | readCalled _ _ _ copy mapped attached ready =>
    have opened := mapped_buf mapped
    have reader : system.readers h = (machine.handle name h).reader := by
      rw [hosts.readers, if_pos opened]
    refine ⟨_, .single ⟨trivial, .live (.read h copy), ?_⟩, hosts.looked opened _⟩
    simp [advanceCrash, SeqLock.advance, reader, ready]
  | looked _ _ _ _ reader mapped taken =>
    have opened := mapped_buf mapped
    obtain ⟨quiet, lives⟩ := advanceReader_cases taken
    have stands : system.readers h = (machine.handle name h).reader := by
      rw [hosts.readers, if_pos opened]
    rw [hosts.lock, ← stands] at taken
    rw [lives]
    refine ⟨_, .single ⟨evenStart_of_not_loaded quiet, .live (.reader h), ?_⟩,
      hosts.looked opened reader⟩
    simp [advanceCrash, SeqLock.advance, taken]
  | died _ _ _ mapped inside =>
    have opened := mapped_buf mapped
    have writing : Writing machine name object h := ⟨mapped, inside⟩
    have busy := hosts.busy h writing
    have alive : system.writer ≠ .dead := by
      rw [busy]
      rintro dead
      rw [dead] at inside
      cases inside
    have died : CrashStep system .died { system with writer := .dead } := by
      refine ⟨.die, ?_⟩
      cases stands : system.writer with
      | dead => exact absurd stands alive
      | _ => simp [advanceCrash, stands]
    have attached : CrashStep { system with writer := .dead } .attached
        { system with writer := .idle } := ⟨.attach, rfl⟩
    refine ⟨_, (Run.single ⟨trivial, died⟩).append (.single ⟨trivial, attached⟩), ?_⟩
    rw [put_eq_act _ _ _ object]
    have after := hosts.wrote (machine.shm.object object)
      { machine.handle name h with writer := .dead } opened opened rfl
      (fun other different there => different (hosts.single other h there writing))
      .idle (.inr ⟨rfl, rfl⟩)
    rwa [hosts.lock] at after

/-- A step inside `write` or `read`, or a call of them, is one of a buffer on the
object it has mapped. -/
theorem acted_act {other : Name} {h : H} {id : Nat}
    {event : SeqLock.Event H UInt8 (kind other).size}
    (effect : Effect machine (.acted other h id event) next) :
    (machine.handle other h).buf = some id ∧ ∃ block handle,
      next = machine.act other h id block handle ∧ handle.buf = some id := by
  cases effect with
  | stored _ _ _ _ block writer mapped taken =>
    have opened := mapped_buf mapped
    exact ⟨opened, _, _, rfl, opened⟩
  | called _ _ _ _ mapped | readCalled _ _ _ _ mapped | looked _ _ _ _ _ mapped
  | died _ _ _ mapped =>
    have opened := mapped_buf mapped
    rw [put_eq_act _ _ _ id]
    exact ⟨opened, _, _, rfl, opened⟩

/-- A step is matched by what it means to the lock of an object, unless the object
belongs to another name. -/
theorem hosted_step {event : Event H kind} (kept : Kept machine)
    (hosts : Hosts machine name object system) (disciplined : Disciplined machine event)
    (effect : Effect machine event next)
    (own : ∀ other, next.origin object = some other → other = name) :
    ∃ later, Run (Guarded EvenStart CrashStep) system (event.on name object) later ∧
      Hosts next name object later := by
  cases event with
  | acted other h id event =>
    by_cases here : other = name ∧ id = object
    · obtain ⟨rfl, rfl⟩ := here
      rw [Event.on, dif_pos ⟨rfl, rfl⟩]
      exact hosted_acted kept hosts disciplined effect
    · rw [Event.on, dif_neg here]
      obtain ⟨opened, block, handle, rfl, same⟩ := acted_act effect
      refine ⟨system, .refl, hosts.elsewhere opened same ?_⟩
      rintro rfl
      exact here ⟨own other (kept.mapped opened), rfl⟩
  | created other h =>
    cases effect with
    | created _ _ unopened ready =>
      obtain ⟨-, -, blocks, -⟩ := kept.openName other
      have fresh := (kept.waiting (by rw [kept.unopened unopened]; simp)).2
      refine ⟨system, .refl, hosts.frame (congrArg _ (blocks object)) ?_ ?_⟩
      · intro later
        by_cases actor : name = other ∧ later = h
        · obtain ⟨rfl, rfl⟩ := actor
          rw [put_handle, unopened, fresh, ite_self, ite_self]
        · rw [put_handle_other _ _ _ _ _ _ actor, openName_handle]
      · intro later
        rw [Writing, Writing]
        by_cases actor : name = other ∧ later = h
        · obtain ⟨rfl, rfl⟩ := actor
          rw [put_handle, ready]
          exact .inr ⟨fun writing => Bool.false_ne_true writing.2,
            fun writing => Bool.false_ne_true writing.2⟩
        · rw [put_handle_other _ _ _ _ _ _ actor, openName_handle]
          exact .inl ⟨rfl, rfl⟩
  | inited other h =>
    cases effect with
    | inited _ _ id block attach mapped taken =>
      have opened := mapped_buf mapped
      by_cases here : id = object
      · subst here
        obtain rfl := own other (kept.mapped opened)
        obtain ⟨-, -, lock, -⟩ :=
          advanceInit_tailored (kept.tailored (kept.mapped opened)) (kept.reached opened) taken
        refine ⟨system, .refl, hosts.frame (by rw [act_object, lock]) ?_ ?_⟩
        · intro later
          rw [act_handles]
          by_cases actor : later = h
          · rw [actor, put_handle]
          · rw [put_handle_same _ _ _ _ _ actor]
        · intro later
          rw [act_handles]
          by_cases actor : later = h
          · rw [actor, put_handle]
            exact .inl ⟨rfl, rfl⟩
          · rw [put_handle_same _ _ _ _ _ actor]
            exact .inl ⟨rfl, rfl⟩
      · exact ⟨system, .refl, hosts.elsewhere opened opened here⟩
  | vanished other h =>
    cases effect with
    | vanished _ _ ready =>
      refine ⟨system, .refl, hosts.frame rfl ?_ ?_⟩
      · intro later
        by_cases actor : name = other ∧ later = h
        · obtain ⟨rfl, rfl⟩ := actor
          rw [put_handle]
        · rw [put_handle_other _ _ _ _ _ _ actor]
      · intro later
        rw [Writing, Writing]
        by_cases actor : name = other ∧ later = h
        · obtain ⟨rfl, rfl⟩ := actor
          rw [put_handle, ready]
          exact .inr ⟨fun writing => Bool.false_ne_true writing.2,
            fun writing => Bool.false_ne_true writing.2⟩
        · rw [put_handle_other _ _ _ _ _ _ actor]
          exact .inl ⟨rfl, rfl⟩
  | unlinked other =>
    cases effect with
    | unlinked => exact ⟨system, .refl, hosts.frame rfl (fun _ => rfl) (fun _ => .inl ⟨rfl, rfl⟩)⟩
  | peeked other =>
    cases effect with
    | peeked =>
      obtain ⟨-, -, blocks, -⟩ := kept.openName other
      refine ⟨system, .refl, hosts.frame (congrArg _ (blocks object)) ?_ ?_⟩
      · intro later
        rw [openName_handle]
      · intro later
        rw [openName_handle]
        exact .inl ⟨rfl, rfl⟩

omit [DecidableEq H] in
/-- A fresh machine hosts a fresh lock wherever an object may be made. -/
theorem hosts_initial (name : Name) (object : Nat) :
    Hosts ({} : Machine H kind) name object System.initial where
  lock := by
    have zero : sharedOf (kind name) Block.empty = created := by
      rw [sharedOf, created, Shared.mk.injEq]
      exact ⟨Block.load32_zero _ _ (fun _ _ => rfl), rfl⟩
    exact zero
  readers _ := rfl
  busy _ writing := nomatch writing.2
  single _ _ writing := nomatch writing.2
  rest _ := rfl

/-- An object keeps the name it was created under. -/
theorem origin_kept {event : Event H kind} (kept : Kept machine)
    (effect : Effect machine event next) {made : Name}
    (origin : machine.origin object = some made) : next.origin object = some made := by
  cases effect with
  | created other => exact (kept.openName other).2.2.2 _ _ origin
  | peeked other => exact (kept.openName other).2.2.2 _ _ origin
  | _ => exact origin

/-- A step means nothing to an object under another name than its own. -/
theorem on_foreign {event : Event H kind} (kept : Kept machine) (effect : Effect machine event next)
    {other : Name} (origin : next.origin object = some other) (foreign : other ≠ name) :
    event.on name object = [] := by
  cases event with
  | acted actor h id event =>
    rw [Event.on, dif_neg]
    rintro ⟨rfl, rfl⟩
    have made := origin_kept kept effect (kept.mapped (acted_act effect).1)
    exact foreign (Option.some.inj (origin.symm.trans made))
  | _ => rfl

/-- Runs keep the invariant, and each object of a run hosts the lock whose steps are
what the run means to it.

Proof: the lock's run is read off the machine's by the simulation rule. It is
related to the machine as long as the object has no other name. -/
theorem run_hosts (events : List (Event H kind)) (final : Machine H kind)
    (run : DisciplinedRun events final) (name : Name) (object : Nat)
    (made : final.origin object = some name) :
    Kept final ∧ ∃ system, EvenRun (projected (Event.on name object) events) system ∧
      Hosts final name object system := by
  obtain ⟨system, lockRun, kept, hosts⟩ := run.projects (Event.on name object)
    (fun machine system => Kept machine ∧
      ((∀ other, machine.origin object = some other → other = name) →
        Hosts machine name object system))
    ⟨kept_initial, fun _ => hosts_initial name object⟩ (by
      rintro machine event next system ⟨kept, hosts⟩ ⟨disciplined, taken⟩
      have effect := machine_effect taken
      by_cases own : ∀ other, next.origin object = some other → other = name
      · have before : ∀ other, machine.origin object = some other → other = name :=
          fun other origin => own other (origin_kept kept effect origin)
        obtain ⟨later, matching, after⟩ := hosted_step kept (hosts before) disciplined effect own
        exact ⟨later, matching, kept_step kept effect, fun _ => after⟩
      · obtain ⟨other, origin, foreign⟩ : ∃ other, next.origin object = some other ∧ other ≠ name := by
          simpa using own
        refine ⟨system, ?_, kept_step kept effect, fun all => absurd (all other origin) foreign⟩
        rw [on_foreign kept effect origin foreign]
        exact .refl)
  refine ⟨kept, system, lockRun, hosts ?_⟩
  intro other origin
  exact Option.some.inj (origin.symm.trans made)

/-- What the calls on one object are, in the order of their completions. -/
abbrev operationsOn (name : Name) (object : Nat) (events : List (Event H kind)) :
    List (Operation H UInt8 (kind name).size) :=
  projected Event.operation (projected (Event.on name object) events)

/-- Every object is linearizable. In every run of a machine, with any number of names,
objects and buffers that are created, destroyed and killed at any point, with names
unlinked and opened again in between, while one buffer at a time is inside `write` on
an object and none begins from an odd number: the calls that complete on an object
are, in that order, a run of the sequential functions on a fresh topic, provided that
no final attempt of a read of it overlaps `2 ^ 31` writes or more. Whoever is
inside a read of it remembers what the topic's reader remembers, and on an even
number the object holds the topic's memory.

Proof: the run means a run of one lock to the object, and that run is linearizable. -/
theorem machine_linearizable (events : List (Event H kind)) (final : Machine H kind)
    (run : DisciplinedRun events final) (name : Name) (object : Nat)
    (made : final.origin object = some name)
    (short : ∀ read ∈ (history (projected (Event.on name object) events)).reads,
      read.overlap < 2 ^ 31) :
    ∃ topic, Run (Steps Resting.perform) Resting.initial (operationsOn name object events) topic ∧
      (∀ h, (final.handle name h).buf = some object →
        topic.state h = (final.handle name h).reader.state) ∧
      ((final.shm.object object).load32 0 &&& 1 = 0 →
        topic.lock = sharedOf (kind name) (final.shm.object object)) := by
  obtain ⟨-, system, lockRun, hosts⟩ := run_hosts events final run name object made
  obtain ⟨topic, sequential, consistent, explains⟩ := explained_run _ system lockRun short
  refine ⟨topic, sequential, ?_, ?_⟩
  · intro h opened
    rw [explains.state, hosts.readers, if_pos opened]
  · intro even
    rw [hosts.lock]
    apply explains.lock_quiet consistent
    rw [← hosts.lock]
    exact even

/-- The entries whose writes on an object have completed. -/
abbrev writesOn (name : Name) (object : Nat) (events : List (Event H kind)) :
    List (Entry UInt8 (kind name).size) :=
  (operationsOn name object events).filterMap Operation.entry

omit [DecidableEq H] in
/-- A read that returns from an object is an operation on it. -/
theorem operationsOn_returned (name : Name) (h : H) (object : Nat) (code : Code)
    (entry : Entry UInt8 (kind name).size) (before : List (Event H kind)) :
    operationsOn name object (before ++ [.acted name h object (.returned h code entry)]) =
      operationsOn name object before ++ [.read h code entry] := by
  rw [operationsOn, projected_snoc, projected_append, Event.on, dif_pos ⟨rfl, rfl⟩]
  rfl

/-- A read returns from an object as the newest call of a sequential run. -/
theorem returned_operations (before after : List (Event H kind)) (final : Machine H kind)
    (name : Name) (h : H) (object : Nat) (code : Code) (entry : Entry UInt8 (kind name).size)
    (run : DisciplinedRun (before ++ .acted name h object (.returned h code entry) :: after) final)
    (short : ∀ read ∈ (history (projected (Event.on name object)
      (before ++ [.acted name h object (.returned h code entry)]))).reads, read.overlap < 2 ^ 31) :
    ∃ topic, Run (Steps Resting.perform) Resting.initial
      (operationsOn name object before ++ [.read h code entry]) topic := by
  rw [← List.singleton_append, ← List.append_assoc] at run
  obtain ⟨middle, here, -⟩ := run.split
  obtain ⟨state, earlier, -, taken⟩ := here.last
  have effect := machine_effect taken
  have kept : Kept state := run_kept (earlier.mono (fun _ _ _ taken => taken.2))
  have made := origin_kept kept effect (kept.mapped (acted_act effect).1)
  obtain ⟨lock, lockRun, -⟩ := (run_hosts _ middle here name object made).2
  obtain ⟨topic, sequential, -⟩ := explained_run _ lock lockRun short
  refine ⟨topic, ?_⟩
  rw [← operationsOn_returned]
  exact sequential

/-- Reads hand back what was written last. In every run of a machine with any number of
names, objects and buffers, whose users keep to the discipline: a read that returns
from an object hands back the entry of the last write that any buffer has completed on
that object by then, or zeros where there is none, provided that no final attempt of a
read of the object up to then overlaps `2 ^ 31` writes or more. So nothing of another
topic, of an earlier object of the topic's name or of two writes is ever handed back.

Proof: the run up to the return is linearizable on the object, and a read of a topic at
rest returns what its writes left. -/
theorem machine_reads_newest (before after : List (Event H kind)) (final : Machine H kind)
    (name : Name) (h : H) (object : Nat) (code : Code) (entry : Entry UInt8 (kind name).size)
    (run : DisciplinedRun (before ++ .acted name h object (.returned h code entry) :: after) final)
    (short : ∀ read ∈ (history (projected (Event.on name object)
      (before ++ [.acted name h object (.returned h code entry)]))).reads, read.overlap < 2 ^ 31) :
    entry = entryAfter (writesOn name object before) (writesOn name object before).length := by
  obtain ⟨topic, sequential⟩ := returned_operations before after final name h object code entry run
    short
  exact resting_newest sequential

/-- How many writes have completed on an object, and how many had at the last read of it
by each of the buffers. -/
abbrev seenOn (name : Name) (object : Nat) (events : List (Event H kind)) : Seen H :=
  seenIn (operationsOn name object events)

/-- Codes tell what is new. In every run of a machine with any number of names, objects
and buffers, whose users keep to the discipline, and on every object with fewer than
`2 ^ 31` completed writes: a read that returns from it succeeds exactly when a write has
completed on it since the same buffer's previous read returned. Otherwise it reports
that there is no message where no write has ever completed on it, and that there is none
yet where one has. No final attempt of a read of the object up to then may overlap
`2 ^ 31` writes or more, those that died included. What other buffers, other names and
earlier objects of the name do makes no difference.

Proof: the run up to the return is linearizable on the object, and a topic at rest
keeps the number of its writes in its memory and in its readers. -/
theorem machine_codes (before after : List (Event H kind)) (final : Machine H kind)
    (name : Name) (h : H) (object : Nat) (code : Code) (entry : Entry UInt8 (kind name).size)
    (run : DisciplinedRun (before ++ .acted name h object (.returned h code entry) :: after) final)
    (few : (seenOn name object before).writes < 2 ^ 31)
    (short : ∀ read ∈ (history (projected (Event.on name object)
      (before ++ [.acted name h object (.returned h code entry)]))).reads, read.overlap < 2 ^ 31) :
    code = if (seenOn name object before).upTo h < (seenOn name object before).writes then .success
      else if (seenOn name object before).writes = 0 then .enomsg else .eagain := by
  obtain ⟨topic, sequential⟩ := returned_operations before after final name h object code entry run
    short
  exact resting_codes sequential few

/-- Where there are finitely many buffers, discipline can be checked. -/
instance [Fintype H] (machine : Machine H kind) : (event : Event H kind) →
    Decidable (Disciplined machine event)
  | .acted name h object (.called _) => inferInstanceAs (Decidable (∀ other, other ≠ h →
      (machine.handle name other).mapped = some object →
      (machine.handle name other).writer.inside = false))
  | .acted _ _ _ (.loaded seq) => inferInstanceAs (Decidable (seq &&& 1 = 0))
  | .acted _ _ _ .raised | .acted _ _ _ (.stored _) | .acted _ _ _ (.completed _)
  | .acted _ _ _ .died | .acted _ _ _ .attached | .acted _ _ _ (.readCalled _)
  | .acted _ _ _ (.spun _) | .acted _ _ _ (.begun _) | .acted _ _ _ (.copied _ _)
  | .acted _ _ _ (.retried _) | .acted _ _ _ (.returned _ _ _)
  | .created _ _ | .inited _ _ | .vanished _ _ | .unlinked _ | .peeked _ => isTrue trivial

/-- A name. -/
def someName : Name := [97]

/-- A writer dies before it has stored anything. Another opens the name and writes; the
name is unlinked, a reader of the old object receives the entry, and one that opens the
name again finds no message. -/
def lifetimes : List (Action (Fin 4) (fun _ => oneInt)) :=
  List.flatten [
    [.create someName 0], List.replicate 3 (.init someName 0),
    [.write someName 0 ![9, 9, 9, 9], .writer someName 0, .create someName 1, .vanish someName 0],
    List.replicate 4 (.init someName 1), [.create someName 2], List.replicate 4 (.init someName 2),
    [.write someName 2 ![5, 6, 7, 8]], List.replicate 4 (.writer someName 2), [.unlink someName],
    List.replicate 3 (.writer someName 2),
    [.read someName 1 ![0, 0, 0, 0]], List.replicate 6 (.reader someName 1),
    [.peek someName, .create someName 3], List.replicate 3 (.init someName 3),
    [.read someName 3 ![0, 0, 0, 0]], List.replicate 6 (.reader someName 3)]

/-- Whose read an operation was, with which code, and the entry's last byte. -/
def outline : Operation (Fin 4) UInt8 4 → Option (Fin 4 × Code) × UInt8
  | .wrote entry => (none, entry 3)
  | .read h code entry => (some (h, code), entry 3)

/-- On the first object there are the second writer's write and a read of it, and the
explaining topic ends in the object's memory. -/
theorem machine_linearizable_lifetimes :
    ∃ (events : List (Event (Fin 4) (fun _ => oneInt))) (final : Machine (Fin 4) (fun _ => oneInt)),
    DisciplinedRun events final ∧ final.origin 0 = some someName ∧
    (operationsOn someName 0 events).map outline = [(none, 8), (some (1, .success), 8)] ∧
    (operationsOn someName 1 events).map outline = [(some (3, .enomsg), 0)] ∧
    ∃ topic, Run (Steps Resting.perform) Resting.initial (operationsOn someName 0 events) topic ∧
      (∀ h, (final.handle someName h).buf = some 0 →
        topic.state h = (final.handle someName h).reader.state) ∧
      ((final.shm.object 0).load32 0 &&& 1 = 0 →
        topic.lock = sharedOf oneInt (final.shm.object 0)) := by
  let executed := execute (guardedBy Disciplined Machine.perform)
    ({} : Machine (Fin 4) (fun _ => oneInt)) lifetimes
  have origin : executed.map (fun result => result.2.origin 0) = some (some someName) := by
    decide +kernel
  have first : executed.map (fun result => (operationsOn someName 0 result.1).map outline) =
      some [(none, 8), (some (1, .success), 8)] := by decide +kernel
  have second : executed.map (fun result => (operationsOn someName 1 result.1).map outline) =
      some [(some (3, .enomsg), 0)] := by decide +kernel
  have overlaps : executed.map (fun result =>
      (history (projected (Event.on someName 0) result.1)).reads.map Read.overlap) = some [0] := by
    decide +kernel
  obtain ⟨⟨events, final⟩, reached, made⟩ := Option.map_eq_some_iff.mp origin
  simp only [reached, Option.map_some, Option.some.injEq] at first second overlaps
  have run : DisciplinedRun events final := (execute_run _ _ _ _ _ reached).ofGuarded
  refine ⟨events, final, run, made, first, second, machine_linearizable events final run someName 0
    made ?_⟩
  intro read member
  have among : read.overlap ∈
      (history (projected (Event.on someName 0) events)).reads.map Read.overlap :=
    List.mem_map.mpr ⟨read, member, rfl⟩
  rw [overlaps, List.mem_singleton] at among
  rw [among]
  decide

/-- The number and the place of an attempt. -/
def attempt : Phase UInt8 4 → Option (UInt32 × Nat)
  | .copying seq1 _ next => some (seq1, next)
  | .idle | .spinning _ => none

/-- The reader of the first object is about to return. -/
theorem about_to_return :
    ∃ (before : List (Event (Fin 4) (fun _ => oneInt))) (final : Machine (Fin 4) (fun _ => oneInt))
      (code : Code) (entry : Entry UInt8 oneInt.size),
    DisciplinedRun (before ++ [.acted someName 1 0 (.returned 1 code entry)]) final ∧
    (writesOn someName 0 before).map List.ofFn = [[5, 6, 7, 8]] ∧
    (seenOn someName 0 before).writes = 1 ∧ (seenOn someName 0 before).upTo 1 = 0 ∧
    ∀ read ∈ (history (projected (Event.on someName 0)
      (before ++ [.acted someName 1 0 (.returned 1 code entry)]))).reads, read.overlap < 2 ^ 31 := by
  let executed := execute (guardedBy Disciplined Machine.perform)
    ({} : Machine (Fin 4) (fun _ => oneInt)) (lifetimes.take 32)
  have mapped : executed.map (fun result => (result.2.handle someName 1).mapped) =
      some (some 0) := by decide +kernel
  have place : executed.map (fun result => attempt (result.2.handle someName 1).reader.phase) =
      some (some (2, 4)) := by decide +kernel
  have number : executed.map (fun result => (sharedOf oneInt (result.2.shm.object 0)).seq) =
      some 2 := by decide +kernel
  have wrote : executed.map (fun result => (writesOn someName 0 result.1).map List.ofFn) =
      some [[5, 6, 7, 8]] := by decide +kernel
  have seen : executed.map (fun result => ((seenOn someName 0 result.1).writes,
      (seenOn someName 0 result.1).upTo 1)) = some (1, 0) := by decide +kernel
  have recorded : executed.map (fun result =>
      let log := history (projected (Event.on someName 0) result.1)
      (log.begun - log.endedAt 1, log.reads.length)) = some (0, 0) := by decide +kernel
  obtain ⟨⟨before, state⟩, reached, opened⟩ := Option.map_eq_some_iff.mp mapped
  simp only [reached, Option.map_some, Option.some.injEq, Prod.mk.injEq]
    at place number wrote seen recorded
  cases phase : (state.handle someName 1).reader.phase with
  | idle | spinning => simp [phase, attempt] at place
  | copying seq1 copy next =>
    obtain ⟨rfl, rfl⟩ : seq1 = 2 ∧ next = 4 := by simpa [phase, attempt] using place
    let returned : Event (Fin 4) (fun _ => oneInt) := .acted someName 1 0
      (.returned 1 (conclude 2 (state.handle someName 1).reader.state).1 copy)
    have taken : Guarded Disciplined (Steps Machine.perform) state returned
        (state.put someName 1 { state.handle someName 1 with
          reader := { state := (conclude 2 (state.handle someName 1).reader.state).2 } }) := by
      refine ⟨trivial, .reader someName 1, ?_⟩
      have finished : ¬ 4 < oneInt.size := by decide
      simp [Machine.perform, opened, advanceReader, phase, finished, number, seqLockReadRetry,
        returned]
    have run : DisciplinedRun (before ++ [returned]) _ :=
      ((execute_run _ _ _ _ _ reached).ofGuarded).snoc _ _ _ _ taken
    refine ⟨before, _, _, copy, run, wrote, seen.1, seen.2, ?_⟩
    intro read member
    have newest : history (projected (Event.on someName 0) (before ++ [returned])) =
        observe (history (projected (Event.on someName 0) before))
          (.returned 1 (conclude 2 (state.handle someName 1).reader.state).1 copy) := by
      rw [projected_snoc, Event.on, dif_pos ⟨rfl, rfl⟩]
      exact observed_snoc _ _ _ _
    rw [newest] at member
    rcases List.mem_append.mp member with earlier | last
    · rw [List.length_eq_zero_iff.mp recorded.2] at earlier
      cases earlier
    · obtain rfl := List.mem_singleton.mp last
      rw [recorded.1]
      exact Nat.two_pow_pos 31

/-- It hands back the write. -/
theorem machine_reads_newest_returning :
    ∃ (before : List (Event (Fin 4) (fun _ => oneInt))) (final : Machine (Fin 4) (fun _ => oneInt))
      (code : Code) (entry : Entry UInt8 oneInt.size),
    DisciplinedRun (before ++ [.acted someName 1 0 (.returned 1 code entry)]) final ∧
    (writesOn someName 0 before).map List.ofFn = [[5, 6, 7, 8]] ∧
    entry = entryAfter (writesOn someName 0 before) (writesOn someName 0 before).length := by
  obtain ⟨before, final, code, entry, run, wrote, -, -, short⟩ := about_to_return
  exact ⟨before, final, code, entry, run, wrote,
    machine_reads_newest before [] final someName 1 0 code entry run short⟩

/-- It succeeds, since the write is news to it. -/
theorem machine_codes_returning :
    ∃ (before : List (Event (Fin 4) (fun _ => oneInt))) (final : Machine (Fin 4) (fun _ => oneInt))
      (code : Code) (entry : Entry UInt8 oneInt.size),
    DisciplinedRun (before ++ [.acted someName 1 0 (.returned 1 code entry)]) final ∧
    code = .success := by
  obtain ⟨before, final, code, entry, run, -, writes, upTo, short⟩ := about_to_return
  have told := machine_codes before [] final someName 1 0 code entry run (by rw [writes]; decide)
    short
  rw [writes, upTo] at told
  exact ⟨before, final, code, entry, run, told⟩

end Tyndall.Ipc.Machines
