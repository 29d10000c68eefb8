import Tyndall.Ipc.Lazy

/-!
# Topics and their generations

What the lazy interface is for, without memory: a topic is the list of the
entries written to it. A cleanup starts a new generation of every topic, and a
static stays with the generation in which it was first used. A read returns the
last entry of its generation and tells by the number of entries whether there is
a new one, up to the width of the sequence number.

The relation to the lazy interface maps a topic and a generation to the object
that holds its entries. It is kept by every call, so a program has the outcomes
that the topics say.
-/

namespace Tyndall.Ipc

open Counter Meta Runs SeqLock

variable {Id Key Topic : Type} [DecidableEq Key] [DecidableEq Topic]

/-- All topics, and for each static in use the generation it belongs to. A
reader's static keeps its state with it. -/
structure Topics (interface : Interface Id Key Topic) where
  generation : Nat := 0
  entries : (topic : Topic) → Nat → List (Entry UInt8 (interface.type topic).size) :=
    fun _ _ => []
  writers : Key → Option Nat := fun _ => none
  readers : Key → Option (Nat × State) := fun _ => none

variable (interface : Interface Id Key Topic)

/-- The generation a write goes to. -/
def Topics.target (topics : Topics interface) (id : Id) : Nat :=
  (topics.writers (interface.slot id)).getD topics.generation

/-- The generation a read looks at, and the reader's state before it. -/
def Topics.view (topics : Topics interface) (id : Id) : Nat × State :=
  (topics.readers (interface.slot id)).getD (topics.generation, {})

/-- The entries that a read looks at. -/
def Topics.visible (topics : Topics interface) (id : Id) :
    List (Entry UInt8 (interface.typeOf id).size) :=
  topics.entries (interface.topic id) (topics.view interface id).1

/-- What a read concludes from the number of entries. -/
def Topics.judge (topics : Topics interface) (id : Id) : Code × State :=
  conclude (doubled (topics.visible interface id).length) (topics.view interface id).2

/-- One call. -/
def Topics.perform (topics : Topics interface) :
    interface.Call → interface.Outcome × Topics interface
  | .write id entry =>
      let topic := interface.topic id
      let target := topics.target interface id
      (.done, { topics with
        entries := Function.update topics.entries topic
          (Function.update (topics.entries topic) target (topics.entries topic target ++ [entry])),
        writers := Function.update topics.writers (interface.slot id) (some target) })
  | .read id =>
      let visible := topics.visible interface id
      let (rc, state) := topics.judge interface id
      (.returned id rc (entryAfter visible visible.length), { topics with
        readers := Function.update topics.readers (interface.slot id)
          (some ((topics.view interface id).1, state)) })
  | .cleanup => (.done, { topics with generation := topics.generation + 1 })

/-- What the ids in use must satisfy: a static belongs to one topic, and the
library's names tell topics apart. -/
structure Lawful (used : Id → Prop) : Prop where
  slot_topic : ∀ id other, interface.slot id = interface.slot other →
    interface.topic id = interface.topic other
  name_topic : ∀ id other, used id → used other →
    (interface.name id = interface.name other ↔ interface.topic id = interface.topic other)
  name_prefix : ∀ id, used id → matchesPrefix (interface.name id) ipcShmemPrefix = true

/-- Topics backed by shared memory. `object` says which object holds the entries
of a topic's generation, once a static has opened it. -/
structure Backed (used : Id → Prop) (object : Topic → Nat → Option Nat) (shm : Shm)
    (current : Nat) (entries : (topic : Topic) → Nat →
      List (Entry UInt8 (interface.type topic).size)) : Prop where
  prefixed : ∀ entry ∈ shm.directory, matchesPrefix entry.1 ipcShmemPrefix = true
  found : ∀ id, used id →
    shm.find (interface.name id) = object (interface.topic id) current
  separate : ∀ {topic generation other later name}, object topic generation = some name →
    object other later = some name → topic = other ∧ generation = later
  opened : ∀ {topic generation name}, object topic generation = some name → name < shm.next
  future : ∀ topic generation, current < generation → object topic generation = none
  established : ∀ {topic generation name}, object topic generation = some name →
    Established (interface.type topic) (shm.object name)
  stored : ∀ {topic generation name}, object topic generation = some name →
    sharedOf (interface.type topic) (shm.object name) = written (entries topic generation)
  untouched : ∀ {topic generation}, object topic generation = none →
    entries topic generation = []

/-- A static and the generation it belongs to. -/
def Follows (object : Nat → Option Nat) : Option ShmemBuf → Option Nat → Prop
  | none, none => True
  | some buf, some generation => object generation = some buf.buf
  | _, _ => False

/-- Shared memory and statics represent topics. -/
structure Represents (used : Id → Prop) (object : Topic → Nat → Option Nat)
    (statics : Statics Key) (topics : Topics interface) : Prop where
  backed : Backed interface used object statics.shm topics.generation topics.entries
  writers : ∀ id, used id → Follows (object (interface.topic id))
    (statics.writers (interface.slot id)) (topics.writers (interface.slot id))
  readers : ∀ id, used id → Follows (object (interface.topic id))
    (statics.readers (interface.slot id)) ((topics.readers (interface.slot id)).map Prod.fst)
  states : ∀ id, used id → (statics.readers (interface.slot id)).map ShmemBuf.state =
    (topics.readers (interface.slot id)).map Prod.snd

variable {interface} {used : Id → Prop} {object : Topic → Nat → Option Nat} {shm : Shm}
  {current : Nat} {entries : (topic : Topic) → Nat →
    List (Entry UInt8 (interface.type topic).size)}

/-- Changing a family at one pair of arguments leaves its other values. -/
theorem update_pair_of_ne {A B : Type} {C : A → Type} [DecidableEq A] [DecidableEq B]
    (family : (a : A) → B → C a) (a other : A) (b later : B) (value : C a)
    (different : ¬ (other = a ∧ later = b)) :
    Function.update family a (Function.update (family a) b value) other later =
      family other later := by
  by_cases same : other = a
  · subst same
    have elsewhere : later ≠ b := fun equal => different ⟨rfl, equal⟩
    rw [Function.update_self, Function.update_of_ne elsewhere]
  · rw [Function.update_of_ne same]

omit [DecidableEq Key] in
/-- A new established object without entries backs the current generation of a
topic that had no object there. -/
theorem Backed.create (lawful : Lawful interface used)
    (backed : Backed interface used object shm current entries) (id : Id) (inUse : used id)
    (vacant : object (interface.topic id) current = none) (block : Block)
    (established : Established (interface.typeOf id) block)
    (zeroed : sharedOf (interface.typeOf id) block = created) :
    Backed interface used
      (Function.update object (interface.topic id)
        (Function.update (object (interface.topic id)) current (some shm.next)))
      { directory := (interface.name id, shm.next) :: shm.directory,
        object := Function.update shm.object shm.next block,
        next := shm.next + 1 } current entries := by
  let object' := Function.update object (interface.topic id)
    (Function.update (object (interface.topic id)) current (some shm.next))
  have here : object' (interface.topic id) current = some shm.next := by
    simp [object']
  have elsewhere : ∀ topic generation, ¬ (topic = interface.topic id ∧ generation = current) →
      object' topic generation = object topic generation :=
    fun topic generation other => update_pair_of_ne object _ topic _ generation _ other
  -- Every object is the new one or an earlier one.
  have new_or_old : ∀ {topic generation name}, object' topic generation = some name →
      (topic = interface.topic id ∧ generation = current ∧ name = shm.next) ∨
        (object topic generation = some name ∧ name < shm.next) := by
    intro topic generation name mapped
    by_cases new : topic = interface.topic id ∧ generation = current
    · obtain ⟨rfl, rfl⟩ := new
      rw [here, Option.some.injEq] at mapped
      exact .inl ⟨rfl, rfl, mapped.symm⟩
    · rw [elsewhere topic generation new] at mapped
      exact .inr ⟨mapped, backed.opened mapped⟩
  constructor
  case prefixed =>
    intro entry member
    rcases List.mem_cons.mp member with rfl | earlier
    · exact lawful.name_prefix id inUse
    · exact backed.prefixed entry earlier
  case found =>
    intro other otherUsed
    rw [Shm.find, List.lookup_cons]
    by_cases same : interface.topic other = interface.topic id
    · have name := (lawful.name_topic other id otherUsed inUse).mpr same
      simp [name, same]
    · have name : interface.name other ≠ interface.name id :=
        mt (lawful.name_topic other id otherUsed inUse).mp same
      rw [update_pair_of_ne _ _ _ _ _ _ (fun new => same new.1), ← backed.found other otherUsed,
        Shm.find, beq_false_of_ne name]
  case separate =>
    intro topic generation other later name first second
    rcases new_or_old first with ⟨rfl, rfl, rfl⟩ | ⟨first, below⟩
    · rcases new_or_old second with ⟨rfl, rfl, -⟩ | ⟨-, below⟩
      · exact ⟨rfl, rfl⟩
      · exact absurd below (Nat.lt_irrefl _)
    · rcases new_or_old second with ⟨-, -, rfl⟩ | ⟨second, -⟩
      · exact absurd below (Nat.lt_irrefl _)
      · exact backed.separate first second
  case opened =>
    intro topic generation name mapped
    rcases new_or_old mapped with ⟨-, -, rfl⟩ | ⟨-, below⟩
    · exact Nat.lt_succ_self _
    · exact Nat.lt_succ_of_lt below
  case future =>
    intro topic generation later
    rw [update_pair_of_ne _ _ _ _ _ _ (fun new => Nat.ne_of_gt later new.2)]
    exact backed.future topic generation later
  case established =>
    intro topic generation name mapped
    rcases new_or_old mapped with ⟨rfl, -, rfl⟩ | ⟨old, below⟩
    · simpa using established
    · simpa [Nat.ne_of_lt below] using backed.established old
  case stored =>
    intro topic generation name mapped
    rcases new_or_old mapped with ⟨rfl, rfl, rfl⟩ | ⟨old, below⟩
    · simpa [backed.untouched vacant] using zeroed
    · simpa [Nat.ne_of_lt below] using backed.stored old
  case untouched =>
    intro topic generation unmapped
    by_cases new : topic = interface.topic id ∧ generation = current
    · rw [new.1, new.2] at unmapped
      exact absurd (here.symm.trans unmapped) (Option.some_ne_none _)
    · exact backed.untouched ((elsewhere topic generation new).symm.trans unmapped)

omit [DecidableEq Key] in
/-- Opening a topic's name leads to the object of its current generation, which
is created where there is none. What was mapped before stays where it was. -/
theorem Backed.attach (lawful : Lawful interface used)
    (backed : Backed interface used object shm current entries) (id : Id) (inUse : used id) :
    ∃ name shm' object', shmemBufInit shm (interface.typeOf id) (interface.name id) =
        some (name, shm') ∧
      Backed interface used object' shm' current entries ∧
      object' (interface.topic id) current = some name ∧
      ∀ topic generation name, object topic generation = some name →
        object' topic generation = some name := by
  have found := backed.found id inUse
  cases stands : object (interface.topic id) current with
  | some name =>
    exact ⟨name, shm, object, shmemBufInit_found shm _ _ name (found.trans stands)
      (backed.established stands), backed, stands, fun _ _ _ kept => kept⟩
  | none =>
    obtain ⟨block, established, zeroed, opened⟩ :=
      shmemBufInit_missing shm (interface.typeOf id) (interface.name id) (found.trans stands)
    refine ⟨_, _, _, opened, backed.create lawful id inUse stands block established zeroed,
      by simp, ?_⟩
    intro topic generation name mapped
    have old : ¬ (topic = interface.topic id ∧ generation = current) := by
      rintro ⟨rfl, rfl⟩
      rw [stands] at mapped
      cases mapped
    rw [update_pair_of_ne _ _ _ _ _ _ old, mapped]

omit [DecidableEq Key] in
/-- A write through a mapped object appends to its topic's generation. -/
theorem Backed.append (backed : Backed interface used object shm current entries) (topic : Topic)
    (generation : Nat) (buf : ShmemBuf) (mapped : object topic generation = some buf.buf)
    (entry : Entry UInt8 (interface.type topic).size) :
    Backed interface used object (buf.write (interface.type topic) shm entry) current
      (Function.update entries topic
        (Function.update (entries topic) generation (entries topic generation ++ [entry]))) := by
  have changed : ∀ {other later name}, object other later = some name →
      ¬ (other = topic ∧ later = generation) → name ≠ buf.buf := by
    rintro other later name found different rfl
    exact different (backed.separate found mapped)
  have kept : ∀ other later, ¬ (other = topic ∧ later = generation) →
      Function.update entries topic
        (Function.update (entries topic) generation (entries topic generation ++ [entry]))
        other later = entries other later :=
    fun other later different => update_pair_of_ne entries _ other _ later _ different
  have put := putShared_established (interface.type topic) (shm.object buf.buf)
    (backed.established mapped)
    (SeqLock.write (sharedOf (interface.type topic) (shm.object buf.buf)) entry)
  refine ⟨backed.prefixed, backed.found, backed.separate, backed.opened, backed.future, ?_, ?_, ?_⟩
  · intro other later name found
    by_cases same : other = topic ∧ later = generation
    · obtain ⟨rfl, rfl⟩ := same
      rw [mapped, Option.some.injEq] at found
      subst found
      simpa [ShmemBuf.write] using put.2
    · simpa [ShmemBuf.write, Shm.modify, changed found same] using backed.established found
  · intro other later name found
    by_cases same : other = topic ∧ later = generation
    · obtain ⟨rfl, rfl⟩ := same
      rw [mapped, Option.some.injEq] at found
      subst found
      simpa [ShmemBuf.write, backed.stored mapped] using put.1
    · rw [kept other later same]
      simpa [ShmemBuf.write, Shm.modify, changed found same] using backed.stored found
  · intro other later unmapped
    have different : ¬ (other = topic ∧ later = generation) := by
      rintro ⟨rfl, rfl⟩
      rw [mapped] at unmapped
      cases unmapped
    rw [kept other later different]
    exact backed.untouched unmapped

omit [DecidableEq Key] [DecidableEq Topic] in
/-- A cleanup leaves every name unknown and every object where it was. -/
theorem Backed.cleanup (backed : Backed interface used object shm current entries) :
    Backed interface used object (shmemUnlinkAll shm ipcShmemPrefix) (current + 1) entries := by
  rw [shmemUnlinkAll_clears shm _ backed.prefixed]
  refine ⟨by simp, ?_, backed.separate, backed.opened, ?_, backed.established, backed.stored,
    backed.untouched⟩
  · intro id _
    rw [backed.future _ _ (Nat.lt_succ_self current)]
    rfl
  · exact fun topic generation later => backed.future topic generation (by omega)

/-- A static keeps following its generation when more objects are mapped. -/
theorem Follows.mono {before after : Nat → Option Nat} {slot : Option ShmemBuf}
    {ghost : Option Nat} (follows : Follows before slot ghost)
    (kept : ∀ generation name, before generation = some name → after generation = some name) :
    Follows after slot ghost := by
  cases slot <;> cases ghost <;> simp_all [Follows]

omit [DecidableEq Key] in
/-- Entering a function with a static leads to the object of the static's
generation, which on the first call is the current one. -/
theorem Backed.enter (lawful : Lawful interface used)
    (backed : Backed interface used object shm current entries) (id : Id) (inUse : used id)
    {slot : Option ShmemBuf} {ghost : Option Nat}
    (follows : Follows (object (interface.topic id)) slot ghost) :
    ∃ buf shm' object', enter shm (interface.typeOf id) (interface.name id) slot =
        some (buf, shm') ∧
      Backed interface used object' shm' current entries ∧
      object' (interface.topic id) (ghost.getD current) = some buf.buf ∧
      buf.state = (slot.map ShmemBuf.state).getD {} ∧
      ∀ topic generation name, object topic generation = some name →
        object' topic generation = some name := by
  cases slot with
  | some buf =>
    cases ghost with
    | none => exact follows.elim
    | some generation => exact ⟨buf, shm, object, rfl, backed, follows, rfl, fun _ _ _ kept => kept⟩
  | none =>
    cases ghost with
    | some generation => exact follows.elim
    | none =>
      obtain ⟨name, shm', object', created, backed', mapped, kept⟩ :=
        backed.attach lawful id inUse
      exact ⟨{ buf := name }, shm', object', by simp [Ipc.enter, ShmemBuf.create, created],
        backed', mapped, rfl, kept⟩

variable {statics : Statics Key} {topics : Topics interface}

omit [DecidableEq Topic] in
/-- Replacing the static of one id, together with its generation, keeps every
static with its generation. -/
theorem Follows.update (lawful : Lawful interface used) {object' : Topic → Nat → Option Nat}
    (slots : Key → Option ShmemBuf) (ghosts : Key → Option Nat)
    (follows : ∀ id, used id → Follows (object (interface.topic id))
      (slots (interface.slot id)) (ghosts (interface.slot id)))
    (kept : ∀ topic generation name, object topic generation = some name →
      object' topic generation = some name)
    (id : Id) (buf : ShmemBuf) (generation : Nat)
    (mapped : object' (interface.topic id) generation = some buf.buf) :
    ∀ other, used other → Follows (object' (interface.topic other))
      (Function.update slots (interface.slot id) (some buf) (interface.slot other))
      (Function.update ghosts (interface.slot id) (some generation) (interface.slot other)) := by
  intro other otherUsed
  by_cases same : interface.slot other = interface.slot id
  · rw [same, Function.update_self, Function.update_self, lawful.slot_topic other id same]
    exact mapped
  · rw [Function.update_of_ne same, Function.update_of_ne same]
    exact (follows other otherUsed).mono (kept _)

/-- A write of the lazy interface is a write of the topic. -/
theorem Represents.write (lawful : Lawful interface used)
    (represents : Represents interface used object statics topics) (id : Id) (inUse : used id)
    (entry : Entry UInt8 (interface.typeOf id).size) :
    ∃ statics' object', ipcLazyWrite interface statics id entry = some statics' ∧
      Represents interface used object' statics'
        (topics.perform interface (.write id entry)).2 := by
  obtain ⟨buf, shm', object', entered, backed, mapped, -, kept⟩ :=
    represents.backed.enter lawful id inUse (represents.writers id inUse)
  refine ⟨{ statics with
      shm := buf.write (interface.typeOf id) shm' entry,
      writers := Function.update statics.writers (interface.slot id) (some buf) }, object',
    ?_, ?_, ?_, ?_, represents.states⟩
  · rw [ipcLazyWrite, entered]
    rfl
  · exact backed.append _ _ buf mapped entry
  · exact Follows.update lawful _ _ represents.writers kept id buf _ mapped
  · exact fun other otherUsed => (represents.readers other otherUsed).mono (kept _)

/-- A read of the lazy interface is a read of the topic, and always returns. -/
theorem Represents.read (lawful : Lawful interface used)
    (represents : Represents interface used object statics topics) (id : Id) (inUse : used id) :
    ∃ statics' object', ipcLazyRead interface statics id =
        some ((topics.judge interface id).1, entryAfter (topics.visible interface id)
          (topics.visible interface id).length, statics') ∧
      Represents interface used object' statics' (topics.perform interface (.read id)).2 := by
  obtain ⟨buf, shm', object', entered, backed, mapped, state, kept⟩ :=
    represents.backed.enter lawful id inUse (represents.readers id inUse)
  have view : (((topics.readers (interface.slot id)).map Prod.fst).getD topics.generation,
      buf.state) = topics.view interface id := by
    rw [state, represents.states id inUse, Topics.view]
    cases topics.readers (interface.slot id) <;> rfl
  have generation := congrArg Prod.fst view
  have sameState := congrArg Prod.snd view
  simp only at generation sameState
  rw [generation] at mapped
  have stored := backed.stored mapped
  have returned : buf.read (interface.typeOf id) shm' =
      some ((topics.judge interface id).1, entryAfter (topics.visible interface id)
        (topics.visible interface id).length,
        { buf with state := (topics.judge interface id).2 }) := by
    obtain ⟨seq, entry⟩ := written_state (topics.visible interface id)
    rw [ShmemBuf.read, stored, Topics.judge]
    change Option.bind (SeqLock.read (written (topics.visible interface id)) buf.state) _ = _
    rw [read_even _ _ (by rw [seq]; exact doubled_low_bit _), seq, entry, sameState]
    rfl
  let reader : ShmemBuf := { buf with state := (topics.judge interface id).2 }
  refine ⟨{ statics with
      shm := shm',
      readers := Function.update statics.readers (interface.slot id) (some reader) }, object',
    ?_, backed, ?_, ?_, ?_⟩
  · rw [ipcLazyRead, entered]
    change Option.bind (buf.read (interface.typeOf id) shm') _ = _
    rw [returned]
    rfl
  · exact fun other otherUsed => (represents.writers other otherUsed).mono (kept _)
  · intro other otherUsed
    have follows := Follows.update lawful statics.readers
      (fun key => (topics.readers key).map Prod.fst) represents.readers kept id reader _ mapped
      other otherUsed
    by_cases same : interface.slot other = interface.slot id
    · simpa [Topics.perform, same] using follows
    · simpa [Topics.perform, same] using follows
  · intro other otherUsed
    by_cases same : interface.slot other = interface.slot id
    · simp [Topics.perform, same, reader]
    · simpa [Topics.perform, same] using represents.states other otherUsed

/-- A call of the lazy interface has the outcome the topics say. -/
theorem Represents.perform (lawful : Lawful interface used)
    (represents : Represents interface used object statics topics) (call : interface.Call)
    (inUse : ∀ id, call.Names id → used id) :
    ∃ statics' object', statics.perform interface call =
        some ((topics.perform interface call).1, statics') ∧
      Represents interface used object' statics' (topics.perform interface call).2 := by
  cases call with
  | write id entry =>
    obtain ⟨statics', object', written, represents'⟩ :=
      represents.write lawful id (inUse id rfl) entry
    exact ⟨statics', object', by rw [Statics.perform, written]; rfl, represents'⟩
  | read id =>
    obtain ⟨statics', object', returned, represents'⟩ := represents.read lawful id (inUse id rfl)
    exact ⟨statics', object', by rw [Statics.perform, returned]; rfl, represents'⟩
  | cleanup =>
    exact ⟨ipcCleanup statics, object, rfl, represents.backed.cleanup, represents.writers,
      represents.readers, represents.states⟩

omit [DecidableEq Key] [DecidableEq Topic] in
/-- Before the first call there are no names, no statics and no entries. -/
theorem represents_start :
    Represents interface used (fun _ _ => none) ({} : Statics Key) ({} : Topics interface) := by
  constructor
  case backed => constructor <;> simp [Shm.find]
  case writers => exact fun _ _ => trivial
  case readers => exact fun _ _ => trivial
  case states => exact fun _ _ => rfl

/-- The topics after a program. -/
def Topics.after (program : List interface.Call) : Topics interface :=
  (replay (Topics.perform interface) {} program).2

@[simp] theorem Topics.after_nil : Topics.after ([] : List interface.Call) = {} := rfl

@[simp] theorem Topics.after_snoc (program : List interface.Call) (call : interface.Call) :
    Topics.after (program ++ [call]) = ((Topics.after program).perform interface call).2 := by
  simp [Topics.after, replay_snoc]

/-- A program of the lazy interface runs to its end with the outcomes the topics say. -/
theorem program_outcomes (lawful : Lawful interface used) (program : List interface.Call)
    (inUse : ∀ call ∈ program, ∀ id, call.Names id → used id) :
    ∃ final, execute (Statics.perform interface) {} program =
      some ((replay (Topics.perform interface) {} program).1, final) := by
  obtain ⟨final, executed, -⟩ := execute_simulates (Statics.perform interface)
    (Topics.perform interface)
    (fun statics topics => ∃ object, Represents interface used object statics topics)
    (fun call => ∀ id, call.Names id → used id)
    (by
      rintro statics topics call ⟨object, represents⟩ allowed
      obtain ⟨statics', object', performed, represents'⟩ :=
        represents.perform lawful call allowed
      exact ⟨statics', performed, object', represents'⟩)
    program inUse {} {} ⟨_, represents_start⟩
  exact ⟨final, executed⟩

omit [DecidableEq Key] [DecidableEq Topic] in
/-- An interface that opens prepared names is lawful for ids whose names are free
of NULs, have the prefix and differ exactly where the topics do. -/
theorem prepared_lawful (prepare : Id → Name)
    (slot_topic : ∀ id other, interface.slot id = interface.slot other →
      interface.topic id = interface.topic other)
    (opens : ∀ id, interface.name id = cString (prepare id))
    (nulFree : ∀ id, used id → 0 ∉ prepare id)
    (starts : ∀ id, used id → ipcShmemPrefix <+: prepare id)
    (distinct : ∀ id other, used id → used other →
      (prepare id = prepare other ↔ interface.topic id = interface.topic other)) :
    Lawful interface used := by
  have name : ∀ id, used id → interface.name id = prepare id :=
    fun id inUse => (opens id).trans (cString_of_nulFree _ (nulFree id inUse))
  constructor
  · exact slot_topic
  · intro id other inUse otherUsed
    rw [name id inUse, name other otherUsed]
    exact distinct id other inUse otherUsed
  · intro id inUse
    obtain ⟨rest, prepared⟩ := starts id inUse
    rw [name id inUse, ← prepared]
    exact matchesPrefix_append _ _

/-- The compile-time interface is lawful for NUL-free ids whose names differ
where the topics do. -/
theorem ipc_lawful {Process : Type} (type : Strval → StorageType)
    (used : Process × Strval → Prop) (nulFree : ∀ id, used id → 0 ∉ id.2)
    (distinct : ∀ id other, used id → used other → idPrepare id.2 = idPrepare other.2 →
      idRemoveLeadingSlashes id.2 = idRemoveLeadingSlashes other.2) :
    Lawful (ipcInterface Process type) used := by
  refine prepared_lawful (fun id => idPrepare id.2)
    (fun _ _ => congrArg (ipcInterface Process type).topic) (fun _ => rfl) ?_ ?_ ?_
  · exact fun id inUse => idPrepare_nulFree id.2 (nulFree id inUse)
  · intro id _
    simp only [idPrepare, List.append_assoc]
    exact List.prefix_append _ _
  · exact fun id other inUse otherUsed =>
      ⟨distinct id other inUse otherUsed, idPrepare_congr id.2 other.2⟩

end Tyndall.Ipc
